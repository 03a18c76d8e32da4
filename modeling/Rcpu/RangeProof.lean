import Rcpu.WalletSpend

/-!
# The size of a range proof

`secp256k1_range_proveparams` and `secp256k1_rangeproof_sign_impl` of the range proof module: how
many rings a proof has and what is written into it, byte by byte.  Scalar and curve arithmetic,
the random generator, the hash and the ring signature are fields of `RangeproofLib`; each of them
can fail.  The wallet predicts the length of a proof from the amount alone, before it blinds.
-/

namespace Rcpu.RangeProof

open Checks ByteStream Serialize Confidential Transaction WalletSpend

def UINT64_MAX : Nat := 2 ^ 64 - 1

def INT64_MAX : Nat := 2 ^ 63 - 1

def clz64 (x : Nat) : Nat := 64 - Nat.size x

structure ProveParams where
  v : Nat
  rings : Nat
  rsizes : List Nat
  npub : Nat
  secidx : List Nat
  min_value : Nat
  mantissa : Nat
  scale : Nat
  exp : Nat
  min_bits : Int
deriving DecidableEq, Repr

/-- Drops decimal digits of `v` while the exponent asks for it and `v2` leaves room; the number of
digits dropped is the exponent used. -/
def maskDigits : Nat → Nat → Nat → Nat × Nat
  | 0, v, _ => (v, 0)
  | exp + 1, v, v2 =>
    if v2 ≤ UINT64_MAX / 10 then
      let (v', i) := maskDigits exp (v / 10) (v2 * 10)
      (v', i + 1)
    else (v, 0)

/-- The rings of a number of `mantissa` bits: digits in radix 4, except for the last digit if the
mantissa length is odd. -/
def ringSizes (mantissa : Nat) : List Nat :=
  let rings := (mantissa + 1) / 2
  (List.range rings).map fun i => if i < rings - 1 ∨ mantissa % 2 = 0 then 4 else 2

def rangeProveparams (min_value : Nat) (exp min_bits : Int) (value : Nat) : Option ProveParams :=
  let exp := if min_value = UINT64_MAX then -1 else exp
  if exp ≥ 0 then
    if (min_value ≠ 0 ∧ value > INT64_MAX) ∨ (value ≠ 0 ∧ min_value ≥ INT64_MAX) then none
    else
      let max_bits : Int := if min_value ≠ 0 then clz64 min_value else 64
      let min_bits := if min_bits > max_bits then max_bits else min_bits
      let exp := if min_bits > 61 ∨ value > INT64_MAX then 0 else exp
      let v2 := if min_bits ≠ 0 then UINT64_MAX / 2 ^ (64 - min_bits.toNat) else 0
      let (v, exp) := maskDigits exp.toNat (value - min_value) v2
      let scale := 10 ^ exp
      let min_value := value - v * scale
      let mantissa := if v ≠ 0 then 64 - clz64 v else 1
      let mantissa := if min_bits > mantissa then min_bits.toNat else mantissa
      let rsizes := ringSizes mantissa
      some { v, rings := (mantissa + 1) / 2, rsizes, npub := rsizes.sum,
             secidx := (List.range ((mantissa + 1) / 2)).map fun i => v / 4 ^ i % 4,
             min_value, mantissa, scale, exp, min_bits }
  else
    -- A proof for an exact value.
    some { v := 0, rings := 1, rsizes := [1], npub := 2, secidx := [0], min_value := value,
           mantissa := 0, scale := 1, exp := 0, min_bits }

/-- What the prover takes from the rest of the library.  Fixed arrays of scalars are functions of
the index. -/
structure RangeproofLib (𝕊 𝔾 : Type) where
  /-- The blinding factors `sec` and the signatures `s`, from the message, the ring sizes, the
  nonce, the commitment, the proof so far and the generator. -/
  genrand : Bytes → List Nat → Uint256 → 𝔾 → Bytes → 𝔾 → Option ((Nat → 𝕊) × (Nat → 𝕊))
  /-- A scalar from 32 bytes, and whether they overflow. -/
  scalarSetB32 : Uint256 → 𝕊 × Bool
  scalarAdd : 𝕊 → 𝕊 → 𝕊
  scalarIsZero : 𝕊 → Bool
  /-- The zero that `secp256k1_scalar_clear` leaves. -/
  scalarClear : 𝕊
  scalarGetB32 : 𝕊 → Uint256
  pedersenEcmult : 𝕊 → Nat → 𝔾 → 𝔾
  gejIsInfinity : 𝔾 → Bool
  /-- Whether `y` is not a square, and the x coordinate. -/
  serializePoint : 𝔾 → Bool × Uint256
  /-- The candidate digits of every ring, from the first of each. -/
  pubExpand : List 𝔾 → Nat → List Nat → 𝔾 → List 𝔾
  sha256 : Bytes → Uint256
  /-- The first challenge and the signatures `s`, from `s`, `pubs`, `k`, `sec`, `rsizes`, `secidx`
  and the message. -/
  borromeanSign : (Nat → 𝕊) → List 𝔾 → (Nat → 𝕊) → (Nat → 𝕊) → List Nat → List Nat → Uint256 →
    Option (Uint256 × (Nat → 𝕊))

/-- The header: exponent and mantissa of a ranged proof, and the public offset if there is one. -/
def proofHeader (p : ProveParams) : Bytes :=
  let ranged := p.rsizes.headD 0 > 1
  let first :=
    (if ranged then 64 ||| UInt8.ofNat p.exp else 0) ||| (if p.min_value ≠ 0 then 32 else 0)
  first :: ((if ranged then [UInt8.ofNat (p.mantissa - 1)] else []) ++
    if p.min_value ≠ 0 then beBytes 8 p.min_value else [])

/-- What `secp256k1_rangeproof_sign_impl` settles before it draws randomness: parameters, header,
and room for message and proof. -/
def signHeader (plen min_value : Nat) (exp min_bits : Int) (value msg_len : Nat) :
    Option (ProveParams × Bytes) :=
  if plen < 65 ∨ min_value > value ∨ min_bits > 64 ∨ min_bits < 0 ∨ exp < -1 ∨ exp > 18 then none
  else do
    let p ← rangeProveparams min_value exp min_bits value
    let header := proofHeader p
    if msg_len > 0 ∧ msg_len > 128 * (p.rings - 1) then none
    else if plen - header.length < 32 * (p.npub + p.rings - 1) + 32 + (p.rings + 6) / 8 then none
    else some (p, header)

def overwrite (bs : Bytes) (idx : Nat) (new : Bytes) : Bytes :=
  bs.take idx ++ new ++ bs.drop (idx + new.length)

/-- The 4096 bytes mixed into the forged signatures: the message, and in the last ring the value,
in the place of a digit that is not the signer's. -/
def prepare (p : ProveParams) (message : Bytes) : Bytes :=
  let prep := overwrite (List.replicate 4096 0) 0 message
  let last := p.rings - 1
  if p.rsizes.getD last 0 > 1 then
    let idx := p.rsizes.getD last 0 - 1
    let idx := if p.secidx.getD last 0 = idx then idx - 1 else idx
    let value := beBytes 8 p.v
    overwrite prep ((last * 4 + idx) * 32) ([128, 0, 0, 0, 0, 0, 0, 0] ++ value ++ value ++ value)
  else prep

def signBytes (n : Nat) (quadness : List Bool) : Bytes :=
  quadness.zipIdx.foldl
    (fun signs (q, i) => signs.modify (i / 8) (· ||| (q.toUInt8 <<< UInt8.ofNat (i % 8))))
    (List.replicate n 0)

def pointBytes (point : Bool × Uint256) : Bytes := point.1.toUInt8 :: point.2.bytes

/-- The part of the proof after the header: signs, the commitments to all digits but the last, the
first challenge and the signatures. -/
def signRings {𝕊 𝔾 : Type} (lib : RangeproofLib 𝕊 𝔾) (commit genp : 𝔾) (blind nonce : Uint256)
    (message extra_commit : Bytes) (p : ProveParams) (header : Bytes) : Option Bytes := do
  let (sec, s) ← lib.genrand (prepare p message) p.rsizes nonce commit header genp
  let digit := fun i => i * 4 + p.secidx.getD i 0
  -- Sign will overwrite the non-forged signature, move that random value into the nonce.
  let k := fun i => s (digit i)
  let s := fun j => if j ∈ (List.range p.rings).map digit then lib.scalarClear else s j
  let (stmp, overflow) := lib.scalarSetB32 blind
  let lastSec := lib.scalarAdd (sec (p.rings - 1)) stmp
  let sec := fun i => if i = p.rings - 1 then lastSec else sec i
  if overflow || lib.scalarIsZero lastSec then none
  else
    let pubs ← (List.range p.rings).mapM fun i =>
      let pub := lib.pedersenEcmult (sec i) (p.secidx.getD i 0 * p.scale * 4 ^ i % 2 ^ 64) genp
      if lib.gejIsInfinity pub then none else some pub
    let sent := pubs.dropLast.map lib.serializePoint
    let transcript := pointBytes (lib.serializePoint commit) ++
      pointBytes (lib.serializePoint genp) ++ header ++ sent.flatMap pointBytes ++ extra_commit
    let (e0, s) ← lib.borromeanSign s (lib.pubExpand pubs p.exp p.rsizes genp) k sec p.rsizes
      p.secidx (lib.sha256 transcript)
    return signBytes ((p.rings + 6) / 8) (sent.map Prod.fst) ++
      sent.flatMap (fun point => point.2.bytes) ++ e0.bytes ++
      (List.range p.rsizes.sum).flatMap fun i => (lib.scalarGetB32 (s i)).bytes

def rangeproofSignImpl {𝕊 𝔾 : Type} (lib : RangeproofLib 𝕊 𝔾) (plen min_value : Nat)
    (commit : 𝔾) (blind nonce : Uint256) (exp min_bits : Int) (value : Nat)
    (message extra_commit : Bytes) (genp : 𝔾) : Option Bytes := do
  let (p, header) ← signHeader plen min_value exp min_bits value message.length
  let rings ← signRings lib commit genp blind nonce message extra_commit p header
  return header ++ rings

/-! ### Parameters of a proof from zero -/

/-- The loop of `EstimatedRangeProofSize`: the mantissa grows with each halving of the value. -/
def estimatedMantissa (v : Nat) : Nat :=
  if v > 1 then estimatedMantissa (v / 2) + 1 else 1

/-- The loop computes the bit length that `estimatedRangeProofSize` is written with. -/
theorem estimatedMantissa_eq (v : Nat) : estimatedMantissa v = Nat.log2 v + 1 := by
  induction v using estimatedMantissa.induct with
  | case1 v hv ih =>
    rw [estimatedMantissa, if_pos hv, ih, Nat.log2_def v, if_pos (Nat.succ_le_of_lt hv)]
  | case2 v hv =>
    rw [estimatedMantissa, if_neg hv, Nat.log2_def, if_neg (by omega)]

theorem mantissa_eq {v : Nat} (hv : v < 2 ^ 64) :
    (if v ≠ 0 then 64 - clz64 v else 1) = Nat.log2 v + 1 := by
  by_cases hzero : v = 0
  · subst hzero
    rfl
  rw [if_pos hzero]
  have hsize : Nat.size v ≤ 64 := Nat.size_le.mpr hv
  have hupper : Nat.size v ≤ Nat.log2 v + 1 := Nat.size_le.mpr Nat.lt_log2_self
  have hlower : Nat.log2 v < Nat.size v := Nat.lt_size.mpr (Nat.log2_self_le hzero)
  unfold clz64
  omega

theorem ringSizes_eq {m : Nat} (hm : 0 < m) :
    ringSizes m =
      List.replicate ((m + 1) / 2 - 1) 4 ++ [if m % 2 = 1 then 2 else 4] := by
  obtain ⟨n, hn⟩ : ∃ n, (m + 1) / 2 = n + 1 := ⟨(m + 1) / 2 - 1, by omega⟩
  have hinit : (List.range n).map (fun i => if i < n ∨ m % 2 = 0 then 4 else 2) =
      List.replicate n 4 := by
    refine List.eq_replicate_iff.mpr ⟨by simp, ?_⟩
    intro size hmem
    obtain ⟨i, hi, rfl⟩ := List.mem_map.mp hmem
    exact if_pos (Or.inl (List.mem_range.mp hi))
  have hlast : (if n < n ∨ m % 2 = 0 then 4 else 2) = if m % 2 = 1 then 2 else 4 := by
    split_ifs <;> omega
  simp only [ringSizes, hn, Nat.add_sub_cancel, List.range_succ, List.map_append, List.map_cons,
    List.map_nil, hinit, hlast]

theorem sum_ringSizes {m : Nat} (hm : 0 < m) :
    (ringSizes m).sum = 4 * ((m + 1) / 2 - 1) + if m % 2 = 1 then 2 else 4 := by
  rw [ringSizes_eq hm, List.sum_append, List.sum_replicate, List.sum_singleton, smul_eq_mul,
    Nat.mul_comm]

theorem one_lt_head_ringSizes {m : Nat} (hm : 0 < m) : 1 < (ringSizes m).headD 0 := by
  rw [ringSizes_eq hm]
  cases (m + 1) / 2 - 1 with
  | zero =>
    show 1 < if m % 2 = 1 then 2 else 4
    split_ifs <;> omega
  | succ n =>
    show 1 < 4
    omega

def zeroParams (value : Nat) : ProveParams :=
  let mantissa := Nat.log2 value + 1
  { v := value, rings := (mantissa + 1) / 2, rsizes := ringSizes mantissa,
    npub := (ringSizes mantissa).sum,
    secidx := (List.range ((mantissa + 1) / 2)).map fun i => value / 4 ^ i % 4,
    min_value := 0, mantissa, scale := 1, exp := 0, min_bits := 0 }

theorem rangeProveparams_zero {value : Nat} (hvalue : value < 2 ^ 63) :
    rangeProveparams 0 0 0 value = some (zeroParams value) := by
  have hmantissa := mantissa_eq (v := value) (by omega)
  have hoverflow : ¬ ((0 ≠ 0 ∧ value > INT64_MAX) ∨ (value ≠ 0 ∧ 0 ≥ INT64_MAX)) := by
    unfold INT64_MAX
    omega
  have hexp : (if (0 : Nat) = UINT64_MAX then (-1 : Int) else 0) = 0 := rfl
  have hbits : (if (0 : Int) > ((Nat.log2 value + 1 : Nat) : Int) then Int.toNat 0
      else Nat.log2 value + 1) = Nat.log2 value + 1 := if_neg (by omega)
  have hmask : maskDigits (if (0 : Int) > 61 ∨ value > INT64_MAX then (0 : Int) else 0).toNat
      (value - 0) 0 = (value, 0) := by
    rw [ite_self]
    rfl
  simp only [rangeProveparams, hexp, ge_iff_le, le_refl, if_true]
  rw [if_neg hoverflow]
  simp only [ne_eq, not_true_eq_false, if_false, show ¬ ((0 : Int) > 64) by decide, hmask,
    hmantissa, hbits, pow_zero, mul_one, Nat.sub_self, zeroParams]

/-! ### Length -/

@[simp] theorem length_signBytes (n : Nat) (quadness : List Bool) :
    (signBytes n quadness).length = n := by
  unfold signBytes
  generalize quadness.zipIdx = bits
  -- a bit is set in place
  suffices h : ∀ signs : Bytes, (bits.foldl (fun signs (q, i) =>
      signs.modify (i / 8) (· ||| (q.toUInt8 <<< UInt8.ofNat (i % 8)))) signs).length =
        signs.length by
    rw [h, List.length_replicate]
  intro signs
  induction bits generalizing signs with
  | nil => rfl
  | cons bit bits ih => rw [List.foldl_cons, ih, List.length_modify]

theorem length_flatMap_bytes {ι : Type} (l : List ι) (f : ι → Uint256) :
    (l.flatMap fun i => (f i).bytes).length = 32 * l.length := by
  rw [List.length_flatMap, List.map_congr_left fun i _ => (f i).size_eq, List.map_const',
    List.sum_replicate, smul_eq_mul, Nat.mul_comm]

section Length

variable {𝕊 𝔾 : Type} {lib : RangeproofLib 𝕊 𝔾} {commit genp : 𝔾} {blind nonce : Uint256}
  {message extra_commit : Bytes} {p : ProveParams}

/-- A sign bit and a commitment for each ring but the last, a challenge, and a signature for each
digit of each ring. -/
theorem length_signRings {header rings : Bytes}
    (h : signRings lib commit genp blind nonce message extra_commit p header = some rings) :
    rings.length = (p.rings + 6) / 8 + 32 * (p.rings - 1) + 32 + 32 * p.rsizes.sum := by
  obtain ⟨⟨sec, s⟩, -, h⟩ := Option.bind_eq_some_iff.mp h
  by_cases hblind : (lib.scalarSetB32 blind).2 ||
      lib.scalarIsZero (lib.scalarAdd (sec (p.rings - 1)) (lib.scalarSetB32 blind).1)
  · simp only [hblind, if_true, reduceCtorEq] at h
  simp only [hblind, Bool.false_eq_true, if_false] at h
  obtain ⟨pubs, hpubs, h⟩ := Option.bind_eq_some_iff.mp h
  obtain ⟨⟨e0, s'⟩, -, h⟩ := Option.bind_eq_some_iff.mp h
  have hlength : pubs.length = p.rings := by
    rw [← (mapM_eq_some.mp hpubs).length_eq, List.length_range]
  obtain rfl := Option.some.inj h
  simp only [List.length_append, length_signBytes, length_flatMap_bytes, e0.size_eq,
    List.length_map, List.length_dropLast, hlength, List.length_range]

theorem length_proofHeader_zero (value : Nat) : (proofHeader (zeroParams value)).length = 2 := by
  have hranged : (zeroParams value).rsizes.headD 0 > 1 :=
    one_lt_head_ringSizes (Nat.succ_pos (Nat.log2 value))
  have hmin : ¬ (zeroParams value).min_value ≠ 0 := fun h => h rfl
  simp only [proofHeader, if_pos hranged, if_neg hmin, List.length_cons, List.length_append,
    List.length_nil]

/-- The wallet's formula counts the header and what the rings take. -/
theorem size_zeroParams (value : Nat) :
    2 + (((zeroParams value).rings + 6) / 8 + 32 * ((zeroParams value).rings - 1) + 32 +
      32 * (zeroParams value).rsizes.sum) = estimatedRangeProofSize value := by
  have hsum := sum_ringSizes (m := Nat.log2 value + 1) (Nat.succ_pos _)
  simp only [zeroParams, estimatedRangeProofSize, Int.toNat_natCast]
  omega

/-- The checks before signing, for a proof from zero: only the room for the proof is left. -/
theorem signHeader_zero {plen value : Nat} (hvalue : value < 2 ^ 63) :
    signHeader plen 0 0 0 value 0 =
      if estimatedRangeProofSize value ≤ plen then
        some (zeroParams value, proofHeader (zeroParams value))
      else none := by
  have hsize := size_zeroParams value
  have hrings : 1 ≤ (zeroParams value).rings := by
    show 1 ≤ (Nat.log2 value + 1 + 1) / 2
    omega
  have hpubs : 2 ≤ (zeroParams value).rsizes.sum := by
    show 2 ≤ (ringSizes (Nat.log2 value + 1)).sum
    rw [sum_ringSizes (Nat.succ_pos _)]
    split_ifs <;> omega
  have hnpub : (zeroParams value).npub = (zeroParams value).rsizes.sum := rfl
  have hheader := length_proofHeader_zero value
  by_cases hplen : plen < 65
  · rw [if_neg (by omega)]
    exact if_pos (Or.inl hplen)
  have hargs : ¬ (plen < 65 ∨ 0 > value ∨ (0 : Int) > 64 ∨ (0 : Int) < 0 ∨ (0 : Int) < -1 ∨
      (0 : Int) > 18) := by omega
  have hmessage : ¬ (0 > 0 ∧ 0 > 128 * ((zeroParams value).rings - 1)) := by omega
  rw [signHeader, if_neg hargs, rangeProveparams_zero hvalue]
  simp only [Option.bind_eq_bind, Option.bind_some, if_neg hmessage, hheader, hnpub]
  by_cases hroom : estimatedRangeProofSize value ≤ plen
  · rw [if_pos hroom, if_neg (by omega)]
  · rw [if_neg hroom, if_pos (by omega)]

theorem length_rangeproofSignImpl_zero {plen value : Nat} {proof : Bytes} (hvalue : value < 2 ^ 63)
    (h : rangeproofSignImpl lib plen 0 commit blind nonce 0 0 value [] extra_commit genp =
      some proof) : proof.length = estimatedRangeProofSize value := by
  obtain ⟨⟨p, header⟩, hheader, h⟩ := Option.bind_eq_some_iff.mp h
  obtain ⟨rings, hrings, h⟩ := Option.bind_eq_some_iff.mp h
  obtain rfl := Option.some.inj h
  rw [List.length_nil, signHeader_zero hvalue] at hheader
  split_ifs at hheader
  obtain ⟨rfl, rfl⟩ := Prod.mk.inj (Option.some.inj hheader)
  rw [List.length_append, length_proofHeader_zero, length_signRings hrings, size_zeroParams]

end Length

/-- Blinding replaces eight bytes of amount by a commitment, a nonce and the proof. -/
theorem length_serialize_blinded {nValue : CConfidentialValue} {nNonce : CConfidentialNonce}
    (hvalue : nValue.vchCommitment.length = 33) (hnonce : nNonce.vchCommitment.length = 33)
    {proof : Bytes} {v : Int} (hproof : proof.length = estimatedRangeProofSize v)
    (scriptPubKey : CScript) :
    (CTxOut.serialize true ⟨nValue, nNonce, proof, scriptPubKey⟩).length =
      (CTxOut.serialize false (.ofAmount v scriptPubKey)).length +
        estimatedBlindedOutputDelta v := by
  simp only [CTxOut.serialize, CTxOut.ofAmount, if_true, Bool.false_eq_true, if_false,
    List.length_append, length_serInt64, CConfidentialCommitment.length_serialize, hvalue, hnonce,
    serBytes, hproof, estimatedBlindedOutputDelta]
  omega

theorem estimatedRangeProofSize_le {value : Nat} (hvalue : value < 2 ^ 63) :
    estimatedRangeProofSize value ≤ MAX_RANGEPROOF_SIZE := by
  have hbits : Nat.log2 value < 63 := by
    by_cases hzero : value = 0
    · subst hzero
      decide
    · exact (Nat.log2_lt hzero).mpr hvalue
  simp only [estimatedRangeProofSize, Int.toNat_natCast, MAX_RANGEPROOF_SIZE]
  split_ifs <;> omega

/-- **The size model of blinded outputs is exact**: for every amount the wallet can blind the prover
has the room it needs, its proof has the estimated length, and the output grows as estimated. -/
theorem estimatedBlindedOutputDelta_exact {v : Int} (hv : MoneyRange v) :
    (∃ p header, ∀ {𝕊 𝔾 : Type} (lib : RangeproofLib 𝕊 𝔾) (commit genp : 𝔾)
      (blind nonce : Uint256) (extra_commit : Bytes),
      rangeproofSignImpl lib MAX_RANGEPROOF_SIZE 0 commit blind nonce 0 0 v.toNat [] extra_commit
        genp = (signRings lib commit genp blind nonce [] extra_commit p header).map (header ++ ·)) ∧
    ∀ {𝕊 𝔾 : Type} (lib : RangeproofLib 𝕊 𝔾) (plen : Nat) (commit genp : 𝔾)
      (blind nonce : Uint256) (extra_commit proof : Bytes),
      rangeproofSignImpl lib plen 0 commit blind nonce 0 0 v.toNat [] extra_commit genp =
        some proof →
      proof.length = estimatedRangeProofSize v ∧
      ∀ (nValue : CConfidentialValue) (nNonce : CConfidentialNonce) (scriptPubKey : CScript),
        nValue.vchCommitment.length = 33 → nNonce.vchCommitment.length = 33 →
        (CTxOut.serialize true ⟨nValue, nNonce, proof, scriptPubKey⟩).length =
          (CTxOut.serialize false (.ofAmount v scriptPubKey)).length +
            estimatedBlindedOutputDelta v := by
  obtain ⟨value, rfl⟩ := Int.eq_ofNat_of_zero_le hv.1
  have hlt : value < 2 ^ 63 := by
    have hmax := hv.2
    unfold MAX_MONEY COIN at hmax
    omega
  constructor
  · refine ⟨zeroParams value, proofHeader (zeroParams value), ?_⟩
    intro 𝕊 𝔾 lib commit genp blind nonce extra_commit
    rw [Int.toNat_natCast, rangeproofSignImpl, List.length_nil, signHeader_zero hlt,
      if_pos (estimatedRangeProofSize_le hlt)]
    exact Option.map_eq_bind.symm
  · intro 𝕊 𝔾 lib plen commit genp blind nonce extra_commit proof h
    have hlength := length_rangeproofSignImpl_zero hlt h
    refine ⟨hlength, ?_⟩
    intro nValue nNonce scriptPubKey hvalue hnonce
    exact length_serialize_blinded hvalue hnonce hlength scriptPubKey

def unitLib : RangeproofLib Unit Unit where
  genrand _ _ _ _ _ _ := some (fun _ => (), fun _ => ())
  scalarSetB32 _ := ((), false)
  scalarAdd _ _ := ()
  scalarIsZero _ := false
  scalarClear := ()
  scalarGetB32 _ := .null
  pedersenEcmult _ _ _ := ()
  gejIsInfinity _ := false
  serializePoint _ := (true, .null)
  pubExpand pubs _ _ _ := pubs
  sha256 _ := .null
  borromeanSign s _ _ _ _ _ _ := some (.null, s)

/-- Five units take three bits: a ring of four digits and one of two. -/
theorem estimatedBlindedOutputDelta_five :
    ∃ proof, rangeproofSignImpl unitLib MAX_RANGEPROOF_SIZE 0 () .null .null 0 0 5 [] [] () =
        some proof ∧
      proof.length = 259 ∧
      (CTxOut.serialize true ⟨⟨8 :: List.replicate 32 0⟩, ⟨2 :: List.replicate 32 0⟩, proof,
          [81]⟩).length = (CTxOut.serialize false (.ofAmount 5 [81])).length + 320 := by
  have hexact := (estimatedBlindedOutputDelta_exact (v := 5) (by decide)).2 unitLib
    MAX_RANGEPROOF_SIZE () () .null .null []
  have hsome : (rangeproofSignImpl unitLib MAX_RANGEPROOF_SIZE 0 () .null .null 0 0 5 [] []
      ()).isSome := by decide +kernel
  obtain ⟨proof, hproof⟩ := Option.isSome_iff_exists.mp hsome
  obtain ⟨hlength, hdelta⟩ := hexact proof hproof
  exact ⟨proof, hproof, hlength, hdelta _ _ [81] rfl rfl⟩

end Rcpu.RangeProof
