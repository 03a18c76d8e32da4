import Rcpu.Checks
import Rcpu.Codeword
import Rcpu.ByteStream
import Mathlib.Tactic.Ring

/-!
# Bech32m

`ConvertBits` of `util/strencodings.h`, the encoder of `bech32.cpp`, and the decoder of
`key_io.cpp` for strings longer than the 90 characters of BIP173.  Strings are lists of bytes.

Every string the decoder accepts without a NUL byte is the one the encoder makes of its parts: the
data symbols are determined by the bytes they regroup to, and the last six symbols by the ones
before them.  A NUL byte is found in the character set, at its terminator.
-/

namespace Rcpu.Bech32

open Checks ByteStream Codeword

/-! ### Regrouping bits -/

/-- The inner loop of `ConvertBits`; each group takes at least one of the `bits`, which bounds the
rounds. -/
def flushBits (tobits acc : Nat) : Nat → Nat → List Nat → Nat × List Nat
  | 0, bits, out => (bits, out)
  | rounds + 1, bits, out =>
    if bits ≥ tobits then
      flushBits tobits acc rounds (bits - tobits)
        (out ++ [(acc >>> (bits - tobits)) &&& (2 ^ tobits - 1)])
    else (bits, out)

/-- One round of the outer loop, on the accumulator, the number of its bits and the output. -/
def convertStep (frombits tobits : Nat) (state : Nat × Nat × List Nat) (v : Nat) :
    Nat × Nat × List Nat :=
  let (acc, bits, out) := state
  let max_acc := 2 ^ (frombits + tobits - 1) - 1
  let acc := ((acc <<< frombits) ||| v) &&& max_acc
  let bits := bits + frombits
  (acc, flushBits tobits acc bits bits out)

/-- `ConvertBits<frombits, tobits, pad>`, the output collected. -/
def convertBits (frombits tobits : Nat) (pad : Bool) (input : List Nat) : Option (List Nat) :=
  let (acc, bits, out) := input.foldl (convertStep frombits tobits) (0, 0, [])
  let rest := (acc <<< (tobits - bits)) &&& (2 ^ tobits - 1)
  if pad then some (if bits ≠ 0 then out ++ [rest] else out)
  else if bits ≥ frombits ∨ rest ≠ 0 then none
  else some out

/-! ### The encoder -/

def CHARSET : Bytes :=
  "qpzry9x8gf2tvdw0s3jn54khce6mua7l".toList.map fun c => UInt8.ofNat c.toNat

def expandHRP (hrp : Bytes) : Bytes :=
  (hrp.map fun c => c >>> (5 : UInt8)) ++ [0] ++ hrp.map fun c => c &&& (0x1f : UInt8)

def polyModStep (c : BitVec 32) (v_i : UInt8) : BitVec 32 :=
  let c0 := c >>> 25
  let c := ((c &&& 0x1ffffff#32) <<< 5) ^^^ v_i.toBitVec.setWidth 32
  let c := if c0 &&& 1#32 ≠ 0 then c ^^^ 0x3b6a57b2#32 else c
  let c := if c0 &&& 2#32 ≠ 0 then c ^^^ 0x26508e6d#32 else c
  let c := if c0 &&& 4#32 ≠ 0 then c ^^^ 0x1ea119fa#32 else c
  let c := if c0 &&& 8#32 ≠ 0 then c ^^^ 0x3d4233dd#32 else c
  if c0 &&& 16#32 ≠ 0 then c ^^^ 0x2a1462b3#32 else c

def polyMod (v : Bytes) : BitVec 32 := v.foldl polyModStep 1#32

/-- `EncodingConstant(Encoding::BECH32M)` -/
def BECH32M_CONST : BitVec 32 := 0x2bc830a3#32

def createChecksum (hrp values : Bytes) : Bytes :=
  let mod := polyMod (expandHRP hrp ++ values ++ List.replicate 6 0) ^^^ BECH32M_CONST
  (List.range 6).map fun i => UInt8.ofBitVec (((mod >>> (5 * (5 - i))) &&& 31#32).setWidth 8)

/-- `bech32::Encode` for Bech32m; it asserts that no character of the HRP is a capital. -/
def encode (hrp values : Bytes) : Except String Bytes :=
  if hrp.any fun c => 0x41 ≤ c && c ≤ 0x5a then .error "assertion failed"
  else
    .ok (hrp ++ [0x31] ++
      (values ++ createChecksum hrp values).map fun c => CHARSET.getD c.toNat 0)

/-! ### The decoder for confidential addresses -/

def CONF_BECH32M_CHARSET : Bytes :=
  "qpzry9x8gf2tvdw0s3jn54khce6mua7l".toList.map fun c => UInt8.ofNat c.toNat

def confBech32mHrpExpand (hrp : Bytes) : Bytes :=
  (hrp.map fun c => c >>> (5 : UInt8)) ++ [0] ++ hrp.map fun c => c &&& (31 : UInt8)

def GEN : List (BitVec 32) :=
  [0x3b6a57b2#32, 0x26508e6d#32, 0x1ea119fa#32, 0x3d4233dd#32, 0x2a1462b3#32]

def confPolymodStep (chk : BitVec 32) (v : UInt8) : BitVec 32 :=
  let b := chk >>> 25
  let chk := ((chk &&& 0x1ffffff#32) <<< 5) ^^^ v.toBitVec.setWidth 32
  GEN.zipIdx.foldl (fun chk (gen, i) => if (b >>> i) &&& 1#32 ≠ 0 then chk ^^^ gen else chk) chk

def confBech32mPolymod (values : Bytes) : BitVec 32 := values.foldl confPolymodStep 1#32

/-- `strchr` on the character set: the terminating NUL is part of a C string. -/
def charsetIndex (c : UInt8) : Option UInt8 :=
  ((CONF_BECH32M_CHARSET ++ [0]).idxOf? c).map UInt8.ofNat

def rfind (c : UInt8) (str : Bytes) : Option Nat :=
  (str.reverse.idxOf? c).map fun i => str.length - 1 - i

def confBech32mDecode (str : Bytes) : Option (Bytes × Bytes) := do
  let sep ← rfind 0x31 str
  if sep < 1 ∨ sep + 7 > str.length then none
  else
    let hrp := str.take sep
    if hrp.any fun uc => uc < 33 || uc > 126 then none
    else
      let data ← (str.drop (sep + 1)).mapM charsetIndex
      if data.length < 6 then none
      else if confBech32mPolymod (confBech32mHrpExpand hrp ++ data) ≠ 0x2bc830a3#32 then none
      else some (hrp, data.take (data.length - 6))

/-! ### Regrouping, by value -/

section ConvertBits

variable {f t : Nat} {input : List Nat}

/-- What the loops of `ConvertBits` keep: the bits of the input are those of the output followed by
the `bits` lowest ones of the accumulator. -/
structure Regrouped (f t : Nat) (input : List Nat) (acc bits : Nat) (out : List Nat) : Prop where
  length : f * input.length = t * out.length + bits
  value : value (2 ^ f) input = value (2 ^ t) out * 2 ^ bits + acc % 2 ^ bits
  digits : ∀ d ∈ out, d < 2 ^ t

theorem Regrouped.flushBits (ht : 0 < t) {acc : Nat} {rounds bits : Nat} {out : List Nat}
    (h : Regrouped f t input acc bits out) (hrounds : bits ≤ rounds) :
    Regrouped f t input acc (flushBits t acc rounds bits out).1
        (flushBits t acc rounds bits out).2 ∧
      (Bech32.flushBits t acc rounds bits out).1 < t := by
  induction rounds generalizing bits out with
  | zero =>
    obtain rfl : bits = 0 := Nat.le_zero.mp hrounds
    exact ⟨h, ht⟩
  | succ rounds ih =>
    by_cases hbits : bits ≥ t
    · obtain ⟨rest, rfl⟩ : ∃ rest, bits = rest + t := ⟨bits - t, by omega⟩
      rw [Bech32.flushBits, if_pos hbits, Nat.add_sub_cancel]
      refine ih ⟨?_, ?_, ?_⟩ (by omega)
      · rw [h.length, List.length_append, List.length_singleton, Nat.mul_add]
        omega
      · have hsplit : acc % 2 ^ (rest + t) =
            acc % 2 ^ rest + 2 ^ rest * (acc / 2 ^ rest % 2 ^ t) := by
          rw [Nat.pow_add, Nat.mod_mul]
        rw [h.value, hsplit, value_concat, Nat.and_two_pow_sub_one_eq_mod,
          Nat.shiftRight_eq_div_pow, Nat.pow_add]
        ring
      · intro d hd
        rcases List.mem_append.mp hd with hd | hd
        · exact h.digits d hd
        · rw [List.mem_singleton.mp hd, Nat.and_two_pow_sub_one_eq_mod]
          exact Nat.mod_lt _ (Nat.two_pow_pos t)
    · rw [Bech32.flushBits, if_neg hbits]
      exact ⟨h, Nat.lt_of_not_le hbits⟩

theorem Regrouped.push {acc bits v : Nat} {out : List Nat} (h : Regrouped f t input acc bits out)
    (hbits : bits < t) (hv : v < 2 ^ f) :
    Regrouped f t (input ++ [v]) (((acc <<< f) ||| v) &&& (2 ^ (f + t - 1) - 1)) (bits + f)
      out := by
  refine ⟨?_, ?_, h.digits⟩
  · rw [List.length_append, List.length_singleton, Nat.mul_add, h.length]
    omega
  · have hkeep : 2 ^ (bits + f) ∣ 2 ^ (f + t - 1) := Nat.pow_dvd_pow 2 (by omega)
    have hlow : (acc * 2 ^ f + v) % 2 ^ (bits + f) = acc % 2 ^ bits * 2 ^ f + v := by
      have hdiv : (acc * 2 ^ f + v) / 2 ^ f = acc := by
        rw [Nat.add_comm, Nat.add_mul_div_right _ _ (Nat.two_pow_pos f), Nat.div_eq_of_lt hv,
          Nat.zero_add]
      rw [Nat.add_comm bits f, Nat.pow_add, Nat.mod_mul, Nat.mul_add_mod_of_lt hv, hdiv]
      ring
    rw [value_concat, h.value, Nat.and_two_pow_sub_one_eq_mod, Nat.mod_mod_of_dvd _ hkeep,
      ← Nat.shiftLeft_add_eq_or_of_lt hv, Nat.shiftLeft_eq, hlow, Nat.pow_add]
    ring

theorem regrouped_foldl (ht : 0 < t) (hinput : ∀ v ∈ input, v < 2 ^ f) :
    ∃ acc bits out, input.foldl (convertStep f t) (0, 0, []) = (acc, bits, out) ∧
      Regrouped f t input acc bits out ∧ bits < t := by
  induction input using List.reverseRecOn with
  | nil => exact ⟨0, 0, [], rfl, ⟨by simp, by simp, by simp⟩, ht⟩
  | append_singleton input v ih =>
    obtain ⟨acc, bits, out, hfold, h, hbits⟩ := ih fun d hd => hinput d (List.mem_append_left _ hd)
    have hv : v < 2 ^ f := hinput v (List.mem_append_right _ (List.mem_singleton_self v))
    have hflush := (h.push hbits hv).flushBits ht (le_refl _)
    rw [List.foldl_concat, hfold]
    exact ⟨_, _, _, rfl, hflush⟩

theorem rest_eq {acc bits : Nat} (hbits : bits < t) :
    (acc <<< (t - bits)) &&& (2 ^ t - 1) = acc % 2 ^ bits * 2 ^ (t - bits) := by
  rw [Nat.and_two_pow_sub_one_eq_mod, Nat.shiftLeft_eq, ← Nat.mul_mod_mul_right, ← Nat.pow_add,
    Nat.add_sub_cancel' hbits.le]

/-- With padding the output is the input followed by fewer than `t` zero bits. -/
theorem convertBits_pad (ht : 0 < t) (hinput : ∀ v ∈ input, v < 2 ^ f) :
    ∃ out p, convertBits f t true input = some out ∧ p < t ∧
      t * out.length = f * input.length + p ∧
      value (2 ^ t) out = value (2 ^ f) input * 2 ^ p ∧ ∀ d ∈ out, d < 2 ^ t := by
  obtain ⟨acc, bits, out, hfold, h, hbits⟩ := regrouped_foldl ht hinput
  by_cases hzero : bits = 0
  · subst hzero
    refine ⟨out, 0, ?_, ht, by rw [h.length]; rfl, ?_, h.digits⟩
    · simp [convertBits, hfold]
    · rw [h.value]
      simp [Nat.mod_one]
  · refine ⟨out ++ [acc % 2 ^ bits * 2 ^ (t - bits)], t - bits, ?_, by omega, ?_, ?_, ?_⟩
    · simp [convertBits, hfold, hzero, rest_eq hbits]
    · rw [h.length, List.length_append, List.length_singleton, Nat.mul_add]
      omega
    · have hpow : 2 ^ t = 2 ^ bits * 2 ^ (t - bits) := by
        rw [← Nat.pow_add, Nat.add_sub_cancel' hbits.le]
      rw [value_concat, h.value]
      nth_rewrite 2 [hpow]
      ring
    · intro d hd
      rcases List.mem_append.mp hd with hd | hd
      · exact h.digits d hd
      · rw [List.mem_singleton.mp hd, ← rest_eq hbits, Nat.and_two_pow_sub_one_eq_mod]
        exact Nat.mod_lt _ (Nat.two_pow_pos t)

/-- Without padding the input is the output followed by fewer than `f` and `t` zero bits. -/
theorem convertBits_nopad (ht : 0 < t) (hinput : ∀ v ∈ input, v < 2 ^ f) {out : List Nat} :
    convertBits f t false input = some out ↔
      ∃ p < f, p < t ∧ f * input.length = t * out.length + p ∧
        value (2 ^ f) input = value (2 ^ t) out * 2 ^ p ∧ ∀ d ∈ out, d < 2 ^ t := by
  obtain ⟨acc, bits, out', hfold, h, hbits⟩ := regrouped_foldl ht hinput
  have hconvert : convertBits f t false input =
      if bits ≥ f ∨ acc % 2 ^ bits * 2 ^ (t - bits) ≠ 0 then none else some out' := by
    simp only [convertBits, hfold, rest_eq hbits, Bool.false_eq_true, if_false]
  have hpos : 0 < 2 ^ (t - bits) := Nat.two_pow_pos _
  rw [hconvert]
  constructor
  · intro hsome
    split_ifs at hsome with hfail
    obtain rfl := Option.some.inj hsome
    rw [not_or, not_le, not_not] at hfail
    have hrest : acc % 2 ^ bits = 0 := by
      rcases Nat.mul_eq_zero.mp hfail.2 with hrest | hrest
      · exact hrest
      · omega
    exact ⟨bits, hfail.1, hbits, h.length, by rw [h.value, hrest, Nat.add_zero], h.digits⟩
  · rintro ⟨p, hpf, hpt, hlength, hvalue, hdigits⟩
    -- both splits have the same shape, and then the same parts
    have hmod : p = bits := by
      have hp : (t * out.length + p) % t = p := by
        rw [Nat.mul_add_mod, Nat.mod_eq_of_lt hpt]
      have hb : (t * out'.length + bits) % t = bits := by
        rw [Nat.mul_add_mod, Nat.mod_eq_of_lt hbits]
      rw [← hp, ← hb, ← hlength, ← h.length]
    subst hmod
    have hlen : out'.length = out.length := by
      have := h.length.symm.trans hlength
      exact Nat.eq_of_mul_eq_mul_left ht (by omega)
    have hsplit := h.value.symm.trans hvalue
    have hrest : acc % 2 ^ p = 0 := by
      have hlt : acc % 2 ^ p < 2 ^ p := Nat.mod_lt _ (Nat.two_pow_pos p)
      have hboth := congrArg (· % 2 ^ p) hsplit
      simpa [Nat.mul_add_mod_of_lt hlt] using hboth
    rw [hrest, Nat.add_zero] at hsplit
    have hout : out' = out := by
      rcases Nat.eq_zero_or_pos out.length with hnil | hpos'
      · rw [List.length_eq_zero_iff.mp hnil, List.length_eq_zero_iff.mp (hlen.trans hnil)]
      · refine eq_of_value_eq (Nat.one_lt_two_pow (by omega)) h.digits hdigits hlen ?_
        exact Nat.eq_of_mul_eq_mul_right (Nat.two_pow_pos p) hsplit
    rw [if_neg (by rw [hrest]; omega), hout]

/-- **Regrouping is invertible**: a string of narrow symbols regroups without padding to bytes just
when it is what the bytes regroup to with padding. -/
theorem convertBits_iff (hf : 0 < f) (hft : f ≤ t) {payload : List Nat}
    (hinput : ∀ v ∈ input, v < 2 ^ f) (hpayload : ∀ v ∈ payload, v < 2 ^ t) :
    convertBits f t false input = some payload ↔ convertBits t f true payload = some input := by
  obtain ⟨out, p, hpad, hp, hlength, hvalue, hdigits⟩ := convertBits_pad hf hpayload
  rw [convertBits_nopad (by omega) hinput, hpad, Option.some.injEq]
  constructor
  · rintro ⟨p', hp', -, hlength', hvalue', -⟩
    have hmultiple : ∀ n, f * n ≡ 0 [MOD f] := fun n => Nat.modEq_zero_iff_dvd.mpr ⟨n, rfl⟩
    have hcongr : p' ≡ p [MOD f] := by
      apply Nat.ModEq.add_left_cancel' (t * payload.length)
      rw [← hlength', ← hlength]
      exact (hmultiple _).trans (hmultiple _).symm
    obtain rfl : p' = p := hcongr.eq_of_lt_of_lt hp' hp
    refine eq_of_value_eq (Nat.one_lt_two_pow (by omega)) hdigits hinput ?_ ?_
    · exact Nat.eq_of_mul_eq_mul_left hf (by omega)
    · rw [hvalue, hvalue']
  · rintro rfl
    exact ⟨p, hp, by omega, hlength, hvalue, hpayload⟩

end ConvertBits

/-! ### The checksum is linear -/

/-- The multiple of a generator word that a bit of the state calls for. -/
def selectBit (c : BitVec 32) (i : Nat) (gen : BitVec 32) : BitVec 32 :=
  if c.getLsbD i then gen else 0#32

/-- The state of the checksum times the indeterminate. -/
def mulX (c : BitVec 32) : BitVec 32 :=
  ((c &&& 0x1ffffff#32) <<< 5) ^^^ selectBit c 25 0x3b6a57b2#32 ^^^ selectBit c 26 0x26508e6d#32 ^^^
    selectBit c 27 0x1ea119fa#32 ^^^ selectBit c 28 0x3d4233dd#32 ^^^ selectBit c 29 0x2a1462b3#32

def symbolWord (v : UInt8) : BitVec 32 := v.toBitVec.setWidth 32

theorem selectBit_xor (x y : BitVec 32) (i : Nat) (gen : BitVec 32) :
    selectBit (x ^^^ y) i gen = selectBit x i gen ^^^ selectBit y i gen := by
  unfold selectBit
  rw [BitVec.getLsbD_xor]
  cases x.getLsbD i <;> cases y.getLsbD i <;> simp

theorem mulX_xor (x y : BitVec 32) : mulX (x ^^^ y) = mulX x ^^^ mulX y := by
  have hmask : (x ^^^ y) &&& 0x1ffffff#32 = (x &&& 0x1ffffff#32) ^^^ (y &&& 0x1ffffff#32) := by
    apply BitVec.eq_of_getLsbD_eq
    intro i hi
    simp only [BitVec.getLsbD_and, BitVec.getLsbD_xor, Bool.and_xor_distrib_right]
  simp only [mulX, selectBit_xor, hmask, BitVec.shiftLeft_xor_distrib]
  ac_rfl

theorem ite_xor_eq (c x gen : BitVec 32) (i j : Nat) (hj : j < 32) :
    (if (c >>> i) &&& BitVec.twoPow 32 j ≠ 0 then x ^^^ gen else x) =
      x ^^^ selectBit c (i + j) gen := by
  have hpow : BitVec.twoPow 32 j ≠ 0#32 := by
    intro h
    have := congrArg (BitVec.getLsbD · j) h
    simp [hj] at this
  rw [BitVec.and_twoPow, BitVec.getLsbD_ushiftRight, selectBit]
  cases c.getLsbD (i + j) with
  | false => simp
  | true => simp [hpow]

theorem polyModStep_eq (c : BitVec 32) (v : UInt8) : polyModStep c v = mulX c ^^^ symbolWord v := by
  have h0 := fun x gen => ite_xor_eq c x gen 25 0 (by decide)
  have h1 := fun x gen => ite_xor_eq c x gen 25 1 (by decide)
  have h2 := fun x gen => ite_xor_eq c x gen 25 2 (by decide)
  have h3 := fun x gen => ite_xor_eq c x gen 25 3 (by decide)
  have h4 := fun x gen => ite_xor_eq c x gen 25 4 (by decide)
  simp only [show BitVec.twoPow 32 0 = 1#32 by decide, show BitVec.twoPow 32 1 = 2#32 by decide,
    show BitVec.twoPow 32 2 = 4#32 by decide, show BitVec.twoPow 32 3 = 8#32 by decide,
    show BitVec.twoPow 32 4 = 16#32 by decide] at h0 h1 h2 h3 h4
  simp only [polyModStep, h0, h1, h2, h3, h4, mulX, symbolWord]
  ac_rfl

theorem confPolymodStep_eq (c : BitVec 32) (v : UInt8) :
    confPolymodStep c v = mulX c ^^^ symbolWord v := by
  have hbit : ∀ i < 5, ∀ x gen, (if (c >>> 25 >>> i) &&& 1#32 ≠ 0 then x ^^^ gen else x) =
      x ^^^ selectBit c (25 + i) gen := by
    intro i hi x gen
    rw [← BitVec.shiftRight_add]
    exact ite_xor_eq c x gen (25 + i) 0 (by decide)
  simp only [confPolymodStep, GEN, List.zipIdx_cons, List.zipIdx_nil, List.foldl_cons,
    List.foldl_nil]
  rw [hbit 0 (by decide), hbit (0 + 1) (by decide), hbit (0 + 1 + 1) (by decide),
    hbit (0 + 1 + 1 + 1) (by decide), hbit (0 + 1 + 1 + 1 + 1) (by decide)]
  simp only [mulX, symbolWord]
  ac_rfl

theorem polyMod_eq (v : Bytes) : polyMod v = checksum mulX symbolWord 1#32 v := by
  unfold polyMod checksum
  congr
  funext c v_i
  exact polyModStep_eq c v_i

theorem confBech32mPolymod_eq (values : Bytes) : confBech32mPolymod values = polyMod values := by
  unfold confBech32mPolymod polyMod
  congr
  funext chk v
  rw [confPolymodStep_eq, polyModStep_eq]

theorem confBech32mHrpExpand_eq (hrp : Bytes) : confBech32mHrpExpand hrp = expandHRP hrp := rfl

/-! ### Six symbols make a checksum -/

/-- As long as nothing overflows into the generator, multiplying moves the state up a symbol. -/
theorem toNat_mulX {c : BitVec 32} (hc : c.toNat < 2 ^ 25) : (mulX c).toNat = c.toNat * 32 := by
  have hbit : ∀ i ≥ 25, ∀ gen, selectBit c i gen = 0#32 := by
    intro i hi gen
    have hfalse : c.getLsbD i = false :=
      Nat.testBit_lt_two_pow (hc.trans_le (Nat.pow_le_pow_right (by decide) hi))
    rw [selectBit, hfalse]
    rfl
  have hmask : c &&& 0x1ffffff#32 = c := by
    apply BitVec.eq_of_toNat_eq
    rw [BitVec.toNat_and]
    exact (Nat.and_two_pow_sub_one_eq_mod c.toNat 25).trans (Nat.mod_eq_of_lt hc)
  simp only [mulX, hmask, hbit 25 (by decide), hbit 26 (by decide), hbit 27 (by decide),
    hbit 28 (by decide), hbit 29 (by decide), BitVec.xor_zero]
  rw [BitVec.toNat_shiftLeft, Nat.shiftLeft_eq, Nat.mod_eq_of_lt (by omega)]

theorem toNat_symbolWord (v : UInt8) : (symbolWord v).toNat = v.toNat := by
  have hv := v.toNat_lt
  rw [symbolWord, BitVec.toNat_setWidth]
  exact Nat.mod_eq_of_lt (by omega)

theorem xor_eq_add {a v : Nat} (hv : v < 32) : (a * 32) ^^^ v = a * 32 + v := by
  rw [Nat.mul_comm, show 32 = 2 ^ 5 by decide]
  apply Nat.eq_of_testBit_eq
  intro i
  rw [Nat.testBit_xor, Nat.testBit_two_pow_mul_add a hv, Nat.testBit_two_pow_mul]
  by_cases hi : i < 5
  · simp [hi, not_le.mpr hi]
  · have hpow : 2 ^ 5 ≤ 2 ^ i := Nat.pow_le_pow_right (by decide) (not_lt.mp hi)
    have hzero : v.testBit i = false := Nat.testBit_lt_two_pow (lt_of_lt_of_le hv hpow)
    simp [hi, hzero, not_lt.mp hi]

/-- Up to six symbols from the zero state are packed side by side. -/
theorem toNat_checksum_zero {cs : Bytes} (hlength : cs.length ≤ 6) (hcs : ∀ c ∈ cs, c < 32) :
    (checksum mulX symbolWord 0#32 cs).toNat = value 32 (cs.map UInt8.toNat) := by
  induction cs using List.reverseRecOn with
  | nil => rfl
  | append_singleton cs c ih =>
    rw [List.length_append, List.length_singleton] at hlength
    have hinit : ∀ d ∈ cs, d < 32 := fun d hd => hcs d (List.mem_append_left _ hd)
    have hc : c < 32 := hcs c (List.mem_append_right _ (List.mem_singleton_self c))
    have hsmall : value 32 (cs.map UInt8.toNat) < 2 ^ 25 := by
      have hdigits : ∀ d ∈ cs.map UInt8.toNat, d < 32 := List.forall_mem_map.mpr hinit
      refine (value_lt (by decide) hdigits).trans_le ?_
      rw [List.length_map, show (2 : Nat) ^ 25 = 32 ^ 5 by decide]
      exact Nat.pow_le_pow_right (by decide) (by omega)
    have hcs' := ih (by omega) hinit
    rw [checksum_concat, BitVec.toNat_xor, toNat_mulX (hcs' ▸ hsmall), hcs', toNat_symbolWord,
      List.map_append, List.map_singleton, value_concat]
    exact xor_eq_add hc

theorem toNat_polyMod_lt (v : Bytes) : (polyMod v).toNat < 2 ^ 30 := by
  have hselect : ∀ c i gen, gen.toNat < 2 ^ 30 → (selectBit c i gen).toNat < 2 ^ 30 := by
    intro c i gen hgen
    unfold selectBit
    split
    · exact hgen
    · decide
  have hshift : ∀ c : BitVec 32, ((c &&& 0x1ffffff#32) <<< 5).toNat < 2 ^ 30 := by
    intro c
    have hmask : (c &&& 0x1ffffff#32).toNat < 2 ^ 25 := by
      rw [BitVec.toNat_and]
      exact lt_of_le_of_lt Nat.and_le_right (by decide)
    rw [BitVec.toNat_shiftLeft, Nat.shiftLeft_eq, Nat.mod_eq_of_lt (by omega)]
    omega
  rw [polyMod_eq]
  induction v using List.reverseRecOn with
  | nil => decide
  | append_singleton v v_i _ =>
    rw [checksum_concat]
    simp only [mulX, BitVec.toNat_xor]
    have hv := v_i.toNat_lt
    refine Nat.xor_lt_two_pow (Nat.xor_lt_two_pow (Nat.xor_lt_two_pow (Nat.xor_lt_two_pow
      (Nat.xor_lt_two_pow (Nat.xor_lt_two_pow (hshift _) ?_) ?_) ?_) ?_) ?_) ?_
    · exact hselect _ _ _ (by decide)
    · exact hselect _ _ _ (by decide)
    · exact hselect _ _ _ (by decide)
    · exact hselect _ _ _ (by decide)
    · exact hselect _ _ _ (by decide)
    · rw [toNat_symbolWord]
      omega

theorem toNat_checksumSymbol (mod : BitVec 32) (k : Nat) :
    (UInt8.ofBitVec (((mod >>> k) &&& 31#32).setWidth 8)).toNat = mod.toNat / 2 ^ k % 32 := by
  have hand : ((mod >>> k) &&& 31#32).toNat = mod.toNat / 2 ^ k % 32 := by
    rw [BitVec.toNat_and, BitVec.toNat_ushiftRight, Nat.shiftRight_eq_div_pow]
    exact Nat.and_two_pow_sub_one_eq_mod _ 5
  rw [UInt8.toNat_ofBitVec, BitVec.toNat_setWidth, hand]
  omega

theorem value_checksumSymbols {mod : BitVec 32} (hmod : mod.toNat < 2 ^ 30) :
    value 32 (((List.range 6).map fun i =>
      UInt8.ofBitVec (((mod >>> (5 * (5 - i))) &&& 31#32).setWidth 8)).map UInt8.toNat) =
        mod.toNat := by
  have hlist : ((List.range 6).map fun i =>
      UInt8.ofBitVec (((mod >>> (5 * (5 - i))) &&& 31#32).setWidth 8)).map UInt8.toNat =
        [mod.toNat / 2 ^ 25 % 32, mod.toNat / 2 ^ 20 % 32, mod.toNat / 2 ^ 15 % 32,
          mod.toNat / 2 ^ 10 % 32, mod.toNat / 2 ^ 5 % 32, mod.toNat / 2 ^ 0 % 32] := by
    simp only [← toNat_checksumSymbol]
    rfl
  rw [hlist]
  simp only [value, List.reverse_cons, List.reverse_nil, List.nil_append, List.cons_append,
    Nat.ofDigits_cons, Nat.ofDigits_nil]
  omega

theorem length_createChecksum (hrp values : Bytes) : (createChecksum hrp values).length = 6 := by
  simp [createChecksum]

theorem createChecksum_lt (hrp values : Bytes) : ∀ c ∈ createChecksum hrp values, c < 32 := by
  intro c hc
  obtain ⟨i, -, rfl⟩ := List.mem_map.mp hc
  rw [UInt8.lt_iff_toNat_lt, toNat_checksumSymbol]
  exact Nat.mod_lt _ (by decide)

/-- **The checksum is unique**: six symbols complete the data to a codeword just when they are the
ones the encoder computes. -/
theorem polyMod_eq_const_iff {hrp values cs : Bytes} (hlength : cs.length = 6)
    (hcs : ∀ c ∈ cs, c < 32) :
    polyMod (expandHRP hrp ++ values ++ cs) = BECH32M_CONST ↔ cs = createChecksum hrp values := by
  have hsplit : polyMod (expandHRP hrp ++ values ++ cs) =
      polyMod (expandHRP hrp ++ values ++ List.replicate 6 0) ^^^
        checksum mulX symbolWord 0#32 cs := by
    have hzero : symbolWord 0 = 0#32 := rfl
    rw [polyMod_eq, polyMod_eq, ← hlength]
    exact checksum_append_eq mulX_xor 0 hzero _ _ _
  have hpacked := toNat_checksum_zero hlength.le hcs
  have hmod : (polyMod (expandHRP hrp ++ values ++ List.replicate 6 0) ^^^ BECH32M_CONST).toNat <
      2 ^ 30 := by
    rw [BitVec.toNat_xor]
    exact Nat.xor_lt_two_pow (toNat_polyMod_lt _) (by decide)
  have hsymbols := value_checksumSymbols hmod
  have hsolve : polyMod (expandHRP hrp ++ values ++ cs) = BECH32M_CONST ↔
      checksum mulX symbolWord 0#32 cs =
        polyMod (expandHRP hrp ++ values ++ List.replicate 6 0) ^^^ BECH32M_CONST := by
    rw [hsplit]
    constructor
    · rintro h
      rw [← h, ← BitVec.xor_assoc, BitVec.xor_self, BitVec.zero_xor]
    · intro h
      rw [h, ← BitVec.xor_assoc, BitVec.xor_self, BitVec.zero_xor]
  rw [hsolve, BitVec.toNat_eq, hpacked, ← hsymbols]
  constructor
  · intro h
    refine List.map_injective_iff.mpr (fun _ _ => UInt8.toNat_inj.mp)
      (eq_of_value_eq (by decide) ?_ ?_ ?_ h)
    · exact List.forall_mem_map.mpr hcs
    · exact List.forall_mem_map.mpr (createChecksum_lt hrp values)
    · rw [List.length_map, List.length_map, hlength]
      exact (length_createChecksum hrp values).symm
  · rintro rfl
    rfl

/-! ### Characters -/

/-- Every symbol has its character, which is neither NUL nor the separator. -/
theorem charsetIndex_CHARSET {i : UInt8} (hi : i < 32) :
    charsetIndex (CHARSET.getD i.toNat 0) = some i ∧ CHARSET.getD i.toNat 0 ≠ 0 ∧
      CHARSET.getD i.toNat 0 ≠ 0x31 := by
  have hall : ∀ n : Fin 32, charsetIndex (CHARSET.getD n.val 0) = some (UInt8.ofNat n.val) ∧
      CHARSET.getD n.val 0 ≠ 0 ∧ CHARSET.getD n.val 0 ≠ 0x31 := by decide +kernel
  have h := hall ⟨i.toNat, hi⟩
  rwa [UInt8.ofNat_toNat] at h

theorem charsetIndex_eq_some {c i : UInt8} (hc : c ≠ 0) (h : charsetIndex c = some i) :
    i < 32 ∧ CHARSET.getD i.toNat 0 = c := by
  obtain ⟨n, hn, rfl⟩ := Option.map_eq_some_iff.mp h
  obtain ⟨hlt, hget, -⟩ := List.idxOf?_eq_some_iff.mp hn
  have hlength : CONF_BECH32M_CHARSET.length = 32 := by decide +kernel
  rw [List.length_append, List.length_singleton, hlength] at hlt
  -- the last place is that of the terminator
  have hplace : n < 32 := by
    rcases Nat.lt_succ_iff_lt_or_eq.mp hlt with hplace | rfl
    · exact hplace
    · rw [List.getElem_append_right hlength.le] at hget
      simp only [hlength, Nat.sub_self, List.getElem_cons_zero] at hget
      exact absurd hget.symm hc
  have hnat : (UInt8.ofNat n).toNat = n := UInt8.toNat_ofNat_of_lt' (hplace.trans (by decide))
  refine ⟨UInt8.lt_iff_toNat_lt.mpr (hnat.symm ▸ hplace), ?_⟩
  rw [List.getElem_append_left (hlength ▸ hplace)] at hget
  rw [hnat, List.getD_eq_getElem?_getD, ← hget]
  exact congrArg (Option.getD · 0) (List.getElem?_eq_getElem (hlength ▸ hplace))

theorem rfind_append {c : UInt8} {a b : Bytes} (hb : c ∉ b) :
    rfind c (a ++ [c] ++ b) = some a.length := by
  have hindex : (a ++ [c] ++ b).reverse.idxOf? c = some b.length := by
    rw [List.idxOf?_eq_some_iff]
    refine ⟨by simp, by simp, ?_⟩
    intro j hj hc
    have hj' : j < b.reverse.length := by rwa [List.length_reverse]
    rw [getElem_congr_coll (List.reverse_append), List.getElem_append_left hj'] at hc
    exact hb (List.mem_reverse.mp (hc ▸ List.getElem_mem hj'))
  rw [rfind, hindex, Option.map_some, List.length_append, List.length_append, List.length_singleton]
  congr 1
  omega

theorem eq_of_rfind {c : UInt8} {str : Bytes} {sep : Nat} (h : rfind c str = some sep) :
    str = str.take sep ++ [c] ++ str.drop (sep + 1) := by
  obtain ⟨i, hi, rfl⟩ := Option.map_eq_some_iff.mp h
  obtain ⟨hlt, hc, -⟩ := List.idxOf?_eq_some_iff.mp hi
  rw [List.getElem_reverse] at hc
  have hsep : str.length - 1 - i < str.length := by
    rw [List.length_reverse] at hlt
    omega
  conv_lhs => rw [← List.take_append_drop (str.length - 1 - i) str,
    List.drop_eq_getElem_cons hsep, hc]
  simp

/-! ### Decoding and encoding -/

theorem confBech32mDecode_eq_some {str hrp values : Bytes} :
    confBech32mDecode str = some (hrp, values) ↔
      ∃ chars cs, str = hrp ++ [0x31] ++ chars ∧ rfind 0x31 str = some hrp.length ∧ hrp ≠ [] ∧
        (∀ uc ∈ hrp, 33 ≤ uc ∧ uc ≤ 126) ∧ chars.mapM charsetIndex = some (values ++ cs) ∧
        cs.length = 6 ∧ polyMod (expandHRP hrp ++ values ++ cs) = BECH32M_CONST := by
  have hprintable : ∀ hrp : Bytes, ¬ (hrp.any fun uc => uc < 33 || uc > 126) = true ↔
      ∀ uc ∈ hrp, 33 ≤ uc ∧ uc ≤ 126 := by
    intro hrp
    simp only [List.any_eq_true, Bool.or_eq_true, decide_eq_true_eq, not_exists, not_and, not_or,
      UInt8.not_lt, gt_iff_lt]
  simp only [confBech32mDecode, Option.bind_eq_bind, Option.bind_eq_some_iff]
  constructor
  · rintro ⟨sep, hsep, h⟩
    split_ifs at h with hshort hchars
    obtain ⟨data, hdata, h⟩ := Option.bind_eq_some_iff.mp h
    split_ifs at h with hsix hpolymod
    obtain ⟨rfl, rfl⟩ := Prod.mk.inj (Option.some.inj h)
    have hlen : (str.take sep).length = sep := by
      rw [List.length_take]
      omega
    rw [not_not, confBech32mPolymod_eq, confBech32mHrpExpand_eq] at hpolymod
    refine ⟨str.drop (sep + 1), data.drop (data.length - 6), eq_of_rfind hsep, by rw [hlen, hsep], ?_,
      (hprintable _).mp hchars, ?_, ?_, ?_⟩
    · intro hnil
      rw [hnil, List.length_nil] at hlen
      omega
    · rw [List.take_append_drop, hdata]
    · rw [List.length_drop]
      omega
    · rw [List.append_assoc, List.take_append_drop]
      exact hpolymod
  · rintro ⟨chars, cs, hstr, hrfind, hnil, hchars, hdata, hcs, hpolymod⟩
    have hlength : chars.length = values.length + 6 := by
      rw [(mapM_eq_some.mp hdata).length_eq, List.length_append, hcs]
    have htake : str.take hrp.length = hrp := by
      rw [hstr, List.append_assoc, List.take_left]
    have hdrop : str.drop (hrp.length + 1) = chars := by
      rw [hstr]
      exact List.drop_left' (by simp)
    have hpos := List.length_pos_iff.mpr hnil
    have hconst : polyMod (expandHRP hrp ++ values ++ cs) = 0x2bc830a3#32 := hpolymod
    have hlen : str.length = hrp.length + 1 + (values.length + 6) := by
      rw [hstr, List.length_append, List.length_append, List.length_singleton, hlength]
    refine ⟨hrp.length, hrfind, ?_⟩
    rw [if_neg (by omega), htake, if_neg ((hprintable hrp).mpr hchars), hdrop, hdata,
      Option.bind_some, if_neg (by rw [List.length_append]; omega), confBech32mPolymod_eq,
      confBech32mHrpExpand_eq, ← List.append_assoc, if_neg (not_not.mpr hconst),
      List.length_append, hcs, Nat.add_sub_cancel, List.take_left]

theorem mapM_charsetIndex_map {data : Bytes} (hdata : ∀ v ∈ data, v < 32) :
    (data.map fun v => CHARSET.getD v.toNat 0).mapM charsetIndex = some data := by
  rw [mapM_eq_some, List.forall₂_map_left_iff, List.forall₂_same]
  intro v hv
  exact (charsetIndex_CHARSET (hdata v hv)).1

theorem eq_map_of_mapM_charsetIndex {chars data : Bytes} (hnul : 0 ∉ chars)
    (h : chars.mapM charsetIndex = some data) :
    (∀ v ∈ data, v < 32) ∧ chars = data.map fun v => CHARSET.getD v.toNat 0 := by
  rw [mapM_eq_some] at h
  induction h with
  | nil => exact ⟨by simp, rfl⟩
  | @cons c v chars data hc _ ih =>
    rw [List.mem_cons, not_or] at hnul
    obtain ⟨hv, hchar⟩ := charsetIndex_eq_some (Ne.symm hnul.1) hc
    obtain ⟨hdata, hchars⟩ := ih hnul.2
    refine ⟨List.forall_mem_cons.mpr ⟨hv, hdata⟩, ?_⟩
    rw [List.map_cons, hchar, ← hchars]

/-- **What is encoded is decoded.** -/
theorem confBech32mDecode_encode {hrp values str : Bytes} (hnil : hrp ≠ [])
    (hchars : ∀ uc ∈ hrp, 33 ≤ uc ∧ uc ≤ 126) (hvalues : ∀ v ∈ values, v < 32)
    (h : encode hrp values = .ok str) :
    confBech32mDecode str = some (hrp, values) ∧ 0 ∉ str := by
  have hsymbols : ∀ v ∈ values ++ createChecksum hrp values, v < 32 := by
    intro v hv
    rcases List.mem_append.mp hv with hv | hv
    · exact hvalues v hv
    · exact createChecksum_lt hrp values v hv
  unfold encode at h
  split_ifs at h
  obtain rfl := Except.ok.inj h
  have hsep : (0x31 : UInt8) ∉ (values ++ createChecksum hrp values).map fun v =>
      CHARSET.getD v.toNat 0 := by
    intro hmem
    obtain ⟨v, hv, hc⟩ := List.mem_map.mp hmem
    exact (charsetIndex_CHARSET (hsymbols v hv)).2.2 hc
  constructor
  · rw [confBech32mDecode_eq_some]
    refine ⟨_, createChecksum hrp values, rfl, rfind_append hsep, hnil, hchars,
      mapM_charsetIndex_map hsymbols, length_createChecksum hrp values, ?_⟩
    exact (polyMod_eq_const_iff (length_createChecksum hrp values)
      (createChecksum_lt hrp values)).mpr rfl
  · intro hmem
    rcases List.mem_append.mp hmem with hmem | hmem
    · rcases List.mem_append.mp hmem with hmem | hmem
      · exact absurd (hchars 0 hmem).1 (by decide)
      · exact absurd (List.mem_singleton.mp hmem) (by decide)
    · obtain ⟨v, hv, hc⟩ := List.mem_map.mp hmem
      exact (charsetIndex_CHARSET (hsymbols v hv)).2.1 hc

/-- **What is decoded was encoded**, unless it has a NUL byte. -/
theorem encode_confBech32mDecode {hrp values str : Bytes} (hnul : 0 ∉ str)
    (hlower : ¬ (hrp.any fun c => 0x41 ≤ c && c ≤ 0x5a) = true)
    (h : confBech32mDecode str = some (hrp, values)) :
    (∀ v ∈ values, v < 32) ∧ encode hrp values = .ok str := by
  obtain ⟨chars, cs, rfl, -, -, -, hdata, hcs, hpolymod⟩ := confBech32mDecode_eq_some.mp h
  have hchars : 0 ∉ chars := fun hmem => hnul (List.mem_append_right _ hmem)
  obtain ⟨hsymbols, rfl⟩ := eq_map_of_mapM_charsetIndex hchars hdata
  rw [List.forall_mem_append] at hsymbols
  obtain rfl := (polyMod_eq_const_iff hcs hsymbols.2).mp hpolymod
  exact ⟨hsymbols.1, if_neg hlower⟩

end Rcpu.Bech32
