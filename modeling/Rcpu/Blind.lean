import Mathlib.Data.Nat.Size
import Rcpu.ConfidentialValidation
import Rcpu.Script

/-!
# Blinding transactions

`BlindTransaction` of `blind.cpp`: every output that is neither a fee nor marked explicit gets a
commitment, a nonce and a range proof.  All blinding factors are random but that of the last
blinded output, which balances the factors of the inputs.

A blinding factor is the number that its 32 bytes spell.  Random draws are an argument, so that
the statements hold for all of them.
-/

namespace Rcpu.Blind

open Checks ByteStream Confidential Transaction Pedersen ConfidentialValidation Script

/-! ### The code -/

structure BlindEnv (𝔾 : Type) extends Secp256k1 𝔾 where
  /-- `secp256k1_pedersen_commitment_serialize` -/
  commitmentSerialize : 𝔾 → Bytes
  /-- `secp256k1_rangeproof_sign` with `min_value`, `exp` and `min_bits` zero, on the commitment,
  its blinding factor, a nonce and the value. -/
  rangeproofSign : 𝔾 → Nat → Uint256 → Nat → Option Bytes
  /-- `CKey::GetPubKey` -/
  getPubKey : Bytes → Bytes
  computeECDHNonce : Bytes → Bytes → Option Uint256
  /-- `CHKDF_HMAC_SHA256_L32` on the salt `rcpu-pathc-v1`, then `Expand32`. -/
  hkdfExpand32 : Uint256 → Bytes → Uint256

/-- The random draws for the output at each index; an ephemeral key is kept only if path B (`false`)
cannot mistake its public key for a legacy nonce. -/
structure BlindRandom (getPubKey : Bytes → Bytes) where
  blind : Nat → Nat
  nonce : Nat → Uint256
  ephemeral : Bool → Nat → Bytes
  size_ephemeral : ∀ usePathC i, (getPubKey (ephemeral usePathC i)).length = 33
  odd_ephemeral : ∀ i, (getPubKey (ephemeral false i)).head? ≠ some 2

def buildPathCInfo (scriptPubKey : CScript) : Option Bytes :=
  if scriptPubKey.length > 128 - 1 - 8 then none
  else some (scriptPubKey ++ [1] ++ leBytes 8 64)

def derivePathCNonce {𝔾 : Type} (env : BlindEnv 𝔾) (ss : Uint256) (scriptPubKey : CScript) :
    Option Uint256 :=
  (buildPathCInfo scriptPubKey).map (env.hkdfExpand32 ss)

/-- `secp256k1_pedersen_blind_sum`: fails on an overflowing factor. -/
def pedersenBlindSum (blinds : List Nat) (npositive : Nat) : Option Nat :=
  if ∀ b ∈ blinds, b < scalarOrder then
    let positive : Scalar := ((blinds.take npositive).map fun b : Nat => (b : Scalar)).sum
    let negative : Scalar := ((blinds.drop npositive).map fun b : Nat => (b : Scalar)).sum
    some (positive - negative).val
  else none

/-- An output at its index is blinded unless it is a fee or marked explicit. -/
def isBlinded (explicitOutputs : Option (List Bool)) (entry : CTxOut × Nat) : Bool :=
  !decide entry.1.IsFee && !(explicitOutputs.elim false fun marks => marks.getD entry.2 false)

/-- The nonce commitment of an output, the nonce for its range proof and the nonce to store. -/
def outputNonce {𝔾 : Type} (env : BlindEnv 𝔾) (rand : BlindRandom env.getPubKey)
    (recipientKey : Option Bytes) (usePathC : Bool) (out : CTxOut) (i : Nat) :
    Option (CConfidentialNonce × Uint256 × Uint256) :=
  match recipientKey with
  | some key => do
    let ephemeral := rand.ephemeral usePathC i
    let pub := env.getPubKey ephemeral
    let ss ← env.computeECDHNonce ephemeral key
    if usePathC then
      let nonce ← derivePathCNonce env ss out.scriptPubKey
      return (⟨4 :: (pub.drop 1).take 32⟩, nonce, Uint256.null)
    else return (⟨pub⟩, ss, Uint256.null)
  | none => return (⟨2 :: (rand.nonce i).bytes⟩, rand.nonce i, rand.nonce i)

variable {𝔾 : Type} [AddCommGroup 𝔾] [Module Scalar 𝔾] [DecidableEq 𝔾]

/-- One output blinded with a given factor, and the nonce to store for it. -/
def blindOutput (env : BlindEnv 𝔾) (rand : BlindRandom env.getPubKey)
    (recipientKey : Option Bytes) (usePathC : Bool) (blind : Nat) (entry : CTxOut × Nat) :
    Option (CTxOut × Uint256) :=
  let (out, i) := entry
  let amount := out.nValue.getAmount
  if amount < 0 ∨ ¬ MoneyRange amount then none
  else do
    let (nNonce, nonce, stored) ← outputNonce env rand recipientKey usePathC out i
    let commit ← env.pedersenCommit blind amount.toNat
    let proof ← env.rangeproofSign commit blind nonce amount.toNat
    return ({ out with
      nValue := ⟨env.commitmentSerialize commit⟩
      nNonce := nNonce
      vchRangeproof := proof }, stored)

/-- The factors of the outputs: random up to the balancing one at index `lastCT`. -/
def outputBlind (draw : Nat → Nat) (inputBlinds : List Nat) (before : List (CTxOut × Nat))
    (lastCT : Nat) : Option (Nat → Nat) :=
  let blinds := inputBlinds ++ before.map fun entry => draw entry.2
  if blinds = [] then some draw
  else (pedersenBlindSum blinds inputBlinds.length).map fun sum i =>
    if i = lastCT then sum else draw i

structure Blinded where
  tx : CTransaction
  outputBlinds : List Nat
  outputNonces : List Uint256

/-- `BlindTransaction`; `none` stands for returning false. -/
def blindTransaction (env : BlindEnv 𝔾) (rand : BlindRandom env.getPubKey) (inputBlinds : List Nat)
    (tx : CTransaction) (recipientKeys : List (Option Bytes))
    (explicitOutputs : Option (List Bool)) (usePathC : Bool) : Option Blinded :=
  let n := tx.vout.length
  if n = 0 then none
  else if recipientKeys ≠ [] ∧ recipientKeys.length ≠ n then none
  else if explicitOutputs.any (fun marks => marks.length ≠ n) then none
  else
    match (tx.vout.zipIdx.filter (isBlinded explicitOutputs)).getLast? with
    | none =>
      -- no output can carry the factors of the inputs
      if inputBlinds.all (· = 0) then
        some ⟨tx, List.replicate n 0, List.replicate n Uint256.null⟩
      else none
    | some (_, lastCT) => do
      let before := (tx.vout.take lastCT).zipIdx.filter (isBlinded explicitOutputs)
      let blind ← outputBlind rand.blind inputBlinds before lastCT
      let outs ← tx.vout.zipIdx.mapM fun entry =>
        if isBlinded explicitOutputs entry then
          blindOutput env rand (recipientKeys.getD entry.2 none) usePathC (blind entry.2) entry
        else some (entry.1, Uint256.null)
      return ⟨{ tx with vout := outs.map Prod.fst },
        tx.vout.zipIdx.map fun entry => if isBlinded explicitOutputs entry then blind entry.2 else 0,
        outs.map Prod.snd⟩

/-! ### The factors balance -/

private theorem filter_zipIdx_of_getLast? {α : Type} {p : α × Nat → Bool} {l : List α} {x : α}
    {k : Nat} (h : (l.zipIdx.filter p).getLast? = some (x, k)) :
    l.zipIdx.filter p = (l.take k).zipIdx.filter p ++ [(x, k)] := by
  obtain ⟨hmem, hp⟩ := List.mem_filter.mp (List.mem_of_getLast? h)
  have hk : l[k]? = some x := by simpa [List.mem_zipIdx_iff_getElem?] using hmem
  have hlt : k < l.length := (List.getElem?_eq_some_iff.mp hk).1
  have hsplit : l.zipIdx = (l.take k).zipIdx ++ (x, k) :: (l.drop (k + 1)).zipIdx (k + 1) := by
    have hl : l = l.take k ++ x :: l.drop (k + 1) := by
      rw [← (List.getElem?_eq_some_iff.mp hk).2, ← List.drop_eq_getElem_cons hlt,
        List.take_append_drop]
    conv_lhs => rw [hl]
    rw [List.zipIdx_append, List.zipIdx_cons, List.length_take, min_eq_left hlt.le, zero_add]
  rw [hsplit, List.filter_append, List.filter_cons_of_pos hp] at h ⊢
  -- a later hit would be the last one, at a larger index
  cases hrest : ((l.drop (k + 1)).zipIdx (k + 1)).filter p with
  | nil => rfl
  | cons y rest =>
    rw [hrest, List.getLast?_append, List.getLast?_cons_cons] at h
    have hlast : (x, k) ∈ y :: rest := by
      cases hget : (y :: rest).getLast? with
      | none => simp at hget
      | some z =>
        rw [hget, Option.some_or, Option.some.injEq] at h
        exact h ▸ List.mem_of_getLast? hget
    rw [← hrest] at hlast
    have := List.le_snd_of_mem_zipIdx (List.mem_of_mem_filter hlast)
    omega

/-- The factor of the last blinded output is what the others leave of the input factors. -/
theorem sum_outputBlind {draw blind : Nat → Nat} {inputBlinds : List Nat}
    {before : List (CTxOut × Nat)} {lastCT : Nat} (hinputs : inputBlinds ≠ [])
    (hbefore : ∀ entry ∈ before, entry.2 ≠ lastCT)
    (h : outputBlind draw inputBlinds before lastCT = some blind) :
    (before.map fun entry => (blind entry.2 : Scalar)).sum + (blind lastCT : Scalar) =
      (inputBlinds.map fun b : Nat => (b : Scalar)).sum := by
  unfold outputBlind at h
  rw [if_neg (by simp [hinputs]), Option.map_eq_some_iff] at h
  obtain ⟨sum, hsum, rfl⟩ := h
  unfold pedersenBlindSum at hsum
  split_ifs at hsum with hlt
  simp only [List.take_left, List.drop_left, Option.some.injEq, List.map_map] at hsum
  have hdraw : (before.map fun entry =>
      ((if entry.2 = lastCT then sum else draw entry.2 : Nat) : Scalar)) =
      before.map ((fun b : Nat => (b : Scalar)) ∘ fun entry => draw entry.2) := by
    apply List.map_congr_left
    intro entry hmem
    simp [hbefore entry hmem]
  rw [hdraw]
  simp only [if_true, ← hsum, ZMod.natCast_val, ZMod.cast_id', id_eq]
  abel

section Inversion

variable {env : BlindEnv 𝔾} {rand : BlindRandom env.getPubKey} {inputBlinds : List Nat}
  {tx : CTransaction} {recipientKeys : List (Option Bytes)} {explicitOutputs : Option (List Bool)}
  {usePathC : Bool}

def BlindedAs (env : BlindEnv 𝔾) (rand : BlindRandom env.getPubKey)
    (recipientKeys : List (Option Bytes)) (explicitOutputs : Option (List Bool)) (usePathC : Bool)
    (blind : Nat → Nat) (entry : CTxOut × Nat) (out : CTxOut) : Prop :=
  if isBlinded explicitOutputs entry then
    ∃ stored, blindOutput env rand (recipientKeys.getD entry.2 none) usePathC (blind entry.2) entry =
      some (out, stored)
  else out = entry.1

/-- A transaction is blinded output by output, with factors that add up to those of the inputs. -/
theorem blindTransaction_eq_some {result : Blinded}
    (h : blindTransaction env rand inputBlinds tx recipientKeys explicitOutputs usePathC =
      some result) :
    ∃ blind : Nat → Nat, result.tx = { tx with vout := result.tx.vout } ∧
      List.Forall₂ (BlindedAs env rand recipientKeys explicitOutputs usePathC blind)
        tx.vout.zipIdx result.tx.vout ∧
      result.outputBlinds = tx.vout.zipIdx.map (fun entry =>
        if isBlinded explicitOutputs entry then blind entry.2 else 0) ∧
      (inputBlinds ≠ [] →
        ((tx.vout.zipIdx.filter (isBlinded explicitOutputs)).map fun entry =>
            (blind entry.2 : Scalar)).sum =
          (inputBlinds.map fun b : Nat => (b : Scalar)).sum) := by
  unfold blindTransaction at h
  cases hlast : (tx.vout.zipIdx.filter (isBlinded explicitOutputs)).getLast? with
  | none =>
    rw [hlast] at h
    dsimp only at h
    split_ifs at h with _ _ _ hzero
    rw [Option.some.injEq] at h
    subst h
    rw [List.getLast?_eq_none_iff] at hlast
    refine ⟨fun _ => 0, rfl, ?_, by simp, ?_⟩
    · have hsame : ∀ entry ∈ tx.vout.zipIdx,
          BlindedAs env rand recipientKeys explicitOutputs usePathC (fun _ => 0) entry entry.1 := by
        intro entry hmem
        have hnot := List.filter_eq_nil_iff.mp hlast entry hmem
        exact (if_neg hnot).mpr rfl
      have hfst := List.forall₂_map_right_iff.mpr (List.forall₂_same.mpr hsame)
      rwa [List.zipIdx_map_fst] at hfst
    · intro _
      rw [hlast]
      have hnull : inputBlinds.map (fun b : Nat => (b : Scalar)) = inputBlinds.map fun _ => 0 := by
        apply List.map_congr_left
        intro b hb
        simp [of_decide_eq_true (List.all_eq_true.mp hzero b hb)]
      simp [hnull]
  | some last =>
    obtain ⟨lastOut, lastCT⟩ := last
    rw [hlast] at h
    dsimp only at h
    split_ifs at h
    simp only [Option.bind_eq_bind, Option.bind_eq_some_iff, Option.pure_def, Option.some.injEq,
      mapM_eq_some] at h
    obtain ⟨blind, hblind, outs, houts, rfl⟩ := h
    refine ⟨blind, rfl, ?_, rfl, ?_⟩
    · rw [List.forall₂_map_right_iff]
      refine houts.imp fun entry out hout => ?_
      unfold BlindedAs
      split_ifs at hout ⊢ with his
      · exact ⟨out.2, hout⟩
      · simp only [Option.some.injEq] at hout
        rw [← hout]
    · intro hinputs
      rw [filter_zipIdx_of_getLast? hlast, List.map_append, List.sum_append, List.map_singleton,
        List.sum_singleton]
      apply sum_outputBlind hinputs ?_ hblind
      intro entry hmem
      have hlt := List.snd_lt_of_mem_zipIdx (List.mem_of_mem_filter hmem)
      rw [List.length_take] at hlt
      omega

theorem inputBlinds_eq_zero {result : Blinded}
    (hnone : ∀ entry ∈ tx.vout.zipIdx, isBlinded explicitOutputs entry = false)
    (h : blindTransaction env rand inputBlinds tx recipientKeys explicitOutputs usePathC =
      some result) : ∀ b ∈ inputBlinds, b = 0 := by
  have hlast : (tx.vout.zipIdx.filter (isBlinded explicitOutputs)).getLast? = none := by
    rw [List.getLast?_eq_none_iff, List.filter_eq_nil_iff]
    simpa using hnone
  unfold blindTransaction at h
  rw [hlast] at h
  dsimp only at h
  split_ifs at h with _ _ _ hzero
  simpa using hzero

end Inversion

/-! ### What the verifier makes of a blinded transaction -/

theorem blindOutput_eq_some {env : BlindEnv 𝔾} {rand : BlindRandom env.getPubKey}
    {recipientKey : Option Bytes} {usePathC : Bool} {blind : Nat} {entry : CTxOut × Nat}
    {out : CTxOut} {stored : Uint256}
    (h : blindOutput env rand recipientKey usePathC blind entry = some (out, stored)) :
    MoneyRange entry.1.nValue.getAmount ∧ ∃ commit nonce nNonce proof,
      outputNonce env rand recipientKey usePathC entry.1 entry.2 = some (nNonce, nonce, stored) ∧
      env.pedersenCommit blind entry.1.nValue.getAmount.toNat = some commit ∧
      env.rangeproofSign commit blind nonce entry.1.nValue.getAmount.toNat = some proof ∧
      out = { entry.1 with
        nValue := ⟨env.commitmentSerialize commit⟩, nNonce := nNonce, vchRangeproof := proof } := by
  unfold blindOutput at h
  dsimp only at h
  split_ifs at h with hrange
  rw [not_or, not_not] at hrange
  simp only [Option.bind_eq_bind, Option.bind_eq_some_iff, Option.pure_def, Option.some.injEq,
    Prod.exists, Prod.mk.injEq] at h
  obtain ⟨nNonce, nonce, _, hnonce, commit, hcommit, proof, hproof, rfl, rfl⟩ := h
  exact ⟨hrange.2, commit, nonce, nNonce, proof, hnonce, hcommit, hproof, rfl⟩

/-- The largest value of the bit length of `v` is an amount in range up to 57 bits. -/
theorem rangeproof_max_le {v : Nat} :
    ((2 ^ max 1 (Nat.size v) - 1 : Nat) : Int) ≤ MAX_MONEY ↔ v < 2 ^ 57 := by
  rw [← Nat.size_le]
  unfold MAX_MONEY COIN
  constructor
  · intro h
    by_contra hsize
    have : 2 ^ 58 ≤ 2 ^ max 1 (Nat.size v) := Nat.pow_le_pow_right (by omega) (by omega)
    omega
  · intro hsize
    have : 2 ^ max 1 (Nat.size v) ≤ 2 ^ 57 := Nat.pow_le_pow_right (by omega) (by omega)
    omega

/-- An encoded point is a commitment that parses to it, and a proof made for a value verifies with
the largest value of its bit length. -/
structure CompleteSecp (env : BlindEnv 𝔾) : Prop where
  smul_H : ∀ s : Scalar, s • env.generators.H = 0 → s = 0
  isCommitment_serialize : ∀ p ≠ 0,
    (⟨env.commitmentSerialize p⟩ : CConfidentialValue).IsCommitment
  parse_serialize : ∀ p ≠ 0, env.commitmentParse (env.commitmentSerialize p) = some p
  rangeproof_complete : ∀ {commit blind nonce value proof}, value < 2 ^ 64 →
    env.pedersenCommit blind value = some commit →
    env.rangeproofSign commit blind nonce value = some proof →
      proof ≠ [] ∧ proof.length ≤ MAX_RANGEPROOF_SIZE ∧
        env.rangeproofVerify commit proof = some (0, 2 ^ max 1 (Nat.size value) - 1)

structure KnownCoin where
  out : CTxOut
  amount : Int
  blind : Nat

def KnownCoin.Opens (env : BlindEnv 𝔾) (coin : KnownCoin) : Prop :=
  (coin.out.nValue.IsExplicit ∧ coin.out.nValue.getAmount = coin.amount ∧ coin.blind = 0) ∨
  (coin.out.nValue.IsCommitment ∧ env.commitmentParse coin.out.nValue.vchCommitment =
    some (env.generators.commit (coin.amount : Scalar) (coin.blind : Scalar)))

section Verifier

variable {env : BlindEnv 𝔾} (hsecp : CompleteSecp env)

include hsecp

/-- The verifier tallies an explicit amount in range unless it is zero. -/
theorem explicitCommit_iff {amount : Int} {c : 𝔾} (hrange : MoneyRange amount) :
    explicitCommit env.toSecp256k1 amount = some c ↔
      c = env.generators.commit (amount : Scalar) 0 ∧ amount ≠ 0 := by
  rw [explicitCommit_eq_some _ hrange, and_congr_right_iff]
  rintro rfl
  exact commit_ne_zero hsecp.smul_H hrange

theorem inputCommitment_iff {coin : KnownCoin} {c : 𝔾} (hopens : coin.Opens env)
    (hrange : MoneyRange coin.amount) :
    inputCommitment env.toSecp256k1 coin.out = some c ↔
      c = env.generators.commit (coin.amount : Scalar) (coin.blind : Scalar) ∧
        (coin.out.nValue.IsExplicit → coin.amount ≠ 0) := by
  rw [inputCommitment_eq_some]
  rcases hopens with ⟨hexplicit, hamount, hblind⟩ | ⟨hcommit, hparse⟩
  · have hnot : ¬ coin.out.nValue.IsCommitment := fun h => h.not_isExplicit hexplicit
    simp [hexplicit, hnot, hamount, hblind, hrange, explicitCommit_iff hsecp hrange]
  · simp [hcommit, hcommit.not_isExplicit, hparse, eq_comm]

/-- A blinded output is tallied as its commitment if its proof does not exceed `MAX_MONEY`. -/
theorem outputCommitment_blindOutput {rand : BlindRandom env.getPubKey}
    {recipientKey : Option Bytes} {usePathC : Bool} {blind : Nat} {entry : CTxOut × Nat}
    {out : CTxOut} {stored : Uint256} {c : 𝔾}
    (h : blindOutput env rand recipientKey usePathC blind entry = some (out, stored)) :
    out.nValue.IsCommitment ∧ (outputCommitment env.toSecp256k1 out = some c ↔
      c = env.generators.commit (entry.1.nValue.getAmount : Scalar) (blind : Scalar) ∧
        entry.1.nValue.getAmount < 2 ^ 57) := by
  obtain ⟨hrange, commit, nonce, nNonce, proof, -, hcommit, hproof, rfl⟩ := blindOutput_eq_some h
  obtain ⟨-, hvalue, hne⟩ := (pedersenCommit_eq_some _).mp hcommit
  have hiscommit := hsecp.isCommitment_serialize commit hne
  have hparse := hsecp.parse_serialize commit hne
  refine ⟨hiscommit, ?_⟩
  have hnonneg : ((entry.1.nValue.getAmount.toNat : Nat) : Int) = entry.1.nValue.getAmount :=
    Int.toNat_of_nonneg hrange.1
  have hlt : entry.1.nValue.getAmount.toNat < 2 ^ 64 := by
    unfold MoneyRange MAX_MONEY COIN at hrange
    omega
  obtain ⟨hnil, hsize, hverify⟩ := hsecp.rangeproof_complete hlt hcommit hproof
  have hcheck : verifyRangeProof env.toSecp256k1 { entry.1 with
      nValue := ⟨env.commitmentSerialize commit⟩, nNonce := nNonce, vchRangeproof := proof } =
        true ↔ entry.1.nValue.getAmount < 2 ^ 57 := by
    rw [verifyRangeProof_eq_true _ hiscommit hparse, hverify]
    simp only [hnil, hsize, Option.some.injEq, Prod.mk.injEq, ne_eq, not_false_eq_true, true_and,
      and_assoc, exists_and_left, exists_eq_left', rangeproof_max_le]
    omega
  rw [outputCommitment_eq_some, hcheck]
  simp only [hiscommit, hiscommit.not_isExplicit, hparse, false_and, false_or, true_and,
    Option.some.injEq]
  rw [← hnonneg, Int.cast_natCast, ← hvalue, hnonneg, eq_comm]

section Outputs

variable {rand : BlindRandom env.getPubKey} {recipientKeys : List (Option Bytes)}
  {explicitOutputs : Option (List Bool)} {usePathC : Bool} {blind : Nat → Nat}
  {entry : CTxOut × Nat} {out : CTxOut}

theorem BlindedAs.isCommitment_iff
    (h : BlindedAs env rand recipientKeys explicitOutputs usePathC blind entry out)
    (hexplicit : entry.1.nValue.IsExplicit) :
    out.nValue.IsCommitment ↔ isBlinded explicitOutputs entry = true := by
  unfold BlindedAs at h
  split_ifs at h with his
  · obtain ⟨stored, h⟩ := h
    exact ⟨fun _ => his, fun _ => (outputCommitment_blindOutput (c := 0) hsecp h).1⟩
  · subst h
    exact ⟨fun hc => absurd hexplicit hc.not_isExplicit, fun hb => absurd hb his⟩

theorem BlindedAs.isFee_iff
    (h : BlindedAs env rand recipientKeys explicitOutputs usePathC blind entry out)
    (hexplicit : entry.1.nValue.IsExplicit) :
    (out.IsFee ↔ entry.1.IsFee) ∧ feeAmount out = feeAmount entry.1 := by
  by_cases his : isBlinded explicitOutputs entry = true
  · have hcommit := (h.isCommitment_iff hsecp hexplicit).mpr his
    have hout : ¬ out.IsFee := fun hfee => hcommit.not_isExplicit hfee.1
    have hentry : ¬ entry.1.IsFee := by
      unfold isBlinded at his
      simp only [Bool.and_eq_true, Bool.not_eq_true', decide_eq_false_iff_not] at his
      exact his.1
    simp [feeAmount, hout, hentry]
  · obtain rfl : out = entry.1 := by
      unfold BlindedAs at h
      rwa [if_neg his] at h
    exact ⟨Iff.rfl, rfl⟩

theorem outputCommitment_blindedAs {c : 𝔾}
    (h : BlindedAs env rand recipientKeys explicitOutputs usePathC blind entry out)
    (hexplicit : entry.1.nValue.IsExplicit) (hrange : MoneyRange entry.1.nValue.getAmount) :
    outputCommitment env.toSecp256k1 out = some c ↔
      c = env.generators.commit (entry.1.nValue.getAmount : Scalar)
          (if isBlinded explicitOutputs entry then (blind entry.2 : Scalar) else 0) ∧
        if isBlinded explicitOutputs entry then entry.1.nValue.getAmount < 2 ^ 57
        else entry.1.nValue.getAmount ≠ 0 := by
  unfold BlindedAs at h
  split_ifs at h ⊢ with his
  · obtain ⟨stored, h⟩ := h
    exact (outputCommitment_blindOutput hsecp h).2
  · subst h
    have hnot : ¬ entry.1.nValue.IsCommitment := fun hc => hc.not_isExplicit hexplicit
    rw [outputCommitment_eq_some, explicitCommit_iff hsecp hrange]
    simp [hexplicit, hrange, hnot]

/-- **The verifier on a blinded transaction** that balances: only zero explicit amounts, blinded
ones from `2 ^ 57` on and the fee rules make it fail. -/
theorem verifyBalance_blindedAs {coins : List KnownCoin} {entries : List (CTxOut × Nat)}
    {tx : CTransaction} {fee : Int}
    (hcoins : ∀ coin ∈ coins, coin.Opens env ∧ MoneyRange coin.amount)
    (hentries : ∀ entry ∈ entries,
      entry.1.nValue.IsExplicit ∧ MoneyRange entry.1.nValue.getAmount)
    (houts : List.Forall₂ (BlindedAs env rand recipientKeys explicitOutputs usePathC blind)
      entries tx.vout)
    (hblinds : ((entries.filter (isBlinded explicitOutputs)).map fun entry =>
        (blind entry.2 : Scalar)).sum = (coins.map fun coin => (coin.blind : Scalar)).sum)
    (hamounts : (coins.map KnownCoin.amount).sum =
      (entries.map fun entry => entry.1.nValue.getAmount).sum) :
    verifyBalance env.toSecp256k1 (coins.map KnownCoin.out) tx = some fee ↔
      (∀ coin ∈ coins, coin.out.nValue.IsExplicit → coin.amount ≠ 0) ∧
      (∀ entry ∈ entries, if isBlinded explicitOutputs entry
        then entry.1.nValue.getAmount < 2 ^ 57 else entry.1.nValue.getAmount ≠ 0) ∧
      (∀ entry ∈ entries, entry.1.IsFee → 0 < entry.1.nValue.getAmount) ∧
      fee = (entries.map fun entry => feeAmount entry.1).sum ∧ MoneyRange fee ∧
      ((∃ entry ∈ entries, isBlinded explicitOutputs entry = true) → 0 < fee) := by
  have hpair : List.Forall₂ (fun coin out => coin.out = out) coins (coins.map KnownCoin.out) := by
    rw [List.forall₂_map_right_iff]
    exact List.forall₂_same.mpr fun _ _ => rfl
  have hins : ∀ ins, List.Forall₂ (fun prevout c => inputCommitment env.toSecp256k1 prevout = some c)
        (coins.map KnownCoin.out) ins ↔
      ins = coins.map (fun coin =>
        env.generators.commit (coin.amount : Scalar) (coin.blind : Scalar)) ∧
      ∀ coin ∈ coins, coin.out.nValue.IsExplicit → coin.amount ≠ 0 := by
    intro ins
    apply forall₂_iff_eq_map hpair
    rintro coin hmem _ c rfl
    exact inputCommitment_iff hsecp (hcoins coin hmem).1 (hcoins coin hmem).2
  have hcommits : ∀ outs, List.Forall₂ (fun out c => outputCommitment env.toSecp256k1 out = some c)
        tx.vout outs ↔
      outs = entries.map (fun entry => env.generators.commit (entry.1.nValue.getAmount : Scalar)
        (if isBlinded explicitOutputs entry then (blind entry.2 : Scalar) else 0)) ∧
      ∀ entry ∈ entries, if isBlinded explicitOutputs entry
        then entry.1.nValue.getAmount < 2 ^ 57 else entry.1.nValue.getAmount ≠ 0 := by
    intro outs
    apply forall₂_iff_eq_map houts
    intro entry hmem out c h
    exact outputCommitment_blindedAs hsecp h (hentries entry hmem).1 (hentries entry hmem).2
  have hfees : tx.vout.map feeAmount = entries.map fun entry => feeAmount entry.1 := by
    have hsame : List.Forall₂ (fun out z => z = feeAmount out) tx.vout (tx.vout.map feeAmount) := by
      rw [List.forall₂_map_right_iff]
      exact List.forall₂_same.mpr fun _ _ => rfl
    apply ((forall₂_iff_eq_map (P := fun _ => True) houts ?_).mp hsame).1
    intro entry hmem out z h
    rw [(h.isFee_iff hsecp (hentries entry hmem).1).2, and_true]
  have hpositive : (∀ out ∈ tx.vout, out.IsFee → 0 < out.nValue.getAmount) ↔
      ∀ entry ∈ entries, entry.1.IsFee → 0 < entry.1.nValue.getAmount := by
    apply forall_mem_iff_of_forall₂ houts
    intro entry hmem out h
    obtain ⟨hfee, hamount⟩ := h.isFee_iff hsecp (hentries entry hmem).1
    rw [hfee]
    apply imp_congr_right
    intro his
    simp only [feeAmount, hfee.mpr his, his, if_true] at hamount
    rw [hamount]
  have hconf : hasConfidentialOutput tx = true ↔
      ∃ entry ∈ entries, isBlinded explicitOutputs entry = true := by
    have hnone : (∀ out ∈ tx.vout, ¬ out.nValue.IsCommitment) ↔
        ∀ entry ∈ entries, ¬ isBlinded explicitOutputs entry = true := by
      apply forall_mem_iff_of_forall₂ houts
      intro entry hmem out h
      rw [h.isCommitment_iff hsecp (hentries entry hmem).1]
    rw [← not_iff_not]
    simpa [hasConfidentialOutput] using hnone
  have hsum : (coins.map fun coin =>
      env.generators.commit (coin.amount : Scalar) (coin.blind : Scalar)).sum =
      (entries.map fun entry => env.generators.commit (entry.1.nValue.getAmount : Scalar)
        (if isBlinded explicitOutputs entry then (blind entry.2 : Scalar) else 0)).sum := by
    have hscalars := congrArg (Int.castAddHom Scalar) hamounts
    rw [map_list_sum, map_list_sum, List.map_map, List.map_map] at hscalars
    rw [Generators.sum_commit, Generators.sum_commit, List.sum_map_ite, ← hblinds]
    simp only [Bool.decide_eq_true, List.map_const', List.sum_replicate, smul_zero, add_zero]
    exact congrArg₂ _ hscalars rfl
  rw [verifyBalance_eq_some]
  simp only [hins, hcommits, hfees, hpositive, hconf]
  constructor
  · rintro ⟨ins, outs, ⟨rfl, hin⟩, ⟨rfl, hout⟩, hpos, hfee, hrange, hany, -⟩
    exact ⟨hin, hout, hpos, hfee, hrange, hany⟩
  · rintro ⟨hin, hout, hpos, hfee, hrange, hany⟩
    exact ⟨_, _, ⟨rfl, hin⟩, ⟨rfl, hout⟩, hpos, hfee, hrange, hany, hsum⟩

end Outputs

end Verifier

/-! ### Blinder and verifier agree -/

def appendFee (tx : CTransaction) (fee : Int) : CTransaction :=
  { tx with vout := tx.vout ++ [CTxOut.ofAmount fee []] }

theorem isFee_ofAmount (fee : Int) : (CTxOut.ofAmount fee []).IsFee :=
  ⟨CConfidentialValue.isExplicit_ofAmount fee, rfl⟩

theorem isBlinded_of_isFee {explicitOutputs : Option (List Bool)} {entry : CTxOut × Nat}
    (h : entry.1.IsFee) : isBlinded explicitOutputs entry = false := by
  simp [isBlinded, h]

theorem feeAmount_nonneg_le {out : CTxOut} (h : MoneyRange out.nValue.getAmount) :
    0 ≤ feeAmount out ∧ feeAmount out ≤ out.nValue.getAmount := by
  have := h.1
  unfold feeAmount
  split_ifs <;> omega

/-- The verifier on a transaction from `BlindTransaction` with fee outputs appended to it. -/
theorem verifyBalance_blindTransaction {env : BlindEnv 𝔾} (hsecp : CompleteSecp env)
    {rand : BlindRandom env.getPubKey} {coins : List KnownCoin} {tx : CTransaction}
    {recipientKeys : List (Option Bytes)} {explicitOutputs : Option (List Bool)} {usePathC : Bool}
    {result : Blinded} {fees : List CTxOut} {fee : Int} (hne : coins ≠ [])
    (hcoins : ∀ coin ∈ coins, coin.Opens env ∧ MoneyRange coin.amount)
    (hvout : ∀ out ∈ tx.vout, out.nValue.IsExplicit ∧ MoneyRange out.nValue.getAmount)
    (hfees : ∀ out ∈ fees, out.IsFee ∧ MoneyRange out.nValue.getAmount)
    (hblind : blindTransaction env rand (coins.map KnownCoin.blind) tx recipientKeys
      explicitOutputs usePathC = some result)
    (hamounts : (coins.map KnownCoin.amount).sum =
      ((tx.vout ++ fees).map fun out => out.nValue.getAmount).sum)
    (hrange : MoneyRange (coins.map KnownCoin.amount).sum) :
    verifyBalance env.toSecp256k1 (coins.map KnownCoin.out)
        { result.tx with vout := result.tx.vout ++ fees } = some fee ↔
      (∀ coin ∈ coins, coin.out.nValue.IsExplicit → coin.amount ≠ 0) ∧
      (∀ entry ∈ tx.vout.zipIdx, if isBlinded explicitOutputs entry
        then entry.1.nValue.getAmount < 2 ^ 57 else entry.1.nValue.getAmount ≠ 0) ∧
      (∀ out ∈ fees, 0 < out.nValue.getAmount) ∧
      fee = ((tx.vout ++ fees).map feeAmount).sum ∧
      ((∃ entry ∈ tx.vout.zipIdx, isBlinded explicitOutputs entry = true) → 0 < fee) := by
  obtain ⟨blind, -, houts, -, hbalance⟩ := blindTransaction_eq_some hblind
  -- the appended outputs take part as entries that are not blinded
  have hall : ∀ out ∈ tx.vout ++ fees,
      out.nValue.IsExplicit ∧ MoneyRange out.nValue.getAmount := by
    rw [List.forall_mem_append]
    exact ⟨hvout, fun out hmem => ⟨(hfees out hmem).1.1, (hfees out hmem).2⟩⟩
  have hplain : ∀ entry ∈ fees.zipIdx tx.vout.length,
      isBlinded explicitOutputs entry = false := by
    intro entry hmem
    exact isBlinded_of_isFee (hfees entry.1 (List.fst_mem_of_mem_zipIdx hmem)).1
  have hsplit : (tx.vout ++ fees).zipIdx = tx.vout.zipIdx ++ fees.zipIdx tx.vout.length := by
    rw [List.zipIdx_append, zero_add]
  have houts' : List.Forall₂ (BlindedAs env rand recipientKeys explicitOutputs usePathC blind)
      (tx.vout ++ fees).zipIdx (result.tx.vout ++ fees) := by
    rw [hsplit]
    refine List.rel_append houts ?_
    have hsame : List.Forall₂ (BlindedAs env rand recipientKeys explicitOutputs usePathC blind)
        (fees.zipIdx tx.vout.length) ((fees.zipIdx tx.vout.length).map Prod.fst) := by
      rw [List.forall₂_map_right_iff]
      refine List.forall₂_same.mpr fun entry hmem => ?_
      simp [BlindedAs, hplain entry hmem]
    rwa [List.zipIdx_map_fst] at hsame
  have hfilter : (tx.vout ++ fees).zipIdx.filter (isBlinded explicitOutputs) =
      tx.vout.zipIdx.filter (isBlinded explicitOutputs) := by
    have hnone : (fees.zipIdx tx.vout.length).filter (isBlinded explicitOutputs) = [] := by
      rw [List.filter_eq_nil_iff]
      intro entry hmem
      simp [hplain entry hmem]
    rw [hsplit, List.filter_append, hnone, List.append_nil]
  have htotal : MoneyRange ((tx.vout ++ fees).map feeAmount).sum := by
    rw [hamounts] at hrange
    refine ⟨List.sum_nonneg ?_, (List.sum_le_sum ?_).trans hrange.2⟩
    · intro x hx
      obtain ⟨out, hmem, rfl⟩ := List.mem_map.mp hx
      exact (feeAmount_nonneg_le (hall out hmem).2).1
    · intro out hmem
      exact (feeAmount_nonneg_le (hall out hmem).2).2
  rw [verifyBalance_blindedAs hsecp hcoins
    (fun entry hmem => hall entry.1 (List.fst_mem_of_mem_zipIdx hmem)) houts'
    (by rw [hfilter, hbalance (by simpa using hne), List.map_map]; rfl)
    (by rw [hamounts, map_zipIdx_fst fun out : CTxOut => out.nValue.getAmount]),
    map_zipIdx_fst feeAmount, hsplit]
  constructor
  · rintro ⟨hin, hout, hpos, rfl, -, hconf⟩
    rw [List.forall_mem_append] at hout hpos
    refine ⟨hin, hout.1, ?_, rfl, ?_⟩
    · intro out hmem
      rw [← List.zipIdx_map_fst tx.vout.length fees] at hmem
      obtain ⟨entry, hentry, rfl⟩ := List.mem_map.mp hmem
      exact hpos.2 entry hentry (hfees entry.1 (List.fst_mem_of_mem_zipIdx hentry)).1
    · rintro ⟨entry, hmem, his⟩
      exact hconf ⟨entry, List.mem_append_left _ hmem, his⟩
  · rintro ⟨hin, hout, hpos, rfl, hconf⟩
    have hfee : ∀ entry ∈ fees.zipIdx tx.vout.length, 0 < entry.1.nValue.getAmount :=
      fun entry hmem => hpos entry.1 (List.fst_mem_of_mem_zipIdx hmem)
    refine ⟨hin, ?_, ?_, rfl, htotal, ?_⟩
    · rw [List.forall_mem_append]
      refine ⟨hout, fun entry hmem => ?_⟩
      rw [hplain entry hmem]
      exact (hfee entry hmem).ne'
    · rw [List.forall_mem_append]
      refine ⟨fun entry hmem hisFee => ?_, fun entry hmem _ => hfee entry hmem⟩
      have hne := hout entry hmem
      rw [isBlinded_of_isFee hisFee] at hne
      have hnonneg := (hvout entry.1 (List.fst_mem_of_mem_zipIdx hmem)).2.1
      exact lt_of_le_of_ne hnonneg (Ne.symm hne)
    · rintro ⟨entry, hmem, his⟩
      have hmem' := List.mem_filter.mpr ⟨hmem, his⟩
      rw [← hsplit, hfilter] at hmem'
      exact hconf ⟨entry, List.mem_of_mem_filter hmem', his⟩

/-- **Agreement of blinder and verifier**: balancing amounts are accepted once blinded just if no
explicit one is zero and every blinded one has at most 57 bits. -/
theorem verifyAmounts_blindTransaction_iff (env : BlindEnv 𝔾) (hsecp : CompleteSecp env)
    (rand : BlindRandom env.getPubKey) (coins : List KnownCoin) (tx : CTransaction)
    (recipientKeys : List (Option Bytes)) (explicitOutputs : Option (List Bool)) (usePathC : Bool)
    (result : Blinded) (fee : Int) (hne : coins ≠ []) (hvin : coins.length = tx.vin.length)
    (hcoinbase : ¬ tx.IsCoinBase)
    (hcoins : ∀ coin ∈ coins, coin.Opens env ∧ MoneyRange coin.amount)
    (hvout : ∀ out ∈ tx.vout,
      out.nValue.IsExplicit ∧ MoneyRange out.nValue.getAmount ∧ ¬ out.IsFee)
    (hblind : blindTransaction env rand (coins.map KnownCoin.blind) tx recipientKeys
      explicitOutputs usePathC = some result)
    (hfee : 0 < fee)
    (hamounts : (coins.map KnownCoin.amount).sum =
      (tx.vout.map fun out => out.nValue.getAmount).sum + fee)
    (hrange : MoneyRange (coins.map KnownCoin.amount).sum) :
    verifyAmounts env.toSecp256k1 (coins.map KnownCoin.out) (appendFee result.tx fee) =
        .ok (some fee) ↔
      (∀ coin ∈ coins, coin.out.nValue.IsExplicit → coin.amount ≠ 0) ∧
      ∀ entry ∈ tx.vout.zipIdx, if isBlinded explicitOutputs entry
        then entry.1.nValue.getAmount < 2 ^ 57 else entry.1.nValue.getAmount ≠ 0 := by
  have hnonneg : 0 ≤ (tx.vout.map fun out => out.nValue.getAmount).sum := by
    apply List.sum_nonneg
    intro x hx
    obtain ⟨out, hmem, rfl⟩ := List.mem_map.mp hx
    exact (hvout out hmem).2.1.1
  have hfeeRange : MoneyRange fee := by
    unfold MoneyRange at *
    omega
  have hfeeAmount : (CTxOut.ofAmount fee []).nValue.getAmount = fee :=
    CConfidentialValue.getAmount_ofAmount hfeeRange.isInt64
  have hfeeSum : ((tx.vout ++ [CTxOut.ofAmount fee []]).map feeAmount).sum = fee := by
    have hzero : tx.vout.map feeAmount = tx.vout.map fun _ => 0 :=
      List.map_congr_left fun out hmem => if_neg (hvout out hmem).2.2
    simp [hzero, feeAmount, isFee_ofAmount, hfeeAmount]
  obtain ⟨-, htx, -⟩ := blindTransaction_eq_some hblind
  have hvin' : coins.length = result.tx.vin.length := by rw [htx, hvin]
  have hcoinbase' : ¬ result.tx.IsCoinBase := by rwa [htx]
  rw [verifyAmounts_eq_ok, appendFee, verifyBalance_blindTransaction hsecp hne hcoins
    (fun out hmem => ⟨(hvout out hmem).1, (hvout out hmem).2.1⟩)
    (by simpa [isFee_ofAmount, hfeeAmount] using hfeeRange) hblind
    (by simpa [hfeeAmount] using hamounts) hrange, hfeeSum]
  simp only [List.length_map, List.mem_singleton, forall_eq, hfeeAmount, hfee, implies_true,
    and_true]
  exact ⟨fun h => h.2.2, fun h => ⟨hcoinbase', hvin', h⟩⟩

/-! ### An instance

The group is the scalars, a point is encoded as the number it is, and a range proof is the bit
length it proves. -/

def scalarEnv : BlindEnv Scalar where
  generators := ⟨7, 1⟩
  commitmentParse
    | 8 :: bytes => some (ofBeBytes bytes : Nat)
    | _ => none
  rangeproofVerify _ proof := match proof with
    | [bits] => some (0, 2 ^ bits.toNat - 1)
    | _ => none
  commitmentSerialize p := 8 :: beBytes 32 p.val
  rangeproofSign _ _ _ value := some [UInt8.ofNat (max 1 (Nat.size value))]
  getPubKey key := 3 :: (key ++ List.replicate 32 0).take 32
  computeECDHNonce _ _ := some Uint256.null
  hkdfExpand32 ss _ := ss

theorem completeSecp_scalarEnv : CompleteSecp scalarEnv where
  smul_H s h := by simpa [scalarEnv] using h
  isCommitment_serialize p _ := by
    simp [scalarEnv, CConfidentialCommitment.IsCommitment, committedSize, valueFormat]
  parse_serialize p _ := by
    have hlt : p.val < 256 ^ 32 := (ZMod.val_lt p).trans (by decide)
    simp [scalarEnv, ofBeBytes_beBytes_of_lt hlt]
  rangeproof_complete := by
    intro commit blind nonce value proof hvalue _ hproof
    have hsize : Nat.size value ≤ 64 := Nat.size_le.mpr hvalue
    simp only [scalarEnv, Option.some.injEq] at hproof
    subst hproof
    have hbits : (UInt8.ofNat (max 1 (Nat.size value))).toNat = max 1 (Nat.size value) := by
      rw [UInt8.toNat_ofNat']
      omega
    simp [scalarEnv, hbits, MAX_RANGEPROOF_SIZE]

def sampleRandom : BlindRandom scalarEnv.getPubKey where
  blind i := i + 20
  nonce _ := Uint256.null
  ephemeral _ _ := []
  size_ephemeral _ _ := by simp [scalarEnv]
  odd_ephemeral _ := by simp [scalarEnv]

def sampleCoins : List KnownCoin :=
  [⟨.ofAmount 400 [OP_TRUE], 400, 0⟩,
   ⟨⟨⟨scalarEnv.commitmentSerialize (600 + 7 * 50)⟩, .null, [10], [OP_TRUE]⟩, 600, 50⟩]

def sampleTx : CTransaction where
  nVersion := CT_VERSION
  vin := [⟨⟨Uint256.null, 0⟩, [], 0, [], .null⟩, ⟨⟨Uint256.null, 1⟩, [], 0, [], .null⟩]
  vout := [.ofAmount 300 [OP_TRUE], .ofAmount 200 [OP_TRUE], .ofAmount 490 [OP_TRUE]]
  nLockTime := 0

theorem opens_sampleCoins :
    ∀ coin ∈ sampleCoins, coin.Opens scalarEnv ∧ MoneyRange coin.amount := by
  simp only [sampleCoins, List.forall_mem_cons, List.not_mem_nil, false_implies, implies_true,
    and_true]
  refine ⟨⟨.inl ⟨by decide, by decide, rfl⟩, by decide⟩, .inr ⟨by decide, ?_⟩, by decide⟩
  rw [completeSecp_scalarEnv.parse_serialize _ (by decide)]
  rfl

theorem verifyAmounts_sampleTx :
    ∃ result, blindTransaction scalarEnv sampleRandom (sampleCoins.map KnownCoin.blind) sampleTx
        [none, none, some []] (some [false, true, false]) true = some result ∧
      verifyAmounts scalarEnv.toSecp256k1 (sampleCoins.map KnownCoin.out)
        (appendFee result.tx 10) = .ok (some 10) := by
  obtain ⟨result, hresult⟩ : ∃ result, blindTransaction scalarEnv sampleRandom
      (sampleCoins.map KnownCoin.blind) sampleTx [none, none, some []]
      (some [false, true, false]) true = some result := ⟨_, rfl⟩
  refine ⟨result, hresult, ?_⟩
  exact (verifyAmounts_blindTransaction_iff scalarEnv completeSecp_scalarEnv sampleRandom
    sampleCoins sampleTx _ _ _ result 10 (by decide) rfl (by decide) opens_sampleCoins (by decide)
    hresult (by decide) (by decide) (by decide)).mpr ⟨by decide, by decide⟩

end Rcpu.Blind
