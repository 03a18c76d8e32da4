import Rcpu.Pedersen
import Rcpu.TxCheck

/-!
# Confidential amount verification

`VerifyAmounts` of `confidential_validation.cpp` over the interface of the `secp256k1` generator
and range-proof modules.  The group, the point encoding and the range-proof verifier are
parameters; the theorems say what they assume of them.
-/

namespace Rcpu.ConfidentialValidation

open Checks ByteStream Confidential Transaction TxCheck Pedersen

def scalarOrder : ℕ := 0xFFFFFFFFFFFFFFFFFFFFFFFFFFFFFFFEBAAEDCE6AF48A03BBFD25E8CD0364141

abbrev Scalar := ZMod scalarOrder

instance : NeZero scalarOrder := ⟨by decide⟩

structure Secp256k1 (𝔾 : Type) where
  generators : Generators 𝔾
  /-- `secp256k1_pedersen_commitment_parse` on the 33 bytes of a commitment. -/
  commitmentParse : Bytes → Option 𝔾
  /-- `secp256k1_rangeproof_verify`: the proven `min_value` and `max_value`. -/
  rangeproofVerify : 𝔾 → Bytes → Option (Nat × Nat)

variable {𝔾 : Type} [AddCommGroup 𝔾] [Module Scalar 𝔾] [DecidableEq 𝔾]

namespace Secp256k1

variable (secp : Secp256k1 𝔾)

/-- `secp256k1_pedersen_commit`: fails on an overflowing blind and on the point at infinity. -/
def pedersenCommit (blind value : Nat) : Option 𝔾 :=
  if blind < scalarOrder then
    let r := secp.generators.commit (value : Scalar) (blind : Scalar)
    if r = 0 then none else some r
  else none

/-- `secp256k1_pedersen_verify_tally`: minus the second list plus the first is infinity. -/
def pedersenVerifyTally (commits ncommits : List 𝔾) : Prop := -ncommits.sum + commits.sum = 0

instance (commits ncommits : List 𝔾) : Decidable (pedersenVerifyTally commits ncommits) :=
  inferInstanceAs (Decidable (_ = _))

end Secp256k1

open Secp256k1

variable (secp : Secp256k1 𝔾)

def explicitCommit (value : Int) : Option 𝔾 := secp.pedersenCommit 0 (value % 2 ^ 64).toNat

/-- Explicit values need no range proof; a commitment needs one that stays below `MAX_MONEY`. -/
def verifyRangeProof (out : CTxOut) : Bool :=
  if ¬ out.nValue.IsCommitment then true
  else if out.vchRangeproof = [] then false
  else if out.vchRangeproof.length > MAX_RANGEPROOF_SIZE then false
  else match secp.commitmentParse out.nValue.vchCommitment with
    | none => false
    | some commit =>
      match secp.rangeproofVerify commit out.vchRangeproof with
      | none => false
      | some (_, maxValue) => !decide ((maxValue : Int) > MAX_MONEY)

def inputCommitment (prevout : CTxOut) : Option 𝔾 :=
  let val := prevout.nValue
  if val.IsNull then none
  else if val.IsExplicit then
    if ¬ MoneyRange val.getAmount then none else explicitCommit secp val.getAmount
  else if val.IsCommitment then secp.commitmentParse val.vchCommitment
  else none

/-- The commitment an output contributes to the tally, its range proof verified. -/
def outputCommitment (out : CTxOut) : Option 𝔾 :=
  let val := out.nValue
  if val.IsNull then none
  else if val.IsExplicit then
    if ¬ MoneyRange val.getAmount then none else explicitCommit secp val.getAmount
  else if val.IsCommitment then do
    let commit ← secp.commitmentParse val.vchCommitment
    if verifyRangeProof secp out then some commit else none
  else none

def addFee (totalFee : Int) (out : CTxOut) : Option Int :=
  if out.IsFee then
    let fee := out.nValue.getAmount
    if ¬ out.nValue.IsExplicit ∨ fee ≤ 0 ∨ ¬ MoneyRange fee then none
    else if ¬ MoneyRange (totalFee + fee) then none
    else some (totalFee + fee)
  else some totalFee

def tallyOutput (acc : Int × List 𝔾) (out : CTxOut) : Option (Int × List 𝔾) := do
  let totalFee ← addFee acc.1 out
  let commit ← outputCommitment secp out
  return (totalFee, acc.2 ++ [commit])

def hasConfidentialOutput (tx : CTransaction) : Bool := tx.vout.any fun out => out.nValue.IsCommitment

/-- The balance check past the assertions: the fee when it holds. -/
def verifyBalance (inputs : List CTxOut) (tx : CTransaction) : Option Int := do
  let vpIn ← inputs.mapM (inputCommitment secp)
  let (totalFee, vpOut) ← tx.vout.foldlM (tallyOutput secp) (0, [])
  if hasConfidentialOutput tx ∧ totalFee ≤ 0 then none
  else if ¬ pedersenVerifyTally vpIn vpOut then none
  else some totalFee

/-- `VerifyAmounts`: `some fee` stands for returning true with `txfee_out` set. -/
def verifyAmounts (inputs : List CTxOut) (tx : CTransaction) :
    Except (Failure TxValidationResult) (Option Int) := do
  require (¬ tx.IsCoinBase) (.assertion "!tx.IsCoinBase()")
  require (inputs.length = tx.vin.length) (.assertion "inputs.size() == tx.vin.size()")
  return verifyBalance secp inputs tx

/-! ### What an accepted balance means -/

theorem pedersenCommit_eq_some {blind value : Nat} {c : 𝔾} :
    secp.pedersenCommit blind value = some c ↔
      blind < scalarOrder ∧ c = secp.generators.commit (value : Scalar) (blind : Scalar) ∧
        c ≠ 0 := by
  unfold pedersenCommit
  by_cases hblind : blind < scalarOrder
  · simp only [hblind, if_true, true_and]
    constructor
    · intro h
      split_ifs at h with hzero
      simp only [Option.some.injEq] at h
      exact ⟨h.symm, h ▸ hzero⟩
    · rintro ⟨rfl, hne⟩
      rw [if_neg hne]
  · simp [hblind]

/-- The cast to `uint64_t` keeps an amount in range. -/
theorem explicitCommit_eq_some {amount : Int} {c : 𝔾} (hrange : MoneyRange amount) :
    explicitCommit secp amount = some c ↔
      c = secp.generators.commit (amount : Scalar) 0 ∧ c ≠ 0 := by
  have hamount : ((amount % 2 ^ 64).toNat : Int) = amount := by
    unfold MoneyRange MAX_MONEY COIN at hrange
    omega
  rw [explicitCommit, pedersenCommit_eq_some, ← Int.cast_natCast, hamount, Nat.cast_zero]
  simp [Nat.pos_of_neZero]

omit [DecidableEq 𝔾] in
/-- An amount committed to with factor zero is the point at infinity just for amount zero, if the
value generator has the order of the scalars. -/
theorem commit_ne_zero {g : Generators 𝔾} (hH : ∀ n : Scalar, n • g.H = 0 → n = 0) {amount : Int}
    (hrange : MoneyRange amount) : g.commit (amount : Scalar) 0 ≠ 0 ↔ amount ≠ 0 := by
  rw [not_iff_not]
  constructor
  · intro h
    have hscalar : (amount : Scalar) = ((0 : Int) : Scalar) := by
      rw [Int.cast_zero]
      apply hH
      simpa [Generators.commit] using h
    have horder : MAX_MONEY < (scalarOrder : Int) := by decide
    unfold MoneyRange at hrange
    exact intCast_inj_of_lt ⟨hrange.1, by omega⟩ ⟨le_rfl, by omega⟩ hscalar
  · rintro rfl
    simp

/-- Amounts in range, as many as a vector can hold, add up to less than the order of the
scalars. -/
theorem sum_lt_scalarOrder {amounts : List Int} (hlen : amounts.length < 2 ^ 64)
    (hrange : ∀ amount ∈ amounts, MoneyRange amount) :
    0 ≤ amounts.sum ∧ amounts.sum < scalarOrder := by
  have hbound : 0 ≤ amounts.sum ∧ amounts.sum ≤ amounts.length * MAX_MONEY := by
    clear hlen
    induction amounts with
    | nil => simp
    | cons amount amounts ih =>
      rw [List.forall_mem_cons] at hrange
      obtain ⟨hlo, hhi⟩ := hrange.1
      have := ih hrange.2
      simp only [List.sum_cons, List.length_cons, Nat.cast_add, Nat.cast_one, add_mul, one_mul]
      omega
  refine ⟨hbound.1, hbound.2.trans_lt ?_⟩
  unfold MAX_MONEY COIN scalarOrder
  omega

/-- An input is tallied when it is an amount in range or a commitment that parses. -/
theorem inputCommitment_eq_some {prevout : CTxOut} {c : 𝔾} :
    inputCommitment secp prevout = some c ↔
      (prevout.nValue.IsExplicit ∧ MoneyRange prevout.nValue.getAmount ∧
        explicitCommit secp prevout.nValue.getAmount = some c) ∨
      (prevout.nValue.IsCommitment ∧
        secp.commitmentParse prevout.nValue.vchCommitment = some c) := by
  unfold inputCommitment
  by_cases hexplicit : prevout.nValue.IsExplicit
  · have hnull : ¬ prevout.nValue.IsNull := fun h => h.not_isExplicit hexplicit
    have hcommit : ¬ prevout.nValue.IsCommitment := fun h => h.not_isExplicit hexplicit
    by_cases hrange : MoneyRange prevout.nValue.getAmount <;>
      simp [hnull, hexplicit, hcommit, hrange]
  · by_cases hcommit : prevout.nValue.IsCommitment
    · have hnull : ¬ prevout.nValue.IsNull := fun h => h.not_isCommitment hcommit
      simp [hnull, hexplicit, hcommit]
    · simp [hexplicit, hcommit]

/-- An output is tallied like an input, and a commitment needs its range proof. -/
theorem outputCommitment_eq_some {out : CTxOut} {c : 𝔾} :
    outputCommitment secp out = some c ↔
      (out.nValue.IsExplicit ∧ MoneyRange out.nValue.getAmount ∧
        explicitCommit secp out.nValue.getAmount = some c) ∨
      (out.nValue.IsCommitment ∧ secp.commitmentParse out.nValue.vchCommitment = some c ∧
        verifyRangeProof secp out = true) := by
  unfold outputCommitment
  by_cases hexplicit : out.nValue.IsExplicit
  · have hnull : ¬ out.nValue.IsNull := fun h => h.not_isExplicit hexplicit
    have hcommit : ¬ out.nValue.IsCommitment := fun h => h.not_isExplicit hexplicit
    by_cases hrange : MoneyRange out.nValue.getAmount <;>
      simp [hnull, hexplicit, hcommit, hrange]
  · by_cases hcommit : out.nValue.IsCommitment
    · have hnull : ¬ out.nValue.IsNull := fun h => h.not_isCommitment hcommit
      by_cases hproof : verifyRangeProof secp out = true <;>
        simp [hnull, hexplicit, hcommit, hproof]
    · simp [hexplicit, hcommit]

omit [AddCommGroup 𝔾] [Module Scalar 𝔾] [DecidableEq 𝔾] in
/-- A commitment passes the range-proof check when its proof is of admissible size and proves a
maximum of at most `MAX_MONEY`. -/
theorem verifyRangeProof_eq_true {out : CTxOut} {commit : 𝔾} (hcommit : out.nValue.IsCommitment)
    (hparse : secp.commitmentParse out.nValue.vchCommitment = some commit) :
    verifyRangeProof secp out = true ↔
      out.vchRangeproof ≠ [] ∧ out.vchRangeproof.length ≤ MAX_RANGEPROOF_SIZE ∧
        ∃ minValue maxValue : Nat,
          secp.rangeproofVerify commit out.vchRangeproof = some (minValue, maxValue) ∧
            (maxValue : Int) ≤ MAX_MONEY := by
  unfold verifyRangeProof
  rw [if_neg (not_not.mpr hcommit)]
  simp only [hparse]
  cases hverify : secp.rangeproofVerify commit out.vchRangeproof with
  | none => split_ifs <;> simp
  | some range =>
    split_ifs with hempty hsize
    · simp [hempty]
    · simp only [false_iff]
      omega
    · simp [hempty, not_lt.mp hsize, Prod.ext_iff]

def feeAmount (out : CTxOut) : Int := if out.IsFee then out.nValue.getAmount else 0

theorem addFee_eq_some {a b : Int} {out : CTxOut} (ha : MoneyRange a) :
    addFee a out = some b ↔
      (out.IsFee → 0 < out.nValue.getAmount) ∧ b = a + feeAmount out ∧ MoneyRange b := by
  unfold addFee feeAmount
  by_cases hfee : out.IsFee
  · simp only [hfee, if_true, hfee.1, not_true, false_or, forall_const]
    constructor
    · intro h
      split_ifs at h with h1 h2
      simp only [Option.some.injEq] at h
      rw [not_or, not_not] at h1
      exact ⟨by omega, by omega, h ▸ h2⟩
    · rintro ⟨hpos, rfl, hrange⟩
      have hamount : MoneyRange out.nValue.getAmount := by
        unfold MoneyRange at *
        omega
      rw [if_neg (by simp [hamount, hpos]), if_neg (not_not.mpr hrange)]
  · simp only [hfee, if_false, Option.some.injEq, false_implies, true_and, add_zero]
    constructor
    · rintro rfl
      exact ⟨rfl, ha⟩
    · rintro ⟨rfl, -⟩
      rfl

theorem foldlM_addFee_eq_some {a b : Int} {vout : List CTxOut} (ha : MoneyRange a) :
    vout.foldlM addFee a = some b ↔
      (∀ out ∈ vout, out.IsFee → 0 < out.nValue.getAmount) ∧
        b = a + (vout.map feeAmount).sum ∧ MoneyRange b := by
  induction vout generalizing a with
  | nil =>
    simp only [List.foldlM_nil, Option.pure_def, Option.some.injEq, List.not_mem_nil,
      false_implies, implies_true, List.map_nil, List.sum_nil, add_zero, true_and]
    constructor
    · rintro rfl
      exact ⟨rfl, ha⟩
    · rintro ⟨rfl, -⟩
      rfl
  | cons out vout ih =>
    rw [List.foldlM_cons, Option.bind_eq_bind, Option.bind_eq_some_iff, List.forall_mem_cons,
      List.map_cons, List.sum_cons]
    constructor
    · rintro ⟨a', hout, hrest⟩
      obtain ⟨hpos, rfl, hrange⟩ := (addFee_eq_some ha).mp hout
      obtain ⟨hpos', rfl, hrange'⟩ := (ih hrange).mp hrest
      exact ⟨⟨hpos, hpos'⟩, by omega, hrange'⟩
    · rintro ⟨⟨hpos, hpos'⟩, rfl, hrange⟩
      have hnonneg : 0 ≤ (vout.map feeAmount).sum := by
        apply List.sum_nonneg
        intro x hx
        obtain ⟨o, ho, rfl⟩ := List.mem_map.mp hx
        unfold feeAmount
        split
        · next h => exact (hpos' o ho h).le
        · exact le_rfl
      have hfirst : 0 ≤ feeAmount out := by
        unfold feeAmount
        split
        · next h => exact (hpos h).le
        · exact le_rfl
      have hmid : MoneyRange (a + feeAmount out) := by
        unfold MoneyRange at *
        omega
      refine ⟨a + feeAmount out, (addFee_eq_some ha).mpr ⟨hpos, rfl, hmid⟩,
        (ih hmid).mpr ⟨hpos', by omega, hrange⟩⟩

/-- The output loop is the fee loop and the collection of the output commitments. -/
theorem foldlM_tallyOutput_eq_some {a b : Int} {cs ds : List 𝔾} {vout : List CTxOut} :
    vout.foldlM (tallyOutput secp) (a, cs) = some (b, ds) ↔
      vout.foldlM addFee a = some b ∧
        ∃ es, List.Forall₂ (fun out c => outputCommitment secp out = some c) vout es ∧
          ds = cs ++ es := by
  induction vout generalizing a cs with
  | nil => simp [eq_comm]
  | cons out vout ih =>
    simp only [List.foldlM_cons, Option.bind_eq_bind, Option.bind_eq_some_iff]
    constructor
    · rintro ⟨acc, hstep, hrest⟩
      simp only [tallyOutput, Option.bind_eq_bind, Option.bind_eq_some_iff, Option.pure_def,
        Option.some.injEq] at hstep
      obtain ⟨a', hfee, c, hc, rfl⟩ := hstep
      obtain ⟨hfees, es, hes, rfl⟩ := ih.mp hrest
      exact ⟨⟨a', hfee, hfees⟩, c :: es, .cons hc hes, by simp⟩
    · rintro ⟨⟨a', hfee, hfees⟩, es, hes, rfl⟩
      cases hes with
      | @cons _ c _ es hc hes =>
        refine ⟨(a', cs ++ [c]), ?_, ih.mpr ⟨hfees, es, hes, by simp⟩⟩
        simp [tallyOutput, hfee, hc]

/-- **The verifier, read declaratively**: every input and output has its commitment, fee outputs are
positive with sum `fee`, a confidential output needs a positive fee, and the commitments balance. -/
theorem verifyBalance_eq_some {inputs : List CTxOut} {tx : CTransaction} {fee : Int} :
    verifyBalance secp inputs tx = some fee ↔
      ∃ ins outs, List.Forall₂ (fun prevout c => inputCommitment secp prevout = some c) inputs ins ∧
        List.Forall₂ (fun out c => outputCommitment secp out = some c) tx.vout outs ∧
        (∀ out ∈ tx.vout, out.IsFee → 0 < out.nValue.getAmount) ∧
        fee = (tx.vout.map feeAmount).sum ∧ MoneyRange fee ∧
        (hasConfidentialOutput tx = true → 0 < fee) ∧ ins.sum = outs.sum := by
  have hzero : MoneyRange 0 := by decide
  have htally : ∀ ins outs : List 𝔾, pedersenVerifyTally ins outs ↔ ins.sum = outs.sum := by
    intro ins outs
    rw [pedersenVerifyTally, neg_add_eq_zero, eq_comm]
  unfold verifyBalance
  simp only [Option.bind_eq_bind, Option.bind_eq_some_iff, mapM_eq_some, Prod.exists,
    foldlM_tallyOutput_eq_some, foldlM_addFee_eq_some hzero, zero_add, List.nil_append]
  constructor
  · rintro ⟨ins, hins, total, outs, ⟨⟨hpos, rfl, hrange⟩, es, hes, rfl⟩, h⟩
    split_ifs at h with h1 h2
    simp only [Option.some.injEq] at h
    rw [htally] at h2
    refine ⟨ins, outs, hins, hes, hpos, h.symm, h ▸ hrange, fun hconf => ?_, h2⟩
    rw [not_and, not_le] at h1
    exact h ▸ h1 hconf
  · rintro ⟨ins, outs, hins, houts, hpos, rfl, hrange, hconf, hsum⟩
    refine ⟨ins, hins, _, outs, ⟨⟨hpos, rfl, hrange⟩, outs, houts, rfl⟩, ?_⟩
    rw [if_neg (fun h => absurd (hconf h.1) (not_lt.mpr h.2)),
      if_neg (not_not.mpr ((htally ins outs).mpr hsum))]

theorem verifyBalance_congr {inputs : List CTxOut} {tx tx' : CTransaction} (h : tx.vout = tx'.vout) :
    verifyBalance secp inputs tx = verifyBalance secp inputs tx' := by
  unfold verifyBalance hasConfidentialOutput
  rw [h]

theorem verifyAmounts_eq_ok {inputs : List CTxOut} {tx : CTransaction} {fee : Option Int} :
    verifyAmounts secp inputs tx = .ok fee ↔
      ¬ tx.IsCoinBase ∧ inputs.length = tx.vin.length ∧ verifyBalance secp inputs tx = fee := by
  simp only [verifyAmounts, bind_unit_eq_ok, require_eq_ok, pure_eq_ok]

end Rcpu.ConfidentialValidation
