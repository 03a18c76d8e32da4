import Rcpu.Checks
import Rcpu.Transaction

/-!
# Context-free transaction checks

`CheckTransaction` of `consensus/tx_check.cpp`, with the reject reasons and debug messages of the
source, and what an accepted transaction satisfies.
-/

namespace Rcpu.TxCheck

open Checks ByteStream Serialize Confidential Transaction

/-! ### Validation results -/

inductive TxValidationResult where
  | TX_CONSENSUS
  | TX_MISSING_INPUTS
  | TX_PREMATURE_SPEND
deriving DecidableEq, Repr

structure Invalid (Result : Type) where
  result : Result
  rejectReason : String
  debugMessage : String
deriving DecidableEq, Repr

/-- How a validation function ends without accepting: it records a rejection, throws, or an
assertion stops the process. -/
inductive Failure (Result : Type) where
  | invalid (state : Invalid Result)
  | exception (what : String)
  | assertion (expr : String)
deriving DecidableEq, Repr

/-! ### Limits -/

def WITNESS_SCALE_FACTOR : Nat := 4

def MAX_BLOCK_WEIGHT : Nat := 4000000

/-! ### `CheckTransaction` -/

def consensusInvalid (rejectReason debugMessage : String) : Invalid TxValidationResult :=
  ⟨.TX_CONSENSUS, rejectReason, debugMessage⟩

/-- The version whitelist, checked here and again in `CheckTxInputs`. -/
def checkVersion (tx : CTransaction) : Except (Invalid TxValidationResult) Unit :=
  require (1 ≤ tx.nVersion ∧ tx.nVersion ≤ CT_VERSION)
    (consensusInvalid "bad-txns-version" s!"transaction version {tx.nVersion} not allowed")

/-- One step of the output loop: negative, too large, and the running total. -/
def checkOutputAmount (nValueOut : Int) (txout : CTxOut) :
    Except (Invalid TxValidationResult) Int :=
  if ¬ txout.nValue.IsExplicit then pure nValueOut
  else do
    require (0 ≤ txout.nValue.getAmount) (consensusInvalid "bad-txns-vout-negative" "")
    require (txout.nValue.getAmount ≤ MAX_MONEY) (consensusInvalid "bad-txns-vout-toolarge" "")
    require (MoneyRange (nValueOut + txout.nValue.getAmount))
      (consensusInvalid "bad-txns-txouttotal-toolarge" "")
    return nValueOut + txout.nValue.getAmount

def checkPrevouts (tx : CTransaction) : Except (Invalid TxValidationResult) Unit :=
  if tx.IsCoinBase then
    tx.vin.forM fun txin => require (2 ≤ txin.scriptSig.length ∧ txin.scriptSig.length ≤ 100)
      (consensusInvalid "bad-cb-length" "")
  else
    tx.vin.forM fun txin => require (¬ txin.prevout.IsNull)
      (consensusInvalid "bad-txns-prevout-null" "")

def checkTransaction (tx : CTransaction) : Except (Invalid TxValidationResult) Unit := do
  checkVersion tx
  -- a legacy transaction must never carry confidential outputs
  tx.vout.forM fun txout =>
    require (tx.fCT ∨ ¬ (txout.nValue.IsCommitment ∨ txout.vchRangeproof ≠ []))
      (consensusInvalid "bad-txns-nonct-commitment"
        "non-CT transaction carries a confidential output")
  -- the value field of a confidential input is covered by no signature, so it must be null
  tx.vin.zipIdx.forM fun (txin, i) =>
    require (¬ tx.fCT ∨ txin.nValue.IsNull)
      (consensusInvalid "bad-txns-ct-input-value"
        s!"confidential transaction input {i} carries a non-null nValue")
  require (tx.vin ≠ []) (consensusInvalid "bad-txns-vin-empty" "")
  require (tx.vout ≠ []) (consensusInvalid "bad-txns-vout-empty" "")
  require ((tx.serialize false).length * WITNESS_SCALE_FACTOR ≤ MAX_BLOCK_WEIGHT)
    (consensusInvalid "bad-txns-oversize" "")
  let _ ← tx.vout.foldlM checkOutputAmount 0
  -- `std::set::insert` reports the first repeated outpoint
  require (tx.vin.map CTxIn.prevout).Nodup (consensusInvalid "bad-txns-inputs-duplicate" "")
  checkPrevouts tx

structure Checked (tx : CTransaction) : Prop where
  version : 1 ≤ tx.nVersion ∧ tx.nVersion ≤ CT_VERSION
  nonCT : tx.fCT = false → ∀ txout ∈ tx.vout, ¬ txout.nValue.IsCommitment ∧ txout.vchRangeproof = []
  inputValue : tx.fCT = true → ∀ txin ∈ tx.vin, txin.nValue.IsNull
  vin_ne : tx.vin ≠ []
  vout_ne : tx.vout ≠ []
  size_le : (tx.serialize false).length * WITNESS_SCALE_FACTOR ≤ MAX_BLOCK_WEIGHT
  amount : ∀ txout ∈ tx.vout, txout.nValue.IsExplicit → MoneyRange txout.nValue.getAmount
  prevouts_nodup : (tx.vin.map CTxIn.prevout).Nodup
  prevout_ne_null : ¬ tx.IsCoinBase → ∀ txin ∈ tx.vin, ¬ txin.prevout.IsNull

theorem checkOutputAmount_eq_ok {acc acc' : Int} {txout : CTxOut}
    (h : checkOutputAmount acc txout = .ok acc') (hexplicit : txout.nValue.IsExplicit) :
    MoneyRange txout.nValue.getAmount := by
  rw [checkOutputAmount, if_neg (not_not.mpr hexplicit)] at h
  simp only [bind_unit_eq_ok, require_eq_ok] at h
  exact ⟨h.1, h.2.1⟩

/-- **What `CheckTransaction` guarantees.** -/
theorem checked_of_checkTransaction {tx : CTransaction} (h : checkTransaction tx = .ok ()) :
    Checked tx := by
  unfold checkTransaction at h
  simp only [bind_unit_eq_ok, checkVersion, require_eq_ok, forM_eq_ok] at h
  obtain ⟨hversion, hnonct, hinput, hvin, hvout, hsize, h⟩ := h
  obtain ⟨total, hamounts, h⟩ := bind_eq_ok.mp h
  obtain ⟨hnodup, hprevouts⟩ := bind_unit_eq_ok.mp h
  refine ⟨hversion, ?_, ?_, hvin, hvout, hsize, ?_, require_eq_ok.mp hnodup, ?_⟩
  · intro hct txout hmem
    have := hnonct txout hmem
    simp only [hct, Bool.false_eq_true, false_or, not_or, not_not] at this
    exact this
  · intro hct txin hmem
    obtain ⟨i, hi⟩ := List.getElem?_of_mem hmem
    simpa [hct] using hinput (txin, i) (List.mem_zipIdx_iff_getElem?.mpr hi)
  · intro txout hmem hexplicit
    obtain ⟨acc, acc', hstep⟩ := foldlM_mem hamounts hmem
    exact checkOutputAmount_eq_ok hstep hexplicit
  · intro hcb txin hmem
    rw [checkPrevouts, if_neg hcb, forM_eq_ok] at hprevouts
    exact require_eq_ok.mp (hprevouts txin hmem)

/-- A checked output is not the null output, whose amount is negative. -/
theorem Checked.out_ne_null {tx : CTransaction} (h : Checked tx) {out : CTxOut}
    (hmem : out ∈ tx.vout) : ¬ out.IsNull := by
  rintro ⟨hexplicit, hamount⟩
  have hrange := (h.amount out hmem hexplicit).1
  omega

/-! ### Consequences of the size limit -/

private theorem length_le_length_flatMap {α : Type} {f : α → Bytes} (hne : ∀ x, f x ≠ [])
    (l : List α) : l.length ≤ (l.flatMap f).length := by
  induction l with
  | nil => simp
  | cons x l ih =>
    have hpos := List.length_pos_iff.mpr (hne x)
    simp only [List.flatMap_cons, List.length_append, List.length_cons]
    omega

theorem lengths_le_of_checked {tx : CTransaction} (h : Checked tx) :
    tx.vin.length ≤ 1000000 ∧ tx.vout.length ≤ 1000000 := by
  have hin := length_le_length_flatMap (f := CTxIn.serialize tx.fCT)
    (fun txin => by simp [CTxIn.serialize, serBytes_ne_nil]) tx.vin
  have hout := length_le_length_flatMap (CTxOut.serialize_ne_nil tx.fCT) tx.vout
  have hsize := h.size_le
  simp only [CTransaction.serialize, serVector, List.length_append, WITNESS_SCALE_FACTOR,
    MAX_BLOCK_WEIGHT] at hsize
  omega

end Rcpu.TxCheck
