import Rcpu.Coins
import Rcpu.ConfidentialValidation

/-!
# Transaction checks against a coins view

`Consensus::CheckTxInputs` of `consensus/tx_verify.cpp`.  The view is the function `GetCoin` that
answers with the unspent coin at an outpoint, so that the same definition runs over the UTXO set
and over the mempool's view of it.
-/

namespace Rcpu.TxVerify

open Checks Confidential Transaction TxCheck ConfidentialValidation Coins

def COINBASE_MATURITY : Int := 100

structure ConsensusParams where
  nSubsidyHalvingInterval : Nat
  nCTActivationHeight : Nat
  nBanPathAHeight : Nat
  hashGenesisBlock : Uint256
  BIP34Height : Nat
  BIP34Hash : Uint256

/-! ### Text of amounts and bytes in messages -/

def padded (w n : Nat) : String :=
  let digits := toString n
  String.ofList (List.replicate (w - digits.length) '0') ++ digits

/-- `FormatMoney`: eight decimals, of which trailing zeros beyond the second are trimmed. -/
def formatMoney (n : Int) : String :=
  let quotient := n.natAbs / COIN.toNat
  let decimals := (padded 8 (n.natAbs % COIN.toNat)).toList
  let tail := (decimals.drop 2).reverse.dropWhile (· = '0')
  (if n < 0 then "-" else "") ++ toString quotient ++ "." ++
    String.ofList (decimals.take 2 ++ tail.reverse)

def hexByte (b : UInt8) : String :=
  String.ofList [Nat.digitChar (b.toNat / 16), Nat.digitChar (b.toNat % 16)]

/-! ### The checks -/

variable {𝔾 : Type} [AddCommGroup 𝔾] [Module Scalar 𝔾] [DecidableEq 𝔾]

/-- A rejection with result `TX_CONSENSUS`, as the failure of a function that may also throw. -/
def consensusFailure (rejectReason debugMessage : String) : Failure TxValidationResult :=
  .invalid (consensusInvalid rejectReason debugMessage)

def spentOutput (getCoin : COutPoint → Option Coin) (nSpendHeight : Nat) (txin : CTxIn) :
    Except (Failure TxValidationResult) CTxOut :=
  match getCoin txin.prevout with
  | none => .error (.assertion "!coin.IsSpent()")
  | some coin =>
    let depth : Int := (nSpendHeight : Int) - (coin.nHeight.val : Int)
    if coin.fCoinBase ∧ depth < COINBASE_MATURITY then
      .error (.invalid ⟨.TX_PREMATURE_SPEND, "bad-txns-premature-spend-of-coinbase",
        s!"tried to spend coinbase at depth {depth}"⟩)
    else .ok coin.out

def checkPlain (prevouts : List CTxOut) (tx : CTransaction) :
    Except (Failure TxValidationResult) Unit := do
  prevouts.forM fun prevout => require prevout.nValue.IsExplicit
    (consensusFailure "bad-txns-v2-spend-ct" "non-CT transaction spends a confidential output")
  tx.vout.forM fun out => require out.nValue.IsExplicit
    (consensusFailure "bad-txns-nonct-commitment"
      "non-CT transaction creates a confidential output")

/-- From `nBanPathAHeight` on a nonce is null or 33 bytes with prefix 3 or 4. -/
def NonceShapeOk (nSpendHeight nBanPathAHeight : Nat) (nonce : CConfidentialNonce) : Prop :=
  nSpendHeight < nBanPathAHeight ∨ nonce.IsNull ∨
    (nonce.vchCommitment.length = 33 ∧
      (nonce.vchCommitment.head? = some 3 ∨ nonce.vchCommitment.head? = some 4))

instance (h b : Nat) (nonce : CConfidentialNonce) : Decidable (NonceShapeOk h b nonce) :=
  inferInstanceAs (Decidable (_ ∨ _))

/-- Range-proof size and nonce shape of one output of a confidential transaction. -/
def checkConfidentialOutput (params : ConsensusParams) (nSpendHeight : Nat) (out : CTxOut) :
    Except (Failure TxValidationResult) Unit := do
  require (out.vchRangeproof.length ≤ MAX_RANGEPROOF_SIZE)
    (consensusFailure "bad-txns-rangeproof-too-large"
      s!"rangeproof too large ({out.vchRangeproof.length} > {MAX_RANGEPROOF_SIZE})")
  let nc := out.nNonce.vchCommitment
  require (NonceShapeOk nSpendHeight params.nBanPathAHeight out.nNonce)
    (consensusFailure "bad-ct-legacy-nonce"
      ("confidential output nonce has invalid shape (size=" ++ toString nc.length ++
        ", prefix=0x" ++ hexByte (nc.head?.getD 0) ++ ")"))

def checkConfidential (secp : Secp256k1 𝔾) (params : ConsensusParams) (nSpendHeight : Nat)
    (prevouts : List CTxOut) (tx : CTransaction) : Except (Failure TxValidationResult) Int := do
  tx.vout.forM (checkConfidentialOutput params nSpendHeight)
  tx.vin.forM fun txin => require txin.nValue.IsNull
    (consensusFailure "bad-txns-ct-input-value" "confidential input carries a non-null nValue")
  match ← verifyAmounts secp prevouts tx with
  | none => .error (consensusFailure "bad-txns-ct-balance"
      "confidential value balance or range proof failed")
  | some txfee => return txfee

def addInputValue (nValueIn : Int) (prevout : CTxOut) : Except (Failure TxValidationResult) Int := do
  require (MoneyRange prevout.nValue.getAmount ∧ MoneyRange (nValueIn + prevout.nValue.getAmount))
    (consensusFailure "bad-txns-inputvalues-outofrange" "")
  return nValueIn + prevout.nValue.getAmount

def plainFee (prevouts : List CTxOut) (tx : CTransaction) :
    Except (Failure TxValidationResult) Int := do
  let nValueIn ← prevouts.foldlM addInputValue 0
  let valueOut ← tx.getValueOut.mapError .exception
  require (valueOut ≤ nValueIn)
    (consensusFailure "bad-txns-in-belowout"
      ("value in (" ++ formatMoney nValueIn ++ ") < value out (" ++ formatMoney valueOut ++ ")"))
  require (MoneyRange (nValueIn - valueOut)) (consensusFailure "bad-txns-fee-outofrange" "")
  return nValueIn - valueOut

/-- `Consensus::CheckTxInputs`; `elementsMode` is the global `g_con_elementsmode`. -/
def checkTxInputs (secp : Secp256k1 𝔾) (elementsMode : Bool) (params : ConsensusParams)
    (getCoin : COutPoint → Option Coin) (nSpendHeight : Nat) (tx : CTransaction) :
    Except (Failure TxValidationResult) Int := do
  (checkVersion tx).mapError .invalid
  require (tx.fCT = false ∨ params.nCTActivationHeight ≤ nSpendHeight)
    (consensusFailure "bad-ct-before-activation"
      s!"confidential transaction before activation height {params.nCTActivationHeight}")
  require (CCoinsView.HaveInputs getCoin tx)
    (.invalid ⟨.TX_MISSING_INPUTS, "bad-txns-inputs-missingorspent",
      "CheckTxInputs: inputs missing/spent"⟩)
  let prevouts ← tx.vin.mapM (spentOutput getCoin nSpendHeight)
  if tx.fCT then
    if elementsMode then checkConfidential secp params nSpendHeight prevouts tx
    else .error (consensusFailure "bad-txns-ct-mode-disabled"
      "confidential transaction received but CT mode is not enabled")
  else
    checkPlain prevouts tx
    plainFee prevouts tx

/-! ### What acceptance means -/

section Inversion

variable {secp : Secp256k1 𝔾} {elementsMode : Bool} {params : ConsensusParams}
  {getCoin : COutPoint → Option Coin} {nSpendHeight : Nat} {tx : CTransaction}
  {prevouts : List CTxOut} {fee : Int}

theorem spentOutput_eq_ok {txin : CTxIn} {out : CTxOut} :
    spentOutput getCoin nSpendHeight txin = .ok out ↔
      ∃ coin, getCoin txin.prevout = some coin ∧
        ¬ (coin.fCoinBase ∧ (nSpendHeight : Int) - (coin.nHeight.val : Int) < COINBASE_MATURITY) ∧
        coin.out = out := by
  unfold spentOutput
  cases getCoin txin.prevout with
  | none => simp
  | some coin =>
    dsimp only
    split_ifs with hmature
    · simp [hmature]
    · simp only [Except.ok.injEq, Option.some.injEq, exists_eq_left', hmature, not_false_eq_true,
        true_and]

theorem prevouts_eq_map_out {vin : List CTxIn} {coins : List Coin}
    (hprevouts : List.Forall₂ (fun txin out => spentOutput getCoin nSpendHeight txin = .ok out)
      vin prevouts)
    (hcoins : vin.map (fun txin => getCoin txin.prevout) = coins.map some) :
    prevouts = coins.map Coin.out := by
  induction hprevouts generalizing coins with
  | nil =>
    simp only [List.map_nil, List.nil_eq, List.map_eq_nil_iff] at hcoins
    simp [hcoins]
  | cons hhead _ ih =>
    cases coins with
    | nil => simp at hcoins
    | cons coin coins =>
      simp only [List.map_cons, List.cons.injEq] at hcoins
      obtain ⟨coin', hcoin', -, rfl⟩ := spentOutput_eq_ok.mp hhead
      rw [hcoin', Option.some.injEq] at hcoins
      rw [List.map_cons, ← hcoins.1, ih hcoins.2]

theorem checkPlain_eq_ok : checkPlain prevouts tx = .ok () ↔
    (∀ prevout ∈ prevouts, prevout.nValue.IsExplicit) ∧
      ∀ out ∈ tx.vout, out.nValue.IsExplicit := by
  simp only [checkPlain, bind_unit_eq_ok, forM_eq_ok, require_eq_ok]

theorem checkConfidential_eq_ok :
    checkConfidential secp params nSpendHeight prevouts tx = .ok fee ↔
      (∀ out ∈ tx.vout, out.vchRangeproof.length ≤ MAX_RANGEPROOF_SIZE ∧
        NonceShapeOk nSpendHeight params.nBanPathAHeight out.nNonce) ∧
      (∀ txin ∈ tx.vin, txin.nValue.IsNull) ∧ ¬ tx.IsCoinBase ∧
      prevouts.length = tx.vin.length ∧ verifyBalance secp prevouts tx = some fee := by
  simp only [checkConfidential, checkConfidentialOutput, verifyAmounts, bind_eq_ok, forM_eq_ok,
    require_eq_ok, exists_const]
  constructor
  · rintro ⟨houts, hins, balance, ⟨hcb, hlen, hbal⟩, h⟩
    obtain rfl := pure_eq_ok.mp hbal
    refine ⟨houts, hins, hcb, hlen, ?_⟩
    cases hv : verifyBalance secp prevouts tx with
    | none => simp [hv] at h
    | some txfee => simpa [hv] using h
  · rintro ⟨houts, hins, hcb, hlen, hbal⟩
    exact ⟨houts, hins, some fee, ⟨hcb, hlen, by simp [hbal]⟩, rfl⟩

/-- **Inversion of `CheckTxInputs`**: the spent outputs exist and one of the two accountings
accepts them. -/
theorem checkTxInputs_eq_ok :
    checkTxInputs secp elementsMode params getCoin nSpendHeight tx = .ok fee ↔
      (1 ≤ tx.nVersion ∧ tx.nVersion ≤ CT_VERSION) ∧
      (tx.fCT = false ∨ params.nCTActivationHeight ≤ nSpendHeight) ∧
      CCoinsView.HaveInputs getCoin tx ∧
      ∃ prevouts, List.Forall₂ (fun txin out => spentOutput getCoin nSpendHeight txin = .ok out)
          tx.vin prevouts ∧
        ((tx.fCT = true ∧ elementsMode = true ∧
            checkConfidential secp params nSpendHeight prevouts tx = .ok fee) ∨
          (tx.fCT = false ∧ checkPlain prevouts tx = .ok () ∧ plainFee prevouts tx = .ok fee)) := by
  simp only [checkTxInputs, checkVersion, bind_eq_ok, mapError_eq_ok, require_eq_ok, mapM_eq_ok,
    exists_const]
  refine and_congr_right fun _ => and_congr_right fun _ => and_congr_right fun _ => ?_
  refine exists_congr fun prevouts => and_congr_right fun _ => ?_
  cases tx.fCT <;> cases elementsMode <;> simp [bind_unit_eq_ok]

theorem isExplicit_or_isCommitment
    (haccept : checkTxInputs secp elementsMode params getCoin nSpendHeight tx = .ok fee) :
    ∀ out ∈ tx.vout, out.nValue.IsExplicit ∨ out.nValue.IsCommitment := by
  intro out hmem
  obtain ⟨-, -, -, prevouts, -, hcheck⟩ := checkTxInputs_eq_ok.mp haccept
  rcases hcheck with ⟨-, -, hconf⟩ | ⟨-, hplain, -⟩
  · obtain ⟨-, -, -, -, hbalance⟩ := checkConfidential_eq_ok.mp hconf
    obtain ⟨ins, outs, -, houts, -⟩ := (verifyBalance_eq_some _).mp hbalance
    obtain ⟨c, hc⟩ := exists_of_forall₂ houts hmem
    rcases (outputCommitment_eq_some _).mp hc with ⟨hexplicit, -⟩ | ⟨hcommit, -⟩
    · exact .inl hexplicit
    · exact .inr hcommit
  · simp only [checkPlain, bind_unit_eq_ok, forM_eq_ok, require_eq_ok] at hplain
    exact .inl (hplain.2 out hmem)

def plainAmount (out : CTxOut) : Int :=
  if out.nValue.IsExplicit ∧ ¬ out.IsFee then out.nValue.getAmount else 0

theorem getValueOut_eq_sum {valueOut : Int} (h : tx.getValueOut = .ok valueOut) :
    valueOut = (tx.vout.map plainAmount).sum := by
  have hsum := foldlM_sum (c := id) (w := plainAmount) ?_ h
  · simpa using hsum
  · intro acc out acc' _ hstep
    simp only [id, plainAmount]
    split_ifs at hstep with h1 h2 h3
    · simp [h2, pure_eq_ok.mp hstep]
    · simp [h1, h2, ← pure_eq_ok.mp hstep]
    · simp [h1, pure_eq_ok.mp hstep]

theorem plainFee_eq_ok (h : plainFee prevouts tx = .ok fee) :
    (∀ prevout ∈ prevouts, MoneyRange prevout.nValue.getAmount) ∧ MoneyRange fee ∧
      fee = (prevouts.map fun prevout => prevout.nValue.getAmount).sum -
        (tx.vout.map plainAmount).sum := by
  obtain ⟨nValueIn, hin, h⟩ := bind_eq_ok.mp h
  obtain ⟨valueOut, hout, h⟩ := bind_eq_ok.mp h
  simp only [bind_unit_eq_ok, require_eq_ok, pure_eq_ok] at h
  obtain ⟨-, hrange, rfl⟩ := h
  have hsum : nValueIn = 0 + (prevouts.map fun prevout => prevout.nValue.getAmount).sum := by
    refine foldlM_sum (c := id) ?_ hin
    intro acc prevout acc' _ hstep
    simp only [addInputValue, bind_unit_eq_ok, require_eq_ok, pure_eq_ok] at hstep
    exact hstep.2.symm
  refine ⟨fun prevout hmem => ?_, hrange, ?_⟩
  · obtain ⟨acc, acc', hstep⟩ := foldlM_mem hin hmem
    simp only [addInputValue, bind_unit_eq_ok, require_eq_ok] at hstep
    exact hstep.1.1
  · rw [hsum, getValueOut_eq_sum (mapError_eq_ok.mp hout), zero_add]

end Inversion

end Rcpu.TxVerify
