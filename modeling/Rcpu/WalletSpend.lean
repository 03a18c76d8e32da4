import Mathlib.Data.List.Sort
import Rcpu.Blind
import Rcpu.Policy
import Rcpu.TxVerify

/-!
# Building transactions in the wallet

`CreateTransactionInternal` of `wallet/spend.cpp` from the outcome of coin selection on: change,
fee, subtraction of the fee from recipients, the confidential section with its rounds of blinding
and rebalancing, and the final checks.

Until it is blinded every output is explicit, so it is an amount with a script, and the outputs
are the payees in the order of the recipients with the change at its position.  What the wallet
takes from elsewhere (the selection, the change destination, size estimates for signed
transactions, random draws) is an argument.
-/

namespace Rcpu.WalletSpend

open Checks ByteStream Serialize Transaction TxVerify ConfidentialValidation Script Blind Policy

/-! ### What the wallet is given -/

inductive CTxDestination where
  | confidentialKeyHash (spend : Bytes) (blinding : Bytes)
  | other (scriptPubKey : CScript)
deriving DecidableEq, Repr

def getScriptForDestination : CTxDestination → CScript
  | .confidentialKeyHash spend _ => OP_0 :: UInt8.ofNat spend.length :: spend
  | .other scriptPubKey => scriptPubKey

def CTxDestination.isConfidential : CTxDestination → Bool
  | .confidentialKeyHash _ _ => true
  | .other _ => false

structure CRecipient where
  dest : CTxDestination
  nAmount : Int
  fSubtractFeeFromAmount : Bool
deriving DecidableEq, Repr

structure COutput where
  outpoint : COutPoint
  txout : CTxOut
  value : Int
deriving DecidableEq, Repr

structure SelectionResult where
  coins : List COutput
  changeAmount : Int
  totalBumpFees : Nat

def SelectionResult.getSelectedValue (result : SelectionResult) : Int :=
  (result.coins.map COutput.value).sum

/-- The script for change, its blinding key if one was resolved, the error to report when there is
no script, and the confidential address reserved for an injected change. -/
structure ChangeDestination where
  scriptChange : CScript
  changeKey : Option Bytes
  error : String
  fresh : Option (CScript × Bytes)

structure TxSize where
  vsize : Nat
  weight : Nat

structure CCoinControl where
  version : Option Int32
  sequence : COutPoint → UInt32
  scripts : COutPoint → CScript × List Bytes
  nLockTime : UInt32

structure Wallet (𝔾 : Type) where
  blindEnv : BlindEnv 𝔾
  elementsMode : Bool
  ctlegacy : Bool
  effectiveFeerate : CFeeRate
  relayDustFee : CFeeRate
  unblindConfidentialOutput : CTxOut → Option (Int × Nat)
  lastBlockHeight : Nat
  nBanPathAHeight : Nat
  /-- The script and the witness of each signed input; signing touches nothing else. -/
  signTransaction : CTransaction → Option (Nat → CScript × List Bytes)
  transactionWeight : CTransaction → Nat
  maxTxFee : Int
  rejectLongChains : Bool
  checkChainLimits : CTransaction → Except String Unit

/-- Random draws, and the answers of `CalculateMaximumSignedTxSize`: on the plaintext transaction
first, then on that of each round. -/
structure Draws (getPubKey : Bytes → Bytes) where
  changePos : (n : Nat) → Fin (n + 1)
  injectedPos : (n : Nat) → Fin (n + 1)
  blinding : Nat → BlindRandom getPubKey
  maximumSignedTxSize : Nat → Option TxSize

/-! ### Outputs before blinding -/

structure PlainOutput where
  nAmount : Int
  scriptPubKey : CScript
deriving DecidableEq, Repr

namespace PlainOutput

def toTxOut (o : PlainOutput) : CTxOut := .ofAmount o.nAmount o.scriptPubKey

def IsDust (o : PlainOutput) (dustRelayFee : CFeeRate) : Prop :=
  o.nAmount < getDustThreshold o.toTxOut dustRelayFee

instance (o : PlainOutput) (rate : CFeeRate) : Decidable (o.IsDust rate) :=
  inferInstanceAs (Decidable (_ < _))

def add (o : PlainOutput) (delta : Int) : PlainOutput := { o with nAmount := o.nAmount + delta }

end PlainOutput

structure Outputs where
  payees : List PlainOutput
  change : Option (Nat × PlainOutput)

namespace Outputs

def vout (outs : Outputs) : List PlainOutput :=
  match outs.change with
  | none => outs.payees
  | some (pos, change) => outs.payees.insertIdx pos change

def total (outs : Outputs) : Int := (outs.vout.map PlainOutput.nAmount).sum

/-- `CalculateOutputValue`: fee-shaped outputs are left out. -/
def calculateOutputValue (outs : Outputs) : Int :=
  (outs.vout.map fun o => if o.scriptPubKey = [] then 0 else o.nAmount).sum

end Outputs

def payeeOutputs (relayDustFee : CFeeRate) (vecSend : List CRecipient) :
    Except String (List PlainOutput) :=
  vecSend.mapM fun recipient => do
    let txout : PlainOutput := ⟨recipient.nAmount, getScriptForDestination recipient.dest⟩
    require (¬ txout.IsDust relayDustFee) "Transaction amount too small"
    return txout

def changePosition (draw : (n : Nat) → Fin (n + 1)) (changePos : Option Nat) (n : Nat) :
    Except String Nat :=
  match changePos with
  | none => .ok (draw n)
  | some pos =>
    if pos > n then .error "Transaction change output index out of range" else .ok pos

def addChange (draw : (n : Nat) → Fin (n + 1)) (changePos : Option Nat) (changeAmount : Int)
    (scriptChange : CScript) (payees : List PlainOutput) : Except String Outputs :=
  if changeAmount > 0 then do
    let pos ← changePosition draw changePos payees.length
    return ⟨payees, some (pos, ⟨changeAmount, scriptChange⟩)⟩
  else .ok ⟨payees, none⟩

/-! ### Fees -/

def estimatedRangeProofSize (value : Int) : Nat :=
  let mantissa := Nat.log2 value.toNat + 1
  let rings := (mantissa + 1) / 2
  let npub := 4 * (rings - 1) + if mantissa % 2 = 1 then 2 else 4
  let header := 2
  header + (rings + 6) / 8 + 32 * (rings - 1) + 32 + 32 * npub

def estimatedBlindedOutputDelta (value : Int) : Nat :=
  let proof := estimatedRangeProofSize value
  33 + 33 - 8 + (writeCompactSize proof).length + proof

/-- Confidential change needs the mode, and `-ctlegacy` off. -/
def Wallet.confChange {𝔾 : Type} (w : Wallet 𝔾) : Bool := w.elementsMode && !w.ctlegacy

/-- What blinding and the fee output will add to the size. -/
def blindingOverhead {𝔾 : Type} (w : Wallet 𝔾) (vecSend : List CRecipient)
    (changeKey : Option Bytes) (outs : Outputs) : Nat :=
  if w.elementsMode then
    ((vecSend.filter fun recipient => recipient.dest.isConfidential).map fun recipient =>
      estimatedBlindedOutputDelta recipient.nAmount).sum +
    (match outs.change, changeKey with
      | some (_, change), some _ => estimatedBlindedOutputDelta change.nAmount
      | _, _ => 0) + 10
  else 0

def adjustChange (selected feeNeeded : Int) (outs : Outputs) : Except String Outputs :=
  let currentFee := selected - outs.calculateOutputValue
  match outs.change with
  | none => .ok outs
  | some (pos, change) =>
    if feeNeeded = currentFee then .ok outs
    else
      let change := change.add (currentFee - feeNeeded)
      if change.nAmount < 0 then .error "Change output too small to cover CT fee overhead"
      else .ok { outs with change := some (pos, change) }

def tooSmallToPay : String := "The transaction amount is too small to pay the fee"

def tooSmallToSend : String :=
  "The transaction amount is too small to send after the fee has been deducted"

/-- The check of a recipient's output when the fee is first subtracted. -/
def checkReduced (relayDustFee : CFeeRate) (o : PlainOutput) : Except String Unit :=
  if o.IsDust relayDustFee then .error (if o.nAmount < 0 then tooSmallToPay else tooSmallToSend)
  else .ok ()

/-- The check of an output that a fee round has changed. -/
def checkRebalanced (relayDustFee : CFeeRate) (o : PlainOutput) : Except String Unit := do
  require (0 ≤ o.nAmount) tooSmallToPay
  require (¬ o.IsDust relayDustFee) tooSmallToSend

/-- Add a share to the output of each recipient who pays the fee; the first takes the rest. -/
def shareFee (check : PlainOutput → Except String Unit) (share : Int) :
    Int → List CRecipient → List PlainOutput → Except String (List PlainOutput)
  | rest, recipient :: vecSend, o :: payees =>
    if recipient.fSubtractFeeFromAmount then do
      check (o.add (share + rest))
      let payees ← shareFee check share 0 vecSend payees
      return o.add (share + rest) :: payees
    else do
      let payees ← shareFee check share rest vecSend payees
      return o :: payees
  | _, _, payees => .ok payees

def outputsToSubtractFeeFrom (vecSend : List CRecipient) : Nat :=
  vecSend.countP CRecipient.fSubtractFeeFromAmount

/-- Reduce the outputs of the recipients who pay the fee by what is missing of it. -/
def subtractFee (relayDustFee : CFeeRate) (vecSend : List CRecipient) (selected feeNeeded : Int)
    (outs : Outputs) : Except String Outputs :=
  let count : Int := outputsToSubtractFeeFrom vecSend
  if count = 0 then .ok outs
  else do
    let toReduce := feeNeeded - (selected - outs.calculateOutputValue)
    let payees ← shareFee (checkReduced relayDustFee) (-(toReduce.tdiv count))
      (-(toReduce.tmod count)) vecSend outs.payees
    return { outs with payees := payees }

/-! ### The confidential section -/

def inputBlind {𝔾 : Type} (w : Wallet 𝔾) (coin : COutput) : Except String Nat :=
  if coin.txout.nValue.IsExplicit then .ok 0
  else match w.unblindConfidentialOutput coin.txout with
    | none => .error "Cannot unblind a confidential input for spending"
    | some (_, blind) => .ok blind

/-- The outputs with the change key, and the payee that funded an injected change. -/
structure Funding where
  outs : Outputs
  changeKey : Option Bytes
  fundingPos : Option Nat

/-- A payee can fund an injected change if it stays positive and above dust. -/
def canFund (relayDustFee : CFeeRate) (reduction : Int) (payees : List PlainOutput) (oi : Nat) :
    Bool :=
  match payees[oi]? with
  | none => false
  | some payee =>
    decide (0 < payee.nAmount - reduction) &&
      !decide ((payee.add (-reduction)).IsDust relayDustFee)

def fundingOrder (payees : List PlainOutput) : List Nat :=
  (List.range payees.length).insertionSort fun a b =>
    (payees[a]?.map PlainOutput.nAmount).getD 0 ≥ (payees[b]?.map PlainOutput.nAmount).getD 0

/-- A dust-sized confidential change output, funded from the largest payee that can. -/
def injectInto {𝔾 : Type} (w : Wallet 𝔾) (draw : (n : Nat) → Fin (n + 1))
    (scriptChange : CScript) (changeKey : Bytes) (payees : List PlainOutput) :
    Except String Funding :=
  let proto : PlainOutput := ⟨0, scriptChange⟩
  let outDust := getDustThreshold proto.toTxOut w.relayDustFee
  let outSize := (proto.toTxOut.serialize false).length + estimatedBlindedOutputDelta outDust
  let reduction := outDust + w.effectiveFeerate.getFee outSize
  match (fundingOrder payees).find? (canFund w.relayDustFee reduction payees) with
  | none => .error ("Spending confidential inputs requires a blinded balancing output, but no " ++
      "recipient output can fund the dust change")
  | some oi => .ok ⟨⟨payees.modify oi fun payee => payee.add (-reduction),
      some (draw payees.length, ⟨outDust, scriptChange⟩)⟩, some changeKey, some oi⟩

/-- Confidential inputs paid out to plaintext recipients without change need a blinded output. -/
def injectChange {𝔾 : Type} (w : Wallet 𝔾) (draw : (n : Nat) → Fin (n + 1))
    (vecSend : List CRecipient) (change : ChangeDestination) (inputBlinds : List Nat)
    (outs : Outputs) : Except String Funding :=
  let changeKey := if w.confChange then change.changeKey else none
  if w.confChange ∧ outs.change = none ∧ inputBlinds.any (· ≠ 0) ∧
      ¬ vecSend.any (fun recipient => recipient.dest.isConfidential) then
    -- the reserved change destination if its key resolved, or a fresh confidential one
    let dest := match changeKey with
      | some key => some (change.scriptChange, key)
      | none => change.fresh
    match dest with
    | none => .ok ⟨outs, none, none⟩
    | some (script, key) =>
      if script = [] then .ok ⟨outs, some key, none⟩
      else injectInto w draw script key outs.payees
  else .ok ⟨outs, changeKey, none⟩

def recipientKey (recipient : CRecipient) : Except String (Option Bytes) :=
  match recipient.dest with
  | .confidentialKeyHash _ blinding =>
    if blinding = [] then
      .error "Confidential recipient has no valid blinding public key; refusing to send"
    else .ok (some blinding)
  | .other _ => .ok none

def outputKeys (vecSend : List CRecipient) (changeKey : Option Bytes) (outs : Outputs) :
    Except String (List (Option Bytes)) := do
  let keys ← vecSend.mapM recipientKey
  return match outs.change with
    | none => keys
    | some (pos, _) => keys.insertIdx pos changeKey

/-- With `-ctlegacy` there are no keys at all, and every output is blinded. -/
def recipientKeys {𝔾 : Type} (w : Wallet 𝔾) (vecSend : List CRecipient) (funding : Funding) :
    Except String (List (Option Bytes)) :=
  if w.ctlegacy then .ok [] else outputKeys vecSend funding.changeKey funding.outs

structure RoundContext where
  vecSend : List CRecipient
  selected : Int
  totalBumpFees : Nat
  inputBlinds : List Nat
  fundingPos : Option Nat
  recipientKeys : List (Option Bytes)
  explicitOutputs : Option (List Bool)

/-- Settle a difference in the fee on the payee that funded the change, on the change, or on the
recipients who pay the fee. -/
def rebalance (relayDustFee : CFeeRate) (ctx : RoundContext) (outs : Outputs) (feeDiff : Int) :
    Except String (Option Outputs) :=
  match ctx.fundingPos, outs.change with
  | some pos, _ => do
    (outs.payees[pos]?.map fun payee => payee.add feeDiff).toList.forM
      (checkRebalanced relayDustFee)
    return some { outs with payees := outs.payees.modify pos fun payee => payee.add feeDiff }
  | none, some (pos, change) =>
    if change.nAmount + feeDiff < 0 then .error "Change output too small to cover CT fee overhead"
    else .ok (some { outs with change := some (pos, change.add feeDiff) })
  | none, none =>
    let count : Int := outputsToSubtractFeeFrom ctx.vecSend
    if count > 0 then do
      let payees ← shareFee (checkRebalanced relayDustFee) (feeDiff.tdiv count)
        (feeDiff.tmod count) ctx.vecSend outs.payees
      return some { outs with payees := payees }
    else if feeDiff < 0 then
      .error "Confidential outputs need more fee than the selected inputs can provide"
    else .ok none

structure Built where
  tx : CTransaction
  fee : Int
  size : TxSize

def maxCTFeeRounds : Nat := 4

def missingSolvingData : String := "Missing solving data for estimating transaction size"

variable {𝔾 : Type} [AddCommGroup 𝔾] [Module Scalar 𝔾] [DecidableEq 𝔾]

/-- The fee for the size measured in a round, `fee_needed_blinded`. -/
def neededFee {𝔾 : Type} (w : Wallet 𝔾) (ctx : RoundContext) (measured : TxSize) : Int :=
  w.effectiveFeerate.getFee measured.vsize + ctx.totalBumpFees

/-- Blind, measure, and rebalance until the fee left is the fee needed, with at most `left` more
rounds after this one. -/
def feeRounds (w : Wallet 𝔾) (draws : Draws w.blindEnv.getPubKey) (ctx : RoundContext)
    (txNew : CTransaction) : Nat → Nat → Outputs → Except String Built
  | left, round, outs =>
    match blindTransaction w.blindEnv (draws.blinding round) ctx.inputBlinds
        { txNew with vout := outs.vout.map PlainOutput.toTxOut } ctx.recipientKeys
        ctx.explicitOutputs true with
    | none => .error "Confidential transaction blinding failed"
    | some blinded =>
      let paidFee := ctx.selected - outs.total
      match draws.maximumSignedTxSize (round + 1) with
      | none => .error missingSolvingData
      | some measured =>
        let feeNeeded := neededFee w ctx measured
        if paidFee = feeNeeded then .ok ⟨blinded.tx, paidFee, measured⟩
        else match left with
          | 0 =>
            if paidFee < feeNeeded then
              .error ("Confidential outputs need a fee of " ++ formatMoney feeNeeded ++
                " but the selected inputs only provide " ++ formatMoney paidFee)
            else .ok ⟨blinded.tx, paidFee, measured⟩
          | left + 1 =>
            match rebalance w.relayDustFee ctx outs (paidFee - feeNeeded) with
            | .error e => .error e
            | .ok none => .ok ⟨blinded.tx, paidFee, measured⟩
            | .ok (some outs) => feeRounds w draws ctx txNew left (round + 1) outs

/-- The version 3 transaction: rounds of blinding, then the explicit fee output. -/
def buildConfidential (w : Wallet 𝔾) (draws : Draws w.blindEnv.getPubKey) (ctx : RoundContext)
    (txNew : CTransaction) (outs : Outputs) : Except String Built := do
  require (¬ (w.ctlegacy ∧ w.nBanPathAHeight ≤ w.lastBlockHeight))
    ("Path-A (plaintext-nonce) outputs are banned at this height; use a confidential rcpux1... " ++
      "address instead of -ctlegacy")
  let built ← feeRounds w draws ctx { txNew with nVersion := CT_VERSION } (maxCTFeeRounds - 1) 0 outs
  return if built.fee > 0 then { built with tx := appendFee built.tx built.fee } else built

structure Plan where
  inputBlinds : List Nat
  funding : Funding
  keys : List (Option Bytes)

def Plan.explicitOutputs (plan : Plan) : List Bool := plan.keys.map Option.isNone

/-- `use_plain_v2`: nothing about the transaction is confidential. -/
def Plan.usePlainV2 (ctlegacy : Bool) (plan : Plan) : Bool :=
  let allOutputsExplicit := !plan.explicitOutputs.isEmpty && plan.explicitOutputs.all id
  let allInputsExplicit := plan.inputBlinds.all (· = 0)
  !ctlegacy && allOutputsExplicit && allInputsExplicit

def Plan.roundContext (vecSend : List CRecipient) (result : SelectionResult) (plan : Plan) :
    RoundContext where
  vecSend := vecSend
  selected := result.getSelectedValue
  totalBumpFees := result.totalBumpFees
  inputBlinds := plan.inputBlinds
  fundingPos := plan.funding.fundingPos
  recipientKeys := plan.keys
  explicitOutputs := if plan.explicitOutputs.isEmpty then none else some plan.explicitOutputs

def planConfidential {𝔾 : Type} (w : Wallet 𝔾) (draw : (n : Nat) → Fin (n + 1))
    (vecSend : List CRecipient) (result : SelectionResult) (change : ChangeDestination)
    (outs : Outputs) : Except String Plan := do
  let inputBlinds ← result.coins.mapM (inputBlind w)
  let funding ← injectChange w draw vecSend change inputBlinds outs
  let keys ← recipientKeys w vecSend funding
  return ⟨inputBlinds, funding, keys⟩

/-- The confidential section: a transaction without any blinded input or output stays plain. -/
def confidentialSection (w : Wallet 𝔾) (draws : Draws w.blindEnv.getPubKey)
    (vecSend : List CRecipient) (result : SelectionResult) (change : ChangeDestination)
    (txNew : CTransaction) (plainSize : TxSize) (outs : Outputs) : Except String Built := do
  let plan ← planConfidential w draws.injectedPos vecSend result change outs
  if plan.usePlainV2 w.ctlegacy then
    return ⟨{ txNew with
        nVersion := CTransaction.CURRENT_VERSION
        vout := plan.funding.outs.vout.map PlainOutput.toTxOut },
      result.getSelectedValue - plan.funding.outs.calculateOutputValue, plainSize⟩
  else buildConfidential w draws (plan.roundContext vecSend result) txNew plan.funding.outs

/-- The outputs once change and recipients have paid the estimated fee. -/
def settleEstimate {𝔾 : Type} (w : Wallet 𝔾) (vecSend : List CRecipient) (result : SelectionResult)
    (change : ChangeDestination) (plainSize : TxSize) (outs : Outputs) : Except String Outputs := do
  let changeKey := if w.confChange then change.changeKey else none
  let nBytes := plainSize.vsize + blindingOverhead w vecSend changeKey outs
  let feeNeeded := w.effectiveFeerate.getFee nBytes + result.totalBumpFees
  let selected := result.getSelectedValue
  require (0 ≤ selected - outs.calculateOutputValue) "Internal bug detected: Fee paid < 0"
  let outs ← adjustChange selected feeNeeded outs
  let outs ← subtractFee w.relayDustFee vecSend selected feeNeeded outs
  require (¬ (change.scriptChange = [] ∧ outs.change ≠ none)) change.error
  return outs

def selectedInputs (control : CCoinControl) (coins : List COutput) : List CTxIn :=
  coins.map fun coin => ⟨coin.outpoint, (control.scripts coin.outpoint).1,
    control.sequence coin.outpoint, (control.scripts coin.outpoint).2, .null⟩

def applySignatures (tx : CTransaction) (signatures : Nat → CScript × List Bytes) : CTransaction :=
  { tx with vin := tx.vin.zipIdx.map fun (txin, i) =>
      { txin with scriptSig := (signatures i).1, scriptWitness := (signatures i).2 } }

def signedTransaction (w : Wallet 𝔾) (sign : Bool) (tx : CTransaction) :
    Except String CTransaction :=
  if sign then
    match w.signTransaction tx with
    | none => .error "Signing transaction failed"
    | some signatures => .ok (applySignatures tx signatures)
  else .ok tx

def checkLongChains (w : Wallet 𝔾) (tx : CTransaction) : Except String Unit :=
  if w.rejectLongChains then w.checkChainLimits tx else .ok ()

def finishTransaction (w : Wallet 𝔾) (sign : Bool) (built : Built) : Except String Built := do
  let tx ← signedTransaction w sign built.tx
  require ((if sign then w.transactionWeight tx else built.size.weight) ≤ MAX_STANDARD_TX_WEIGHT)
    "Transaction too large"
  require (built.fee ≤ w.maxTxFee)
    "Fee exceeds maximum configured by user (e.g. -maxtxfee, maxfeerate)"
  checkLongChains w tx
  return { built with tx := tx }

def buildTransaction (w : Wallet 𝔾) (draws : Draws w.blindEnv.getPubKey)
    (vecSend : List CRecipient) (result : SelectionResult) (change : ChangeDestination)
    (txNew : CTransaction) (plainSize : TxSize) (outs : Outputs) : Except String Built :=
  if w.elementsMode ∧ outs.vout ≠ [] then
    confidentialSection w draws vecSend result change txNew plainSize outs
  else .ok ⟨txNew, result.getSelectedValue - outs.calculateOutputValue, plainSize⟩

def estimatedSize (size : Option TxSize) : Except String TxSize :=
  match size with
  | none => .error missingSolvingData
  | some size => .ok size

/-- The plaintext outputs with the estimated fee paid, and their size. -/
def plainOutputs {𝔾 : Type} (w : Wallet 𝔾) (draw : (n : Nat) → Fin (n + 1))
    (size : Option TxSize) (vecSend : List CRecipient) (changePos : Option Nat)
    (result : SelectionResult) (change : ChangeDestination) : Except String (Outputs × TxSize) := do
  let payees ← payeeOutputs w.relayDustFee vecSend
  let outs ← addChange draw changePos result.changeAmount change.scriptChange payees
  let plainSize ← estimatedSize size
  let outs ← settleEstimate w vecSend result change plainSize outs
  return (outs, plainSize)

/-- `CreateTransactionInternal` on a selection result. -/
def createTransactionInternal (w : Wallet 𝔾) (draws : Draws w.blindEnv.getPubKey)
    (vecSend : List CRecipient) (changePos : Option Nat) (control : CCoinControl)
    (result : SelectionResult) (change : ChangeDestination) (sign : Bool) :
    Except String Built := do
  let (outs, plainSize) ← plainOutputs w draws.changePos (draws.maximumSignedTxSize 0) vecSend
    changePos result change
  let txNew : CTransaction := {
    nVersion := control.version.getD CTransaction.CURRENT_VERSION
    vin := selectedInputs control result.coins
    vout := outs.vout.map PlainOutput.toTxOut
    nLockTime := control.nLockTime }
  let built ← buildTransaction w draws vecSend result change txNew plainSize outs
  finishTransaction w sign built

end Rcpu.WalletSpend
