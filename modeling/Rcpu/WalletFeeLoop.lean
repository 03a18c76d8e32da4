import Rcpu.WalletBalance

/-!
# The fee loop of confidential transactions

The version 3 section of `CreateTransactionInternal` with its variables: `txNew`, which every round
blinds anew, and `vout_amounts` beside it.  The size of a round is measured on the blinded transaction
of the round, so `CalculateMaximumSignedTxSize` is a function of the transaction here.
-/

namespace Rcpu.WalletFeeLoop

open Checks ByteStream Serialize Confidential Transaction TxCheck TxVerify ConfidentialValidation
  Script Blind Policy WalletSpend WalletBalance

/-! ### The size of a transaction once it is signed -/

structure Descriptor where
  isSegwit : Bool
  /-- `MaxSatisfactionWeight`, with or without maximal signatures. -/
  maxSatisfactionWeight : Bool → Option Nat
  maxSatisfactionElems : Option Nat

structure SolvingData where
  /-- The output of a wallet transaction, or the one that the coin control was given. -/
  findTxOut : COutPoint → Option CTxOut
  getInputWeight : COutPoint → Option Nat
  getDescriptor : CScript → Option Descriptor
  fAllowWatchOnly : Bool
  isExternalSelected : COutPoint → Bool
  canGrindR : Bool

def getSizeOfCompactSize (n : Nat) : Nat := (writeCompactSize n).length

def useMaxSig (data : SolvingData) (prevout : COutPoint) : Bool :=
  data.fAllowWatchOnly || data.isExternalSelected prevout

def maxInputWeight (data : SolvingData) (desc : Descriptor) (prevout : COutPoint)
    (txIsSegwit : Bool) : Option Nat := do
  let satWeight ← desc.maxSatisfactionWeight (!data.canGrindR || useMaxSig data prevout)
  let elemsCount ← desc.maxSatisfactionElems
  let scriptsigLen :=
    if desc.isSegwit then 1 else getSizeOfCompactSize (satWeight / WITNESS_SCALE_FACTOR)
  let witstackLen :=
    if desc.isSegwit then getSizeOfCompactSize elemsCount else if txIsSegwit then 1 else 0
  return (32 + 4 + 4 + scriptsigLen) * WITNESS_SCALE_FACTOR + witstackLen + satWeight

def getSignedTxinWeight (data : SolvingData) (prevout : COutPoint) (txo : CTxOut)
    (txIsSegwit : Bool) : Option Nat :=
  match data.getInputWeight prevout with
  | some weight => some weight
  | none => (data.getDescriptor txo.scriptPubKey).bind fun desc =>
      maxInputWeight data desc prevout txIsSegwit

def nvBytes (nValue : CConfidentialValue) : Nat :=
  if nValue.IsNull then 1 else if nValue.IsExplicit then 1 + 8 else 33

/-- `GetVirtualTransactionSize` without signature operations. -/
def getVirtualTransactionSize (nWeight : Nat) : Nat :=
  (nWeight + WITNESS_SCALE_FACTOR - 1) / WITNESS_SCALE_FACTOR

/-- `CalculateMaximumSignedTxSize`; `none` stands for the size -1. -/
def calculateMaximumSignedTxSize (data : SolvingData) (tx : CTransaction) : Option TxSize := do
  let txouts ← tx.vin.mapM fun txin => data.findTxOut txin.prevout
  let isSegwit := txouts.any fun txo => (data.getDescriptor txo.scriptPubKey).any Descriptor.isSegwit
  let txinWeights ← (tx.vin.zip txouts).mapM fun e =>
    getSignedTxinWeight data e.1.prevout e.2 isSegwit
  let weight :=
    (4 + 4 + getSizeOfCompactSize tx.vin.length + getSizeOfCompactSize tx.vout.length) *
        WITNESS_SCALE_FACTOR +
      (if isSegwit then 2 else 0) +
      (tx.vout.map fun txo => (txo.serialize tx.fCT).length * WITNESS_SCALE_FACTOR).sum +
      (if tx.fCT then (tx.vin.map fun txin => nvBytes txin.nValue * WITNESS_SCALE_FACTOR).sum
        else 0) +
      txinWeights.sum
  return ⟨getVirtualTransactionSize weight, weight⟩

/-- The size does not depend on the scripts and witnesses that the inputs have so far. -/
theorem calculateMaximumSignedTxSize_congr (data : SolvingData) {tx tx' : CTransaction}
    (hprev : tx'.vin.map CTxIn.prevout = tx.vin.map CTxIn.prevout)
    (hvalue : tx'.vin.map CTxIn.nValue = tx.vin.map CTxIn.nValue) (hvout : tx'.vout = tx.vout)
    (hversion : tx'.nVersion = tx.nVersion) :
    calculateMaximumSignedTxSize data tx' = calculateMaximumSignedTxSize data tx := by
  have hmode : tx'.fCT = tx.fCT := CTransaction.fCT_congr hversion
  have hlength : tx'.vin.length = tx.vin.length := by simpa using congrArg List.length hprev
  have hfind : tx'.vin.mapM (fun txin => data.findTxOut txin.prevout) =
      tx.vin.mapM fun txin => data.findTxOut txin.prevout := by
    have hmap := congrArg (List.mapM data.findTxOut) hprev
    rwa [List.mapM_map, List.mapM_map] at hmap
  have hweights : ∀ (txouts : List CTxOut) (isSegwit : Bool),
      (tx'.vin.zip txouts).mapM (fun e => getSignedTxinWeight data e.1.prevout e.2 isSegwit) =
        (tx.vin.zip txouts).mapM fun e => getSignedTxinWeight data e.1.prevout e.2 isSegwit := by
    intro txouts isSegwit
    have hmap := congrArg (fun l : List COutPoint => (l.zip txouts).mapM fun e =>
      getSignedTxinWeight data e.1 e.2 isSegwit) hprev
    simp only [List.zip_map_left, List.mapM_map] at hmap
    exact hmap
  have hbytes : tx'.vin.map (fun txin => nvBytes txin.nValue * WITNESS_SCALE_FACTOR) =
      tx.vin.map fun txin => nvBytes txin.nValue * WITNESS_SCALE_FACTOR := by
    have hmap := congrArg (List.map fun v => nvBytes v * WITNESS_SCALE_FACTOR) hvalue
    rwa [List.map_map, List.map_map] at hmap
  simp only [calculateMaximumSignedTxSize, hfind, hweights, hbytes, hmode, hlength, hvout]

theorem calculateMaximumSignedTxSize_applySignatures (data : SolvingData) (tx : CTransaction)
    (signatures : Nat → CScript × List Bytes) :
    calculateMaximumSignedTxSize data (applySignatures tx signatures) =
      calculateMaximumSignedTxSize data tx := by
  refine calculateMaximumSignedTxSize_congr data ?_ ?_ rfl rfl
  · rw [applySignatures, List.map_map]
    exact map_zipIdx_fst CTxIn.prevout tx.vin
  · rw [applySignatures, List.map_map]
    exact map_zipIdx_fst CTxIn.nValue tx.vin

/-! ### The loop -/

structure LoopContext where
  vecSend : List CRecipient
  selected : Int
  totalBumpFees : Nat
  inputBlinds : List Nat
  changePos : Option Nat
  injectedChangeFundingPos : Option Nat
  recipientKeys : List (Option Bytes)
  explicitOutputs : Option (List Bool)

structure LoopState where
  txNew : CTransaction
  voutAmounts : List Int

/-- What the loop leaves, with the number of times that it has called `BlindTransaction`. -/
structure LoopResult where
  txNew : CTransaction
  voutAmounts : List Int
  currentFee : Int
  txSizes : TxSize
  blindings : Nat

def undoBlinding (st : LoopState) : CTransaction :=
  { st.txNew with
    vout := List.zipWith (fun out amount =>
      { out with nValue := .ofAmount amount, nNonce := .null, vchRangeproof := [] })
      st.txNew.vout st.voutAmounts }

def LoopState.outputs (st : LoopState) : List PlainOutput :=
  List.zipWith PlainOutput.mk st.voutAmounts (st.txNew.vout.map CTxOut.scriptPubKey)

def adjustAt (check : PlainOutput → Except String Unit) (outs : List PlainOutput) (pos : Nat)
    (feeDiff : Int) : Except String (List PlainOutput) := do
  (outs[pos]?.map fun o => o.add feeDiff).toList.forM check
  return outs.modify pos fun o => o.add feeDiff

def settleDiff (relayDustFee : CFeeRate) (ctx : LoopContext) (outs : List PlainOutput)
    (feeDiff : Int) : Except String (Option (List PlainOutput)) :=
  match ctx.injectedChangeFundingPos, ctx.changePos with
  -- injected change is dust-sized: the payee that funded it takes the difference
  | some pos, _ => do return some (← adjustAt (checkRebalanced relayDustFee) outs pos feeDiff)
  | none, some pos => do
    return some (← adjustAt (fun o => require (0 ≤ o.nAmount)
      "Change output too small to cover CT fee overhead") outs pos feeDiff)
  | none, none =>
    let count : Int := outputsToSubtractFeeFrom ctx.vecSend
    if count > 0 then do
      return some (← shareFee (checkRebalanced relayDustFee) (feeDiff.tdiv count)
        (feeDiff.tmod count) ctx.vecSend outs)
    else if feeDiff < 0 then
      .error "Confidential outputs need more fee than the selected inputs can provide"
    else .ok none

variable {𝔾 : Type} [AddCommGroup 𝔾] [Module Scalar 𝔾] [DecidableEq 𝔾]

def feeNeededBlinded {𝔾 : Type} (w : Wallet 𝔾) (ctx : LoopContext) (measured : TxSize) : Int :=
  w.effectiveFeerate.getFee measured.vsize + ctx.totalBumpFees

def withFeeOutput (tx : CTransaction) (fee : Int) : CTransaction :=
  if fee > 0 then appendFee tx fee else tx

/-- The rounds from `round` on, of which `left` may follow this one. -/
def feeLoop (w : Wallet 𝔾) (data : SolvingData) (blinding : Nat → BlindRandom w.blindEnv.getPubKey)
    (ctx : LoopContext) : Nat → Nat → LoopState → Except String LoopResult
  | left, round, st =>
    let txNew := if round > 0 then undoBlinding st else st.txNew
    match blindTransaction w.blindEnv (blinding round) ctx.inputBlinds txNew ctx.recipientKeys
        ctx.explicitOutputs true with
    | none => .error "Confidential transaction blinding failed"
    | some blinded =>
      let paidFee := ctx.selected - st.voutAmounts.sum
      -- the fee output comes after blinding, and is measured with the rest
      match calculateMaximumSignedTxSize data (withFeeOutput blinded.tx paidFee) with
      | none => .error missingSolvingData
      | some measured =>
        let feeNeeded := feeNeededBlinded w ctx measured
        let result : LoopResult := ⟨blinded.tx, st.voutAmounts, paidFee, measured, round + 1⟩
        if paidFee = feeNeeded then .ok result
        else match left with
          | 0 =>
            if paidFee < feeNeeded then
              .error ("Confidential outputs need a fee of " ++ formatMoney feeNeeded ++
                " but the selected inputs only provide " ++ formatMoney paidFee)
            else .ok result
          | left + 1 =>
            let st : LoopState := ⟨blinded.tx, st.voutAmounts⟩
            match settleDiff w.relayDustFee ctx st.outputs (paidFee - feeNeeded) with
            | .error e => .error e
            | .ok none => .ok result
            | .ok (some outs) =>
              feeLoop w data blinding ctx left (round + 1)
                { st with voutAmounts := outs.map PlainOutput.nAmount }

/-- What the version 3 section leaves: the transaction with its fee output, and the records of the
amounts that went to confidential addresses. -/
structure Version3 where
  tx : CTransaction
  fee : Int
  size : TxSize
  voutAmounts : List Int
  voutAmount : List (Nat × Int)
  blindings : Nat

def explicitAmount (out : CTxOut) : Except String Int :=
  if out.nValue.IsExplicit then .ok out.nValue.getAmount
  else .error "Confidential fee calculation requires explicit output amounts before blinding"

/-- The version 3 section; `voutAddr` lists the outputs with a confidential address. -/
def version3Section (w : Wallet 𝔾) (data : SolvingData)
    (blinding : Nat → BlindRandom w.blindEnv.getPubKey) (ctx : LoopContext) (voutAddr : List Nat)
    (txNew : CTransaction) : Except String Version3 := do
  require (¬ (w.ctlegacy ∧ w.nBanPathAHeight ≤ w.lastBlockHeight))
    ("Path-A (plaintext-nonce) outputs are banned at this height; use a confidential rcpux1... " ++
      "address instead of -ctlegacy")
  let voutAmounts ← txNew.vout.mapM explicitAmount
  let r ← feeLoop w data blinding ctx (maxCTFeeRounds - 1) 0
    ⟨{ txNew with nVersion := CT_VERSION }, voutAmounts⟩
  return {
    tx := withFeeOutput r.txNew r.currentFee
    fee := r.currentFee
    size := r.txSizes
    voutAmounts := r.voutAmounts
    voutAmount := voutAddr.map fun vi => (vi, r.voutAmounts.getD vi 0)
    blindings := r.blindings }

/-! ### One adjustment -/

/-- The outputs whose amounts the loop may change. -/
def Movable (ctx : LoopContext) (i : Nat) : Prop :=
  match ctx.injectedChangeFundingPos, ctx.changePos with
  | some pos, _ => i = pos
  | none, some pos => i = pos
  | none, none => ∃ recipient, ctx.vecSend[i]? = some recipient ∧
      recipient.fSubtractFeeFromAmount = true

section Adjust

variable {relayDustFee : CFeeRate} {ctx : LoopContext} {outs outs' : List PlainOutput}
  {feeDiff : Int}

theorem adjustAt_eq_ok {check : PlainOutput → Except String Unit} {P : PlainOutput → Prop}
    {pos : Nat} (hcheck : ∀ o, check o = .ok () → P o) (houts : ∀ o ∈ outs, P o)
    (h : adjustAt check outs pos feeDiff = .ok outs') :
    outs'.map PlainOutput.scriptPubKey = outs.map PlainOutput.scriptPubKey ∧ (∀ o ∈ outs', P o) ∧
      ∀ i : Nat, outs'[i]? ≠ outs[i]? → i = pos := by
  obtain ⟨hok, h⟩ := bind_unit_eq_ok.mp h
  obtain rfl := pure_eq_ok.mp h
  rw [forM_eq_ok] at hok
  refine ⟨map_scriptPubKey_modify _ _ _, forall_mem_modify houts fun o ho => ?_, fun i hne => ?_⟩
  · apply hcheck
    apply hok
    simp [Option.mem_def.mp ho]
  · by_contra hpos
    apply hne
    simp [Ne.symm hpos]

theorem shareFee_moves {check : PlainOutput → Except String Unit} {share rest : Int}
    {vecSend : List CRecipient} (h : shareFee check share rest vecSend outs = .ok outs') :
    ∀ i : Nat, outs'[i]? ≠ outs[i]? → ∃ recipient, vecSend[i]? = some recipient ∧
      recipient.fSubtractFeeFromAmount = true := by
  fun_induction shareFee check share rest vecSend outs generalizing outs' with
  | case1 rest recipient vecSend o payees hpays ih =>
    obtain ⟨-, h⟩ := bind_unit_eq_ok.mp h
    obtain ⟨tail, htail, h⟩ := bind_eq_ok.mp h
    obtain rfl := pure_eq_ok.mp h
    rintro (_ | i) hne
    · exact ⟨recipient, rfl, hpays⟩
    · exact ih htail i hne
  | case2 rest recipient vecSend o payees hpays ih =>
    obtain ⟨tail, htail, h⟩ := bind_eq_ok.mp h
    obtain rfl := pure_eq_ok.mp h
    rintro (_ | i) hne
    · exact absurd rfl hne
    · exact ih htail i hne
  | case3 rest payees vecSend hnil =>
    obtain rfl := Except.ok.inj h
    exact fun i hne => absurd rfl hne

theorem nonneg_of_checkRebalanced {o : PlainOutput}
    (h : checkRebalanced relayDustFee o = .ok ()) : 0 ≤ o.nAmount := by
  simp only [checkRebalanced, bind_unit_eq_ok, require_eq_ok] at h
  exact h.1

/-- **What an adjustment does**: scripts stay, amounts stay in range, and only the output that is to
take the difference moves. -/
theorem settleDiff_eq_some (hnonneg : ∀ o ∈ outs, 0 ≤ o.nAmount)
    (h : settleDiff relayDustFee ctx outs feeDiff = .ok (some outs')) :
    outs'.map PlainOutput.scriptPubKey = outs.map PlainOutput.scriptPubKey ∧
      (∀ o ∈ outs', 0 ≤ o.nAmount) ∧ ∀ i : Nat, outs'[i]? ≠ outs[i]? → Movable ctx i := by
  unfold settleDiff at h
  unfold Movable
  split at h
  next pos hpos =>
    obtain ⟨moved, hmoved, h⟩ := bind_eq_ok.mp h
    obtain rfl := Option.some.inj (pure_eq_ok.mp h)
    exact adjustAt_eq_ok (fun _ => nonneg_of_checkRebalanced) hnonneg hmoved
  next pos hpos hchange =>
    obtain ⟨moved, hmoved, h⟩ := bind_eq_ok.mp h
    obtain rfl := Option.some.inj (pure_eq_ok.mp h)
    exact adjustAt_eq_ok (fun _ => require_eq_ok.mp) hnonneg hmoved
  next hpos hchange =>
    dsimp only at h
    split_ifs at h
    · obtain ⟨moved, hmoved, h⟩ := bind_eq_ok.mp h
      obtain rfl := Option.some.inj (pure_eq_ok.mp h)
      obtain ⟨hscripts, hamounts⟩ :=
        shareFee_eq_ok (fun _ => nonneg_of_checkRebalanced) hnonneg hmoved
      exact ⟨hscripts, hamounts, shareFee_moves hmoved⟩
    · simp at h

/-- The loop is left with a surplus only. -/
theorem settleDiff_eq_none (h : settleDiff relayDustFee ctx outs feeDiff = .ok none) :
    0 ≤ feeDiff := by
  unfold settleDiff at h
  split at h
  next =>
    obtain ⟨moved, -, h⟩ := bind_eq_ok.mp h
    simp at h
  next =>
    obtain ⟨moved, -, h⟩ := bind_eq_ok.mp h
    simp at h
  next =>
    dsimp only at h
    split_ifs at h with hcount hneg
    · obtain ⟨moved, -, h⟩ := bind_eq_ok.mp h
      simp at h
    · exact not_lt.mp hneg

end Adjust

/-! ### One round -/

section Round

variable {w : Wallet 𝔾} {data : SolvingData} {blinding : Nat → BlindRandom w.blindEnv.getPubKey}
  {ctx : LoopContext} {base : CTransaction} {left round : Nat} {st : LoopState}
  {outs : List PlainOutput} {r : LoopResult}

/-- A round is about to blind the given outputs: their amounts are in `vout_amounts`, and of the
blinding of the round before nothing is left. -/
structure Stands (base : CTransaction) (round : Nat) (st : LoopState) (outs : List PlainOutput) :
    Prop where
  amounts : st.voutAmounts = outs.map PlainOutput.nAmount
  nonneg : ∀ o ∈ outs, 0 ≤ o.nAmount
  txNew : (if round > 0 then undoBlinding st else st.txNew) =
    { base with vout := outs.map PlainOutput.toTxOut }

theorem scripts_blindTransaction {env : BlindEnv 𝔾} {rand : BlindRandom env.getPubKey}
    {inputBlinds : List Nat} {tx : CTransaction} {recipientKeys : List (Option Bytes)}
    {explicitOutputs : Option (List Bool)} {usePathC : Bool} {blinded : Blinded}
    (h : blindTransaction env rand inputBlinds tx recipientKeys explicitOutputs usePathC =
      some blinded) :
    blinded.tx.vout.map CTxOut.scriptPubKey = tx.vout.map CTxOut.scriptPubKey := by
  obtain ⟨blind, -, houts, -⟩ := blindTransaction_eq_some h
  have hsame : List.Forall₂ (fun a b => a = b)
      (tx.vout.zipIdx.map fun entry => entry.1.scriptPubKey)
      (blinded.tx.vout.map CTxOut.scriptPubKey) := by
    rw [List.forall₂_map_left_iff, List.forall₂_map_right_iff]
    refine houts.imp fun entry out hout => ?_
    unfold BlindedAs at hout
    split_ifs at hout
    · obtain ⟨stored, hout⟩ := hout
      obtain ⟨-, commit, nonce, nNonce, proof, -, -, -, rfl⟩ := blindOutput_eq_some hout
      rfl
    · rw [hout]
  rw [List.forall₂_eq_eq_eq] at hsame
  rw [← hsame]
  exact map_zipIdx_fst CTxOut.scriptPubKey tx.vout

theorem map_scriptPubKey_toTxOut (outs : List PlainOutput) :
    (outs.map PlainOutput.toTxOut).map CTxOut.scriptPubKey =
      outs.map PlainOutput.scriptPubKey := by
  rw [List.map_map]
  rfl

theorem zipWith_undo {vout : List CTxOut} {outs : List PlainOutput}
    (h : vout.map CTxOut.scriptPubKey = outs.map PlainOutput.scriptPubKey) :
    List.zipWith (fun (out : CTxOut) amount =>
        { out with nValue := .ofAmount amount, nNonce := .null, vchRangeproof := [] })
      vout (outs.map PlainOutput.nAmount) = outs.map PlainOutput.toTxOut := by
  induction outs generalizing vout with
  | nil => simp
  | cons o outs ih =>
    cases vout with
    | nil => simp at h
    | cons out vout =>
      rw [List.map_cons, List.map_cons, List.cons.injEq] at h
      rw [List.map_cons, List.zipWith_cons_cons, ih h.2, h.1]
      rfl

theorem outputs_eq {tx : CTransaction} {outs : List PlainOutput}
    (h : tx.vout.map CTxOut.scriptPubKey = outs.map PlainOutput.scriptPubKey) :
    LoopState.outputs ⟨tx, outs.map PlainOutput.nAmount⟩ = outs := by
  simp [LoopState.outputs, h]

theorem stands_zero {txNew : CTransaction} (hvout : txNew.vout = outs.map PlainOutput.toTxOut)
    (hnonneg : ∀ o ∈ outs, 0 ≤ o.nAmount) :
    Stands { txNew with nVersion := CT_VERSION } 0
      ⟨{ txNew with nVersion := CT_VERSION }, outs.map PlainOutput.nAmount⟩ outs :=
  ⟨rfl, hnonneg, by rw [if_neg (lt_irrefl 0), ← hvout]⟩

/-- Whatever a round has blinded, the next one starts from the amounts in the clear. -/
theorem stands_succ {rand : BlindRandom w.blindEnv.getPubKey} {blinded : Blinded}
    {outs' : List PlainOutput}
    (hblind : blindTransaction w.blindEnv rand ctx.inputBlinds
      { base with vout := outs.map PlainOutput.toTxOut } ctx.recipientKeys ctx.explicitOutputs true =
        some blinded)
    (hscripts : outs'.map PlainOutput.scriptPubKey = outs.map PlainOutput.scriptPubKey)
    (hnonneg : ∀ o ∈ outs', 0 ≤ o.nAmount) :
    Stands base (round + 1) ⟨blinded.tx, outs'.map PlainOutput.nAmount⟩ outs' := by
  have hsame := scripts_blindTransaction hblind
  rw [map_scriptPubKey_toTxOut, ← hscripts] at hsame
  obtain ⟨-, hbase, -⟩ := blindTransaction_eq_some hblind
  refine ⟨rfl, hnonneg, ?_⟩
  rw [if_pos (Nat.succ_pos round), undoBlinding, zipWith_undo hsame, hbase]

/-- **One round**: it ends with a fee that pays for what it measured, or it settles the difference
and the next round starts from the new amounts. -/
theorem feeLoop_cases (hst : Stands base round st outs)
    (h : feeLoop w data blinding ctx left round st = .ok r) :
    ∃ blinded measured, blindTransaction w.blindEnv (blinding round) ctx.inputBlinds
        { base with vout := outs.map PlainOutput.toTxOut } ctx.recipientKeys ctx.explicitOutputs
        true = some blinded ∧
      calculateMaximumSignedTxSize data (withFeeOutput blinded.tx
        (ctx.selected - (outs.map PlainOutput.nAmount).sum)) = some measured ∧
      ((feeNeededBlinded w ctx measured ≤ ctx.selected - (outs.map PlainOutput.nAmount).sum ∧
          (ctx.selected - (outs.map PlainOutput.nAmount).sum = feeNeededBlinded w ctx measured ∨
            left = 0 ∨ settleDiff w.relayDustFee ctx outs (ctx.selected -
              (outs.map PlainOutput.nAmount).sum - feeNeededBlinded w ctx measured) = .ok none) ∧
          r = ⟨blinded.tx, outs.map PlainOutput.nAmount,
            ctx.selected - (outs.map PlainOutput.nAmount).sum, measured, round + 1⟩) ∨
        ∃ left' outs', left = left' + 1 ∧
          ctx.selected - (outs.map PlainOutput.nAmount).sum ≠ feeNeededBlinded w ctx measured ∧
          settleDiff w.relayDustFee ctx outs (ctx.selected - (outs.map PlainOutput.nAmount).sum -
            feeNeededBlinded w ctx measured) = .ok (some outs') ∧
          Stands base (round + 1) ⟨blinded.tx, outs'.map PlainOutput.nAmount⟩ outs' ∧
          feeLoop w data blinding ctx left' (round + 1)
            ⟨blinded.tx, outs'.map PlainOutput.nAmount⟩ = .ok r) := by
  unfold feeLoop at h
  dsimp only at h
  rw [hst.txNew, hst.amounts] at h
  split at h
  next => simp at h
  next blinded hblind =>
    have hscripts := scripts_blindTransaction hblind
    rw [map_scriptPubKey_toTxOut] at hscripts
    split at h
    next => simp at h
    next measured hmeasured =>
      refine ⟨blinded, measured, hblind, hmeasured, ?_⟩
      by_cases hpaid : ctx.selected - (outs.map PlainOutput.nAmount).sum =
          feeNeededBlinded w ctx measured
      · rw [if_pos hpaid] at h
        exact .inl ⟨hpaid.ge, .inl hpaid, (Except.ok.inj h).symm⟩
      · rw [if_neg hpaid] at h
        cases left with
        | zero =>
          dsimp only at h
          split_ifs at h with hless
          exact .inl ⟨not_lt.mp hless, .inr (.inl rfl), (Except.ok.inj h).symm⟩
        | succ left =>
          dsimp only at h
          rw [outputs_eq hscripts] at h
          split at h
          next => simp at h
          next hnone =>
            exact .inl ⟨sub_nonneg.mp (settleDiff_eq_none hnone), .inr (.inr hnone),
              (Except.ok.inj h).symm⟩
          next outs' hsome =>
            obtain ⟨hkeep, hnonneg, -⟩ := settleDiff_eq_some hst.nonneg hsome
            exact .inr ⟨left, outs', rfl, hpaid, hsome, stands_succ hblind hkeep hnonneg, h⟩

/-- **The rounds**, by induction on those that may follow: only amounts the loop may move have
changed, and the fee left pays for the size of the last blinding. -/
theorem feeLoop_eq_ok (hst : Stands base round st outs)
    (h : feeLoop w data blinding ctx left round st = .ok r) :
    ∃ (k : Nat) (settled : List PlainOutput) (blinded : Blinded), k ≤ round + left ∧
      r.blindings = k + 1 ∧
      blindTransaction w.blindEnv (blinding k) ctx.inputBlinds
        { base with vout := settled.map PlainOutput.toTxOut } ctx.recipientKeys ctx.explicitOutputs
        true = some blinded ∧
      calculateMaximumSignedTxSize data (withFeeOutput blinded.tx r.currentFee) =
        some r.txSizes ∧
      feeNeededBlinded w ctx r.txSizes ≤ r.currentFee ∧ r.txNew = blinded.tx ∧
      r.voutAmounts = settled.map PlainOutput.nAmount ∧
      r.currentFee = ctx.selected - (settled.map PlainOutput.nAmount).sum ∧
      (∀ o ∈ settled, 0 ≤ o.nAmount) ∧
      settled.map PlainOutput.scriptPubKey = outs.map PlainOutput.scriptPubKey ∧
      ∀ i : Nat, settled[i]? ≠ outs[i]? → Movable ctx i := by
  induction left generalizing round st outs with
  | zero =>
    obtain ⟨blinded, measured, hblind, hmeasured, ⟨hpays, -, rfl⟩ | ⟨_, _, hleft, -⟩⟩ :=
      feeLoop_cases hst h
    · exact ⟨round, outs, blinded, by omega, rfl, hblind, hmeasured, hpays, rfl, rfl, rfl, hst.nonneg,
        rfl, fun i hne => absurd rfl hne⟩
    · cases hleft
  | succ left ih =>
    obtain ⟨blinded, measured, hblind, hmeasured, ⟨hpays, -, rfl⟩ |
      ⟨left', outs', hleft, -, hsettle, hnext, hrest⟩⟩ := feeLoop_cases hst h
    · exact ⟨round, outs, blinded, by omega, rfl, hblind, hmeasured, hpays, rfl, rfl, rfl, hst.nonneg,
        rfl, fun i hne => absurd rfl hne⟩
    · obtain rfl := Nat.succ.inj hleft
      obtain ⟨k, settled, blinded, hk, hcount, hlast, hsize, hpays, htx, hamounts, hfee, hnonneg,
        hscripts, hmoved⟩ := ih hnext hrest
      obtain ⟨hkeep, -, hmove⟩ := settleDiff_eq_some hst.nonneg hsettle
      refine ⟨k, settled, blinded, by omega, hcount, hlast, hsize, hpays, htx, hamounts, hfee, hnonneg,
        hscripts.trans hkeep, fun i hne => ?_⟩
      by_cases hlater : settled[i]? = outs'[i]?
      · exact hmove i (hlater ▸ hne)
      · exact hmoved i hlater

end Round

/-! ### What the section leaves -/

/-- An output has an amount: in the clear, or in its commitment and in its range proof. -/
def Carries (env : BlindEnv 𝔾) (out : CTxOut) (amount : Int) : Prop :=
  (out = .ofAmount amount out.scriptPubKey ∧ out.nValue.getAmount = amount) ∨
    (0 ≤ amount ∧ ∃ blind commit nonce, env.pedersenCommit blind amount.toNat = some commit ∧
      out.nValue = ⟨env.commitmentSerialize commit⟩ ∧
      env.rangeproofSign commit blind nonce amount.toNat = some out.vchRangeproof)

theorem carries_blindedAs {env : BlindEnv 𝔾} {rand : BlindRandom env.getPubKey}
    {recipientKeys : List (Option Bytes)} {explicitOutputs : Option (List Bool)} {usePathC : Bool}
    {blind : Nat → Nat} {o : PlainOutput} {i : Nat} {out : CTxOut} (hamount : IsInt64 o.nAmount)
    (h : BlindedAs env rand recipientKeys explicitOutputs usePathC blind (o.toTxOut, i) out) :
    Carries env out o.nAmount := by
  have hget : o.toTxOut.nValue.getAmount = o.nAmount :=
    CConfidentialValue.getAmount_ofAmount hamount
  unfold BlindedAs at h
  split_ifs at h
  · obtain ⟨stored, h⟩ := h
    obtain ⟨hrange, commit, nonce, nNonce, proof, -, hcommit, hproof, rfl⟩ := blindOutput_eq_some h
    rw [hget] at hrange hcommit hproof
    exact .inr ⟨hrange.1, blind i, commit, nonce, hcommit, rfl, hproof⟩
  · subst h
    exact .inl ⟨rfl, hget⟩

theorem carries_blindTransaction {env : BlindEnv 𝔾} {rand : BlindRandom env.getPubKey}
    {inputBlinds : List Nat} {base : CTransaction} {outs : List PlainOutput}
    {recipientKeys : List (Option Bytes)} {explicitOutputs : Option (List Bool)} {usePathC : Bool}
    {blinded : Blinded} (houts : ∀ o ∈ outs, IsInt64 o.nAmount)
    (h : blindTransaction env rand inputBlinds { base with vout := outs.map PlainOutput.toTxOut }
      recipientKeys explicitOutputs usePathC = some blinded) :
    List.Forall₂ (Carries env) blinded.tx.vout (outs.map PlainOutput.nAmount) := by
  obtain ⟨blind, -, hblinded, -⟩ := blindTransaction_eq_some h
  rw [List.zipIdx_map, List.forall₂_map_left_iff] at hblinded
  have hmem : ∀ e ∈ outs.zipIdx, IsInt64 e.1.nAmount :=
    fun e he => houts e.1 (List.fst_mem_of_mem_zipIdx he)
  have hcarries := ((List.forall₂_and_left _ _).mpr ⟨hmem, hblinded⟩).imp
    fun e out he => carries_blindedAs he.1 he.2
  rw [← map_zipIdx_fst, List.forall₂_map_right_iff]
  exact hcarries.flip

/-- **The exactness of the fee loop**, for outputs `start` that it was given. -/
structure Exact (w : Wallet 𝔾) (data : SolvingData) (ctx : LoopContext) (start : List PlainOutput)
    (voutAddr : List Nat) (r : Version3) : Prop where
  /-- The outputs have the amounts of `vout_amounts`, and the fee output comes after them. -/
  outputs : ∃ body, r.tx.vout = body ++ feeOutputs r.fee ∧
    List.Forall₂ (Carries w.blindEnv) body r.voutAmounts ∧
    body.map CTxOut.scriptPubKey = start.map PlainOutput.scriptPubKey
  total : r.voutAmounts.sum + ((feeOutputs r.fee).map fun out => out.nValue.getAmount).sum =
    ctx.selected
  /-- The fee pays for the size of this very transaction. -/
  measured : calculateMaximumSignedTxSize data r.tx = some r.size
  signed : ∀ signatures, calculateMaximumSignedTxSize data (applySignatures r.tx signatures) =
    some r.size
  paid : w.effectiveFeerate.getFee r.size.vsize + ctx.totalBumpFees ≤ r.fee
  moved : ∀ i : Nat, r.voutAmounts[i]? ≠ (start.map PlainOutput.nAmount)[i]? → Movable ctx i
  records : r.voutAmount.map Prod.fst = voutAddr ∧
    ∀ e ∈ r.voutAmount, r.voutAmounts[e.1]? = some e.2
  rounds : 1 ≤ r.blindings ∧ r.blindings ≤ 4

theorem withFeeOutput_eq (tx : CTransaction) (fee : Int) :
    withFeeOutput tx fee = { tx with vout := tx.vout ++ feeOutputs fee } := by
  unfold withFeeOutput feeOutputs
  split_ifs
  · rfl
  · rw [List.append_nil]

theorem mapM_explicitAmount {start : List PlainOutput} (hstart : ∀ o ∈ start, IsInt64 o.nAmount)
    {amounts : List Int} (h : (start.map PlainOutput.toTxOut).mapM explicitAmount = .ok amounts) :
    amounts = start.map PlainOutput.nAmount := by
  rw [mapM_eq_ok, List.forall₂_map_left_iff] at h
  have hread := ((List.forall₂_and_left _ _).mpr ⟨hstart, h⟩).imp
    (S := fun o amount => o.nAmount = amount) ?_
  · rw [← List.forall₂_map_left_iff, List.forall₂_eq_eq_eq] at hread
    exact hread.symm
  · rintro o amount ⟨hamount, hok⟩
    have hexplicit : o.toTxOut.nValue.IsExplicit := CConfidentialValue.isExplicit_ofAmount _
    rw [explicitAmount, if_pos hexplicit, Except.ok.injEq] at hok
    rw [← hok]
    exact (CConfidentialValue.getAmount_ofAmount hamount).symm

/-- Amounts that are not negative and leave a fee are no larger than what was selected. -/
theorem isInt64_of_sum {outs : List PlainOutput} {selected : Int} (hselected : selected < 2 ^ 63)
    (hnonneg : ∀ o ∈ outs, 0 ≤ o.nAmount)
    (hsum : (outs.map PlainOutput.nAmount).sum ≤ selected) : ∀ o ∈ outs, IsInt64 o.nAmount := by
  intro o ho
  have hle : o.nAmount ≤ (outs.map PlainOutput.nAmount).sum := by
    apply List.single_le_sum
    · rw [List.forall_mem_map]
      exact hnonneg
    · exact List.mem_map_of_mem ho
  have hpos := hnonneg o ho
  unfold IsInt64
  omega

theorem sum_getAmount_feeOutputs {fee : Int} (hnonneg : 0 ≤ fee) (hlt : fee < 2 ^ 63) :
    ((feeOutputs fee).map fun out => out.nValue.getAmount).sum = fee := by
  unfold feeOutputs
  split_ifs with hpos
  · rw [List.map_singleton, List.sum_singleton]
    exact CConfidentialValue.getAmount_ofAmount ⟨by omega, hlt⟩
  · simpa using le_antisymm hnonneg (not_lt.mp hpos)

theorem feeNeededBlinded_nonneg {𝔾 : Type} (w : Wallet 𝔾) (ctx : LoopContext) (measured : TxSize) :
    0 ≤ feeNeededBlinded w ctx measured := by
  have hfee := w.effectiveFeerate.getFee_nonneg measured.vsize
  unfold feeNeededBlinded
  omega

/-- **The section is exact** on outputs with amounts, for a selected value of 64 bits. -/
theorem exact_version3Section {w : Wallet 𝔾} {data : SolvingData}
    {blinding : Nat → BlindRandom w.blindEnv.getPubKey} {ctx : LoopContext} {voutAddr : List Nat}
    {txNew : CTransaction} {start : List PlainOutput} {r : Version3}
    (hvout : txNew.vout = start.map PlainOutput.toTxOut)
    (hstart : ∀ o ∈ start, 0 ≤ o.nAmount ∧ IsInt64 o.nAmount) (hselected : ctx.selected < 2 ^ 63)
    (haddr : ∀ vi ∈ voutAddr, vi < start.length)
    (h : version3Section w data blinding ctx voutAddr txNew = .ok r) :
    Exact w data ctx start voutAddr r := by
  obtain ⟨-, h⟩ := bind_unit_eq_ok.mp h
  obtain ⟨amounts, hamounts, h⟩ := bind_eq_ok.mp h
  obtain ⟨loop, hloop, h⟩ := bind_eq_ok.mp h
  obtain rfl := pure_eq_ok.mp h
  rw [hvout] at hamounts
  obtain rfl := mapM_explicitAmount (fun o ho => (hstart o ho).2) hamounts
  have hst := stands_zero hvout fun o ho => (hstart o ho).1
  obtain ⟨k, settled, blinded, hk, hcount, hblind, hsize, hpays, htx, hsettled, hfee, hnonneg,
    hscripts, hmoved⟩ := feeLoop_eq_ok hst hloop
  have hneeded := feeNeededBlinded_nonneg w ctx loop.txSizes
  have hint := isInt64_of_sum hselected hnonneg (by omega)
  have hsum : 0 ≤ (settled.map PlainOutput.nAmount).sum :=
    List.sum_nonneg (List.forall_mem_map.mpr hnonneg)
  have hlength : settled.length = start.length := by simpa using congrArg List.length hscripts
  rw [← htx] at hsize
  refine ⟨⟨blinded.tx.vout, ?_, ?_, ?_⟩, ?_, hsize, fun signatures => ?_, hpays, ?_, ⟨?_, ?_⟩, ?_⟩
  · rw [withFeeOutput_eq, htx]
  · rw [hsettled]
    exact carries_blindTransaction hint hblind
  · rw [scripts_blindTransaction hblind, ← hscripts]
    exact map_scriptPubKey_toTxOut settled
  · have hfees : ((feeOutputs loop.currentFee).map fun out => out.nValue.getAmount).sum =
        loop.currentFee := sum_getAmount_feeOutputs (by omega) (by omega)
    dsimp only
    rw [hfees, hsettled, hfee]
    omega
  · rw [calculateMaximumSignedTxSize_applySignatures, hsize]
  · intro i hne
    rw [hsettled, List.getElem?_map, List.getElem?_map] at hne
    exact hmoved i fun hsame => hne (by rw [hsame])
  · rw [List.map_map]
    exact List.map_id voutAddr
  · rw [List.forall_mem_map]
    intro vi hvi
    have hlt : vi < loop.voutAmounts.length := by
      rw [hsettled, List.length_map, hlength]
      exact haddr vi hvi
    simp [List.getElem?_eq_getElem hlt]
  · unfold maxCTFeeRounds at hk
    dsimp only
    omega

/-! ### The section after the plan -/

def outputPosition (changePos : Option Nat) (oi : Nat) : Nat :=
  match changePos with
  | some pos => if pos ≤ oi then oi + 1 else oi
  | none => oi

/-- What the loop is given for the outputs of a plan. -/
def loopContext (ctx : RoundContext) (outs : Outputs) : LoopContext where
  vecSend := ctx.vecSend
  selected := ctx.selected
  totalBumpFees := ctx.totalBumpFees
  inputBlinds := ctx.inputBlinds
  changePos := outs.change.map Prod.fst
  injectedChangeFundingPos := ctx.fundingPos.map (outputPosition (outs.change.map Prod.fst))
  recipientKeys := ctx.recipientKeys
  explicitOutputs := ctx.explicitOutputs

/-- The indices of `vout_addr`: it has an address wherever there is a key. -/
def addressedOutputs (keys : List (Option Bytes)) : List Nat :=
  (keys.zipIdx.filter fun entry => entry.1.isSome).map Prod.snd

theorem lt_of_mem_addressedOutputs {keys : List (Option Bytes)} :
    ∀ vi ∈ addressedOutputs keys, vi < keys.length := by
  intro vi hvi
  obtain ⟨entry, hentry, rfl⟩ := List.mem_map.mp hvi
  have hlt := (List.mem_zipIdx (List.mem_filter.mp hentry).1).2.1
  omega

section Planned

variable {w : Wallet 𝔾} {vecSend : List CRecipient} {changePos : Option Nat}
  {result : SelectionResult} {change : ChangeDestination} {size : Option TxSize} {outs : Outputs}
  {plainSize : TxSize} {draw draw' : (n : Nat) → Fin (n + 1)} {plan : Plan}

omit [AddCommGroup 𝔾] [Module Scalar 𝔾] [DecidableEq 𝔾] in
/-- The outputs of a plan fit the recipients, and each key has its output. -/
theorem fit_plan
    (hplain : plainOutputs w draw size vecSend changePos result change = .ok (outs, plainSize))
    (hplan : planConfidential w draw' vecSend result change outs = .ok plan) :
    (∃ script, Fit w.relayDustFee vecSend script plan.funding.outs) ∧
      ∀ vi ∈ addressedOutputs plan.keys, vi < plan.funding.outs.vout.length := by
  obtain ⟨hfit, -, hscript⟩ := fit_plainOutputs hplain
  obtain ⟨-, -, hinject, hkeys⟩ := planConfidential_eq_ok hplan
  obtain ⟨script, hfit, -⟩ := fit_injectChange hfit hscript hinject
  refine ⟨⟨script, hfit⟩, fun vi hvi => ?_⟩
  have hlt := lt_of_mem_addressedOutputs vi hvi
  unfold recipientKeys at hkeys
  split_ifs at hkeys with hlegacy
  · rw [← Except.ok.inj hkeys] at hlt
    exact absurd hlt (Nat.not_lt_zero vi)
  · obtain ⟨hlength, -⟩ := slot_cases hfit rfl hkeys
    rwa [hlength]

end Planned

/-- **The confidential fee loop is exact**: a version 3 section that finishes returns the amounts it
settled, all of the selected value, and a fee for the size of the transaction that it returns. -/
theorem confidential_fee_loop_exact (w : Wallet 𝔾) (data : SolvingData)
    (draws : Draws w.blindEnv.getPubKey) (vecSend : List CRecipient) (changePos : Option Nat)
    (result : SelectionResult) (change : ChangeDestination) (size : Option TxSize) (outs : Outputs)
    (plainSize : TxSize) (plan : Plan) (txNew : CTransaction) (r : Version3)
    (hplain : plainOutputs w draws.changePos size vecSend changePos result change =
      .ok (outs, plainSize))
    (hplan : planConfidential w draws.injectedPos vecSend result change outs = .ok plan)
    (hvout : txNew.vout = plan.funding.outs.vout.map PlainOutput.toTxOut)
    (hamounts : ∀ o ∈ plan.funding.outs.vout, o.nAmount < 2 ^ 63)
    (hselected : result.getSelectedValue < 2 ^ 63)
    (h : version3Section w data draws.blinding
      (loopContext (plan.roundContext vecSend result) plan.funding.outs)
      (addressedOutputs plan.keys) txNew = .ok r) :
    Exact w data (loopContext (plan.roundContext vecSend result) plan.funding.outs)
      plan.funding.outs.vout (addressedOutputs plan.keys) r := by
  obtain ⟨⟨script, hfit⟩, haddr⟩ := fit_plan hplain hplan
  refine exact_version3Section hvout (fun o ho => ?_) hselected haddr h
  have hnonneg := hfit.nonneg_vout o ho
  have hlt := hamounts o ho
  exact ⟨hnonneg, by omega, hlt⟩

def sampleData : SolvingData where
  findTxOut _ := some (.ofAmount 40000 [OP_TRUE])
  getInputWeight _ := some 272
  getDescriptor _ := none
  fAllowWatchOnly := false
  isExternalSelected _ := false
  canGrindR := true

def samplePayment : List CRecipient :=
  [confidentialRecipient 50000, ⟨.other [OP_TRUE], 20000, false⟩]

def sampleResult : SelectionResult := ⟨paymentCoins, 28000, 0⟩

/-- The estimate sets 2744 aside for the fee. -/
def samplePlan : Plan where
  inputBlinds := [0, 50]
  funding := {
    outs := {
      payees := [⟨50000, getScriptForDestination (confidentialRecipient 50000).dest⟩,
        ⟨20000, [OP_TRUE]⟩]
      change := some (0, ⟨27256, [OP_TRUE]⟩) }
    changeKey := some [2]
    fundingPos := none }
  keys := [some [2], some [2], none]

/-- The change gets back what the estimate had set aside for larger proofs, in the second round. -/
theorem payment_fee_exact :
    ∃ r, version3Section paymentWallet sampleData sampleDraws.blinding
        (loopContext (samplePlan.roundContext samplePayment sampleResult) samplePlan.funding.outs)
        (addressedOutputs samplePlan.keys)
        { sampleTx with vout := samplePlan.funding.outs.vout.map PlainOutput.toTxOut } = .ok r ∧
      (r.voutAmount, r.fee, r.blindings) = ([(0, 29666), (1, 50000)], 334, 2) ∧
      Exact paymentWallet sampleData
        (loopContext (samplePlan.roundContext samplePayment sampleResult) samplePlan.funding.outs)
        samplePlan.funding.outs.vout (addressedOutputs samplePlan.keys) r := by
  have hrun : (version3Section paymentWallet sampleData sampleDraws.blinding
      (loopContext (samplePlan.roundContext samplePayment sampleResult) samplePlan.funding.outs)
      (addressedOutputs samplePlan.keys)
      { sampleTx with vout := samplePlan.funding.outs.vout.map PlainOutput.toTxOut }).map
        (fun r => (r.voutAmount, r.fee, r.blindings)) =
      .ok ([(0, 29666), (1, 50000)], 334, 2) := by decide +kernel
  obtain ⟨r, hr, hvalues⟩ := map_eq_ok.mp hrun
  refine ⟨r, hr, hvalues, ?_⟩
  exact confidential_fee_loop_exact paymentWallet sampleData sampleDraws samplePayment none
    sampleResult confidentialChange (some ⟨110, 440⟩) samplePlan.funding.outs ⟨110, 440⟩ samplePlan _ r
    rfl rfl rfl (by decide) (by decide) hr

/-! ### The loop and its rounds on payees and change

`feeRounds` keeps the payees apart from the change and takes the sizes as answers.  It does what the
loop does, for the answers that the loop computes. -/

section Positions

variable {α : Type}

end Positions

section Refine

variable {outs : Outputs} {rctx : RoundContext} {relayDustFee : CFeeRate} {scriptChange : CScript}

section Run

variable {w : Wallet 𝔾} {data : SolvingData} {draws : Draws w.blindEnv.getPubKey}
  {base : CTransaction} {left round : Nat} {blinded : Blinded} {measured : TxSize}

end Run

end Refine

end Rcpu.WalletFeeLoop
