import Rcpu.WalletSpend

/-!
# What the wallet's transactions are worth to consensus

The wallet builds a version 3 transaction by rounds of blinding and rebalancing.  The outputs keep
their scripts, their order and non-negative amounts through all of them, so what the verifier makes
of the result follows from the amounts the rounds settle on.
-/

namespace Rcpu.WalletBalance

open Checks ByteStream Confidential Transaction TxVerify ConfidentialValidation Script Blind Policy
  WalletSpend

/-! ### The outputs fit the recipients -/

/-- One payee for each recipient, on the recipient's script and above dust; change, if any, sits
among them on its own script. -/
structure Fit (relayDustFee : CFeeRate) (vecSend : List CRecipient) (scriptChange : CScript)
    (outs : Outputs) : Prop where
  scripts : outs.payees.map PlainOutput.scriptPubKey =
    vecSend.map fun recipient => getScriptForDestination recipient.dest
  not_dust : ∀ o ∈ outs.payees, ¬ o.IsDust relayDustFee
  change_pos : ∀ c ∈ outs.change, c.1 ≤ vecSend.length
  change_nonneg : ∀ c ∈ outs.change, 0 ≤ c.2.nAmount
  change_script : ∀ c ∈ outs.change, c.2.scriptPubKey = scriptChange

section Fit

variable {relayDustFee : CFeeRate} {vecSend : List CRecipient} {scriptChange : CScript}
  {outs outs' : Outputs}

theorem nonneg_of_not_isDust {o : PlainOutput} (h : ¬ o.IsDust relayDustFee) : 0 ≤ o.nAmount :=
  (getDustThreshold_nonneg _ _).trans (not_lt.mp h)

theorem Fit.length_payees (h : Fit relayDustFee vecSend scriptChange outs) :
    outs.payees.length = vecSend.length := by
  simpa using congrArg List.length h.scripts

theorem Fit.length_vout (h : Fit relayDustFee vecSend scriptChange outs) :
    vecSend.length ≤ outs.vout.length := by
  rw [← h.length_payees, Outputs.vout]
  cases outs.change with
  | none => exact le_rfl
  | some c => exact List.length_le_length_insertIdx

theorem Fit.nonneg_vout (h : Fit relayDustFee vecSend scriptChange outs) :
    ∀ o ∈ outs.vout, 0 ≤ o.nAmount := by
  intro o hmem
  rw [Outputs.vout] at hmem
  cases hchange : outs.change with
  | none =>
    rw [hchange] at hmem
    exact nonneg_of_not_isDust (h.not_dust o hmem)
  | some c =>
    rw [hchange] at hmem
    rcases List.eq_or_mem_of_mem_insertIdx hmem with rfl | hmem
    · exact h.change_nonneg c hchange
    · exact nonneg_of_not_isDust (h.not_dust o hmem)

theorem payeeOutputs_eq_ok {payees : List PlainOutput} :
    payeeOutputs relayDustFee vecSend = .ok payees ↔
      payees = vecSend.map (fun recipient =>
        (⟨recipient.nAmount, getScriptForDestination recipient.dest⟩ : PlainOutput)) ∧
      ∀ recipient ∈ vecSend, ¬ PlainOutput.IsDust
        ⟨recipient.nAmount, getScriptForDestination recipient.dest⟩ relayDustFee := by
  rw [payeeOutputs, mapM_eq_ok]
  apply forall₂_iff_eq_map (List.forall₂_same.mpr fun _ _ => rfl)
  rintro recipient _ _ o rfl
  simp only [bind_unit_eq_ok, require_eq_ok, pure_eq_ok]
  rw [and_comm, eq_comm]

theorem changePosition_le {draw : (n : Nat) → Fin (n + 1)} {changePos : Option Nat} {n pos : Nat}
    (h : changePosition draw changePos n = .ok pos) : pos ≤ n := by
  cases changePos with
  | none =>
    simp only [changePosition, Except.ok.injEq] at h
    have := (draw n).isLt
    omega
  | some p =>
    simp only [changePosition] at h
    split_ifs at h with hp
    simp only [Except.ok.injEq] at h
    omega

theorem fit_addChange {draw : (n : Nat) → Fin (n + 1)} {changePos : Option Nat}
    {changeAmount : Int} {payees : List PlainOutput}
    (hpayees : payeeOutputs relayDustFee vecSend = .ok payees)
    (h : addChange draw changePos changeAmount scriptChange payees = .ok outs) :
    Fit relayDustFee vecSend scriptChange outs ∧ (outs.change = none ↔ changeAmount ≤ 0) := by
  obtain ⟨rfl, hdust⟩ := payeeOutputs_eq_ok.mp hpayees
  have hscripts : (vecSend.map fun recipient =>
      (⟨recipient.nAmount, getScriptForDestination recipient.dest⟩ : PlainOutput)).map
        PlainOutput.scriptPubKey =
      vecSend.map fun recipient => getScriptForDestination recipient.dest := by
    rw [List.map_map]
    rfl
  have hnotdust : ∀ o ∈ vecSend.map (fun recipient =>
      (⟨recipient.nAmount, getScriptForDestination recipient.dest⟩ : PlainOutput)),
        ¬ o.IsDust relayDustFee := by
    intro o hmem
    obtain ⟨recipient, hrecipient, rfl⟩ := List.mem_map.mp hmem
    exact hdust recipient hrecipient
  unfold addChange at h
  split_ifs at h with hpos
  · obtain ⟨pos, hchange, h⟩ := bind_eq_ok.mp h
    obtain rfl := pure_eq_ok.mp h
    have hle := changePosition_le hchange
    rw [List.length_map] at hle
    refine ⟨⟨hscripts, hnotdust, ?_, ?_, ?_⟩, by simpa using hpos⟩
    · simpa using hle
    · simpa using hpos.le
    · simp
  · simp only [Except.ok.injEq] at h
    subst h
    exact ⟨⟨hscripts, hnotdust, by simp, by simp, by simp⟩, by simpa using hpos⟩

theorem Fit.adjustChange (hfit : Fit relayDustFee vecSend scriptChange outs)
    {selected feeNeeded : Int} (h : adjustChange selected feeNeeded outs = .ok outs') :
    Fit relayDustFee vecSend scriptChange outs' ∧ (outs'.change = none ↔ outs.change = none) := by
  unfold WalletSpend.adjustChange at h
  cases hchange : outs.change with
  | none =>
    simp only [hchange, Except.ok.injEq] at h
    subst h
    exact ⟨hfit, by simp [hchange]⟩
  | some c =>
    obtain ⟨pos, change⟩ := c
    simp only [hchange] at h
    split_ifs at h with hsame hneg
    · simp only [Except.ok.injEq] at h
      subst h
      exact ⟨hfit, by simp [hchange]⟩
    · simp only [Except.ok.injEq] at h
      subst h
      refine ⟨⟨hfit.scripts, hfit.not_dust, ?_, ?_, ?_⟩, by simp⟩
      · simpa using hfit.change_pos (pos, change) hchange
      · simpa using hneg
      · simpa [PlainOutput.add] using hfit.change_script (pos, change) hchange

theorem shareFee_eq_ok {check : PlainOutput → Except String Unit} {P : PlainOutput → Prop}
    {share rest : Int} {payees payees' : List PlainOutput}
    (hcheck : ∀ o, check o = .ok () → P o) (hpayees : ∀ o ∈ payees, P o)
    (h : shareFee check share rest vecSend payees = .ok payees') :
    payees'.map PlainOutput.scriptPubKey = payees.map PlainOutput.scriptPubKey ∧
      ∀ o ∈ payees', P o := by
  fun_induction shareFee check share rest vecSend payees generalizing payees' with
  | case1 rest recipient vecSend o payees hpays ih =>
    rw [List.forall_mem_cons] at hpayees
    obtain ⟨hok, h⟩ := bind_unit_eq_ok.mp h
    obtain ⟨tail, htail, h⟩ := bind_eq_ok.mp h
    obtain rfl := pure_eq_ok.mp h
    obtain ⟨hscripts, hdust⟩ := ih hpayees.2 htail
    rw [List.map_cons, List.map_cons, hscripts, List.forall_mem_cons]
    exact ⟨rfl, hcheck _ hok, hdust⟩
  | case2 rest recipient vecSend o payees hpays ih =>
    rw [List.forall_mem_cons] at hpayees
    obtain ⟨tail, htail, h⟩ := bind_eq_ok.mp h
    obtain rfl := pure_eq_ok.mp h
    obtain ⟨hscripts, hdust⟩ := ih hpayees.2 htail
    rw [List.map_cons, List.map_cons, hscripts, List.forall_mem_cons]
    exact ⟨rfl, hpayees.1, hdust⟩
  | case3 rest payees vecSend hnil =>
    simp only [Except.ok.injEq] at h
    exact h ▸ ⟨rfl, hpayees⟩

theorem not_isDust_of_checkReduced {o : PlainOutput} (h : checkReduced relayDustFee o = .ok ()) :
    ¬ o.IsDust relayDustFee := by
  unfold checkReduced at h
  split_ifs at h with hdust
  exact hdust

theorem not_isDust_of_checkRebalanced {o : PlainOutput}
    (h : checkRebalanced relayDustFee o = .ok ()) : ¬ o.IsDust relayDustFee := by
  simp only [checkRebalanced, bind_unit_eq_ok, require_eq_ok] at h
  exact h.2

/-- Payees whose amounts moved still fit if they passed the check. -/
theorem Fit.withPayees (hfit : Fit relayDustFee vecSend scriptChange outs)
    {payees : List PlainOutput}
    (hscripts : payees.map PlainOutput.scriptPubKey = outs.payees.map PlainOutput.scriptPubKey)
    (hdust : ∀ o ∈ payees, ¬ o.IsDust relayDustFee) :
    Fit relayDustFee vecSend scriptChange { outs with payees := payees } :=
  ⟨hscripts.trans hfit.scripts, hdust, hfit.change_pos, hfit.change_nonneg, hfit.change_script⟩

theorem Fit.subtractFee (hfit : Fit relayDustFee vecSend scriptChange outs)
    {selected feeNeeded : Int}
    (h : subtractFee relayDustFee vecSend selected feeNeeded outs = .ok outs') :
    Fit relayDustFee vecSend scriptChange outs' ∧ outs'.change = outs.change := by
  unfold WalletSpend.subtractFee at h
  dsimp only at h
  split_ifs at h with hcount
  · simp only [Except.ok.injEq] at h
    exact h ▸ ⟨hfit, rfl⟩
  · obtain ⟨payees, hshare, h⟩ := bind_eq_ok.mp h
    obtain rfl := pure_eq_ok.mp h
    obtain ⟨hscripts, hdust⟩ :=
      shareFee_eq_ok (fun _ => not_isDust_of_checkReduced) hfit.not_dust hshare
    exact ⟨hfit.withPayees hscripts hdust, rfl⟩

theorem map_scriptPubKey_modify (payees : List PlainOutput) (i : Nat) (delta : Int) :
    (payees.modify i fun payee => payee.add delta).map PlainOutput.scriptPubKey =
      payees.map PlainOutput.scriptPubKey := by
  apply List.ext_getElem?
  intro j
  rw [List.getElem?_map, List.getElem?_map, List.getElem?_modify]
  cases payees[j]? with
  | none => simp
  | some payee => by_cases hij : i = j <;> simp [hij, PlainOutput.add]

theorem forall_mem_modify {P : PlainOutput → Prop} {payees : List PlainOutput} {i : Nat}
    {delta : Int} (hpayees : ∀ o ∈ payees, P o) (hi : ∀ o ∈ payees[i]?, P (o.add delta)) :
    ∀ o ∈ payees.modify i (fun payee => payee.add delta), P o := by
  intro o hmem
  obtain ⟨j, hj⟩ := List.mem_iff_getElem?.mp hmem
  rw [List.getElem?_modify] at hj
  cases hget : payees[j]? with
  | none => simp [hget] at hj
  | some payee =>
    rw [hget] at hj
    by_cases hij : i = j
    · subst hij
      simp only [if_true, Option.map_eq_map, Option.map_some, Option.some.injEq] at hj
      exact hj ▸ hi payee hget
    · simp only [hij, if_false, Option.map_eq_map, Option.map_some, Option.some.injEq] at hj
      exact hj ▸ hpayees payee (List.mem_of_getElem? hget)

/-- The payees keep their scripts and stay above dust, or the difference goes to the change; a
surplus without a taker stays in the fee. -/
theorem rebalance_cases {ctx : RoundContext} {feeDiff : Int} {moved : Option Outputs}
    (h : rebalance relayDustFee ctx outs feeDiff = .ok moved) :
    (∃ payees, moved = some { outs with payees := payees } ∧
      payees.map PlainOutput.scriptPubKey = outs.payees.map PlainOutput.scriptPubKey ∧
      ((∀ o ∈ outs.payees, ¬ o.IsDust relayDustFee) → ∀ o ∈ payees, ¬ o.IsDust relayDustFee)) ∨
    (∃ pos change, outs.change = some (pos, change) ∧ 0 ≤ change.nAmount + feeDiff ∧
      moved = some { outs with change := some (pos, change.add feeDiff) }) ∨
    (moved = none ∧ 0 ≤ feeDiff) := by
  unfold rebalance at h
  split at h
  next pos hpos =>
    obtain ⟨hcheck, h⟩ := bind_unit_eq_ok.mp h
    rw [forM_eq_ok] at hcheck
    refine .inl ⟨_, (pure_eq_ok.mp h).symm, map_scriptPubKey_modify _ _ _, fun hdust => ?_⟩
    refine forall_mem_modify hdust fun o ho => not_isDust_of_checkRebalanced (hcheck _ ?_)
    simp [Option.mem_def.mp ho]
  next pos change hpos hchange =>
    split_ifs at h with hneg
    exact .inr (.inl ⟨pos, change, hchange, not_lt.mp hneg, (Except.ok.inj h).symm⟩)
  next hpos hchange =>
    dsimp only at h
    split_ifs at h with hcount hneg
    · obtain ⟨payees, hshare, h⟩ := bind_eq_ok.mp h
      obtain ⟨hscripts, -⟩ :=
        shareFee_eq_ok (P := fun _ => True) (fun _ _ => trivial) (fun _ _ => trivial) hshare
      refine .inl ⟨payees, (pure_eq_ok.mp h).symm, hscripts, fun hdust => ?_⟩
      exact (shareFee_eq_ok (fun _ => not_isDust_of_checkRebalanced) hdust hshare).2
    · exact .inr (.inr ⟨(Except.ok.inj h).symm, not_lt.mp hneg⟩)

theorem Fit.rebalance {ctx : RoundContext} (hfit : Fit relayDustFee vecSend scriptChange outs)
    {feeDiff : Int} (h : rebalance relayDustFee ctx outs feeDiff = .ok (some outs')) :
    Fit relayDustFee vecSend scriptChange outs' := by
  rcases rebalance_cases h with ⟨payees, hmoved, hscripts, hdust⟩ |
    ⟨pos, change, hchange, hneg, hmoved⟩ | ⟨hmoved, -⟩
  · obtain rfl := Option.some.inj hmoved
    exact hfit.withPayees hscripts (hdust hfit.not_dust)
  · obtain rfl := Option.some.inj hmoved
    refine ⟨hfit.scripts, hfit.not_dust, ?_, ?_, ?_⟩
    · simpa using hfit.change_pos (pos, change) hchange
    · simpa [PlainOutput.add] using hneg
    · simpa [PlainOutput.add] using hfit.change_script (pos, change) hchange
  · simp at hmoved

theorem position_rebalance {ctx : RoundContext} {feeDiff : Int}
    (h : WalletSpend.rebalance relayDustFee ctx outs feeDiff = .ok (some outs')) :
    outs'.change.map Prod.fst = outs.change.map Prod.fst := by
  rcases rebalance_cases h with ⟨payees, hmoved, -⟩ | ⟨pos, change, hchange, -, hmoved⟩ | ⟨hmoved, -⟩
  · obtain rfl := Option.some.inj hmoved
    rfl
  · obtain rfl := Option.some.inj hmoved
    rw [hchange]
    rfl
  · simp at hmoved

end Fit

section Sections

variable {𝔾 : Type} {w : Wallet 𝔾} {vecSend : List CRecipient} {change : ChangeDestination}
  {outs outs' : Outputs}

theorem fit_settleEstimate {result : SelectionResult} {plainSize : TxSize}
    (hfit : Fit w.relayDustFee vecSend change.scriptChange outs)
    (h : settleEstimate w vecSend result change plainSize outs = .ok outs') :
    Fit w.relayDustFee vecSend change.scriptChange outs' ∧
      (outs'.change = none ↔ outs.change = none) ∧
      (outs'.change ≠ none → change.scriptChange ≠ []) := by
  unfold settleEstimate at h
  obtain ⟨-, h⟩ := bind_unit_eq_ok.mp h
  obtain ⟨adjusted, hadjust, h⟩ := bind_eq_ok.mp h
  obtain ⟨reduced, hreduce, h⟩ := bind_eq_ok.mp h
  obtain ⟨hscript, h⟩ := bind_unit_eq_ok.mp h
  obtain rfl := pure_eq_ok.mp h
  obtain ⟨hfit, hnone⟩ := hfit.adjustChange hadjust
  obtain ⟨hfit, hsame⟩ := hfit.subtractFee hreduce
  rw [require_eq_ok] at hscript
  exact ⟨hfit, by rw [hsame, hnone], fun hchange hempty => hscript ⟨hempty, hchange⟩⟩

/-- An injected change fits: its payee stays above dust and the change is not negative. -/
theorem fit_injectInto {draw : (n : Nat) → Fin (n + 1)} {scriptChange script : CScript}
    {key : Bytes} {funding : Funding} (hfit : Fit w.relayDustFee vecSend scriptChange outs)
    (h : injectInto w draw script key outs.payees = .ok funding) :
    Fit w.relayDustFee vecSend script funding.outs ∧ funding.outs.change ≠ none ∧
      funding.changeKey = some key := by
  unfold injectInto at h
  dsimp only at h
  split at h
  next => simp at h
  next oi hfind =>
    simp only [Except.ok.injEq] at h
    subst h
    have hcan := List.find?_some hfind
    refine ⟨⟨?_, ?_, ?_, ?_, ?_⟩, by simp, rfl⟩
    · exact (map_scriptPubKey_modify _ _ _).trans hfit.scripts
    · apply forall_mem_modify hfit.not_dust
      intro o ho
      rw [canFund, Option.mem_def.mp ho] at hcan
      simp only [Bool.and_eq_true, Bool.not_eq_true', decide_eq_false_iff_not] at hcan
      exact hcan.2
    · have hlt := (draw outs.payees.length).isLt
      simp only [Option.mem_def, Option.some.injEq, forall_eq', ← hfit.length_payees]
      omega
    · simpa using getDustThreshold_nonneg _ _
    · simp

/-- Change is injected only for the sake of a blinded input. -/
theorem injectChange_eq_ok {draw : (n : Nat) → Fin (n + 1)} {inputBlinds : List Nat}
    {funding : Funding}
    (h : injectChange w draw vecSend change inputBlinds outs = .ok funding) :
    (funding.outs = outs ∧ (outs.change = none ∨
      funding.changeKey = if w.confChange then change.changeKey else none)) ∨
    ((∃ b ∈ inputBlinds, b ≠ 0) ∧
      ∃ script key, script ≠ [] ∧ injectInto w draw script key outs.payees = .ok funding) := by
  unfold injectChange at h
  dsimp only at h
  rw [ite_eq_iff] at h
  rcases h with ⟨⟨-, hnone, hblinds, -⟩, h⟩ | ⟨-, h⟩
  · have hblind : ∃ b ∈ inputBlinds, b ≠ 0 := by simpa using hblinds
    split at h
    next =>
      simp only [Except.ok.injEq] at h
      exact .inl ⟨h ▸ rfl, .inl hnone⟩
    next script key hdest =>
      split_ifs at h with hempty
      · simp only [Except.ok.injEq] at h
        exact .inl ⟨h ▸ rfl, .inl hnone⟩
      · exact .inr ⟨hblind, script, key, hempty, h⟩
  · simp only [Except.ok.injEq] at h
    exact .inl ⟨h ▸ rfl, .inr (h ▸ rfl)⟩

def destKey : CTxDestination → Option Bytes
  | .confidentialKeyHash _ blinding => some blinding
  | .other _ => none

theorem isSome_destKey (dest : CTxDestination) : (destKey dest).isSome = dest.isConfidential := by
  cases dest <;> rfl

theorem outputKeys_eq_ok {changeKey : Option Bytes} {keys : List (Option Bytes)}
    (h : outputKeys vecSend changeKey outs = .ok keys) :
    keys = match outs.change with
      | none => vecSend.map fun recipient => destKey recipient.dest
      | some (pos, _) => (vecSend.map fun recipient => destKey recipient.dest).insertIdx pos
          changeKey := by
  obtain ⟨payeeKeys, hpayees, h⟩ := bind_eq_ok.mp h
  have hkeys : payeeKeys = vecSend.map fun recipient => destKey recipient.dest := by
    refine ((forall₂_iff_eq_map (P := fun recipient => destKey recipient.dest ≠ some [])
      (List.forall₂_same.mpr fun _ _ => rfl) ?_).mp (mapM_eq_ok.mp hpayees)).1
    rintro recipient _ _ key rfl
    rw [recipientKey]
    cases recipient.dest with
    | other script => simp [destKey, eq_comm]
    | confidentialKeyHash spend blinding =>
      by_cases hempty : blinding = [] <;> simp [destKey, hempty, eq_comm]
  obtain rfl := pure_eq_ok.mp h
  subst hkeys
  cases outs.change <;> rfl

/-- All outputs stay explicit just if no recipient is confidential and change has no key. -/
theorem all_isNone_outputKeys {scriptChange : CScript} {changeKey : Option Bytes}
    {keys : List (Option Bytes)} (hfit : Fit w.relayDustFee vecSend scriptChange outs)
    (h : outputKeys vecSend changeKey outs = .ok keys) :
    (keys.map Option.isNone).all id = true ↔
      (∀ recipient ∈ vecSend, recipient.dest.isConfidential = false) ∧
        (outs.change ≠ none → changeKey = none) := by
  have hpayees : (∀ key ∈ vecSend.map fun recipient => destKey recipient.dest, key = none) ↔
      ∀ recipient ∈ vecSend, recipient.dest.isConfidential = false := by
    simp [← isSome_destKey]
  have hall : (keys.map Option.isNone).all id = true ↔ ∀ key ∈ keys, key = none := by simp
  rw [hall, outputKeys_eq_ok h, ← hpayees]
  cases hchange : outs.change with
  | none => simp
  | some c =>
    have hle : c.1 ≤ (vecSend.map fun recipient => destKey recipient.dest).length := by
      rw [List.length_map]
      exact hfit.change_pos c hchange
    simp only [List.mem_insertIdx hle, forall_eq_or_imp, ne_eq, reduceCtorEq, not_false_eq_true,
      forall_const]
    rw [and_comm]

/-! ### What the fee rounds settle on

The rounds move amounts by the difference between the fee left and the fee for the measured size.
Blinding plays no part in it, so the amounts they come to rest at are a function of the outputs
they start from and of the measured sizes. -/

theorem neededFee_nonneg (w : Wallet 𝔾) (ctx : RoundContext) (measured : TxSize) :
    0 ≤ neededFee w ctx measured := by
  have := w.effectiveFeerate.getFee_nonneg measured.vsize
  unfold neededFee
  omega

/-- The outputs at which the rounds come to rest. -/
def settledOutputs (w : Wallet 𝔾) (sizes : Nat → Option TxSize) (ctx : RoundContext) :
    Nat → Nat → Outputs → Outputs
  | left, round, outs =>
    match sizes (round + 1) with
    | none => outs
    | some measured =>
      let feeDiff := ctx.selected - outs.total - neededFee w ctx measured
      if feeDiff = 0 then outs
      else match left with
        | 0 => outs
        | left + 1 =>
          match rebalance w.relayDustFee ctx outs feeDiff with
          | .ok (some outs) => settledOutputs w sizes ctx left (round + 1) outs
          | _ => outs

/-- What rebalancing keeps holds where the rounds come to rest. -/
theorem settledOutputs_of_rebalance {P : Outputs → Prop} {sizes : Nat → Option TxSize}
    {ctx : RoundContext} (hmove : ∀ {outs outs' : Outputs} {feeDiff : Int}, P outs →
      rebalance w.relayDustFee ctx outs feeDiff = .ok (some outs') → P outs') (left : Nat) :
    ∀ {round : Nat} {outs : Outputs}, P outs → P (settledOutputs w sizes ctx left round outs) := by
  induction left with
  | zero =>
    intro round outs hstart
    unfold settledOutputs
    split
    · exact hstart
    · dsimp only
      split_ifs <;> exact hstart
  | succ left ih =>
    intro round outs hstart
    unfold settledOutputs
    split
    next => exact hstart
    next measured hsize =>
      dsimp only
      split_ifs with hdiff
      · exact hstart
      · split
        next outs' hmoved => exact ih (hmove hstart hmoved)
        next => exact hstart

theorem position_settledOutputs {sizes : Nat → Option TxSize} {ctx : RoundContext}
    {left round : Nat} : (settledOutputs w sizes ctx left round outs).change.map Prod.fst =
      outs.change.map Prod.fst :=
  settledOutputs_of_rebalance (P := fun o => o.change.map Prod.fst = outs.change.map Prod.fst)
    (fun hsame hmove => (position_rebalance hmove).trans hsame) left rfl

variable {result : SelectionResult} {built : Built}

/-! ### Which version a transaction gets -/

def knownCoin (w : Wallet 𝔾) (coin : COutput) : KnownCoin :=
  ⟨coin.txout, coin.value, if coin.txout.nValue.IsExplicit then 0
    else ((w.unblindConfidentialOutput coin.txout).map Prod.snd).getD 0⟩

theorem blind_knownCoin_ne_zero {coin : COutput} :
    (knownCoin w coin).blind ≠ 0 ↔ ¬ coin.txout.nValue.IsExplicit ∧
      ∃ value blind, w.unblindConfidentialOutput coin.txout = some (value, blind) ∧ blind ≠ 0 := by
  unfold knownCoin
  by_cases hexplicit : coin.txout.nValue.IsExplicit
  · simp [hexplicit]
  · cases w.unblindConfidentialOutput coin.txout with
    | none => simp [hexplicit]
    | some found => simp [hexplicit, Prod.ext_iff]

theorem mapM_inputBlind_eq_ok {coins : List COutput} {inputBlinds : List Nat} :
    coins.mapM (inputBlind w) = .ok inputBlinds ↔
      inputBlinds = coins.map (fun coin => (knownCoin w coin).blind) ∧
        ∀ coin ∈ coins, ¬ coin.txout.nValue.IsExplicit →
          (w.unblindConfidentialOutput coin.txout).isSome := by
  rw [mapM_eq_ok]
  apply forall₂_iff_eq_map (List.forall₂_same.mpr fun _ _ => rfl)
  rintro coin _ _ blind rfl
  unfold inputBlind knownCoin
  by_cases hexplicit : coin.txout.nValue.IsExplicit
  · simp only [hexplicit, if_true, Except.ok.injEq, not_true, false_implies, and_true]
    exact eq_comm
  · cases w.unblindConfidentialOutput coin.txout with
    | none => simp [hexplicit]
    | some found =>
      simp only [hexplicit, if_false, Except.ok.injEq, Option.map_some, Option.getD_some,
        Option.isSome_some, implies_true, and_true]
      exact eq_comm

theorem planConfidential_eq_ok {draw : (n : Nat) → Fin (n + 1)} {plan : Plan}
    (h : planConfidential w draw vecSend result change outs = .ok plan) :
    plan.inputBlinds = result.coins.map (fun coin => (knownCoin w coin).blind) ∧
      (∀ coin ∈ result.coins, ¬ coin.txout.nValue.IsExplicit →
        (w.unblindConfidentialOutput coin.txout).isSome) ∧
      injectChange w draw vecSend change plan.inputBlinds outs = .ok plan.funding ∧
      recipientKeys w vecSend plan.funding = .ok plan.keys := by
  obtain ⟨inputBlinds, hblinds, h⟩ := bind_eq_ok.mp h
  obtain ⟨funding, hfunding, h⟩ := bind_eq_ok.mp h
  obtain ⟨keys, hkeys, h⟩ := bind_eq_ok.mp h
  obtain rfl := pure_eq_ok.mp h
  obtain ⟨heq, hsome⟩ := mapM_inputBlind_eq_ok.mp hblinds
  exact ⟨heq, hsome, hfunding, hkeys⟩

/-- When a transaction stays plain, in terms of what the wallet was given. -/
theorem usePlainV2_iff {draw : (n : Nat) → Fin (n + 1)} {plan : Plan}
    (hfit : Fit w.relayDustFee vecSend change.scriptChange outs) (hsend : vecSend ≠ [])
    (hmode : w.elementsMode = true)
    (h : planConfidential w draw vecSend result change outs = .ok plan) :
    plan.usePlainV2 w.ctlegacy = true ↔
      w.ctlegacy = false ∧ (∀ recipient ∈ vecSend, recipient.dest.isConfidential = false) ∧
        (outs.change ≠ none → change.changeKey = none) ∧
        ∀ coin ∈ result.coins, (knownCoin w coin).blind = 0 := by
  obtain ⟨hblinds, -, hinject, hkeys⟩ := planConfidential_eq_ok h
  have hplain : plan.usePlainV2 w.ctlegacy = true ↔ w.ctlegacy = false ∧ plan.keys ≠ [] ∧
      (plan.keys.map Option.isNone).all id = true ∧ ∀ b ∈ plan.inputBlinds, b = 0 := by
    simp [Plan.usePlainV2, Plan.explicitOutputs, and_assoc]
  have hzero : (∀ b ∈ plan.inputBlinds, b = 0) ↔
      ∀ coin ∈ result.coins, (knownCoin w coin).blind = 0 := by
    rw [hblinds, List.forall_mem_map]
  rw [hplain, ← hzero]
  unfold recipientKeys at hkeys
  by_cases hlegacy : w.ctlegacy = true
  · simp [hlegacy]
  rw [if_neg hlegacy] at hkeys
  have hnonempty : plan.keys ≠ [] := by
    rw [outputKeys_eq_ok hkeys]
    cases plan.funding.outs.change with
    | none => simpa using hsend
    | some c =>
      apply List.ne_nil_of_length_pos
      have := List.length_pos_of_ne_nil hsend
      grind [List.length_insertIdx]
  rcases injectChange_eq_ok hinject with ⟨houts, hkey⟩ | ⟨hblind, script, key, -, hinto⟩
  · rw [houts] at hkeys
    have hconf : w.confChange = true := by simp [Wallet.confChange, hmode, hlegacy]
    rw [hconf, if_pos rfl] at hkey
    rw [all_isNone_outputKeys hfit hkeys]
    have hchange : (outs.change ≠ none → plan.funding.changeKey = none) ↔
        (outs.change ≠ none → change.changeKey = none) := by
      rcases hkey with hnone | hkey
      · simp [hnone]
      · rw [hkey]
    rw [hchange, and_iff_right hnonempty, and_assoc]
  · -- a change output was injected for an input with a factor
    obtain ⟨b, hb, hne⟩ := hblind
    exact ⟨fun hall => absurd (hall.2.2.2 b hb) hne, fun hall => absurd (hall.2.2.2 b hb) hne⟩

theorem finishTransaction_eq_ok {sign : Bool} {unsigned : Built}
    (h : finishTransaction w sign unsigned = .ok built) :
    built.fee = unsigned.fee ∧ built.tx.nVersion = unsigned.tx.nVersion ∧
      built.tx.vout = unsigned.tx.vout ∧
      built.tx.vin.map CTxIn.prevout = unsigned.tx.vin.map CTxIn.prevout := by
  obtain ⟨tx, hsigned, h⟩ := bind_eq_ok.mp h
  obtain ⟨-, h⟩ := bind_unit_eq_ok.mp h
  obtain ⟨-, h⟩ := bind_unit_eq_ok.mp h
  obtain ⟨-, h⟩ := bind_unit_eq_ok.mp h
  obtain rfl := pure_eq_ok.mp h
  refine ⟨rfl, ?_⟩
  unfold signedTransaction at hsigned
  cases sign with
  | false =>
    simp only [Bool.false_eq_true, if_false, Except.ok.injEq] at hsigned
    subst hsigned
    exact ⟨rfl, rfl, rfl⟩
  | true =>
    simp only [if_true] at hsigned
    split at hsigned
    next => simp at hsigned
    next signatures _ =>
      simp only [Except.ok.injEq] at hsigned
      subst hsigned
      refine ⟨rfl, rfl, ?_⟩
      conv_rhs => rw [← List.zipIdx_map_fst 0 unsigned.tx.vin]
      simp only [applySignatures, List.map_map]
      rfl

theorem fit_plainOutputs {draw : (n : Nat) → Fin (n + 1)} {size : Option TxSize}
    {changePos : Option Nat} {plainSize : TxSize}
    (h : plainOutputs w draw size vecSend changePos result change = .ok (outs, plainSize)) :
    Fit w.relayDustFee vecSend change.scriptChange outs ∧
      (outs.change = none ↔ result.changeAmount ≤ 0) ∧
      (outs.change ≠ none → change.scriptChange ≠ []) := by
  obtain ⟨payees, hpayees, h⟩ := bind_eq_ok.mp h
  obtain ⟨plain, hadd, h⟩ := bind_eq_ok.mp h
  obtain ⟨plainSize, -, h⟩ := bind_eq_ok.mp h
  obtain ⟨settled, hsettle, h⟩ := bind_eq_ok.mp h
  obtain ⟨rfl, -⟩ := Prod.mk.inj (pure_eq_ok.mp h)
  obtain ⟨hfit, hnone⟩ := fit_addChange hpayees hadd
  obtain ⟨hfit, hsame, hscript⟩ := fit_settleEstimate hfit hsettle
  exact ⟨hfit, hsame.trans hnone, hscript⟩

section Rounds

variable [AddCommGroup 𝔾] [Module Scalar 𝔾] [DecidableEq 𝔾]

variable {draws : Draws w.blindEnv.getPubKey} {ctx : RoundContext} {txNew : CTransaction}

/-- One round: it ends with a fee that pays for the measured size, or rebalances and goes on. -/
theorem feeRounds_cases {left round : Nat} {outs : Outputs}
    (h : feeRounds w draws ctx txNew left round outs = .ok built) :
    (∃ blinded measured, blindTransaction w.blindEnv (draws.blinding round) ctx.inputBlinds
        { txNew with vout := outs.vout.map PlainOutput.toTxOut } ctx.recipientKeys
        ctx.explicitOutputs true = some blinded ∧
      draws.maximumSignedTxSize (round + 1) = some measured ∧
      settledOutputs w draws.maximumSignedTxSize ctx left round outs = outs ∧
      neededFee w ctx measured ≤ ctx.selected - outs.total ∧
      built = ⟨blinded.tx, ctx.selected - outs.total, measured⟩) ∨
    ∃ left' outs', left = left' + 1 ∧
      settledOutputs w draws.maximumSignedTxSize ctx left round outs =
        settledOutputs w draws.maximumSignedTxSize ctx left' (round + 1) outs' ∧
      feeRounds w draws ctx txNew left' (round + 1) outs' = .ok built := by
  unfold feeRounds at h
  rw [settledOutputs]
  split at h
  next => simp at h
  next blinded hblind =>
    dsimp only at h
    split at h
    next => simp at h
    next measured hsize =>
      simp only [hsize]
      by_cases hpaid : ctx.selected - outs.total = neededFee w ctx measured
      · rw [if_pos hpaid, Except.ok.injEq] at h
        rw [if_pos (sub_eq_zero.mpr hpaid)]
        exact .inl ⟨blinded, measured, hblind, rfl, rfl, hpaid.ge, h.symm⟩
      · rw [if_neg hpaid] at h
        rw [if_neg (sub_ne_zero.mpr hpaid)]
        cases left with
        | zero =>
          split_ifs at h with hless
          rw [Except.ok.injEq] at h
          exact .inl ⟨blinded, measured, hblind, rfl, rfl, not_lt.mp hless, h.symm⟩
        | succ left =>
          cases hmove : rebalance w.relayDustFee ctx outs
              (ctx.selected - outs.total - neededFee w ctx measured) with
          | error e => simp [hmove] at h
          | ok moved =>
            simp only [hmove] at h
            cases moved with
            | none =>
              have hdiff : 0 ≤ ctx.selected - outs.total - neededFee w ctx measured := by
                simpa using rebalance_cases hmove
              rw [Except.ok.injEq] at h
              exact .inl ⟨blinded, measured, hblind, rfl, rfl, sub_nonneg.mp hdiff, h.symm⟩
            | some outs' => exact .inr ⟨left, outs', rfl, rfl, h⟩

/-- The rounds return the settled outputs, blinded, with the fee they leave. -/
theorem feeRounds_eq_ok (left : Nat) : ∀ {round : Nat} {outs : Outputs},
    feeRounds w draws ctx txNew left round outs = .ok built →
      ∃ r blinded, blindTransaction w.blindEnv (draws.blinding r) ctx.inputBlinds
          { txNew with vout := (settledOutputs w draws.maximumSignedTxSize ctx left round
            outs).vout.map PlainOutput.toTxOut }
          ctx.recipientKeys ctx.explicitOutputs true = some blinded ∧
        built.tx = blinded.tx ∧
        built.fee = ctx.selected -
          (settledOutputs w draws.maximumSignedTxSize ctx left round outs).total ∧
        ∃ measured, draws.maximumSignedTxSize (r + 1) = some measured ∧
          neededFee w ctx measured ≤ built.fee := by
  induction left with
  | zero =>
    intro round outs h
    rcases feeRounds_cases h with ⟨blinded, measured, hblind, hsize, hsame, hpays, rfl⟩ |
      ⟨left', outs', hleft, -⟩
    · rw [hsame]
      exact ⟨round, blinded, hblind, rfl, rfl, measured, hsize, hpays⟩
    · simp at hleft
  | succ left ih =>
    intro round outs h
    rcases feeRounds_cases h with ⟨blinded, measured, hblind, hsize, hsame, hpays, rfl⟩ |
      ⟨left', outs', hleft, hsame, h⟩
    · rw [hsame]
      exact ⟨round, blinded, hblind, rfl, rfl, measured, hsize, hpays⟩
    · obtain rfl := Nat.succ.inj hleft
      rw [hsame]
      exact ih h

def feeOutputs (fee : Int) : List CTxOut := if 0 < fee then [.ofAmount fee []] else []

theorem buildConfidential_eq_ok (h : buildConfidential w draws ctx txNew outs = .ok built) :
    ∃ r blinded, blindTransaction w.blindEnv (draws.blinding r) ctx.inputBlinds
        { txNew with
          nVersion := CT_VERSION
          vout := (settledOutputs w draws.maximumSignedTxSize ctx (maxCTFeeRounds - 1) 0
            outs).vout.map PlainOutput.toTxOut }
        ctx.recipientKeys ctx.explicitOutputs true = some blinded ∧
      built.tx = { blinded.tx with vout := blinded.tx.vout ++ feeOutputs built.fee } ∧
      built.fee = ctx.selected -
        (settledOutputs w draws.maximumSignedTxSize ctx (maxCTFeeRounds - 1) 0 outs).total ∧
      ∃ measured, draws.maximumSignedTxSize (r + 1) = some measured ∧
        neededFee w ctx measured ≤ built.fee := by
  obtain ⟨-, h⟩ := bind_unit_eq_ok.mp h
  obtain ⟨inner, hrounds, h⟩ := bind_eq_ok.mp h
  obtain ⟨r, blinded, hblind, htx, hfee, hpays⟩ := feeRounds_eq_ok _ hrounds
  obtain rfl := pure_eq_ok.mp h
  refine ⟨r, blinded, hblind, ?_⟩
  unfold feeOutputs
  by_cases hpos : 0 < inner.fee
  · simp only [gt_iff_lt, hpos, if_true]
    exact ⟨by rw [← htx]; rfl, hfee, hpays⟩
  · simp only [gt_iff_lt, hpos, if_false, List.append_nil]
    exact ⟨htx, hfee, hpays⟩

theorem nVersion_buildConfidential (h : buildConfidential w draws ctx txNew outs = .ok built) :
    built.tx.nVersion = CT_VERSION := by
  obtain ⟨r, blinded, hblind, htx, -⟩ := buildConfidential_eq_ok h
  obtain ⟨-, hsame, -⟩ := blindTransaction_eq_some hblind
  rw [htx]
  change blinded.tx.nVersion = CT_VERSION
  rw [hsame]

theorem vin_buildConfidential (h : buildConfidential w draws ctx txNew outs = .ok built) :
    built.tx.vin = txNew.vin := by
  obtain ⟨r, blinded, hblind, htx, -⟩ := buildConfidential_eq_ok h
  obtain ⟨-, hsame, -⟩ := blindTransaction_eq_some hblind
  rw [htx]
  change blinded.tx.vin = txNew.vin
  rw [hsame]

theorem nVersion_confidentialSection {plainSize : TxSize}
    (hfit : Fit w.relayDustFee vecSend change.scriptChange outs) (hsend : vecSend ≠ [])
    (hmode : w.elementsMode = true)
    (h : confidentialSection w draws vecSend result change txNew plainSize outs = .ok built) :
    built.tx.nVersion ≠ CT_VERSION ↔
      w.ctlegacy = false ∧ (∀ recipient ∈ vecSend, recipient.dest.isConfidential = false) ∧
        (outs.change ≠ none → change.changeKey = none) ∧
        ∀ coin ∈ result.coins, (knownCoin w coin).blind = 0 := by
  obtain ⟨plan, hplan, h⟩ := bind_eq_ok.mp h
  rw [← usePlainV2_iff hfit hsend hmode hplan]
  split_ifs at h with hplain
  · obtain rfl := pure_eq_ok.mp h
    have hne : CTransaction.CURRENT_VERSION ≠ CT_VERSION := by decide
    exact iff_of_true hne hplain
  · exact iff_of_false (not_not.mpr (nVersion_buildConfidential h)) hplain

theorem createTransactionInternal_eq_ok {changePos : Option Nat} {control : CCoinControl}
    {sign : Bool}
    (h : createTransactionInternal w draws vecSend changePos control result change sign =
      .ok built) :
    ∃ outs plainSize txNew unsigned,
      plainOutputs w draws.changePos (draws.maximumSignedTxSize 0) vecSend changePos result change =
        .ok (outs, plainSize) ∧
      txNew.nVersion = control.version.getD CTransaction.CURRENT_VERSION ∧
      txNew.vin = selectedInputs control result.coins ∧
      buildTransaction w draws vecSend result change txNew plainSize outs = .ok unsigned ∧
      finishTransaction w sign unsigned = .ok built := by
  obtain ⟨⟨outs, plainSize⟩, hplain, h⟩ := bind_eq_ok.mp h
  obtain ⟨unsigned, hbuild, hfinish⟩ := bind_eq_ok.mp h
  exact ⟨outs, plainSize, _, unsigned, hplain, rfl, rfl, hbuild, hfinish⟩

end Rounds

/-! ### Outputs and their keys -/

theorem slot_cases {scriptChange : CScript} {changeKey : Option Bytes} {keys : List (Option Bytes)}
    {position : Outputs} (hfit : Fit w.relayDustFee vecSend scriptChange outs)
    (hposition : outs.change.map Prod.fst = position.change.map Prod.fst)
    (hkeys : outputKeys vecSend changeKey position = .ok keys) :
    outs.vout.length = keys.length ∧
    ∀ {j : Nat} {o : PlainOutput} {key : Option Bytes}, outs.vout[j]? = some o →
      keys[j]? = some key →
        (o ∈ outs.payees ∧ ∃ recipient ∈ vecSend,
          o.scriptPubKey = getScriptForDestination recipient.dest ∧
          key = destKey recipient.dest) ∨
        (outs.change ≠ none ∧ o.scriptPubKey = scriptChange ∧ key = changeKey) := by
  have hpayee : ∀ {j : Nat} {o : PlainOutput} {key : Option Bytes}, outs.payees[j]? = some o →
      (vecSend.map fun recipient => destKey recipient.dest)[j]? = some key →
      o ∈ outs.payees ∧ ∃ recipient ∈ vecSend,
        o.scriptPubKey = getScriptForDestination recipient.dest ∧
        key = destKey recipient.dest := by
    intro j o key ho hkey
    rw [List.getElem?_map, Option.map_eq_some_iff] at hkey
    obtain ⟨recipient, hrecipient, rfl⟩ := hkey
    have hscript := congrArg (fun l => l[j]?) hfit.scripts
    simp only [List.getElem?_map, ho, hrecipient, Option.map_some, Option.some.injEq] at hscript
    exact ⟨List.mem_of_getElem? ho, recipient, List.mem_of_getElem? hrecipient, hscript, rfl⟩
  rw [outputKeys_eq_ok hkeys]
  cases hchange : outs.change with
  | none =>
    rw [hchange, Option.map_none, eq_comm, Option.map_eq_none_iff] at hposition
    simp only [Outputs.vout, hchange, hposition]
    exact ⟨by simpa using hfit.length_payees, fun ho hkey => .inl (hpayee ho hkey)⟩
  | some c =>
    obtain ⟨pos, o₀⟩ := c
    rw [hchange, Option.map_some, eq_comm, Option.map_eq_some_iff] at hposition
    obtain ⟨⟨pos', o₁⟩, hposition, hpos⟩ := hposition
    obtain rfl : pos' = pos := hpos
    have hle := hfit.change_pos _ hchange
    have hscript := hfit.change_script _ hchange
    simp only [Outputs.vout, hchange, hposition]
    refine ⟨?_, fun {j} {o} {key} ho hkey => ?_⟩
    · rw [List.length_insertIdx, List.length_insertIdx, List.length_map, hfit.length_payees]
    · rw [List.getElem?_insertIdx] at ho hkey
      rcases Nat.lt_trichotomy j pos' with hlt | rfl | hgt
      · rw [if_pos hlt] at ho hkey
        exact .inl (hpayee ho hkey)
      · rw [if_neg (Nat.lt_irrefl _), if_pos rfl, if_pos (by rwa [hfit.length_payees]),
          Option.some.injEq] at ho
        rw [if_neg (Nat.lt_irrefl _), if_pos rfl, if_pos (by rwa [List.length_map]),
          Option.some.injEq] at hkey
        exact .inr ⟨by simp, ho ▸ hscript, hkey.symm⟩
      · rw [if_neg (by omega), if_neg (by omega)] at ho hkey
        exact .inl (hpayee ho hkey)

theorem fit_injectChange {draw : (n : Nat) → Fin (n + 1)} {inputBlinds : List Nat}
    {funding : Funding} (hfit : Fit w.relayDustFee vecSend change.scriptChange outs)
    (hscript : outs.change ≠ none → change.scriptChange ≠ [])
    (h : injectChange w draw vecSend change inputBlinds outs = .ok funding) :
    ∃ script, Fit w.relayDustFee vecSend script funding.outs ∧
      (funding.outs.change ≠ none → script ≠ []) := by
  rcases injectChange_eq_ok h with ⟨houts, -⟩ | ⟨-, script, key, hne, hinto⟩
  · exact ⟨change.scriptChange, houts ▸ hfit, houts ▸ hscript⟩
  · exact ⟨script, (fit_injectInto hfit hinto).1, fun _ => hne⟩

theorem moneyRange_of_total {scriptChange : CScript} {selected : Int}
    (hfit : Fit w.relayDustFee vecSend scriptChange outs) (hselected : MoneyRange selected)
    (htotal : outs.total ≤ selected) : ∀ o ∈ outs.vout, MoneyRange o.nAmount := by
  intro o hmem
  have hnonneg := hfit.nonneg_vout
  refine ⟨hnonneg o hmem, ?_⟩
  have hle : o.nAmount ≤ outs.total := by
    apply List.single_le_sum
    · intro x hx
      obtain ⟨o', hmem', rfl⟩ := List.mem_map.mp hx
      exact hnonneg o' hmem'
    · exact List.mem_map_of_mem hmem
  exact (hle.trans htotal).trans hselected.2

theorem isFee_toTxOut (o : PlainOutput) : o.toTxOut.IsFee ↔ o.scriptPubKey = [] := by
  simp [CTxOut.IsFee, PlainOutput.toTxOut, CTxOut.ofAmount]

theorem isBlinded_eq_isSome {keys : List (Option Bytes)} {j : Nat} {o : PlainOutput}
    {key : Option Bytes} (hkey : keys[j]? = some key) (hscript : key ≠ none → o.scriptPubKey ≠ []) :
    isBlinded (some (keys.map Option.isNone)) (o.toTxOut, j) = key.isSome := by
  cases key with
  | none => simp [isBlinded, hkey]
  | some key =>
    have hfee : ¬ o.toTxOut.IsFee := by
      rw [isFee_toTxOut]
      exact hscript (by simp)
    simp [isBlinded, hkey, hfee]

/-- A property of the outputs at their indices, read over the outputs with their keys. -/
theorem forall_zipIdx_iff_forall_zip {keys : List (Option Bytes)} {vout : List PlainOutput}
    {P : CTxOut × Nat → Prop} {Q : PlainOutput × Option Bytes → Prop}
    (hlen : vout.length = keys.length)
    (hPQ : ∀ j o key, vout[j]? = some o → keys[j]? = some key → (P (o.toTxOut, j) ↔ Q (o, key))) :
    (∀ entry ∈ (vout.map PlainOutput.toTxOut).zipIdx, P entry) ↔ ∀ p ∈ vout.zip keys, Q p := by
  constructor
  · rintro h ⟨o, key⟩ hmem
    obtain ⟨j, hj⟩ := List.mem_iff_getElem?.mp hmem
    obtain ⟨ho, hkey⟩ := List.getElem?_zip_eq_some.mp hj
    refine (hPQ j o key ho hkey).mp (h _ ?_)
    simp [List.mem_zipIdx_iff_getElem?, ho]
  · rintro h ⟨out, j⟩ hmem
    rw [List.mem_zipIdx_iff_getElem?, List.getElem?_map, Option.map_eq_some_iff] at hmem
    obtain ⟨o, ho, rfl⟩ := hmem
    obtain ⟨hj, -⟩ := List.getElem?_eq_some_iff.mp ho
    obtain ⟨key, hkey⟩ : ∃ key, keys[j]? = some key :=
      ⟨_, List.getElem?_eq_getElem (hlen ▸ hj)⟩
    refine (hPQ j o key ho hkey).mpr (h _ ?_)
    exact List.mem_iff_getElem?.mpr ⟨j, List.getElem?_zip_eq_some.mpr ⟨ho, hkey⟩⟩

/-! ### Committed coins in plain transactions -/

section Plain

variable [AddCommGroup 𝔾] [Module Scalar 𝔾] [DecidableEq 𝔾]

/-- **When a plain transaction can only spend explicit coins**: the wallet judges by the blinding
factors, so that a committed coin with factor zero passes for an explicit one. -/
theorem plain_spends_explicit_iff (w : Wallet 𝔾) (draws : Draws w.blindEnv.getPubKey)
    (vecSend : List CRecipient) (changePos : Option Nat) (control : CCoinControl)
    (result : SelectionResult) (change : ChangeDestination) (sign : Bool) (built : Built)
    (hsend : vecSend ≠ [])
    (h : createTransactionInternal w draws vecSend changePos control result change sign =
      .ok built) :
    (built.tx.nVersion ≠ CT_VERSION → ∀ coin ∈ result.coins, coin.txout.nValue.IsExplicit) ↔
      (∀ coin ∈ result.coins, coin.txout.nValue.IsExplicit) ∨
      (w.elementsMode = true ∧ (w.ctlegacy = true ∨
        (∃ recipient ∈ vecSend, recipient.dest.isConfidential = true) ∨
        (0 < result.changeAmount ∧ change.changeKey ≠ none) ∨
        ∃ coin ∈ result.coins, ¬ coin.txout.nValue.IsExplicit ∧
          ∃ value blind, w.unblindConfidentialOutput coin.txout = some (value, blind) ∧
            blind ≠ 0)) ∨
      (w.elementsMode = false ∧ control.version = some CT_VERSION) := by
  obtain ⟨outs, plainSize, txNew, unsigned, hplain, hversion, -, hbuild, hfinish⟩ :=
    createTransactionInternal_eq_ok h
  obtain ⟨hfit, hnone, -⟩ := fit_plainOutputs hplain
  rw [(finishTransaction_eq_ok hfinish).2.1]
  unfold buildTransaction at hbuild
  cases hmode : w.elementsMode with
  | false =>
    simp only [hmode, Bool.false_eq_true, false_and, if_false, Except.ok.injEq] at hbuild
    subst hbuild
    have hcontrol : txNew.nVersion ≠ CT_VERSION ↔ ¬ control.version = some CT_VERSION := by
      rw [hversion, not_iff_not]
      cases control.version with
      | none => exact iff_of_false (by decide) (by simp)
      | some version => simp
    rw [hcontrol]
    simp only [Bool.false_eq_true, false_and, true_and, false_or]
    rw [← or_iff_not_imp_left, or_comm]
  | true =>
    have hvout : outs.vout ≠ [] := by
      apply List.ne_nil_of_length_pos
      exact (List.length_pos_of_ne_nil hsend).trans_le hfit.length_vout
    rw [if_pos ⟨hmode, hvout⟩] at hbuild
    have hblind : (∀ coin ∈ result.coins, (knownCoin w coin).blind = 0) ↔
        ¬ ∃ coin ∈ result.coins, ¬ coin.txout.nValue.IsExplicit ∧
          ∃ value blind, w.unblindConfidentialOutput coin.txout = some (value, blind) ∧
            blind ≠ 0 := by
      simp only [← blind_knownCoin_ne_zero]
      simp
    have hchange : (outs.change ≠ none → change.changeKey = none) ↔
        ¬ (0 < result.changeAmount ∧ change.changeKey ≠ none) := by
      rw [ne_eq, hnone, not_le, not_and, not_ne_iff]
    have hrecipients : (∀ recipient ∈ vecSend, recipient.dest.isConfidential = false) ↔
        ¬ ∃ recipient ∈ vecSend, recipient.dest.isConfidential = true := by simp
    have hlegacy : w.ctlegacy = false ↔ ¬ w.ctlegacy = true := by simp
    rw [nVersion_confidentialSection hfit hsend hmode hbuild, hblind, hchange, hrecipients, hlegacy]
    simp only [true_and, Bool.true_eq_false, false_and, or_false]
    rw [← not_or, ← not_or, ← not_or, ← or_iff_not_imp_left, or_comm]

end Plain

/-! ### Version 3 transactions balance -/

section Balance

variable [AddCommGroup 𝔾] [Module Scalar 𝔾] [DecidableEq 𝔾]

/-- The wallet's record of a coin is true: the value is that of the coin, and what unblinding
finds opens its commitment. -/
def TrueCoin (w : Wallet 𝔾) (coin : COutput) : Prop :=
  (coin.txout.nValue.IsExplicit ∧ coin.txout.nValue.getAmount = coin.value) ∨
  (coin.txout.nValue.IsCommitment ∧ ∀ value blind,
    w.unblindConfidentialOutput coin.txout = some (value, blind) →
      w.blindEnv.commitmentParse coin.txout.nValue.vchCommitment =
        some (w.blindEnv.generators.commit (coin.value : Scalar) (blind : Scalar)))

/-- The outputs that the wallet plans for, with their keys, once the fee rounds have settled the fee
for the measured sizes. -/
def plannedOutputs (w : Wallet 𝔾) (draws : Draws w.blindEnv.getPubKey)
    (vecSend : List CRecipient) (changePos : Option Nat) (result : SelectionResult)
    (change : ChangeDestination) : Except String (Outputs × List (Option Bytes)) := do
  let (outs, _) ← plainOutputs w draws.changePos (draws.maximumSignedTxSize 0) vecSend changePos
    result change
  let plan ← planConfidential w draws.injectedPos vecSend result change outs
  return (settledOutputs w draws.maximumSignedTxSize (plan.roundContext vecSend result)
    (maxCTFeeRounds - 1) 0 plan.funding.outs, plan.keys)

/-- No amount in the clear is zero, no confidential one has more than 57 bits, and a fee is left
(or paid to a recipient without a script). -/
structure Verifiable (result : SelectionResult) (outs : Outputs) (keys : List (Option Bytes)) :
    Prop where
  coins : ∀ coin ∈ result.coins, coin.txout.nValue.IsExplicit → coin.value ≠ 0
  plain : ∀ p ∈ outs.vout.zip keys, p.2 = none → p.1.nAmount ≠ 0
  confidential : ∀ p ∈ outs.vout.zip keys, p.2 ≠ none → p.1.nAmount < 2 ^ 57
  fee : 0 < result.getSelectedValue - outs.total ∨ ∃ o ∈ outs.vout, o.scriptPubKey = []

omit [DecidableEq 𝔾] in
theorem opens_knownCoin {coin : COutput} (htrue : TrueCoin w coin)
    (hsome : ¬ coin.txout.nValue.IsExplicit → (w.unblindConfidentialOutput coin.txout).isSome) :
    (knownCoin w coin).Opens w.blindEnv := by
  rcases htrue with ⟨hexplicit, hvalue⟩ | ⟨hcommit, hopen⟩
  · exact .inl ⟨hexplicit, hvalue, by simp [knownCoin, hexplicit]⟩
  · have hnot := hcommit.not_isExplicit
    obtain ⟨⟨value, blind⟩, hfound⟩ := Option.isSome_iff_exists.mp (hsome hnot)
    refine .inr ⟨hcommit, ?_⟩
    have hblind : (knownCoin w coin).blind = blind := by simp [knownCoin, hnot, hfound]
    rw [hblind]
    exact hopen value blind hfound

theorem sum_feeOutputs {fee : Int} (hrange : MoneyRange fee) :
    (∀ out ∈ feeOutputs fee, out.IsFee ∧ out.nValue.getAmount = fee ∧ 0 < fee) ∧
      ((feeOutputs fee).map fun out => out.nValue.getAmount).sum = fee := by
  have hamount : (CTxOut.ofAmount fee []).nValue.getAmount = fee :=
    CConfidentialValue.getAmount_ofAmount hrange.isInt64
  unfold feeOutputs
  split_ifs with hpos
  · simp [hamount, isFee_ofAmount, hpos]
  · have := hrange.1
    simp only [List.not_mem_nil, false_implies, implies_true, List.map_nil, List.sum_nil, true_and]
    omega

omit [AddCommGroup 𝔾] [Module Scalar 𝔾] [DecidableEq 𝔾] in
/-- A confidential destination and the change have scripts, so no fee-shaped output has a key. -/
theorem script_ne_nil_of_key {script : CScript} {position : Outputs} {changeKey : Option Bytes}
    {keys : List (Option Bytes)} (hfit : Fit w.relayDustFee vecSend script outs)
    (hscript : outs.change ≠ none → script ≠ [])
    (hposition : outs.change.map Prod.fst = position.change.map Prod.fst)
    (hkeys : outputKeys vecSend changeKey position = .ok keys) {j : Nat} {o : PlainOutput}
    {key : Option Bytes} (ho : outs.vout[j]? = some o) (hkey : keys[j]? = some key)
    (hne : key ≠ none) : o.scriptPubKey ≠ [] := by
  rcases (slot_cases hfit hposition hkeys).2 ho hkey with
    ⟨-, recipient, -, hsame, rfl⟩ | ⟨hchange, hsame, -⟩
  · rw [hsame]
    cases hdest : recipient.dest with
    | other script => simp [hdest, destKey] at hne
    | confidentialKeyHash spend blinding => simp [getScriptForDestination]
  · rw [hsame]
    exact hscript hchange

theorem getAmount_toTxOut {o : PlainOutput} (h : MoneyRange o.nAmount) :
    o.toTxOut.nValue.getAmount = o.nAmount :=
  CConfidentialValue.getAmount_ofAmount h.isInt64

/-- The fee the verifier finds: the fee output and whatever went to recipients without script. -/
theorem feeAmount_sum_pos_iff {vout : List PlainOutput} {fee : Int} (hfee : MoneyRange fee)
    (hrange : ∀ o ∈ vout, MoneyRange o.nAmount)
    (hplain : ∀ o ∈ vout, o.scriptPubKey = [] → o.nAmount ≠ 0) :
    let total := ((vout.map PlainOutput.toTxOut ++ feeOutputs fee).map feeAmount).sum
    0 ≤ total ∧ (0 < total ↔ 0 < fee ∨ ∃ o ∈ vout, o.scriptPubKey = []) := by
  induction vout with
  | nil =>
    obtain ⟨hfees, hsum⟩ := sum_feeOutputs hfee
    have hsame : (feeOutputs fee).map feeAmount =
        (feeOutputs fee).map fun out => out.nValue.getAmount :=
      List.map_congr_left fun out hmem => if_pos (hfees out hmem).1
    simp only [List.map_nil, List.nil_append, hsame, hsum, List.not_mem_nil, false_and,
      exists_false, or_false, and_true]
    exact hfee.1
  | cons o vout ih =>
    rw [List.forall_mem_cons] at hrange hplain
    obtain ⟨hnonneg, hiff⟩ := ih hrange.2 hplain.2
    have ho := hrange.1.1
    have hfirst : feeAmount o.toTxOut = if o.scriptPubKey = [] then o.nAmount else 0 := by
      simp only [feeAmount, isFee_toTxOut, getAmount_toTxOut hrange.1]
    simp only [List.map_cons, List.cons_append, List.sum_cons, hfirst, List.exists_mem_cons_iff]
    by_cases hempty : o.scriptPubKey = []
    · have hne := hplain.1 hempty
      simp only [hempty, if_true, true_or, or_true, iff_true]
      omega
    · simp only [hempty, if_false, zero_add, false_or]
      exact ⟨hnonneg, hiff⟩

/-- The verifier on blinded outputs with a fee output, by amounts and keys. -/
theorem verifyBalance_blinded_iff (hsecp : CompleteSecp w.blindEnv)
    {rand : BlindRandom w.blindEnv.getPubKey} {coins : List COutput} {vout : List PlainOutput}
    {keys : List (Option Bytes)} {txNew : CTransaction} {blinded : Blinded} {fee : Int}
    (hne : coins ≠ [])
    (hcoins : ∀ coin ∈ coins, (knownCoin w coin).Opens w.blindEnv ∧ MoneyRange coin.value)
    (hrange : ∀ o ∈ vout, MoneyRange o.nAmount) (hfee : MoneyRange fee)
    (hlen : vout.length = keys.length)
    (hscript : ∀ (j : Nat) (o : PlainOutput) (key : Option Bytes), vout[j]? = some o →
      keys[j]? = some key → key ≠ none → o.scriptPubKey ≠ [])
    (hblind : blindTransaction w.blindEnv rand (coins.map fun coin => (knownCoin w coin).blind)
      { txNew with vout := vout.map PlainOutput.toTxOut } keys (some (keys.map Option.isNone))
      true = some blinded)
    (hamounts : (coins.map COutput.value).sum = (vout.map PlainOutput.nAmount).sum + fee)
    (hselected : MoneyRange (coins.map COutput.value).sum) {found : Int} :
    verifyBalance w.blindEnv.toSecp256k1 (coins.map COutput.txout)
        { blinded.tx with vout := blinded.tx.vout ++ feeOutputs fee } = some found ↔
      (∀ coin ∈ coins, coin.txout.nValue.IsExplicit → coin.value ≠ 0) ∧
      (∀ p ∈ vout.zip keys, if p.2.isSome then p.1.nAmount < 2 ^ 57 else p.1.nAmount ≠ 0) ∧
      found = ((vout.map PlainOutput.toTxOut ++ feeOutputs fee).map feeAmount).sum ∧
      ((∃ p ∈ vout.zip keys, p.2.isSome) → 0 < found) := by
  obtain ⟨hfees, hfeeSum⟩ := sum_feeOutputs hfee
  have hopens : ∀ known ∈ coins.map (knownCoin w),
      known.Opens w.blindEnv ∧ MoneyRange known.amount := by
    intro known hmem
    obtain ⟨coin, hcoin, rfl⟩ := List.mem_map.mp hmem
    exact hcoins coin hcoin
  have hvout : ∀ out ∈ vout.map PlainOutput.toTxOut,
      out.nValue.IsExplicit ∧ MoneyRange out.nValue.getAmount := by
    intro out hmem
    obtain ⟨o, ho, rfl⟩ := List.mem_map.mp hmem
    rw [getAmount_toTxOut (hrange o ho)]
    exact ⟨CConfidentialValue.isExplicit_ofAmount _, hrange o ho⟩
  have htotal : ((coins.map (knownCoin w)).map KnownCoin.amount).sum =
      ((vout.map PlainOutput.toTxOut ++ feeOutputs fee).map fun out =>
        out.nValue.getAmount).sum := by
    have hcoin : coins.map (KnownCoin.amount ∘ knownCoin w) = coins.map COutput.value :=
      List.map_congr_left fun _ _ => rfl
    have hout : vout.map ((fun out : CTxOut => out.nValue.getAmount) ∘ PlainOutput.toTxOut) =
        vout.map PlainOutput.nAmount := by
      apply List.map_congr_left
      intro o hmem
      rw [Function.comp_apply, getAmount_toTxOut (hrange o hmem)]
    rw [List.map_append, List.sum_append, hfeeSum, List.map_map, List.map_map, hcoin, hout,
      hamounts]
  have hkeyed : ∀ j o key, vout[j]? = some o → keys[j]? = some key →
      isBlinded (some (keys.map Option.isNone)) (o.toTxOut, j) = key.isSome :=
    fun j o key ho hkey => isBlinded_eq_isSome hkey (hscript j o key ho hkey)
  have hslots : (∀ entry ∈ (vout.map PlainOutput.toTxOut).zipIdx,
      if isBlinded (some (keys.map Option.isNone)) entry = true
      then entry.1.nValue.getAmount < 2 ^ 57 else entry.1.nValue.getAmount ≠ 0) ↔
      ∀ p ∈ vout.zip keys, if p.2.isSome then p.1.nAmount < 2 ^ 57 else p.1.nAmount ≠ 0 := by
    apply forall_zipIdx_iff_forall_zip hlen
    intro j o key ho hkey
    rw [hkeyed j o key ho hkey, getAmount_toTxOut (hrange o (List.mem_of_getElem? ho))]
  have hany : (∃ entry ∈ (vout.map PlainOutput.toTxOut).zipIdx,
      isBlinded (some (keys.map Option.isNone)) entry = true) ↔
      ∃ p ∈ vout.zip keys, p.2.isSome = true := by
    rw [← not_iff_not]
    push Not
    apply forall_zipIdx_iff_forall_zip hlen
    intro j o key ho hkey
    rw [hkeyed j o key ho hkey]
  have htxouts : coins.map COutput.txout = (coins.map (knownCoin w)).map KnownCoin.out := by
    rw [List.map_map]
    exact List.map_congr_left fun _ _ => rfl
  have hblinds : coins.map (fun coin => (knownCoin w coin).blind) =
      (coins.map (knownCoin w)).map KnownCoin.blind := by
    rw [List.map_map]
    exact List.map_congr_left fun _ _ => rfl
  have hvalues : (coins.map (knownCoin w)).map KnownCoin.amount = coins.map COutput.value := by
    rw [List.map_map]
    exact List.map_congr_left fun _ _ => rfl
  rw [hblinds] at hblind
  rw [htxouts, verifyBalance_blindTransaction hsecp (by simpa using hne) hopens hvout
    (fun out hmem => ⟨(hfees out hmem).1, (hfees out hmem).2.1 ▸ hfee⟩) hblind htotal
    (hvalues ▸ hselected), hslots, hany, List.forall_mem_map]
  have hpositive : ∀ out ∈ feeOutputs fee, 0 < out.nValue.getAmount := by
    intro out hmem
    rw [(hfees out hmem).2.1]
    exact (hfees out hmem).2.2
  constructor
  · rintro ⟨hin, hout, -, hfound, hconf⟩
    exact ⟨hin, hout, hfound, hconf⟩
  · rintro ⟨hin, hout, hfound, hconf⟩
    exact ⟨hin, hout, hpositive, hfound, hconf⟩

omit [AddCommGroup 𝔾] [Module Scalar 𝔾] [DecidableEq 𝔾] in
/-- What the rounds settle on still fits the recipients, with the change where the keys have it. -/
theorem fit_planned {sizes : Nat → Option TxSize} {draw : (n : Nat) → Fin (n + 1)} {plan : Plan}
    {result : SelectionResult} (hlegacy : w.ctlegacy = false)
    (hfit : Fit w.relayDustFee vecSend change.scriptChange outs)
    (hscript : outs.change ≠ none → change.scriptChange ≠ [])
    (hplan : planConfidential w draw vecSend result change outs = .ok plan) :
    let settled := settledOutputs w sizes (plan.roundContext vecSend result) (maxCTFeeRounds - 1) 0
      plan.funding.outs
    outputKeys vecSend plan.funding.changeKey plan.funding.outs = .ok plan.keys ∧
      settled.change.map Prod.fst = plan.funding.outs.change.map Prod.fst ∧
      ∃ script, Fit w.relayDustFee vecSend script settled ∧
        (settled.change ≠ none → script ≠ []) := by
  intro settled
  obtain ⟨-, -, hinject, hkeys⟩ := planConfidential_eq_ok hplan
  rw [recipientKeys, if_neg (by simp [hlegacy])] at hkeys
  obtain ⟨script, hfit, hscript⟩ := fit_injectChange hfit hscript hinject
  have hposition : settled.change.map Prod.fst = plan.funding.outs.change.map Prod.fst :=
    position_settledOutputs
  refine ⟨hkeys, hposition, script, settledOutputs_of_rebalance (fun hfit hmove => hfit.rebalance hmove) _ hfit,
    ?_⟩
  intro hchange
  apply hscript
  rw [ne_eq, ← Option.map_eq_none_iff (f := Prod.fst), ← hposition, Option.map_eq_none_iff]
  exact hchange

/-- Where every output stays explicit and blinding still succeeds, the inputs have no factors, so
the transaction would have stayed plain. -/
theorem exists_key_of_not_usePlainV2 {plan : Plan} {rand : BlindRandom w.blindEnv.getPubKey}
    {vout : List PlainOutput} {txNew : CTransaction} {blinded : Blinded}
    (hlegacy : w.ctlegacy = false) (hne : plan.keys ≠ []) (hlen : vout.length = plan.keys.length)
    (hplain : ¬ plan.usePlainV2 w.ctlegacy = true)
    (hblind : blindTransaction w.blindEnv rand plan.inputBlinds
      { txNew with vout := vout.map PlainOutput.toTxOut } plan.keys
      (some (plan.keys.map Option.isNone)) true = some blinded) :
    ∃ p ∈ vout.zip plan.keys, p.2.isSome = true := by
  by_contra hnone
  push Not at hnone
  apply hplain
  have hexplicit : ∀ key ∈ plan.keys, key = none := by
    intro key hmem
    obtain ⟨j, hj⟩ := List.mem_iff_getElem?.mp hmem
    obtain ⟨hlt, -⟩ := List.getElem?_eq_some_iff.mp hj
    obtain ⟨o, ho⟩ : ∃ o, vout[j]? = some o := ⟨_, List.getElem?_eq_getElem (hlen ▸ hlt)⟩
    simpa using hnone (o, key)
      (List.mem_iff_getElem?.mpr ⟨j, List.getElem?_zip_eq_some.mpr ⟨ho, hj⟩⟩)
  have hzero : ∀ b ∈ plan.inputBlinds, b = 0 := by
    refine inputBlinds_eq_zero ?_ hblind
    rintro ⟨out, j⟩ hmem
    have hlt : j < plan.keys.length := by
      rw [← hlen]
      simpa using List.snd_lt_of_mem_zipIdx hmem
    have hkey : plan.keys[j]? = some none := by
      rw [List.getElem?_eq_getElem hlt, hexplicit _ (List.getElem_mem hlt)]
    simp [isBlinded, hkey]
  simpa [Plan.usePlainV2, Plan.explicitOutputs, hlegacy, hne] using ⟨hexplicit, hzero⟩

/-- What the verifier asks of amounts and keys, once some output is blinded. -/
theorem verifiable_iff {result : SelectionResult} {settled : Outputs} {keys : List (Option Bytes)}
    {fee : Int} (hfee : MoneyRange fee) (hleft : fee = result.getSelectedValue - settled.total)
    (hrange : ∀ o ∈ settled.vout, MoneyRange o.nAmount)
    (hlen : settled.vout.length = keys.length)
    (hscript : ∀ (j : Nat) (o : PlainOutput) (key : Option Bytes), settled.vout[j]? = some o →
      keys[j]? = some key → key ≠ none → o.scriptPubKey ≠ [])
    (hkeyed : ∃ p ∈ settled.vout.zip keys, p.2.isSome = true) :
    (∃ found, (∀ coin ∈ result.coins, coin.txout.nValue.IsExplicit → coin.value ≠ 0) ∧
      (∀ p ∈ settled.vout.zip keys,
        if p.2.isSome then p.1.nAmount < 2 ^ 57 else p.1.nAmount ≠ 0) ∧
      found = ((settled.vout.map PlainOutput.toTxOut ++ feeOutputs fee).map feeAmount).sum ∧
      ((∃ p ∈ settled.vout.zip keys, p.2.isSome) → 0 < found)) ↔
    Verifiable result settled keys := by
  -- an output without script has no key
  have hempty : (∀ p ∈ settled.vout.zip keys, p.2 = none → p.1.nAmount ≠ 0) →
      ∀ o ∈ settled.vout, o.scriptPubKey = [] → o.nAmount ≠ 0 := by
    intro hplain o hmem hnil
    obtain ⟨j, ho⟩ := List.mem_iff_getElem?.mp hmem
    obtain ⟨hlt, -⟩ := List.getElem?_eq_some_iff.mp ho
    have hkey := List.getElem?_eq_getElem (hlen ▸ hlt)
    refine hplain (o, _) (List.mem_iff_getElem?.mpr
      ⟨j, List.getElem?_zip_eq_some.mpr ⟨ho, hkey⟩⟩) ?_
    by_contra hsome
    exact hscript j o _ ho hkey hsome hnil
  constructor
  · rintro ⟨found, hcoins, hslots, rfl, hpos⟩
    have hplain : ∀ p ∈ settled.vout.zip keys, p.2 = none → p.1.nAmount ≠ 0 := by
      intro p hmem hnone
      simpa [hnone] using hslots p hmem
    refine ⟨hcoins, hplain, ?_, ?_⟩
    · intro p hmem hsome
      simpa [Option.isSome_iff_ne_none.mpr hsome] using hslots p hmem
    · rw [← hleft]
      exact (feeAmount_sum_pos_iff hfee hrange (hempty hplain)).2.mp (hpos hkeyed)
  · intro hver
    refine ⟨_, hver.coins, ?_, rfl, fun _ => ?_⟩
    · intro p hmem
      split_ifs with hsome
      · exact hver.confidential p hmem (Option.isSome_iff_ne_none.mp hsome)
      · exact hver.plain p hmem (by simpa using hsome)
    · apply (feeAmount_sum_pos_iff hfee hrange (hempty hver.plain)).2.mpr
      rw [hleft]
      exact hver.fee

/-- The amounts decide over an unsigned version 3 transaction. -/
theorem verifyBalance_buildConfidential {draws : Draws w.blindEnv.getPubKey} {plan : Plan}
    {result : SelectionResult} {txNew : CTransaction} {built : Built}
    (hsecp : CompleteSecp w.blindEnv) (hlegacy : w.ctlegacy = false) (hsend : vecSend ≠ [])
    (hne : result.coins ≠ [])
    (hcoins : ∀ coin ∈ result.coins, TrueCoin w coin ∧ MoneyRange coin.value)
    (hselected : MoneyRange result.getSelectedValue)
    (hfit : Fit w.relayDustFee vecSend change.scriptChange outs)
    (hscript : outs.change ≠ none → change.scriptChange ≠ [])
    (hplan : planConfidential w draws.injectedPos vecSend result change outs = .ok plan)
    (hplain : ¬ plan.usePlainV2 w.ctlegacy = true)
    (h : buildConfidential w draws (plan.roundContext vecSend result) txNew plan.funding.outs =
      .ok built) :
    (∃ fee, verifyBalance w.blindEnv.toSecp256k1 (result.coins.map COutput.txout) built.tx =
      some fee) ↔
    Verifiable result (settledOutputs w draws.maximumSignedTxSize (plan.roundContext vecSend result)
      (maxCTFeeRounds - 1) 0 plan.funding.outs) plan.keys := by
  obtain ⟨hblinds, hsome, -⟩ := planConfidential_eq_ok hplan
  obtain ⟨r, blinded, hblind, htx, hfee, measured, -, hpays⟩ := buildConfidential_eq_ok h
  have hnonneg := (neededFee_nonneg w _ measured).trans hpays
  obtain ⟨hkeys, hposition, script, hfit', hscript'⟩ := fit_planned hlegacy hfit hscript hplan
  generalize settledOutputs w draws.maximumSignedTxSize (plan.roundContext vecSend result)
    (maxCTFeeRounds - 1) 0 plan.funding.outs = settled at *
  obtain ⟨hlen, -⟩ := slot_cases hfit' hposition hkeys
  have hslot : ∀ (j : Nat) (o : PlainOutput) (key : Option Bytes), settled.vout[j]? = some o →
      plan.keys[j]? = some key → key ≠ none → o.scriptPubKey ≠ [] :=
    fun j o key => script_ne_nil_of_key hfit' hscript' hposition hkeys
  have hkeysne : plan.keys ≠ [] := by
    apply List.ne_nil_of_length_pos
    rw [← hlen]
    exact (List.length_pos_of_ne_nil hsend).trans_le hfit'.length_vout
  have hexplicit : (plan.roundContext vecSend result).explicitOutputs =
      some (plan.keys.map Option.isNone) := by
    simp [Plan.roundContext, Plan.explicitOutputs, hkeysne]
  rw [hexplicit] at hblind
  replace hblind : blindTransaction w.blindEnv (draws.blinding r) plan.inputBlinds
      { ({ txNew with nVersion := CT_VERSION } : CTransaction) with
        vout := settled.vout.map PlainOutput.toTxOut } plan.keys
      (some (plan.keys.map Option.isNone)) true = some blinded := hblind
  have hselects : (plan.roundContext vecSend result).selected = result.getSelectedValue := rfl
  rw [hselects] at hfee
  have htotal : settled.total ≤ result.getSelectedValue := by omega
  have hrange := moneyRange_of_total hfit' hselected htotal
  have hfeeRange : MoneyRange built.fee := by
    have hnonneg' : 0 ≤ settled.total := by
      apply List.sum_nonneg
      simpa using hfit'.nonneg_vout
    exact ⟨hnonneg, by have := hselected.2; omega⟩
  have hkeyed := exists_key_of_not_usePlainV2 hlegacy hkeysne hlen hplain hblind
  rw [htx, ← verifiable_iff hfeeRange hfee hrange hlen hslot hkeyed]
  apply exists_congr
  intro found
  rw [hblinds] at hblind
  apply verifyBalance_blinded_iff hsecp hne _ hrange hfeeRange hlen hslot hblind _ hselected
  · intro coin hmem
    exact ⟨opens_knownCoin (hcoins coin hmem).1 (hsome coin hmem), (hcoins coin hmem).2⟩
  · change result.getSelectedValue = settled.total + built.fee
    omega

/-- Signing and blinding keep the inputs on the selected coins, so the verifier gets as far as the
balance. -/
theorem verifyAmounts_eq_verifyBalance {coins : List COutput} {tx : CTransaction}
    (hprev : tx.vin.map CTxIn.prevout = coins.map COutput.outpoint) (hne : coins ≠ [])
    (hnull : ∀ coin ∈ coins, ¬ coin.outpoint.IsNull) {fee : Option Int} :
    verifyAmounts w.blindEnv.toSecp256k1 (coins.map COutput.txout) tx = .ok fee ↔
      verifyBalance w.blindEnv.toSecp256k1 (coins.map COutput.txout) tx = fee := by
  have hlen : (coins.map COutput.txout).length = tx.vin.length := by
    simpa using (congrArg List.length hprev).symm
  have hcoinbase : ¬ tx.IsCoinBase := by
    rintro ⟨-, hall⟩
    obtain ⟨coin, hmem⟩ := List.exists_mem_of_ne_nil coins hne
    have hprevout := List.mem_map_of_mem (f := COutput.outpoint) hmem
    rw [← hprev] at hprevout
    obtain ⟨txin, htxin, heq⟩ := List.mem_map.mp hprevout
    exact hnull coin hmem (heq ▸ hall txin htxin)
  rw [verifyAmounts_eq_ok]
  exact ⟨fun h => h.2.2, fun h => ⟨hcoinbase, hlen, h⟩⟩

/-- A version 3 transaction comes out of the rounds, and signing keeps its outputs and prevouts, so
the amounts of the rounds decide over it. -/
theorem version3_eq_ok {draws : Draws w.blindEnv.getPubKey} {changePos : Option Nat}
    {control : CCoinControl} {result : SelectionResult} {sign : Bool} {built : Built}
    (hsecp : CompleteSecp w.blindEnv) (hmode : w.elementsMode = true)
    (hlegacy : w.ctlegacy = false) (hsend : vecSend ≠ []) (hne : result.coins ≠ [])
    (hcoins : ∀ coin ∈ result.coins,
      TrueCoin w coin ∧ MoneyRange coin.value ∧ ¬ coin.outpoint.IsNull)
    (hselected : MoneyRange result.getSelectedValue)
    (h : createTransactionInternal w draws vecSend changePos control result change sign =
      .ok built)
    (hversion : built.tx.nVersion = CT_VERSION) :
    ∃ outs plainSize plan txNew unsigned,
      plainOutputs w draws.changePos (draws.maximumSignedTxSize 0) vecSend changePos result change =
        .ok (outs, plainSize) ∧
      planConfidential w draws.injectedPos vecSend result change outs = .ok plan ∧
      buildConfidential w draws (plan.roundContext vecSend result) txNew plan.funding.outs =
        .ok unsigned ∧
      ((∃ fee, verifyAmounts w.blindEnv.toSecp256k1 (result.coins.map COutput.txout) built.tx =
        .ok (some fee)) ↔
      Verifiable result (settledOutputs w draws.maximumSignedTxSize
        (plan.roundContext vecSend result) (maxCTFeeRounds - 1) 0 plan.funding.outs) plan.keys) := by
  obtain ⟨outs, plainSize, txNew, unsigned, hplain, -, hvin, hbuild, hfinish⟩ :=
    createTransactionInternal_eq_ok h
  obtain ⟨hfit, -, hscript⟩ := fit_plainOutputs hplain
  obtain ⟨-, hsame, hvout, hprev⟩ := finishTransaction_eq_ok hfinish
  have hvoutne : outs.vout ≠ [] := by
    apply List.ne_nil_of_length_pos
    exact (List.length_pos_of_ne_nil hsend).trans_le hfit.length_vout
  rw [buildTransaction, if_pos ⟨hmode, hvoutne⟩] at hbuild
  obtain ⟨plan, hplan, hbuild⟩ := bind_eq_ok.mp hbuild
  split_ifs at hbuild with huse
  · -- a plain transaction has version 2
    obtain rfl := pure_eq_ok.mp hbuild
    have hne : CTransaction.CURRENT_VERSION ≠ CT_VERSION := by decide
    exact absurd (hsame.symm.trans hversion) hne
  · refine ⟨outs, plainSize, plan, txNew, unsigned, hplain, hplan, hbuild, ?_⟩
    rw [← verifyBalance_buildConfidential hsecp hlegacy hsend hne
      (fun coin hmem => ⟨(hcoins coin hmem).1, (hcoins coin hmem).2.1⟩) hselected hfit hscript
      hplan huse hbuild]
    have hinputs : built.tx.vin.map CTxIn.prevout = result.coins.map COutput.outpoint := by
      rw [hprev, vin_buildConfidential hbuild, hvin, selectedInputs, List.map_map]
      rfl
    apply exists_congr
    intro fee
    rw [verifyAmounts_eq_verifyBalance hinputs hne fun coin hmem => (hcoins coin hmem).2.2,
      verifyBalance_congr _ hvout]


end Balance

end Sections

/-! ### A wallet

Fee rate 1000, dust rate 3000; every transaction measures 2950 virtual bytes once it is blinded. -/

def sampleWallet (unblind : CTxOut → Option (Int × Nat)) : Wallet Scalar where
  blindEnv := scalarEnv
  elementsMode := true
  ctlegacy := false
  effectiveFeerate := ⟨1000⟩
  relayDustFee := ⟨3000⟩
  unblindConfidentialOutput := unblind
  lastBlockHeight := 20000
  nBanPathAHeight := 12748
  signTransaction _ := some fun _ => ([], [[1]])
  transactionWeight _ := 12000
  maxTxFee := 10000000
  rejectLongChains := false
  checkChainLimits _ := .ok ()

def sampleDraws : Draws scalarEnv.getPubKey where
  changePos _ := 0
  injectedPos _ := 0
  blinding _ := sampleRandom
  maximumSignedTxSize call := some (if call = 0 then ⟨110, 440⟩ else ⟨2950, 11800⟩)

def sampleControl : CCoinControl where
  version := none
  sequence _ := CTxIn.SEQUENCE_FINAL
  scripts _ := ([], [])
  nLockTime := 0

def noChange : ChangeDestination where
  scriptChange := []
  changeKey := none
  error := "Transaction needs a change address, but we can't generate it."
  fresh := none

/-- The only blinded output of a transaction with explicit inputs: its factor is zero. -/
def zeroBlindOut : CTxOut :=
  ⟨⟨scalarEnv.commitmentSerialize 100000⟩, ⟨4 :: List.replicate 32 0⟩, [17], [OP_TRUE]⟩

def zeroBlindCoin : COutput := ⟨⟨Uint256.null, 0⟩, zeroBlindOut, 100000⟩

def zeroBlindWallet : Wallet Scalar := sampleWallet fun _ => some (100000, 0)

def plainRecipient : CRecipient := ⟨.other [OP_TRUE], 99000, false⟩

/-- The coin is the one blinded output of a transaction of explicit inputs.  It is committed, its
spend is not confidential, and consensus rejects that. -/
theorem zeroBlindCoin_spent_plain :
    (blindTransaction scalarEnv sampleRandom [0, 0]
        { sampleTx with vout := [.ofAmount 100000 [OP_TRUE]] } [some [2]] (some [false]) true).map
      (fun blinded => (blinded.tx.vout, blinded.outputBlinds)) = some ([zeroBlindOut], [0]) ∧
    ¬ zeroBlindCoin.txout.nValue.IsExplicit ∧
    ∃ built, createTransactionInternal zeroBlindWallet sampleDraws [plainRecipient] none
        sampleControl ⟨[zeroBlindCoin], 0, 0⟩ noChange true = .ok built ∧
      built.tx.nVersion ≠ CT_VERSION ∧
      checkTxInputs scalarEnv.toSecp256k1 true ⟨210000, 0, 0, Uint256.null, 1, Uint256.null⟩
          (fun _ => some ⟨zeroBlindOut, false, 1⟩) 20001 built.tx =
        .error (consensusFailure "bad-txns-v2-spend-ct"
          "non-CT transaction spends a confidential output") := by
  refine ⟨rfl, by decide, _, rfl, by decide, ?_⟩
  rfl

def paymentCoins : List COutput :=
  [⟨⟨Uint256.null, 0⟩, .ofAmount 40000 [OP_TRUE], 40000⟩,
   ⟨⟨Uint256.null, 1⟩, ⟨⟨scalarEnv.commitmentSerialize ((60000 : Nat) + (7 : Nat) * (50 : Nat))⟩,
     .null, [17], [OP_TRUE]⟩, 60000⟩]

def paymentWallet : Wallet Scalar := sampleWallet fun _ => some (60000, 50)

theorem trueCoin_paymentCoins : ∀ coin ∈ paymentCoins,
    TrueCoin paymentWallet coin ∧ MoneyRange coin.value ∧ ¬ coin.outpoint.IsNull := by
  simp only [paymentCoins, List.forall_mem_cons, List.not_mem_nil, false_implies, implies_true,
    and_true]
  refine ⟨⟨.inl ⟨by decide, by decide⟩, by decide, by decide⟩, .inr ⟨by decide, ?_⟩, by decide,
    by decide⟩
  rintro value blind hfound
  obtain ⟨-, rfl⟩ := Prod.mk.inj (Option.some.inj hfound)
  exact completeSecp_scalarEnv.parse_serialize _ (by decide)

def confidentialRecipient (nAmount : Int) : CRecipient :=
  ⟨.confidentialKeyHash (List.replicate 20 1) [2], nAmount, false⟩

def confidentialChange : ChangeDestination where
  scriptChange := [OP_TRUE]
  changeKey := some [2]
  error := ""
  fresh := none

/-- Spending a coin with a factor makes the transaction confidential. -/
theorem paymentCoins_spent_confidential :
    ∃ built, createTransactionInternal paymentWallet sampleDraws [plainRecipient] none
        sampleControl ⟨paymentCoins, 0, 0⟩ confidentialChange true = .ok built ∧
      built.tx.nVersion = CT_VERSION := by
  obtain ⟨built, hbuilt⟩ : ∃ built, createTransactionInternal paymentWallet sampleDraws
      [plainRecipient] none sampleControl ⟨paymentCoins, 0, 0⟩ confidentialChange true =
      .ok built := ⟨_, rfl⟩
  refine ⟨built, hbuilt, ?_⟩
  by_contra hplain
  have hexplicit := (plain_spends_explicit_iff paymentWallet sampleDraws [plainRecipient] none
    sampleControl ⟨paymentCoins, 0, 0⟩ confidentialChange true built (by decide) hbuilt).mpr
    (.inr (.inl ⟨rfl, .inr (.inr (.inr ⟨_, .tail _ (.head _), by decide, 60000, 50, rfl,
      by decide⟩))⟩)) hplain
  exact absurd hexplicit (by decide)

def dataRecipient : CRecipient := ⟨.other [OP_RETURN, 1, 42], 0, false⟩

end Rcpu.WalletBalance
