import Mathlib.Algebra.BigOperators.Intervals
import Rcpu.Validation

/-!
# No inflation

Under ideal commitments every coin has a true value: its explicit amount, or the value its
commitment opens to.  Connecting a transaction moves value from the coins it spends to the coins
it creates and to the block's fees; connecting a block adds at most its subsidy.

The plaintext accounting compares amounts.  The confidential accounting compares commitments, that
is, sums of scalars; since every value involved is at most `MAX_MONEY` and a transaction has less
than a million inputs and outputs, neither side reaches the order of the group, and the equation
holds between the amounts themselves.
-/

namespace Rcpu.Supply

open Checks WeightedMap Pedersen ByteStream Confidential Transaction TxCheck ConfidentialValidation
  Coins TxVerify Validation

/-- Ideal commitments: the group is the openings themselves, and a verified range proof bounds the
committed value. -/
structure IdealSecp (secp : Secp256k1 (Scalar × Scalar)) : Prop where
  generators : secp.generators = idealGenerators scalarOrder
  rangeproof_sound : ∀ commit proof minValue maxValue,
    secp.rangeproofVerify commit proof = some (minValue, maxValue) →
      minValue ≤ commit.1.val ∧ commit.1.val ≤ maxValue

/-- The value of an output: explicit, or the one its commitment opens to. -/
def trueValue (secp : Secp256k1 (Scalar × Scalar)) (out : CTxOut) : Int :=
  if out.nValue.IsExplicit then out.nValue.getAmount
  else match secp.commitmentParse out.nValue.vchCommitment with
    | none => 0
    | some commit => (commit.1.val : Int)

def totalValue (secp : Secp256k1 (Scalar × Scalar)) (view : CCoinsView) : Int :=
  total (fun coin => trueValue secp coin.out) view.coins

/-- An amount that no range check would reject. -/
def InRange (secp : Secp256k1 (Scalar × Scalar)) (out : CTxOut) : Prop :=
  MoneyRange (trueValue secp out)

def ViewInRange (secp : Secp256k1 (Scalar × Scalar)) (view : CCoinsView) : Prop :=
  ∀ outpoint coin, view.getCoin outpoint = some coin → InRange secp coin.out

variable {secp : Secp256k1 (Scalar × Scalar)}

theorem trueValue_of_isExplicit {out : CTxOut} (h : out.nValue.IsExplicit) :
    trueValue secp out = out.nValue.getAmount := if_pos h

theorem trueValue_of_parse {out : CTxOut} {commit : Scalar × Scalar}
    (h : ¬ out.nValue.IsExplicit)
    (hparse : secp.commitmentParse out.nValue.vchCommitment = some commit) :
    trueValue secp out = commit.1.val := by
  simp [trueValue, h, hparse]

/-! ### Commitments carry true values -/

theorem fst_of_explicitCommit (hideal : IdealSecp secp) {amount : Int} {c : Scalar × Scalar}
    (hrange : MoneyRange amount) (h : explicitCommit secp amount = some c) :
    c.1 = (amount : Scalar) := by
  obtain ⟨rfl, -⟩ := (explicitCommit_eq_some secp hrange).mp h
  simp [hideal.generators]

theorem fst_of_inputCommitment (hideal : IdealSecp secp) {prevout : CTxOut} {c : Scalar × Scalar}
    (h : inputCommitment secp prevout = some c) : c.1 = (trueValue secp prevout : Scalar) := by
  rcases (inputCommitment_eq_some secp).mp h with ⟨hexplicit, hrange, h⟩ | ⟨hcommit, hparse⟩
  · rw [trueValue_of_isExplicit hexplicit]
    exact fst_of_explicitCommit hideal hrange h
  · rw [trueValue_of_parse hcommit.not_isExplicit hparse]
    simp

/-- A tallied output carries its value, which the range proof keeps in range. -/
theorem fst_of_outputCommitment (hideal : IdealSecp secp) {out : CTxOut} {c : Scalar × Scalar}
    (h : outputCommitment secp out = some c) :
    c.1 = (trueValue secp out : Scalar) ∧ InRange secp out := by
  rcases (outputCommitment_eq_some secp).mp h with ⟨hexplicit, hrange, h⟩ | ⟨hcommit, hparse, hproof⟩
  · rw [InRange, trueValue_of_isExplicit hexplicit]
    exact ⟨fst_of_explicitCommit hideal hrange h, hrange⟩
  · obtain ⟨-, -, lo, hi, hverify, hmax⟩ := (verifyRangeProof_eq_true secp hcommit hparse).mp hproof
    have hbound := (hideal.rangeproof_sound c _ lo hi hverify).2
    rw [InRange, trueValue_of_parse hcommit.not_isExplicit hparse]
    refine ⟨by simp, ?_⟩
    unfold MoneyRange
    omega

theorem fst_sum_of_forall₂ {outs : List CTxOut} {cs : List (Scalar × Scalar)}
    (h : List.Forall₂ (fun out c => c.1 = (trueValue secp out : Scalar)) outs cs) :
    cs.sum.1 = ((outs.map (trueValue secp)).sum : Scalar) := by
  induction h with
  | nil => simp
  | cons hc _ ih => simp [hc, ih]

/-! ### A checked transaction is too small for its sums to wrap -/

/-- A sum of at most a million values in range is below the order of the scalars. -/
theorem sum_trueValue_lt {outs : List CTxOut} (hlen : outs.length ≤ 1000000)
    (hrange : ∀ out ∈ outs, InRange secp out) :
    0 ≤ (outs.map (trueValue secp)).sum ∧ (outs.map (trueValue secp)).sum < scalarOrder := by
  refine sum_lt_scalarOrder (by rw [List.length_map]; omega) ?_
  intro amount hmem
  obtain ⟨out, hout, rfl⟩ := List.mem_map.mp hmem
  exact hrange out hout

/-! ### Value is conserved by each transaction -/

def storedValue (secp : Secp256k1 (Scalar × Scalar)) (out : CTxOut) : Int :=
  if Coin.IsDropped out then 0 else trueValue secp out

/-- **Balance of a confidential transaction**: the spent values pay the stored outputs and the fee. -/
theorem stored_add_fee_le_of_verifyBalance (hideal : IdealSecp secp) {prevouts : List CTxOut}
    {tx : CTransaction} {fee : Int} (hchecked : Checked tx)
    (hlen : prevouts.length = tx.vin.length) (hrange : ∀ out ∈ prevouts, InRange secp out)
    (h : verifyBalance secp prevouts tx = some fee) :
    (∀ out ∈ tx.vout, InRange secp out) ∧
      (tx.vout.map (storedValue secp)).sum + fee ≤ (prevouts.map (trueValue secp)).sum := by
  obtain ⟨ins, outs, hins, houts, -, rfl, -, -, hsum⟩ := (verifyBalance_eq_some secp).mp h
  have hvout : ∀ out ∈ tx.vout, InRange secp out := by
    intro out hmem
    obtain ⟨i, hi, rfl⟩ := List.getElem_of_mem hmem
    exact (fst_of_outputCommitment hideal
      (houts.get hi (houts.length_eq ▸ hi))).2
  have hvalues : (prevouts.map (trueValue secp)).sum = (tx.vout.map (trueValue secp)).sum := by
    -- both sides are the value component of one group element
    obtain ⟨hvin_le, hvout_le⟩ := lengths_le_of_checked hchecked
    apply intCast_inj_of_lt (sum_trueValue_lt (hlen ▸ hvin_le) hrange)
      (sum_trueValue_lt hvout_le hvout)
    rw [← fst_sum_of_forall₂ (hins.imp fun _ _ h => fst_of_inputCommitment hideal h),
      ← fst_sum_of_forall₂ (houts.imp fun _ _ h => (fst_of_outputCommitment hideal h).1), hsum]
  refine ⟨hvout, ?_⟩
  rw [hvalues, ← List.sum_map_add]
  apply List.sum_le_sum
  intro out hmem
  have hnonneg := (hvout out hmem).1
  unfold storedValue feeAmount
  by_cases hfee : out.IsFee
  · simp [Coin.IsDropped, hfee, trueValue_of_isExplicit hfee.1]
  · split_ifs <;> omega

/-- In the plaintext accounting an explicit output stores at most the amount it is counted with. -/
theorem storedValue_le_plainAmount {out : CTxOut} (hexplicit : out.nValue.IsExplicit)
    (hrange : MoneyRange out.nValue.getAmount) : storedValue secp out ≤ plainAmount out := by
  have hnonneg := hrange.1
  unfold storedValue plainAmount
  rw [trueValue_of_isExplicit hexplicit]
  by_cases hfee : out.IsFee
  · simp [Coin.IsDropped, hfee]
  · rw [if_pos (⟨hexplicit, hfee⟩ : _ ∧ _)]
    split_ifs <;> omega

theorem sum_stored_le_sum_plain (secp : Secp256k1 (Scalar × Scalar)) {vout : List CTxOut}
    (hexplicit : ∀ out ∈ vout, out.nValue.IsExplicit)
    (hrange : ∀ out ∈ vout, MoneyRange out.nValue.getAmount) :
    (vout.map (storedValue secp)).sum ≤ (vout.map plainAmount).sum :=
  List.sum_le_sum fun out hmem => storedValue_le_plainAmount (hexplicit out hmem) (hrange out hmem)

/-- **Conservation**: an accepted transaction's fee and stored outputs are paid by what it spends. -/
theorem stored_add_fee_le_of_checkTxInputs (hideal : IdealSecp secp) {elementsMode : Bool}
    {params : ConsensusParams} {view : CCoinsView} {nSpendHeight : Nat} {tx : CTransaction}
    {fee : Int} {coins : List Coin} (hchecked : Checked tx) (hview : ViewInRange secp view)
    (hcoins : tx.vin.map (fun txin => view.getCoin txin.prevout) = coins.map some)
    (h : checkTxInputs secp elementsMode params view.getCoin nSpendHeight tx = .ok fee) :
    (∀ out ∈ tx.vout, InRange secp out) ∧
      (tx.vout.map (storedValue secp)).sum + fee ≤
        (coins.map fun coin => trueValue secp coin.out).sum := by
  obtain ⟨-, -, -, prevouts, hprevouts, haccount⟩ := checkTxInputs_eq_ok.mp h
  obtain rfl := prevouts_eq_map_out hprevouts hcoins
  have hprevout_range : ∀ out ∈ coins.map Coin.out, InRange secp out := by
    intro out hmem
    obtain ⟨coin, hcoin, rfl⟩ := List.mem_map.mp hmem
    have : some coin ∈ tx.vin.map fun txin => view.getCoin txin.prevout :=
      hcoins ▸ List.mem_map_of_mem hcoin
    obtain ⟨txin, -, htxin⟩ := List.mem_map.mp this
    exact hview _ _ htxin
  have hsum : (coins.map fun coin => trueValue secp coin.out) =
      (coins.map Coin.out).map (trueValue secp) := by simp
  rw [hsum]
  rcases haccount with ⟨-, -, hct⟩ | ⟨hnonct, hplain, hfee⟩
  · obtain ⟨-, -, -, hlen, hbalance⟩ := checkConfidential_eq_ok.mp hct
    exact stored_add_fee_le_of_verifyBalance hideal hchecked hlen hprevout_range hbalance
  · obtain ⟨hin_explicit, hout_explicit⟩ := checkPlain_eq_ok.mp hplain
    obtain ⟨-, -, rfl⟩ := plainFee_eq_ok hfee
    have hamount : ∀ out ∈ tx.vout, MoneyRange out.nValue.getAmount :=
      fun out hmem => hchecked.amount out hmem (hout_explicit out hmem)
    have hspent : (coins.map Coin.out).map (trueValue secp) =
        (coins.map Coin.out).map fun prevout => prevout.nValue.getAmount :=
      List.map_congr_left fun out hmem => trueValue_of_isExplicit (hin_explicit out hmem)
    have hstored := sum_stored_le_sum_plain secp hout_explicit hamount
    refine ⟨fun out hmem => ?_, ?_⟩
    · rw [InRange, trueValue_of_isExplicit (hout_explicit out hmem)]
      exact hamount out hmem
    · rw [hspent]
      omega

/-! ### The effect on the view -/

theorem viewInRange_empty : ViewInRange secp CCoinsView.empty := by
  intro o c h
  simp at h

theorem ViewInRange.erase {view : CCoinsView} (h : ViewInRange secp view) (o : COutPoint) :
    ViewInRange secp (view.erase o) := by
  intro o' c hc
  by_cases ho : o' = o
  · subst ho
    simp at hc
  · rw [CCoinsView.getCoin_erase_of_ne ho] at hc
    exact h o' c hc

theorem ViewInRange.insert {view : CCoinsView} (h : ViewInRange secp view) {o : COutPoint}
    {coin : Coin} (hs : coin.Storable) (hcoin : InRange secp coin.out) :
    ViewInRange secp (view.insert o coin hs) := by
  intro o' c hc
  by_cases ho : o' = o
  · subst ho
    rw [CCoinsView.getCoin_insert_self, Option.some.injEq] at hc
    exact hc ▸ hcoin
  · rw [CCoinsView.getCoin_insert_of_ne ho] at hc
    exact h o' c hc

theorem totalValue_eraseAll {view : CCoinsView} {os : List COutPoint} {coins : List Coin}
    (hview : ViewInRange secp view) (hnodup : os.Nodup)
    (hcoins : os.map view.getCoin = coins.map some) :
    ViewInRange secp (view.eraseAll os) ∧
      totalValue secp (view.eraseAll os) =
        totalValue secp view - (coins.map fun coin => trueValue secp coin.out).sum := by
  induction os generalizing view coins with
  | nil =>
    simp only [List.map_nil, List.nil_eq, List.map_eq_nil_iff] at hcoins
    simp [hcoins, hview]
  | cons o os ih =>
    cases coins with
    | nil => simp at hcoins
    | cons coin coins =>
      rw [List.nodup_cons] at hnodup
      simp only [List.map_cons, List.cons.injEq] at hcoins
      obtain ⟨hcoin, hcoins⟩ := hcoins
      have hrest : os.map (view.erase o).getCoin = coins.map some := by
        rw [← hcoins]
        apply List.map_congr_left
        intro o' hmem
        exact CCoinsView.getCoin_erase_of_ne fun h => hnodup.1 (h ▸ hmem)
      obtain ⟨hrange, htotal⟩ := ih (hview.erase o) hnodup.2 hrest
      have herase : totalValue secp (view.erase o) = totalValue secp view - trueValue secp coin.out :=
        total_erase (w := fun coin : Coin => trueValue secp coin.out) hcoin
      refine ⟨hrange, ?_⟩
      rw [CCoinsView.eraseAll_cons, htotal, herase, List.map_cons, List.sum_cons]
      omega

/-- Adding the outputs of a transaction adds at most their stored values. -/
theorem totalValue_addCoins_le {Result : Type} {view view' : CCoinsView} {txid : Uint256}
    {tx : CTransaction} {nHeight : Nat} (hview : ViewInRange secp view)
    (hvout : ∀ out ∈ tx.vout, InRange secp out)
    (h : view.addCoins txid tx nHeight false = (.ok view' : Except (Failure Result) _)) :
    ViewInRange secp view' ∧
      totalValue secp view' ≤ totalValue secp view + (tx.vout.map (storedValue secp)).sum := by
  -- the loop runs over the remaining outputs with their indices
  suffices hloop : ∀ (vout : List CTxOut) (n : Nat) (view : CCoinsView),
      (∀ out ∈ vout, InRange secp out) → ViewInRange secp view →
      (vout.zipIdx n).foldlM (CCoinsView.addOutput txid tx nHeight false) view =
        (.ok view' : Except (Failure Result) _) →
      ViewInRange secp view' ∧
        totalValue secp view' ≤ totalValue secp view + (vout.map (storedValue secp)).sum from
    hloop tx.vout 0 view hvout hview h
  intro vout
  induction vout with
  | nil =>
    intro n view _ hview h
    obtain rfl := pure_eq_ok.mp h
    simpa using hview
  | cons out vout ih =>
    intro n view hvout hview h
    rw [List.forall_mem_cons] at hvout
    rw [List.zipIdx_cons, foldlM_cons_eq_ok] at h
    obtain ⟨mid, hstep, h⟩ := h
    have hnonneg : 0 ≤ storedValue secp out := by
      have := hvout.1.1
      unfold storedValue
      split_ifs <;> omega
    have hmid : ViewInRange secp mid ∧
        totalValue secp mid ≤ totalValue secp view + storedValue secp out := by
      rcases CCoinsView.addOutput_eq_ok hstep with ⟨-, rfl⟩ | ⟨-, hc, rfl, -⟩
      · exact ⟨hview, by omega⟩
      · refine ⟨hview.insert hc hvout.1, ?_⟩
        have hle := total_insert_le (w := fun coin : Coin => trueValue secp coin.out)
          (m := view.coins) (k := ⟨txid, UInt32.ofNat n⟩)
          (a := Coin.ofOut out nHeight tx.IsCoinBase) fun coin hcoin => (hview _ coin hcoin).1
        have hdrop : ¬ Coin.IsDropped out := hc.2
        rw [storedValue, if_neg hdrop]
        exact hle
    obtain ⟨hrange, htotal⟩ := ih (n + 1) mid hvout.2 hmid.1 h
    refine ⟨hrange, ?_⟩
    rw [List.map_cons, List.sum_cons]
    omega

/-! ### Transactions, blocks and chains -/

section Chain

variable {env : ChainEnv (Scalar × Scalar)} {pindex : CBlockIndex}

def issuedValue (tx : CTransaction) : Int :=
  if tx.IsCoinBase then (tx.vout.map plainAmount).sum else 0

/-- **Step lemma**: one transaction moves value between coins and fees; only a coinbase issues. -/
theorem connectTx_conserves (hideal : IdealSecp env.secp) {st st' : ConnectState}
    {tx : CTransaction} {i : Nat} (hchecked : Checked tx)
    (hcb : tx.IsCoinBase → ∀ out ∈ tx.vout, out.nValue.IsExplicit)
    (hview : ViewInRange env.secp st.view) (h : connectTx env pindex st (tx, i) = .ok st') :
    ViewInRange env.secp st'.view ∧
      totalValue env.secp st'.view + st'.nFees ≤
        totalValue env.secp st.view + st.nFees + issuedValue tx := by
  obtain ⟨txfee, txundo, hfee, hupdate, hnFees, -⟩ := connectTx_eq_ok h
  rw [hnFees]
  obtain ⟨mid, hspend, hadd⟩ := updateCoins_eq_ok.mp hupdate
  unfold connectFee at hfee
  unfold spendTx at hspend
  unfold issuedValue
  by_cases hcoinbase : tx.IsCoinBase
  · simp only [hcoinbase, if_true, Except.ok.injEq, Prod.mk.injEq] at hfee hspend ⊢
    obtain ⟨rfl, -⟩ := hspend
    have hexplicit := hcb hcoinbase
    have hamount : ∀ out ∈ tx.vout, MoneyRange out.nValue.getAmount :=
      fun out hmem => hchecked.amount out hmem (hexplicit out hmem)
    have hvout : ∀ out ∈ tx.vout, InRange env.secp out := fun out hmem => by
      rw [InRange, trueValue_of_isExplicit (hexplicit out hmem)]
      exact hamount out hmem
    obtain ⟨hrange, htotal⟩ := totalValue_addCoins_le hview hvout hadd
    have hstored := sum_stored_le_sum_plain env.secp hexplicit hamount
    exact ⟨hrange, by omega⟩
  · simp only [hcoinbase, if_false] at hfee hspend ⊢
    obtain ⟨hnodup, hcoins, rfl⟩ := spendInputs_eq_ok.mp hspend
    unfold connectInputs at hfee
    simp only [bind_eq_ok, mapError_eq_ok, pure_eq_ok] at hfee
    obtain ⟨txfee, hinputs, -, -, -, -, rfl⟩ := hfee
    obtain ⟨hvout, hbalance⟩ :=
      stored_add_fee_le_of_checkTxInputs hideal hchecked hview hcoins hinputs
    obtain ⟨hmid, hspent⟩ := totalValue_eraseAll hview hnodup (by rw [List.map_map]; exact hcoins)
    obtain ⟨hrange, htotal⟩ := totalValue_addCoins_le hmid hvout hadd
    exact ⟨hrange, by omega⟩

/-- **Block lemma**: connecting a block adds at most its subsidy. -/
theorem connectBlock_totalValue_le (hideal : IdealSecp env.secp) {block : CBlock}
    {view view' : CCoinsView} {undo : CBlockUndo} (hview : ViewInRange env.secp view)
    (h : connectBlock env block pindex view = .ok (view', undo)) :
    ViewInRange env.secp view' ∧
      totalValue env.secp view' ≤
        totalValue env.secp view + getBlockSubsidy env.params pindex.nHeight := by
  obtain ⟨⟨cb, txs, hblock⟩, -, ⟨-, rfl⟩ | ⟨-, h⟩⟩ := connectBlock_eq_ok h
  · have := getBlockSubsidy_nonneg env.params pindex.nHeight
    exact ⟨hview, by omega⟩
  simp only [connectTransactions, bind_eq_ok, pure_eq_ok, Prod.mk.injEq] at h
  obtain ⟨⟨⟩, -, st, hloop, ⟨⟩, hreward, rfl, -⟩ := h
  rw [hblock.vtx_eq, List.zipIdx_cons, foldlM_cons_eq_ok] at hloop
  obtain ⟨st₁, hfirst, hrest⟩ := hloop
  -- the coinbase comes first and is the only one to issue value
  obtain ⟨hview₁, htotal₁⟩ := connectTx_conserves hideal (hblock.checked cb (by simp))
    (fun _ out hmem => (hblock.coinbase_out out hmem).1) hview hfirst
  have hinv : ViewInRange env.secp st.view ∧
      totalValue env.secp st.view + st.nFees ≤ totalValue env.secp st₁.view + st₁.nFees := by
    refine foldlM_invariant (P := fun s => ViewInRange env.secp s.view ∧
      totalValue env.secp s.view + s.nFees ≤ totalValue env.secp st₁.view + st₁.nFees)
      ?_ ⟨hview₁, le_rfl⟩ hrest
    rintro s ⟨tx, i⟩ s' hmem ⟨hs, htotal⟩ hstep
    have htx : tx ∈ txs := List.fst_mem_of_mem_zipIdx hmem
    have hcb := hblock.not_coinbase tx htx
    obtain ⟨hs', htotal'⟩ := connectTx_conserves hideal
      (hblock.checked tx (List.mem_cons_of_mem cb htx)) (fun h => absurd h hcb) hs hstep
    rw [issuedValue, if_neg hcb] at htotal'
    exact ⟨hs', by omega⟩
  have hissued : (cb.vout.map plainAmount).sum ≤
      st.nFees + getBlockSubsidy env.params pindex.nHeight := by
    simp only [checkReward, hblock.vtx_eq, bind_eq_ok, mapError_eq_ok, require_eq_ok] at hreward
    obtain ⟨-, -, valueOut, hvalue, hle⟩ := hreward
    rw [← getValueOut_eq_sum hvalue]
    exact hle
  rw [issuedValue, if_pos hblock.coinbase] at htotal₁
  dsimp only at htotal₁
  exact ⟨hinv.1, by omega⟩

/-- A chain of blocks at heights `1 ..  N`, each accepted on the view the previous one left, and the
view it leads to. -/
inductive ConnectedChain (env : ChainEnv (Scalar × Scalar)) : Nat → CCoinsView → Prop
  | genesis : ConnectedChain env 0 CCoinsView.empty
  | connect {N : Nat} {view view' : CCoinsView} {block : CBlock} {pindex : CBlockIndex}
      {undo : CBlockUndo} : ConnectedChain env N view → pindex.nHeight = N + 1 →
      connectBlock env block pindex view = .ok (view', undo) → ConnectedChain env (N + 1) view'

theorem ConnectedChain.invariant (hideal : IdealSecp env.secp) {N : Nat} {view : CCoinsView}
    (h : ConnectedChain env N view) :
    ViewInRange env.secp view ∧
      totalValue env.secp view ≤ ∑ height ∈ Finset.Icc 1 N, getBlockSubsidy env.params height := by
  induction h with
  | genesis => exact ⟨viewInRange_empty, by simp [totalValue, CCoinsView.empty]⟩
  | connect _ hheight hblock ih =>
    obtain ⟨hrange, htotal⟩ := connectBlock_totalValue_le hideal ih.1 hblock
    rw [Finset.sum_Icc_succ_top (by omega)]
    rw [hheight] at htotal
    exact ⟨hrange, by omega⟩

end Chain

/-! ### A first block -/

/-- An ideal instance: the first nine bytes of a commitment are its value, the rest its blind. -/
def idealSecp : Secp256k1 (Scalar × Scalar) where
  generators := idealGenerators scalarOrder
  commitmentParse bytes :=
    some ((ofBeBytes (bytes.take 9) : Nat), (ofBeBytes (bytes.drop 9) : Nat))
  rangeproofVerify commit _ := if commit.1.val < 2 ^ 57 then some (0, 2 ^ 57 - 1) else none

theorem idealSecp_ideal : IdealSecp idealSecp where
  generators := rfl
  rangeproof_sound := by
    intro commit proof lo hi h
    simp only [idealSecp] at h
    split_ifs at h with hlt
    simp only [Option.some.injEq, Prod.mk.injEq] at h
    omega

def sampleEnv : ChainEnv (Scalar × Scalar) where
  secp := idealSecp
  elementsMode := true
  params := ⟨210000, 0, 0, uint256S 0, 1, uint256S 0⟩
  getHash _ := uint256S 1
  checkBlockHeader _ _ := .ok ()
  headerSize := 80
  getLegacySigOpCount _ := 0
  getTransactionSigOpCost _ _ _ := 0
  sequenceLocks _ _ _ := true
  checkInputScripts _ _ _ := .ok ()

def sampleOut : CTxOut := .ofAmount (5000 * COIN) [0x51]

def sampleBlock : CBlock where
  hash := uint256S 7
  vtx := [{
    vin := [⟨⟨Uint256.null, COutPoint.NULL_INDEX⟩, [1, 1], CTxIn.SEQUENCE_FINAL, [], .null⟩]
    vout := [sampleOut]
    nVersion := 2
    nLockTime := 0 }]

def sampleIndex : CBlockIndex := ⟨1, uint256S 7, uint256S 0, fun _ => none⟩

def sampleView : CCoinsView :=
  CCoinsView.empty.insert ⟨uint256S 1, 0⟩ (Coin.ofOut sampleOut 1 true) (by decide)

end Rcpu.Supply
