import Rcpu.CoinSums

/-!
# Fees and the amounts in undo data

What `CheckTxInputs` charges for a transaction of a connected block, in the terms in which code that
reads the block and its undo data adds up amounts: the explicit amounts of the spent coins, of all
outputs, and of the fee-shaped outputs.
-/

namespace Rcpu.TxFees

open Checks Confidential Transaction TxCheck ConfidentialValidation Coins TxVerify Validation
  CoinSums

/-! ### Sums of amounts -/

def spentAmount (coins : List Coin) : Int := (coins.map fun coin => coin.out.nValue.getAmount).sum

def outAmount (tx : CTransaction) : Int := (tx.vout.map fun out => out.nValue.getAmount).sum

/-- The amounts of the outputs with an explicit value and an empty script. -/
def feeShaped (tx : CTransaction) : Int := (tx.vout.map feeAmount).sum

theorem plainAmount_add_feeAmount (out : CTxOut) :
    plainAmount out + feeAmount out = out.nValue.getAmount := by
  unfold plainAmount feeAmount
  by_cases hfee : out.IsFee
  · simp [hfee]
  · by_cases hexplicit : out.nValue.IsExplicit
    · simp [hfee, hexplicit]
    · simp [hfee, hexplicit, CConfidentialValue.getAmount_of_not_isExplicit hexplicit]

theorem sum_plainAmount (tx : CTransaction) :
    (tx.vout.map plainAmount).sum = outAmount tx - feeShaped tx := by
  have hsum := List.sum_map_add (l := tx.vout) (f := plainAmount) (g := feeAmount)
  simp only [plainAmount_add_feeAmount] at hsum
  rw [outAmount, feeShaped, hsum, add_sub_cancel_right]

theorem feeAmount_nonneg {tx : CTransaction} (h : Checked tx) {out : CTxOut} (hout : out ∈ tx.vout) :
    0 ≤ feeAmount out := by
  unfold feeAmount
  split_ifs with hfee
  · exact (h.amount out hout hfee.1).1
  · exact Int.le_refl 0

theorem feeShaped_nonneg {tx : CTransaction} (h : Checked tx) : 0 ≤ feeShaped tx := by
  apply List.sum_nonneg
  intro n hn
  obtain ⟨out, hout, rfl⟩ := List.mem_map.mp hn
  exact feeAmount_nonneg h hout

theorem feeShaped_eq_zero {tx : CTransaction} (h : Checked tx) :
    feeShaped tx = 0 ↔ ∀ out ∈ tx.vout, out.IsFee → out.nValue.getAmount = 0 := by
  constructor
  · intro hzero out hout hfee
    have hnonneg : ∀ n ∈ tx.vout.map feeAmount, 0 ≤ n := by
      simpa using fun out hout => feeAmount_nonneg h hout
    have hout' := List.all_zero_of_le_zero_le_of_sum_eq_zero hnonneg hzero
      (List.mem_map_of_mem hout)
    rwa [feeAmount, if_pos hfee] at hout'
  · intro hall
    apply List.sum_eq_zero
    intro n hn
    obtain ⟨out, hout, rfl⟩ := List.mem_map.mp hn
    unfold feeAmount
    split_ifs with hfee
    · exact hall out hout hfee
    · rfl

def chargedFee (tx : CTransaction) (coins : List Coin) : Int :=
  if tx.fCT then feeShaped tx else spentAmount coins - (outAmount tx - feeShaped tx)

/-- The explicit value that a confidential transaction takes out of sight: what it spends openly less
what it pays openly. -/
def hiddenFlow (tx : CTransaction) (coins : List Coin) : Int :=
  if tx.fCT then spentAmount coins - outAmount tx else 0

theorem chargedFee_add_hiddenFlow (tx : CTransaction) (coins : List Coin) :
    chargedFee tx coins + hiddenFlow tx coins =
      spentAmount coins - (tx.vout.map plainAmount).sum := by
  rw [sum_plainAmount]
  unfold chargedFee hiddenFlow
  split_ifs
  · ring
  · exact add_zero _

variable {𝔾 : Type} [AddCommGroup 𝔾] [Module Scalar 𝔾] [DecidableEq 𝔾]

section Inputs

variable {secp : Secp256k1 𝔾} {elementsMode : Bool} {params : ConsensusParams}
  {getCoin : COutPoint → Option Coin} {nSpendHeight : Nat} {tx : CTransaction} {fee : Int}

/-- **The fee that `CheckTxInputs` returns.** -/
theorem checkTxInputs_fee {coins : List Coin}
    (h : checkTxInputs secp elementsMode params getCoin nSpendHeight tx = .ok fee)
    (hcoins : tx.vin.map (fun txin => getCoin txin.prevout) = coins.map some) :
    fee = chargedFee tx coins ∧ MoneyRange fee := by
  obtain ⟨-, -, -, prevouts, hprevouts, hcheck⟩ := checkTxInputs_eq_ok.mp h
  obtain rfl := prevouts_eq_map_out hprevouts hcoins
  rcases hcheck with ⟨hct, -, hconfidential⟩ | ⟨hct, -, hplain⟩
  · obtain ⟨-, -, -, -, hbalance⟩ := checkConfidential_eq_ok.mp hconfidential
    obtain ⟨-, -, -, -, -, hfee, hrange, -, -⟩ := (verifyBalance_eq_some _).mp hbalance
    rw [chargedFee, if_pos hct]
    exact ⟨hfee, hrange⟩
  · obtain ⟨-, hrange, hfee⟩ := plainFee_eq_ok hplain
    rw [List.map_map, sum_plainAmount] at hfee
    rw [chargedFee, if_neg (by simp [hct])]
    exact ⟨hfee, hrange⟩

end Inputs

/-! ### Transactions of a connected block -/

section Block

variable {env : ChainEnv 𝔾} {pindex : CBlockIndex} {block : CBlock} {cb : CTransaction}
  {txs : List CTransaction} {view view' : CCoinsView} {undo : CBlockUndo}

/-- What a round on a transaction other than a coinbase charged and wrote. -/
theorem connectTx_charged {st st' : ConnectState} {tx : CTransaction} {i : Nat} {txundo : CTxUndo}
    (hcb : ¬ tx.IsCoinBase) (h : connectTx env pindex st (tx, i) = .ok st')
    (hupdate : updateCoins env.getHash st.view tx pindex.nHeight =
      (.ok (st'.view, txundo) : Except BlockFailure _)) :
    ∃ fee, checkTxInputs env.secp env.elementsMode env.params st.view.getCoin pindex.nHeight tx =
        .ok fee ∧
      tx.vin.map (fun txin => st.view.getCoin txin.prevout) = txundo.vprevout.map some ∧
      st'.nFees = st.nFees + fee := by
  obtain ⟨fee, -, hfee, -, hnFees, -⟩ := connectTx_eq_ok h
  rw [connectFee, if_neg hcb, connectInputs, bind_eq_ok] at hfee
  obtain ⟨fee', haccept, hrest⟩ := hfee
  simp only [bind_unit_eq_ok, pure_eq_ok] at hrest
  obtain ⟨-, -, rfl⟩ := hrest
  obtain ⟨mid, hspend, -⟩ := updateCoins_eq_ok.mp hupdate
  rw [spendTx, if_neg hcb] at hspend
  exact ⟨fee', mapError_eq_ok.mp haccept, (spendInputs_eq_ok.mp hspend).2.1, hnFees⟩

theorem nFees_foldlM_connectTx {n : Nat} {st st' : ConnectState}
    (hcb : ∀ tx ∈ txs, ¬ tx.IsCoinBase)
    (h : (txs.zipIdx (n + 1)).foldlM (connectTx env pindex) st = .ok st') :
    ∃ undos, st'.vtxundo = st.vtxundo ++ undos ∧ undos.length = txs.length ∧
      st'.nFees = st.nFees + ((txs.zip undos).map fun e => chargedFee e.1 e.2.vprevout).sum := by
  have hround : ∀ st st' tx i txundo, tx ∈ txs → connectTx env pindex st (tx, i) = .ok st' →
      updateCoins env.getHash st.view tx pindex.nHeight =
        (.ok (st'.view, txundo) : Except BlockFailure _) →
      st'.nFees + 0 = st.nFees + chargedFee tx txundo.vprevout := by
    intro st st' tx i txundo hmem hstep hupdate
    obtain ⟨fee, haccept, hcoins, hnFees⟩ := connectTx_charged (hcb tx hmem) hstep hupdate
    rw [hnFees, (checkTxInputs_fee haccept hcoins).1, add_zero]
  obtain ⟨undos, hundos, hlength, hsum⟩ := sum_foldlM_connectTx (φ := ConnectState.nFees)
    (a := fun _ _ => (0 : Int)) (b := fun tx undo => chargedFee tx undo.vprevout) hround h
  refine ⟨undos, hundos, hlength, ?_⟩
  simpa using hsum

/-- The local variables of `ConnectBlock` before the transaction at an index. -/
def connectBefore (env : ChainEnv 𝔾) (pindex : CBlockIndex) (view : CCoinsView) (block : CBlock)
    (i : Nat) : Except BlockFailure ConnectState :=
  (block.vtx.zipIdx.take i).foldlM (connectTx env pindex) ⟨view, 0, 0, []⟩

theorem length_vtxundo_connectBefore {i : Nat} {st : ConnectState} (hi : i ≤ block.vtx.length)
    (h : connectBefore env pindex view block i = .ok st) : st.vtxundo.length = i - 1 := by
  induction i generalizing st with
  | zero =>
    obtain rfl := pure_eq_ok.mp h
    rfl
  | succ i ih =>
    have hlt : i < block.vtx.zipIdx.length := by simpa using hi
    rw [connectBefore, List.take_succ_eq_append_getElem hlt, List.getElem_zipIdx,
      foldlM_concat_eq_ok] at h
    obtain ⟨mid, hmid, hstep⟩ := h
    obtain ⟨_, _, -, -, -, hvtxundo⟩ := connectTx_eq_ok hstep
    have hlength := ih (by omega) hmid
    rw [hvtxundo]
    split_ifs with hzero
    · omega
    · rw [List.length_append, List.length_singleton]
      omega

theorem vtxundo_foldlM_connectTx {entries : List (CTransaction × Nat)} {st st' : ConnectState}
    (h : entries.foldlM (connectTx env pindex) st = .ok st') :
    ∃ more, st'.vtxundo = st.vtxundo ++ more := by
  refine foldlM_invariant (P := fun acc => ∃ more, acc.vtxundo = st.vtxundo ++ more) ?_
    ⟨[], by simp⟩ h
  rintro acc ⟨tx, i⟩ acc' - ⟨more, hmore⟩ hstep
  obtain ⟨_, txundo, -, -, -, hvtxundo⟩ := connectTx_eq_ok hstep
  rw [hvtxundo, hmore]
  split_ifs
  · exact ⟨more, rfl⟩
  · exact ⟨more ++ [txundo], List.append_assoc ..⟩

/-- **What a connected block charged for a transaction**, and where its undo data has the coins that
were spent. -/
theorem exists_connectBefore (h : connectTransactions env block pindex view = .ok (view', undo))
    {i : Nat} {tx : CTransaction} (hi : block.vtx[i + 1]? = some tx) (hcb : ¬ tx.IsCoinBase) :
    ∃ st fee coins, connectBefore env pindex view block (i + 1) = .ok st ∧
      checkTxInputs env.secp env.elementsMode env.params st.view.getCoin pindex.nHeight tx =
        .ok fee ∧
      undo.vtxundo[i]? = some ⟨coins⟩ ∧
      tx.vin.map (fun txin => st.view.getCoin txin.prevout) = coins.map some := by
  simp only [connectTransactions, bind_eq_ok, pure_eq_ok, Prod.mk.injEq] at h
  obtain ⟨_, -, last, hloop, -, -, -, rfl⟩ := h
  obtain ⟨hlt, rfl⟩ := List.getElem?_eq_some_iff.mp hi
  have hlt' : i + 1 < block.vtx.zipIdx.length := by simpa using hlt
  have hsplit : block.vtx.zipIdx = block.vtx.zipIdx.take (i + 1) ++
      (block.vtx[i + 1], i + 1) :: block.vtx.zipIdx.drop (i + 2) := by
    conv_lhs => rw [← List.take_append_drop (i + 1) block.vtx.zipIdx]
    rw [List.drop_eq_getElem_cons hlt', List.getElem_zipIdx, Nat.zero_add]
  rw [hsplit, List.foldlM_append, bind_eq_ok] at hloop
  obtain ⟨st, hbefore, hloop⟩ := hloop
  obtain ⟨mid, hstep, hrest⟩ := foldlM_cons_eq_ok.mp hloop
  obtain ⟨_, txundo, -, hupdate, -, hvtxundo⟩ := connectTx_eq_ok hstep
  obtain ⟨fee, haccept, hcoins, -⟩ := connectTx_charged hcb hstep hupdate
  have hlength := length_vtxundo_connectBefore (i := i + 1) (by omega) hbefore
  obtain ⟨more, hmore⟩ := vtxundo_foldlM_connectTx hrest
  refine ⟨st, fee, txundo.vprevout, hbefore, haccept, ?_, hcoins⟩
  rw [if_neg (Nat.succ_ne_zero i)] at hvtxundo
  rw [hmore, hvtxundo, List.append_assoc, List.getElem?_append_right (by omega), hlength]
  simp

/-- A block that left undo data is not the genesis block: its transactions were connected. -/
theorem connectTransactions_of_vtxundo (h : connectBlock env block pindex view = .ok (view', undo))
    (hundo : undo.vtxundo ≠ []) :
    pindex.nHeight ≠ 0 ∧ (∃ cb txs, CheckedBlock block cb txs) ∧
      connectTransactions env block pindex view = .ok (view', undo) := by
  obtain ⟨hblock, -⟩ := connectBlock_eq_ok h
  simp only [connectBlock, bind_unit_eq_ok] at h
  obtain ⟨-, -, h⟩ := h
  split_ifs at h with hgenesis
  · rw [Except.ok.injEq, Prod.mk.injEq] at h
    exact absurd (h.2 ▸ rfl) hundo
  · exact ⟨(not_or.mp hgenesis).1, hblock, h⟩

/-- **What an accepted block charged for a transaction**, from the undo data. -/
theorem exists_charged (h : connectBlock env block pindex view = .ok (view', undo)) {i : Nat}
    {tx : CTransaction} {txundo : CTxUndo} (hi : block.vtx[i + 1]? = some tx)
    (hundo : undo.vtxundo[i]? = some txundo) :
    ∃ st fee, connectBefore env pindex view block (i + 1) = .ok st ∧
      checkTxInputs env.secp env.elementsMode env.params st.view.getCoin pindex.nHeight tx =
        .ok fee ∧
      fee = chargedFee tx txundo.vprevout ∧ MoneyRange fee ∧ Checked tx ∧
      tx.vin.length = txundo.vprevout.length := by
  have hne : undo.vtxundo ≠ [] := by
    rintro hnil
    simp [hnil] at hundo
  obtain ⟨-, ⟨cb, txs, hblock⟩, hconnect⟩ := connectTransactions_of_vtxundo h hne
  have hmem : tx ∈ txs := by
    rw [hblock.vtx_eq, List.getElem?_cons_succ] at hi
    exact List.mem_of_getElem? hi
  obtain ⟨st, fee, coins, hst, haccept, hcoins, hmap⟩ := exists_connectBefore hconnect hi
    (hblock.not_coinbase tx hmem)
  obtain rfl : txundo = ⟨coins⟩ := Option.some.inj (hundo.symm.trans hcoins)
  obtain ⟨hfee, hrange⟩ := checkTxInputs_fee haccept hmap
  exact ⟨st, fee, hst, haccept, hfee, hrange, hblock.checked tx (List.mem_cons_of_mem cb hmem),
    by simpa using congrArg List.length hmap⟩

theorem length_vprevout (h : connectTransactions env block pindex view = .ok (view', undo))
    (hvtx : block.vtx = cb :: txs) (hcb : ∀ tx ∈ txs, ¬ tx.IsCoinBase)
    {e : CTransaction × CTxUndo} (he : e ∈ txs.zip undo.vtxundo) :
    e.1.vin.length = e.2.vprevout.length := by
  obtain ⟨i, hi⟩ := List.mem_iff_getElem?.mp he
  rw [List.getElem?_zip_eq_some] at hi
  have hat : block.vtx[i + 1]? = some e.1 := by rw [hvtx, List.getElem?_cons_succ, hi.1]
  obtain ⟨_, _, coins, -, -, hcoins, hmap⟩ := exists_connectBefore h hat
    (hcb e.1 (List.mem_of_getElem? hi.1))
  rw [Option.some.inj (hi.2.symm.trans hcoins)]
  simpa using congrArg List.length hmap

/-- **The reward of a connected block.**  The coinbase claims at most the subsidy and the fees that
were charged. -/
theorem exists_reward (hblock : CheckedBlock block cb txs)
    (h : connectTransactions env block pindex view = .ok (view', undo)) :
    ∃ st valueOut, connectBefore env pindex view block block.vtx.length = .ok st ∧
      undo.vtxundo.length = txs.length ∧
      st.nFees = ((txs.zip undo.vtxundo).map fun e => chargedFee e.1 e.2.vprevout).sum ∧
      cb.getValueOut = .ok valueOut ∧
      valueOut ≤ st.nFees + getBlockSubsidy env.params pindex.nHeight := by
  simp only [connectTransactions, bind_eq_ok, pure_eq_ok, Prod.mk.injEq] at h
  obtain ⟨_, -, st, hloop, _, hreward, -, rfl⟩ := h
  rw [checkReward, hblock.vtx_eq] at hreward
  simp only [bind_eq_ok, mapError_eq_ok, require_eq_ok] at hreward
  obtain ⟨_, -, valueOut, hvalueOut, hle⟩ := hreward
  have hbefore : connectBefore env pindex view block block.vtx.length = .ok st := by
    rw [connectBefore, List.take_of_length_le (by simp)]
    exact hloop
  rw [hblock.vtx_eq, List.zipIdx_cons, foldlM_cons_eq_ok] at hloop
  obtain ⟨mid, hfirst, hloop⟩ := hloop
  obtain ⟨txfee, _, hfee, -, hnFees, hvtxundo⟩ := connectTx_eq_ok hfirst
  rw [connectFee, if_pos hblock.coinbase, Except.ok.injEq] at hfee
  obtain ⟨undos, hundos, hlength, hsum⟩ := nFees_foldlM_connectTx hblock.not_coinbase hloop
  rw [if_pos rfl] at hvtxundo
  rw [hvtxundo, List.nil_append] at hundos
  rw [hnFees, ← hfee, add_zero, zero_add] at hsum
  rw [hundos]
  exact ⟨st, valueOut, hbefore, hlength, hsum, hvalueOut, hle⟩

end Block

end Rcpu.TxFees
