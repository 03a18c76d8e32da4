import Rcpu.CoinIndexRuns
import Rcpu.TxFees

/-!
# Unclaimed rewards in the coin statistics index

`CustomAppend` takes for unclaimed what is missing between the explicit amounts that came in and those
that went out.  Over a block this is the part of the reward that the coinbase leaves, and besides the
explicit value that confidential transactions take out of sight.
-/

namespace Rcpu.IndexRewards

open Checks Tally Script Transaction ConfidentialValidation Coins TxVerify Validation
open Rcpu.Disconnect (isBIP30Unspendable)
open CoinSums TxFees CoinIndex CoinIndex.Counter IndexedChain CoinIndexRuns

/-! ### The open balance of a block -/

/-- The open balance and what has been accounted for as unclaimed. -/
def rewardsPart : Content →+ Int × Int where
  toFun x := (unclaimedRewards x.1, x.1 totalUnspendablesUnclaimedRewards)
  map_zero' := by simp [unclaimedRewards]
  map_add' x y := Prod.ext (map_add rewardsBalance x y) rfl

theorem rewardsPart_inCounter (counter : Counter) (n : Int) :
    rewardsPart (inCounter counter n) =
      (match counter with
        | totalPrevoutSpentAmount | totalSubsidy => n
        | totalNewOutputsExCoinbaseAmount | totalCoinbaseAmount | totalUnspendableAmount => -n
        | _ => 0,
      if counter = totalUnspendablesUnclaimedRewards then n else 0) := by
  cases counter <;> simp [rewardsPart, unclaimedRewards, inCounter]

theorem rewardsPart_coinWeight (outpoint : COutPoint) (coin : Coin) :
    rewardsPart (coinWeight outpoint coin) = 0 := by
  simp [rewardsPart, unclaimedRewards, coinWeight, inCounter]

theorem not_isUnspendable_of_isFee {out : CTxOut} (h : out.IsFee) :
    ¬ IsUnspendable out.scriptPubKey := by
  rw [h.2]
  decide

theorem rewardsPart_outputWeight (nHeight : Nat) (txid : Uint256) (tx : CTransaction)
    (entry : CTxOut × Nat) :
    rewardsPart (outputWeight nHeight txid tx entry) = (-plainAmount entry.1, 0) := by
  have hamount : ¬ entry.1.IsFee → entry.1.nValue.getAmount = plainAmount entry.1 := by
    intro hfee
    have hsum := plainAmount_add_feeAmount entry.1
    rw [feeAmount, if_neg hfee, add_zero] at hsum
    exact hsum.symm
  unfold outputWeight
  split_ifs with hunspendable hfee hcb
  · have hnot : ¬ entry.1.IsFee := fun hfee => not_isUnspendable_of_isFee hfee hunspendable
    rw [map_add, rewardsPart_inCounter, rewardsPart_inCounter, hamount hnot]
    simp
  · simp [plainAmount, hfee, Prod.ext_iff]
  · rw [map_add, rewardsPart_coinWeight, rewardsPart_inCounter, hamount hfee]
    simp
  · rw [map_add, rewardsPart_coinWeight, rewardsPart_inCounter, hamount hfee]
    simp

theorem rewardsPart_prevoutWeight (entry : CTxIn × Coin) :
    rewardsPart (prevoutWeight entry) = (entry.2.out.nValue.getAmount, 0) := by
  rw [prevoutWeight, map_sub, rewardsPart_coinWeight, rewardsPart_inCounter]
  simp

theorem rewardsPart_sum {α : Type} {w : α → Content} {f : α → Int} {l : List α}
    (h : ∀ x ∈ l, rewardsPart (w x) = (f x, 0)) :
    rewardsPart (l.map w).sum = ((l.map f).sum, 0) := by
  induction l with
  | nil => simp [Prod.ext_iff]
  | cons x l ih =>
    rw [List.forall_mem_cons] at h
    rw [List.map_cons, List.sum_cons, map_add, h.1, ih h.2, List.map_cons, List.sum_cons,
      Prod.mk_add_mk, add_zero]

def amountOf (_ : COutPoint) (coin : Coin) : Int := coin.out.nValue.getAmount

theorem rewardsPart_txWeight (getHash : CTransaction → Uint256) (nHeight : Nat)
    (vtxundo : List CTxUndo) (entry : CTransaction × Nat) :
    rewardsPart (txWeight getHash nHeight vtxundo entry) =
      (spentSum amountOf (spentCoins vtxundo entry) - (entry.1.vout.map plainAmount).sum, 0) := by
  have houts : (entry.1.vout.zipIdx.map fun e => -plainAmount e.1).sum =
      -(entry.1.vout.map plainAmount).sum := by
    rw [List.sum_neg, List.map_map]
    exact congrArg List.sum (map_zipIdx_fst (fun out => -plainAmount out) entry.1.vout)
  rw [txWeight, map_add, rewardsPart_sum fun e _ => rewardsPart_outputWeight nHeight _ _ e,
    rewardsPart_sum fun e _ => rewardsPart_prevoutWeight e, houts, Prod.mk_add_mk, add_zero, spentSum,
    neg_add_eq_sub]
  rfl

/-! ### The rewards of a connected block -/

/-- The explicit value that the transactions of a block take out of sight. -/
def hiddenFlows (stored : StoredBlock) : Int :=
  ((stored.block.vtx.tail.zip stored.undo.vtxundo).map fun e => hiddenFlow e.1 e.2.vprevout).sum

theorem spentSum_amountOf {vin : List CTxIn} {coins : List Coin} (h : vin.length = coins.length) :
    spentSum amountOf (vin.zip coins) = spentAmount coins := by
  have hsnd : (vin.zip coins).map Prod.snd = coins := List.map_snd_zip h.ge
  conv_rhs => rw [← hsnd, spentAmount, List.map_map]
  rfl

section Block

variable {𝔾 : Type} {env : ChainEnv 𝔾} {stored : StoredBlock} {cb : CTransaction}
  {txs : List CTransaction}

/-- What the coinbase takes from the open balance. -/
def coinbaseTaken (env : ChainEnv 𝔾) (pindex : CBlockIndex) (cb : CTransaction) : Int :=
  if isBIP30Unspendable pindex then getBlockSubsidy env.params pindex.nHeight
  else (cb.vout.map plainAmount).sum

theorem rewardsPart_appendWeight_coinbase (hcb : cb.IsCoinBase) (i : Nat) :
    rewardsPart (appendWeight env stored (cb, i)) = (-coinbaseTaken env stored.pindex cb, 0) := by
  unfold appendWeight coinbaseTaken
  dsimp only
  by_cases hbip30 : isBIP30Unspendable stored.pindex
  · rw [if_pos ⟨hbip30, hcb⟩, if_pos hbip30, map_add, rewardsPart_inCounter, rewardsPart_inCounter]
    simp
  · rw [if_neg (fun h => hbip30 h.1), if_neg hbip30, rewardsPart_txWeight, spentCoins, if_pos hcb]
    simp [spentSum]

theorem rewardsPart_appendWeight {tx : CTransaction} (hcb : ¬ tx.IsCoinBase) (i : Nat) :
    rewardsPart (appendWeight env stored (tx, i)) =
      (spentSum amountOf (spentCoins stored.undo.vtxundo (tx, i)) -
        (tx.vout.map plainAmount).sum, 0) := by
  rw [appendWeight, if_neg (fun h => hcb h.2), rewardsPart_txWeight]

/-- The transactions after the coinbase leave their fees and what they hide. -/
theorem map_openAmount {undos : List CTxUndo} (hcb : ∀ tx ∈ txs, ¬ tx.IsCoinBase)
    (hlength : undos.length = txs.length)
    (hvin : ∀ e ∈ txs.zip undos, e.1.vin.length = e.2.vprevout.length) :
    (txs.zipIdx 1).map (fun e =>
        spentSum amountOf (spentCoins undos e) - (e.1.vout.map plainAmount).sum) =
      (txs.zip undos).map fun e =>
        chargedFee e.1 e.2.vprevout + hiddenFlow e.1 e.2.vprevout := by
  apply List.ext_getElem
  · simp [hlength]
  · intro i hi hi'
    have htx : i < txs.length := by simpa using hi
    have hundo : i < undos.length := by omega
    have hnot := hcb txs[i] (List.getElem_mem htx)
    have hzip : (txs[i], undos[i]) ∈ txs.zip undos :=
      List.mem_iff_getElem.mpr ⟨i, by simpa using hi', List.getElem_zip⟩
    have hspent : spentCoins undos (txs[i], 1 + i) = txs[i].vin.zip undos[i].vprevout := by
      simp [spentCoins, hnot, Nat.add_comm 1 i, undoAt, List.getElem?_eq_getElem hundo]
    rw [List.getElem_map, List.getElem_zipIdx, hspent, spentSum_amountOf (hvin _ hzip),
      List.getElem_map, List.getElem_zip, chargedFee_add_hiddenFlow]

theorem rewardsPart_appendedBody (env : ChainEnv 𝔾) (hheight : stored.pindex.nHeight > 0)
    (hblock : CheckedBlock stored.block cb txs)
    (hlength : stored.undo.vtxundo.length = txs.length)
    (hvin : ∀ e ∈ txs.zip stored.undo.vtxundo, e.1.vin.length = e.2.vprevout.length) :
    rewardsPart (appendedBody env stored) =
      (((txs.zip stored.undo.vtxundo).map fun e => chargedFee e.1 e.2.vprevout).sum +
        hiddenFlows stored - coinbaseTaken env stored.pindex cb, 0) := by
  have htail : ∀ e ∈ txs.zipIdx 1, rewardsPart (appendWeight env stored e) =
      (spentSum amountOf (spentCoins stored.undo.vtxundo e) - (e.1.vout.map plainAmount).sum, 0) := by
    rintro ⟨tx, i⟩ hmem
    exact rewardsPart_appendWeight (hblock.not_coinbase tx (List.fst_mem_of_mem_zipIdx hmem)) i
  rw [appendedBody, if_pos hheight, hblock.vtx_eq, List.zipIdx_cons, List.map_cons, List.sum_cons,
    map_add, rewardsPart_appendWeight_coinbase hblock.coinbase, rewardsPart_sum htail,
    map_openAmount hblock.not_coinbase hlength hvin, List.sum_map_add, hiddenFlows, hblock.vtx_eq,
    List.tail_cons, Prod.mk_add_mk, add_zero, neg_add_eq_sub]

end Block

/-! ### Chains of blocks -/

variable {𝔾 : Type} [AddCommGroup 𝔾] [Module Scalar 𝔾] [DecidableEq 𝔾]

/-- `ConnectBlock` accepts a block at a height and the index appends it.  The hash of the genesis block
is that of no other block. -/
structure Appends (env : ChainEnv 𝔾) (nHeight : Nat) (index : CoinStatsIndex) (view : CCoinsView)
    (stored : StoredBlock) (index' : CoinStatsIndex) (view' : CCoinsView) : Prop where
  height : stored.pindex.nHeight = nHeight
  genesis : stored.block.hash = env.params.hashGenesisBlock → nHeight = 0
  connected : connectBlock env stored.block stored.pindex view = .ok (view', stored.undo)
  appended : customAppend env index stored = .ok index'

/-- The index and the coins after a number of blocks, each accepted by `ConnectBlock`. -/
inductive IndexedBlocks (env : ChainEnv 𝔾) : Nat → CoinStatsIndex → CCoinsView → Prop where
  | start : IndexedBlocks env 0 ⟨Tallies.empty, false, Database.empty⟩ CCoinsView.empty
  | append {n : Nat} {index index' : CoinStatsIndex} {view view' : CCoinsView}
      {stored : StoredBlock} : IndexedBlocks env n index view →
      Appends env n index view stored index' view' → IndexedBlocks env (n + 1) index' view'

variable {env : ChainEnv 𝔾} {n : Nat} {index index' : CoinStatsIndex} {view view' : CCoinsView}
  {stored : StoredBlock}

theorem Appends.connected_transactions (h : Appends env n index view stored index' view')
    (hn : 1 ≤ n) :
    ∃ cb txs, CheckedBlock stored.block cb txs ∧
      connectTransactions env stored.block stored.pindex view = .ok (view', stored.undo) := by
  obtain ⟨⟨cb, txs, hblock⟩, -, ⟨hgenesis, -⟩ | ⟨-, hconnect⟩⟩ := connectBlock_eq_ok h.connected
  · have hzero : n = 0 := by
      rcases hgenesis with hheight | hhash
      · exact h.height.symm.trans hheight
      · exact h.genesis hhash
    omega
  · exact ⟨cb, txs, hblock, hconnect⟩

theorem Appends.settles (h : Appends env n index view stored index' view') :
    content index'.tallies = settleRewards (content index.tallies +
      (inCounter totalSubsidy (getBlockSubsidy env.params stored.pindex.nHeight) +
        appendedBody env stored)) := by
  have hundo : stored.pindex.nHeight > 0 → stored.HasUndo := by
    intro hheight
    obtain ⟨cb, txs, hblock, hconnect⟩ := h.connected_transactions (h.height ▸ hheight)
    obtain ⟨_, _, -, hlength, -⟩ := exists_reward hblock hconnect
    exact hasUndo_of_length hblock hlength
  obtain ⟨st, hst, hiff⟩ := customAppend_settles env hundo index
  obtain ⟨-, rfl⟩ := (hiff index').mp h.appended
  exact hst

/-- Every append settles the rewards, so that none are open between two blocks. -/
theorem rewardsBalance_of_indexedBlocks (h : IndexedBlocks env n index view) :
    rewardsBalance (content index.tallies) = 0 := by
  cases h with
  | start => rw [content_empty, map_zero]
  | append _ happend =>
    rw [happend.settles]
    exact balance_settle rewardsBalance_rewardsAccount _

theorem rewardsPart_settleRewards (x : Content) :
    rewardsPart (settleRewards x) = (0, (rewardsPart x).1 + (rewardsPart x).2) := by
  have haccount : rewardsPart rewardsAccount = (-1, 1) := by
    rw [rewardsAccount, map_add, rewardsPart_inCounter, rewardsPart_inCounter]
    rfl
  have hbalance : rewardsBalance x = (rewardsPart x).1 := rfl
  rw [settleRewards, settle, map_add, map_zsmul, haccount, hbalance]
  ext <;> simp [add_comm]

theorem appends_of_extends {blockman : BlockManager} {s : RunState} {node : Node}
    (hs : Kept env blockman s) (hnode : Extends env blockman s.chain node)
    (happend : customAppend env s.index node.stored = .ok index') :
    Appends env s.chain.length s.index (tipView s.chain) node.stored index' node.view where
  height := hnode.height
  genesis := by
    intro hhash
    obtain ⟨stored, hstored, hzero⟩ := (hs.valid.cons hnode).connectedChain.genesis_stored
    obtain ⟨-, hindex, -⟩ := connectBlock_eq_ok hnode.connected
    have hnode' := hnode.stored
    rw [Node.hash, hindex, hhash, hstored, Option.some.injEq] at hnode'
    rw [← hnode.height, ← hnode', hzero]
  connected := hnode.connected
  appended := happend

/-- **What `CustomAppend` takes for unclaimed**: what the coinbase leaves of the reward, and besides
all that the transactions hide. -/
theorem Appends.exists_unclaimed (hchain : IndexedBlocks env n index view)
    (h : Appends env n index view stored index' view') (hn : 1 ≤ n) :
    ∃ cb st valueOut, stored.block.vtx.head? = some cb ∧
      connectBefore env stored.pindex view stored.block stored.block.vtx.length = .ok st ∧
      cb.getValueOut = .ok valueOut ∧ valueOut ≤ st.nFees + getBlockSubsidy env.params n ∧
      index'.tallies.totals totalUnspendablesUnclaimedRewards -
          index.tallies.totals totalUnspendablesUnclaimedRewards =
        getBlockSubsidy env.params n + st.nFees + hiddenFlows stored -
          if isBIP30Unspendable stored.pindex then getBlockSubsidy env.params n else valueOut := by
  obtain ⟨cb, txs, hblock, hconnect⟩ := h.connected_transactions hn
  obtain ⟨st, valueOut, hst, hlength, hnFees, hvalueOut, hle⟩ := exists_reward hblock hconnect
  have hbody := rewardsPart_appendedBody env (h.height ▸ hn) hblock hlength fun e he =>
    length_vprevout hconnect hblock.vtx_eq hblock.not_coinbase he
  rw [← hnFees, coinbaseTaken, ← getValueOut_eq_sum hvalueOut] at hbody
  have hsubsidy := rewardsPart_inCounter totalSubsidy (getBlockSubsidy env.params n)
  have hopen : (rewardsPart (content index.tallies)).1 = 0 := rewardsBalance_of_indexedBlocks hchain
  have hsettled := congrArg (fun x => (rewardsPart x).2) h.settles
  rw [h.height] at hle hsettled hbody
  rw [rewardsPart_settleRewards, map_add, map_add, hsubsidy, hbody] at hsettled
  simp only [Prod.fst_add, Prod.snd_add, hopen, reduceCtorEq, if_false, add_zero, zero_add]
    at hsettled
  refine ⟨cb, st, valueOut, by rw [hblock.vtx_eq]; rfl, hst, hvalueOut, hle, ?_⟩
  rw [sub_eq_iff_eq_add]
  refine hsettled.trans ?_
  rw [← add_sub_assoc, ← add_assoc]
  rfl

/-! ### The sample chain -/

theorem exists_indexedBlocks {blockman : BlockManager} {chain : List Node}
    (h : ValidChain env blockman chain) :
    ∃ s, Kept env blockman s ∧ Tracked env blockman s ∧ s.chain = chain ∧
      IndexedBlocks env chain.length s.index (tipView chain) := by
  induction h with
  | nil => exact ⟨.start, kept_start, tracked_start, rfl, .start⟩
  | cons _ hnode ih =>
    obtain ⟨s, hs, hlog, rfl, hblocks⟩ := ih
    obtain ⟨index', happend⟩ := hlog.exists_customAppend hs hnode
    exact ⟨_, hs.append hnode happend, hlog.append hs hnode happend, rfl,
      hblocks.append (appends_of_extends hs hnode happend)⟩

theorem exists_appends_sampleNode {n : Nat} (hn : n ≤ 101) :
    ∃ index index', IndexedBlocks sampleEnv n index (tipView (sampleChain n)) ∧
      Appends sampleEnv n index (tipView (sampleChain n)) (sampleNode n).stored index'
        (sampleNode n).view := by
  obtain ⟨s, hs, hlog, hchain, hblocks⟩ :=
    exists_indexedBlocks (validChain_sampleChain (Nat.le_succ_of_le hn))
  have hnode : Extends sampleEnv sampleBlocks s.chain (sampleNode n) :=
    hchain ▸ extends_sampleNode hn
  obtain ⟨index', happend⟩ := hlog.exists_customAppend hs hnode
  have happends := appends_of_extends hs hnode happend
  rw [hchain, length_sampleChain] at happends
  rw [length_sampleChain] at hblocks
  exact ⟨s.index, index', hblocks, happends⟩

/-- **The unclaimed rewards are the unclaimed part of the reward** exactly if the block hides as
much as it reveals. -/
theorem unclaimed_rewards_iff (env : ChainEnv 𝔾) (n : Nat) (index index' : CoinStatsIndex)
    (view view' : CCoinsView) (stored : StoredBlock) (hchain : IndexedBlocks env n index view)
    (h : Appends env n index view stored index' view') (hn : 1 ≤ n) :
    ∃ cb st valueOut, stored.block.vtx.head? = some cb ∧
      connectBefore env stored.pindex view stored.block stored.block.vtx.length = .ok st ∧
      cb.getValueOut = .ok valueOut ∧
      ((index'.tallies.totals totalUnspendablesUnclaimedRewards -
            index.tallies.totals totalUnspendablesUnclaimedRewards =
          getBlockSubsidy env.params n + st.nFees - valueOut ∧
        0 ≤ index'.tallies.totals totalUnspendablesUnclaimedRewards -
          index.tallies.totals totalUnspendablesUnclaimedRewards) ↔
        hiddenFlows stored =
          if isBIP30Unspendable stored.pindex then getBlockSubsidy env.params n - valueOut else 0) := by
  obtain ⟨cb, st, valueOut, hhead, hst, hvalueOut, hle, hdelta⟩ := h.exists_unclaimed hchain hn
  refine ⟨cb, st, valueOut, hhead, hst, hvalueOut, ?_⟩
  rw [hdelta]
  split_ifs
  · omega
  · omega

/-- The block that pays the first output claims a thousand of its reward. -/
theorem unclaimed_rewards_first_block :
    ∃ index index' view', IndexedBlocks sampleEnv 1 index CCoinsView.empty ∧
      Appends sampleEnv 1 index CCoinsView.empty (sampleNode 1).stored index' view' ∧
      hiddenFlows (sampleNode 1).stored = 0 ∧
      index'.tallies.totals totalUnspendablesUnclaimedRewards -
        index.tallies.totals totalUnspendablesUnclaimedRewards =
          getBlockSubsidy sampleEnv.params 1 + 0 - 1000 := by
  obtain ⟨index, index', hblocks, happends⟩ := exists_appends_sampleNode (n := 1) (by decide)
  obtain ⟨cb, st, valueOut, hhead, hst, hvalueOut, hiff⟩ := unclaimed_rewards_iff sampleEnv 1 index
    index' _ _ _ hblocks happends (Nat.le_refl 1)
  obtain rfl : sampleCoinbase 1 fundingOut = cb := Option.some.inj hhead
  obtain rfl : (1000 : Int) = valueOut := Except.ok.inj hvalueOut
  have hfees : (0 : Int) = st.nFees := congrArg ConnectState.nFees (Except.ok.inj hst)
  have hhidden : hiddenFlows (sampleNode 1).stored = 0 := rfl
  have hdelta := (hiff.mpr (hhidden.trans (if_neg (by decide)).symm)).1
  rw [← hfees] at hdelta
  exact ⟨index, index', _, hblocks, happends, hhidden, hdelta⟩

/-- A transaction spends a thousand into a commitment and pays a fee of ten.  The index takes the whole
thousand for unclaimed reward. -/
theorem unclaimed_rewards_blinding_block :
    ∃ index index' view' st, IndexedBlocks sampleEnv 101 index fundedView ∧
      Appends sampleEnv 101 index fundedView (sampleNode 101).stored index' view' ∧
      connectBefore sampleEnv (sampleIndex 101) fundedView (sampleNode 101).stored.block 2 = .ok st ∧
      st.nFees = 10 ∧ (idleCoinbase 101).getValueOut = .ok 0 ∧
      index'.tallies.totals totalUnspendablesUnclaimedRewards -
        index.tallies.totals totalUnspendablesUnclaimedRewards =
          getBlockSubsidy sampleEnv.params 101 + 1000 := by
  obtain ⟨index, index', hblocks, happends⟩ := exists_appends_sampleNode (n := 101) (by decide)
  rw [tipView_sampleChain (by decide) (by decide)] at hblocks happends
  obtain ⟨cb, st, valueOut, hhead, hst, hvalueOut, -, hdelta⟩ :=
    happends.exists_unclaimed hblocks (by decide)
  obtain rfl : idleCoinbase 101 = cb := Option.some.inj hhead
  obtain rfl : (0 : Int) = valueOut := Except.ok.inj hvalueOut
  have hfees : (10 : Int) = st.nFees := congrArg ConnectState.nFees (Except.ok.inj hst)
  have hhidden : hiddenFlows (sampleNode 101).stored = 990 := rfl
  rw [← hfees, hhidden, if_neg (by decide)] at hdelta
  refine ⟨index, index', _, st, hblocks, happends, hst, hfees.symm, hvalueOut, ?_⟩
  rw [hdelta]
  ring

end Rcpu.IndexRewards
