import Rcpu.CoinIndex

/-!
# Chains of connected blocks

The chains that the coin statistics index follows: blocks that `ConnectBlock` accepted one after the
other, starting with the genesis block, with the coins after each.  The block manager finds a block
and its undo data by hash, so the hash of its tip determines a chain.
-/

namespace Rcpu.IndexedChain

open ByteStream WeightedMap Tally Confidential Transaction ConfidentialValidation Coins Validation
  Disconnect CoinStats CoinSums CoinIndex CoinIndex.Counter

structure Node where
  stored : StoredBlock
  view : CCoinsView

def Node.hash (node : Node) : Uint256 := node.stored.pindex.hash

def tipView : List Node → CCoinsView
  | [] => CCoinsView.empty
  | node :: _ => node.view

variable {𝔾 : Type} [AddCommGroup 𝔾] [Module Scalar 𝔾] [DecidableEq 𝔾]

/-- `ConnectBlock` accepts a block on top of a chain. -/
structure Connects (env : ChainEnv 𝔾) (blockman : BlockManager) (chain : List Node) (node : Node) :
    Prop where
  stored : blockman node.hash = some node.stored
  height : node.stored.pindex.nHeight = chain.length
  genesis : chain = [] → node.hash = env.params.hashGenesisBlock
  connected : connectBlock env node.stored.block node.stored.pindex (tipView chain) =
    .ok (node.view, node.stored.undo)

inductive ConnectedChain (env : ChainEnv 𝔾) (blockman : BlockManager) : List Node → Prop where
  | nil : ConnectedChain env blockman []
  | cons {chain : List Node} {node : Node} : ConnectedChain env blockman chain →
      Connects env blockman chain node → ConnectedChain env blockman (node :: chain)

/-- A connected block extends a chain of the index, but for the coinbases that BIP30 made
unspendable; where BIP30 is not checked, the height in the coinbase keeps its outputs apart. -/
structure Extends (env : ChainEnv 𝔾) (blockman : BlockManager) (chain : List Node) (node : Node) :
    Prop where
  stored : blockman node.hash = some node.stored
  height : node.stored.pindex.nHeight = chain.length
  genesis : chain = [] → node.hash = env.params.hashGenesisBlock
  parent : ∀ tip rest, chain = tip :: rest → node.stored.pindex.prevHash = tip.hash
  connected : connectBlock env node.stored.block node.stored.pindex (tipView chain) =
    .ok (node.view, node.stored.undo)
  spendable : isBIP30Unspendable node.stored.pindex = false
  unrepeated : enforceBIP30 env.params node.stored.pindex = false →
    ∀ tx ∈ node.stored.block.vtx, tx.IsCoinBase → ∀ o,
      (CCoinsView.createdCoin (env.getHash tx) tx node.stored.pindex.nHeight o).isSome →
        (tipView chain).getCoin o = none

inductive ValidChain (env : ChainEnv 𝔾) (blockman : BlockManager) : List Node → Prop where
  | nil : ValidChain env blockman []
  | cons {chain : List Node} {node : Node} : ValidChain env blockman chain →
      Extends env blockman chain node → ValidChain env blockman (node :: chain)

variable {env : ChainEnv 𝔾} {blockman : BlockManager} {chain chain' : List Node} {node node' : Node}

/-! ### Connected blocks -/

theorem ConnectedChain.tail (h : ConnectedChain env blockman (node :: chain)) :
    ConnectedChain env blockman chain := by
  cases h with
  | cons hchain _ => exact hchain

theorem ConnectedChain.connects (h : ConnectedChain env blockman (node :: chain)) :
    Connects env blockman chain node := by
  cases h with
  | cons _ hnode => exact hnode

theorem ConnectedChain.genesis_stored (h : ConnectedChain env blockman (node :: chain)) :
    ∃ stored, blockman env.params.hashGenesisBlock = some stored ∧ stored.pindex.nHeight = 0 := by
  induction chain generalizing node with
  | nil =>
    refine ⟨node.stored, ?_, h.connects.height⟩
    rw [← h.connects.genesis rfl, h.connects.stored]
  | cons tip rest ih => exact ih h.tail

/-- A block is the genesis block, which creates no coins, or its transactions were connected. -/
theorem ConnectedChain.cases_connected (h : ConnectedChain env blockman (node :: chain)) :
    ∃ cb txs, CheckedBlock node.stored.block cb txs ∧
      ((node.stored.pindex.nHeight = 0 ∧ chain = [] ∧ node.view = CCoinsView.empty) ∨
        (node.stored.pindex.nHeight > 0 ∧
          connectTransactions env node.stored.block node.stored.pindex (tipView chain) =
            .ok (node.view, node.stored.undo))) := by
  have hheight := h.connects.height
  obtain ⟨⟨cb, txs, hblock⟩, hhash, ⟨hgenesis, hview⟩ | ⟨hnot, hconnect⟩⟩ :=
    connectBlock_eq_ok h.connects.connected
  · have hzero : node.stored.pindex.nHeight = 0 := by
      rcases hgenesis with hzero | hgenesis
      · exact hzero
      · -- the hash is that of the block at the bottom of the chain
        obtain ⟨stored, hstored, hzero⟩ := h.genesis_stored
        have hnode := h.connects.stored
        rw [Node.hash, hhash, hgenesis, hstored] at hnode
        rw [← Option.some.inj hnode, hzero]
    have hnil : chain = [] := List.length_eq_zero_iff.mp (hheight ▸ hzero)
    exact ⟨cb, txs, hblock, .inl ⟨hzero, hnil, by rw [hview, hnil, tipView]⟩⟩
  · exact ⟨cb, txs, hblock, .inr ⟨Nat.pos_of_ne_zero (not_or.mp hnot).1, hconnect⟩⟩

theorem ConnectedChain.valued (h : ConnectedChain env blockman chain) : Valued (tipView chain) := by
  induction h with
  | nil => exact valued_empty
  | cons hchain hnode ih =>
    obtain ⟨cb, txs, hblock, ⟨-, -, hview⟩ | ⟨-, hconnect⟩⟩ := (hchain.cons hnode).cases_connected
    · rw [tipView, hview]
      exact valued_empty
    · exact valued_connectTransactions hblock ih hconnect

/-! ### Chains of the index -/

theorem ValidChain.tail (h : ValidChain env blockman (node :: chain)) :
    ValidChain env blockman chain := by
  cases h with
  | cons hchain _ => exact hchain

theorem ValidChain.extends (h : ValidChain env blockman (node :: chain)) :
    Extends env blockman chain node := by
  cases h with
  | cons _ hnode => exact hnode

theorem ValidChain.of_append {above : List Node} (h : ValidChain env blockman (above ++ chain)) :
    ValidChain env blockman chain := by
  induction above with
  | nil => exact h
  | cons _ _ ih => exact ih h.tail

theorem Extends.stored_eq (h : Extends env blockman chain node)
    (h' : Extends env blockman chain' node') (hhash : node.hash = node'.hash) :
    node.stored = node'.stored := by
  have hstored := h.stored
  rw [hhash, h'.stored] at hstored
  exact (Option.some.inj hstored).symm

theorem Extends.length_eq (h : Extends env blockman chain node)
    (h' : Extends env blockman chain' node') (hhash : node.hash = node'.hash) :
    chain.length = chain'.length := by
  rw [← h.height, h.stored_eq h' hhash, h'.height]

theorem Extends.eq_of_hash_eq (h : Extends env blockman chain node)
    (h' : Extends env blockman chain node') (hhash : node.hash = node'.hash) : node = node' := by
  have hstored := h.stored_eq h' hhash
  have hconnected := h.connected
  rw [hstored, h'.connected, Except.ok.injEq, Prod.mk.injEq] at hconnected
  obtain ⟨stored, view⟩ := node
  obtain ⟨stored', view'⟩ := node'
  rw [Node.mk.injEq]
  exact ⟨hstored, hconnected.1.symm⟩

/-- **The hash of its tip determines a chain.** -/
theorem ValidChain.eq_of_hash_eq (h : ValidChain env blockman (node :: chain))
    (h' : ValidChain env blockman (node' :: chain')) (hhash : node.hash = node'.hash) :
    node :: chain = node' :: chain' := by
  have hchain : chain = chain' := by
    induction chain generalizing node node' chain' with
    | nil =>
      have hlength := h.extends.length_eq h'.extends hhash
      rw [List.length_nil] at hlength
      exact (List.length_eq_zero_iff.mp hlength.symm).symm
    | cons tip rest ih =>
      cases chain' with
      | nil =>
        have hlength := h.extends.length_eq h'.extends hhash
        cases hlength
      | cons tip' rest' =>
        have hparent : tip.hash = tip'.hash := by
          rw [← h.extends.parent tip rest rfl, h.extends.stored_eq h'.extends hhash,
            h'.extends.parent tip' rest' rfl]
        obtain rfl := ih h.tail h'.tail hparent
        rw [h.tail.extends.eq_of_hash_eq h'.tail.extends hparent]
  subst hchain
  rw [h.extends.eq_of_hash_eq h'.extends hhash]

theorem ValidChain.connectedChain (h : ValidChain env blockman chain) :
    ConnectedChain env blockman chain := by
  induction h with
  | nil => exact .nil
  | cons _ hnode ih => exact ih.cons ⟨hnode.stored, hnode.height, hnode.genesis, hnode.connected⟩

theorem ValidChain.cases_connected (h : ValidChain env blockman (node :: chain)) :
    (node.stored.pindex.nHeight = 0 ∧ chain = [] ∧ node.view = CCoinsView.empty) ∨
      (node.stored.pindex.nHeight > 0 ∧ ∃ cb txs, CheckedBlock node.stored.block cb txs ∧
        (enforceBIP30 env.params node.stored.pindex = false → ∀ o,
          (CCoinsView.createdCoin (env.getHash cb) cb node.stored.pindex.nHeight o).isSome →
            (tipView chain).getCoin o = none) ∧
        connectTransactions env node.stored.block node.stored.pindex (tipView chain) =
          .ok (node.view, node.stored.undo)) := by
  obtain ⟨cb, txs, hblock, hgenesis | ⟨hheight, hconnect⟩⟩ := h.connectedChain.cases_connected
  · exact .inl hgenesis
  · have hmem : cb ∈ node.stored.block.vtx := hblock.vtx_eq ▸ List.mem_cons_self
    have hskip := fun henforce => h.extends.unrepeated henforce cb hmem hblock.coinbase
    exact .inr ⟨hheight, cb, txs, hblock, hskip, hconnect⟩

theorem ValidChain.hasUndo (h : ValidChain env blockman (node :: chain))
    (hheight : node.stored.pindex.nHeight > 0) : node.stored.HasUndo := by
  rcases h.cases_connected with ⟨hzero, -⟩ | ⟨-, cb, txs, hblock, hskip, hconnect⟩
  · omega
  · exact hasUndo_of_length hblock (coinSum_connectTransactions (v := coinMeasure) hblock hskip
      hconnect).1

theorem ValidChain.valued (h : ValidChain env blockman chain) : Valued (tipView chain) :=
  h.connectedChain.valued

/-! ### The statistics of a chain -/

def chainContent {𝔾 : Type} (env : ChainEnv 𝔾) : List Node → Content
  | [] => 0
  | node :: chain => settleRewards (chainContent env chain + blockWeight env node.stored)

theorem rewardsBalance_chainContent {𝔾 : Type} (env : ChainEnv 𝔾) (chain : List Node) :
    rewardsBalance (chainContent env chain) = 0 := by
  cases chain with
  | nil => exact map_zero _
  | cons node chain => exact balance_settle rewardsBalance_rewardsAccount _

/-- The counters of a chain are sums over the coins at its tip. -/
theorem ValidChain.coinPart_chainContent (h : ValidChain env blockman chain) :
    coinPart (chainContent env chain) = coinSum coinMeasure (tipView chain) := by
  induction h with
  | nil =>
    rw [chainContent, map_zero, tipView]
    exact sumOver_empty.symm
  | cons hchain hnode ih =>
    rw [chainContent, coinPart_settleRewards, map_add, ih]
    rcases (hchain.cons hnode).cases_connected with
      ⟨hzero, rfl, hview⟩ | ⟨hheight, cb, txs, hblock, hskip, hconnect⟩
    · rw [coinPart_blockWeight_genesis hzero, add_zero, tipView, tipView, hview]
    · exact coinPart_blockWeight hheight hblock hskip hconnect

/-! ### What the statistics say of the coins -/

section Coins

variable (view : CCoinsView)

def outputCount : Nat := (pairs view.coins).card

def totalBogoSize : Nat := ((pairs view.coins).map fun e => getBogoSize e.2.out.scriptPubKey).sum

def explicitTotal : Int :=
  (((pairs view.coins).filter fun e => e.2.out.nValue.IsExplicit).map fun e =>
    e.2.out.nValue.getAmount).sum

def commitments : Nat := (pairs view.coins).countP fun e => e.2.out.nValue.IsCommitment

def encodings : Multiset Bytes := (pairs view.coins).map fun e => txOutSer e.1 e.2

structure Describes (st : Tallies) : Prop where
  count : st.totals transactionOutputCount = outputCount view
  bogo : st.totals bogoSize = totalBogoSize view
  amount : st.totals totalAmount = explicitTotal view
  confidential : st.confidentialOutputs = commitments view
  muhash : st.muhash.finalize = ⟨encodings view, 0⟩

end Coins

theorem sum_coinMeasure (coins : Multiset (COutPoint × Coin)) :
    (coins.map fun e => coinMeasure e.1 e.2).sum =
      ((coins.card : Int),
        (((coins.map fun e => getBogoSize e.2.out.scriptPubKey).sum : Nat) : Int),
        ((coins.filter fun e => e.2.out.nValue.IsExplicit).map fun e =>
          e.2.out.nValue.getAmount).sum,
        ((coins.countP fun e => ¬ e.2.out.nValue.IsExplicit : Nat) : Int),
        fun b => ((coins.map fun e => txOutSer e.1 e.2).count b : Int)) := by
  induction coins using Multiset.induction with
  | empty => rfl
  | cons e coins ih =>
    rw [Multiset.map_cons, Multiset.sum_cons, ih, coinMeasure]
    simp only [Prod.mk_add_mk, Prod.mk.injEq]
    refine ⟨?_, ?_, ?_, ?_, ?_⟩
    · rw [Multiset.card_cons]
      omega
    · rw [Multiset.map_cons, Multiset.sum_cons, Int.natCast_add]
    · by_cases hexplicit : e.2.out.nValue.IsExplicit
      · simp [hexplicit]
      · simp [hexplicit, CConfidentialValue.getAmount_of_not_isExplicit hexplicit]
    · rw [Multiset.countP_cons, Int.natCast_add, add_comm]
      by_cases hexplicit : e.2.out.nValue.IsExplicit
      · simp [hexplicit]
      · simp [hexplicit]
    · funext b
      rw [Pi.add_apply, Multiset.map_cons, Multiset.count_cons, Pi.single_apply]
      split_ifs <;> omega

theorem commitments_eq {view : CCoinsView} (hview : Valued view) :
    commitments view = (pairs view.coins).countP fun e => ¬ e.2.out.nValue.IsExplicit := by
  refine Multiset.countP_congr rfl ?_
  rintro ⟨o, c⟩ hmem
  have hcoin : view.getCoin o = some c := mem_pairs.mp hmem
  rw [eq_iff_iff]
  constructor
  · exact fun hcommit => hcommit.not_isExplicit
  · exact fun hnot => (hview o c hcoin).resolve_left hnot

/-- **The statistics of a chain describe the coins at its tip.** -/
theorem ValidChain.describes (h : ValidChain env blockman chain) {st : Tallies}
    (hst : content st = chainContent env chain) : Describes (tipView chain) st := by
  have hsum := h.coinPart_chainContent
  rw [← hst, coinSum, sumOver, sum_coinMeasure, ← commitments_eq h.valued] at hsum
  simp only [coinPart, content, AddMonoidHom.coe_mk, ZeroHom.coe_mk, Prod.mk.injEq] at hsum
  obtain ⟨hcount, hbogo, hamount, hconfidential, hnet⟩ := hsum
  exact ⟨hcount, hbogo, hamount, hconfidential, finalize_of_net (congrFun hnet)⟩

end Rcpu.IndexedChain
