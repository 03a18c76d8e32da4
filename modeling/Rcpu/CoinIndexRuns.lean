import Mathlib.Logic.Relation
import Rcpu.Blind
import Rcpu.IndexedChain

/-!
# Runs of the coin statistics index

What the index holds after any sequence of appended blocks, reorganisations, commits and restarts.
-/

namespace Rcpu.CoinIndexRuns

open Checks ByteStream ForkedLog ForkedLog.Log Tally Script Transaction TxCheck
  ConfidentialValidation Coins Validation Disconnect CoinIndex IndexedChain
open Relation

/-! ### States and steps -/

/-- The index, the chain it is at, and every block appended so far with the record of the statistics
right after it. -/
structure RunState where
  index : CoinStatsIndex
  chain : List Node
  recorded : List (Node × DBVal)

def RunState.start : RunState := ⟨⟨Tallies.empty, false, Database.empty⟩, [], []⟩

variable {𝔾 : Type} [AddCommGroup 𝔾] [Module Scalar 𝔾] [DecidableEq 𝔾]

/-- A connected block is appended, or the index goes back to a strict ancestor of its tip. -/
inductive Step (env : ChainEnv 𝔾) (blockman : BlockManager) : RunState → RunState → Prop where
  | append {s : RunState} {node : Node} {index' : CoinStatsIndex}
      (hnode : Extends env blockman s.chain node)
      (happend : customAppend env s.index node.stored = .ok index') :
      Step env blockman s
        ⟨index', node :: s.chain, (node, index'.tallies.dbVal) :: s.recorded⟩
  | rewind {s : RunState} {tip node : Node} {above rest : List Node} {index' : CoinStatsIndex}
      (hchain : s.chain = tip :: (above ++ node :: rest))
      (hrewind : customRewind env blockman s.index tip.stored.key node.stored.key = .ok index') :
      Step env blockman s ⟨index', node :: rest, s.recorded⟩

/-- The state at the tip is committed, or the index is started again from the database, at the chain
of the best block committed there. -/
inductive Upkeep (env : ChainEnv 𝔾) (blockman : BlockManager) : RunState → RunState → Prop where
  | commit {s : RunState} {tip : Node} {rest : List Node} (hchain : s.chain = tip :: rest) :
      Upkeep env blockman s { s with index := customCommit s.index tip.stored.key }
  | init {s : RunState} {index' : CoinStatsIndex} {chain : List Node}
      (hvalid : ValidChain env blockman chain)
      (hbest : s.index.db.bestBlock = chain.head?.map fun node => node.stored.key)
      (hinit : customInit s.index.db s.index.db.bestBlock = .ok index') :
      Upkeep env blockman s ⟨index', chain, s.recorded⟩

variable (env : ChainEnv 𝔾) (blockman : BlockManager)

def IsRecord (hash : Uint256) (height : Nat) (val : DBVal) : Prop :=
  ∃ node chain st, ValidChain env blockman (node :: chain) ∧ node.hash = hash ∧
    chain.length = height ∧ content st = chainContent env (node :: chain) ∧ st.dbVal = val

def Committed (db : Database) : Prop :=
  match db.bestBlock with
  | none => db.muhash = none ∧ db.confidentialOutputs = none
  | some key => ∃ node chain muhash n, ValidChain env blockman (node :: chain) ∧
      node.stored.key = key ∧ db.muhash = some muhash ∧ db.confidentialOutputs = some n ∧
      (n, net muhash) = (chainContent env (node :: chain)).2

/-- The index holds the statistics of its chain, and every record is that of its block. -/
structure Kept (s : RunState) : Prop where
  valid : ValidChain env blockman s.chain
  content_eq : content s.index.tallies = chainContent env s.chain
  sound : s.index.db.log.Sound (IsRecord env blockman)
  recorded : ∀ e ∈ s.recorded, IsRecord env blockman e.1.hash e.1.stored.pindex.nHeight e.2
  committed : Committed env blockman s.index.db

/-- The log has the entries of the chain and finds every block ever appended. -/
def Tracked (s : RunState) : Prop :=
  s.index.db.log.Tracks (IsRecord env blockman) (s.chain.map Node.hash)
    fun k => ∃ e ∈ s.recorded, e.1.hash = k

variable {env blockman}

theorem functional_isRecord : Functional (IsRecord env blockman) := by
  rintro k h a h' a' ⟨node, chain, st, hvalid, hhash, rfl, hst, rfl⟩
    ⟨node', chain', st', hvalid', hhash', rfl, hst', rfl⟩
  have hsame := hvalid.eq_of_hash_eq hvalid' (hhash.trans hhash'.symm)
  refine ⟨congrArg List.length (List.cons.inj hsame).2, ?_⟩
  rw [hsame, ← hst'] at hst
  exact dbVal_eq_of_content_eq hst

theorem kept_start : Kept env blockman .start where
  valid := .nil
  content_eq := content_empty
  sound := sound_empty
  recorded := by simp [RunState.start]
  committed := ⟨rfl, rfl⟩

theorem tracked_start : Tracked env blockman .start := by
  have hnone : (fun k => ∃ e ∈ RunState.start.recorded, e.1.hash = k) = fun _ => False := by
    funext k
    simp [RunState.start]
  rw [Tracked, hnone]
  exact tracks_empty

/-! ### Appending -/

section Append

variable {s : RunState} {node : Node} {index' : CoinStatsIndex}

theorem customAppend_extends (hs : Kept env blockman s) (hnode : Extends env blockman s.chain node) :
    ∃ st, content st = chainContent env (node :: s.chain) ∧
      ∀ index', customAppend env s.index node.stored = .ok index' ↔
        (node.stored.pindex.nHeight > 0 → ∃ entry,
          readPrevious "CustomAppend" s.index.db.log node.stored.pindex = .ok entry) ∧
        s.index.appended node.stored st = index' := by
  have hvalid := hs.valid.cons hnode
  obtain ⟨st, hst, hiff⟩ := customAppend_iff env hnode.spendable hvalid.hasUndo s.index
  rw [hs.content_eq] at hst
  exact ⟨st, hst, hiff⟩

theorem isRecord_of_content (hvalid : ValidChain env blockman (node :: s.chain)) {st : Tallies}
    (hst : content st = chainContent env (node :: s.chain)) :
    IsRecord env blockman node.hash node.stored.pindex.nHeight st.dbVal :=
  ⟨node, s.chain, st, hvalid, rfl, hvalid.extends.height.symm, hst, rfl⟩

theorem Kept.append (hs : Kept env blockman s) (hnode : Extends env blockman s.chain node)
    (happend : customAppend env s.index node.stored = .ok index') :
    Kept env blockman ⟨index', node :: s.chain, (node, index'.tallies.dbVal) :: s.recorded⟩ := by
  have hvalid := hs.valid.cons hnode
  obtain ⟨st, hst, hiff⟩ := customAppend_extends hs hnode
  obtain ⟨-, rfl⟩ := (hiff index').mp happend
  have hrecord := isRecord_of_content hvalid hst
  exact {
    valid := hvalid
    content_eq := hst
    sound := hs.sound.record hrecord
    recorded := List.forall_mem_cons.mpr ⟨hrecord, hs.recorded⟩
    committed := hs.committed }

theorem Tracked.append (hlog : Tracked env blockman s) (hs : Kept env blockman s)
    (hnode : Extends env blockman s.chain node)
    (happend : customAppend env s.index node.stored = .ok index') :
    Tracked env blockman ⟨index', node :: s.chain, (node, index'.tallies.dbVal) :: s.recorded⟩ := by
  obtain ⟨st, hst, hiff⟩ := customAppend_extends hs hnode
  obtain ⟨-, rfl⟩ := (hiff index').mp happend
  have hrecord := isRecord_of_content (hs.valid.cons hnode) hst
  have hheight : node.stored.pindex.nHeight = (s.chain.map Node.hash).length := by
    rw [hnode.height, List.length_map]
  rw [hheight] at hrecord
  have htracks := Tracks.record hlog hrecord
  rw [← hheight] at htracks
  have hknown : (fun k => ∃ e ∈ (node, st.dbVal) :: s.recorded, e.1.hash = k) =
      fun k => k = node.hash ∨ ∃ e ∈ s.recorded, e.1.hash = k := by
    funext k
    rw [eq_iff_iff, List.exists_mem_cons_iff, eq_comm]
  unfold Tracked
  exact hknown ▸ htracks

end Append

/-! ### The previous record -/

def OnPath (env : ChainEnv 𝔾) (blockman : BlockManager) (log : Log Uint256 DBVal)
    (chain : List Node) : Prop :=
  ∀ above node rest, chain = above ++ node :: rest →
    ∃ val, log.byHeight rest.length = some (node.hash, val) ∧
      IsRecord env blockman node.hash rest.length val

theorem Tracked.onPath {s : RunState} (hlog : Tracked env blockman s) :
    OnPath env blockman s.index.db.log s.chain := by
  intro above node rest hchain
  have hpath : s.chain.map Node.hash =
      above.map Node.hash ++ node.hash :: rest.map Node.hash := by
    rw [hchain, List.map_append, List.map_cons]
  obtain ⟨val, hentry⟩ := Tracks.on_path hlog hpath
  rw [List.length_map] at hentry
  exact ⟨val, hentry, hlog.height hentry⟩

theorem OnPath.tail {log : Log Uint256 DBVal} {node : Node} {chain : List Node}
    (h : OnPath env blockman log (node :: chain)) : OnPath env blockman log chain := by
  intro above node' rest hchain
  exact h (node :: above) node' rest (by rw [hchain, List.cons_append])

theorem OnPath.readPrevious {log : Log Uint256 DBVal} {node tip : Node} {rest : List Node}
    (h : OnPath env blockman log (tip :: rest)) (hnode : Extends env blockman (tip :: rest) node)
    (func : String) :
    ∃ val, readPrevious func log node.stored.pindex = .ok val ∧
      IsRecord env blockman tip.hash rest.length val := by
  obtain ⟨val, hentry, hrecord⟩ := h [] tip rest rfl
  have hheight : node.stored.pindex.nHeight - 1 = rest.length := by
    rw [hnode.height, List.length_cons, Nat.add_sub_cancel]
  refine ⟨val, ?_, hrecord⟩
  rw [CoinIndex.readPrevious, hheight, hentry]
  exact if_pos (hnode.parent tip rest rfl).symm

/-- **Appending never fails** while the log is complete. -/
theorem Tracked.exists_customAppend {s : RunState} {node : Node} (hlog : Tracked env blockman s)
    (hs : Kept env blockman s) (hnode : Extends env blockman s.chain node) :
    ∃ index', customAppend env s.index node.stored = .ok index' := by
  obtain ⟨st, -, hiff⟩ := customAppend_extends hs hnode
  refine ⟨_, (hiff _).mpr ⟨?_, rfl⟩⟩
  intro hheight
  cases hchain : s.chain with
  | nil =>
    rw [hnode.height, hchain] at hheight
    cases hheight
  | cons tip rest =>
    have hpath := hlog.onPath
    rw [hchain] at hpath hnode
    obtain ⟨val, hval, -⟩ := hpath.readPrevious hnode "CustomAppend"
    exact ⟨val, hval⟩

/-! ### Rewinding -/

section Rewind

variable {index index' : CoinStatsIndex} {tip parent node : Node} {above rest : List Node}

theorem reverseBlock_extends (hvalid : ValidChain env blockman (tip :: parent :: rest))
    (hcontent : content index.tallies = chainContent env (tip :: parent :: rest)) :
    ∃ st, content st = chainContent env (parent :: rest) ∧
      ∀ index', reverseBlock env index tip.stored = .ok index' ↔
        ∃ readOut, CoinIndex.readPrevious "ReverseBlock" index.db.log tip.stored.pindex =
          .ok readOut ∧ assertReversed readOut st = .ok () ∧ { index with tallies := st } = index' := by
  have hheight : tip.stored.pindex.nHeight > 0 := by
    rw [hvalid.extends.height, List.length_cons]
    omega
  obtain ⟨st, hst, hiff⟩ := reverseBlock_iff env hheight (hvalid.hasUndo hheight) index
  rw [hcontent, chainContent] at hst
  have hback := settle_settle_add_sub rewardsBalance_rewardsAccount
    (rewardsBalance_chainContent env (parent :: rest)) (blockWeight env tip.stored)
  exact ⟨st, hst.trans hback, hiff⟩

theorem hash_ne_of_valid (hvalid : ValidChain env blockman (tip :: (above ++ node :: rest))) :
    tip.hash ≠ node.hash := by
  intro hhash
  have hbelow : ValidChain env blockman (node :: rest) := hvalid.tail.of_append
  have hsame := congrArg List.length (hvalid.eq_of_hash_eq hbelow hhash)
  simp only [List.length_cons, List.length_append] at hsame
  omega

theorem reverseTo_round (hvalid : ValidChain env blockman (tip :: parent :: rest))
    (hcontent : content index.tallies = chainContent env (tip :: parent :: rest)) :
    ∃ st, content st = chainContent env (parent :: rest) ∧ ∀ newTip rounds index',
      reverseTo env blockman newTip (rounds + 1) index tip.stored = .ok index' ↔
        (∃ readOut, CoinIndex.readPrevious "ReverseBlock" index.db.log tip.stored.pindex =
          .ok readOut ∧ assertReversed readOut st = .ok ()) ∧
        (if parent.hash = newTip then .ok { index with tallies := st }
          else reverseTo env blockman newTip rounds { index with tallies := st } parent.stored) =
            .ok index' := by
  have hparent : blockman tip.stored.pindex.prevHash = some parent.stored := by
    rw [hvalid.extends.parent parent rest rfl, hvalid.tail.extends.stored]
  obtain ⟨st, hst, hiff⟩ := reverseBlock_extends hvalid hcontent
  refine ⟨st, hst, ?_⟩
  intro newTip rounds index'
  rw [reverseTo, hparent, bind_eq_ok]
  constructor
  · rintro ⟨mid, hreverse, h⟩
    obtain ⟨readOut, hread, hassert, rfl⟩ := (hiff mid).mp hreverse
    exact ⟨⟨readOut, hread, hassert⟩, h⟩
  · rintro ⟨⟨readOut, hread, hassert⟩, h⟩
    exact ⟨_, (hiff _).mpr ⟨readOut, hread, hassert, rfl⟩, h⟩

/-- **What the loop of `CustomRewind` leads to.** -/
theorem reverseTo_eq_ok {rounds : Nat}
    (hvalid : ValidChain env blockman (tip :: (above ++ node :: rest)))
    (h : reverseTo env blockman node.hash rounds index tip.stored = .ok index')
    (hcontent : content index.tallies = chainContent env (tip :: (above ++ node :: rest))) :
    ∃ st, content st = chainContent env (node :: rest) ∧ { index with tallies := st } = index' := by
  induction above generalizing tip index rounds with
  | nil =>
    cases rounds with
    | zero => cases h
    | succ rounds =>
      obtain ⟨st, hst, hiff⟩ := reverseTo_round hvalid hcontent
      obtain ⟨-, hlast⟩ := (hiff _ _ _).mp h
      rw [if_pos rfl, Except.ok.injEq] at hlast
      exact ⟨st, hst, hlast⟩
  | cons parent above ih =>
    cases rounds with
    | zero => cases h
    | succ rounds =>
      obtain ⟨st, hst, hiff⟩ := reverseTo_round hvalid hcontent
      obtain ⟨-, hrest⟩ := (hiff _ _ _).mp h
      rw [if_neg (hash_ne_of_valid hvalid.tail)] at hrest
      have hlower := ih hvalid.tail hrest hst
      exact hlower

/-- What `ReverseBlock` compares its result with is the record of the same statistics. -/
theorem OnPath.assertReversed {st : Tallies}
    (hpath : OnPath env blockman index.db.log (parent :: rest))
    (hvalid : ValidChain env blockman (tip :: parent :: rest))
    (hst : content st = chainContent env (parent :: rest)) :
    ∃ readOut, CoinIndex.readPrevious "ReverseBlock" index.db.log tip.stored.pindex = .ok readOut ∧
      CoinIndex.assertReversed readOut st = .ok () := by
  obtain ⟨readOut, hread, hrecord⟩ := hpath.readPrevious hvalid.extends "ReverseBlock"
  have hown : IsRecord env blockman parent.hash rest.length st.dbVal :=
    ⟨parent, rest, st, hvalid.tail, rfl, rfl, hst, rfl⟩
  obtain rfl := (functional_isRecord hrecord hown).2
  exact ⟨_, hread, assertReversed_dbVal st⟩

/-- **The loop of `CustomRewind` gets to the new tip**, so that every assertion on the way holds. -/
theorem OnPath.exists_reverseTo {rounds : Nat}
    (hpath : OnPath env blockman index.db.log (tip :: (above ++ node :: rest)))
    (hvalid : ValidChain env blockman (tip :: (above ++ node :: rest)))
    (hcontent : content index.tallies = chainContent env (tip :: (above ++ node :: rest)))
    (hrounds : above.length < rounds) :
    ∃ index', reverseTo env blockman node.hash rounds index tip.stored = .ok index' := by
  induction above generalizing tip index rounds with
  | nil =>
    obtain ⟨rounds, rfl⟩ := Nat.exists_eq_succ_of_ne_zero (Nat.ne_of_gt hrounds)
    obtain ⟨st, hst, hiff⟩ := reverseTo_round hvalid hcontent
    exact ⟨_, (hiff _ _ _).mpr ⟨hpath.tail.assertReversed hvalid hst, if_pos rfl⟩⟩
  | cons parent above ih =>
    obtain ⟨rounds, rfl⟩ := Nat.exists_eq_succ_of_ne_zero (Nat.ne_of_gt (Nat.zero_lt_of_lt hrounds))
    obtain ⟨st, hst, hiff⟩ := reverseTo_round hvalid hcontent
    have hlt : above.length < rounds := Nat.lt_of_succ_lt_succ hrounds
    have hnext : ∃ index', reverseTo env blockman node.hash rounds { index with tallies := st }
        parent.stored = .ok index' := ih hpath.tail hvalid.tail hst hlt
    obtain ⟨index', hindex'⟩ := hnext
    have hne := hash_ne_of_valid hvalid.tail
    exact ⟨index', (hiff _ _ _).mpr
      ⟨hpath.tail.assertReversed hvalid hst, (if_neg hne).trans hindex'⟩⟩

variable {s : RunState}

theorem key_height (hvalid : ValidChain env blockman (node :: rest)) :
    node.stored.key.height = rest.length :=
  hvalid.extends.height

/-- `CustomRewind` copies the entries from the new tip to the old one and reverses the blocks. -/
theorem customRewind_iff (hvalid : ValidChain env blockman (tip :: (above ++ node :: rest))) :
    customRewind env blockman index tip.stored.key node.stored.key = .ok index' ↔
      ∃ log, index.db.log.archiveAll unexpectedKey
          (heightsFrom ((tip :: (above ++ node :: rest)).map Node.hash) (rest.map Node.hash)) =
            .ok log ∧
        reverseTo env blockman node.hash (above ++ node :: rest).length
          { index with db := { index.db with log := log } } tip.stored = .ok index' := by
  have hheights : List.range' node.stored.key.height
      (tip.stored.key.height + 1 - node.stored.key.height) =
        heightsFrom ((tip :: (above ++ node :: rest)).map Node.hash) (rest.map Node.hash) := by
    rw [heightsFrom, key_height hvalid, key_height hvalid.tail.of_append, List.length_map,
      List.length_map, List.length_cons]
  have hstored : blockman tip.stored.key.hash = some tip.stored := hvalid.extends.stored
  rw [customRewind, bind_eq_ok, hheights, hstored, key_height hvalid]
  rfl

theorem customRewind_extends (hs : Kept env blockman s)
    (hchain : s.chain = tip :: (above ++ node :: rest))
    (hrewind : customRewind env blockman s.index tip.stored.key node.stored.key = .ok index') :
    ∃ log st, s.index.db.log.archiveAll unexpectedKey
        (heightsFrom (s.chain.map Node.hash) (rest.map Node.hash)) = .ok log ∧
      content st = chainContent env (node :: rest) ∧
      { s.index with tallies := st, db := { s.index.db with log := log } } = index' := by
  have hvalid := hs.valid
  have hcontent := hs.content_eq
  rw [hchain] at hvalid hcontent
  obtain ⟨log, harchive, hreverse⟩ := (customRewind_iff hvalid).mp hrewind
  obtain ⟨st, hst, hindex'⟩ := reverseTo_eq_ok hvalid hreverse hcontent
  rw [hchain]
  exact ⟨log, st, harchive, hst, hindex'⟩

theorem Kept.rewind (hs : Kept env blockman s) (hchain : s.chain = tip :: (above ++ node :: rest))
    (hrewind : customRewind env blockman s.index tip.stored.key node.stored.key = .ok index') :
    Kept env blockman ⟨index', node :: rest, s.recorded⟩ := by
  obtain ⟨log, st, harchive, hst, rfl⟩ := customRewind_extends hs hchain hrewind
  have hvalid := hs.valid
  rw [hchain] at hvalid
  exact {
    valid := hvalid.tail.of_append
    content_eq := hst
    sound := hs.sound.archiveAll harchive
    recorded := hs.recorded
    committed := hs.committed }

theorem Tracked.rewind (hlog : Tracked env blockman s) (hs : Kept env blockman s)
    (hchain : s.chain = tip :: (above ++ node :: rest))
    (hrewind : customRewind env blockman s.index tip.stored.key node.stored.key = .ok index') :
    Tracked env blockman ⟨index', node :: rest, s.recorded⟩ := by
  obtain ⟨log, st, harchive, hst, rfl⟩ := customRewind_extends hs hchain hrewind
  have hpath : s.chain.map Node.hash =
      (tip :: above).map Node.hash ++ node.hash :: rest.map Node.hash := by
    rw [hchain, List.map_cons, List.map_append, List.map_cons, List.map_cons, List.cons_append]
  exact Tracks.cut hlog hpath harchive

/-- **Rewinding never fails** while the log is complete. -/
theorem Tracked.exists_customRewind (hlog : Tracked env blockman s) (hs : Kept env blockman s)
    (hchain : s.chain = tip :: (above ++ node :: rest)) :
    ∃ index', customRewind env blockman s.index tip.stored.key node.stored.key = .ok index' := by
  have hvalid := hs.valid
  have hcontent := hs.content_eq
  rw [hchain] at hvalid hcontent
  obtain ⟨log, harchive⟩ := Tracks.exists_archiveAll hlog unexpectedKey (rest.map Node.hash)
  have hpath : OnPath env blockman log s.chain := by
    unfold OnPath
    rw [(archiveAll_eq_ok harchive).1]
    exact hlog.onPath
  rw [hchain] at harchive hpath
  have hlt : above.length < (above ++ node :: rest).length := by
    rw [List.length_append, List.length_cons]
    omega
  have hreverse : ∃ index', reverseTo env blockman node.hash (above ++ node :: rest).length
      { s.index with db := { s.index.db with log := log } } tip.stored = .ok index' :=
    OnPath.exists_reverseTo hpath hvalid hcontent hlt
  obtain ⟨index', hindex'⟩ := hreverse
  exact ⟨index', (customRewind_iff hvalid).mpr ⟨log, harchive, hindex'⟩⟩

end Rewind

/-! ### A chain with a confidential output

The first block pays an ordinary output; a hundred blocks later it has matured and is spent into a
confidential output.  Nothing else on the chain can be spent. -/

def sampleEnv : ChainEnv Scalar where
  secp := Blind.scalarEnv.toSecp256k1
  elementsMode := true
  params := ⟨210000, 0, 0, uint256S 1, 1, uint256S 0⟩
  getHash tx := uint256S tx.nLockTime.toNat
  checkBlockHeader _ _ := .ok ()
  headerSize := 80
  getLegacySigOpCount _ := 0
  getTransactionSigOpCost _ _ _ := 0
  sequenceLocks _ _ _ := true
  checkInputScripts _ _ _ := .ok ()

def sampleCoinbase (n : Nat) (out : CTxOut) : CTransaction where
  vin := [⟨⟨Uint256.null, COutPoint.NULL_INDEX⟩, [1, 1], CTxIn.SEQUENCE_FINAL, [], .null⟩]
  vout := [out]
  nVersion := 2
  nLockTime := UInt32.ofNat n

def sampleIndex (n : Nat) : CBlockIndex where
  nHeight := n
  hash := uint256S (n + 1)
  prevHash := uint256S n
  ancestorHash h := if h < n then some (uint256S (h + 1)) else none

def sampleBlock (n : Nat) (vtx : List CTransaction) : CBlock := ⟨uint256S (n + 1), vtx⟩

def idleCoinbase (n : Nat) : CTransaction := sampleCoinbase n (.ofAmount 0 [OP_RETURN])

def idleBlock (n : Nat) : CBlock := sampleBlock n [idleCoinbase n]

def fundingOut : CTxOut := .ofAmount 1000 [OP_TRUE]

def fundingCoin : Coin := .ofOut fundingOut 1 true

def blindingTx : CTransaction where
  nVersion := CT_VERSION
  vin := [⟨⟨uint256S 1, 0⟩, [], CTxIn.SEQUENCE_FINAL, [], .null⟩]
  vout := [⟨⟨Blind.scalarEnv.commitmentSerialize 990⟩, .null, [10], [OP_TRUE]⟩, .ofAmount 10 []]
  nLockTime := 1000

def fundedView : CCoinsView := CCoinsView.empty.insert ⟨uint256S 1, 0⟩ fundingCoin (by decide)

def blindedView : CCoinsView :=
  (fundedView.erase ⟨uint256S 1, 0⟩).insert ⟨uint256S 1000, 0⟩
    (.ofOut ⟨⟨Blind.scalarEnv.commitmentSerialize 990⟩, .null, [10], [OP_TRUE]⟩ 101 false) (by decide)

def sampleNode (n : Nat) : Node :=
  if n = 0 then ⟨⟨idleBlock 0, sampleIndex 0, ⟨[]⟩⟩, CCoinsView.empty⟩
  else if n = 1 then
    ⟨⟨sampleBlock 1 [sampleCoinbase 1 fundingOut], sampleIndex 1, ⟨[]⟩⟩, fundedView⟩
  else if n = 101 then
    ⟨⟨sampleBlock 101 [idleCoinbase 101, blindingTx], sampleIndex 101, ⟨[⟨[fundingCoin]⟩]⟩⟩,
      blindedView⟩
  else ⟨⟨idleBlock n, sampleIndex n, ⟨[]⟩⟩, fundedView⟩

def sampleChain : Nat → List Node
  | 0 => []
  | n + 1 => sampleNode n :: sampleChain n

def sampleBlocks : BlockManager := fun hash =>
  let n := ofLeBytes hash.bytes
  if 0 < n ∧ n ≤ 102 then some (sampleNode (n - 1)).stored else none

theorem pindex_sampleNode (n : Nat) : (sampleNode n).stored.pindex = sampleIndex n := by
  unfold sampleNode
  split_ifs with h0 h1 h101
  · rw [h0]
  · rw [h1]
  · rw [h101]
  · rfl

theorem length_sampleChain (n : Nat) : (sampleChain n).length = n := by
  induction n with
  | zero => rfl
  | succ n ih => rw [sampleChain, List.length_cons, ih]

theorem sampleBlocks_hash {n : Nat} (hn : n ≤ 101) :
    sampleBlocks (uint256S (n + 1)) = some (sampleNode n).stored := by
  have hlt : n + 1 < 256 ^ 32 := by omega
  have hnumber : ofLeBytes (uint256S (n + 1)).bytes = n + 1 := ofLeBytes_leBytes_of_lt hlt
  rw [sampleBlocks, hnumber, if_pos (by omega), Nat.add_sub_cancel]

/-- No block has the null hash, which stands for BIP34 here. -/
theorem enforceBIP30_sampleIndex {n : Nat} (hn : n ≤ 101) :
    enforceBIP30 sampleEnv.params (sampleIndex n) = true := by
  have hrepeat : isBIP30Repeat (sampleIndex n) = false := by
    have hfirst : n ≠ 91842 := by omega
    have hsecond : n ≠ 91880 := by omega
    simp [isBIP30Repeat, sampleIndex, hfirst, hsecond]
  have hancestor : (sampleIndex n).ancestorHash 1 ≠ some (uint256S 0) := by
    simp only [sampleIndex]
    split_ifs
    · decide
    · exact nofun
  simp [enforceBIP30, hrepeat, sampleEnv, hancestor]

theorem length_serialize_idleCoinbase (n : Nat) :
    ((idleCoinbase n).serialize false).length = 63 := rfl

theorem checkTransaction_idleCoinbase (n : Nat) : checkTransaction (idleCoinbase n) = .ok () := by
  unfold checkTransaction
  rw [length_serialize_idleCoinbase]
  rfl

theorem checkBlock_idleBlock (n : Nat) :
    checkBlock sampleEnv (idleBlock n) (sampleIndex n) = .ok () := by
  have hsize : blockSize 80 (idleBlock n) = 144 := rfl
  have hbound : (idleBlock n).vtx ≠ [] ∧
      (idleBlock n).vtx.length * WITNESS_SCALE_FACTOR ≤ MAX_BLOCK_WEIGHT ∧
      blockSize 80 (idleBlock n) * WITNESS_SCALE_FACTOR ≤ MAX_BLOCK_WEIGHT := by
    rw [hsize]
    exact ⟨List.cons_ne_nil _ _, by simp [idleBlock, sampleBlock, WITNESS_SCALE_FACTOR,
      MAX_BLOCK_WEIGHT], by decide⟩
  refine bind_unit_eq_ok.mpr ⟨rfl, bind_unit_eq_ok.mpr ⟨require_eq_ok.mpr hbound, ?_⟩⟩
  refine bind_unit_eq_ok.mpr ⟨rfl, bind_unit_eq_ok.mpr ⟨rfl, bind_unit_eq_ok.mpr ⟨rfl, ?_⟩⟩⟩
  refine bind_unit_eq_ok.mpr ⟨forM_eq_ok.mpr ?_, rfl⟩
  intro tx hmem
  obtain rfl := List.mem_singleton.mp hmem
  rw [checkTransaction_idleCoinbase]
  rfl

theorem checkBIP30_idleBlock {n : Nat} (htwo : 2 ≤ n) (hn : n ≤ 101) :
    checkBIP30 sampleEnv (sampleIndex n) fundedView (idleBlock n) = .ok () := by
  have hnumber : (UInt32.ofNat n).toNat = n := by
    rw [UInt32.toNat_ofNat']
    omega
  have hnew : fundedView.haveCoin ⟨uint256S n, 0⟩ = false := by
    have hne : (⟨uint256S n, 0⟩ : COutPoint) ≠ ⟨uint256S 1, 0⟩ := by
      intro heq
      have := uint256S_inj (by omega) (by omega) (congrArg COutPoint.hash heq)
      omega
    rw [CCoinsView.haveCoin, fundedView, CCoinsView.getCoin_insert_of_ne hne]
    rfl
  rw [checkBIP30, if_pos (enforceBIP30_sampleIndex hn)]
  refine forM_eq_ok.mpr ?_
  intro tx hmem
  obtain rfl := List.mem_singleton.mp hmem
  refine forM_eq_ok.mpr ?_
  intro o ho
  obtain rfl : o = 0 := by simpa [idleCoinbase, sampleCoinbase] using ho
  refine require_eq_ok.mpr ?_
  rw [← hnumber] at hnew
  exact hnew

theorem connectBlock_idleBlock {n : Nat} (htwo : 2 ≤ n) (hn : n ≤ 101) :
    connectBlock sampleEnv (idleBlock n) (sampleIndex n) fundedView = .ok (fundedView, ⟨[]⟩) := by
  have hgenesis : ¬ ((sampleIndex n).nHeight = 0 ∨
      (idleBlock n).hash = sampleEnv.params.hashGenesisBlock) := by
    rintro (hzero | hhash)
    · exact absurd hzero (by simp only [sampleIndex]; omega)
    · have := uint256S_inj (by omega) (by omega) hhash
      omega
  have hreward : checkReward sampleEnv.params (sampleIndex n) (idleBlock n) 0 = .ok () := by
    have hsubsidy := getBlockSubsidy_nonneg sampleEnv.params n
    refine bind_unit_eq_ok.mpr ⟨rfl, bind_eq_ok.mpr ⟨0, rfl, require_eq_ok.mpr ?_⟩⟩
    rw [zero_add]
    exact hsubsidy
  refine bind_unit_eq_ok.mpr ⟨require_eq_ok.mpr rfl,
    bind_unit_eq_ok.mpr ⟨checkBlock_idleBlock n, ?_⟩⟩
  rw [if_neg hgenesis]
  refine bind_unit_eq_ok.mpr ⟨checkBIP30_idleBlock htwo hn, ?_⟩
  exact bind_eq_ok.mpr ⟨⟨fundedView, 0, 0, []⟩, rfl, bind_unit_eq_ok.mpr ⟨hreward, rfl⟩⟩

theorem tipView_sampleChain {n : Nat} (htwo : 2 ≤ n) (hn : n ≤ 101) :
    tipView (sampleChain n) = fundedView := by
  obtain ⟨m, rfl⟩ : ∃ m, n = m + 1 := ⟨n - 1, by omega⟩
  rw [sampleChain, tipView, sampleNode, if_neg (by omega)]
  split_ifs with hone hlast
  · rfl
  · omega
  · rfl

set_option maxRecDepth 3000 in
theorem connectBlock_sampleNode {n : Nat} (hn : n ≤ 101) :
    connectBlock sampleEnv (sampleNode n).stored.block (sampleNode n).stored.pindex
      (tipView (sampleChain n)) = .ok ((sampleNode n).view, (sampleNode n).stored.undo) := by
  by_cases hzero : n = 0
  · subst hzero
    rfl
  by_cases hone : n = 1
  · subst hone
    rfl
  by_cases hlast : n = 101
  · subst hlast
    rw [tipView_sampleChain (by decide) (by decide)]
    rfl
  rw [tipView_sampleChain (by omega) hn, sampleNode, if_neg hzero, if_neg hone, if_neg hlast]
  exact connectBlock_idleBlock (by omega) hn

theorem extends_sampleNode {n : Nat} (hn : n ≤ 101) :
    Extends sampleEnv sampleBlocks (sampleChain n) (sampleNode n) where
  stored := by
    rw [Node.hash, pindex_sampleNode]
    exact sampleBlocks_hash hn
  height := by rw [pindex_sampleNode, length_sampleChain, sampleIndex]
  genesis := by
    intro hnil
    have hzero := length_sampleChain n
    rw [hnil, List.length_nil] at hzero
    subst hzero
    rfl
  parent := by
    intro tip rest hchain
    cases n with
    | zero => cases hchain
    | succ n =>
      rw [sampleChain, List.cons.injEq] at hchain
      rw [← hchain.1, Node.hash, pindex_sampleNode, pindex_sampleNode, sampleIndex, sampleIndex]
  connected := connectBlock_sampleNode hn
  spendable := by
    have hfirst : n ≠ 91722 := by omega
    have hsecond : n ≠ 91812 := by omega
    simp [pindex_sampleNode, isBIP30Unspendable, sampleIndex, hfirst, hsecond]
  unrepeated := by
    intro hskip
    rw [pindex_sampleNode, enforceBIP30_sampleIndex hn] at hskip
    cases hskip

theorem validChain_sampleChain {n : Nat} (hn : n ≤ 102) :
    ValidChain sampleEnv sampleBlocks (sampleChain n) := by
  induction n with
  | zero => exact .nil
  | succ n ih => exact .cons (ih (by omega)) (extends_sampleNode (by omega))

/-! ### Runs without restarts -/

theorem invariants_step {s s' : RunState} (hstep : Step env blockman s s') (hs : Kept env blockman s)
    (hlog : Tracked env blockman s) : Kept env blockman s' ∧ Tracked env blockman s' := by
  cases hstep with
  | append hnode happend => exact ⟨hs.append hnode happend, hlog.append hs hnode happend⟩
  | rewind hchain hrewind => exact ⟨hs.rewind hchain hrewind, hlog.rewind hs hchain hrewind⟩

theorem invariants_of_steps {s : RunState} (h : ReflTransGen (Step env blockman) .start s) :
    Kept env blockman s ∧ Tracked env blockman s := by
  induction h with
  | refl => exact ⟨kept_start, tracked_start⟩
  | tail _ hstep ih => exact invariants_step hstep ih.1 ih.2

theorem exists_steps {chain : List Node} (h : ValidChain env blockman chain) :
    ∃ s, ReflTransGen (Step env blockman) .start s ∧ s.chain = chain ∧
      ∀ node ∈ chain, ∃ val, (node, val) ∈ s.recorded := by
  induction h with
  | nil => exact ⟨.start, .refl, rfl, by simp⟩
  | cons _ hnode ih =>
    obtain ⟨s, hsteps, rfl, hrecorded⟩ := ih
    obtain ⟨hs, hlog⟩ := invariants_of_steps hsteps
    obtain ⟨index', happend⟩ := hlog.exists_customAppend hs hnode
    refine ⟨_, hsteps.tail (.append hnode happend), rfl, ?_⟩
    rw [List.forall_mem_cons]
    refine ⟨⟨_, List.mem_cons_self⟩, ?_⟩
    intro node hmem
    obtain ⟨val, hval⟩ := hrecorded node hmem
    exact ⟨val, List.mem_cons_of_mem _ hval⟩

theorem Tracked.lookUpOne {s : RunState} (hlog : Tracked env blockman s) (hs : Kept env blockman s)
    {entry : Node × DBVal} (hmem : entry ∈ s.recorded) :
    CoinIndex.lookUpOne s.index.db entry.1.stored.key = some entry.2 :=
  Tracks.lookup_eq_some hlog functional_isRecord ⟨entry, hmem, rfl⟩ (hs.recorded entry hmem)

/-- **The index always describes the coins at its tip**, through any reorganisation; every record is
found as it was written, and no append or rewind fails. -/
theorem index_describes_coins (env : ChainEnv 𝔾) (blockman : BlockManager) (s : RunState)
    (h : ReflTransGen (Step env blockman) .start s) :
    Describes (tipView s.chain) s.index.tallies ∧
      (∀ entry ∈ s.recorded, lookUpOne s.index.db entry.1.stored.key = some entry.2) ∧
      (∀ node, Extends env blockman s.chain node →
        ∃ index', customAppend env s.index node.stored = .ok index') ∧
      ∀ tip above node rest, s.chain = tip :: (above ++ node :: rest) →
        ∃ index', customRewind env blockman s.index tip.stored.key node.stored.key = .ok index' := by
  obtain ⟨hs, hlog⟩ := invariants_of_steps h
  refine ⟨hs.valid.describes hs.content_eq, ?_, ?_, ?_⟩
  · exact fun entry hmem => hlog.lookUpOne hs hmem
  · exact fun node hnode => hlog.exists_customAppend hs hnode
  · exact fun tip above node rest hchain => hlog.exists_customRewind hs hchain

/-- Two blocks are appended and the second is taken back. -/
theorem index_describes_coins_rewound :
    ∃ s val, ReflTransGen (Step sampleEnv sampleBlocks) .start s ∧ s.chain = sampleChain 1 ∧
      Describes CCoinsView.empty s.index.tallies ∧
      lookUpOne s.index.db (sampleNode 1).stored.key = some val := by
  obtain ⟨s, hsteps, hchain, hrecorded⟩ := exists_steps (validChain_sampleChain (n := 2) (by decide))
  obtain ⟨val, hval⟩ := hrecorded (sampleNode 1) List.mem_cons_self
  have hcut : s.chain = sampleNode 1 :: ([] ++ sampleNode 0 :: []) := hchain
  obtain ⟨-, -, -, hrewind⟩ := index_describes_coins sampleEnv sampleBlocks s hsteps
  obtain ⟨index', hindex'⟩ := hrewind _ _ _ _ hcut
  have hsteps' := hsteps.tail (Step.rewind hcut hindex')
  obtain ⟨hdescribes, hlookup, -, -⟩ := index_describes_coins sampleEnv sampleBlocks _ hsteps'
  exact ⟨_, val, hsteps', rfl, hdescribes, hlookup _ hval⟩

/-! ### Commits and restarts -/

section Upkeep

variable {s : RunState} {tip : Node} {rest chain : List Node} {index' : CoinStatsIndex}

theorem Kept.commit (hs : Kept env blockman s) (hchain : s.chain = tip :: rest) :
    Kept env blockman { s with index := customCommit s.index tip.stored.key } where
  valid := hs.valid
  content_eq := hs.content_eq
  sound := hs.sound
  recorded := hs.recorded
  committed := by
    have hvalid := hs.valid
    have hcontent := congrArg Prod.snd hs.content_eq
    rw [hchain] at hvalid hcontent
    exact ⟨tip, rest, _, _, hvalid, rfl, rfl, rfl, hcontent⟩

theorem Kept.content_init (hs : Kept env blockman s) (hvalid : ValidChain env blockman chain)
    (hbest : s.index.db.bestBlock = chain.head?.map fun node => node.stored.key)
    (hinit : customInit s.index.db s.index.db.bestBlock = .ok index') :
    content index'.tallies = chainContent env chain ∧ index'.db = s.index.db := by
  have hcommitted := hs.committed
  obtain ⟨totals, rfl, hnone, hsome⟩ := customInit_eq_ok hinit
  refine ⟨?_, rfl⟩
  cases chain with
  | nil =>
    rw [List.head?_nil, Option.map_none] at hbest
    rw [Committed, hbest] at hcommitted
    rw [hnone hbest, hcommitted.1, hcommitted.2]
    exact content_empty
  | cons node rest =>
    rw [List.head?_cons, Option.map_some] at hbest
    rw [Committed, hbest] at hcommitted
    obtain ⟨node', chain', muhash, n, hvalid', hkey, hmuhash, hn, hrest⟩ := hcommitted
    rw [hvalid'.eq_of_hash_eq hvalid (congrArg BlockKey.hash hkey)] at hrest
    obtain ⟨entry, hentry, rfl⟩ := hsome _ hbest
    -- the record was written with the statistics of the same chain
    have hrecord : IsRecord env blockman node.hash rest.length
        (Tallies.dbVal ⟨(chainContent env (node :: rest)).1, n, muhash⟩) :=
      ⟨node, rest, ⟨(chainContent env (node :: rest)).1, n, muhash⟩, hvalid, rfl, rfl,
        Prod.ext rfl hrest, rfl⟩
    obtain rfl := hs.sound.lookup_eq functional_isRecord hentry hrecord
    rw [hmuhash, hn]
    exact Prod.ext rfl hrest

theorem Kept.init (hs : Kept env blockman s) (hvalid : ValidChain env blockman chain)
    (hbest : s.index.db.bestBlock = chain.head?.map fun node => node.stored.key)
    (hinit : customInit s.index.db s.index.db.bestBlock = .ok index') :
    Kept env blockman ⟨index', chain, s.recorded⟩ := by
  obtain ⟨hcontent, hdb⟩ := hs.content_init hvalid hbest hinit
  refine ⟨hvalid, hcontent, ?_, hs.recorded, ?_⟩
  · rw [hdb]
    exact hs.sound
  · rw [hdb]
    exact hs.committed

def AnyStep (env : ChainEnv 𝔾) (blockman : BlockManager) (s s' : RunState) : Prop :=
  Step env blockman s s' ∨ Upkeep env blockman s s'

theorem kept_of_run (h : ReflTransGen (AnyStep env blockman) .start s) : Kept env blockman s := by
  induction h with
  | refl => exact kept_start
  | tail _ hstep ih =>
    rcases hstep with (⟨hnode, happend⟩ | ⟨hchain, hrewind⟩) | (hchain | ⟨hvalid, hbest, hinit⟩)
    · exact ih.append hnode happend
    · exact ih.rewind hchain hrewind
    · exact ih.commit hchain
    · exact ih.init hvalid hbest hinit

end Upkeep

/-! ### Answers about earlier blocks -/

/-- The confidential outputs in an answer are those of the index, not of the block asked for. -/
theorem lookUpStats_confidential {index : CoinStatsIndex} {block : BlockKey} {stats : IndexStats}
    {n : Int} (hstats : lookUpStats index block = some stats)
    (hn : stats.confidentialOutputs = some n) :
    n = index.tallies.confidentialOutputs ∧
      (stats.amountsComplete = true ↔ index.tallies.confidentialOutputs = 0) := by
  rw [lookUpStats, Option.map_eq_some_iff] at hstats
  obtain ⟨entry, -, rfl⟩ := hstats
  split_ifs at hn ⊢ with hknown
  exact ⟨(Option.some.inj hn).symm, decide_eq_true_iff⟩

theorem Tracked.exists_lookUpStats {s : RunState} (hlog : Tracked env blockman s)
    (hs : Kept env blockman s) {entry : Node × DBVal} (hmem : entry ∈ s.recorded) (key : BlockKey) :
    ∃ stats, lookUpStats (customCommit s.index key) entry.1.stored.key = some stats ∧
      stats.confidentialOutputs = some (commitments (tipView s.chain) : Int) := by
  have hcount := (hs.valid.describes hs.content_eq).confidential
  have hlookup : CoinIndex.lookUpOne (customCommit s.index key).db entry.1.stored.key =
    some entry.2 := hlog.lookUpOne hs hmem
  refine ⟨⟨entry.1.stored.key, entry.2, some s.index.tallies.confidentialOutputs,
    s.index.tallies.confidentialOutputs = 0⟩, ?_, congrArg some hcount⟩
  rw [lookUpStats, hlookup]
  rfl

theorem mem_sampleChain {m n : Nat} (h : m < n) : sampleNode m ∈ sampleChain n := by
  induction n with
  | zero => omega
  | succ n ih =>
    by_cases heq : m = n
    · rw [heq]
      exact List.mem_cons_self
    · exact List.mem_cons_of_mem _ (ih (by omega))

/-- A run along the sample chain with a commit at its end, and the answer about one of its blocks. -/
theorem exists_run_sampleChain {m : Nat} (hm : m < 102) :
    ∃ s val stats, ReflTransGen (AnyStep sampleEnv sampleBlocks) .start s ∧
      s.chain = sampleChain 102 ∧ (sampleNode m, val) ∈ s.recorded ∧
      lookUpStats s.index (sampleNode m).stored.key = some stats ∧
      stats.confidentialOutputs = some 1 := by
  obtain ⟨s, hsteps, hchain, hrecorded⟩ := exists_steps (validChain_sampleChain (Nat.le_refl 102))
  obtain ⟨val, hval⟩ := hrecorded (sampleNode m) (mem_sampleChain hm)
  obtain ⟨hs, hlog⟩ := invariants_of_steps hsteps
  have hrun : ReflTransGen (AnyStep sampleEnv sampleBlocks) .start s :=
    ReflTransGen.mono (fun _ _ hstep => Or.inl hstep) _ _ hsteps
  obtain ⟨stats, hstats, hcount⟩ := hlog.exists_lookUpStats hs hval (sampleNode 101).stored.key
  have hone : commitments (tipView s.chain) = 1 := by
    rw [hchain]
    decide
  rw [hone] at hcount
  exact ⟨_, val, stats, hrun.tail (.inr (.commit hchain)), hchain, hval, hstats, hcount⟩

/-- **Answers about earlier blocks** give their confidential outputs exactly if the coins after the
block hold as many commitments as those at the tip. -/
theorem lookUpStats_confidential_iff (env : ChainEnv 𝔾) (blockman : BlockManager) (s : RunState)
    (h : ReflTransGen (AnyStep env blockman) .start s) :
    ∀ entry ∈ s.recorded, ∀ stats n, lookUpStats s.index entry.1.stored.key = some stats →
      stats.confidentialOutputs = some n →
        ((n = commitments entry.1.view ∧
            (stats.amountsComplete = true ↔ commitments entry.1.view = 0)) ↔
          commitments entry.1.view = commitments (tipView s.chain)) := by
  intro entry _ stats n hstats hn
  have hs := kept_of_run h
  have htip := (hs.valid.describes hs.content_eq).confidential
  obtain ⟨rfl, hcomplete⟩ := lookUpStats_confidential hstats hn
  rw [hcomplete, htip]
  omega

/-- The answer about the block that made the confidential output, which is the tip. -/
theorem lookUpStats_confidential_tip :
    ∃ s val stats, ReflTransGen (AnyStep sampleEnv sampleBlocks) .start s ∧
      (sampleNode 101, val) ∈ s.recorded ∧
      lookUpStats s.index (sampleNode 101).stored.key = some stats ∧
      stats.confidentialOutputs = some 1 ∧ (1 : Int) = commitments (sampleNode 101).view := by
  obtain ⟨s, val, stats, hrun, hchain, hval, hstats, hcount⟩ :=
    exists_run_sampleChain (m := 101) (by decide)
  have hiff := lookUpStats_confidential_iff sampleEnv sampleBlocks s hrun _ hval stats 1 hstats hcount
  have htip : commitments (sampleNode 101).view = commitments (tipView s.chain) := by
    rw [hchain]
    rfl
  exact ⟨s, val, stats, hrun, hval, hstats, hcount, (hiff.mpr htip).1⟩

/-- The answer about the genesis block counts the confidential output made later. -/
theorem lookUpStats_genesis_counts_tip :
    ∃ s val stats, ReflTransGen (AnyStep sampleEnv sampleBlocks) .start s ∧
      (sampleNode 0, val) ∈ s.recorded ∧
      lookUpStats s.index (sampleNode 0).stored.key = some stats ∧
      stats.confidentialOutputs = some 1 ∧ stats.amountsComplete = false ∧
      commitments (sampleNode 0).view = 0 := by
  obtain ⟨s, val, stats, hrun, -, hval, hstats, hcount⟩ :=
    exists_run_sampleChain (m := 0) (by decide)
  obtain ⟨hlive, hcomplete⟩ := lookUpStats_confidential hstats hcount
  have hnot : stats.amountsComplete = false := by
    rw [← Bool.not_eq_true, hcomplete, ← hlive]
    decide
  exact ⟨s, val, stats, hrun, hval, hstats, hcount, hnot, rfl⟩

end Rcpu.CoinIndexRuns
