import Rcpu.Disconnect

/-!
# Reorganisations

`ActivateBestChainStep` of `validation.cpp` with `DisconnectTip`, `ConnectTip` and `CChain::FindFork`.
The undo data of a block is written the first time the block is connected and never again, and a
block that fails once stays marked.  Both are right only because the coins depend on nothing but the
branch they were reached on, which is what is proved here, for every order of reorganisations.
-/

namespace Rcpu.ChainActivation

open Checks ByteStream Serialize Transaction TxCheck ConfidentialValidation Compressor Coins
  Validation Undo Disconnect Script Confidential

/-! ### Branches -/

/-- A `CBlockIndex*`: the hash of the entry, then those of its ancestors down to the first block. -/
abbrev Branch := List Uint256

/-- `GetAncestor` for the entry with `n` entries on its branch, so of height `n - 1`. -/
def getAncestor (pindex : Branch) (n : Nat) : Branch := pindex.drop (pindex.length - n)

/-- `CChain::Contains` -/
def contains (m_chain pindex : Branch) : Bool := getAncestor m_chain pindex.length = pindex

/-- The loop of `FindFork`. -/
def findContained (m_chain : Branch) : Branch → Branch
  | [] => []
  | hash :: pprev =>
    if contains m_chain (hash :: pprev) then hash :: pprev else findContained m_chain pprev

def findFork (m_chain pindex : Branch) : Branch :=
  findContained m_chain
    (if m_chain.length < pindex.length then getAncestor pindex m_chain.length else pindex)

def indexOf (hash : Uint256) (pprev : Branch) : CBlockIndex where
  nHeight := pprev.length
  hash := hash
  prevHash := pprev.headD Uint256.null
  ancestorHash nHeight :=
    if nHeight < pprev.length then (getAncestor pprev (nHeight + 1)).head? else none

variable {hash : Uint256} {pprev pindex fork m_chain : Branch}

theorem findContained_suffix (m_chain pindex : Branch) :
    findContained m_chain pindex <:+ m_chain ∧ findContained m_chain pindex <:+ pindex := by
  induction pindex with
  | nil => exact ⟨List.nil_suffix, List.nil_suffix⟩
  | cons hash pprev ih =>
    rw [findContained]
    split_ifs with hcontains
    · constructor
      · rw [← of_decide_eq_true hcontains]
        exact List.drop_suffix ..
      · exact List.suffix_rfl
    · exact ⟨ih.1, ih.2.trans (List.suffix_cons ..)⟩

theorem findFork_suffix (m_chain pindex : Branch) :
    findFork m_chain pindex <:+ m_chain ∧ findFork m_chain pindex <:+ pindex := by
  rw [findFork]
  split_ifs
  · obtain ⟨hchain, hpindex⟩ := findContained_suffix m_chain (getAncestor pindex m_chain.length)
    exact ⟨hchain, hpindex.trans (List.drop_suffix ..)⟩
  · exact findContained_suffix m_chain pindex

theorem findContained_ne_nil (hne : fork ≠ []) (hchain : fork <:+ m_chain)
    (hpindex : fork <:+ pindex) : findContained m_chain pindex ≠ [] := by
  induction pindex with
  | nil => exact absurd (List.suffix_nil.mp hpindex) hne
  | cons hash pprev ih =>
    rw [findContained]
    split_ifs with hcontains
    · exact List.cons_ne_nil hash pprev
    · rcases List.suffix_cons_iff.mp hpindex with rfl | hbelow
      · exact absurd (decide_eq_true (List.suffix_iff_eq_drop.mp hchain).symm) hcontains
      · exact ih hbelow

/-- Branches that have a block in common have a fork. -/
theorem findFork_ne_nil (hne : fork ≠ []) (hchain : fork <:+ m_chain) (hpindex : fork <:+ pindex) :
    findFork m_chain pindex ≠ [] := by
  rw [findFork]
  split_ifs with hlt
  · apply findContained_ne_nil hne hchain
    apply List.suffix_of_suffix_length_le hpindex (List.drop_suffix ..)
    have hle := hchain.length_le
    rw [List.length_drop]
    omega
  · exact findContained_ne_nil hne hchain hpindex

/-! ### The chainstate -/

structure Chainstate where
  m_chain : Branch
  /-- `CoinsTip()` -/
  coinsTip : CCoinsView
  /-- What was written at the `nUndoPos` of an entry. -/
  undoData : Branch → Option Bytes
  /-- `m_failed_blocks` -/
  failed : List Branch

/-- What a node reads while it changes its chain. -/
structure Node (𝔾 : Type) where
  env : ChainEnv 𝔾
  undoEnv : UndoEnv
  /-- `ReadBlockFromDisk` -/
  readBlock : Uint256 → Option CBlock
  /-- `GetBlockProof` -/
  blockProof : Uint256 → Nat
  g_isRandomX : Bool
  /-- `-suspiciousreorgdepth` -/
  suspiciousDepth : Int
  sized : ∀ {hash block}, readBlock hash = some block → ∀ tx ∈ block.vtx, ∀ out ∈ tx.vout, Sized out

variable {𝔾 : Type} {node : Node 𝔾} {s s' : Chainstate}

def nChainWork (node : Node 𝔾) (pindex : Branch) : Nat := (pindex.map node.blockProof).sum

/-- A read that ends the process when it fails. -/
def orFatal {α : Type} (message : String) : Option α → Except BlockFailure α
  | none => .error (.exception message)
  | some a => .ok a

theorem orFatal_eq_ok {α : Type} {message : String} {o : Option α} {a : α} :
    orFatal message o = .ok a ↔ o = some a := by
  cases o <;> simp [orFatal]

/-- `DisconnectTip`; the chain and the coins are left alone unless all goes well. -/
def disconnectTip (node : Node 𝔾) (s : Chainstate) : Except BlockFailure Chainstate :=
  match s.m_chain with
  | hash :: prev :: rest => do
    let block ← orFatal "DisconnectTip(): Failed to read block" (node.readBlock hash)
    let file ← orFatal "UndoReadFromDisk: no undo data available" (s.undoData s.m_chain)
    match disconnectBlock node.undoEnv node.env.getHash block (indexOf hash (prev :: rest)) file
        s.coinsTip with
    | .ok (.DISCONNECT_OK, view) => .ok { s with m_chain := prev :: rest, coinsTip := view }
    | _ => .error (.exception "DisconnectTip(): DisconnectBlock failed")
  | _ => .error (.assertion "pindexDelete->pprev")

/-- The first loop of `ActivateBestChainStep`. -/
def disconnectTo (node : Node 𝔾) (pindexFork : Branch) :
    Nat → Chainstate → Except BlockFailure Chainstate
  | 0, s => .ok s
  | n + 1, s =>
    if s.m_chain = [] ∨ s.m_chain = pindexFork then .ok s
    else do disconnectTo node pindexFork n (← disconnectTip node s)

/-- `WriteUndoDataForBlock`: an entry that has undo data keeps it. -/
def writeUndoDataForBlock (node : Node 𝔾) (undoData : Branch → Option Bytes) (hash : Uint256)
    (pprev : Branch) (undo : CBlockUndo) : Branch → Option Bytes :=
  if (undoData (hash :: pprev)).isSome then undoData
  else Function.update undoData (hash :: pprev)
    (some (undoWriteToDisk node.undoEnv undo (indexOf hash pprev).prevHash))

/-- `InvalidBlockFound` -/
def invalidBlockFound (s : Chainstate) (pindex : Branch) (state : Invalid BlockValidationResult) :
    Chainstate :=
  if state.result = .BLOCK_MUTATED then s else { s with failed := pindex :: s.failed }

/-- A reorganisation that is left to the operator. -/
def Suspicious (node : Node 𝔾) (m_chain pindexFork : Branch) : Prop :=
  node.g_isRandomX ∧ m_chain ≠ [] ∧ pindexFork ≠ [] ∧ 0 < node.suspiciousDepth ∧
    node.suspiciousDepth ≤ (m_chain.length : Int) - pindexFork.length

instance (node : Node 𝔾) (m_chain pindexFork : Branch) :
    Decidable (Suspicious node m_chain pindexFork) :=
  inferInstanceAs (Decidable (_ ∧ _))

def atHeight (pindex : Branch) : String :=
  " @ height " ++ toString (pindex.length - 1) ++ " (" ++ (pindex.head?.map toHex).getD "" ++ ")\n"

def suspiciousMessage (suspiciousDepth : Int) (m_chain pindexMostWork pindexFork : Branch) :
    String :=
  "Detected suspicious reorg of " ++ toString (m_chain.length - pindexFork.length) ++
    " blocks, local policy allows " ++ toString (suspiciousDepth - 1) ++ " blocks.\n" ++
    "* current tip" ++ atHeight m_chain ++ "*   reorg tip" ++ atHeight pindexMostWork ++
    "*  fork point" ++ atHeight pindexFork

inductive Progress where
  | more
  | better
  | invalidFound
deriving DecidableEq, Repr

/-- `vpindexToConnect` from the lowest on: the entries above the first `n` of a branch, up to the
first `nTarget`. -/
def toConnect (pindexMostWork : Branch) (n nTarget : Nat) : List Branch :=
  ((getAncestor pindexMostWork nTarget).tails.take (nTarget - n)).reverse

/-- The branches of a block tree: they start with the genesis block, which occurs nowhere else, the
heights fit their type, and BIP30 is enforced. -/
structure Known (node : Node 𝔾) (pindex : Branch) : Prop where
  rooted : ∃ above, pindex = above ++ [node.env.params.hashGenesisBlock] ∧
    node.env.params.hashGenesisBlock ∉ above
  length_le : pindex.length ≤ 2 ^ 31
  bip30 : ∀ {hash pprev}, hash :: pprev <:+ pindex →
    enforceBIP30 node.env.params (indexOf hash pprev) = true

theorem Known.suffix (h : Known node pindex) (hne : fork ≠ []) (hsuffix : fork <:+ pindex) :
    Known node fork := by
  refine ⟨?_, hsuffix.length_le.trans h.length_le, fun hmem => h.bip30 (hmem.trans hsuffix)⟩
  obtain ⟨above, rfl, hgenesis⟩ := h.rooted
  obtain ⟨first, rfl, hfirst⟩ := (List.suffix_concat_iff.mp hsuffix).resolve_left hne
  exact ⟨first, rfl, fun hmem => hgenesis (hfirst.subset hmem)⟩

theorem Known.ne_genesis (h : Known node (hash :: pprev)) (hne : pprev ≠ []) :
    hash ≠ node.env.params.hashGenesisBlock := by
  rintro rfl
  obtain ⟨above, hsplit, hgenesis⟩ := h.rooted
  cases above with
  | nil => exact hne (List.cons.inj hsplit).2
  | cons first above => exact hgenesis (List.mem_cons.mpr (.inl (List.cons.inj hsplit).1))

theorem Known.genesis_suffix (h : Known node pindex) :
    [node.env.params.hashGenesisBlock] <:+ pindex := by
  obtain ⟨above, rfl, -⟩ := h.rooted
  exact List.suffix_append ..

theorem isSome_writeUndoDataForBlock {undoData : Branch → Option Bytes} {undo : CBlockUndo}
    {key : Branch} (h : (undoData key).isSome ∨ key = hash :: pprev) :
    (writeUndoDataForBlock node undoData hash pprev undo key).isSome := by
  unfold writeUndoDataForBlock
  split_ifs with hthere
  · rcases h with h | rfl
    · exact h
    · exact hthere
  · by_cases hkey : key = hash :: pprev
    · simp [hkey]
    · rw [Function.update_of_ne hkey]
      exact h.resolve_right hkey

theorem writeUndoDataForBlock_cases {undoData : Branch → Option Bytes} {undo : CBlockUndo}
    {key : Branch} {file : Bytes}
    (h : writeUndoDataForBlock node undoData hash pprev undo key = some file) :
    undoData key = some file ∨ (key = hash :: pprev ∧
      file = undoWriteToDisk node.undoEnv undo (indexOf hash pprev).prevHash) := by
  unfold writeUndoDataForBlock at h
  split_ifs at h
  · exact .inl h
  · by_cases hkey : key = hash :: pprev
    · rw [hkey, Function.update_self, Option.some.injEq] at h
      exact .inr ⟨hkey, h.symm⟩
    · rw [Function.update_of_ne hkey] at h
      exact .inl h

variable [AddCommGroup 𝔾] [Module Scalar 𝔾] [DecidableEq 𝔾]

/-- `ConnectTip`; `ConnectBlock` leaves before it writes undo data for the genesis block. -/
def connectTip (node : Node 𝔾) (s : Chainstate) : Branch → Except BlockFailure Chainstate
  | [] => .error (.assertion "pindexNew")
  | hash :: pprev => do
    require (pprev = s.m_chain) (.assertion "pindexNew->pprev == m_chain.Tip()")
    let block ← orFatal "Failed to read block" (node.readBlock hash)
    let (view, undo) ← connectBlock node.env block (indexOf hash pprev) s.coinsTip
    let undoData :=
      if pprev = [] ∨ hash = node.env.params.hashGenesisBlock then s.undoData
      else writeUndoDataForBlock node s.undoData hash pprev undo
    return { s with m_chain := hash :: pprev, coinsTip := view, undoData }

/-- The loop over `vpindexToConnect`. -/
def connectList (node : Node 𝔾) (pindexOldTip : Branch) :
    List Branch → Chainstate → Except BlockFailure (Chainstate × Progress)
  | [], s => .ok (s, .more)
  | pindexConnect :: rest, s =>
    match connectTip node s pindexConnect with
    | .error (.invalid state) => .ok (invalidBlockFound s pindexConnect state, .invalidFound)
    | .error e => .error e
    | .ok s' =>
      if pindexOldTip = [] ∨ nChainWork node pindexOldTip < nChainWork node s'.m_chain then
        .ok (s', .better)
      else connectList node pindexOldTip rest s'

/-- The second loop of `ActivateBestChainStep`, 32 blocks a round; also returns `fInvalidFound`. -/
def connectTowards (node : Node 𝔾) (pindexMostWork pindexOldTip : Branch) :
    Nat → Nat → Chainstate → Except BlockFailure (Chainstate × Bool)
  | 0, _, s => .ok (s, false)
  | fuel + 1, n, s =>
    if n = pindexMostWork.length then .ok (s, false)
    else do
      let nTarget := min (n + 32) pindexMostWork.length
      match ← connectList node pindexOldTip (toConnect pindexMostWork n nTarget) s with
      | (s', .more) => connectTowards node pindexMostWork pindexOldTip fuel nTarget s'
      | (s', progress) => .ok (s', progress = .invalidFound)

/-- `ActivateBestChainStep`; an error other than an invalid block shuts the node down. -/
def activateBestChainStep (node : Node 𝔾) (s : Chainstate) (pindexMostWork : Branch) :
    Except BlockFailure (Chainstate × Bool) := do
  let pindexFork := findFork s.m_chain pindexMostWork
  require (¬ Suspicious node s.m_chain pindexFork)
    (.exception (suspiciousMessage node.suspiciousDepth s.m_chain pindexMostWork pindexFork))
  let s' ← disconnectTo node pindexFork s.m_chain.length s
  connectTowards node pindexMostWork s.m_chain pindexMostWork.length pindexFork.length s'

/-- The states that runs of `ActivateBestChainStep` lead to, whatever branches it is called with. -/
inductive Reachable (node : Node 𝔾) : Chainstate → Prop
  | start : Reachable node ⟨[], .empty, fun _ => none, []⟩
  | step {s s' : Chainstate} {pindexMostWork : Branch} {fInvalidFound : Bool} :
    Reachable node s → Known node pindexMostWork →
    activateBestChainStep node s pindexMostWork = .ok (s', fInvalidFound) → Reachable node s'

/-! ### What the coins should be -/

/-- The coins after connecting a branch from its first block on. -/
def replay (node : Node 𝔾) : Branch → Except BlockFailure CCoinsView
  | [] => .ok .empty
  | hash :: pprev => do
    let view ← replay node pprev
    let block ← orFatal "Failed to read block" (node.readBlock hash)
    return (← connectBlock node.env block (indexOf hash pprev) view).1

theorem replay_cons_eq_ok {view' : CCoinsView} :
    replay node (hash :: pprev) = .ok view' ↔ ∃ view block undo, replay node pprev = .ok view ∧
      node.readBlock hash = some block ∧
      connectBlock node.env block (indexOf hash pprev) view = .ok (view', undo) := by
  simp only [replay, bind_eq_ok, orFatal_eq_ok, pure_eq_ok]
  constructor
  · rintro ⟨view, hview, block, hread, ⟨_, undo⟩, hconnect, rfl⟩
    exact ⟨view, block, undo, hview, hread, hconnect⟩
  · rintro ⟨view, block, undo, hview, hread, hconnect⟩
    exact ⟨view, hview, block, hread, _, hconnect, rfl⟩

theorem exists_replay_of_suffix {view : CCoinsView} (hsuffix : fork <:+ pindex)
    (h : replay node pindex = .ok view) : ∃ view, replay node fork = .ok view := by
  induction pindex generalizing view with
  | nil => exact ⟨.empty, by rw [List.suffix_nil.mp hsuffix, replay]⟩
  | cons hash pprev ih =>
    rcases List.suffix_cons_iff.mp hsuffix with rfl | hbelow
    · exact ⟨view, h⟩
    · obtain ⟨view₀, -, -, hview, -⟩ := replay_cons_eq_ok.mp h
      exact ih hbelow hview

/-- What connecting a block above the first one leaves behind: coins that can be traced, and undo
data that leads back. -/
theorem undone_of_connectBlock {view view' : CCoinsView} {block : CBlock} {undo : CBlockUndo}
    (hknown : Known node (hash :: pprev)) (hne : pprev ≠ []) (htrace : Traceable view)
    (hread : node.readBlock hash = some block)
    (hconnect : connectBlock node.env block (indexOf hash pprev) view = .ok (view', undo)) :
    Traceable view' ∧ disconnectBlock node.undoEnv node.env.getHash block (indexOf hash pprev)
      (undoWriteToDisk node.undoEnv undo (indexOf hash pprev).prevHash) view' =
        .ok (.DISCONNECT_OK, view) := by
  have hpos : 0 < (indexOf hash pprev).nHeight := List.length_pos_iff.mpr hne
  have hheight : (indexOf hash pprev).nHeight < 2 ^ 31 := hknown.length_le
  obtain ⟨⟨cb, txs, hblock⟩, hhash, ⟨hskip, -⟩ | ⟨-, hconnect⟩⟩ := connectBlock_eq_ok hconnect
  · rcases hskip with hzero | hgenesis
    · exact absurd hzero hpos.ne'
    · exact absurd (hhash.trans hgenesis) (hknown.ne_genesis hne)
  · simp only [connectTransactions, bind_eq_ok, pure_eq_ok, Prod.mk.injEq] at hconnect
    obtain ⟨⟨⟩, hbip30, st, hloop, -, -, rfl, rfl⟩ := hconnect
    have hfree := checkBIP30_eq_ok hbip30 (hknown.bip30 List.suffix_rfl)
    have hundoable : Undoable node.env (indexOf hash pprev) view block.vtx st := by
      refine undoable_foldlM (undoable_nil htrace) hpos hheight ?_ hloop
      intro st done tx rest hsplit hundo
      exact admissible_of_checkedBlock hblock (node.sized hread) hfree hsplit hundo
    have hvtx : st.vtxundo.length + 1 = block.vtx.length := by
      rw [hundoable.length_eq, hblock.vtx_eq, List.length_cons, Nat.add_sub_cancel]
    have hmax : st.vtxundo.length ≤ MAX_SIZE := by
      have hle := hblock.length_le
      unfold WITNESS_SCALE_FACTOR MAX_BLOCK_WEIGHT at hle
      unfold MAX_SIZE
      omega
    have hundo : undoReadFromDisk node.undoEnv (indexOf hash pprev) (undoWriteToDisk node.undoEnv
        ⟨st.vtxundo⟩ (indexOf hash pprev).prevHash ++ []) = .ok ⟨st.vtxundo⟩ :=
      undoReadFromDisk_undoWriteToDisk (reads_serBlockUndo hmax hundoable.recordable) []
    have hfold := hundoable.disconnects []
    rw [List.append_nil] at hundo hfold
    refine ⟨hundoable.traceable, bind_eq_ok.mpr ⟨_, mapError_eq_ok.mpr hundo, ?_⟩⟩
    apply bind_unit_eq_ok.mpr
    exact ⟨require_eq_ok.mpr hvtx, bind_eq_ok.mpr ⟨_, hfold, rfl⟩⟩

/-- The first block only passes on that there are no coins. -/
theorem replay_first {view : CCoinsView} (h : replay node [hash] = .ok view) :
    view = CCoinsView.empty := by
  obtain ⟨view₀, block, undo, hview, -, hconnect⟩ := replay_cons_eq_ok.mp h
  obtain rfl := Except.ok.inj hview
  obtain ⟨-, -, ⟨-, hview⟩ | ⟨hlater, -⟩⟩ := connectBlock_eq_ok hconnect
  · exact hview
  · exact absurd (Or.inl rfl) hlater

theorem traceable_empty : Traceable CCoinsView.empty := by
  intro o c hc
  simp at hc

theorem traceable_replay {view : CCoinsView} (hknown : Known node pindex)
    (h : replay node pindex = .ok view) : Traceable view := by
  induction pindex generalizing view with
  | nil => exact Except.ok.inj h ▸ traceable_empty
  | cons hash pprev ih =>
    by_cases hfirst : pprev = []
    · subst hfirst
      exact replay_first h ▸ traceable_empty
    · obtain ⟨view₀, block, undo, hview, hread, hconnect⟩ := replay_cons_eq_ok.mp h
      have htrace := ih (hknown.suffix hfirst (List.suffix_cons ..)) hview
      exact (undone_of_connectBlock hknown hfirst htrace hread hconnect).1

/-! ### Coherence -/

/-- The coins are those of the active chain, undo data is there for all of it and is what the block
writes on its own branch, and what was marked as failed fails. -/
structure Coherent (node : Node 𝔾) (s : Chainstate) : Prop where
  known : s.m_chain ≠ [] → Known node s.m_chain
  coins : replay node s.m_chain = .ok s.coinsTip
  undone : ∀ {hash pprev}, hash :: pprev <:+ s.m_chain → pprev ≠ [] →
    (s.undoData (hash :: pprev)).isSome
  undoData : ∀ {hash pprev file}, s.undoData (hash :: pprev) = some file →
    ∃ view view' block undo, replay node pprev = .ok view ∧ node.readBlock hash = some block ∧
      connectBlock node.env block (indexOf hash pprev) view = .ok (view', undo) ∧
      file = undoWriteToDisk node.undoEnv undo (indexOf hash pprev).prevHash
  failed : ∀ pindex ∈ s.failed, ∀ view, replay node pindex ≠ .ok view

theorem coherent_start : Coherent node ⟨[], .empty, fun _ => none, []⟩ where
  known := by simp
  coins := rfl
  undone := by simp
  undoData := by simp
  failed := by simp

theorem connectTip_eq_ok (h : connectTip node s pindex = .ok s') :
    ∃ hash block undo, pindex = hash :: s.m_chain ∧ node.readBlock hash = some block ∧
      connectBlock node.env block (indexOf hash s.m_chain) s.coinsTip = .ok (s'.coinsTip, undo) ∧
      s'.m_chain = pindex ∧ s'.failed = s.failed ∧
      s'.undoData = if s.m_chain = [] ∨ hash = node.env.params.hashGenesisBlock then s.undoData
        else writeUndoDataForBlock node s.undoData hash s.m_chain undo := by
  cases pindex with
  | nil => cases h
  | cons hash pprev =>
    simp only [connectTip, bind_eq_ok, require_eq_ok, orFatal_eq_ok, pure_eq_ok] at h
    obtain ⟨-, rfl, block, hread, ⟨view, undo⟩, hconnect, rfl⟩ := h
    exact ⟨hash, block, undo, rfl, hread, hconnect, rfl, rfl, rfl⟩

theorem Coherent.connectTip (h : Coherent node s) (hknown : Known node pindex)
    (hstep : connectTip node s pindex = .ok s') : Coherent node s' := by
  obtain ⟨hash, block, undo, rfl, hread, hconnect, hchain, hfailed, hundo⟩ := connectTip_eq_ok hstep
  have hcoins : replay node (hash :: s.m_chain) = .ok s'.coinsTip :=
    replay_cons_eq_ok.mpr ⟨_, block, undo, h.coins, hread, hconnect⟩
  refine ⟨fun _ => hchain ▸ hknown, hchain ▸ hcoins, ?_, ?_, hfailed ▸ h.failed⟩
  · intro hash' pprev hsuffix hne
    rw [hchain] at hsuffix
    rw [hundo]
    rcases List.suffix_cons_iff.mp hsuffix with heq | hbelow
    · obtain ⟨rfl, rfl⟩ := List.cons.inj heq
      rw [if_neg (not_or.mpr ⟨hne, hknown.ne_genesis hne⟩)]
      exact isSome_writeUndoDataForBlock (.inr rfl)
    · split_ifs
      · exact h.undone hbelow hne
      · exact isSome_writeUndoDataForBlock (.inl (h.undone hbelow hne))
  · intro hash' pprev file hfile
    rw [hundo] at hfile
    split_ifs at hfile
    · exact h.undoData hfile
    · rcases writeUndoDataForBlock_cases hfile with hold | ⟨hkey, rfl⟩
      · exact h.undoData hold
      · obtain ⟨rfl, rfl⟩ := List.cons.inj hkey
        exact ⟨_, _, block, undo, h.coins, hread, hconnect, rfl⟩

/-- A block that cannot be connected has no coins on its branch, so marking it is right for good. -/
theorem Coherent.invalidBlockFound (h : Coherent node s) {state : Invalid BlockValidationResult}
    (hstep : ChainActivation.connectTip node s pindex = .error (.invalid state)) :
    Coherent node (invalidBlockFound s pindex state) := by
  unfold ChainActivation.invalidBlockFound
  split_ifs
  · exact h
  · refine ⟨h.known, h.coins, h.undone, h.undoData, ?_⟩
    intro p hp view hview
    rcases List.mem_cons.mp hp with rfl | hold
    · cases p with
      | nil => cases hstep
      | cons hash pprev =>
        obtain ⟨view₀, block, undo, hview₀, hread, hconnect⟩ := replay_cons_eq_ok.mp hview
        by_cases hprev : pprev = s.m_chain
        · subst hprev
          obtain rfl := Except.ok.inj (h.coins.symm.trans hview₀)
          simp [ChainActivation.connectTip, require, hread, orFatal, hconnect, bind, Except.bind,
            pure, Except.pure] at hstep
        · simp [ChainActivation.connectTip, require, hprev, bind, Except.bind] at hstep
    · exact h.failed p hold view hview

/-- **The tip can always be disconnected**, and this restores the coins of the block below. -/
theorem Coherent.exists_disconnectTip (h : Coherent node s) {prev : Uint256} {rest : Branch}
    (hchain : s.m_chain = hash :: prev :: rest) :
    ∃ s', disconnectTip node s = .ok s' ∧ s'.m_chain = prev :: rest ∧ Coherent node s' := by
  have hbelow : prev :: rest <:+ s.m_chain := hchain ▸ List.suffix_cons ..
  have hknown := h.known (hchain ▸ List.cons_ne_nil _ _)
  have hprev := hknown.suffix (List.cons_ne_nil prev rest) hbelow
  obtain ⟨file, hfile⟩ : ∃ file, s.undoData (hash :: prev :: rest) = some file :=
    Option.isSome_iff_exists.mp (h.undone (by rw [hchain]) (List.cons_ne_nil prev rest))
  have hcoins := h.coins
  rw [hchain] at hknown hcoins
  obtain ⟨view, block, undo, hview, hread, hconnect⟩ := replay_cons_eq_ok.mp hcoins
  obtain ⟨view₁, view₂, block₁, undo₁, hview₁, hread₁, hconnect₁, rfl⟩ := h.undoData hfile
  -- the data on disk may be from an earlier connection, but of the same block on the same coins
  obtain rfl := Except.ok.inj (hview.symm.trans hview₁)
  obtain rfl := Option.some.inj (hread.symm.trans hread₁)
  obtain ⟨-, rfl⟩ := Prod.mk.inj (Except.ok.inj (hconnect.symm.trans hconnect₁))
  have hback := (undone_of_connectBlock hknown (List.cons_ne_nil prev rest)
    (traceable_replay hprev hview) hread hconnect).2
  refine ⟨{ s with m_chain := prev :: rest, coinsTip := view }, ?_, rfl, ?_⟩
  · rw [disconnectTip, hchain]
    simp only [hread, hfile, orFatal, bind, Except.bind, hback]
  · exact ⟨fun _ => hprev, hview, fun hmem => h.undone (hmem.trans hbelow), h.undoData, h.failed⟩

/-- **A chain can be cut back to any of its blocks**, and to the coins of that block. -/
theorem Coherent.exists_disconnectTo {n : Nat} (h : Coherent node s) (hlength : s.m_chain.length ≤ n)
    (hne : fork ≠ []) (hfork : fork <:+ s.m_chain) :
    ∃ s', disconnectTo node fork n s = .ok s' ∧ s'.m_chain = fork ∧ Coherent node s' := by
  induction n generalizing s with
  | zero =>
    have hle := hfork.length_le
    exact absurd (List.length_eq_zero_iff.mp (by omega)) hne
  | succ n ih =>
    rw [disconnectTo]
    rcases hchain : s.m_chain with _ | ⟨hash, below⟩
    · rw [hchain] at hfork
      exact absurd (List.suffix_nil.mp hfork) hne
    · rw [hchain] at hfork hlength
      rcases List.suffix_cons_iff.mp hfork with rfl | hbelow
      · exact ⟨s, if_pos (.inr rfl), hchain, h⟩
      · obtain ⟨prev, rest, rfl⟩ : ∃ prev rest, below = prev :: rest := by
          apply List.exists_cons_of_ne_nil
          rintro rfl
          exact hne (List.suffix_nil.mp hbelow)
        have hother : ¬ (hash :: prev :: rest = [] ∨ hash :: prev :: rest = fork) := by
          rintro (hnil | rfl)
          · cases hnil
          · simpa using hbelow.length_le
        obtain ⟨mid, htip, hmid, hcoherent⟩ := h.exists_disconnectTip hchain
        obtain ⟨s', hloop, hs'⟩ := ih hcoherent (hmid ▸ Nat.le_of_succ_le_succ hlength)
          (hmid ▸ hbelow)
        rw [if_neg hother]
        exact ⟨s', bind_eq_ok.mpr ⟨mid, htip, hloop⟩, hs'⟩

/-! ### Connecting -/

/-- The chain is better than the old one, so that the step may end. -/
def Improves {𝔾 : Type} (node : Node 𝔾) (pindexOldTip m_chain : Branch) : Prop :=
  pindexOldTip = [] ∨ nChainWork node pindexOldTip < nChainWork node m_chain

structure Between (node : Node 𝔾) (fork target : Branch) (s : Chainstate) : Prop where
  coherent : Coherent node s
  above : fork <:+ s.m_chain
  below : s.m_chain <:+ target

variable {target pindexOldTip : Branch}

theorem connectList_spec {l : List Branch} {progress : Progress} (hknown : Known node target)
    (hs : Between node fork target s) (hl : ∀ p ∈ l, p <:+ target)
    (h : connectList node pindexOldTip l s = .ok (s', progress)) :
    Between node fork target s' ∧ (progress = .more → s'.m_chain = l.getLastD s.m_chain) ∧
      (progress = .better → Improves node pindexOldTip s'.m_chain) := by
  induction l generalizing s with
  | nil =>
    obtain ⟨rfl, rfl⟩ := Prod.mk.inj (Except.ok.inj h)
    exact ⟨hs, fun _ => rfl, nofun⟩
  | cons p l ih =>
    obtain ⟨hp, hl⟩ := List.forall_mem_cons.mp hl
    rw [connectList] at h
    split at h
    · rename_i state hinvalid
      obtain ⟨rfl, rfl⟩ := Prod.mk.inj (Except.ok.inj h)
      have hchain : (invalidBlockFound s p state).m_chain = s.m_chain := by
        unfold invalidBlockFound
        split_ifs <;> rfl
      refine ⟨⟨hs.coherent.invalidBlockFound hinvalid, ?_, ?_⟩, nofun, nofun⟩
      · exact hchain ▸ hs.above
      · exact hchain ▸ hs.below
    · cases h
    · rename_i mid htip
      obtain ⟨hash, -, -, hcons, -, -, hchain, -⟩ := connectTip_eq_ok htip
      have hmid : Between node fork target mid := by
        have hne : p ≠ [] := hcons ▸ List.cons_ne_nil _ _
        refine ⟨hs.coherent.connectTip (hknown.suffix hne hp) htip, ?_, hchain ▸ hp⟩
        rw [hchain, hcons]
        exact hs.above.trans (List.suffix_cons ..)
      split_ifs at h with hbetter
      · obtain ⟨rfl, rfl⟩ := Prod.mk.inj (Except.ok.inj h)
        exact ⟨hmid, nofun, fun _ => hbetter⟩
      · obtain ⟨hrest, hmore, himproves⟩ := ih hmid hl h
        refine ⟨hrest, fun hp => ?_, himproves⟩
        rw [hmore hp, hchain]
        cases l <;> rfl

theorem toConnect_suffix {p : Branch} {n nTarget : Nat} (h : p ∈ toConnect target n nTarget) :
    p <:+ target := by
  rw [toConnect, List.mem_reverse] at h
  exact ((List.mem_tails ..).mp (List.mem_of_mem_take h)).trans (List.drop_suffix ..)

theorem getLastD_toConnect {n nTarget : Nat} (h : n < nTarget) (p : Branch) :
    (toConnect target n nTarget).getLastD p = getAncestor target nTarget := by
  obtain ⟨k, hk⟩ : ∃ k, nTarget - n = k + 1 := ⟨nTarget - n - 1, by omega⟩
  rw [toConnect, hk]
  cases getAncestor target nTarget <;> simp [List.getLastD_eq_getLast?]

/-- The rounds of 32 blocks together connect up to the target, unless an invalid block stops them or
the chain has become better before. -/
theorem connectTowards_spec {fuel n : Nat} {fInvalidFound : Bool} (hknown : Known node target)
    (hs : Between node fork target s) (hn : s.m_chain.length = n) (hfuel : target.length ≤ n + fuel)
    (h : connectTowards node target pindexOldTip fuel n s = .ok (s', fInvalidFound)) :
    Between node fork target s' ∧ (fInvalidFound = false →
      s'.m_chain = target ∨ Improves node pindexOldTip s'.m_chain) := by
  have hdone : target.length ≤ n → s.m_chain = target := fun hle =>
    hs.below.eq_of_length (le_antisymm hs.below.length_le (hn ▸ hle))
  induction fuel generalizing n s with
  | zero =>
    obtain ⟨rfl, rfl⟩ := Prod.mk.inj (Except.ok.inj h)
    exact ⟨hs, fun _ => .inl (hdone hfuel)⟩
  | succ fuel ih =>
    rw [connectTowards] at h
    split_ifs at h with hend
    · obtain ⟨rfl, rfl⟩ := Prod.mk.inj (Except.ok.inj h)
      exact ⟨hs, fun _ => .inl (hdone hend.ge)⟩
    · have hlt : n < target.length := lt_of_le_of_ne (hn ▸ hs.below.length_le) hend
      obtain ⟨⟨mid, progress⟩, hlist, h⟩ := bind_eq_ok.mp h
      obtain ⟨hmid, hmore, hbetter⟩ := connectList_spec hknown hs (fun _ => toConnect_suffix) hlist
      cases progress with
      | more =>
        have hlength : mid.m_chain.length = min (n + 32) target.length := by
          rw [hmore rfl, getLastD_toConnect (by omega), getAncestor, List.length_drop]
          omega
        exact ih hmid hlength (by omega) h fun hle =>
          hmid.below.eq_of_length (le_antisymm hmid.below.length_le (hlength ▸ hle))
      | better =>
        obtain ⟨rfl, rfl⟩ := Prod.mk.inj (Except.ok.inj h)
        exact ⟨hmid, fun _ => .inr (hbetter rfl)⟩
      | invalidFound =>
        obtain ⟨rfl, rfl⟩ := Prod.mk.inj (Except.ok.inj h)
        exact ⟨hmid, by simp⟩

/-! ### Runs -/

/-- The first loop leads to the fork; there is one unless nothing was connected before. -/
theorem Coherent.exists_fork (h : Coherent node s) (hknown : Known node pindex) :
    ∃ mid, disconnectTo node (findFork s.m_chain pindex) s.m_chain.length s = .ok mid ∧
      mid.m_chain = findFork s.m_chain pindex ∧ Coherent node mid := by
  obtain ⟨hchain, -⟩ := findFork_suffix s.m_chain pindex
  by_cases hnil : s.m_chain = []
  · rw [hnil] at hchain ⊢
    exact ⟨s, rfl, hnil.trans (List.suffix_nil.mp hchain).symm, h⟩
  · have hfork := findFork_ne_nil (List.cons_ne_nil _ _) (h.known hnil).genesis_suffix
      hknown.genesis_suffix
    exact h.exists_disconnectTo (Nat.le_refl _) hfork hchain

/-- What a step that does not shut the node down did. -/
theorem Coherent.activateBestChainStep {fInvalidFound : Bool} (h : Coherent node s)
    (hknown : Known node pindex)
    (hstep : activateBestChainStep node s pindex = .ok (s', fInvalidFound)) :
    ¬ Suspicious node s.m_chain (findFork s.m_chain pindex) ∧
      Between node (findFork s.m_chain pindex) pindex s' ∧
      (fInvalidFound = false → s'.m_chain = pindex ∨ Improves node s.m_chain s'.m_chain) := by
  obtain ⟨hguard, hstep⟩ := bind_unit_eq_ok.mp hstep
  obtain ⟨mid, hdisconnect, hmid, hcoherent⟩ := h.exists_fork hknown
  obtain ⟨mid', hdisconnect', hstep⟩ := bind_eq_ok.mp hstep
  obtain rfl := Except.ok.inj (hdisconnect'.symm.trans hdisconnect)
  have hfork : Between node (findFork s.m_chain pindex) pindex mid' :=
    ⟨hcoherent, hmid ▸ List.suffix_rfl, hmid ▸ (findFork_suffix s.m_chain pindex).2⟩
  exact ⟨require_eq_ok.mp hguard,
    connectTowards_spec hknown hfork (congrArg _ hmid) (by omega) hstep⟩

theorem Reachable.coherent (h : Reachable node s) : Coherent node s := by
  induction h with
  | start => exact coherent_start
  | step _ hknown hstep ih => exact (ih.activateBestChainStep hknown hstep).2.1.coherent

/-- **Reorganisations lose nothing**: the coins are those of the active chain connected once from
the start, no failed block is on it, and it can be cut back to any of its blocks. -/
theorem reorganisations_lose_nothing (node : Node 𝔾) (s : Chainstate) (hreach : Reachable node s) :
    replay node s.m_chain = .ok s.coinsTip ∧
      (∀ pindex ∈ s.failed, ¬ pindex <:+ s.m_chain) ∧
      ∀ fork, fork ≠ [] → fork <:+ s.m_chain → ∃ s',
        disconnectTo node fork s.m_chain.length s = .ok s' ∧ s'.m_chain = fork ∧
          replay node fork = .ok s'.coinsTip := by
  have hs := hreach.coherent
  refine ⟨hs.coins, ?_, ?_⟩
  · intro pindex hfailed hsuffix
    obtain ⟨view, hview⟩ := exists_replay_of_suffix hsuffix hs.coins
    exact hs.failed pindex hfailed view hview
  · intro fork hne hfork
    obtain ⟨s', hs', hchain, hcoherent⟩ := hs.exists_disconnectTo (Nat.le_refl _) hne hfork
    exact ⟨s', hs', hchain, hchain ▸ hcoherent.coins⟩

/-- **Where a step ends**: on the way to the given branch, at its end or with more work than before
unless a block was invalid; on the RandomX chain all but the last `suspiciousDepth - 1` blocks stay.
-/
theorem activateBestChainStep_outcome (node : Node 𝔾) (s s' : Chainstate) (pindex : Branch)
    (fInvalidFound : Bool) (hreach : Reachable node s) (hknown : Known node pindex)
    (hstep : activateBestChainStep node s pindex = .ok (s', fInvalidFound)) :
    s'.m_chain <:+ pindex ∧
      (fInvalidFound = false → s'.m_chain = pindex ∨ Improves node s.m_chain s'.m_chain) ∧
      (node.g_isRandomX = true → 0 < node.suspiciousDepth →
        s.m_chain.drop (node.suspiciousDepth.toNat - 1) <:+ s'.m_chain) := by
  obtain ⟨hguard, hbetween, hend⟩ := hreach.coherent.activateBestChainStep hknown hstep
  refine ⟨hbetween.below, hend, ?_⟩
  intro hrandomX hdepth
  by_cases hnil : s.m_chain = []
  · simp [hnil]
  · have hfork := findFork_ne_nil (List.cons_ne_nil _ _)
      (hreach.coherent.known hnil).genesis_suffix hknown.genesis_suffix
    have hlong : ¬ node.suspiciousDepth ≤ (s.m_chain.length : Int) -
        (findFork s.m_chain pindex).length :=
      fun hle => hguard ⟨hrandomX, hnil, hfork, hdepth, hle⟩
    have hsuffix := (findFork_suffix s.m_chain pindex).1
    refine (List.suffix_of_suffix_length_le (List.drop_suffix ..) hsuffix ?_).trans hbetween.above
    rw [List.length_drop]
    omega

theorem connectedChain_of_replay {node : Node (Scalar × Scalar)} {view : CCoinsView}
    (h : replay node pindex = .ok view) :
    Supply.ConnectedChain node.env (pindex.length - 1) view := by
  induction pindex generalizing view with
  | nil => exact Except.ok.inj h ▸ .genesis
  | cons hash pprev ih =>
    cases pprev with
    | nil => exact replay_first h ▸ .genesis
    | cons prev rest =>
      obtain ⟨view₀, block, undo, hview, -, hconnect⟩ := replay_cons_eq_ok.mp h
      exact .connect (ih hview) rfl hconnect

/-- **No inflation through reorganisations**: the coins hold at most the subsidies of the heights of
the active chain, whatever abandoned branches created. -/
theorem reorganised_totalValue_le (node : Node (Scalar × Scalar))
    (hideal : Supply.IdealSecp node.env.secp) (s : Chainstate) (hreach : Reachable node s) :
    Supply.totalValue node.env.secp s.coinsTip ≤
      ∑ height ∈ Finset.Icc 1 (s.m_chain.length - 1), getBlockSubsidy node.env.params height :=
  ((connectedChain_of_replay hreach.coherent.coins).invariant hideal).2

/-! ### A reorganisation -/

/-- A block that pays one coin, told apart by its lock time. -/
def coinbaseBlock (hash : Uint256) : CBlock where
  hash := hash
  vtx := [{ vin := [sampleTxIn ⟨Uint256.null, COutPoint.NULL_INDEX⟩ [1, 1]]
            vout := [.ofAmount COIN [OP_TRUE]], nVersion := 2
            nLockTime := UInt32.ofNat (ofLeBytes hash.bytes) }]

def sampleNode : Node (Scalar × Scalar) where
  env := sampleEnv
  undoEnv := sampleUndoEnv
  readBlock hash := some (coinbaseBlock hash)
  blockProof _ := 1
  g_isRandomX := true
  suspiciousDepth := 2
  sized := by
    intro hash block hread tx htx out hout
    obtain rfl := Option.some.inj hread
    obtain rfl := List.mem_singleton.mp htx
    obtain rfl := List.mem_singleton.mp hout
    exact ⟨by decide, by decide, by decide⟩

def oldBranch : Branch := [uint256S 1, uint256S 0]

def newBranch : Branch := [uint256S 3, uint256S 2, uint256S 0]

theorem known_oldBranch : Known sampleNode oldBranch where
  rooted := ⟨[uint256S 1], rfl, by decide⟩
  length_le := by decide
  bip30 hsuffix := (by decide : ∀ p ∈ oldBranch.tails, ∀ hash ∈ p.head?,
    enforceBIP30 sampleNode.env.params (indexOf hash p.tail)) _ ((List.mem_tails ..).mpr hsuffix) _ rfl

theorem known_newBranch : Known sampleNode newBranch where
  rooted := ⟨[uint256S 3, uint256S 2], rfl, by decide⟩
  length_le := by decide
  bip30 hsuffix := (by decide : ∀ p ∈ newBranch.tails, ∀ hash ∈ p.head?,
    enforceBIP30 sampleNode.env.params (indexOf hash p.tail)) _ ((List.mem_tails ..).mpr hsuffix) _ rfl

set_option maxRecDepth 4000 in
/-- The first step ends with the first block, the second on the old branch; the third leaves it. -/
theorem exists_reorganisation : ∃ s s', Reachable sampleNode s ∧ s.m_chain = oldBranch ∧
    activateBestChainStep sampleNode s newBranch = .ok (s', false) ∧ s'.m_chain = newBranch :=
  ⟨_, _, .step (.step .start known_oldBranch rfl) known_oldBranch rfl, rfl, rfl, rfl⟩

theorem reorganised_sampleNode_lose_nothing : ∃ s, Reachable sampleNode s ∧
    s.m_chain = newBranch ∧ replay sampleNode newBranch = .ok s.coinsTip := by
  obtain ⟨s, s', hreach, -, hstep, hchain⟩ := exists_reorganisation
  have hreach' := hreach.step known_newBranch hstep
  exact ⟨s', hreach', hchain, hchain ▸ (reorganisations_lose_nothing sampleNode s' hreach').1⟩

theorem reorganised_sampleNode_outcome : ∃ s s', Reachable sampleNode s ∧ s.m_chain = oldBranch ∧
    activateBestChainStep sampleNode s newBranch = .ok (s', false) ∧ s'.m_chain <:+ newBranch := by
  obtain ⟨s, s', hreach, hchain, hstep, -⟩ := exists_reorganisation
  exact ⟨s, s', hreach, hchain, hstep, (activateBestChainStep_outcome sampleNode s s' newBranch
    false hreach known_newBranch hstep).1⟩

theorem reorganised_sampleNode_totalValue_le : ∃ s, Reachable sampleNode s ∧
    s.m_chain = newBranch ∧ Supply.totalValue sampleNode.env.secp s.coinsTip ≤
      ∑ height ∈ Finset.Icc 1 (s.m_chain.length - 1), getBlockSubsidy sampleNode.env.params height := by
  obtain ⟨s, s', hreach, -, hstep, hchain⟩ := exists_reorganisation
  have hreach' := hreach.step known_newBranch hstep
  exact ⟨s', hreach', hchain,
    reorganised_totalValue_le sampleNode Supply.idealSecp_ideal s' hreach'⟩

end Rcpu.ChainActivation
