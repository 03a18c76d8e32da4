import Rcpu.Checks
import Rcpu.Difficulty
import Rcpu.ParentPass
import Rcpu.PowDispatch

/-!
# The block index and its restarts

`node/blockstorage.cpp`: the block manager keeps the tree of all known headers in memory, writes new
entries to the block tree database from time to time, and rebuilds the tree from there at startup.
The number of blocks of the second algorithm up to an entry is not stored: it is computed when the
entry is added and computed again, in order of height, at startup.
-/

namespace Rcpu.BlockIndex

open Transaction Rcpu.Pow PowDispatch Difficulty WeightedMap AncestorClosure ParentPass

/-! ### Entries -/

/-- An entry of `m_block_index`; the pointer to the parent is the key of the parent. -/
structure BlockEntry extends CBlockIndex where
  pprev : Option Uint256
  hashMerkleRoot : Uint256
  nNonce : UInt32
  hashRandomX : Uint256
deriving DecidableEq, Repr

structure CDiskBlockIndex where
  nHeight : Int
  nVersion : Int32
  hashPrev : Uint256
  hashMerkleRoot : Uint256
  nTime : UInt32
  nBits : UInt32
  nNonce : UInt32
  hashRandomX : Uint256
deriving DecidableEq, Repr

abbrev BlockMap := Map Uint256 BlockEntry

/-- `CBlockIndex(const CBlockHeader&)` -/
def newEntry (block : CBlockHeader) : BlockEntry where
  nHeight := 0
  nVersion := block.nVersion
  nTime := block.nTime
  nBits := block.nBits
  nSecondAlgoCount := -1
  pprev := none
  hashMerkleRoot := block.hashMerkleRoot
  nNonce := block.nNonce
  hashRandomX := block.hashRandomX

/-- `CBlockIndex()` -/
def defaultEntry : BlockEntry where
  nHeight := 0
  nVersion := 0
  nTime := 0
  nBits := 0
  nSecondAlgoCount := -1
  pprev := none
  hashMerkleRoot := Uint256.null
  nNonce := 0
  hashRandomX := Uint256.null

def parentOf (index : BlockMap) (pindex : BlockEntry) : Option BlockEntry :=
  pindex.pprev.bind index.lookup

def computeSecondAlgoCount (pprev : Option BlockEntry) (index : BlockEntry)
    (nDualAlgoActivationHeight : Int) : Int :=
  if index.nHeight < nDualAlgoActivationHeight then 0
  else
    let prev := pprev.elim 0 fun entry => entry.nSecondAlgoCount
    if prev < 0 then -1
    else prev + if isSecondAlgo index.nVersion then 1 else 0

def recount (nDualAlgoActivationHeight : Int) (pprev : Option BlockEntry) (pindex : BlockEntry) :
    BlockEntry :=
  { pindex with
    nSecondAlgoCount := computeSecondAlgoCount pprev pindex nDualAlgoActivationHeight }

theorem recount_count {index : BlockMap} {nActHeight : Int} {pprev : Option BlockEntry}
    {pindex : BlockEntry} (h : parentOf index pindex = pprev) :
    (recount nActHeight pprev pindex).nSecondAlgoCount =
      computeSecondAlgoCount (parentOf index (recount nActHeight pprev pindex))
        (recount nActHeight pprev pindex) nActHeight := by
  have hparent : parentOf index (recount nActHeight pprev pindex) = pprev := h
  rw [hparent]
  rfl

namespace CDiskBlockIndex

def header (d : CDiskBlockIndex) : CBlockHeader where
  nVersion := d.nVersion
  hashPrevBlock := d.hashPrev
  hashMerkleRoot := d.hashMerkleRoot
  nTime := d.nTime
  nBits := d.nBits
  nNonce := d.nNonce
  hashRandomX := d.hashRandomX

def constructBlockHash (hashes : PowHashes) (params : Params) (d : CDiskBlockIndex) : Uint256 :=
  getHash hashes params d.header

/-- What is written of an entry; only chains with `fPowRandomX` write the RandomX hash. -/
def ofEntry (params : Params) (pindex : BlockEntry) : CDiskBlockIndex where
  nHeight := pindex.nHeight
  nVersion := pindex.nVersion
  hashPrev := pindex.pprev.getD Uint256.null
  hashMerkleRoot := pindex.hashMerkleRoot
  nTime := pindex.nTime
  nBits := pindex.nBits
  nNonce := pindex.nNonce
  hashRandomX := if params.fPowRandomX then pindex.hashRandomX else Uint256.null

def toEntry (d : CDiskBlockIndex) : BlockEntry where
  nHeight := d.nHeight
  nVersion := d.nVersion
  nTime := d.nTime
  nBits := d.nBits
  nSecondAlgoCount := -1
  pprev := if d.hashPrev = Uint256.null then none else some d.hashPrev
  hashMerkleRoot := d.hashMerkleRoot
  nNonce := d.nNonce
  hashRandomX := d.hashRandomX

/-- Writing an entry that was read, counted or not, gives what was read. -/
theorem ofEntry_recount_toEntry (params : Params) (nActHeight : Int) (pprev : Option BlockEntry)
    (pindex : BlockEntry) :
    ofEntry params (recount nActHeight pprev (ofEntry params pindex).toEntry) =
      ofEntry params pindex := by
  by_cases hnull : pindex.pprev.getD Uint256.null = Uint256.null <;>
    cases hrx : params.fPowRandomX <;> simp [ofEntry, recount, toEntry, hnull, hrx]

theorem pprev_of_toEntry {params : Params} {pindex : BlockEntry} {prev : Uint256}
    (h : (ofEntry params pindex).toEntry.pprev = some prev) : pindex.pprev = some prev := by
  cases hprev : pindex.pprev with
  | none => simp [toEntry, ofEntry, hprev] at h
  | some hash =>
    simp only [toEntry, ofEntry, hprev, Option.getD_some] at h
    split at h
    · cases h
    · exact h

end CDiskBlockIndex

/-! ### The block manager -/

structure BlockManager where
  m_block_index : BlockMap
  m_dirty_blockindex : List Uint256
  m_block_tree_db : Map Uint256 CDiskBlockIndex

section Manager

variable (hashes : PowHashes) (params : Params)

def addToBlockIndex (s : BlockManager) (block : CBlockHeader) : BlockManager :=
  let hash := getHash hashes params block
  match s.m_block_index.lookup hash with
  | some _ => s
  | none =>
    -- the new entry is in the map already when its parent is looked up
    let index := s.m_block_index.insert hash (newEntry block)
    let pindexNew := match index.lookup block.hashPrevBlock with
      | some pprev =>
        { newEntry block with pprev := some block.hashPrevBlock, nHeight := pprev.nHeight + 1 }
      | none => newEntry block
    let pindexNew := recount params.nDualAlgoActivationHeight (parentOf index pindexNew) pindexNew
    { s with
      m_block_index := index.insert hash pindexNew
      m_dirty_blockindex := hash :: s.m_dirty_blockindex }

def writeEntry (index : BlockMap) (db : Map Uint256 CDiskBlockIndex) (hash : Uint256) :
    Map Uint256 CDiskBlockIndex :=
  match index.lookup hash with
  | some pindex => db.insert hash (CDiskBlockIndex.ofEntry params pindex)
  | none => db

def writeBlockIndexDB (s : BlockManager) : BlockManager :=
  { s with
    m_dirty_blockindex := []
    m_block_tree_db :=
      s.m_dirty_blockindex.foldl (writeEntry params s.m_block_index) s.m_block_tree_db }

def insertBlockIndex (index : BlockMap) (hash : Uint256) : BlockMap :=
  if hash = Uint256.null then index
  else
    match index.lookup hash with
    | some _ => index
    | none => index.insert hash defaultEntry

/-- The entry of a stored block; its parent is created empty when it has not been read yet. -/
def readEntry (index : BlockMap) (d : CDiskBlockIndex) : BlockMap :=
  let hash := d.constructBlockHash hashes params
  let index := insertBlockIndex (insertBlockIndex index hash) d.hashPrev
  index.insert hash d.toEntry

/-- The checks on a stored block: the null hash names no entry, and the proof of work is good. -/
def checkStored (d : CDiskBlockIndex) : Except String Unit :=
  if d.constructBlockHash hashes params = Uint256.null then .error "null pointer"
  else
    match loadedPowOk hashes d.header d.nHeight params with
    | .error what => .error what
    | .ok true => .ok ()
    | .ok false => .error "LoadBlockIndexGuts: CheckProofOfWork failed"

/-- `LoadBlockIndexGuts`, given the stored blocks in the order of the cursor. -/
def loadBlockIndexGuts : BlockMap → List CDiskBlockIndex → Except String BlockMap
  | index, [] => .ok index
  | index, d :: cursor => do
    checkStored hashes params d
    loadBlockIndexGuts (readEntry hashes params index d) cursor

/-- The loop of `LoadBlockIndex` over the entries in order of height. -/
def rebuild : BlockMap → Option Int → List Uint256 → Except String BlockMap
  | index, _, [] => .ok index
  | index, previous_height, hash :: vSortedByHeight =>
    match index.lookup hash with
    | none => rebuild index previous_height vSortedByHeight
    | some pindex =>
      match previous_height.filter fun height => pindex.nHeight > height + 1 with
      | some height => .error
          s!"LoadBlockIndex: block index is non-contiguous, index of height {height + 1} missing"
      | none =>
        rebuild (index.insert hash (recount params.nDualAlgoActivationHeight
          (parentOf index pindex) pindex)) (some pindex.nHeight) vSortedByHeight

/-- All entries of the index, sorted by height; entries of one height come in any order. -/
structure SortedByHeight (index : BlockMap) (order : List Uint256) : Prop where
  nodup : order.Nodup
  mem_iff : ∀ hash, hash ∈ order ↔ ∃ pindex, index.lookup hash = some pindex
  sorted : order.Pairwise fun hash hash' => ∀ pindex pindex', index.lookup hash = some pindex →
    index.lookup hash' = some pindex' → pindex.nHeight ≤ pindex'.nHeight

/-- A header may be added once its parent is there; the genesis block has none. -/
def ParentKnown (index : BlockMap) (block : CBlockHeader) : Prop :=
  (∃ pprev, index.lookup block.hashPrevBlock = some pprev) ∨
    block.hashPrevBlock = Uint256.null ∧ getHash hashes params block ≠ Uint256.null

/-- What may happen to a block manager.  A restart forgets what was not written, and reads the
database and sorts the index in whatever order these come. -/
inductive Step : BlockManager → BlockManager → Prop
  | add (s : BlockManager) (block : CBlockHeader) :
    ParentKnown hashes params s.m_block_index block → Step s (addToBlockIndex hashes params s block)
  | flush (s : BlockManager) : Step s (writeBlockIndexDB params s)
  | restart (s : BlockManager) (cursor : List (Uint256 × CDiskBlockIndex))
      (vSortedByHeight : List Uint256) (loaded index : BlockMap) :
    (cursor : Multiset (Uint256 × CDiskBlockIndex)) = pairs s.m_block_tree_db →
    loadBlockIndexGuts hashes params ∅ (cursor.map Prod.snd) = .ok loaded →
    SortedByHeight loaded vSortedByHeight →
    rebuild params loaded none vSortedByHeight = .ok index →
    Step s { s with m_block_index := index, m_dirty_blockindex := [] }

inductive Reachable : BlockManager → Prop
  | start : Reachable ⟨∅, [], ∅⟩
  | step {s s' : BlockManager} : Reachable s → Step hashes params s s' → Reachable s'

end Manager

/-! ### A consistent tree -/

/-- Heights count the steps to the genesis block, and each count follows from the parent's. -/
structure Consistent (nActHeight : Int) (index : BlockMap) : Prop where
  nonneg : ∀ hash pindex, index.lookup hash = some pindex → 0 ≤ pindex.nHeight
  genesis : ∀ hash pindex, index.lookup hash = some pindex → pindex.pprev = none →
    pindex.nHeight = 0
  parent : ∀ hash pindex prev, index.lookup hash = some pindex → pindex.pprev = some prev →
    ∃ pprev, index.lookup prev = some pprev ∧ pindex.nHeight = pprev.nHeight + 1
  count : ∀ hash pindex, index.lookup hash = some pindex →
    pindex.nSecondAlgoCount = computeSecondAlgoCount (parentOf index pindex) pindex nActHeight

inductive ChainOf (index : BlockMap) : Uint256 → BlockEntry → List BlockEntry → Prop
  | genesis {hash : Uint256} {pindex : BlockEntry} :
    index.lookup hash = some pindex → pindex.pprev = none → ChainOf index hash pindex []
  | block {hash prev : Uint256} {pindex pprev : BlockEntry} {ancestors : List BlockEntry} :
    index.lookup hash = some pindex → pindex.pprev = some prev →
    ChainOf index prev pprev ancestors → ChainOf index hash pindex (pprev :: ancestors)

/-- The fields that difficulty reads. -/
def chainView (ancestors : List BlockEntry) : List CBlockIndex :=
  ancestors.map BlockEntry.toCBlockIndex

section Tree

variable {nActHeight : Int} {index : BlockMap} {hash : Uint256} {pindex : BlockEntry}
  {ancestors : List BlockEntry}

theorem ChainOf.lookup (h : ChainOf index hash pindex ancestors) :
    index.lookup hash = some pindex := by
  cases h with
  | genesis hlookup _ => exact hlookup
  | block hlookup _ _ => exact hlookup

theorem Consistent.induction (h : Consistent nActHeight index) {P : Uint256 → BlockEntry → Prop}
    (hgenesis : ∀ hash pindex, index.lookup hash = some pindex → pindex.pprev = none →
      P hash pindex)
    (hblock : ∀ hash pindex prev pprev, index.lookup hash = some pindex →
      pindex.pprev = some prev → index.lookup prev = some pprev → P prev pprev → P hash pindex)
    (hash : Uint256) (pindex : BlockEntry) (hlookup : index.lookup hash = some pindex) :
    P hash pindex := by
  induction hn : pindex.nHeight.toNat generalizing hash pindex with
  | zero =>
    cases hprev : pindex.pprev with
    | none => exact hgenesis hash pindex hlookup hprev
    | some prev =>
      obtain ⟨pprev, hparent, hheight⟩ := h.parent hash pindex prev hlookup hprev
      have hnonneg := h.nonneg prev pprev hparent
      omega
  | succ n ih =>
    cases hprev : pindex.pprev with
    | none => exact hgenesis hash pindex hlookup hprev
    | some prev =>
      obtain ⟨pprev, hparent, hheight⟩ := h.parent hash pindex prev hlookup hprev
      exact hblock hash pindex prev pprev hlookup hprev hparent (ih prev pprev hparent (by omega))

theorem Consistent.exists_chain (h : Consistent nActHeight index)
    (hlookup : index.lookup hash = some pindex) : ∃ ancestors, ChainOf index hash pindex ancestors := by
  refine h.induction (P := fun hash pindex => ∃ ancestors, ChainOf index hash pindex ancestors)
    ?_ ?_ hash pindex hlookup
  · intro hash pindex hlookup hprev
    exact ⟨[], .genesis hlookup hprev⟩
  · intro hash pindex prev pprev hlookup hprev _ hchain
    obtain ⟨ancestors, hchain⟩ := hchain
    exact ⟨pprev :: ancestors, .block hlookup hprev hchain⟩

theorem Consistent.linked (h : Consistent nActHeight index)
    (hchain : ChainOf index hash pindex ancestors) :
    Linked pindex.toCBlockIndex (chainView ancestors) := by
  induction hchain with
  | genesis hlookup hprev => exact h.genesis _ _ hlookup hprev
  | block hlookup hprev hrest ih =>
    obtain ⟨pprev, hparent, hheight⟩ := h.parent _ _ _ hlookup hprev
    obtain rfl := Option.some.inj (hparent.symm.trans hrest.lookup)
    exact ⟨hheight, ih⟩

theorem computeSecondAlgoCount_eq {pprev : Option BlockEntry} {chain : List CBlockIndex}
    (hlinked : Linked pindex.toCBlockIndex chain)
    (hprev : (pprev.elim 0 fun entry => entry.nSecondAlgoCount) = algoBlocks nActHeight true chain) :
    computeSecondAlgoCount pprev pindex nActHeight =
      algoBlocks nActHeight true (pindex.toCBlockIndex :: chain) := by
  unfold computeSecondAlgoCount
  split
  · next hbelow => rw [algoBlocks_eq_zero true hlinked hbelow, Nat.cast_zero]
  · next hpast =>
    dsimp only
    rw [hprev, if_neg (by omega), algoBlocks_cons]
    simp [not_lt.mp hpast]

theorem Consistent.count_eq (h : Consistent nActHeight index)
    (hchain : ChainOf index hash pindex ancestors) :
    pindex.nSecondAlgoCount =
      algoBlocks nActHeight true (pindex.toCBlockIndex :: chainView ancestors) := by
  have hlinked := h.linked hchain
  induction hchain with
  | genesis hlookup hprev =>
    rw [h.count _ _ hlookup]
    apply computeSecondAlgoCount_eq hlinked
    rw [parentOf, hprev]
    rfl
  | block hlookup hprev hrest ih =>
    rw [h.count _ _ hlookup]
    apply computeSecondAlgoCount_eq hlinked
    rw [parentOf, hprev, Option.bind_some, hrest.lookup]
    exact ih (h.linked hrest)

/-- Where an entry fits into a tree: at the root, or above an entry that is there. -/
def Fits (index : BlockMap) (pindex : BlockEntry) : Prop :=
  pindex.pprev = none ∧ pindex.nHeight = 0 ∨
    ∃ prev pprev, pindex.pprev = some prev ∧ index.lookup prev = some pprev ∧
      pindex.nHeight = pprev.nHeight + 1

theorem Consistent.fits (h : Consistent nActHeight index)
    (hlookup : index.lookup hash = some pindex) : Fits index pindex := by
  cases hprev : pindex.pprev with
  | none => exact .inl ⟨hprev, h.genesis hash pindex hlookup hprev⟩
  | some prev =>
    obtain ⟨pprev, hparent, hheight⟩ := h.parent hash pindex prev hlookup hprev
    exact .inr ⟨prev, pprev, hprev, hparent, hheight⟩

theorem Fits.parentOf_insert (h : Fits index pindex) (hfresh : index.lookup hash = none)
    (pindexNew : BlockEntry) :
    parentOf (index.insert hash pindexNew) pindex = parentOf index pindex := by
  rcases h with ⟨hprev, -⟩ | ⟨prev, pprev, hprev, hparent, -⟩
  · rw [parentOf, parentOf, hprev]
    rfl
  · have hne : prev ≠ hash := by
      rintro rfl
      rw [hfresh] at hparent
      cases hparent
    rw [parentOf, parentOf, hprev]
    exact Finmap.lookup_insert_of_ne _ hne

theorem lookup_insert_cases {pindexNew : BlockEntry} {key : Uint256}
    (h : (index.insert hash pindexNew).lookup key = some pindex) :
    key = hash ∧ pindex = pindexNew ∨ key ≠ hash ∧ index.lookup key = some pindex := by
  by_cases hkey : key = hash
  · subst hkey
    rw [Finmap.lookup_insert] at h
    exact .inl ⟨rfl, (Option.some.inj h).symm⟩
  · rw [Finmap.lookup_insert_of_ne _ hkey] at h
    exact .inr ⟨hkey, h⟩

theorem Consistent.insert (h : Consistent nActHeight index) (hfresh : index.lookup hash = none)
    {pindexNew : BlockEntry} (hfits : Fits index pindexNew)
    (hcount : pindexNew.nSecondAlgoCount =
      computeSecondAlgoCount (parentOf index pindexNew) pindexNew nActHeight) :
    Consistent nActHeight (index.insert hash pindexNew) := by
  have hall : ∀ key pindex, (index.insert hash pindexNew).lookup key = some pindex →
      Fits index pindex ∧ pindex.nSecondAlgoCount =
        computeSecondAlgoCount (parentOf index pindex) pindex nActHeight := by
    intro key pindex hlookup
    rcases lookup_insert_cases hlookup with ⟨-, rfl⟩ | ⟨-, hold⟩
    · exact ⟨hfits, hcount⟩
    · exact ⟨h.fits hold, h.count key pindex hold⟩
  constructor
  · intro key pindex hlookup
    rcases (hall key pindex hlookup).1 with ⟨-, hzero⟩ | ⟨prev, pprev, -, hparent, hheight⟩
    · exact ge_of_eq hzero
    · have hnonneg := h.nonneg prev pprev hparent
      omega
  · intro key pindex hlookup hprev
    rcases (hall key pindex hlookup).1 with ⟨-, hzero⟩ | ⟨prev, pprev, hsome, -, -⟩
    · exact hzero
    · rw [hprev] at hsome
      cases hsome
  · intro key pindex prev hlookup hprev
    rcases (hall key pindex hlookup).1 with ⟨hnone, -⟩ | ⟨prev', pprev, hsome, hparent, hheight⟩
    · rw [hprev] at hnone
      cases hnone
    · obtain rfl := Option.some.inj (hprev.symm.trans hsome)
      have hne : prev ≠ hash := by
        rintro rfl
        rw [hfresh] at hparent
        cases hparent
      exact ⟨pprev, by rw [Finmap.lookup_insert_of_ne _ hne, hparent], hheight⟩
  · intro key pindex hlookup
    obtain ⟨hfit, hcounted⟩ := hall key pindex hlookup
    rw [hfit.parentOf_insert hfresh, hcounted]

end Tree

/-! ### Adding a header -/

section Add

variable {hashes : PowHashes} {params : Params} {s : BlockManager} {block : CBlockHeader}

structure Added (hashes : PowHashes) (params : Params) (s : BlockManager) (block : CBlockHeader)
    (pindexNew : BlockEntry) : Prop where
  fresh : s.m_block_index.lookup (getHash hashes params block) = none
  fits : Fits s.m_block_index pindexNew
  count : pindexNew.nSecondAlgoCount = computeSecondAlgoCount
    (parentOf s.m_block_index pindexNew) pindexNew params.nDualAlgoActivationHeight
  header : (CDiskBlockIndex.ofEntry params pindexNew).header =
    { block with hashRandomX := if params.fPowRandomX then block.hashRandomX else Uint256.null }
  result : addToBlockIndex hashes params s block =
    { s with
      m_block_index := s.m_block_index.insert (getHash hashes params block) pindexNew
      m_dirty_blockindex := getHash hashes params block :: s.m_dirty_blockindex }

theorem addToBlockIndex_cases (hknown : ParentKnown hashes params s.m_block_index block) :
    addToBlockIndex hashes params s block = s ∨ ∃ pindexNew, Added hashes params s block pindexNew := by
  cases hlookup : s.m_block_index.lookup (getHash hashes params block) with
  | some pindex =>
    left
    simp [addToBlockIndex, hlookup]
  | none =>
    right
    have hne : block.hashPrevBlock ≠ getHash hashes params block := by
      rcases hknown with ⟨pprev, hparent⟩ | ⟨hnull, hhash⟩
      · intro heq
        rw [heq, hlookup] at hparent
        cases hparent
      · rw [hnull]
        exact hhash.symm
    have hfind : (s.m_block_index.insert (getHash hashes params block) (newEntry block)).lookup
        block.hashPrevBlock = s.m_block_index.lookup block.hashPrevBlock :=
      Finmap.lookup_insert_of_ne _ hne
    cases hparent : s.m_block_index.lookup block.hashPrevBlock with
    | some pprev =>
      refine ⟨recount params.nDualAlgoActivationHeight (some pprev) { newEntry block with
        pprev := some block.hashPrevBlock, nHeight := pprev.nHeight + 1 }, hlookup, ?_, ?_, rfl, ?_⟩
      · exact .inr ⟨block.hashPrevBlock, pprev, rfl, hparent, rfl⟩
      · exact recount_count hparent
      · simp [addToBlockIndex, hlookup, hfind, hparent, parentOf, Finmap.insert_insert]
    | none =>
      have hnull : block.hashPrevBlock = Uint256.null := by
        rcases hknown with ⟨pprev, hsome⟩ | ⟨hnull, -⟩
        · rw [hparent] at hsome
          cases hsome
        · exact hnull
      refine ⟨recount params.nDualAlgoActivationHeight none (newEntry block), hlookup, ?_, ?_, ?_, ?_⟩
      · exact .inl ⟨rfl, rfl⟩
      · exact recount_count rfl
      · simp [CDiskBlockIndex.header, CDiskBlockIndex.ofEntry, recount, newEntry, hnull]
      · have hroot : (newEntry block).pprev = none := rfl
        simp [addToBlockIndex, hlookup, hfind, hparent, parentOf, hroot, Finmap.insert_insert]

theorem Added.hash_eq {pindexNew : BlockEntry} (h : Added hashes params s block pindexNew) :
    (CDiskBlockIndex.ofEntry params pindexNew).constructBlockHash hashes params =
      getHash hashes params block := by
  rw [CDiskBlockIndex.constructBlockHash, h.header]
  unfold getHash
  cases params.fPowRandomX <;> rfl

end Add

/-! ### Writing and reading back -/

section Load

variable {hashes : PowHashes} {params : Params} {index loaded : BlockMap} {hash : Uint256}
  {pindex : BlockEntry} {cursor : List CDiskBlockIndex} {order : List Uint256}

theorem lookup_write (dirty : List Uint256) (db : Map Uint256 CDiskBlockIndex)
    (hlookup : index.lookup hash = some pindex) :
    (dirty.foldl (writeEntry params index) db).lookup hash =
      if hash ∈ dirty then some (CDiskBlockIndex.ofEntry params pindex) else db.lookup hash := by
  induction dirty generalizing db with
  | nil => simp
  | cons key dirty ih =>
    rw [List.foldl_cons, ih]
    by_cases hkey : hash = key
    · subst hkey
      simp [writeEntry, hlookup, Finmap.lookup_insert]
    · have hother : (writeEntry params index db key).lookup hash = db.lookup hash := by
        unfold writeEntry
        split
        · exact Finmap.lookup_insert_of_ne _ hkey
        · rfl
      simp [hkey, hother]

theorem lookup_write_of_none (dirty : List Uint256) (db : Map Uint256 CDiskBlockIndex)
    (hlookup : index.lookup hash = none) :
    (dirty.foldl (writeEntry params index) db).lookup hash = db.lookup hash := by
  induction dirty generalizing db with
  | nil => rfl
  | cons key dirty ih =>
    rw [List.foldl_cons, ih]
    unfold writeEntry
    split
    · next pindex hkey =>
      apply Finmap.lookup_insert_of_ne
      rintro rfl
      rw [hlookup] at hkey
      cases hkey
    · rfl

theorem lookup_insertBlockIndex_of_some (key : Uint256) (hlookup : index.lookup hash = some pindex) :
    (insertBlockIndex index key).lookup hash = some pindex := by
  unfold insertBlockIndex
  split
  · exact hlookup
  · split
    · exact hlookup
    · next hkey =>
      rw [Finmap.lookup_insert_of_ne, hlookup]
      rintro rfl
      rw [hlookup] at hkey
      cases hkey

theorem lookup_insertBlockIndex_cases {key : Uint256}
    (hlookup : (insertBlockIndex index key).lookup hash = some pindex) :
    hash = key ∧ key ≠ Uint256.null ∨ index.lookup hash = some pindex := by
  unfold insertBlockIndex at hlookup
  split at hlookup
  · exact .inr hlookup
  · next hnull =>
    split at hlookup
    · exact .inr hlookup
    · rcases lookup_insert_cases hlookup with ⟨heq, -⟩ | ⟨-, hold⟩
      · exact .inl ⟨heq, hnull⟩
      · exact .inr hold

theorem lookup_readEntry_of_ne {d : CDiskBlockIndex} (hne : hash ≠ d.constructBlockHash hashes params)
    (hlookup : index.lookup hash = some pindex) :
    (readEntry hashes params index d).lookup hash = some pindex := by
  unfold readEntry
  rw [Finmap.lookup_insert_of_ne _ hne]
  exact lookup_insertBlockIndex_of_some _ (lookup_insertBlockIndex_of_some _ hlookup)

theorem lookup_readEntry_cases {d : CDiskBlockIndex}
    (hlookup : (readEntry hashes params index d).lookup hash = some pindex) :
    hash = d.constructBlockHash hashes params ∨ hash = d.hashPrev ∧ d.hashPrev ≠ Uint256.null ∨
      index.lookup hash = some pindex := by
  rcases lookup_insert_cases hlookup with ⟨heq, -⟩ | ⟨-, hother⟩
  · exact .inl heq
  · rcases lookup_insertBlockIndex_cases hother with hprev | hself
    · exact .inr (.inl hprev)
    · rcases lookup_insertBlockIndex_cases hself with ⟨heq, -⟩ | hold
      · exact .inl heq
      · exact .inr (.inr hold)

theorem lookup_readAll_of_notMem (hlookup : index.lookup hash = some pindex)
    (hnot : ∀ d ∈ cursor, hash ≠ d.constructBlockHash hashes params) :
    (cursor.foldl (readEntry hashes params) index).lookup hash = some pindex := by
  induction cursor generalizing index with
  | nil => exact hlookup
  | cons d cursor ih =>
    rw [List.forall_mem_cons] at hnot
    exact ih (lookup_readEntry_of_ne hnot.1 hlookup) hnot.2

theorem lookup_readAll {d : CDiskBlockIndex}
    (hnodup : (cursor.map fun d => d.constructBlockHash hashes params).Nodup) (hmem : d ∈ cursor) :
    (cursor.foldl (readEntry hashes params) index).lookup (d.constructBlockHash hashes params) =
      some d.toEntry := by
  induction cursor generalizing index with
  | nil => cases hmem
  | cons d' cursor ih =>
    rw [List.map_cons, List.nodup_cons] at hnodup
    rcases List.mem_cons.mp hmem with rfl | hmem
    · have hread : (readEntry hashes params index d).lookup
          (d.constructBlockHash hashes params) = some d.toEntry := Finmap.lookup_insert _
      rw [List.foldl_cons]
      refine lookup_readAll_of_notMem hread ?_
      intro other hother heq
      exact hnodup.1 (List.mem_map.mpr ⟨other, hother, heq.symm⟩)
    · exact ih hnodup.2 hmem

theorem lookup_readAll_cases
    (hlookup : (cursor.foldl (readEntry hashes params) index).lookup hash = some pindex) :
    index.lookup hash = some pindex ∨ ∃ d ∈ cursor, hash = d.constructBlockHash hashes params ∨
      hash = d.hashPrev ∧ d.hashPrev ≠ Uint256.null := by
  induction cursor generalizing index with
  | nil => exact .inl hlookup
  | cons d cursor ih =>
    rcases ih hlookup with hread | ⟨d', hmem, hnamed⟩
    · rcases lookup_readEntry_cases hread with hself | hprev | hold
      · exact .inr ⟨d, List.mem_cons_self, .inl hself⟩
      · exact .inr ⟨d, List.mem_cons_self, .inr hprev⟩
      · exact .inl hold
    · exact .inr ⟨d', List.mem_cons_of_mem d hmem, hnamed⟩

theorem loadBlockIndexGuts_eq_ok :
    loadBlockIndexGuts hashes params index cursor = .ok loaded ↔
      (∀ d ∈ cursor, checkStored hashes params d = .ok ()) ∧
        loaded = cursor.foldl (readEntry hashes params) index := by
  induction cursor generalizing index with
  | nil => simp [loadBlockIndexGuts, eq_comm]
  | cons d cursor ih =>
    rw [loadBlockIndexGuts, Checks.bind_unit_eq_ok, ih, List.forall_mem_cons, List.foldl_cons,
      and_assoc]

theorem ne_null_of_checkStored {d : CDiskBlockIndex} (h : checkStored hashes params d = .ok ()) :
    d.constructBlockHash hashes params ≠ Uint256.null := by
  intro hnull
  simp [checkStored, hnull] at h

/-- A rebuild that goes through is one pass of counting over the entries. -/
theorem rebuild_eq_ok {previous : Option Int} {result : BlockMap}
    (h : rebuild params index previous order = .ok result) :
    result = order.foldl
      (visit BlockEntry.pprev (recount params.nDualAlgoActivationHeight)) index := by
  induction order generalizing index previous with
  | nil => exact (Except.ok.inj h).symm
  | cons key order ih =>
    rw [rebuild] at h
    rw [List.foldl_cons, visit]
    cases hlookup : index.lookup key with
    | none =>
      rw [hlookup] at h
      exact ih h
    | some pindex =>
      rw [hlookup] at h
      dsimp only at h
      split at h
      · cases h
      · exact ih h

theorem topological_of_sortedByHeight (horder : SortedByHeight index order)
    (hfits : ∀ hash pindex, index.lookup hash = some pindex → Fits index pindex) :
    Topological (IsParent BlockEntry.pprev index) order := by
  have hlower : ∀ prev key, IsParent BlockEntry.pprev index prev key → ∃ pindex pprev,
      index.lookup key = some pindex ∧ index.lookup prev = some pprev ∧
        pprev.nHeight < pindex.nHeight := by
    rintro prev key ⟨pindex, hlookup, hprev⟩
    rcases hfits key pindex hlookup with ⟨hnone, -⟩ | ⟨prev', pprev, hsome, hparent, hheight⟩
    · rw [hprev] at hnone
      cases hnone
    · obtain rfl := Option.some.inj (hprev.symm.trans hsome)
      exact ⟨pindex, pprev, hlookup, hparent, by omega⟩
  constructor
  · refine horder.sorted.imp ?_
    intro key key' hsorted hparent
    obtain ⟨pindex, pprev, hlookup, hlookup', hlt⟩ := hlower key' key hparent
    have hle := hsorted pindex pprev hlookup hlookup'
    omega
  · intro key _ hparent
    obtain ⟨pindex, pprev, hlookup, hlookup', hlt⟩ := hlower key key hparent
    obtain rfl := Option.some.inj (hlookup.symm.trans hlookup')
    omega

theorem consistent_of_recount {nActHeight : Int}
    (hfits : ∀ hash pindex, loaded.lookup hash = some pindex →
      0 ≤ pindex.nHeight ∧ Fits loaded pindex)
    (hindex : ∀ hash, index.lookup hash =
      (loaded.lookup hash).map fun pindex => recount nActHeight (parentOf index pindex) pindex) :
    Consistent nActHeight index := by
  -- an entry is a loaded one up to its count
  have hsource : ∀ hash pindex, index.lookup hash = some pindex → ∃ old,
      loaded.lookup hash = some old ∧ pindex = recount nActHeight (parentOf index old) old := by
    intro hash pindex hlookup
    rw [hindex hash, Option.map_eq_some_iff] at hlookup
    obtain ⟨old, hold, rfl⟩ := hlookup
    exact ⟨old, hold, rfl⟩
  constructor
  · intro hash pindex hlookup
    obtain ⟨old, hold, rfl⟩ := hsource hash pindex hlookup
    exact (hfits hash old hold).1
  · intro hash pindex hlookup hprev
    obtain ⟨old, hold, rfl⟩ := hsource hash pindex hlookup
    rcases (hfits hash old hold).2 with ⟨-, hzero⟩ | ⟨prev, pprev, hsome, -, -⟩
    · exact hzero
    · exact absurd (hsome.symm.trans hprev) (by simp)
  · intro hash pindex prev hlookup hprev
    obtain ⟨old, hold, rfl⟩ := hsource hash pindex hlookup
    rcases (hfits hash old hold).2 with ⟨hnone, -⟩ | ⟨prev', pprev, hsome, hparent, hheight⟩
    · exact absurd (hnone.symm.trans hprev) (by simp)
    · obtain rfl := Option.some.inj (hsome.symm.trans hprev)
      refine ⟨recount nActHeight (parentOf index pprev) pprev, ?_, hheight⟩
      rw [hindex, hparent, Option.map_some]
  · intro hash pindex hlookup
    obtain ⟨old, hold, rfl⟩ := hsource hash pindex hlookup
    exact recount_count rfl

/-- The loop finds no gap: the parent of an entry is lower, so it has been visited. -/
theorem exists_rebuild {params : Params} {visited order : List Uint256} {previous : Option Int}
    (horder : SortedByHeight loaded (visited ++ order))
    (hfits : ∀ hash pindex, loaded.lookup hash = some pindex →
      0 ≤ pindex.nHeight ∧ Fits loaded pindex)
    (hheight : ∀ hash, (index.lookup hash).map (fun pindex => pindex.nHeight) =
      (loaded.lookup hash).map fun pindex => pindex.nHeight)
    (hprevious : ∀ m, previous = some m → 0 ≤ m ∧ ∀ hash ∈ visited, ∀ pindex,
      loaded.lookup hash = some pindex → pindex.nHeight ≤ m) :
    ∃ result, rebuild params index previous order = .ok result := by
  induction order generalizing visited index previous with
  | nil => exact ⟨index, rfl⟩
  | cons key order ih =>
    obtain ⟨old, hold⟩ := (horder.mem_iff key).mp (by simp)
    obtain ⟨pindex, hlookup, hsame⟩ := Option.map_eq_some_iff.mp ((hheight key).trans (by
      rw [hold, Option.map_some]))
    obtain ⟨-, hcons, hbefore⟩ := List.pairwise_append.mp horder.sorted
    have hnext : (previous.filter fun m => pindex.nHeight > m + 1) = none := by
      rw [Option.filter_eq_none_iff]
      intro m hm
      obtain ⟨hnonneg, hvisited⟩ := hprevious m hm
      simp only [decide_eq_true_eq, not_lt, hsame]
      rcases (hfits key old hold).2 with ⟨-, hzero⟩ | ⟨prev, pprev, -, hparent, hup⟩
      · omega
      · rcases List.mem_append.mp ((horder.mem_iff prev).mpr ⟨pprev, hparent⟩) with hmem | hmem
        · have hle := hvisited prev hmem pprev hparent
          omega
        · rcases List.mem_cons.mp hmem with rfl | hmem
          · obtain rfl := Option.some.inj (hold.symm.trans hparent)
            omega
          · have hle := (List.pairwise_cons.mp hcons).1 prev hmem old pprev hold hparent
            omega
    simp only [rebuild, hlookup, hnext]
    refine ih (List.append_assoc visited [key] order ▸ horder) ?_ ?_
    · intro hash
      by_cases hkey : hash = key
      · subst hkey
        rw [Finmap.lookup_insert, ← hheight, hlookup]
        rfl
      · rw [Finmap.lookup_insert_of_ne _ hkey, hheight]
    · rintro m ⟨⟩
      refine ⟨hsame ▸ (hfits key old hold).1, ?_⟩
      intro hash hmem pindex' hlookup'
      rw [hsame]
      rcases List.mem_append.mp hmem with hmem | hmem
      · exact hbefore hash hmem key List.mem_cons_self pindex' old hlookup' hold
      · obtain rfl := List.mem_singleton.mp hmem
        obtain rfl := Option.some.inj (hold.symm.trans hlookup')
        exact le_rfl

end Load

/-! ### Whole runs -/

/-- The tree is consistent, and the database holds a part of it that is closed under parents, and
all of it that is not dirty. -/
structure Sound (hashes : PowHashes) (params : Params) (s : BlockManager) : Prop where
  consistent : Consistent params.nDualAlgoActivationHeight s.m_block_index
  keyed : ∀ hash pindex, s.m_block_index.lookup hash = some pindex →
    (CDiskBlockIndex.ofEntry params pindex).constructBlockHash hashes params = hash
  stored : ∀ hash d, s.m_block_tree_db.lookup hash = some d →
    ∃ pindex, s.m_block_index.lookup hash = some pindex ∧ d = CDiskBlockIndex.ofEntry params pindex
  saved : ∀ hash pindex, s.m_block_index.lookup hash = some pindex →
    hash ∈ s.m_dirty_blockindex ∨ ∃ d, s.m_block_tree_db.lookup hash = some d
  closed : ∀ hash d pindex prev, s.m_block_tree_db.lookup hash = some d →
    s.m_block_index.lookup hash = some pindex → pindex.pprev = some prev →
    ∃ d', s.m_block_tree_db.lookup prev = some d'

section Runs

variable {hashes : PowHashes} {params : Params} {s : BlockManager}

theorem sound_start : Sound hashes params ⟨∅, [], ∅⟩ := by
  refine ⟨⟨?_, ?_, ?_, ?_⟩, ?_, ?_, ?_, ?_⟩ <;> simp

theorem Sound.add (h : Sound hashes params s) {block : CBlockHeader}
    (hknown : ParentKnown hashes params s.m_block_index block) :
    Sound hashes params (addToBlockIndex hashes params s block) := by
  rcases addToBlockIndex_cases hknown with hsame | ⟨pindexNew, hadded⟩
  · rw [hsame]
    exact h
  · rw [hadded.result]
    -- nothing is stored under the new hash
    have hstored : ∀ hash d, s.m_block_tree_db.lookup hash = some d →
        hash ≠ getHash hashes params block := by
      rintro hash d hdisk rfl
      obtain ⟨pindex, hlookup, -⟩ := h.stored _ d hdisk
      rw [hadded.fresh] at hlookup
      cases hlookup
    constructor
    · exact h.consistent.insert hadded.fresh hadded.fits hadded.count
    · intro hash pindex hlookup
      rcases lookup_insert_cases hlookup with ⟨rfl, rfl⟩ | ⟨-, hold⟩
      · exact hadded.hash_eq
      · exact h.keyed hash pindex hold
    · intro hash d hdisk
      obtain ⟨pindex, hlookup, hd⟩ := h.stored hash d hdisk
      exact ⟨pindex, (Finmap.lookup_insert_of_ne _ (hstored hash d hdisk)).trans hlookup, hd⟩
    · intro hash pindex hlookup
      rcases lookup_insert_cases hlookup with ⟨rfl, -⟩ | ⟨-, hold⟩
      · exact .inl List.mem_cons_self
      · rcases h.saved hash pindex hold with hdirty | hdisk
        · exact .inl (List.mem_cons_of_mem _ hdirty)
        · exact .inr hdisk
    · intro hash d pindex prev hdisk hlookup hprev
      rcases lookup_insert_cases hlookup with ⟨rfl, -⟩ | ⟨-, hold⟩
      · exact absurd rfl (hstored _ d hdisk)
      · exact h.closed hash d pindex prev hdisk hold hprev

theorem Sound.flush (h : Sound hashes params s) :
    Sound hashes params (writeBlockIndexDB params s) := by
  -- afterwards all of the index is stored
  have hall : ∀ hash pindex, s.m_block_index.lookup hash = some pindex →
      (writeBlockIndexDB params s).m_block_tree_db.lookup hash =
        some (CDiskBlockIndex.ofEntry params pindex) := by
    intro hash pindex hlookup
    unfold writeBlockIndexDB
    rw [lookup_write _ _ hlookup]
    split
    · rfl
    · next hclean =>
      obtain ⟨d, hdisk⟩ := (h.saved hash pindex hlookup).resolve_left hclean
      obtain ⟨pindex', hlookup', rfl⟩ := h.stored hash d hdisk
      obtain rfl := Option.some.inj (hlookup.symm.trans hlookup')
      exact hdisk
  constructor
  · exact h.consistent
  · exact h.keyed
  · intro hash d hdisk
    cases hlookup : s.m_block_index.lookup hash with
    | some pindex =>
      have hwritten := hall hash pindex hlookup
      exact ⟨pindex, hlookup, Option.some.inj (hdisk.symm.trans hwritten)⟩
    | none =>
      have hold : s.m_block_tree_db.lookup hash = some d :=
        (lookup_write_of_none _ _ hlookup).symm.trans hdisk
      obtain ⟨pindex, hsome, -⟩ := h.stored hash d hold
      rw [hlookup] at hsome
      cases hsome
  · intro hash pindex hlookup
    exact .inr ⟨_, hall hash pindex hlookup⟩
  · intro hash d pindex prev _ hlookup hprev
    obtain ⟨pprev, hparent, -⟩ := h.consistent.parent hash pindex prev hlookup hprev
    exact ⟨_, hall prev pprev hparent⟩

section Restart

variable (h : Sound hashes params s) {cursor : List (Uint256 × CDiskBlockIndex)}
  {loaded : BlockMap}
  (hcursor : (cursor : Multiset (Uint256 × CDiskBlockIndex)) = pairs s.m_block_tree_db)
  (hguts : loadBlockIndexGuts hashes params ∅ (cursor.map Prod.snd) = .ok loaded)

include h

theorem Sound.hash_stored {hash : Uint256} {d : CDiskBlockIndex}
    (hdisk : s.m_block_tree_db.lookup hash = some d) :
    d.constructBlockHash hashes params = hash := by
  obtain ⟨pindex, hlookup, rfl⟩ := h.stored hash d hdisk
  exact h.keyed hash pindex hlookup

include hcursor

omit h in
theorem mem_cursor {hash : Uint256} {d : CDiskBlockIndex} :
    (hash, d) ∈ cursor ↔ s.m_block_tree_db.lookup hash = some d := by
  rw [← mem_pairs, ← hcursor, Multiset.mem_coe]

theorem Sound.nodup_hashes :
    ((cursor.map Prod.snd).map fun d => d.constructBlockHash hashes params).Nodup := by
  have hnodup : cursor.Nodup := by
    rw [← Multiset.coe_nodup, hcursor]
    exact nodup_pairs _
  rw [List.map_map]
  refine hnodup.map_on ?_
  rintro ⟨hash, d⟩ hmem ⟨hash', d'⟩ hmem' heq
  have hdisk := (mem_cursor hcursor).mp hmem
  have hdisk' := (mem_cursor hcursor).mp hmem'
  have hsame : hash = hash' := by
    rw [← h.hash_stored hdisk, ← h.hash_stored hdisk']
    exact heq
  subst hsame
  rw [Option.some.inj (hdisk.symm.trans hdisk')]

include hguts

theorem Sound.lookup_loaded (hash : Uint256) :
    loaded.lookup hash = (s.m_block_tree_db.lookup hash).map CDiskBlockIndex.toEntry := by
  obtain ⟨-, rfl⟩ := loadBlockIndexGuts_eq_ok.mp hguts
  cases hdisk : s.m_block_tree_db.lookup hash with
  | some d =>
    have hmem : d ∈ cursor.map Prod.snd :=
      List.mem_map.mpr ⟨(hash, d), (mem_cursor hcursor).mpr hdisk, rfl⟩
    have hread : ((cursor.map Prod.snd).foldl (readEntry hashes params) ∅).lookup
        (d.constructBlockHash hashes params) = some d.toEntry :=
      lookup_readAll (h.nodup_hashes hcursor) hmem
    rwa [h.hash_stored hdisk] at hread
  | none =>
    rw [Option.map_none, Option.eq_none_iff_forall_ne_some]
    intro pindex hlookup
    rcases lookup_readAll_cases hlookup with hempty | ⟨d, hmem, hnamed⟩
    · simp at hempty
    · obtain ⟨⟨hash', d⟩, hpair, rfl⟩ := List.mem_map.mp hmem
      have hother := (mem_cursor hcursor).mp hpair
      rcases hnamed with hself | ⟨hprev, hnull⟩
      · rw [hself, h.hash_stored hother, hother] at hdisk
        cases hdisk
      · obtain ⟨pindex', hlookup', rfl⟩ := h.stored hash' d hother
        have hparent : pindex'.pprev = some hash := by
          cases hcase : pindex'.pprev with
          | none => exact absurd (by simp [CDiskBlockIndex.ofEntry, hcase]) hnull
          | some prev => simp [hprev, CDiskBlockIndex.ofEntry, hcase]
        obtain ⟨d', hd'⟩ := h.closed hash' _ pindex' hash hother hlookup' hparent
        rw [hdisk] at hd'
        cases hd'

/-- What is read back is a tree. -/
theorem Sound.fits_loaded (hash : Uint256) (pindex : BlockEntry)
    (hlookup : loaded.lookup hash = some pindex) : 0 ≤ pindex.nHeight ∧ Fits loaded pindex := by
  have hchecked := (loadBlockIndexGuts_eq_ok.mp hguts).1
  rw [h.lookup_loaded hcursor hguts, Option.map_eq_some_iff] at hlookup
  obtain ⟨d, hdisk, rfl⟩ := hlookup
  obtain ⟨old, hold, rfl⟩ := h.stored hash d hdisk
  refine ⟨h.consistent.nonneg hash old hold, ?_⟩
  rcases h.consistent.fits hold with ⟨hnone, hzero⟩ | ⟨prev, pprev, hsome, hparent, hheight⟩
  · exact .inl ⟨by simp [CDiskBlockIndex.toEntry, CDiskBlockIndex.ofEntry, hnone], hzero⟩
  · obtain ⟨d', hd'⟩ := h.closed hash _ old prev hdisk hold hsome
    obtain ⟨pprev', hparent', rfl⟩ := h.stored prev d' hd'
    obtain rfl := Option.some.inj (hparent.symm.trans hparent')
    -- a block that was read has a hash, so the pointer to it survives
    have hnull : prev ≠ Uint256.null := by
      rw [← h.hash_stored hd']
      apply ne_null_of_checkStored
      exact hchecked _ (List.mem_map.mpr ⟨(prev, _), (mem_cursor hcursor).mpr hd', rfl⟩)
    refine .inr ⟨prev, (CDiskBlockIndex.ofEntry params pprev).toEntry, ?_, ?_, hheight⟩
    · simp [CDiskBlockIndex.toEntry, CDiskBlockIndex.ofEntry, hsome, hnull]
    · rw [h.lookup_loaded hcursor hguts, hd', Option.map_some]

end Restart

theorem Sound.restart (h : Sound hashes params s) {cursor : List (Uint256 × CDiskBlockIndex)}
    {order : List Uint256} {loaded index : BlockMap}
    (hcursor : (cursor : Multiset (Uint256 × CDiskBlockIndex)) = pairs s.m_block_tree_db)
    (hguts : loadBlockIndexGuts hashes params ∅ (cursor.map Prod.snd) = .ok loaded)
    (horder : SortedByHeight loaded order) (hrebuild : rebuild params loaded none order = .ok index) :
    Sound hashes params { s with m_block_index := index, m_dirty_blockindex := [] } := by
  have hfits := h.fits_loaded hcursor hguts
  have htopological := topological_of_sortedByHeight horder
    fun hash pindex hlookup => (hfits hash pindex hlookup).2
  have hpass := rebuild_eq_ok hrebuild
  have hcounted : ∀ hash, index.lookup hash =
      (loaded.lookup hash).map fun pindex =>
        recount params.nDualAlgoActivationHeight (parentOf index pindex) pindex := by
    intro hash
    have hlookup := lookup_pass (recount params.nDualAlgoActivationHeight) horder.nodup
      htopological hash
    rw [← hpass] at hlookup
    rw [hlookup]
    split
    · rfl
    · next hnot =>
      have hnone : loaded.lookup hash = none := by
        rw [Option.eq_none_iff_forall_ne_some]
        intro pindex hsome
        exact hnot ((horder.mem_iff hash).mpr ⟨pindex, hsome⟩)
      rw [hnone, Option.map_none]
  -- an entry after the restart is one of the database, counted anew
  have hsource : ∀ hash pindex, index.lookup hash = some pindex → ∃ old,
      s.m_block_tree_db.lookup hash = some (CDiskBlockIndex.ofEntry params old) ∧
      s.m_block_index.lookup hash = some old ∧
      pindex = recount params.nDualAlgoActivationHeight
        (parentOf index (CDiskBlockIndex.ofEntry params old).toEntry)
        (CDiskBlockIndex.ofEntry params old).toEntry := by
    intro hash pindex hlookup
    rw [hcounted, h.lookup_loaded hcursor hguts, Option.map_map, Option.map_eq_some_iff] at hlookup
    obtain ⟨d, hdisk, rfl⟩ := hlookup
    obtain ⟨old, hold, rfl⟩ := h.stored hash d hdisk
    exact ⟨old, hdisk, hold, rfl⟩
  constructor
  · exact consistent_of_recount hfits hcounted
  · intro hash pindex hlookup
    obtain ⟨old, hdisk, hold, rfl⟩ := hsource hash pindex hlookup
    rw [CDiskBlockIndex.ofEntry_recount_toEntry]
    exact h.keyed hash old hold
  · intro hash d hdisk
    obtain ⟨old, hold, rfl⟩ := h.stored hash d hdisk
    refine ⟨_, ?_, (CDiskBlockIndex.ofEntry_recount_toEntry params
      params.nDualAlgoActivationHeight
      (parentOf index (CDiskBlockIndex.ofEntry params old).toEntry) old).symm⟩
    rw [hcounted, h.lookup_loaded hcursor hguts, hdisk]
    rfl
  · intro hash pindex hlookup
    obtain ⟨old, hdisk, -, -⟩ := hsource hash pindex hlookup
    exact .inr ⟨_, hdisk⟩
  · intro hash d pindex prev hdisk hlookup hprev
    obtain ⟨old, -, hold, rfl⟩ := hsource hash pindex hlookup
    exact h.closed hash d old prev hdisk hold (CDiskBlockIndex.pprev_of_toEntry hprev)

theorem eq_of_getD_eq {α : Type} {a : α} {o o' : Option α} (h : o.getD a = o'.getD a)
    (ho : o ≠ some a) (ho' : o' ≠ some a) : o = o' := by
  cases o with
  | none =>
    cases o' with
    | none => rfl
    | some b => exact absurd (congrArg some h.symm) ho'
  | some b =>
    cases o' with
    | none => exact absurd (congrArg some h) ho
    | some c => exact congrArg some h

theorem Sound.pprev_ne_null (h : Sound hashes params s)
    (hnull : s.m_block_tree_db.lookup Uint256.null = none) {hash : Uint256} {pindex : BlockEntry}
    {d : CDiskBlockIndex} (hlookup : s.m_block_index.lookup hash = some pindex)
    (hdisk : s.m_block_tree_db.lookup hash = some d) : pindex.pprev ≠ some Uint256.null := by
  intro hprev
  obtain ⟨d', hd'⟩ := h.closed hash d pindex Uint256.null hdisk hlookup hprev
  rw [hnull] at hd'
  cases hd'

section SameDatabase

variable {s' : BlockManager} (h : Sound hashes params s) (h' : Sound hashes params s')
  (hdb : s'.m_block_tree_db = s.m_block_tree_db) (hrandomX : params.fPowRandomX = true)
  (hnull : s.m_block_tree_db.lookup Uint256.null = none) {hash : Uint256} {pindex : BlockEntry}
  (hlookup : s.m_block_index.lookup hash = some pindex)

include h h' hdb hrandomX hnull hlookup

/-- All of an entry but its count is in its record, and the count follows from the parent. -/
theorem Sound.entry_eq {d : CDiskBlockIndex} (hdisk : s.m_block_tree_db.lookup hash = some d)
    (hparent : parentOf s'.m_block_index pindex = parentOf s.m_block_index pindex) :
    s'.m_block_index.lookup hash = some pindex := by
  obtain ⟨old, hold, rfl⟩ := h.stored hash d hdisk
  obtain rfl := Option.some.inj (hlookup.symm.trans hold)
  obtain ⟨pindex', hlookup', hd⟩ := h'.stored hash _ (hdb ▸ hdisk)
  have hne := h.pprev_ne_null hnull hlookup hdisk
  have hne' := h'.pprev_ne_null (hdb ▸ hnull) hlookup' (hdb ▸ hdisk)
  have hcount := h.consistent.count hash pindex hlookup
  have hcount' := h'.consistent.count hash pindex' hlookup'
  obtain ⟨⟨nHeight, nVersion, nTime, nBits, count⟩, pprev, hashMerkleRoot, nNonce, hashRandomX⟩ := pindex
  obtain ⟨⟨nHeight', nVersion', nTime', nBits', count'⟩, pprev', root', nNonce', rx'⟩ := pindex'
  simp only [CDiskBlockIndex.ofEntry, hrandomX, if_true, CDiskBlockIndex.mk.injEq] at hd
  obtain ⟨rfl, rfl, hprev, rfl, rfl, rfl, rfl, rfl⟩ := hd
  obtain rfl := eq_of_getD_eq hprev hne hne'
  have hsame : count' = count := by
    rw [show count' = _ from hcount', show count = _ from hcount]
    exact congrArg (computeSecondAlgoCount · _ _) hparent
  rw [hlookup', hsame]

theorem Sound.lookup_eq (d : CDiskBlockIndex) (hdisk : s.m_block_tree_db.lookup hash = some d) :
    s'.m_block_index.lookup hash = some pindex := by
  revert d
  refine h.consistent.induction (P := fun hash pindex => ∀ d, s.m_block_tree_db.lookup hash = some d →
    s'.m_block_index.lookup hash = some pindex) ?_ ?_ hash pindex hlookup
  · intro hash pindex hlookup hprev d hdisk
    apply h.entry_eq h' hdb hrandomX hnull hlookup hdisk
    rw [parentOf, parentOf, hprev]
    rfl
  · intro hash pindex prev pprev hlookup hprev hparent ih d hdisk
    obtain ⟨d', hd'⟩ := h.closed hash d pindex prev hdisk hlookup hprev
    apply h.entry_eq h' hdb hrandomX hnull hlookup hdisk
    rw [parentOf, parentOf, hprev, Option.bind_some, Option.bind_some, ih d' hd', hparent]

end SameDatabase

theorem Sound.step {s' : BlockManager} (h : Sound hashes params s)
    (hstep : Step hashes params s s') : Sound hashes params s' := by
  cases hstep with
  | add block hknown => exact h.add hknown
  | flush => exact h.flush
  | restart cursor order loaded index hcursor hguts horder hrebuild =>
    exact h.restart hcursor hguts horder hrebuild

theorem Reachable.sound (h : Reachable hashes params s) : Sound hashes params s := by
  induction h with
  | start => exact sound_start
  | step _ hstep ih => exact ih.step hstep

end Runs

/-- **The cached count is exact and changes nothing**: after any run, restarts included, it is the
number of blocks of the second algorithm, and the next bits are those that the walk gives. -/
theorem secondAlgoCount_exact (hashes : PowHashes) (params : Params) (s : BlockManager)
    (hreachable : Reachable hashes params s) (hash : Uint256) (pindex : BlockEntry)
    (hlookup : s.m_block_index.lookup hash = some pindex) :
    (∃ ancestors, ChainOf s.m_block_index hash pindex ancestors) ∧
    ∀ ancestors, ChainOf s.m_block_index hash pindex ancestors →
      pindex.nSecondAlgoCount = algoBlocks params.nDualAlgoActivationHeight true
        (pindex.toCBlockIndex :: chainView ancestors) ∧
      ∀ pblock, getNextWorkRequired pindex.toCBlockIndex (chainView ancestors) pblock params =
        getNextWorkRequired (forgetCount pindex.toCBlockIndex) (chainView ancestors) pblock
          params := by
  have hconsistent := hreachable.sound.consistent
  refine ⟨hconsistent.exists_chain hlookup, ?_⟩
  intro ancestors hchain
  have hcount := hconsistent.count_eq hchain
  refine ⟨hcount, ?_⟩
  intro pblock
  exact (getNextWorkRequired_forgetCount pblock (hconsistent.linked hchain) (.inr hcount)).symm

section Sample

def nonceHashes : PowHashes :=
  { sampleHashes with
    sha256 := fun bytes =>
      if h : bytes.length = 32 then ⟨bytes, h⟩ else smallHash (bytes.getD 76 0) }

def genesisHeader : CBlockHeader := { sampleHeader with hashPrevBlock := Uint256.null, nNonce := 1 }

def secondHeader : CBlockHeader :=
  { sampleHeader with
    nVersion := 0x60000000, hashPrevBlock := smallHash 1, nNonce := 2, hashRandomX := smallHash 6 }

def genesisManager : BlockManager :=
  addToBlockIndex nonceHashes earlyParams ⟨∅, [], ∅⟩ genesisHeader

def sampleManager : BlockManager :=
  writeBlockIndexDB earlyParams
    (addToBlockIndex nonceHashes earlyParams genesisManager secondHeader)

theorem reachable_sampleManager : Reachable nonceHashes earlyParams sampleManager := by
  have hgenesis : Reachable nonceHashes earlyParams genesisManager :=
    .step .start (.add _ genesisHeader (.inr ⟨rfl, by decide +kernel⟩))
  have hparent : ∃ pprev, genesisManager.m_block_index.lookup secondHeader.hashPrevBlock =
      some pprev := Option.isSome_iff_exists.mp (by decide +kernel)
  exact .step (.step hgenesis (.add _ secondHeader (.inl hparent))) (.flush _)

theorem secondAlgoCount_sampleManager :
    ∃ pindex ancestors, sampleManager.m_block_index.lookup (smallHash 2) = some pindex ∧
      ChainOf sampleManager.m_block_index (smallHash 2) pindex ancestors ∧
      pindex.nSecondAlgoCount =
        algoBlocks 1 true (pindex.toCBlockIndex :: chainView ancestors) := by
  obtain ⟨pindex, hlookup⟩ : ∃ pindex, sampleManager.m_block_index.lookup (smallHash 2) =
      some pindex := Option.isSome_iff_exists.mp (by decide +kernel)
  obtain ⟨⟨ancestors, hchain⟩, hexact⟩ := secondAlgoCount_exact nonceHashes earlyParams sampleManager
    reachable_sampleManager (smallHash 2) pindex hlookup
  exact ⟨pindex, ancestors, hlookup, hchain, (hexact ancestors hchain).1⟩

theorem checkStored_sampleManager (hash : Uint256) (d : CDiskBlockIndex)
    (hdisk : sampleManager.m_block_tree_db.lookup hash = some d) :
    checkStored nonceHashes earlyParams d = .ok () := by
  have hall : ∀ p ∈ pairs sampleManager.m_block_tree_db,
      (checkStored nonceHashes earlyParams p.2).isOk = true := by
    decide +kernel
  generalize sampleManager.m_block_tree_db = db at hdisk hall
  have hok := hall (hash, d) (mem_pairs.mpr hdisk)
  cases hcheck : checkStored nonceHashes earlyParams d with
  | ok u => rfl
  | error what =>
    rw [hcheck] at hok
    cases hok

end Sample

end Rcpu.BlockIndex
