import Rcpu.Orphanage

/-!
# Runs of the orphanage

The tables of the orphanage agree after every sequence of calls, so that no assertion fails.  An orphan
that was put in its peer's work set stays there until it is handed to the mempool, unless the peer's
budget does not pay for its range proofs: then `ProcessOrphanTx` has already taken it out.
-/

namespace Rcpu.Orphanage

open Checks WeightedMap Transaction SwapList
open Rcpu.Validation (uint256S)
open Rcpu.Script (OP_TRUE)

/-! ### The tables agree -/

namespace TxOrphanage

def origin (o : TxOrphanage) (txid : Txid) : Option NodeId :=
  (o.m_orphans.lookup txid).map OrphanTx.fromPeer

def listPos (o : TxOrphanage) (txid : Txid) : Option Nat :=
  (o.m_orphans.lookup txid).map OrphanTx.list_pos

end TxOrphanage

/-- Every orphan is stored under its hash, stands at its place in the list, and is indexed by the
outputs it spends. -/
structure Agree (getHash : CTransaction → Uint256) (o : TxOrphanage) : Prop where
  hash : ∀ txid orphan, o.m_orphans.lookup txid = some orphan → getHash orphan.tx = txid
  placed : Placed o.listPos o.m_orphan_list
  indexed : ∀ prevout txid, txid ∈ o.spenders prevout ↔
    ∃ orphan, o.m_orphans.lookup txid = some orphan ∧ prevout ∈ orphan.tx.vin.map CTxIn.prevout

section Tables

variable {getHash : CTransaction → Uint256} {o : TxOrphanage} {txid : Txid}

theorem agree_empty : Agree getHash .empty where
  hash _ _ hlookup := by cases hlookup
  placed := placed_nil
  indexed prevout txid := iff_of_false (by simp [TxOrphanage.spenders, TxOrphanage.empty])
    fun ⟨_, hlookup, _⟩ => by cases hlookup

structure SameOrphans (o o' : TxOrphanage) : Prop where
  orphans : o'.m_orphans = o.m_orphans
  index : o'.m_outpoint_to_orphan_it = o.m_outpoint_to_orphan_it
  list : o'.m_orphan_list = o.m_orphan_list

theorem SameOrphans.origin {o' : TxOrphanage} (h : SameOrphans o o') (txid : Txid) :
    o'.origin txid = o.origin txid := by rw [TxOrphanage.origin, h.orphans, TxOrphanage.origin]

theorem Agree.of_same {o' : TxOrphanage} (h : Agree getHash o) (hsame : SameOrphans o o') :
    Agree getHash o' := by
  refine ⟨?_, ?_, ?_⟩
  · rw [hsame.orphans]
    exact h.hash
  · unfold TxOrphanage.listPos
    rw [hsame.orphans, hsame.list]
    exact h.placed
  · unfold TxOrphanage.spenders
    rw [hsame.orphans, hsame.index]
    exact h.indexed

theorem mem_indexInput (hash : Txid) (index : Map COutPoint (List Txid)) (txin : CTxIn)
    {prevout : COutPoint} :
    txid ∈ ((indexInput hash index txin).lookup prevout).getD [] ↔
      txid ∈ (index.lookup prevout).getD [] ∨ txid = hash ∧ prevout = txin.prevout := by
  unfold indexInput
  by_cases hprev : prevout = txin.prevout
  · rw [hprev, Finmap.lookup_insert, Option.getD_some, List.mem_insert_iff]
    simp [or_comm]
  · rw [Finmap.lookup_insert_of_ne _ hprev]
    simp [hprev]

theorem mem_foldl_indexInput (hash : Txid) (vin : List CTxIn) (index : Map COutPoint (List Txid))
    {prevout : COutPoint} :
    txid ∈ ((vin.foldl (indexInput hash) index).lookup prevout).getD [] ↔
      txid ∈ (index.lookup prevout).getD [] ∨ txid = hash ∧ prevout ∈ vin.map CTxIn.prevout := by
  induction vin generalizing index with
  | nil => simp
  | cons txin vin ih =>
    rw [List.foldl_cons, ih, mem_indexInput, List.map_cons, List.mem_cons]
    rw [or_assoc, ← and_or_left]

theorem mem_unindexInput (erased : Txid) (index : Map COutPoint (List Txid)) (txin : CTxIn)
    {prevout : COutPoint} :
    txid ∈ ((unindexInput erased index txin).lookup prevout).getD [] ↔
      txid ∈ (index.lookup prevout).getD [] ∧ ¬ (txid = erased ∧ prevout = txin.prevout) := by
  unfold unindexInput
  cases hlookup : index.lookup txin.prevout with
  | none =>
    dsimp only
    by_cases hprev : prevout = txin.prevout
    · rw [hprev, hlookup]
      simp
    · simp [hprev]
  | some spenders =>
    dsimp only
    by_cases hprev : prevout = txin.prevout
    · have hfilter : txid ∈ spenders.filter (· ≠ erased) ↔ txid ∈ spenders ∧ ¬ txid = erased := by
        simp
      rw [hprev, hlookup]
      split_ifs with hleft
      · rw [Finmap.lookup_erase, Option.getD_none]
        rw [hleft] at hfilter
        simpa using hfilter
      · rw [Finmap.lookup_insert, Option.getD_some, hfilter]
        simp
    · have hsame : ((if spenders.filter (· ≠ erased) = [] then index.erase txin.prevout
          else index.insert txin.prevout (spenders.filter (· ≠ erased))).lookup prevout) =
          index.lookup prevout := by
        split_ifs
        · exact Finmap.lookup_erase_ne hprev
        · exact Finmap.lookup_insert_of_ne _ hprev
      rw [hsame]
      simp [hprev]

theorem mem_foldl_unindexInput (erased : Txid) (vin : List CTxIn)
    (index : Map COutPoint (List Txid)) {prevout : COutPoint} :
    txid ∈ ((vin.foldl (unindexInput erased) index).lookup prevout).getD [] ↔
      txid ∈ (index.lookup prevout).getD [] ∧
        ¬ (txid = erased ∧ prevout ∈ vin.map CTxIn.prevout) := by
  induction vin generalizing index with
  | nil => simp
  | cons txin vin ih =>
    rw [List.foldl_cons, ih, mem_unindexInput, List.map_cons, List.mem_cons]
    rw [and_assoc, ← not_or, ← and_or_left]

theorem addTx_spec (h : Agree getHash o) (tx : CTransaction) (peer : NodeId) (now : Int) :
    Agree getHash (addTx getHash o tx peer now).1 ∧
      (addTx getHash o tx peer now).1.m_peer_work_set = o.m_peer_work_set ∧
      ∀ txid, o.origin txid ≠ none → (addTx getHash o tx peer now).1.origin txid = o.origin txid := by
  unfold addTx
  dsimp only
  split_ifs with hknown hbig
  · exact ⟨h, rfl, fun _ _ => rfl⟩
  · exact ⟨h, rfl, fun _ _ => rfl⟩
  · have hnone : o.m_orphans.lookup (getHash tx) = none := by simpa using hknown
    refine ⟨⟨?_, ?_, ?_⟩, rfl, ?_⟩
    · intro txid orphan hlookup
      by_cases htxid : txid = getHash tx
      · rw [htxid, Finmap.lookup_insert, Option.some.injEq] at hlookup
        rw [← hlookup, htxid]
      · rw [Finmap.lookup_insert_of_ne _ htxid] at hlookup
        exact h.hash txid orphan hlookup
    · have hpos : o.listPos (getHash tx) = none := by rw [TxOrphanage.listPos, hnone, Option.map_none]
      convert h.placed.concat hpos using 1
      funext txid
      unfold TxOrphanage.listPos
      dsimp only
      split_ifs with htxid
      · rw [htxid, Finmap.lookup_insert, Option.map_some]
      · rw [Finmap.lookup_insert_of_ne _ htxid]
    · intro prevout txid
      rw [TxOrphanage.spenders, mem_foldl_indexInput]
      have hindexed := h.indexed prevout txid
      rw [TxOrphanage.spenders] at hindexed
      rw [hindexed]
      by_cases htxid : txid = getHash tx
      · rw [htxid, Finmap.lookup_insert, hnone]
        simp
      · rw [Finmap.lookup_insert_of_ne _ htxid]
        simp [htxid]
    · intro txid horigin
      have htxid : txid ≠ getHash tx := by
        rintro rfl
        exact horigin (by rw [TxOrphanage.origin, hnone, Option.map_none])
      rw [TxOrphanage.origin, Finmap.lookup_insert_of_ne _ htxid, TxOrphanage.origin]

theorem lookup_setListPos {orphans : Map Txid OrphanTx} (last : Txid) (pos : Nat) (txid : Txid) :
    (setListPos orphans last pos).lookup txid = (orphans.lookup txid).map fun orphan =>
      if txid = last then { orphan with list_pos := pos } else orphan := by
  unfold setListPos
  by_cases htxid : txid = last
  · rw [htxid]
    cases hlookup : orphans.lookup last with
    | none => simpa using hlookup
    | some orphan =>
      dsimp only
      rw [Finmap.lookup_insert]
      simp
  · simp only [htxid, if_false]
    cases hlookup : orphans.lookup last with
    | none => simp
    | some orphan =>
      dsimp only
      rw [Finmap.lookup_insert_of_ne _ htxid]
      simp

/-- The entries when an orphan is erased and the last one has taken its place. -/
theorem lookup_erased {orphans : Map Txid OrphanTx} {last : Txid} {pos : Nat} {moved : Prop}
    [Decidable moved] (hmoved : ¬ moved → last = txid) (j : Txid) :
    ((if moved then setListPos orphans last pos else orphans).erase txid).lookup j =
      if j = txid then none
      else (orphans.lookup j).map fun orphan =>
        if j = last then { orphan with list_pos := pos } else orphan := by
  by_cases hj : j = txid
  · rw [if_pos hj, hj, Finmap.lookup_erase]
  · rw [if_neg hj, Finmap.lookup_erase_ne hj]
    by_cases h : moved
    · rw [if_pos h, lookup_setListPos]
    · have hlast : j ≠ last := fun hlast => hj (hlast.trans (hmoved h))
      simp only [if_neg h, if_neg hlast, Option.map_id']

/-- **What `EraseTx` does**: its assertion holds, and only the one orphan is gone. -/
theorem eraseTxNoLock_spec (h : Agree getHash o) (txid : Txid) :
    ∃ o', eraseTxNoLock o txid = .ok o' ∧ Agree getHash o' ∧
      o'.m_peer_work_set = o.m_peer_work_set ∧
      ∀ j, o'.origin j = if j = txid then none else o.origin j := by
  cases hit : o.m_orphans.lookup txid with
  | none =>
    refine ⟨o, by rw [eraseTxNoLock, hit], h, rfl, ?_⟩
    intro j
    split_ifs with hj
    · rw [hj, TxOrphanage.origin, hit, Option.map_none]
    · rfl
  | some it =>
    have hpos : o.listPos txid = some it.list_pos := by rw [TxOrphanage.listPos, hit, Option.map_some]
    have hplace := (h.placed it.list_pos txid).mpr hpos
    have hlt := h.placed.lt_length hpos
    obtain ⟨last, hlast⟩ : ∃ last, o.m_orphan_list.getLast? = some last :=
      Option.isSome_iff_exists.mp (List.getLast?_isSome.mpr (List.ne_nil_of_length_pos (by omega)))
    have hend : o.listPos last = some (o.m_orphan_list.length - 1) := by
      rw [← h.placed, ← List.getLast?_eq_getElem?, hlast]
    have hmoved : ¬ it.list_pos + 1 ≠ o.m_orphan_list.length → last = txid := by
      intro hlastpos
      have hsame : it.list_pos = o.m_orphan_list.length - 1 := by omega
      rw [hsame] at hpos
      exact h.placed.inj hend hpos
    have hlist : (if it.list_pos + 1 ≠ o.m_orphan_list.length then
        o.m_orphan_list.set it.list_pos last else o.m_orphan_list).dropLast =
        (o.m_orphan_list.set it.list_pos last).dropLast := by
      split_ifs with hsame
      · rfl
      · exact (dropLast_set_last (not_not.mp hsame) last).symm
    have hlookup := @lookup_erased txid o.m_orphans last it.list_pos _ _ hmoved
    refine ⟨{ o with
        m_outpoint_to_orphan_it := it.tx.vin.foldl (unindexInput txid) o.m_outpoint_to_orphan_it
        m_orphan_list := (if it.list_pos + 1 ≠ o.m_orphan_list.length then
          o.m_orphan_list.set it.list_pos last else o.m_orphan_list).dropLast
        m_orphans := (if it.list_pos + 1 ≠ o.m_orphan_list.length then
          setListPos o.m_orphans last it.list_pos else o.m_orphans).erase txid },
      ?_, ⟨?_, ?_, ?_⟩, rfl, ?_⟩
    · rw [eraseTxNoLock, hit]
      dsimp only
      rw [hlast, Option.getD_some]
      exact bind_unit_eq_ok.mpr ⟨require_eq_ok.mpr hplace, rfl⟩
    · intro j orphan hj
      rw [hlookup] at hj
      by_cases hjtxid : j = txid
      · rw [if_pos hjtxid] at hj
        cases hj
      · rw [if_neg hjtxid] at hj
        obtain ⟨old, hold, rfl⟩ := Option.map_eq_some_iff.mp hj
        rw [apply_ite OrphanTx.tx, ite_self]
        exact h.hash j old hold
    · rw [hlist]
      convert h.placed.remove hpos hlast using 1
      funext j
      unfold TxOrphanage.listPos
      rw [hlookup]
      split_ifs with hjtxid hjlast
      · rfl
      · obtain ⟨orphan, horphan, -⟩ := Option.map_eq_some_iff.mp hend
        rw [hjlast, horphan]
        rfl
      · rw [Option.map_id']
    · intro prevout j
      rw [TxOrphanage.spenders, mem_foldl_unindexInput, hlookup]
      have hindexed := h.indexed prevout j
      rw [TxOrphanage.spenders] at hindexed
      rw [hindexed]
      split_ifs with hjtxid hjlast
      · rw [hjtxid, hit]
        simp
      · cases o.m_orphans.lookup j <;> simp [hjtxid]
      · simp [hjtxid]
    · intro j
      rw [TxOrphanage.origin, hlookup]
      split_ifs with hjtxid hjlast
      · rfl
      · rw [Option.map_map]
        rfl
      · rw [Option.map_id']
        rfl

/-! ### Loops that erase -/

structure Shrinks (getHash : CTransaction → Uint256) (o o' : TxOrphanage) : Prop where
  agree : Agree getHash o'
  workSets : o'.m_peer_work_set = o.m_peer_work_set
  origin : ∀ txid, o'.origin txid = none ∨ o'.origin txid = o.origin txid

theorem Shrinks.refl (h : Agree getHash o) : Shrinks getHash o o := ⟨h, rfl, fun _ => .inr rfl⟩

theorem Shrinks.trans {o₁ o₂ : TxOrphanage} (h : Shrinks getHash o o₁) (h' : Shrinks getHash o₁ o₂) :
    Shrinks getHash o o₂ := by
  refine ⟨h'.agree, h'.workSets.trans h.workSets, ?_⟩
  intro txid
  rcases h'.origin txid with hnone | hsame
  · exact .inl hnone
  · rw [hsame]
    exact h.origin txid

theorem exists_eraseTxNoLock (h : Agree getHash o) (txid : Txid) :
    ∃ o', eraseTxNoLock o txid = .ok o' ∧ Shrinks getHash o o' ∧
      ∀ j, o'.origin j = if j = txid then none else o.origin j := by
  obtain ⟨o', herase, hagree, hwork, horigin⟩ := eraseTxNoLock_spec h txid
  refine ⟨o', herase, ⟨hagree, hwork, ?_⟩, horigin⟩
  intro j
  rw [horigin]
  split_ifs
  · exact .inl rfl
  · exact .inr rfl

theorem exists_foldlM_shrinks {α : Type} {f : TxOrphanage → α → Except String TxOrphanage}
    (hf : ∀ o x, Agree getHash o → ∃ o', f o x = .ok o' ∧ Shrinks getHash o o')
    (h : Agree getHash o) (l : List α) : ∃ o', l.foldlM f o = .ok o' ∧ Shrinks getHash o o' := by
  induction l generalizing o with
  | nil => exact ⟨o, rfl, .refl h⟩
  | cons x l ih =>
    obtain ⟨o₁, hx, hshrinks⟩ := hf o x h
    obtain ⟨o', hl, hrest⟩ := ih hshrinks.agree
    refine ⟨o', ?_, hshrinks.trans hrest⟩
    rw [List.foldlM_cons, hx]
    exact hl

theorem exists_eraseIf {kind : OrphanTx → Bool} (h : Agree getHash o) (txid : Txid) :
    ∃ o', eraseIf getHash kind o txid = .ok o' ∧ Shrinks getHash o o' ∧
      ∀ peer, (∀ orphan, orphan.fromPeer = peer → kind orphan = true) → o'.origin txid ≠ some peer := by
  unfold eraseIf
  cases hlookup : o.m_orphans.lookup txid with
  | none =>
    refine ⟨o, rfl, .refl h, ?_⟩
    intro peer _
    rw [TxOrphanage.origin, hlookup]
    simp
  | some orphan =>
    dsimp only
    split_ifs with hkind
    · rw [h.hash txid orphan hlookup]
      obtain ⟨o', herase, hshrinks, horigin⟩ := exists_eraseTxNoLock h txid
      exact ⟨o', herase, hshrinks, fun peer _ => by rw [horigin, if_pos rfl]; simp⟩
    · refine ⟨o, rfl, .refl h, ?_⟩
      intro peer hpeer
      rw [TxOrphanage.origin, hlookup]
      exact fun heq => hkind (hpeer orphan (Option.some.inj heq))

theorem exists_eraseWhere {kind : OrphanTx → Bool} (h : Agree getHash o) (order : List Txid) :
    ∃ o', eraseWhere getHash kind o order = .ok o' ∧ Shrinks getHash o o' ∧
      ∀ txid ∈ order, ∀ peer, (∀ orphan, orphan.fromPeer = peer → kind orphan = true) →
        o'.origin txid ≠ some peer := by
  unfold eraseWhere
  induction order generalizing o with
  | nil => exact ⟨o, rfl, .refl h, by simp⟩
  | cons txid order ih =>
    obtain ⟨o₁, hround, hshrinks, hgone⟩ := @exists_eraseIf getHash o kind h txid
    obtain ⟨o', hrest, hshrinks', hgone'⟩ := ih hshrinks.agree
    refine ⟨o', ?_, hshrinks.trans hshrinks', ?_⟩
    · rw [List.foldlM_cons, hround]
      exact hrest
    · intro j hj peer hpeer
      rcases List.mem_cons.mp hj with rfl | hj
      · rcases hshrinks'.origin j with hnone | hsame
        · rw [hnone]
          simp
        · rw [hsame]
          exact hgone peer hpeer
      · exact hgone' j hj peer hpeer

theorem mem_keys_iff {j : Txid} : j ∈ o.m_orphans.keys ↔ o.origin j ≠ none := by
  rw [Finmap.mem_keys, ← Finmap.lookup_isSome, TxOrphanage.origin, ne_eq, Option.map_eq_none_iff,
    Option.isSome_iff_ne_none]

/-- Random eviction never fails and gets the orphanage down to its limit. -/
theorem exists_evict (maxOrphans : Nat) (rng : Nat → Nat) (n : Nat) (h : Agree getHash o)
    (hn : o.m_orphans.keys.card ≤ n) :
    ∃ o', evict maxOrphans rng n o = .ok o' ∧ Shrinks getHash o o' ∧
      o'.m_orphans.keys.card ≤ maxOrphans := by
  induction n generalizing o with
  | zero => exact ⟨o, rfl, .refl h, by omega⟩
  | succ n ih =>
    rw [evict]
    split_ifs with hcard
    · have hlist : 0 < o.m_orphan_list.length := by
        obtain ⟨k, hk⟩ := Finset.card_pos.mp (show 0 < o.m_orphans.keys.card by omega)
        obtain ⟨orphan, horphan⟩ := Finmap.mem_iff.mp (Finmap.mem_keys.mp hk)
        have hpos : o.listPos k = some orphan.list_pos := by rw [TxOrphanage.listPos, horphan]; rfl
        have := h.placed.lt_length hpos
        omega
      have hdraw := Nat.mod_lt (rng n) hlist
      have htxid := List.getElem?_eq_getElem hdraw
      generalize o.m_orphan_list[rng n % o.m_orphan_list.length] = txid at htxid
      obtain ⟨o₁, herase, hshrinks, horigin⟩ := exists_eraseTxNoLock h txid
      have hkeys : o₁.m_orphans.keys = o.m_orphans.keys.erase txid := by
        ext j
        rw [Finset.mem_erase, mem_keys_iff, mem_keys_iff, horigin]
        split_ifs with hj <;> simp [hj]
      have hmem : txid ∈ o.m_orphans.keys := by
        obtain ⟨orphan, horphan, -⟩ := Option.map_eq_some_iff.mp ((h.placed _ _).mp htxid)
        exact Finmap.mem_keys.mpr (Finmap.mem_of_lookup_eq_some horphan)
      have hcard₁ := Finset.card_erase_of_mem hmem
      rw [← hkeys] at hcard₁
      obtain ⟨o', hrest, hshrinks', hlimit⟩ := ih hshrinks.agree (by omega)
      rw [htxid]
      exact ⟨o', bind_eq_ok.mpr ⟨o₁, herase, hrest⟩, hshrinks.trans hshrinks', hlimit⟩
    · exact ⟨o, rfl, .refl h, by omega⟩

/-- **`LimitOrphans`** leaves at most as many orphans as it is told to. -/
theorem exists_limitOrphans (h : Agree getHash o) (maxOrphans : Nat) (rng : Nat → Nat) (nNow : Int)
    (order : List Txid) :
    ∃ o', limitOrphans getHash o maxOrphans rng nNow order = .ok o' ∧ Shrinks getHash o o' ∧
      o'.m_orphans.keys.card ≤ maxOrphans := by
  unfold limitOrphans
  by_cases hsweep : o.nNextSweep ≤ nNow
  · obtain ⟨swept, hswept, hshrinks, -⟩ :=
      @exists_eraseWhere getHash o (fun orphan => orphan.nTimeExpire ≤ nNow) h order
    have hswept' : Agree getHash
        { swept with nNextSweep := minExpTime o order nNow + ORPHAN_TX_EXPIRE_INTERVAL } :=
      hshrinks.agree.of_same ⟨rfl, rfl, rfl⟩
    obtain ⟨o', hevict, hshrinks', hlimit⟩ := exists_evict maxOrphans rng _ hswept' (Nat.le_refl _)
    rw [if_pos hsweep, hswept]
    exact ⟨o', hevict, hshrinks.trans ⟨hshrinks'.agree, hshrinks'.workSets, hshrinks'.origin⟩, hlimit⟩
  · rw [if_neg hsweep]
    exact exists_evict maxOrphans rng _ h (Nat.le_refl _)

/-! ### Work sets -/

theorem mem_insertTxid {work : List Txid} {j : Txid} :
    j ∈ insertTxid txid work ↔ j = txid ∨ j ∈ work := by
  unfold insertTxid
  split_ifs with hmem
  · refine ⟨.inr, ?_⟩
    rintro (rfl | hj)
    · exact hmem
    · exact hj
  · exact List.mem_orderedInsert _

theorem mem_workSet_addWork {work : NodeId × Txid} {peer : NodeId} :
    txid ∈ (addWork o work).workSet peer ↔ txid ∈ o.workSet peer ∨ (peer, txid) = work := by
  unfold addWork
  by_cases hpeer : peer = work.1
  · rw [TxOrphanage.workSet, hpeer, Finmap.lookup_insert, Option.getD_some, mem_insertTxid, or_comm,
      Prod.ext_iff]
    simp
  · rw [TxOrphanage.workSet, Finmap.lookup_insert_of_ne _ hpeer, Prod.ext_iff]
    simp [TxOrphanage.workSet, hpeer]

theorem mem_workSet_foldl_addWork (works : List (NodeId × Txid)) {peer : NodeId} :
    txid ∈ (works.foldl addWork o).workSet peer ↔ txid ∈ o.workSet peer ∨ (peer, txid) ∈ works := by
  induction works generalizing o with
  | nil => simp
  | cons work works ih =>
    rw [List.foldl_cons, ih, mem_workSet_addWork, List.mem_cons, or_assoc]

theorem same_foldl_addWork (works : List (NodeId × Txid)) : SameOrphans o (works.foldl addWork o) := by
  induction works generalizing o with
  | nil => exact ⟨rfl, rfl, rfl⟩
  | cons work works ih =>
    have hrest := @ih (addWork o work)
    exact ⟨hrest.orphans, hrest.index, hrest.list⟩

/-- What the loop of `GetTxToReconsider` passes over are no orphans. -/
theorem takeOrphan_spec (orphans : Map Txid OrphanTx) (work : List Txid) :
    (takeOrphan orphans work = ([], none) ∧ ∀ txid ∈ work, orphans.lookup txid = none) ∨
      ∃ skipped txid orphan rest, takeOrphan orphans work = (rest, some (txid, orphan.tx)) ∧
        work = skipped ++ txid :: rest ∧ (∀ txid ∈ skipped, orphans.lookup txid = none) ∧
        orphans.lookup txid = some orphan := by
  induction work with
  | nil => exact .inl ⟨rfl, by simp⟩
  | cons txid rest ih =>
    rw [takeOrphan]
    cases hlookup : orphans.lookup txid with
    | some orphan => exact .inr ⟨[], txid, orphan, rest, rfl, rfl, by simp, hlookup⟩
    | none =>
      rcases ih with ⟨htake, hnone⟩ | ⟨skipped, found, orphan, left, htake, rfl, hnone, hfound⟩
      · exact .inl ⟨htake, List.forall_mem_cons.mpr ⟨hlookup, hnone⟩⟩
      · exact .inr ⟨txid :: skipped, found, orphan, left, htake, rfl,
          List.forall_mem_cons.mpr ⟨hlookup, hnone⟩, hfound⟩

theorem workSet_insert (peer : NodeId) (rest : List Txid) (p : NodeId) :
    ({ o with m_peer_work_set := o.m_peer_work_set.insert peer rest } : TxOrphanage).workSet p =
      if p = peer then rest else o.workSet p := by
  split_ifs with hp
  · rw [hp, TxOrphanage.workSet, Finmap.lookup_insert, Option.getD_some]
  · rw [TxOrphanage.workSet, Finmap.lookup_insert_of_ne _ hp, TxOrphanage.workSet]

/-- **What `GetTxToReconsider` does**: it takes the first orphan out of the work set, with the entries
before it that are not orphans any more. -/
theorem getTxToReconsider_spec (o : TxOrphanage) (peer : NodeId) :
    ∃ o' found, getTxToReconsider o peer = (o', found) ∧ SameOrphans o o' ∧
      (∀ p, p ≠ peer → o'.workSet p = o.workSet p) ∧
      ((found = none ∧ ∀ txid ∈ o.workSet peer, o.m_orphans.lookup txid = none) ∨
        ∃ skipped txid orphan, found = some (txid, orphan.tx) ∧
          o.workSet peer = skipped ++ txid :: o'.workSet peer ∧
          (∀ txid ∈ skipped, o.m_orphans.lookup txid = none) ∧
          o.m_orphans.lookup txid = some orphan) := by
  unfold getTxToReconsider
  cases hwork : o.m_peer_work_set.lookup peer with
  | none =>
    refine ⟨o, none, rfl, ⟨rfl, rfl, rfl⟩, fun _ _ => rfl, .inl ⟨rfl, ?_⟩⟩
    rw [TxOrphanage.workSet, hwork]
    simp
  | some work =>
    have hset : o.workSet peer = work := by rw [TxOrphanage.workSet, hwork, Option.getD_some]
    refine ⟨_, _, rfl, ⟨rfl, rfl, rfl⟩, ?_, ?_⟩
    · intro p hp
      rw [workSet_insert, if_neg hp]
    · rw [workSet_insert, if_pos rfl, hset]
      rcases takeOrphan_spec o.m_orphans work with
        ⟨htake, hnone⟩ | ⟨skipped, txid, orphan, rest, htake, hsplit, hnone, hfound⟩
      · rw [htake]
        exact .inl ⟨rfl, hnone⟩
      · rw [htake]
        exact .inr ⟨skipped, txid, orphan, rfl, hsplit, hnone, hfound⟩

end Tables

/-! ### The budget -/

theorem ctProofBytes_nonneg (tx : CTransaction) : 0 ≤ ctProofBytes tx := by
  unfold ctProofBytes
  split_ifs with hct
  · exact Int.le_refl 0
  · refine List.sum_nonneg ?_
    intro bytes hbytes
    obtain ⟨out, -, rfl⟩ := List.mem_map.mp hbytes
    split_ifs
    · exact Int.le_refl 0
    · exact Int.natCast_nonneg _

def entryBytes (orphans : Map Txid OrphanTx) (txid : Txid) : Int :=
  ((orphans.lookup txid).map fun orphan => ctProofBytes orphan.tx).getD 0

def workBytes (orphans : Map Txid OrphanTx) (work : List Txid) : Int :=
  (work.map (entryBytes orphans)).sum

/-- The tokens that are there whatever the time. -/
def CTBudget.available (budget : CTBudget) : Int := min budget.m_ct_budget_tokens CT_PROOF_BUDGET_MAX

theorem workBytes_of_no_orphan {orphans : Map Txid OrphanTx} {work : List Txid}
    (h : ∀ txid ∈ work, orphans.lookup txid = none) : workBytes orphans work = 0 := by
  refine List.sum_eq_zero ?_
  intro bytes hbytes
  obtain ⟨txid, htxid, rfl⟩ := List.mem_map.mp hbytes
  rw [entryBytes, h txid htxid, Option.map_none, Option.getD_none]

theorem workBytes_nonneg (orphans : Map Txid OrphanTx) (work : List Txid) :
    0 ≤ workBytes orphans work := by
  refine List.sum_nonneg ?_
  intro bytes hbytes
  obtain ⟨txid, -, rfl⟩ := List.mem_map.mp hbytes
  rw [entryBytes]
  cases orphans.lookup txid with
  | none => exact Int.le_refl 0
  | some orphan => exact ctProofBytes_nonneg orphan.tx

theorem workBytes_taken {orphans : Map Txid OrphanTx} {skipped : List Txid} {txid : Txid}
    {orphan : OrphanTx} (hskipped : ∀ txid ∈ skipped, orphans.lookup txid = none)
    (hfound : orphans.lookup txid = some orphan) (rest : List Txid) :
    workBytes orphans (skipped ++ txid :: rest) = ctProofBytes orphan.tx + workBytes orphans rest := by
  have hentry : entryBytes orphans txid = ctProofBytes orphan.tx := by
    rw [entryBytes, hfound, Option.map_some, Option.getD_some]
  have hnone : (skipped.map (entryBytes orphans)).sum = 0 := workBytes_of_no_orphan hskipped
  rw [workBytes, List.map_append, List.sum_append, List.map_cons, List.sum_cons, hentry, hnone,
    Int.zero_add, workBytes]

/-- A budget that covers what is asked for and more pays, and then covers the rest. -/
theorem consumeCTProofBudget_of_covered {budget budget' : CTBudget} {now bytes rest : Int}
    {paid : Bool} (hnonneg : 0 ≤ bytes) (hrest : 0 ≤ rest) (h : bytes + rest ≤ budget.available)
    (hpay : consumeCTProofBudget budget now bytes = (budget', paid)) :
    paid = true ∧ rest ≤ budget'.available := by
  unfold consumeCTProofBudget at hpay
  by_cases hbytes : bytes ≤ 0
  · rw [if_pos hbytes, Prod.mk.injEq] at hpay
    obtain ⟨rfl, rfl⟩ := hpay
    exact ⟨rfl, by omega⟩
  · rw [if_neg hbytes] at hpay
    dsimp only at hpay
    generalize hfilled : (if now - budget.m_ct_budget_last > 0 then _ else budget) = filled at hpay
    -- a refill adds tokens, up to the most there can be
    have hmore : budget.available ≤ filled.m_ct_budget_tokens := by
      rw [← hfilled]
      unfold CTBudget.available
      split_ifs with helapsed
      · have hrefill : 0 ≤ ((now - budget.m_ct_budget_last) * 32).tdiv 1000 :=
          Int.tdiv_nonneg (by omega) (by omega)
        dsimp only
        omega
      · exact Int.min_le_left _ _
    have hmax : budget.available ≤ CT_PROOF_BUDGET_MAX := Int.min_le_right _ _
    rw [if_neg (by omega), Prod.mk.injEq] at hpay
    obtain ⟨rfl, rfl⟩ := hpay
    exact ⟨rfl, Int.le_min.mpr ⟨by dsimp only; omega, by omega⟩⟩

/-- Nothing is charged for a transaction without range proofs, with or without the test for it. -/
theorem ite_consumeCTProofBudget (budget : CTBudget) (now bytes : Int) :
    (if bytes > 0 then consumeCTProofBudget budget now bytes else (budget, true)) =
      consumeCTProofBudget budget now bytes := by
  split_ifs with hbytes
  · rfl
  · rw [consumeCTProofBudget, if_pos (by omega)]

/-! ### Rounds of `ProcessOrphanTx` -/

section Rounds

variable {getHash : CTransaction → Uint256} {o o' : TxOrphanage} {handed : List Txid} {c : Prop}

/-- After `ProcessOrphanTx` the tables agree, no orphan has changed its peer, and under a condition
every entry of a work set is still there, was handed over, or is no orphan. -/
structure Processes (getHash : CTransaction → Uint256) (c : Prop) (o : TxOrphanage)
    (handed : List Txid) (r : Processed) : Prop where
  agree : Agree getHash r.orphanage
  origin : ∀ txid, r.orphanage.origin txid = none ∨ r.orphanage.origin txid = o.origin txid
  handed : handed ⊆ r.handed
  added : ∀ peer txid, (peer, txid) ∈ r.added → txid ∈ r.orphanage.workSet peer
  kept : c → ∀ peer, ∀ txid ∈ o.workSet peer,
    txid ∈ r.orphanage.workSet peer ∨ txid ∈ r.handed ∨ r.orphanage.origin txid = none

theorem processes_of_shrinks (works : List (NodeId × Txid)) (budget : CTBudget) (more : Bool)
    (h : Shrinks getHash (works.foldl addWork o) o') :
    Processes getHash c o handed ⟨o', budget, handed, works, more⟩ := by
  have hwork : ∀ peer txid, txid ∈ o'.workSet peer ↔
      txid ∈ o.workSet peer ∨ (peer, txid) ∈ works := by
    intro peer txid
    rw [← mem_workSet_foldl_addWork, TxOrphanage.workSet, h.workSets, TxOrphanage.workSet]
  refine ⟨h.agree, ?_, List.Subset.refl _, ?_, ?_⟩
  · intro txid
    rw [← (same_foldl_addWork (o := o) works).origin txid]
    exact h.origin txid
  · intro peer txid hadded
    exact (hwork peer txid).mpr (.inr hadded)
  · intro _ peer txid htxid
    exact .inl ((hwork peer txid).mpr (.inl htxid))

/-- A round before the last one takes an orphan from a work set. -/
theorem Processes.of_taken {c' : Prop} {handed' : List Txid} {r : Processed}
    (h : Processes getHash c' o' handed' r) (hsame : SameOrphans o o') (hhanded : handed ⊆ handed')
    (hc : c → c') (htaken : c → ∀ peer, ∀ txid ∈ o.workSet peer,
      txid ∈ o'.workSet peer ∨ txid ∈ handed' ∨ o.origin txid = none) :
    Processes getHash c o handed r := by
  refine ⟨h.agree, ?_, List.Subset.trans hhanded h.handed, h.added, ?_⟩
  · intro txid
    rw [← hsame.origin txid]
    exact h.origin txid
  · intro hcovered peer txid htxid
    rcases htaken hcovered peer txid htxid with hstays | hnow | hnone
    · exact h.kept (hc hcovered) peer txid hstays
    · exact .inr (.inl (h.handed hnow))
    · refine .inr (.inr ?_)
      rcases h.origin txid with hgone | hkept
      · exact hgone
      · rw [hkept, hsame.origin, hnone]

theorem stays_of_taken {peer : NodeId} {skipped : List Txid} {txid : Txid}
    (hothers : ∀ p, p ≠ peer → o'.workSet p = o.workSet p)
    (hsplit : o.workSet peer = skipped ++ txid :: o'.workSet peer)
    (hskipped : ∀ txid ∈ skipped, o.m_orphans.lookup txid = none) (handed : List Txid) (p : NodeId)
    (j : Txid) (hj : j ∈ o.workSet p) :
    j ∈ o'.workSet p ∨ j ∈ handed ++ [txid] ∨ o.origin j = none := by
  by_cases hp : p = peer
  · rw [hp, hsplit, List.mem_append, List.mem_cons] at hj
    rcases hj with hj | rfl | hj
    · exact .inr (.inr (by rw [TxOrphanage.origin, hskipped j hj, Option.map_none]))
    · exact .inr (.inl (List.mem_append_right _ List.mem_cons_self))
    · rw [hp]
      exact .inl hj
  · rw [hothers p hp]
    exact .inl hj

/-- **The loop of `ProcessOrphanTx`** never fails, and loses no entry if the budget covers the range
proofs of the work set. -/
theorem exists_processOrphanLoop (peer : NodeId) (rounds : Nat → Round) (n : Nat)
    (h : Agree getHash o) (budget : CTBudget) (handed : List Txid)
    (hn : (o.workSet peer).length ≤ n) :
    ∃ r, processOrphanLoop getHash peer rounds n o budget handed = .ok r ∧
      Processes getHash (workBytes o.m_orphans (o.workSet peer) ≤ budget.available) o handed r := by
  induction n generalizing o budget handed with
  | zero => exact ⟨_, rfl, processes_of_shrinks [] budget false (.refl h)⟩
  | succ n ih =>
    rw [processOrphanLoop]
    obtain ⟨o₁, found, htake, hsame, hothers, hfound⟩ := getTxToReconsider_spec o peer
    have hagree := h.of_same hsame
    rw [htake]
    rcases hfound with ⟨rfl, hnone⟩ | ⟨skipped, txid, orphan, rfl, hsplit, hskipped, horphan⟩
    · refine ⟨_, rfl, (processes_of_shrinks (c := True) [] budget false (.refl hagree)).of_taken hsame
        (List.Subset.refl _) (fun _ => trivial) ?_⟩
      intro _ p j hj
      by_cases hp : p = peer
      · rw [hp] at hj
        exact .inr (.inr (by rw [TxOrphanage.origin, hnone j hj, Option.map_none]))
      · rw [hothers p hp]
        exact .inl hj
    · have hbytes := workBytes_taken hskipped horphan (o₁.workSet peer)
      rw [← hsplit] at hbytes
      have hstays := stays_of_taken hothers hsplit hskipped handed
      have hlength : (o₁.workSet peer).length ≤ n := by
        rw [hsplit, List.length_append, List.length_cons] at hn
        omega
      have hgrows : handed ⊆ handed ++ [txid] := List.subset_append_left _ _
      dsimp only
      rw [ite_consumeCTProofBudget]
      rcases hpay : consumeCTProofBudget budget (rounds n).now (ctProofBytes orphan.tx) with
        ⟨budget₁, paid⟩
      have hcovered : workBytes o.m_orphans (o.workSet peer) ≤ budget.available →
          paid = true ∧ workBytes o₁.m_orphans (o₁.workSet peer) ≤ budget₁.available := by
        intro hcovers
        rw [hsame.orphans]
        rw [hbytes] at hcovers
        exact consumeCTProofBudget_of_covered (ctProofBytes_nonneg _) (workBytes_nonneg _ _) hcovers hpay
      cases paid with
      | false =>
        -- the deferred orphan has left the work set
        refine ⟨_, rfl, (processes_of_shrinks (c := True) [] budget₁ false (.refl hagree)).of_taken hsame
          (List.Subset.refl _) (fun _ => trivial) ?_⟩
        intro hcovers
        exact absurd (hcovered hcovers).1 Bool.false_ne_true
      | true =>
        dsimp only
        cases hresult : (rounds n).result with
        | VALID =>
          obtain ⟨erased, herase, hshrinks, -⟩ := exists_eraseTxNoLock
            (hagree.of_same (same_foldl_addWork (children getHash o₁ orphan.tx))) (getHash orphan.tx)
          refine ⟨⟨erased, budget₁, handed ++ [txid], children getHash o₁ orphan.tx, true⟩,
            bind_eq_ok.mpr ⟨erased, herase, rfl⟩, ?_⟩
          exact (processes_of_shrinks (c := True) _ budget₁ true hshrinks).of_taken hsame hgrows
            (fun _ => trivial) (fun _ => hstays)
        | rejected =>
          obtain ⟨erased, herase, hshrinks, -⟩ := exists_eraseTxNoLock hagree (getHash orphan.tx)
          refine ⟨⟨erased, budget₁, handed ++ [txid], [], true⟩,
            bind_eq_ok.mpr ⟨erased, herase, rfl⟩, ?_⟩
          exact (processes_of_shrinks (c := True) [] budget₁ true hshrinks).of_taken hsame hgrows
            (fun _ => trivial) (fun _ => hstays)
        | TX_MISSING_INPUTS =>
          obtain ⟨r, hr, hprocesses⟩ := ih hagree budget₁ (handed ++ [txid]) hlength
          exact ⟨r, hr, hprocesses.of_taken hsame hgrows (fun hcovers => (hcovered hcovers).2)
            (fun _ => hstays)⟩

end Rounds

/-! ### Sequences of calls -/

inductive Op where
  | addTx (tx : CTransaction) (peer : NodeId) (now : Int)
  | addChildrenToWorkSet (tx : CTransaction)
  | eraseTx (txid : Txid)
  | eraseForPeer (peer : NodeId) (order : List Txid)
  | eraseForBlock (vtx : List CTransaction)
  | limitOrphans (maxOrphans : Nat) (rng : Nat → Nat) (nNow : Int) (order : List Txid)
  | processOrphanTx (peer : NodeId) (budget : CTBudget) (rounds : Nat → Round)

structure Effect where
  orphanage : TxOrphanage
  handed : List Txid
  added : List (NodeId × Txid)

def Effect.erased (o : TxOrphanage) : Effect := ⟨o, [], []⟩

def exec (getHash : CTransaction → Uint256) (o : TxOrphanage) : Op → Except String Effect
  | .addTx tx peer now => .ok ⟨(addTx getHash o tx peer now).1, [], []⟩
  | .addChildrenToWorkSet tx => .ok ⟨addChildrenToWorkSet getHash o tx, [], children getHash o tx⟩
  | .eraseTx txid => (eraseTxNoLock o txid).map .erased
  | .eraseForPeer peer order => (eraseForPeer getHash o peer order).map .erased
  | .eraseForBlock vtx => (eraseForBlock getHash o vtx).map .erased
  | .limitOrphans maxOrphans rng nNow order =>
    (limitOrphans getHash o maxOrphans rng nNow order).map .erased
  | .processOrphanTx peer budget rounds =>
    (processOrphanTx getHash o peer budget rounds).map fun r => ⟨r.orphanage, r.handed, r.added⟩

def Visits (o : TxOrphanage) (order : List Txid) : Prop :=
  order.Nodup ∧ ∀ txid, txid ∈ order ↔ txid ∈ o.m_orphans

/-- A loop over the orphans visits them all. -/
def Op.Allowed (o : TxOrphanage) : Op → Prop
  | .eraseForPeer _ order => Visits o order
  | .limitOrphans _ _ _ order => Visits o order
  | _ => True

/-- The budget of the peer covers the range proofs of its work set. -/
def Op.Covered (o : TxOrphanage) : Op → Prop
  | .processOrphanTx peer budget _ => workBytes o.m_orphans (o.workSet peer) ≤ budget.available
  | _ => True

/-- An orphanage, with the orphans that were put in their peer's work set and have not been handed to
`ProcessTransaction` since. -/
structure Watched where
  orphanage : TxOrphanage
  owed : List (NodeId × Txid)

def Watched.start : Watched := ⟨.empty, []⟩

def Watched.after (w : Watched) (e : Effect) : Watched :=
  ⟨e.orphanage, (w.owed.filter (fun work => work.2 ∉ e.handed) ++ e.added).filter
    fun work => e.orphanage.origin work.2 = some work.1⟩

def call (getHash : CTransaction → Uint256) (w : Watched) (op : Op) : Except String Watched :=
  (exec getHash w.orphanage op).map w.after

def Along (getHash : CTransaction → Uint256) (P : TxOrphanage → Op → Prop) (w : Watched) :
    List Op → Prop
  | [] => True
  | op :: ops => P w.orphanage op ∧ ∀ w', call getHash w op = .ok w' → Along getHash P w' ops

section Calls

variable {getHash : CTransaction → Uint256} {o o' : TxOrphanage} {c : Prop}

/-- What a call says it put in a work set is there, and under a condition every entry is still
there, was handed over, or is no orphan of that peer. -/
structure Keeps (getHash : CTransaction → Uint256) (c : Prop) (o : TxOrphanage) (e : Effect) :
    Prop where
  agree : Agree getHash e.orphanage
  added : ∀ peer txid, (peer, txid) ∈ e.added → txid ∈ e.orphanage.workSet peer
  kept : c → ∀ peer, ∀ txid ∈ o.workSet peer,
    txid ∈ e.orphanage.workSet peer ∨ txid ∈ e.handed ∨ e.orphanage.origin txid ≠ some peer

theorem Shrinks.keeps (h : Shrinks getHash o o') : Keeps getHash c o (.erased o') := by
  refine ⟨h.agree, by simp [Effect.erased], ?_⟩
  intro _ peer txid htxid
  refine .inl ?_
  rw [TxOrphanage.workSet, Effect.erased, h.workSets]
  exact htxid

/-- **Every call succeeds**, and loses no entry of a work set that the budget covers. -/
theorem exists_exec (h : Agree getHash o) (op : Op) (hallowed : op.Allowed o) :
    ∃ e, exec getHash o op = .ok e ∧ Keeps getHash (op.Covered o) o e := by
  cases op with
  | addTx tx peer now =>
    obtain ⟨hagree, hwork, -⟩ := addTx_spec h tx peer now
    refine ⟨_, rfl, hagree, by simp, ?_⟩
    intro _ p txid htxid
    refine .inl ?_
    rw [TxOrphanage.workSet, hwork]
    exact htxid
  | addChildrenToWorkSet tx =>
    refine ⟨_, rfl, h.of_same (same_foldl_addWork _), ?_, ?_⟩
    · intro peer txid hadded
      exact (mem_workSet_foldl_addWork _).mpr (.inr hadded)
    · intro _ peer txid htxid
      exact .inl ((mem_workSet_foldl_addWork _).mpr (.inl htxid))
  | eraseTx txid =>
    obtain ⟨o', herase, hshrinks, -⟩ := exists_eraseTxNoLock h txid
    exact ⟨.erased o', by rw [exec, herase]; rfl, hshrinks.keeps⟩
  | eraseForPeer peer order =>
    have hcleared : Agree getHash { o with m_peer_work_set := o.m_peer_work_set.erase peer } :=
      h.of_same ⟨rfl, rfl, rfl⟩
    obtain ⟨o', herase, hshrinks, hgone⟩ :=
      @exists_eraseWhere getHash _ (fun orphan => orphan.fromPeer = peer) hcleared order
    refine ⟨.erased o', by rw [exec, eraseForPeer, herase]; rfl, hshrinks.agree,
      by simp [Effect.erased], ?_⟩
    intro _ p txid htxid
    by_cases hp : p = peer
    · refine .inr (.inr ?_)
      by_cases hmem : txid ∈ order
      · exact hgone txid hmem p (by simp [hp])
      · have hnone : o.origin txid = none := by
          rw [TxOrphanage.origin, Finmap.lookup_eq_none.mpr (mt (hallowed.2 txid).mpr hmem),
            Option.map_none]
        rcases hshrinks.origin txid with hgone | hsame
        · rw [Effect.erased, hgone]
          simp
        · rw [Effect.erased, hsame]
          show o.origin txid ≠ some p
          rw [hnone]
          simp
    · refine .inl ?_
      rw [TxOrphanage.workSet, Effect.erased, hshrinks.workSets, Finmap.lookup_erase_ne hp]
      exact htxid
  | eraseForBlock vtx =>
    obtain ⟨o', herase, hshrinks⟩ := exists_foldlM_shrinks
      (fun o txid h => (exists_eraseTxNoLock h txid).imp fun _ ⟨herase, hshrinks, _⟩ =>
        ⟨herase, hshrinks⟩) h
      (vtx.flatMap fun tx => tx.vin.flatMap fun txin =>
        (o.spenders txin.prevout).filterMap fun txid =>
          (o.m_orphans.lookup txid).map fun orphan => getHash orphan.tx)
    exact ⟨.erased o', by rw [exec, eraseForBlock, herase]; rfl, hshrinks.keeps⟩
  | limitOrphans maxOrphans rng nNow order =>
    obtain ⟨o', hlimit, hshrinks, -⟩ := exists_limitOrphans h maxOrphans rng nNow order
    exact ⟨.erased o', by rw [exec, hlimit]; rfl, hshrinks.keeps⟩
  | processOrphanTx peer budget rounds =>
    obtain ⟨r, hr, hprocesses⟩ :=
      exists_processOrphanLoop peer rounds _ h budget [] (Nat.le_refl (o.workSet peer).length)
    refine ⟨⟨r.orphanage, r.handed, r.added⟩, by rw [exec, processOrphanTx, hr]; rfl,
      hprocesses.agree, hprocesses.added, ?_⟩
    intro hcovers p txid htxid
    rcases hprocesses.kept hcovers p txid htxid with hstays | hhanded | hnone
    · exact .inl hstays
    · exact .inr (.inl hhanded)
    · refine .inr (.inr ?_)
      rw [hnone]
      simp

/-- An invariant of calls under some condition holds after every sequence of them. -/
theorem exists_calls {P : TxOrphanage → Op → Prop} {I : Watched → Prop}
    (hstep : ∀ w op, I w → P w.orphanage op → ∃ w', call getHash w op = .ok w' ∧ I w')
    {w : Watched} {ops : List Op} (hw : I w) (h : Along getHash P w ops) :
    ∃ w', ops.foldlM (call getHash) w = .ok w' ∧ I w' := by
  induction ops generalizing w with
  | nil => exact ⟨w, rfl, hw⟩
  | cons op ops ih =>
    obtain ⟨w₁, hcall, hw₁⟩ := hstep w op hw h.1
    obtain ⟨w', hrest, hw'⟩ := ih hw₁ (h.2 w₁ hcall)
    refine ⟨w', ?_, hw'⟩
    rw [List.foldlM_cons, hcall]
    exact hrest

/-- **No assertion of the orphanage ever fails**, and after any calls its tables agree. -/
theorem exists_calls_agree (getHash : CTransaction → Uint256) (ops : List Op)
    (h : Along getHash (fun o op => op.Allowed o) .start ops) :
    ∃ w, ops.foldlM (call getHash) .start = .ok w ∧ Agree getHash w.orphanage := by
  refine exists_calls (I := fun w => Agree getHash w.orphanage) ?_ agree_empty h
  intro w op hagree hallowed
  obtain ⟨e, he, hkeeps⟩ := exists_exec hagree op hallowed
  exact ⟨w.after e, by rw [call, he]; rfl, hkeeps.agree⟩

structure Watched.Held (getHash : CTransaction → Uint256) (w : Watched) : Prop where
  agree : Agree getHash w.orphanage
  held : ∀ peer txid, (peer, txid) ∈ w.owed → txid ∈ w.orphanage.workSet peer

theorem Watched.Held.after {w : Watched} {e : Effect} (h : w.Held getHash)
    (hkeeps : Keeps getHash True w.orphanage e) : (w.after e).Held getHash := by
  refine ⟨hkeeps.agree, ?_⟩
  intro peer txid howed
  obtain ⟨hmem, horigin⟩ := List.mem_filter.mp howed
  rcases List.mem_append.mp hmem with hold | hadded
  · obtain ⟨hold, hunhanded⟩ := List.mem_filter.mp hold
    rcases hkeeps.kept trivial peer txid (h.held peer txid hold) with hstays | hhanded | hother
    · exact hstays
    · exact absurd hhanded (of_decide_eq_true hunhanded)
    · exact absurd (of_decide_eq_true horigin) hother
  · exact hkeeps.added peer txid hadded

end Calls

/-- **Orphans are looked at again if the budget covers them**: any calls succeed, and an orphan put
in the work set of its peer stays there until it is handed to the mempool. -/
theorem owed_mem_workSet (getHash : CTransaction → Uint256) (ops : List Op)
    (h : Along getHash (fun o op => op.Allowed o ∧ op.Covered o) .start ops) :
    ∃ w, ops.foldlM (call getHash) .start = .ok w ∧
      ∀ peer txid, (peer, txid) ∈ w.owed → txid ∈ w.orphanage.workSet peer := by
  have hstart : Watched.start.Held getHash := ⟨agree_empty, by simp [Watched.start]⟩
  have hstep : ∀ w op, w.Held getHash → op.Allowed w.orphanage ∧ op.Covered w.orphanage →
      ∃ w', call getHash w op = .ok w' ∧ w'.Held getHash := by
    intro w op hw hop
    obtain ⟨e, he, hkeeps⟩ := exists_exec hw.agree op hop.1
    exact ⟨w.after e, by rw [call, he]; rfl,
      hw.after ⟨hkeeps.agree, hkeeps.added, fun _ => hkeeps.kept hop.2⟩⟩
  obtain ⟨w, hrun, hheld⟩ := exists_calls hstep hstart h
  exact ⟨w, hrun, hheld.held⟩

section Sample

def sampleHash (tx : CTransaction) : Uint256 := uint256S tx.nLockTime.toNat

def spendingFirst (parent : Txid) (version : Int32) (out : CTxOut) (nLockTime : UInt32) :
    CTransaction where
  nVersion := version
  vin := [⟨⟨parent, 0⟩, [], CTxIn.SEQUENCE_FINAL, [], .null⟩]
  vout := [out]
  nLockTime := nLockTime

def confidentialOut : CTxOut :=
  ⟨⟨8 :: List.replicate 32 0⟩, ⟨2 :: List.replicate 32 0⟩, List.replicate 64 0, [OP_TRUE]⟩

def parentTx : CTransaction := spendingFirst (uint256S 9) 2 (.ofAmount 1000 [OP_TRUE]) 1

def orphanTx : CTransaction := spendingFirst (uint256S 1) CT_VERSION confidentialOut 2

def sampleOps (tokens : Int) : List Op :=
  [.addTx orphanTx 7 1000, .addChildrenToWorkSet parentTx,
    .processOrphanTx 7 ⟨tokens, 0⟩ fun _ => ⟨0, .TX_MISSING_INPUTS⟩]

theorem exists_calls_agree_sampleOps :
    Along sampleHash (fun o op => op.Allowed o) .start (sampleOps 63) ∧
      ∃ w, (sampleOps 63).foldlM (call sampleHash) .start = .ok w ∧ Agree sampleHash w.orphanage := by
  have halong : Along sampleHash (fun o op => op.Allowed o) .start (sampleOps 63) :=
    ⟨trivial, fun _ _ => ⟨trivial, fun _ _ => ⟨trivial, fun _ _ => trivial⟩⟩⟩
  exact ⟨halong, exists_calls_agree sampleHash _ halong⟩

/-- With 64 tokens the orphan is handed over; then its parent comes again. -/
def coveredOps : List Op := sampleOps 64 ++ [.addChildrenToWorkSet parentTx]

theorem owed_mem_workSet_coveredOps :
    Along sampleHash (fun o op => op.Allowed o ∧ op.Covered o) .start coveredOps ∧
      ∃ w, coveredOps.foldlM (call sampleHash) .start = .ok w ∧
        (7, sampleHash orphanTx) ∈ w.owed ∧ sampleHash orphanTx ∈ w.orphanage.workSet 7 := by
  have halong : Along sampleHash (fun o op => op.Allowed o ∧ op.Covered o) .start coveredOps := by
    refine ⟨⟨trivial, trivial⟩, ?_⟩
    intro w₁ hw₁
    obtain rfl : _ = w₁ := Except.ok.inj hw₁
    refine ⟨⟨trivial, trivial⟩, ?_⟩
    intro w₂ hw₂
    obtain rfl : _ = w₂ := Except.ok.inj hw₂
    refine ⟨⟨trivial, ?_⟩, fun _ _ => ⟨⟨trivial, trivial⟩, fun _ _ => trivial⟩⟩
    unfold Op.Covered
    decide +kernel
  obtain ⟨w, hrun, hheld⟩ := owed_mem_workSet sampleHash _ halong
  have howed : (coveredOps.foldlM (call sampleHash) .start).map
      (fun w => decide ((7, sampleHash orphanTx) ∈ w.owed)) = .ok true := by
    decide +kernel
  rw [hrun] at howed
  have howed' := of_decide_eq_true (Except.ok.inj howed)
  exact ⟨halong, w, hrun, howed', hheld _ _ howed'⟩

/-- With one token less than the range proof needs, `ProcessOrphanTx` takes the orphan out of the work
set and does not hand it over. -/
theorem deferred_orphan_not_mem_workSet :
    Along sampleHash (fun o op => op.Allowed o) .start (sampleOps 63) ∧
      ∃ w, (sampleOps 63).foldlM (call sampleHash) .start = .ok w ∧
        (7, sampleHash orphanTx) ∈ w.owed ∧ sampleHash orphanTx ∉ w.orphanage.workSet 7 := by
  refine ⟨⟨trivial, fun _ _ => ⟨trivial, fun _ _ => ⟨trivial, fun _ _ => trivial⟩⟩⟩, ?_⟩
  have hlost : ((sampleOps 63).foldlM (call sampleHash) .start).map (fun w =>
      decide ((7, sampleHash orphanTx) ∈ w.owed ∧ sampleHash orphanTx ∉ w.orphanage.workSet 7)) =
      .ok true := by
    decide +kernel
  obtain ⟨w, hrun, hw⟩ := map_eq_ok.mp hlost
  exact ⟨w, hrun, of_decide_eq_true hw⟩

end Sample

end Rcpu.Orphanage
