import Rcpu.Recency
import Rcpu.WeightedMap

/-!
# The LRU cache of the proof-of-work code

`LRUCache` of `pow.cpp`: a list of keys, most recently used first, and a map from a key to its value and
an iterator into the list.  An iterator is the identity of a node; a call that uses one whose node is
gone has no result.
-/

namespace Rcpu.LruCache

open Recency WeightedMap

structure Node (Key : Type) where
  id : Nat
  key : Key

structure LRUCache (Key Value : Type) where
  m_capacity : Nat
  m_list : List (Node Key)
  m_map : Map Key (Value × Nat)
  nextId : Nat

namespace LRUCache

variable {Key Value : Type}

def new (capacity : Nat) : LRUCache Key Value :=
  { m_capacity := if capacity ≠ 0 then capacity else 1, m_list := [], m_map := ∅, nextId := 0 }

/-- `m_list.splice(m_list.begin(), m_list, it)`. -/
def spliceFront (m_list : List (Node Key)) (it : Nat) : Option (List (Node Key)) :=
  match m_list.find? fun node => node.id = it with
  | some node => some (node :: m_list.filter fun node => node.id ≠ it)
  | none => none

variable [DecidableEq Key]

def size (c : LRUCache Key Value) : Nat := c.m_map.keys.card

def contains (c : LRUCache Key Value) (key : Key) : Bool := (c.m_map.lookup key).isSome

def pushFront (c : LRUCache Key Value) (key : Key) (value : Value) : LRUCache Key Value :=
  { c with
    m_list := ⟨c.nextId, key⟩ :: c.m_list
    m_map := c.m_map.insert key (value, c.nextId)
    nextId := c.nextId + 1 }

def insert (c : LRUCache Key Value) (key : Key) (value : Value) : Option (LRUCache Key Value) :=
  match c.m_map.lookup key with
  | some (_, it) => do
    let m_list ← spliceFront c.m_list it
    return { c with m_list := m_list, m_map := c.m_map.insert key (value, it) }
  | none =>
    let c := c.pushFront key value
    if c.size > c.m_capacity then do
      let evict := (← c.m_list.getLast?).key
      return { c with m_list := c.m_list.dropLast, m_map := c.m_map.erase evict }
    else some c

def get (c : LRUCache Key Value) (key : Key) : Option (LRUCache Key Value × Except String Value) :=
  match c.m_map.lookup key with
  | none => some (c, .error "LRUCache: key not present")
  | some (value, it) => do
    let m_list ← spliceFront c.m_list it
    return ({ c with m_list := m_list }, .ok value)

def tryGet (c : LRUCache Key Value) (key : Key) : Option (LRUCache Key Value × Option Value) :=
  match c.m_map.lookup key with
  | none => some (c, none)
  | some (value, it) => do
    let m_list ← spliceFront c.m_list it
    return ({ c with m_list := m_list }, some value)

def clear (c : LRUCache Key Value) : LRUCache Key Value := { c with m_list := [], m_map := ∅ }

def keys (c : LRUCache Key Value) : List Key := c.m_list.map Node.key

/-! ### The list and the map -/

/-- Every node has an identity of its own, and the map points exactly at the nodes of the list. -/
structure Coherent (c : LRUCache Key Value) : Prop where
  ids_nodup : (c.m_list.map Node.id).Nodup
  ids_lt : ∀ node ∈ c.m_list, node.id < c.nextId
  linked : ∀ node, node ∈ c.m_list ↔ ∃ value, c.m_map.lookup node.key = some (value, node.id)

namespace Coherent

variable {c : LRUCache Key Value} (hc : Coherent c)
include hc

theorem eq_of_key_eq {node node' : Node Key} (h : node ∈ c.m_list) (h' : node' ∈ c.m_list)
    (hkey : node.key = node'.key) : node = node' := by
  obtain ⟨value, hlookup⟩ := (hc.linked node).mp h
  obtain ⟨value', hlookup'⟩ := (hc.linked node').mp h'
  rw [hkey, hlookup'] at hlookup
  cases node
  cases node'
  simp only [Option.some.injEq, Prod.mk.injEq] at hlookup hkey
  rw [hkey, hlookup.2]

theorem keys_nodup : c.keys.Nodup :=
  hc.ids_nodup.of_map.map_on fun _ h _ h' hkey => hc.eq_of_key_eq h h' hkey

theorem mem_keys_iff (key : Key) : key ∈ c.keys ↔ key ∈ c.m_map := by
  rw [keys, List.mem_map, ← Finmap.lookup_isSome, Option.isSome_iff_exists]
  constructor
  · rintro ⟨node, hmem, rfl⟩
    obtain ⟨value, hlookup⟩ := (hc.linked node).mp hmem
    exact ⟨_, hlookup⟩
  · rintro ⟨⟨value, it⟩, hlookup⟩
    exact ⟨⟨it, key⟩, (hc.linked ⟨it, key⟩).mpr ⟨value, hlookup⟩, rfl⟩

theorem size_eq : c.size = c.keys.length := by
  have hkeys : c.m_map.keys = c.keys.toFinset := by
    ext key
    rw [Finmap.mem_keys, List.mem_toFinset, hc.mem_keys_iff]
  rw [size, hkeys, List.toFinset_card_of_nodup hc.keys_nodup]

variable {key : Key} {value : Value} {it : Nat}

theorem id_eq_iff (hlookup : c.m_map.lookup key = some (value, it)) {node : Node Key}
    (hmem : node ∈ c.m_list) : node.id = it ↔ node.key = key := by
  have hkey : (⟨it, key⟩ : Node Key) ∈ c.m_list := (hc.linked ⟨it, key⟩).mpr ⟨value, hlookup⟩
  constructor
  · intro hid
    exact congrArg Node.key (List.inj_on_of_nodup_map hc.ids_nodup hmem hkey hid)
  · intro h
    exact congrArg Node.id (hc.eq_of_key_eq hmem hkey h)

theorem filter_id_keys (hlookup : c.m_map.lookup key = some (value, it)) :
    (c.m_list.filter fun node => node.id ≠ it).map Node.key = c.keys.erase key := by
  have hsame : c.m_list.filter (fun node => node.id ≠ it)
      = c.m_list.filter ((fun k => k != key) ∘ Node.key) := by
    apply List.filter_congr
    intro node hmem
    rw [Function.comp_apply, Bool.eq_iff_iff, decide_eq_true_iff, bne_iff_ne, ne_eq,
      hc.id_eq_iff hlookup hmem]
  rw [hc.keys_nodup.erase_eq_filter, keys, List.filter_map, hsame]

/-- Iterators in the map are valid, and the splice moves the key to the front. -/
theorem spliceFront_spec (hlookup : c.m_map.lookup key = some (value, it)) :
    ∃ m_list, spliceFront c.m_list it = some m_list ∧
      (∀ node, node ∈ m_list ↔ node ∈ c.m_list) ∧ (m_list.map Node.id).Nodup ∧
      m_list.map Node.key = touch key c.keys := by
  have hnode : (⟨it, key⟩ : Node Key) ∈ c.m_list := (hc.linked ⟨it, key⟩).mpr ⟨value, hlookup⟩
  have hfind : c.m_list.find? (fun node => node.id = it) = some ⟨it, key⟩ := by
    obtain ⟨node, hfind⟩ := Option.isSome_iff_exists.mp
      (List.find?_isSome (p := fun node => decide (node.id = it)) |>.mpr ⟨_, hnode, decide_eq_true rfl⟩)
    have hmem := List.mem_of_find?_eq_some hfind
    have hid : node.id = it := of_decide_eq_true
      (List.find?_some (p := fun node : Node Key => decide (node.id = it)) hfind)
    rw [hfind, List.inj_on_of_nodup_map hc.ids_nodup hmem hnode hid]
  refine ⟨_, by rw [spliceFront, hfind], ?_, ?_, ?_⟩
  · intro node
    rw [List.mem_cons, List.mem_filter, decide_eq_true_iff]
    constructor
    · rintro (rfl | ⟨hmem, -⟩)
      · exact hnode
      · exact hmem
    · intro hmem
      by_cases hid : node.id = it
      · exact .inl (List.inj_on_of_nodup_map hc.ids_nodup hmem hnode hid)
      · exact .inr ⟨hmem, hid⟩
  · rw [List.map_cons, List.nodup_cons]
    constructor
    · intro hmem
      obtain ⟨node, hnode, hid⟩ := List.mem_map.mp hmem
      exact of_decide_eq_true (List.mem_filter.mp hnode).2 hid
    · exact hc.ids_nodup.sublist (List.filter_sublist.map _)
  · rw [List.map_cons, hc.filter_id_keys hlookup, touch]

theorem of_mem_iff {m_list : List (Node Key)} {m_map : Map Key (Value × Nat)}
    (hnodes : ∀ node, node ∈ m_list ↔ node ∈ c.m_list) (hids : (m_list.map Node.id).Nodup)
    (hmap : ∀ key it, (∃ value, m_map.lookup key = some (value, it)) ↔
      ∃ value, c.m_map.lookup key = some (value, it)) :
    Coherent { c with m_list := m_list, m_map := m_map } where
  ids_nodup := hids
  ids_lt := fun node hmem => hc.ids_lt node ((hnodes node).mp hmem)
  linked := fun node => by rw [hnodes, hc.linked, hmap]

theorem pushFront (hlookup : c.m_map.lookup key = none) (value : Value) :
    Coherent (c.pushFront key value) where
  ids_nodup := by
    rw [LRUCache.pushFront, List.map_cons, List.nodup_cons]
    refine ⟨?_, hc.ids_nodup⟩
    intro hmem
    obtain ⟨node, hnode, hid⟩ := List.mem_map.mp hmem
    exact absurd (hc.ids_lt node hnode) (hid ▸ Nat.lt_irrefl _)
  ids_lt := by
    intro node hmem
    rcases List.mem_cons.mp hmem with rfl | hmem
    · exact Nat.lt_succ_self _
    · exact Nat.lt_succ_of_lt (hc.ids_lt node hmem)
  linked := by
    rintro ⟨id, k⟩
    rw [LRUCache.pushFront, List.mem_cons]
    by_cases hk : k = key
    · subst hk
      have hold : (⟨id, k⟩ : Node Key) ∉ c.m_list := by
        intro hmem
        obtain ⟨value, h⟩ := (hc.linked _).mp hmem
        rw [hlookup] at h
        cases h
      simp only [Finmap.lookup_insert, hold, or_false, Node.mk.injEq, and_true, Option.some.injEq,
        Prod.mk.injEq, exists_eq_left', eq_comm]
    · have hnew : (⟨id, k⟩ : Node Key) ≠ ⟨c.nextId, key⟩ := fun h => hk (congrArg Node.key h)
      rw [Finmap.lookup_insert_of_ne _ hk, ← hc.linked ⟨id, k⟩]
      simp only [hnew, false_or]

theorem pop_back {front : List (Node Key)} {last : Node Key} (hlist : c.m_list = front ++ [last]) :
    Coherent { c with m_list := front, m_map := c.m_map.erase last.key } where
  ids_nodup := by
    have h := hc.ids_nodup
    rw [hlist, List.map_append] at h
    exact h.of_append_left
  ids_lt := by
    intro node hmem
    exact hc.ids_lt node (hlist ▸ List.mem_append_left _ hmem)
  linked := by
    intro node
    have hlast : last ∈ c.m_list := hlist ▸ List.mem_append_right _ (List.mem_singleton_self last)
    by_cases hkey : node.key = last.key
    · have hgone : node ∉ front := by
        intro hmem
        have heq : node = last :=
          hc.eq_of_key_eq (hlist ▸ List.mem_append_left _ hmem) hlast hkey
        have hnodup := hc.ids_nodup.of_map
        rw [hlist, List.nodup_append] at hnodup
        exact hnodup.2.2 node hmem last (List.mem_singleton_self last) heq
      rw [hkey, Finmap.lookup_erase]
      simp only [hgone, reduceCtorEq, exists_false]
    · rw [Finmap.lookup_erase_ne hkey, ← hc.linked node, hlist, List.mem_append, List.mem_singleton]
      have hne : node ≠ last := fun h => hkey (congrArg Node.key h)
      simp only [hne, or_false]

end Coherent

/-! ### Calls -/

end LRUCache

inductive Call (Key Value : Type) where
  | insert (key : Key) (value : Value)
  | get (key : Key)
  | tryGet (key : Key)
  | contains (key : Key)
  | clear
  | size

inductive Reply (Value : Type) where
  | done
  | got (result : Except String Value)
  | tried (value : Option Value)
  | contained (present : Bool)
  | counted (size : Nat)

section Runs

variable {Key Value : Type} [DecidableEq Key]

def LRUCache.call (c : LRUCache Key Value) :
    Call Key Value → Option (LRUCache Key Value × Reply Value)
  | .insert key value => do
    let c ← c.insert key value
    return (c, .done)
  | .get key => do
    let (c, result) ← c.get key
    return (c, .got result)
  | .tryGet key => do
    let (c, value) ← c.tryGet key
    return (c, .tried value)
  | .contains key => some (c, .contained (c.contains key))
  | .clear => some (c.clear, .done)
  | .size => some (c, .counted c.size)

def LRUCache.run (c : LRUCache Key Value) :
    List (Call Key Value) → Option (LRUCache Key Value × List (Call Key Value × Reply Value))
  | [] => some (c, [])
  | call :: calls => do
    let (c, reply) ← c.call call
    let (c, trace) ← c.run calls
    return (c, (call, reply) :: trace)

def uses (before : List Key) (event : Call Key Value × Reply Value) : List Key :=
  match event with
  | (.insert key _, _) => key :: before
  | (.get key, .got (.ok _)) => key :: before
  | (.tryGet key, .tried (some _)) => key :: before
  | (.clear, _) => []
  | _ => before

def Call.inserted (key : Key) : Call Key Value → Option Value
  | .insert k value => if k = key then some value else none
  | _ => none

def lastInserted (calls : List (Call Key Value)) (key : Key) : Option Value :=
  (calls.filterMap (Call.inserted key)).getLast?

theorem lastInserted_cons (call : Call Key Value) (calls : List (Call Key Value)) (key : Key) :
    lastInserted (call :: calls) key = (lastInserted calls key).or (call.inserted key) := by
  rw [lastInserted, List.filterMap_cons, lastInserted]
  cases call.inserted key with
  | none => rw [Option.or_none]
  | some value =>
    rw [List.getLast?_cons]
    cases (calls.filterMap (Call.inserted key)).getLast? with
    | none => rfl
    | some _ => rfl

/-! ### What a cache remembers -/

/-- The cache after the uses `us`, when `last` has the values last inserted. -/
structure Remembers (capacity : Nat) (c : LRUCache Key Value) (us : List Key)
    (last : Key → Option Value) : Prop where
  coherent : c.Coherent
  capacity_eq : c.m_capacity = max capacity 1
  keys_eq : c.keys = (recent us).take c.m_capacity
  values : ∀ key value it, c.m_map.lookup key = some (value, it) → last key = some value

theorem remembers_new (capacity : Nat) :
    Remembers capacity (LRUCache.new capacity : LRUCache Key Value) [] fun _ => none where
  coherent := by
    refine ⟨List.nodup_nil, fun _ h => absurd h List.not_mem_nil, fun node => ?_⟩
    simp only [LRUCache.new, List.not_mem_nil, Finmap.lookup_empty, reduceCtorEq, exists_false]
  capacity_eq := by
    show (if capacity ≠ 0 then capacity else 1) = max capacity 1
    split <;> omega
  keys_eq := List.take_nil.symm
  values := by
    intro key value it h
    rw [LRUCache.new, Finmap.lookup_empty] at h
    cases h

namespace Remembers

variable {capacity : Nat} {c : LRUCache Key Value} {us : List Key} {last : Key → Option Value}
  (hr : Remembers capacity c us last)
include hr

theorem length_keys_le : c.keys.length ≤ c.m_capacity := by
  rw [hr.keys_eq]
  exact List.length_take_le _ _

theorem take_touch (key : Key) : (touch key c.keys).take c.m_capacity
    = (recent (key :: us)).take c.m_capacity := by
  rw [hr.keys_eq, take_touch_take, recent]

variable {key : Key} {it : Nat} {old : Value} {last' : Key → Option Value}

/-- The key of an entry moves to the front; the map may change in its values only. -/
theorem splice (hlookup : c.m_map.lookup key = some (old, it)) {m_map : Map Key (Value × Nat)}
    (hmap : ∀ key it, (∃ value, m_map.lookup key = some (value, it)) ↔
      ∃ value, c.m_map.lookup key = some (value, it))
    (hvalues : ∀ key value it, m_map.lookup key = some (value, it) → last' key = some value) :
    ∃ m_list, LRUCache.spliceFront c.m_list it = some m_list ∧
      Remembers capacity { c with m_list := m_list, m_map := m_map } (key :: us) last' := by
  obtain ⟨m_list, hsplice, hnodes, hids, hkeys⟩ := hr.coherent.spliceFront_spec hlookup
  refine ⟨m_list, hsplice, hr.coherent.of_mem_iff hnodes hids hmap, hr.capacity_eq, ?_, hvalues⟩
  have hmem : key ∈ c.keys := by
    rw [hr.coherent.mem_keys_iff, ← Finmap.lookup_isSome, hlookup]
    rfl
  have hlength : (touch key c.keys).length ≤ c.m_capacity := by
    rw [length_touch_of_mem hmem]
    exact hr.length_keys_le
  show m_list.map Node.key = _
  rw [hkeys, ← hr.take_touch, List.take_of_length_le hlength]

omit hr in
theorem values_insert {m_map : Map Key (Value × Nat)} {value : Value}
    (hvalues : ∀ key value it, m_map.lookup key = some (value, it) → last key = some value)
    {k : Key} {v : Value} {i : Nat} (h : (m_map.insert key (value, it)).lookup k = some (v, i)) :
    (if key = k then some value else none).or (last k) = some v := by
  by_cases hk : key = k
  · subst hk
    rw [Finmap.lookup_insert] at h
    cases h
    rw [if_pos rfl, Option.some_or]
  · rw [Finmap.lookup_insert_of_ne _ (Ne.symm hk)] at h
    rw [if_neg hk, Option.none_or]
    exact hvalues k v i h

/-- A new key is pushed to the front, and the last one dropped when there is no room for it. -/
theorem push (hlookup : c.m_map.lookup key = none) (value : Value) :
    ∃ c', c.insert key value = some c' ∧
      Remembers capacity c' (key :: us) (fun k => (if key = k then some value else none).or (last k)) := by
  have hpush := hr.coherent.pushFront hlookup value
  have hnew : key ∉ c.keys := by
    rw [hr.coherent.mem_keys_iff, ← Finmap.lookup_isSome, hlookup]
    exact Bool.false_ne_true
  have htake : (key :: c.keys).take c.m_capacity = (recent (key :: us)).take c.m_capacity := by
    rw [← hr.take_touch, touch, List.erase_of_not_mem hnew]
  have hsize : (c.pushFront key value).size = c.keys.length + 1 := hpush.size_eq
  have hvalues : ∀ k v i, (c.pushFront key value).m_map.lookup k = some (v, i) →
      (if key = k then some value else none).or (last k) = some v :=
    fun k v i h => values_insert hr.values h
  simp only [LRUCache.insert, hlookup, hsize]
  by_cases hfull : c.keys.length + 1 > (c.pushFront key value).m_capacity
  · rw [if_pos hfull]
    obtain ⟨front, node, hlist⟩ := List.eq_nil_or_concat' (c.pushFront key value).m_list |>.resolve_left
      (List.cons_ne_nil _ _)
    have hkeys : front.map Node.key ++ [node.key] = key :: c.keys := by
      rw [← List.map_singleton, ← List.map_append, ← hlist]
      rfl
    have hlength : (front.map Node.key).length = c.m_capacity := by
      have hroom := hr.length_keys_le
      have hcount := congrArg List.length hkeys
      rw [List.length_append, List.length_singleton, List.length_cons] at hcount
      exact (Nat.succ.inj hcount).trans (Nat.le_antisymm hroom (Nat.lt_succ_iff.mp hfull))
    simp only [hlist, List.getLast?_concat, List.dropLast_concat, Option.bind_eq_bind,
      Option.bind_some]
    refine ⟨_, rfl, hpush.pop_back hlist, hr.capacity_eq, ?_, ?_⟩
    · show front.map Node.key = (recent (key :: us)).take c.m_capacity
      rw [← htake, ← hkeys, List.take_left' hlength]
    · intro k v i h
      by_cases hk : k = node.key
      · rw [hk, Finmap.lookup_erase] at h
        cases h
      · rw [Finmap.lookup_erase_ne hk] at h
        exact hvalues k v i h
  · rw [if_neg hfull]
    refine ⟨_, rfl, hpush, hr.capacity_eq, ?_, hvalues⟩
    show key :: c.keys = (recent (key :: us)).take c.m_capacity
    rw [← htake, List.take_of_length_le (Nat.not_lt.mp hfull)]

theorem insert (key : Key) (value : Value) :
    ∃ c', c.insert key value = some c' ∧
      Remembers capacity c' (key :: us) (fun k => (if key = k then some value else none).or (last k)) := by
  cases hlookup : c.m_map.lookup key with
  | none => exact hr.push hlookup value
  | some entry =>
    obtain ⟨old, it⟩ := entry
    have hmap : ∀ k i, (∃ v, (c.m_map.insert key (value, it)).lookup k = some (v, i)) ↔
        ∃ v, c.m_map.lookup k = some (v, i) := by
      intro k i
      by_cases hk : k = key
      · subst hk
        rw [Finmap.lookup_insert, hlookup]
        simp only [Option.some.injEq, Prod.mk.injEq, exists_eq_left']
      · rw [Finmap.lookup_insert_of_ne _ hk]
    obtain ⟨m_list, hsplice, hnext⟩ := hr.splice hlookup hmap fun _ _ _ h => values_insert hr.values h
    refine ⟨_, ?_, hnext⟩
    simp only [LRUCache.insert, hlookup, hsplice, Option.bind_eq_bind, Option.bind_some, pure]

theorem clear : Remembers capacity c.clear [] last where
  coherent := by
    refine ⟨List.nodup_nil, fun _ h => absurd h List.not_mem_nil, fun node => ?_⟩
    simp only [LRUCache.clear, List.not_mem_nil, Finmap.lookup_empty, reduceCtorEq, exists_false]
  capacity_eq := hr.capacity_eq
  keys_eq := List.take_nil.symm
  values := by
    intro key value it h
    rw [LRUCache.clear, Finmap.lookup_empty] at h
    cases h

theorem call (call : Call Key Value) :
    ∃ c' reply, c.call call = some (c', reply) ∧
      Remembers capacity c' (uses us (call, reply)) (fun key => (call.inserted key).or (last key)) := by
  cases call with
  | insert key value =>
    obtain ⟨c', hinsert, hnext⟩ := hr.insert key value
    refine ⟨c', .done, ?_, hnext⟩
    rw [LRUCache.call, hinsert]
    rfl
  | get key =>
    cases hlookup : c.m_map.lookup key with
    | none =>
      refine ⟨c, .got (.error "LRUCache: key not present"), ?_, hr⟩
      simp only [LRUCache.call, LRUCache.get, hlookup, Option.bind_eq_bind, Option.bind_some, pure]
    | some entry =>
      obtain ⟨value, it⟩ := entry
      obtain ⟨m_list, hsplice, hnext⟩ := hr.splice hlookup (fun _ _ => Iff.rfl) hr.values
      refine ⟨{ c with m_list := m_list }, .got (.ok value), ?_, hnext⟩
      simp only [LRUCache.call, LRUCache.get, hlookup, hsplice, Option.bind_eq_bind, Option.bind_some, pure]
  | tryGet key =>
    cases hlookup : c.m_map.lookup key with
    | none =>
      refine ⟨c, .tried none, ?_, hr⟩
      simp only [LRUCache.call, LRUCache.tryGet, hlookup, Option.bind_eq_bind, Option.bind_some, pure]
    | some entry =>
      obtain ⟨value, it⟩ := entry
      obtain ⟨m_list, hsplice, hnext⟩ := hr.splice hlookup (fun _ _ => Iff.rfl) hr.values
      refine ⟨{ c with m_list := m_list }, .tried (some value), ?_, hnext⟩
      simp only [LRUCache.call, LRUCache.tryGet, hlookup, hsplice, Option.bind_eq_bind, Option.bind_some,
        pure]
  | contains key => exact ⟨c, _, rfl, hr⟩
  | clear => exact ⟨c.clear, _, rfl, hr.clear⟩
  | size => exact ⟨c, _, rfl, hr⟩

theorem run (calls : List (Call Key Value)) :
    ∃ c' trace, c.run calls = some (c', trace) ∧
      Remembers capacity c' (trace.foldl uses us)
        (fun key => (lastInserted calls key).or (last key)) := by
  induction calls generalizing c us last with
  | nil => exact ⟨c, [], rfl, hr⟩
  | cons call calls ih =>
    obtain ⟨c₁, reply, hcall, hnext⟩ := hr.call call
    obtain ⟨c', trace, hrun, hlast⟩ := ih hnext
    refine ⟨c', (call, reply) :: trace, ?_, ?_⟩
    · simp only [LRUCache.run, hcall, hrun, Option.bind_eq_bind, Option.bind_some, pure]
    · simp only [lastInserted_cons, Option.or_assoc]
      exact hlast

theorem contains_iff (key : Key) :
    c.contains key = true ↔ MostRecent (max capacity 1) us key := by
  rw [LRUCache.contains, Finmap.lookup_isSome, ← hr.coherent.mem_keys_iff, hr.keys_eq, hr.capacity_eq,
    mem_take_recent_iff]

theorem lookup_of_contains {key : Key} (h : c.contains key = true) :
    ∃ value, last key = some value ∧ (∃ c', c.get key = some (c', .ok value)) ∧
      ∃ c', c.tryGet key = some (c', some value) := by
  obtain ⟨⟨value, it⟩, hlookup⟩ := Option.isSome_iff_exists.mp h
  obtain ⟨m_list, hsplice, -⟩ := hr.splice hlookup (fun _ _ => Iff.rfl) hr.values
  refine ⟨value, hr.values key value it hlookup, ⟨{ c with m_list := m_list }, ?_⟩,
    ⟨{ c with m_list := m_list }, ?_⟩⟩
  · simp only [LRUCache.get, hlookup, hsplice, Option.bind_eq_bind, Option.bind_some, pure]
  · simp only [LRUCache.tryGet, hlookup, hsplice, Option.bind_eq_bind, Option.bind_some, pure]

omit hr in
theorem lookup_of_not_contains {key : Key} (h : c.contains key = false) :
    c.get key = some (c, .error "LRUCache: key not present") ∧ c.tryGet key = some (c, none) := by
  have hlookup : c.m_map.lookup key = none :=
    Option.isNone_iff_eq_none.mp (Option.isSome_eq_false_iff.mp h)
  simp only [LRUCache.get, LRUCache.tryGet, hlookup, and_self]

end Remembers

/-- After any calls a key is found exactly when it is among the `max capacity 1` most recently used
ones, with the value last inserted for it. -/
theorem lookup_mostRecent (capacity : Nat) (calls : List (Call Key Value)) :
    ∃ (c : LRUCache Key Value) (trace : List (Call Key Value × Reply Value)),
      (LRUCache.new capacity).run calls = some (c, trace) ∧
      c.keys.Nodup ∧ (∀ key, key ∈ c.keys ↔ key ∈ c.m_map) ∧ c.size ≤ max capacity 1 ∧
      ∀ key,
        (MostRecent (max capacity 1) (trace.foldl uses []) key →
          c.contains key = true ∧
          ∃ value, lastInserted calls key = some value ∧ (∃ c', c.get key = some (c', .ok value)) ∧
            ∃ c', c.tryGet key = some (c', some value)) ∧
        (¬ MostRecent (max capacity 1) (trace.foldl uses []) key →
          c.contains key = false ∧ c.get key = some (c, .error "LRUCache: key not present") ∧
            c.tryGet key = some (c, none)) := by
  have hnew : Remembers capacity (LRUCache.new capacity : LRUCache Key Value) [] fun _ => none :=
    remembers_new capacity
  obtain ⟨c, trace, hrun, hr⟩ := hnew.run calls
  refine ⟨c, trace, hrun, hr.coherent.keys_nodup, hr.coherent.mem_keys_iff, ?_, ?_⟩
  · rw [hr.coherent.size_eq, ← hr.capacity_eq]
    exact hr.length_keys_le
  · intro key
    constructor
    · intro hrecent
      have hcontains := (hr.contains_iff key).mpr hrecent
      obtain ⟨value, hlast, hlookup⟩ := hr.lookup_of_contains hcontains
      rw [Option.or_none] at hlast
      exact ⟨hcontains, value, hlast, hlookup⟩
    · intro hold
      have hcontains : c.contains key = false := Bool.eq_false_iff.mpr (mt (hr.contains_iff key).mp hold)
      exact ⟨hcontains, Remembers.lookup_of_not_contains hcontains⟩

end Runs

/-- Capacity zero counts as one: the second key replaces the first. -/
theorem lookup_mostRecent_zero :
    ∃ (c : LRUCache Nat Nat) (trace : List (Call Nat Nat × Reply Nat)),
      (LRUCache.new 0).run [.insert 1 10, .insert 2 20] = some (c, trace) ∧
        c.contains 2 = true ∧ c.contains 1 = false := by
  obtain ⟨c, trace, hrun, -, -, -, hlookup⟩ := lookup_mostRecent 0 [.insert 1 10, .insert 2 20]
  have htrace : trace = [(.insert 1 10, .done), (.insert 2 20, .done)] := by
    have hsome : ((LRUCache.new 0 : LRUCache Nat Nat).run [.insert 1 10, .insert 2 20]).map Prod.snd
        = some [(.insert 1 10, .done), (.insert 2 20, .done)] := rfl
    rw [hrun] at hsome
    exact Option.some.inj hsome
  subst htrace
  exact ⟨c, _, hrun, ((hlookup 2).1 (by decide)).1, ((hlookup 1).2 (by decide)).1⟩

end Rcpu.LruCache
