import Mathlib.Data.Finmap
import Mathlib.Data.List.Forall2
import Mathlib.Algebra.BigOperators.Group.Multiset.Basic
import Mathlib.Algebra.Group.Int.Defs
import Mathlib.Algebra.Order.Group.Int
import Mathlib.Tactic.Abel

/-!
# Finite maps with weighted entries

The total weight of a finite map, and how inserting and erasing entries changes it.  A ledger is
such a map; the weight of an entry is the value it holds.
-/

namespace Rcpu.WeightedMap

variable {κ α : Type*}

abbrev Map (κ α : Type*) := Finmap fun _ : κ => α

def total (w : α → Int) (m : Map κ α) : Int := (m.entries.map fun e => w e.2).sum

@[simp] theorem total_empty (w : α → Int) : total w (∅ : Map κ α) = 0 := by
  simp [total, EmptyCollection.emptyCollection]

variable [DecidableEq κ] {w : α → Int} {m : Map κ α} {k : κ} {a : α}

theorem total_insert_of_lookup_eq_none (h : m.lookup k = none) :
    total w (m.insert k a) = total w m + w a := by
  rw [total, Finmap.entries_insert_of_notMem (Finmap.lookup_eq_none.mp h)]
  simp [total, add_comm]

theorem insert_erase (h : m.lookup k = some a) : (m.erase k).insert k a = m := by
  apply Finmap.ext_lookup
  intro j
  by_cases hj : j = k
  · subst hj
    rw [Finmap.lookup_insert, h]
  · rw [Finmap.lookup_insert_of_ne _ hj, Finmap.lookup_erase_ne hj]

theorem insert_eq_insert_erase : m.insert k a = (m.erase k).insert k a := by
  apply Finmap.ext_lookup
  intro j
  by_cases hj : j = k
  · subst hj
    rw [Finmap.lookup_insert, Finmap.lookup_insert]
  · rw [Finmap.lookup_insert_of_ne _ hj, Finmap.lookup_insert_of_ne _ hj,
      Finmap.lookup_erase_ne hj]

theorem total_erase (h : m.lookup k = some a) : total w (m.erase k) = total w m - w a := by
  have hsum := total_insert_of_lookup_eq_none (w := w) (a := a) (Finmap.lookup_erase k m)
  rw [insert_erase h] at hsum
  rw [hsum]
  abel

/-- Inserting over an entry of nonnegative weight adds at most the new weight. -/
theorem total_insert_le (hw : ∀ b, m.lookup k = some b → 0 ≤ w b) :
    total w (m.insert k a) ≤ total w m + w a := by
  cases h : m.lookup k with
  | none => rw [total_insert_of_lookup_eq_none h]
  | some b =>
    have hb := hw b h
    rw [insert_eq_insert_erase, total_insert_of_lookup_eq_none (Finmap.lookup_erase k m),
      total_erase h]
    omega

/-! ### Entries and sums over them -/

def pairs (m : Map κ α) : Multiset (κ × α) := m.entries.map fun e => (e.1, e.2)

theorem mem_pairs : (k, a) ∈ pairs m ↔ m.lookup k = some a := by
  rw [Finmap.lookup_eq_some_iff, pairs, Multiset.mem_map]
  constructor
  · rintro ⟨⟨k', a'⟩, hmem, heq⟩
    simp only [Prod.mk.injEq] at heq
    obtain ⟨rfl, rfl⟩ := heq
    exact hmem
  · intro hmem
    exact ⟨⟨k, a⟩, hmem, rfl⟩

omit [DecidableEq κ] in
theorem nodup_pairs (m : Map κ α) : (pairs m).Nodup := by
  refine m.nodup_entries.map ?_
  rintro ⟨k, a⟩ ⟨k', a'⟩ heq
  simp only [Prod.mk.injEq] at heq
  obtain ⟨rfl, rfl⟩ := heq
  rfl

omit [DecidableEq κ] in
theorem nodup_keys_pairs (m : Map κ α) : ((pairs m).map Prod.fst).Nodup := by
  rw [pairs, Multiset.map_map]
  exact m.nodupKeys.nodup_keys

omit [DecidableEq κ] in
@[simp] theorem pairs_empty : pairs (∅ : Map κ α) = 0 := by
  simp [pairs, EmptyCollection.emptyCollection]

theorem pairs_insert (h : m.lookup k = none) : pairs (m.insert k a) = (k, a) ::ₘ pairs m := by
  rw [pairs, Finmap.entries_insert_of_notMem (Finmap.lookup_eq_none.mp h), Multiset.map_cons, pairs]

section Sum

variable {M : Type*} [AddCommMonoid M] {v : κ → α → M}

def sumOver (v : κ → α → M) (m : Map κ α) : M := ((pairs m).map fun e => v e.1 e.2).sum

omit [DecidableEq κ] in
@[simp] theorem sumOver_empty : sumOver v (∅ : Map κ α) = 0 := by
  simp [sumOver]

theorem sumOver_insert (h : m.lookup k = none) :
    sumOver v (m.insert k a) = v k a + sumOver v m := by
  rw [sumOver, pairs_insert h, Multiset.map_cons, Multiset.sum_cons, sumOver]

theorem sumOver_erase (h : m.lookup k = some a) :
    v k a + sumOver v (m.erase k) = sumOver v m := by
  rw [← sumOver_insert (Finmap.lookup_erase k m), insert_erase h]

theorem sumOver_insert_of_some {b : α} (h : m.lookup k = some b) :
    v k b + sumOver v (m.insert k a) = v k a + sumOver v m := by
  rw [insert_eq_insert_erase, sumOver_insert (Finmap.lookup_erase k m), add_left_comm,
    sumOver_erase h]

end Sum

/-! ### Changing every value -/

def mapValues {β : Type*} (f : κ → α → β) (m : Map κ α) : Map κ β where
  entries := m.entries.map fun e => ⟨e.1, f e.1 e.2⟩
  nodupKeys := by
    have hkeys : (m.entries.map fun e => (⟨e.1, f e.1 e.2⟩ : Sigma fun _ : κ => β)).keys =
        m.entries.keys := by
      rw [Multiset.keys, Multiset.map_map]
      rfl
    rw [← Multiset.nodup_keys, hkeys, Multiset.nodup_keys]
    exact m.nodupKeys

theorem lookup_mapValues {β : Type*} (f : κ → α → β) (m : Map κ α) (k : κ) :
    (mapValues f m).lookup k = (m.lookup k).map (f k) := by
  ext b
  rw [Finmap.lookup_eq_some_iff, Option.map_eq_some_iff, mapValues, Multiset.mem_map]
  constructor
  · rintro ⟨⟨k', a⟩, hmem, heq⟩
    simp only [Sigma.mk.injEq, heq_eq_eq] at heq
    obtain ⟨rfl, rfl⟩ := heq
    exact ⟨a, Finmap.lookup_eq_some_iff.mpr hmem, rfl⟩
  · rintro ⟨a, hlookup, rfl⟩
    exact ⟨⟨k, a⟩, Finmap.lookup_eq_some_iff.mp hlookup, rfl⟩

/-! ### Running sums -/

section Sums

/-- `m[k] += n`, where an absent key counts as zero. -/
def addAt (m : Map κ Int) (entry : κ × Int) : Map κ Int :=
  m.insert entry.1 ((m.lookup entry.1).getD 0 + entry.2)

def sumAt (k : κ) (entries : List (κ × Int)) : Int :=
  ((entries.filter fun entry => entry.1 = k).map Prod.snd).sum

theorem sumAt_cons (k : κ) (entry : κ × Int) (entries : List (κ × Int)) :
    sumAt k (entry :: entries) = (if entry.1 = k then entry.2 else 0) + sumAt k entries := by
  unfold sumAt
  by_cases hk : entry.1 = k
  · rw [List.filter_cons_of_pos (by simpa using hk), List.map_cons, List.sum_cons, if_pos hk]
  · rw [List.filter_cons_of_neg (by simpa using hk), if_neg hk, zero_add]

theorem getD_lookup_foldl_addAt (m : Map κ Int) (entries : List (κ × Int)) (k : κ) :
    ((entries.foldl addAt m).lookup k).getD 0 = (m.lookup k).getD 0 + sumAt k entries := by
  induction entries generalizing m with
  | nil => simp [sumAt]
  | cons entry entries ih =>
    rw [List.foldl_cons, ih, sumAt_cons, addAt]
    by_cases hk : entry.1 = k
    · rw [← hk, Finmap.lookup_insert, if_pos rfl, Option.getD_some, add_assoc]
    · rw [Finmap.lookup_insert_of_ne _ (Ne.symm hk), if_neg hk, zero_add]

/-- Lists with the same keys and amounts that are no larger. -/
def Below (entries entries' : List (κ × Int)) : Prop :=
  List.Forall₂ (fun entry entry' => entry'.1 = entry.1 ∧ entry'.2 ≤ entry.2) entries entries'

theorem Below.sumAt_le {entries entries' : List (κ × Int)} (h : Below entries entries') (k : κ) :
    sumAt k entries' ≤ sumAt k entries := by
  induction h with
  | nil => exact le_refl _
  | @cons entry entry' entries entries' hentry _ ih =>
    obtain ⟨hkey, hle⟩ := hentry
    rw [sumAt_cons, sumAt_cons, hkey]
    split_ifs
    · exact add_le_add hle ih
    · exact add_le_add (le_refl 0) ih

theorem Below.eq_of_sumAt {entries entries' : List (κ × Int)} (h : Below entries entries')
    (hsum : ∀ k, sumAt k entries' = sumAt k entries) : entries' = entries := by
  induction h with
  | nil => rfl
  | @cons entry entry' entries entries' hentry hrest ih =>
    obtain ⟨hkey, hle⟩ := hentry
    have hhead : entry'.2 = entry.2 := by
      have hsame := hsum entry.1
      rw [sumAt_cons, sumAt_cons, hkey, if_pos rfl, if_pos rfl] at hsame
      have htail := Below.sumAt_le hrest entry.1
      omega
    have heq : entry' = entry := Prod.ext hkey hhead
    rw [heq, ih]
    intro k
    have hsame := hsum k
    rw [sumAt_cons, sumAt_cons, heq] at hsame
    exact add_left_cancel hsame

omit [DecidableEq κ] in
theorem Below.flatMap {ι : Type*} {l : List ι} {f g : ι → List (κ × Int)}
    (h : ∀ x ∈ l, Below (f x) (g x)) : Below (l.flatMap f) (l.flatMap g) := by
  induction l with
  | nil => exact .nil
  | cons x l ih =>
    obtain ⟨hx, hl⟩ := List.forall_mem_cons.mp h
    rw [List.flatMap_cons, List.flatMap_cons]
    exact List.rel_append hx (ih hl)

omit [DecidableEq κ] in
theorem flatMap_eq_iff {ι : Type*} {l : List ι} {f g : ι → List (κ × Int)}
    (h : ∀ x ∈ l, Below (f x) (g x)) : l.flatMap g = l.flatMap f ↔ ∀ x ∈ l, g x = f x := by
  induction l with
  | nil => simp
  | cons x l ih =>
    obtain ⟨hx, hl⟩ := List.forall_mem_cons.mp h
    rw [List.flatMap_cons, List.flatMap_cons, List.forall_mem_cons, ← ih hl]
    constructor
    · intro heq
      exact List.append_inj heq (List.Forall₂.length_eq hx).symm
    · rintro ⟨hhead, htail⟩
      rw [hhead, htail]

/-- Smaller amounts give smaller sums, unless they are all the same. -/
theorem Below.foldl_addAt_iff {entries entries' : List (κ × Int)} (h : Below entries entries')
    (m : Map κ Int) : entries'.foldl addAt m = entries.foldl addAt m ↔ entries' = entries := by
  constructor
  · intro hmaps
    refine h.eq_of_sumAt ?_
    intro k
    have hsum := congrArg (fun m' => (m'.lookup k).getD 0) hmaps
    rw [getD_lookup_foldl_addAt, getD_lookup_foldl_addAt] at hsum
    exact add_left_cancel hsum
  · intro heq
    rw [heq]

end Sums

end Rcpu.WeightedMap
