import Mathlib.Data.List.Nodup
import Mathlib.Data.Option.Basic

/-!
# Write-back layers

A store in layers, seen at one key.  A layer has an entry for the key or none; an entry repeats what
the layer below holds, or replaces it.  *Dirty* says that it may differ from what is below, *fresh*
that nothing is below.  An entry that is fresh need not be kept once its value is gone, and one that
is not dirty need not be written.

Layers are written one key at a time, in any order; `foldlM_keyed` brings what happens at each key
together.
-/

namespace Rcpu.WriteBack

variable {α : Type}

structure Entry (α : Type) where
  value : Option α
  dirty : Bool
  fresh : Bool

abbrev Slot (α : Type) := Option (Entry α)

/-- What a layer holds at a key, given what is below. -/
def reading : Slot α → Option α → Option α
  | some e, _ => e.value
  | none, below => below

/-- The flags tell the truth about what is below. -/
inductive Sound : Slot α → Option α → Prop where
  | absent (below : Option α) : Sound none below
  | clean (a : α) : Sound (some ⟨some a, false, false⟩) (some a)
  | changed (value below : Option α) : Sound (some ⟨value, true, false⟩) below
  | added (a : α) : Sound (some ⟨some a, true, true⟩) none

/-! ### Operations on a slot -/

def fetch : Slot α → Option α → Slot α
  | some e, _ => some e
  | none, below => below.map fun a => ⟨some a, false, false⟩

/-- Put a value; without `mayOverwrite` there is none yet. -/
def put (mayOverwrite : Bool) (a : α) (slot : Slot α) : Slot α :=
  let e := slot.getD ⟨none, false, false⟩
  some ⟨some a, true, e.fresh || (!mayOverwrite && !e.dirty)⟩

def remove : Slot α → Slot α
  | some e => if e.fresh then none else some ⟨none, true, e.fresh⟩
  | none => none

def release : Slot α → Slot α
  | some e => if e.dirty || e.fresh then some e else none
  | none => none

/-- Write an entry of the layer above into a slot. -/
def merge (e : Entry α) (own : Slot α) : Slot α :=
  if e.dirty then
    match own with
    | none => if e.fresh && e.value.isNone then none else some ⟨e.value, true, e.fresh⟩
    | some u => if u.fresh && e.value.isNone then none else some ⟨e.value, true, u.fresh⟩
  else own

def Clash (e : Entry α) (own : Slot α) : Prop :=
  e.dirty = true ∧ e.fresh = true ∧ ∃ u, own = some u ∧ u.value.isSome = true

/-- Write an entry into the store at the bottom. -/
def store (e : Entry α) (below : Option α) : Option α := if e.dirty then e.value else below

/-- What is kept of an entry after it was written. -/
def settle : Slot α → Slot α
  | some e => if e.value.isNone then none else some ⟨e.value, false, false⟩
  | none => none

variable {slot own : Slot α} {below : Option α} {e : Entry α} {a : α} {mayOverwrite : Bool}

/-! ### What they keep -/

@[simp] theorem reading_fetch (slot : Slot α) (below : Option α) :
    reading (fetch slot below) below = reading slot below := by
  cases slot with
  | some e => rfl
  | none => cases below <;> rfl

/-- After a fetch an empty slot means that nothing is below. -/
theorem fetch_eq_none : fetch slot below = none ↔ slot = none ∧ below = none := by
  cases slot with
  | some e => simp [fetch]
  | none => cases below <;> simp [fetch]

theorem Sound.put (h : Sound slot below)
    (hnew : mayOverwrite = false → reading slot below = none) :
    Sound (put mayOverwrite a slot) below := by
  cases h with
  | absent below =>
    cases mayOverwrite with
    | true => exact .changed (some a) below
    | false =>
      obtain rfl : below = none := hnew rfl
      exact .added a
  | clean b =>
    cases mayOverwrite with
    | true => exact .changed (some a) (some b)
    | false => cases hnew rfl
  | changed value below =>
    cases mayOverwrite with
    | true => exact .changed (some a) below
    | false => exact .changed (some a) below
  | added b =>
    cases mayOverwrite with
    | true => exact .added a
    | false => cases hnew rfl

@[simp] theorem reading_put : reading (put mayOverwrite a slot) below = some a := rfl

theorem Sound.remove (h : Sound slot below) : Sound (remove slot) below := by
  cases h with
  | absent below => exact .absent below
  | clean a => exact .changed none (some a)
  | changed value below => exact .changed none below
  | added a => exact .absent none

theorem reading_remove_fetch (h : Sound slot below) :
    reading (remove (fetch slot below)) below = none := by
  cases h with
  | absent below => cases below <;> rfl
  | clean a => rfl
  | changed value below => rfl
  | added a => rfl

theorem reading_release (h : Sound slot below) :
    reading (release slot) below = reading slot below := by
  cases h <;> rfl

theorem Sound.not_clash (he : Sound (some e) (reading own below)) : ¬ Clash e own := by
  rintro ⟨-, hfresh, u, rfl, hu⟩
  generalize hread : reading (some u) below = mid at he
  cases he with
  | clean a => cases hfresh
  | changed value => cases hfresh
  | added a =>
    have hnone : u.value = none := hread
    rw [hnone] at hu
    cases hu

theorem merge_of_clean (h : e.dirty = false) : merge e own = own := by
  simp [merge, h]

theorem merge_none (h : e.dirty = true) : merge e none =
    if e.fresh && e.value.isNone then none else some ⟨e.value, true, e.fresh⟩ := if_pos h

theorem merge_some (h : e.dirty = true) (u : Entry α) : merge e (some u) =
    if u.fresh && e.value.isNone then none else some ⟨e.value, true, u.fresh⟩ := if_pos h

theorem Sound.merge (hown : Sound own below) (he : Sound (some e) (reading own below)) :
    Sound (merge e own) below ∧ reading (merge e own) below = e.value := by
  generalize hread : reading own below = mid at he
  cases he with
  | clean a => exact ⟨hown, hread⟩
  | changed value =>
    cases hown with
    | absent below => exact ⟨.changed value below, rfl⟩
    | clean b => exact ⟨.changed value (some b), rfl⟩
    | changed value' below => exact ⟨.changed value below, rfl⟩
    | added b =>
      cases value with
      | none => exact ⟨.absent none, rfl⟩
      | some a => exact ⟨.added a, rfl⟩
  | added a =>
    cases hown with
    | absent below =>
      obtain rfl : below = none := hread
      exact ⟨.added a, rfl⟩
    | clean b => cases hread
    | changed value' below => exact ⟨.changed (some a) below, rfl⟩
    | added b => cases hread

theorem Sound.store_eq (h : Sound (some e) below) : store e below = e.value := by
  cases h <;> rfl

theorem Sound.settle (slot : Slot α) (below : Option α) :
    Sound (settle slot) (reading slot below) := by
  cases slot with
  | none => exact .absent below
  | some e =>
    obtain ⟨value, dirty, fresh⟩ := e
    cases value with
    | none => exact .absent none
    | some a => exact .clean a

theorem reading_settle (slot : Slot α) (below : Option α) :
    reading (settle slot) (reading slot below) = reading slot below := by
  cases slot with
  | none => rfl
  | some e =>
    obtain ⟨value, dirty, fresh⟩ := e
    cases value <;> rfl

/-! ### Loops over keys -/

section Loops

variable {σ κ γ δ ε : Type} {v : σ → κ → δ} {f : γ → δ → δ} {P : κ → γ → δ → Prop}
  {I : σ → Prop} {l : List (κ × γ)}

/-- A loop over entries with different keys, each step of which looks at and changes its own key
only: it goes through if every entry is good at the start, and each key ends as its own step leaves
it. -/
theorem foldlM_keyed {g : σ → κ × γ → Except ε σ}
    (hstep : ∀ s k e, I s → P k e (v s k) → ∃ s', g s (k, e) = .ok s' ∧ I s' ∧
      v s' k = f e (v s k) ∧ ∀ j, j ≠ k → v s' j = v s j)
    (hnodup : (l.map Prod.fst).Nodup) {s : σ} (hinv : I s)
    (hgood : ∀ k e, (k, e) ∈ l → P k e (v s k)) :
    ∃ s', l.foldlM g s = .ok s' ∧ I s' ∧ (∀ k e, (k, e) ∈ l → v s' k = f e (v s k)) ∧
      ∀ j, j ∉ l.map Prod.fst → v s' j = v s j := by
  induction l generalizing s with
  | nil => exact ⟨s, rfl, hinv, by simp, by simp⟩
  | cons p l ih =>
    obtain ⟨k, e⟩ := p
    rw [List.map_cons, List.nodup_cons] at hnodup
    obtain ⟨mid, hmid, hinv', hself, hother⟩ := hstep s k e hinv (hgood k e List.mem_cons_self)
    have hne : ∀ j e', (j, e') ∈ l → j ≠ k := by
      rintro j e' hj rfl
      exact hnodup.1 (List.mem_map.mpr ⟨_, hj, rfl⟩)
    have hgood' : ∀ j e', (j, e') ∈ l → P j e' (v mid j) := by
      intro j e' hj
      rw [hother j (hne j e' hj)]
      exact hgood j e' (List.mem_cons_of_mem _ hj)
    obtain ⟨s', hs', hinv'', hmem, hrest⟩ := ih hnodup.2 hinv' hgood'
    refine ⟨s', ?_, hinv'', ?_, ?_⟩
    · rw [List.foldlM_cons, hmid]
      exact hs'
    · intro j e' hj
      rcases List.mem_cons.mp hj with heq | hj
      · obtain ⟨rfl, rfl⟩ := Prod.mk.inj heq
        exact (hrest j hnodup.1).trans hself
      · rw [hmem j e' hj, hother j (hne j e' hj)]
    · intro j hj
      rw [List.map_cons, List.mem_cons, not_or] at hj
      rw [hrest j hj.2, hother j hj.1]

theorem foldl_keyed {g : σ → κ × γ → σ}
    (hstep : ∀ s k e, I s → P k e (v s k) → I (g s (k, e)) ∧
      v (g s (k, e)) k = f e (v s k) ∧ ∀ j, j ≠ k → v (g s (k, e)) j = v s j)
    (hnodup : (l.map Prod.fst).Nodup) {s : σ} (hinv : I s)
    (hgood : ∀ k e, (k, e) ∈ l → P k e (v s k)) :
    I (l.foldl g s) ∧ (∀ k e, (k, e) ∈ l → v (l.foldl g s) k = f e (v s k)) ∧
      ∀ j, j ∉ l.map Prod.fst → v (l.foldl g s) j = v s j := by
  have hpure : l.foldlM (fun s p => (.ok (g s p) : Except Unit σ)) s = .ok (l.foldl g s) :=
    List.foldlM_pure
  obtain ⟨s', hs', hresult⟩ := foldlM_keyed (g := fun s p => (.ok (g s p) : Except Unit σ))
    (fun s k e hinv hgood => ⟨_, rfl, hstep s k e hinv hgood⟩) hnodup hinv hgood
  obtain rfl := Except.ok.inj (hpure.symm.trans hs')
  exact hresult

end Loops

end Rcpu.WriteBack
