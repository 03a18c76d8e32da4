import Rcpu.AncestorClosure
import Rcpu.WeightedMap

/-!
# Computing along parents in one pass

The entries of a finite map point to parent entries.  A value that an entry computes from its parent
is right everywhere after a single pass, if the pass meets parents before their children: an entry
that has been visited is never touched again, and neither is its parent.
-/

namespace Rcpu.ParentPass

open AncestorClosure WeightedMap

variable {κ α : Type*} [DecidableEq κ] (parent : α → Option κ) (update : Option α → α → α)

def visit (m : Map κ α) (k : κ) : Map κ α :=
  match m.lookup k with
  | none => m
  | some a => m.insert k (update ((parent a).bind m.lookup) a)

def IsParent (m : Map κ α) (p k : κ) : Prop := ∃ a, m.lookup k = some a ∧ parent a = some p

variable {parent update}

theorem lookup_visit_of_ne {m : Map κ α} {k j : κ} (h : j ≠ k) :
    (visit parent update m k).lookup j = m.lookup j := by
  unfold visit
  split
  · rfl
  · rw [Finmap.lookup_insert_of_ne _ h]

theorem lookup_visit_self (m : Map κ α) (k : κ) :
    (visit parent update m k).lookup k =
      (m.lookup k).map fun a => update ((parent a).bind m.lookup) a := by
  unfold visit
  cases hlookup : m.lookup k with
  | none => rw [hlookup, Option.map_none]
  | some a => rw [Finmap.lookup_insert, Option.map_some]

/-- **One pass is enough**: afterwards every visited entry is what it computes from its parent, and
the others are unchanged. -/
theorem lookup_pass (update : Option α → α → α) {m : Map κ α} {order : List κ}
    (hnodup : order.Nodup)
    (htopological : Topological (IsParent parent m) order) (k : κ) :
    (order.foldl (visit parent update) m).lookup k =
      if k ∈ order then
        (m.lookup k).map fun a =>
          update ((parent a).bind (order.foldl (visit parent update) m).lookup) a
      else m.lookup k := by
  induction order using List.reverseRecOn generalizing k with
  | nil => simp
  | append_singleton order j ih =>
    have hsub : order.Sublist (order ++ [j]) := List.sublist_append_left order [j]
    have hnotMem : j ∉ order := by
      have hdisjoint := List.disjoint_of_nodup_append hnodup
      exact fun hmem => hdisjoint hmem (List.mem_singleton.mpr rfl)
    have hbefore := ih (hnodup.sublist hsub) (htopological.sublist hsub)
    set before := order.foldl (visit parent update) m
    have hfold : (order ++ [j]).foldl (visit parent update) m = visit parent update before j := by
      rw [List.foldl_append]
      rfl
    -- no entry up to here has the new one as its parent, so parents read the same before and after
    have hparent : ∀ i ∈ order ++ [j], ∀ a, m.lookup i = some a →
        (parent a).bind (visit parent update before j).lookup = (parent a).bind before.lookup := by
      intro i hi a ha
      cases hp : parent a with
      | none => rfl
      | some p =>
        have hne : p ≠ j := by
          rintro rfl
          exact htopological.not_parent_last hi ⟨a, ha, hp⟩
        simp only [Option.bind_some, lookup_visit_of_ne hne]
    rw [hfold]
    by_cases hk : k = j
    · subst hk
      rw [if_pos (by simp), lookup_visit_self, hbefore k, if_neg hnotMem]
      apply Option.map_congr
      intro a ha
      rw [hparent k (by simp) a ha]
    · rw [lookup_visit_of_ne hk, hbefore k]
      by_cases hmem : k ∈ order
      · rw [if_pos hmem, if_pos (List.mem_append_left _ hmem)]
        apply Option.map_congr
        intro a ha
        rw [hparent k (List.mem_append_left _ hmem) a ha]
      · rw [if_neg hmem, if_neg (by simp [hmem, hk])]

end Rcpu.ParentPass
