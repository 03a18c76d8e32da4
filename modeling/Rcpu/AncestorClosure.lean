import Mathlib.Data.List.Basic

/-!
# Ancestors in a topologically sorted list

For a parent relation on the elements of a list in which parents come before their children, one
pass from the end of the list collects exactly the ancestors of an element: by the time a parent
is reached, all the children it could be needed for have been decided.
-/

namespace Rcpu.AncestorClosure

variable {α : Type*} (parent : α → α → Prop)

inductive IsAncestor (l : List α) (x : α) : α → Prop
  | parent {a : α} : a ∈ l → parent a x → IsAncestor l x a
  | step {a b : α} : IsAncestor l x b → a ∈ l → parent a b → IsAncestor l x a

structure Topological (l : List α) : Prop where
  later : l.Pairwise fun a b => ¬ parent b a
  irrefl : ∀ a ∈ l, ¬ parent a a

section

variable {parent}

theorem Topological.sublist {l l' : List α} (h : Topological parent l) (hsub : l'.Sublist l) :
    Topological parent l' :=
  ⟨h.later.sublist hsub, fun a ha => h.irrefl a (hsub.subset ha)⟩

theorem Topological.not_parent_last {l : List α} {b : α} (h : Topological parent (l ++ [b]))
    {a : α} (ha : a ∈ l ++ [b]) : ¬ parent b a := by
  rcases List.mem_append.mp ha with hl | hb
  · exact (List.pairwise_append.mp h.later).2.2 a hl b (List.mem_singleton.mpr rfl)
  · obtain rfl := List.mem_singleton.mp hb
    exact h.irrefl a ha

theorem IsAncestor.mem {l : List α} {x a : α} (h : IsAncestor parent l x a) : a ∈ l := by
  cases h with
  | parent hmem _ => exact hmem
  | step _ hmem _ => exact hmem

theorem IsAncestor.mono {l : List α} {x a c : α} (h : IsAncestor parent l x a) :
    IsAncestor parent (c :: l) x a := by
  induction h with
  | parent hmem hp => exact .parent (List.mem_cons_of_mem c hmem) hp
  | step _ hmem hp ih => exact .step ih (List.mem_cons_of_mem c hmem) hp

end

variable [DecidableRel parent]

def ancestors (l : List α) (x : α) : List α :=
  l.foldr (fun a kept => if parent a x ∨ ∃ b ∈ kept, parent a b then a :: kept else kept) []

variable {parent}

theorem ancestors_sublist (l : List α) (x : α) : (ancestors parent l x).Sublist l := by
  induction l with
  | nil => exact List.Sublist.refl []
  | cons a l ih =>
    simp only [ancestors, List.foldr_cons] at ih ⊢
    split
    · exact ih.cons_cons a
    · exact ih.cons a

/-- **The single pass is complete and sound** on a topologically sorted list. -/
theorem mem_ancestors {l : List α} {x a : α} (hl : Topological parent l) :
    a ∈ ancestors parent l x ↔ IsAncestor parent l x a := by
  induction l generalizing a with
  | nil =>
    constructor
    · intro h
      simp [ancestors] at h
    · intro h
      have := h.mem
      simp at this
  | cons c l ih =>
    obtain ⟨hlater, hirrefl⟩ := hl
    rw [List.pairwise_cons] at hlater
    rw [List.forall_mem_cons] at hirrefl
    have ih' := fun a => ih (a := a) ⟨hlater.2, hirrefl.2⟩
    have hcons : ancestors parent (c :: l) x =
        if parent c x ∨ ∃ b ∈ ancestors parent l x, parent c b then c :: ancestors parent l x
        else ancestors parent l x := rfl
    -- the tail's ancestors are kept, the head is kept when it is needed
    have hmem : ∀ a, a ∈ ancestors parent (c :: l) x ↔
        a ∈ ancestors parent l x ∨
          (a = c ∧ (parent c x ∨ ∃ b ∈ ancestors parent l x, parent c b)) := by
      intro a
      rw [hcons]
      split
      · next h => simp [h, or_comm]
      · next h => simp [h]
    constructor
    · intro h
      rcases (hmem a).mp h with h | ⟨rfl, hp | ⟨b, hb, hp⟩⟩
      · exact ((ih' a).mp h).mono
      · exact .parent List.mem_cons_self hp
      · exact .step ((ih' b).mp hb).mono List.mem_cons_self hp
    · intro h
      induction h with
      | @parent a ha hp =>
        rcases List.mem_cons.mp ha with rfl | ha
        · exact (hmem a).mpr (.inr ⟨rfl, .inl hp⟩)
        · exact (hmem a).mpr (.inl ((ih' a).mpr (.parent ha hp)))
      | @step a b _ ha hp ihb =>
        rcases (hmem b).mp ihb with hb | ⟨rfl, -⟩
        · rcases List.mem_cons.mp ha with rfl | ha
          · exact (hmem a).mpr (.inr ⟨rfl, .inr ⟨b, hb, hp⟩⟩)
          · exact (hmem a).mpr (.inl ((ih' a).mpr (.step ((ih' b).mp hb) ha hp)))
        · -- a parent of the head would have to come before it
          rcases List.mem_cons.mp ha with rfl | ha
          · exact absurd hp hirrefl.1
          · exact absurd hp (hlater.1 a ha)

end Rcpu.AncestorClosure
