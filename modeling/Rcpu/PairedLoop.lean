import Mathlib.Data.List.FinRange
import Mathlib.Data.List.Induction
import Mathlib.Logic.Equiv.Basic
import Mathlib.Logic.Function.Basic

/-!
# Loops that update pairs in place

A loop over the indices of a vector that, at some of them, replaces the entry and the entry of a partner
by two new ones.  If the partners are those of an involution and of each pair only one index is chosen,
no round sees what another one wrote, and every entry ends up as its own pair leaves it.
-/

namespace Rcpu.PairedLoop

variable {α : Type} {n : Nat}

/-! ### The loop -/

def setPair (v : Vector α n) (i j : Fin n) (r : α × α) : Vector α n := (v.set i r.1).set j r.2

/-- One round: at a chosen index, `f` of the entry and of its partner's entry replaces both. -/
def pairStep (chosen : Fin n → Bool) (partner : Fin n → Fin n) (f : α → α → Option (α × α))
    (v : Vector α n) (i : Fin n) : Option (Vector α n) :=
  if chosen i then (f (v.get i) (v.get (partner i))).map (setPair v i (partner i)) else some v

def forPairs (chosen : Fin n → Bool) (partner : Fin n → Fin n) (f : α → α → Option (α × α))
    (v : Vector α n) : Option (Vector α n) :=
  (List.finRange n).foldlM (pairStep chosen partner f) v

theorem get_set (v : Vector α n) (i j : Fin n) (x : α) :
    (v.set i x).get j = if j = i then x else v.get j := by
  have hset : (v.set i x).get j = if i.val = j.val then x else v.get j := Vector.getElem_set _ _
  rw [hset]
  by_cases h : j = i
  · rw [if_pos h, if_pos (congrArg Fin.val h.symm)]
  · rw [if_neg h, if_neg fun hval => h (Fin.ext hval.symm)]

theorem get_setPair (v : Vector α n) (i j k : Fin n) (r : α × α) :
    (setPair v i j r).get k = if k = j then r.2 else if k = i then r.1 else v.get k := by
  rw [setPair, get_set, get_set]

/-! ### Pairs that do not meet -/

structure Pairing (chosen : Fin n → Bool) (partner : Fin n → Fin n) (σ : Fin n → Fin n) : Prop where
  partner_eq : ∀ i, chosen i = true → partner i = σ i
  involutive : Function.Involutive σ
  one : ∀ i, chosen i = true → chosen (σ i) = false

/-- The entries after the rounds for the indices in `done`. -/
def replaced (chosen : Fin n → Bool) (σ : Fin n → Fin n) (g : α → α → α × α) (v : Fin n → α)
    (done : List (Fin n)) (j : Fin n) : α :=
  if chosen j = true ∧ j ∈ done then (g (v j) (v (σ j))).1
  else if chosen (σ j) = true ∧ σ j ∈ done then (g (v (σ j)) (v j)).2
  else v j

section Spec

variable {chosen : Fin n → Bool} {partner σ : Fin n → Fin n} {f : α → α → Option (α × α)}
  {g : α → α → α × α} {v : Fin n → α} {done : List (Fin n)} {i : Fin n}

/-- Before its round a chosen index has the entry it started with, and so has its partner. -/
theorem Pairing.replaced_self (h : Pairing chosen partner σ) (hi : chosen i = true) (hnew : i ∉ done) :
    replaced chosen σ g v done i = v i ∧ replaced chosen σ g v done (σ i) = v (σ i) := by
  have hσ := h.one i hi
  have hback := h.involutive i
  constructor
  · simp [replaced, hnew, hσ]
  · simp [replaced, hnew, hσ, hback]

theorem Pairing.replaced_concat (h : Pairing chosen partner σ) (hi : chosen i = true) (j : Fin n) :
    replaced chosen σ g v (done ++ [i]) j =
      if j = σ i then (g (v i) (v (σ i))).2 else if j = i then (g (v i) (v (σ i))).1
      else replaced chosen σ g v done j := by
  have hσ := h.one i hi
  by_cases hpartner : j = σ i
  · subst hpartner
    simp [replaced, hσ, hi, h.involutive i]
  · rw [if_neg hpartner]
    by_cases hself : j = i
    · subst hself
      simp [replaced, hi]
    · have hother : σ j ≠ i := by
        intro heq
        exact hpartner (by rw [← heq, h.involutive j])
      rw [if_neg hself]
      simp [replaced, hself, hother]

theorem replaced_concat_of_skipped (hi : ¬ chosen i = true) :
    replaced chosen σ g v (done ++ [i]) = replaced chosen σ g v done := by
  have hmem : ∀ k, chosen k = true ∧ k ∈ done ++ [i] ↔ chosen k = true ∧ k ∈ done := by
    intro k
    refine and_congr_right fun hk => ?_
    have hne : k ≠ i := by
      rintro rfl
      exact hi hk
    simp [hne]
  funext j
  simp only [replaced, hmem]

theorem Pairing.foldlM_pairStep (h : Pairing chosen partner σ) {u : Vector α n}
    (hf : ∀ i, chosen i = true → f (u.get i) (u.get (σ i)) = some (g (u.get i) (u.get (σ i))))
    (hnodup : done.Nodup) :
    ∃ w, done.foldlM (pairStep chosen partner f) u = some w ∧
      ∀ j, w.get j = replaced chosen σ g u.get done j := by
  induction done using List.reverseRecOn with
  | nil => exact ⟨u, rfl, fun j => by simp [replaced]⟩
  | append_singleton done i ih =>
    obtain ⟨hdone, -, hnew⟩ := List.nodup_append.mp hnodup
    have hi : i ∉ done := fun hmem => hnew i hmem i List.mem_cons_self rfl
    obtain ⟨w, hw, hget⟩ := ih hdone
    rw [List.foldlM_append, hw]
    show ∃ w', pairStep chosen partner f w i >>= pure = some w' ∧ _
    rw [bind_pure, pairStep]
    by_cases hchosen : chosen i = true
    · obtain ⟨hself, hpartner⟩ := h.replaced_self (g := g) (v := u.get) hchosen hi
      rw [← hget] at hself hpartner
      rw [if_pos hchosen, h.partner_eq i hchosen, hself, hpartner, hf i hchosen]
      refine ⟨_, rfl, ?_⟩
      intro j
      rw [get_setPair, h.replaced_concat hchosen, hget]
    · rw [if_neg hchosen]
      refine ⟨w, rfl, ?_⟩
      intro j
      rw [replaced_concat_of_skipped hchosen, hget]

theorem Pairing.forPairs_spec (h : Pairing chosen partner σ) {u : Vector α n}
    (hf : ∀ i, chosen i = true → f (u.get i) (u.get (σ i)) = some (g (u.get i) (u.get (σ i)))) :
    ∃ w, forPairs chosen partner f u = some w ∧ ∀ j, w.get j =
      if chosen j = true then (g (u.get j) (u.get (σ j))).1
      else if chosen (σ j) = true then (g (u.get (σ j)) (u.get j)).2
      else u.get j := by
  obtain ⟨w, hw, hget⟩ := h.foldlM_pairStep hf (List.nodup_finRange n)
  refine ⟨w, hw, ?_⟩
  intro j
  rw [hget j]
  simp [replaced]

/-- The indices that the swaps of chosen pairs exchange. -/
def Pairing.swaps (h : Pairing chosen partner σ) : Equiv.Perm (Fin n) :=
  Function.Involutive.toPerm
    (fun j => if chosen j = true ∨ chosen (σ j) = true then σ j else j) (by
      intro j
      by_cases hj : chosen j = true ∨ chosen (σ j) = true
      · simp only [hj, hj.symm, if_true, h.involutive j]
      · simp only [hj, if_false])

theorem Pairing.forPairs_swap (h : Pairing chosen partner σ) (u : Vector α n) :
    ∃ w, forPairs chosen partner (fun x y => some (y, x)) u = some w ∧
      ∀ j, w.get j = u.get (h.swaps j) := by
  obtain ⟨w, hw, hget⟩ := h.forPairs_spec (u := u) (f := fun x y => some (y, x))
    (g := fun x y => (y, x)) fun _ _ => rfl
  refine ⟨w, hw, ?_⟩
  intro j
  have hswaps : h.swaps j = if chosen j = true ∨ chosen (σ j) = true then σ j else j := rfl
  rw [hget j, hswaps]
  by_cases hj : chosen j = true
  · simp [hj]
  · by_cases hσ : chosen (σ j) = true
    · simp [hj, hσ]
    · simp [hj, hσ]

end Spec

end Rcpu.PairedLoop
