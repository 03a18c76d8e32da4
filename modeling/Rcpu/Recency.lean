import Mathlib.Data.Finset.Dedup
import Mathlib.Data.Finset.Card

/-!
# Keys in the order of their last use

The distinct keys of a history, most recently used first, and the ones that a list of bounded length
keeps of them.
-/

namespace Rcpu.Recency

variable {α : Type} [DecidableEq α]

def touch (k : α) (l : List α) : List α := k :: l.erase k

/-- The distinct keys of a history whose latest use comes first. -/
def recent : List α → List α
  | [] => []
  | k :: uses => touch k (recent uses)

/-- Fewer than `n` other keys were used since the last use of `k`. -/
def MostRecent (n : Nat) (uses : List α) (k : α) : Prop :=
  k ∈ uses ∧ (uses.takeWhile (· ≠ k)).toFinset.card < n

instance (n : Nat) (uses : List α) (k : α) : Decidable (MostRecent n uses k) :=
  inferInstanceAs (Decidable (_ ∧ _))

theorem mem_touch {k x : α} {l : List α} : x ∈ touch k l ↔ x = k ∨ x ∈ l := by
  by_cases hx : x = k
  · simp only [touch, hx, List.mem_cons, true_or]
  · rw [touch, List.mem_cons, List.mem_erase_of_ne hx]

theorem mem_recent {k : α} {uses : List α} : k ∈ recent uses ↔ k ∈ uses := by
  induction uses with
  | nil => rfl
  | cons x uses ih => rw [recent, mem_touch, ih, List.mem_cons]

theorem length_touch_of_mem {k : α} {l : List α} (h : k ∈ l) : (touch k l).length = l.length := by
  have hpos := List.length_pos_of_mem h
  rw [touch, List.length_cons, List.length_erase_of_mem h]
  omega

theorem nodup_touch {k : α} {l : List α} (h : l.Nodup) : (touch k l).Nodup :=
  List.nodup_cons.mpr ⟨h.not_mem_erase, h.erase k⟩

theorem nodup_recent (uses : List α) : (recent uses).Nodup := by
  induction uses with
  | nil => exact List.nodup_nil
  | cons k uses ih => exact nodup_touch ih

/-! ### Bounded lists -/

theorem take_erase_take (k : α) (l : List α) (n : Nat) :
    ((l.take (n + 1)).erase k).take n = (l.erase k).take n := by
  induction l generalizing n with
  | nil => rw [List.take_nil]
  | cons x l ih =>
    rw [List.take_succ_cons, List.erase_cons, List.erase_cons]
    by_cases hx : x = k
    · rw [if_pos (beq_iff_eq.mpr hx), if_pos (beq_iff_eq.mpr hx), List.take_take, Nat.min_self]
    · rw [if_neg (by rwa [beq_iff_eq]), if_neg (by rwa [beq_iff_eq])]
      cases n with
      | zero => rw [List.take_zero, List.take_zero]
      | succ n => rw [List.take_succ_cons, List.take_succ_cons, ih]

/-- What a bounded list has dropped does not come back. -/
theorem take_touch_take (k : α) (l : List α) (n : Nat) :
    (touch k (l.take n)).take n = (touch k l).take n := by
  cases n with
  | zero => rw [List.take_zero, List.take_zero]
  | succ n => rw [touch, touch, List.take_succ_cons, List.take_succ_cons, take_erase_take]

theorem mem_take_iff (k : α) (l : List α) (n : Nat) :
    k ∈ l.take n ↔ k ∈ l ∧ (l.takeWhile (· ≠ k)).length < n := by
  induction l generalizing n with
  | nil => simp
  | cons x l ih =>
    cases n with
    | zero => simp
    | succ n =>
      rw [List.take_succ_cons, List.mem_cons, List.mem_cons, ih, List.takeWhile_cons]
      by_cases hx : x = k
      · simp [hx]
      · simp [hx, Ne.symm hx]

theorem takeWhile_erase {k x : α} (hx : x ≠ k) (l : List α) :
    (l.erase x).takeWhile (· ≠ k) = (l.takeWhile (· ≠ k)).erase x := by
  induction l with
  | nil => rfl
  | cons y l ih =>
    by_cases hy : y = k
    · subst hy
      simp [Ne.symm hx]
    · by_cases hyx : y = x
      · subst hyx
        simp [hy]
      · simpa [hyx, hy] using ih

theorem toFinset_takeWhile_recent (k : α) (uses : List α) :
    ((recent uses).takeWhile (· ≠ k)).toFinset = (uses.takeWhile (· ≠ k)).toFinset := by
  induction uses with
  | nil => rfl
  | cons x uses ih =>
    by_cases hx : x = k
    · simp [recent, touch, hx]
    · have hcons (l : List α) : (x :: l).takeWhile (· ≠ k) = x :: l.takeWhile (· ≠ k) :=
        List.takeWhile_cons_of_pos (decide_eq_true hx)
      rw [recent, touch, hcons, hcons, takeWhile_erase hx, List.toFinset_cons, List.toFinset_cons, ← ih]
      ext y
      by_cases hy : y = x
      · simp only [hy, Finset.mem_insert, true_or]
      · simp only [hy, Finset.mem_insert, false_or, List.mem_toFinset, List.mem_erase_of_ne hy]

theorem mem_take_recent_iff {n : Nat} {uses : List α} {k : α} :
    k ∈ (recent uses).take n ↔ MostRecent n uses k := by
  have hnodup : ((recent uses).takeWhile (· ≠ k)).Nodup :=
    (nodup_recent uses).sublist (List.takeWhile_sublist _)
  rw [mem_take_iff, mem_recent, MostRecent, ← toFinset_takeWhile_recent,
    List.toFinset_card_of_nodup hnodup]

end Rcpu.Recency
