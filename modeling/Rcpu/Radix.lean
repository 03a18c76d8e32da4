import Mathlib.Algebra.BigOperators.Group.Finset.Basic
import Mathlib.Algebra.BigOperators.Ring.Finset
import Mathlib.Data.Nat.Bitwise
import Mathlib.Data.Nat.Size
import Mathlib.Tactic.Ring

/-!
# Positional numbers

The number that has the given digits of `w` bits, least significant first.  Digits are a function of
their position, of which the first `n` count: loops that change one digit after the other are then
followed position by position.
-/

namespace Rcpu.Radix

open Finset

/-! ### Counted loops -/

/-- What holds before a counted loop and is kept by each round holds after it. -/
theorem fold_induction {α : Type} {n : Nat} {f : (i : Nat) → i < n → α → α} {a : α}
    {P : Nat → α → Prop} (hstart : P 0 a) (hstep : ∀ i h b, P i b → P (i + 1) (f i h b)) :
    P n (n.fold f a) := by
  induction n with
  | zero => exact hstart
  | succ n ih =>
    rw [Nat.fold_succ]
    apply hstep n (Nat.lt_succ_self n)
    apply ih
    intro i h b hb
    exact hstep i (h.trans (Nat.lt_succ_self n)) b hb

/-! ### The number with given digits -/

/-- The number with the digits `d 0`, …, `d (n - 1)` of `w` bits. -/
def value (w : Nat) (d : Nat → Nat) (n : Nat) : Nat := ∑ i ∈ range n, d i * 2 ^ (w * i)

section Value

variable {w : Nat} {d d' : Nat → Nat} {n : Nat}

@[simp] theorem value_zero : value w d 0 = 0 := rfl

theorem value_succ : value w d (n + 1) = value w d n + d n * 2 ^ (w * n) :=
  sum_range_succ _ n

theorem value_congr (h : ∀ i < n, d i = d' i) : value w d n = value w d' n := by
  apply sum_congr rfl
  intro i hi
  rw [h i (mem_range.mp hi)]

theorem value_add : value w (fun i => d i + d' i) n = value w d n + value w d' n := by
  unfold value
  rw [← sum_add_distrib]
  apply sum_congr rfl
  intro i _
  rw [Nat.add_mul]

theorem value_mul_left (c : Nat) : value w (fun i => c * d i) n = c * value w d n := by
  unfold value
  rw [mul_sum]
  apply sum_congr rfl
  intro i _
  rw [Nat.mul_assoc]

theorem value_append (j m : Nat) :
    value w d (j + m) = value w d j + 2 ^ (w * j) * value w (fun i => d (i + j)) m := by
  induction m with
  | zero => simp
  | succ m ih =>
    rw [← Nat.add_assoc, value_succ, ih, value_succ, Nat.add_comm m j, Nat.mul_add w j m, Nat.pow_add]
    ring

theorem value_lt (h : ∀ i, d i < 2 ^ w) (n : Nat) : value w d n < 2 ^ (w * n) := by
  induction n with
  | zero => simp
  | succ n ih =>
    have hdigit : d n + 1 ≤ 2 ^ w := h n
    calc value w d (n + 1) = value w d n + d n * 2 ^ (w * n) := value_succ
      _ < 2 ^ (w * n) + d n * 2 ^ (w * n) := Nat.add_lt_add_right ih _
      _ = (d n + 1) * 2 ^ (w * n) := by ring
      _ ≤ 2 ^ w * 2 ^ (w * n) := Nat.mul_le_mul_right _ hdigit
      _ = 2 ^ (w * (n + 1)) := by rw [← Nat.pow_add, Nat.mul_succ, Nat.add_comm]

theorem testBit_value (hw : 0 < w) (h : ∀ i, d i < 2 ^ w) (n k : Nat) :
    (value w d n).testBit k = (decide (k / w < n) && (d (k / w)).testBit (k % w)) := by
  induction n with
  | zero => simp
  | succ n ih =>
    rw [value_succ, Nat.add_comm, Nat.mul_comm, Nat.testBit_two_pow_mul_add _ (value_lt h n)]
    have hdiv : k < w * n ↔ k / w < n := by
      rw [Nat.div_lt_iff_lt_mul hw, Nat.mul_comm]
    split_ifs with hk
    · rw [ih]
      have hlt := hdiv.mp hk
      simp [hlt, hlt.trans (Nat.lt_succ_self n)]
    · have hge : n ≤ k / w := Nat.le_of_not_lt (mt hdiv.mpr hk)
      by_cases hn : k / w = n
      · have hmod : k - w * n = k % w := by rw [← hn, Nat.mod_eq_sub]
        rw [hmod, hn]
        simp
      · -- the bit is beyond the last digit
        have hbeyond : w ≤ k - w * n := by
          have hmul : w * (n + 1) ≤ k := by
            rw [Nat.mul_comm, ← Nat.le_div_iff_mul_le hw]
            omega
          rw [Nat.mul_succ] at hmul
          omega
        have hzero : (d n).testBit (k - w * n) = false :=
          Nat.testBit_lt_two_pow ((h n).trans_le (Nat.pow_le_pow_right (by decide) hbeyond))
        rw [hzero]
        simp
        omega

theorem value_update {j : Nat} (hj : j < n) (h : ∀ i, i ≠ j → d' i = d i) :
    value w d' n + d j * 2 ^ (w * j) = value w d n + d' j * 2 ^ (w * j) := by
  have hmem : j ∈ range n := mem_range.mpr hj
  unfold value
  rw [← add_sum_erase _ _ hmem, ← add_sum_erase _ (fun i => d i * 2 ^ (w * i)) hmem]
  have hothers : ∑ i ∈ (range n).erase j, d' i * 2 ^ (w * i) =
      ∑ i ∈ (range n).erase j, d i * 2 ^ (w * i) := by
    apply sum_congr rfl
    intro i hi
    rw [h i (ne_of_mem_erase hi)]
  rw [hothers]
  ring

theorem value_max (n : Nat) : value w (fun _ => 2 ^ w - 1) n + 1 = 2 ^ (w * n) := by
  induction n with
  | zero => simp
  | succ n ih =>
    have hpos : 0 < 2 ^ w := Nat.two_pow_pos w
    calc value w (fun _ => 2 ^ w - 1) (n + 1) + 1
        = value w (fun _ => 2 ^ w - 1) n + 1 + (2 ^ w - 1) * 2 ^ (w * n) := by
          rw [value_succ]
          ring
      _ = (2 ^ w - 1 + 1) * 2 ^ (w * n) := by
          rw [ih]
          ring
      _ = 2 ^ (w * (n + 1)) := by rw [Nat.sub_add_cancel hpos, ← Nat.pow_add, Nat.mul_succ, Nat.add_comm]

theorem size_value_succ (h : ∀ i, d i < 2 ^ w) (hne : d n ≠ 0) :
    (value w d (n + 1)).size = w * n + (d n).size := by
  have hlow := value_lt h n
  apply Nat.le_antisymm
  · rw [Nat.size_le, value_succ]
    have htop : d n + 1 ≤ 2 ^ (d n).size := Nat.lt_size_self (d n)
    calc value w d n + d n * 2 ^ (w * n) < 2 ^ (w * n) + d n * 2 ^ (w * n) :=
          Nat.add_lt_add_right hlow _
      _ = (d n + 1) * 2 ^ (w * n) := by ring
      _ ≤ 2 ^ (d n).size * 2 ^ (w * n) := Nat.mul_le_mul_right _ htop
      _ = 2 ^ (w * n + (d n).size) := by rw [← Nat.pow_add, Nat.add_comm]
  · have hpos : 0 < (d n).size := Nat.size_pos.mpr (Nat.pos_of_ne_zero hne)
    have htop : 2 ^ ((d n).size - 1) ≤ d n := Nat.lt_size.mp (Nat.sub_one_lt_of_lt hpos)
    have hbound : 2 ^ (w * n + ((d n).size - 1)) ≤ value w d (n + 1) := by
      rw [value_succ, Nat.pow_add, Nat.mul_comm]
      exact (Nat.mul_le_mul_right _ htop).trans (Nat.le_add_left _ _)
    have hsize := Nat.lt_size.mpr hbound
    omega

/-- The first digits decide nothing if a later one differs. -/
theorem value_succ_lt (h : ∀ i, d i < 2 ^ w) (hlt : d n < d' n) :
    value w d (n + 1) < value w d' (n + 1) := by
  calc value w d (n + 1) = value w d n + d n * 2 ^ (w * n) := value_succ
    _ < 2 ^ (w * n) + d n * 2 ^ (w * n) := Nat.add_lt_add_right (value_lt h n) _
    _ = (d n + 1) * 2 ^ (w * n) := by ring
    _ ≤ d' n * 2 ^ (w * n) := Nat.mul_le_mul_right _ hlt
    _ ≤ value w d' n + d' n * 2 ^ (w * n) := Nat.le_add_left _ _
    _ = value w d' (n + 1) := value_succ.symm

end Value

end Rcpu.Radix
