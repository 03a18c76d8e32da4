import Mathlib.Algebra.BigOperators.Group.Finset.Basic
import Mathlib.Algebra.Order.BigOperators.Ring.Finset
import Mathlib.Data.Fintype.BigOperators
import Mathlib.Tactic.Linarith
import Mathlib.Tactic.Ring

/-!
# Sums of squares

The square of the Euclidean norm of a finite vector, over any ordered ring.  Permutations keep it,
rotations of pairs of entries multiply it by the square of their scale, and rounding each entry adds to
the norm at most the norm of the errors.
-/

namespace Rcpu.SquareSum

open Finset

variable {ι R : Type*} [Fintype ι] [CommRing R]

def sumSq (v : ι → R) : R := ∑ i, v i ^ 2

theorem sumSq_mul_left (a : R) (v : ι → R) : sumSq (fun i => a * v i) = a ^ 2 * sumSq v := by
  rw [sumSq, sumSq, mul_sum]
  exact sum_congr rfl fun i _ => mul_pow a (v i) 2

theorem sumSq_comp_perm (σ : Equiv.Perm ι) (v : ι → R) : sumSq (fun i => v (σ i)) = sumSq v :=
  Equiv.sum_comp σ fun i => v i ^ 2

section Norm

variable [LinearOrder R] [IsStrictOrderedRing R]

theorem sumSq_nonneg (v : ι → R) : 0 ≤ sumSq v := sum_nonneg fun i _ => sq_nonneg (v i)

theorem abs_le_of_sumSq_le {v : ι → R} {a : R} (ha : 0 ≤ a) (h : sumSq v ≤ a ^ 2) (i : ι) :
    |v i| ≤ a := by
  have hentry : v i ^ 2 ≤ sumSq v :=
    single_le_sum (f := fun i => v i ^ 2) (fun j _ => sq_nonneg (v j)) (mem_univ i)
  exact abs_le_of_sq_le_sq (hentry.trans h) ha

theorem sumSq_le_of_abs_le {v : ι → R} {b : R} (h : ∀ i, |v i| ≤ b) :
    sumSq v ≤ Fintype.card ι * b ^ 2 := by
  have hentry : ∀ i, v i ^ 2 ≤ b ^ 2 := by
    intro i
    obtain ⟨hlow, hhigh⟩ := abs_le.mp (h i)
    exact sq_le_sq' hlow hhigh
  calc sumSq v ≤ ∑ _i : ι, b ^ 2 := sum_le_sum fun i _ => hentry i
    _ = Fintype.card ι * b ^ 2 := by rw [sum_const, card_univ, nsmul_eq_mul]

/-- **The triangle inequality.** -/
theorem sumSq_add_le {u v : ι → R} {a b : R} (ha : 0 ≤ a) (hb : 0 ≤ b) (hu : sumSq u ≤ a ^ 2)
    (hv : sumSq v ≤ b ^ 2) : sumSq (fun i => u i + v i) ≤ (a + b) ^ 2 := by
  have hcauchy : (∑ i, u i * v i) ^ 2 ≤ (a * b) ^ 2 := by
    calc (∑ i, u i * v i) ^ 2 ≤ sumSq u * sumSq v := sum_mul_sq_le_sq_mul_sq univ u v
      _ ≤ a ^ 2 * b ^ 2 := mul_le_mul hu hv (sumSq_nonneg v) (sq_nonneg a)
      _ = (a * b) ^ 2 := (mul_pow a b 2).symm
  have hproduct : ∑ i, u i * v i ≤ a * b :=
    (le_abs_self _).trans (abs_le_of_sq_le_sq hcauchy (mul_nonneg ha hb))
  have hexpand : sumSq (fun i => u i + v i) = sumSq u + 2 * ∑ i, u i * v i + sumSq v := by
    rw [sumSq, sumSq, sumSq, mul_sum, ← sum_add_distrib, ← sum_add_distrib]
    exact sum_congr rfl fun i _ => by ring
  rw [hexpand]
  calc sumSq u + 2 * ∑ i, u i * v i + sumSq v ≤ a ^ 2 + 2 * (a * b) + b ^ 2 := by linarith
    _ = (a + b) ^ 2 := by ring

end Norm

/-! ### Rotations of pairs -/

/-- The pairs of `σ` turned by the matrix with entries `c` and `s`; `first` says which entry of a pair
comes first. -/
def rotated (first : ι → Bool) (σ : ι → ι) (c s : R) (v : ι → R) (i : ι) : R :=
  if first i = true then c * v i - s * v (σ i) else s * v (σ i) + c * v i

variable [LinearOrder R] [IsStrictOrderedRing R] {first : ι → Bool} {σ : ι → ι} {c s : R}

theorem sumSq_rotated (hσ : Function.Involutive σ) (hfirst : ∀ i, first (σ i) = !first i)
    (v : ι → R) : sumSq (rotated first σ c s v) = (c ^ 2 + s ^ 2) * sumSq v := by
  -- every sum is that over the partners as well, and a pair has its own sum of squares
  have hpartners : ∀ f : ι → R, ∑ i, f (σ i) = ∑ i, f i := fun f => Equiv.sum_comp hσ.toPerm f
  have hpair : ∀ i, rotated first σ c s v i ^ 2 + rotated first σ c s v (σ i) ^ 2 =
      (c ^ 2 + s ^ 2) * (v i ^ 2 + v (σ i) ^ 2) := by
    intro i
    cases hi : first i with
    | true =>
      simp only [rotated, hfirst, hi, hσ i, Bool.not_true, Bool.false_eq_true, if_true, if_false]
      ring
    | false =>
      simp only [rotated, hfirst, hi, hσ i, Bool.not_false, Bool.false_eq_true, if_true, if_false]
      ring
  have hsum := Finset.sum_congr (rfl : (univ : Finset ι) = univ) fun i _ => hpair i
  rw [← mul_sum, sum_add_distrib, sum_add_distrib,
    hpartners fun i => rotated first σ c s v i ^ 2, hpartners fun i => v i ^ 2] at hsum
  change sumSq _ + sumSq _ = _ * (sumSq _ + sumSq _) at hsum
  linarith

/-- A rotation in fixed point: the entries are those of a rotation by `unit`, up to an error. -/
theorem sumSq_rounded_rotated (hσ : Function.Involutive σ) (hfirst : ∀ i, first (σ i) = !first i)
    {v w : ι → R} {unit scale error rest norm norm' : R} (hscale : 0 ≤ scale) (hnorm : 0 ≤ norm)
    (hrest : 0 ≤ rest) (hunit : 0 < unit)
    (hcs : c ^ 2 + s ^ 2 ≤ scale ^ 2) (hv : sumSq v ≤ norm ^ 2)
    (hw : ∀ i, |unit * w i - rotated first σ c s v i| ≤ error)
    (herror : Fintype.card ι * error ^ 2 ≤ rest ^ 2)
    (hnorm' : scale * norm + rest ≤ unit * norm') : sumSq w ≤ norm' ^ 2 := by
  have hexact : sumSq (rotated first σ c s v) ≤ (scale * norm) ^ 2 := by
    rw [sumSq_rotated hσ hfirst, mul_pow]
    exact mul_le_mul hcs hv (sumSq_nonneg v) (sq_nonneg scale)
  have hrounding : sumSq (fun i => unit * w i - rotated first σ c s v i) ≤ rest ^ 2 :=
    (sumSq_le_of_abs_le hw).trans herror
  have htotal := sumSq_add_le (mul_nonneg hscale hnorm) hrest hexact hrounding
  have hsplit : (fun i => rotated first σ c s v i + (unit * w i - rotated first σ c s v i)) =
      fun i => unit * w i := by
    funext i
    ring
  have hnonneg : 0 ≤ scale * norm + rest := add_nonneg (mul_nonneg hscale hnorm) hrest
  rw [hsplit, sumSq_mul_left] at htotal
  have hsquare : unit ^ 2 * sumSq w ≤ unit ^ 2 * norm' ^ 2 := by
    calc unit ^ 2 * sumSq w ≤ (scale * norm + rest) ^ 2 := htotal
      _ ≤ (unit * norm') ^ 2 := pow_le_pow_left₀ hnonneg hnorm' 2
      _ = unit ^ 2 * norm' ^ 2 := mul_pow unit norm' 2
  exact le_of_mul_le_mul_left hsquare (pow_pos hunit 2)

end Rcpu.SquareSum
