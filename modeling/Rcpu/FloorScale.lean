import Mathlib.Data.Rat.Floor
import Mathlib.Tactic.Ring

/-!
# Numbers scaled by powers of two

The whole part of a number times an integer power of two, in natural numbers: a product for a positive
exponent and a quotient for a negative one.  It grows with the number and with the exponent.
-/

namespace Rcpu.FloorScale

/-- `⌊x * 2 ^ k⌋` -/
def floorScale (x : Nat) (k : Int) : Nat := x * 2 ^ k.toNat / 2 ^ (-k).toNat

variable {x y : Nat} {k l : Int}

theorem floorScale_of_nonneg (x : Nat) (hk : 0 ≤ k) : floorScale x k = x * 2 ^ k.toNat := by
  unfold floorScale
  rw [Int.toNat_of_nonpos (by omega : -k ≤ 0), Nat.pow_zero, Nat.div_one]

theorem floorScale_of_nonpos (x : Nat) (hk : k ≤ 0) : floorScale x k = x / 2 ^ (-k).toNat := by
  unfold floorScale
  rw [Int.toNat_of_nonpos hk, Nat.pow_zero, Nat.mul_one]

/-- The definition is the whole part of the rational number. -/
theorem floor_mul_zpow (x : Nat) (k : Int) : ⌊(x : ℚ) * 2 ^ k⌋ = (floorScale x k : Int) := by
  rcases le_total 0 k with hk | hk
  · rw [floorScale_of_nonneg x hk]
    obtain ⟨n, rfl⟩ := Int.eq_ofNat_of_zero_le hk
    have hcast : (x : ℚ) * 2 ^ (n : Int) = ((x * 2 ^ n : Nat) : Int) := by
      push_cast
      rw [zpow_natCast]
    rw [hcast, Int.floor_intCast, Int.toNat_natCast]
  · rw [floorScale_of_nonpos x hk]
    obtain ⟨n, hn⟩ := Int.eq_ofNat_of_zero_le (neg_nonneg.mpr hk)
    have hcast : (x : ℚ) * 2 ^ k = ((x : Int) : ℚ) / ((2 ^ n : Nat) : ℚ) := by
      rw [show k = -(n : Int) by omega, zpow_neg, zpow_natCast]
      push_cast
      rfl
    rw [hcast, Rat.floor_intCast_div_natCast, hn, Int.toNat_natCast]
    push_cast
    rfl

theorem floorScale_mono_left (hxy : x ≤ y) (k : Int) : floorScale x k ≤ floorScale y k :=
  Nat.div_le_div_right (Nat.mul_le_mul_right _ hxy)

theorem floorScale_mul_two (x : Nat) (k : Int) : floorScale (x * 2) k = floorScale x (k + 1) := by
  rcases le_or_gt 0 k with hk | hk
  · rw [floorScale_of_nonneg _ hk, floorScale_of_nonneg _ (by omega : 0 ≤ k + 1),
      show (k + 1).toNat = k.toNat + 1 by omega]
    ring
  · rw [floorScale_of_nonpos _ hk.le, floorScale_of_nonpos _ (by omega : k + 1 ≤ 0),
      show (-k).toNat = (-(k + 1)).toNat + 1 by omega, Nat.pow_succ]
    exact Nat.mul_div_mul_right _ _ (by decide)

theorem floorScale_mono_right (x : Nat) (hkl : k ≤ l) : floorScale x k ≤ floorScale x l := by
  induction l, hkl using Int.leInduction with
  | base => exact le_refl _
  | succ l _ ih =>
    refine le_trans ih ?_
    rw [← floorScale_mul_two]
    exact floorScale_mono_left (by omega) l

theorem floorScale_eq_zero {n : Nat} (hx : x < 2 ^ n) (hk : k ≤ -n) : floorScale x k = 0 := by
  rw [floorScale_of_nonpos x (by omega)]
  refine Nat.div_eq_of_lt (lt_of_lt_of_le hx ?_)
  exact Nat.pow_le_pow_right (by decide) (by omega)

end Rcpu.FloorScale
