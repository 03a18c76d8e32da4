import Mathlib.Algebra.Ring.Commute
import Mathlib.FieldTheory.Finite.Basic

/-!
# Powers by squaring

What one round of a loop over the bits of an exponent keeps, and what squaring a residue can lead to
in a ring without zero divisors: a root of one of order `2 ^ r` is one, or becomes minus one on the
way.  A prime therefore passes the strong test for every base.
-/

namespace Rcpu.BinaryPower

theorem mul_pow_halve {M : Type} [Monoid M] (r x : M) (e : Nat) :
    (if e % 2 = 1 then r * x else r) * (x * x) ^ (e / 2) = r * x ^ e := by
  have hsplit := Nat.div_add_mod e 2
  have hsquare : (x * x) ^ (e / 2) = x ^ (2 * (e / 2)) := by rw [← pow_two, ← pow_mul]
  rw [hsquare]
  split_ifs with hodd
  · rw [hodd] at hsplit
    rw [mul_assoc, ← pow_succ', hsplit]
  · have heven : e % 2 = 0 := by omega
    rw [heven, Nat.add_zero] at hsplit
    rw [hsplit]

theorem add_mul_halve (r x e : Nat) :
    (if e % 2 = 1 then r + x else r) + 2 * x * (e / 2) = r + x * e := by
  have hsplit := Nat.div_add_mod e 2
  have hdouble : 2 * x * (e / 2) = x * (2 * (e / 2)) := by ring
  rw [hdouble]
  split_ifs with hodd
  · rw [hodd] at hsplit
    conv_rhs => rw [← hsplit]
    ring
  · have heven : e % 2 = 0 := by omega
    rw [heven, Nat.add_zero] at hsplit
    rw [hsplit]

section Roots

variable {R : Type} [CommRing R] [NoZeroDivisors R] {x : R} {r : Nat}

/-- What repeated squaring of a root of one leads to. -/
theorem eq_one_or_exists_pow_eq_neg_one (h : x ^ 2 ^ r = 1) : x = 1 ∨ ∃ i < r, x ^ 2 ^ i = -1 := by
  induction r with
  | zero =>
    rw [pow_zero, pow_one] at h
    exact .inl h
  | succ r ih =>
    rw [pow_succ, pow_mul, pow_two] at h
    rcases mul_self_eq_one_iff.mp h with hone | hneg
    · rcases ih hone with hx | ⟨i, hi, hx⟩
      · exact .inl hx
      · exact .inr ⟨i, hi.trans (Nat.lt_succ_self r), hx⟩
    · exact .inr ⟨r, Nat.lt_succ_self r, hneg⟩

end Roots

/-- **A prime passes the strong test** for every base that it does not divide. -/
theorem strong_test {p d r : Nat} [Fact p.Prime] (hp : p - 1 = 2 ^ r * d) {a : ZMod p} (ha : a ≠ 0) :
    a ^ d = 1 ∨ ∃ i < r, (a ^ d) ^ 2 ^ i = -1 := by
  apply eq_one_or_exists_pow_eq_neg_one
  rw [← pow_mul, Nat.mul_comm, ← hp]
  exact ZMod.pow_card_sub_one_eq_one ha

end Rcpu.BinaryPower
