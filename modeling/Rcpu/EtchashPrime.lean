import Rcpu.BinaryPower

/-!
# The primality test of Etchash

`mulmod`, `powmod` and `IsPrime` of `etchash.cpp`: products by doubling, powers by squaring, and the
strong test for fixed bases, all with 64 bits.  The sizes of the cache and of the dataset depend on it.
-/

namespace Rcpu.Etchash

open BinaryPower

/-! ### The functions -/

/-- The loop of `mulmod`; every round shifts one bit out of `b`. -/
def mulmodLoop (m : UInt64) : Nat → UInt64 → UInt64 → UInt64 → UInt64
  | 0, r, _, _ => r
  | n + 1, r, a, b =>
    if b = 0 then r
    else
      let r := if b &&& 1 ≠ 0 then
          let r := r + a
          if r ≥ m ∨ r < a then r - m else r
        else r
      let a := a <<< 1
      let a := if a ≥ m then a - m else a
      mulmodLoop m n r a (b >>> 1)

def mulmod (a b m : UInt64) : UInt64 := mulmodLoop m 64 0 a b

def powmodLoop (m : UInt64) : Nat → UInt64 → UInt64 → UInt64 → UInt64
  | 0, r, _, _ => r
  | n + 1, r, base, exp =>
    if exp = 0 then r
    else
      let r := if exp &&& 1 ≠ 0 then mulmod r base m else r
      powmodLoop m n r (mulmod base base m) (exp >>> 1)

def powmod (base exp m : UInt64) : UInt64 := powmodLoop m 64 (1 % m) (base % m) exp

def SMALL_PRIMES : List UInt64 := [2, 3, 5, 7, 11, 13, 17, 19, 23, 29, 31, 37]

def BASES : List UInt64 := [2, 325, 9375, 28178, 450775, 9780504, 1795265022]

def shiftOut : Nat → UInt64 → Nat → UInt64 × Nat
  | 0, d, r => (d, r)
  | n + 1, d, r => if d &&& 1 = 0 then shiftOut n (d >>> 1) (r + 1) else (d, r)

def squareLoop (n : UInt64) : Nat → UInt64 → Bool
  | 0, _ => false
  | k + 1, x =>
    let x := mulmod x x n
    if x = n - 1 then true else squareLoop n k x

def passesBase (n d : UInt64) (r : Nat) (a : UInt64) : Bool :=
  let a := a % n
  if a = 0 then true
  else
    let x := powmod a d n
    if x = 1 ∨ x = n - 1 then true else squareLoop n (r - 1) x

def isPrime (n : UInt64) : Bool :=
  if n < 2 then false
  else
    match SMALL_PRIMES.find? fun p => n % p = 0 with
    | some p => n = p
    | none =>
      let (d, r) := shiftOut 64 (n - 1) 0
      BASES.all (passesBase n d r)

/-! ### Products -/

theorem odd_iff (b : UInt64) : b &&& 1 ≠ 0 ↔ b.toNat % 2 = 1 := by
  rw [ne_eq, ← UInt64.toNat_inj, UInt64.toNat_and, UInt64.toNat_one, UInt64.toNat_zero,
    Nat.and_one_is_mod]
  omega

theorem toNat_halve (b : UInt64) : (b >>> 1).toNat = b.toNat / 2 := by
  rw [UInt64.toNat_shiftRight, Nat.shiftRight_eq_div_pow]
  rfl

theorem toNat_add_mod {m r a : UInt64} (hm : m.toNat ≤ 2 ^ 63) (hr : r.toNat < m.toNat)
    (ha : a.toNat < m.toNat) :
    (if r + a ≥ m ∨ r + a < a then r + a - m else r + a).toNat = (r.toNat + a.toNat) % m.toNat := by
  have hsum : (r + a).toNat = r.toNat + a.toNat := by
    rw [UInt64.toNat_add]
    exact Nat.mod_eq_of_lt (by omega)
  have hwrap : ¬ r + a < a := by
    rw [UInt64.lt_iff_toNat_lt, hsum]
    omega
  by_cases hge : r + a ≥ m
  · have hle : m.toNat ≤ r.toNat + a.toNat := by
      rw [← hsum]
      exact UInt64.le_iff_toNat_le.mp hge
    rw [if_pos (.inl hge), UInt64.toNat_sub_of_le _ _ hge, hsum, Nat.mod_eq_sub_mod hle,
      Nat.mod_eq_of_lt (by omega)]
  · have hlt : r.toNat + a.toNat < m.toNat := by
      rw [← hsum]
      exact Nat.lt_of_not_le (mt UInt64.le_iff_toNat_le.mpr hge)
    rw [if_neg (not_or.mpr ⟨hge, hwrap⟩), hsum, Nat.mod_eq_of_lt hlt]

theorem toNat_double_mod {m a : UInt64} (hm : m.toNat ≤ 2 ^ 63) (ha : a.toNat < m.toNat) :
    (if a <<< 1 ≥ m then a <<< 1 - m else a <<< 1).toNat = 2 * a.toNat % m.toNat := by
  have hdouble : a <<< 1 = a + a := by
    apply UInt64.toNat_inj.mp
    rw [UInt64.toNat_shiftLeft, UInt64.toNat_add, Nat.shiftLeft_eq]
    simp only [UInt64.reduceToNat, Nat.reduceMod]
    omega
  have hsum := toNat_add_mod hm ha ha
  have hwrap : ¬ a + a < a := by
    rw [UInt64.lt_iff_toNat_lt, UInt64.toNat_add, Nat.mod_eq_of_lt (by omega)]
    omega
  rw [hdouble, Nat.two_mul, ← hsum]
  simp only [hwrap, or_false]

theorem toNat_mulmodLoop {m : UInt64} (hm : m.toNat ≤ 2 ^ 63) (n : Nat) {r a b : UInt64}
    (hr : r.toNat < m.toNat) (ha : a.toNat < m.toNat) (hb : b.toNat < 2 ^ n) :
    (mulmodLoop m n r a b).toNat = (r.toNat + a.toNat * b.toNat) % m.toNat := by
  induction n generalizing r a b with
  | zero =>
    have hzero : b.toNat = 0 := by omega
    rw [mulmodLoop, hzero, Nat.mul_zero, Nat.add_zero, Nat.mod_eq_of_lt hr]
  | succ n ih =>
    unfold mulmodLoop
    by_cases hzero : b = 0
    · rw [if_pos hzero, hzero, UInt64.toNat_zero, Nat.mul_zero, Nat.add_zero, Nat.mod_eq_of_lt hr]
    · rw [if_neg hzero]
      have hpos : 0 < m.toNat := by omega
      have hround : (if b &&& 1 ≠ 0 then
          if r + a ≥ m ∨ r + a < a then r + a - m else r + a else r).toNat =
          (if b.toNat % 2 = 1 then r.toNat + a.toNat else r.toNat) % m.toNat := by
        by_cases hodd : b &&& 1 ≠ 0
        · rw [if_pos hodd, if_pos ((odd_iff b).mp hodd), toNat_add_mod hm hr ha]
        · rw [if_neg hodd, if_neg (mt (odd_iff b).mpr hodd), Nat.mod_eq_of_lt hr]
      have hdouble := toNat_double_mod hm ha
      have hhalf := toNat_halve b
      dsimp only
      rw [ih, hround, hdouble, hhalf, ← add_mul_halve r.toNat a.toNat b.toNat]
      · exact ((Nat.mod_modEq _ _).add ((Nat.mod_modEq _ _).mul_right _))
      · rw [hround]
        exact Nat.mod_lt _ hpos
      · rw [hdouble]
        exact Nat.mod_lt _ hpos
      · rw [hhalf]
        omega

/-- **`mulmod`** is the product modulo `m`. -/
theorem toNat_mulmod {a m : UInt64} (hm : m.toNat ≤ 2 ^ 63) (ha : a.toNat < m.toNat) (b : UInt64) :
    (mulmod a b m).toNat = a.toNat * b.toNat % m.toNat := by
  unfold mulmod
  rw [toNat_mulmodLoop hm 64 _ ha b.toNat_lt, UInt64.toNat_zero, Nat.zero_add]
  rw [UInt64.toNat_zero]
  omega

/-! ### Powers -/

theorem toNat_powmodLoop {m : UInt64} (hm : m.toNat ≤ 2 ^ 63) (n : Nat) {r base exp : UInt64}
    (hr : r.toNat < m.toNat) (hbase : base.toNat < m.toNat) (hexp : exp.toNat < 2 ^ n) :
    (powmodLoop m n r base exp).toNat = r.toNat * base.toNat ^ exp.toNat % m.toNat := by
  induction n generalizing r base exp with
  | zero =>
    have hzero : exp.toNat = 0 := by omega
    rw [powmodLoop, hzero, Nat.pow_zero, Nat.mul_one, Nat.mod_eq_of_lt hr]
  | succ n ih =>
    unfold powmodLoop
    by_cases hzero : exp = 0
    · rw [if_pos hzero, hzero, UInt64.toNat_zero, Nat.pow_zero, Nat.mul_one, Nat.mod_eq_of_lt hr]
    · rw [if_neg hzero]
      have hpos : 0 < m.toNat := by omega
      have hround : (if exp &&& 1 ≠ 0 then mulmod r base m else r).toNat =
          (if exp.toNat % 2 = 1 then r.toNat * base.toNat else r.toNat) % m.toNat := by
        by_cases hodd : exp &&& 1 ≠ 0
        · rw [if_pos hodd, if_pos ((odd_iff exp).mp hodd), toNat_mulmod hm hr]
        · rw [if_neg hodd, if_neg (mt (odd_iff exp).mpr hodd), Nat.mod_eq_of_lt hr]
      have hsquare := toNat_mulmod hm hbase base
      have hhalf := toNat_halve exp
      dsimp only
      rw [ih, hround, hsquare, hhalf, ← mul_pow_halve r.toNat base.toNat exp.toNat]
      · exact (Nat.mod_modEq _ _).mul ((Nat.mod_modEq _ _).pow _)
      · rw [hround]
        exact Nat.mod_lt _ hpos
      · rw [hsquare]
        exact Nat.mod_lt _ hpos
      · rw [hhalf]
        omega

/-- **`powmod`** is the power modulo `m`. -/
theorem toNat_powmod {m : UInt64} (hpos : 0 < m.toNat) (hm : m.toNat ≤ 2 ^ 63) (base exp : UInt64) :
    (powmod base exp m).toNat = base.toNat ^ exp.toNat % m.toNat := by
  unfold powmod
  rw [toNat_powmodLoop hm 64 _ _ exp.toNat_lt, UInt64.toNat_mod, UInt64.toNat_mod, UInt64.toNat_one]
  · calc 1 % m.toNat * (base.toNat % m.toNat) ^ exp.toNat % m.toNat
        = 1 * base.toNat ^ exp.toNat % m.toNat :=
          (Nat.mod_modEq _ _).mul ((Nat.mod_modEq _ _).pow _)
      _ = base.toNat ^ exp.toNat % m.toNat := by rw [Nat.one_mul]
  · rw [UInt64.toNat_mod]
    exact Nat.mod_lt _ hpos
  · rw [UInt64.toNat_mod]
    exact Nat.mod_lt _ hpos

/-! ### The test -/

theorem shiftOut_spec (n : Nat) {d : UInt64} (hd : d ≠ 0) (hlt : d.toNat < 2 ^ n) (r : Nat) :
    ∃ k, (shiftOut n d r).2 = r + k ∧ d.toNat = 2 ^ k * (shiftOut n d r).1.toNat ∧
      (shiftOut n d r).1.toNat % 2 = 1 := by
  have hpos : 0 < d.toNat := Nat.pos_of_ne_zero fun h => hd (UInt64.toNat_inj.mp h)
  induction n generalizing d r with
  | zero => omega
  | succ n ih =>
    unfold shiftOut
    by_cases heven : d &&& 1 = 0
    · have hmod := mt (odd_iff d).mpr (not_not.mpr heven)
      have hhalf := toNat_halve d
      have hne : d >>> 1 ≠ 0 := by
        intro hzero
        rw [hzero, UInt64.toNat_zero] at hhalf
        omega
      obtain ⟨k, hcount, hd', hodd⟩ := ih hne (by omega) (r + 1) (by omega)
      rw [if_pos heven]
      refine ⟨k + 1, by rw [hcount, Nat.add_assoc, Nat.add_comm 1 k], ?_, hodd⟩
      rw [Nat.pow_succ, Nat.mul_right_comm, ← hd', hhalf]
      omega
    · rw [if_neg heven]
      exact ⟨0, rfl, by rw [Nat.pow_zero, Nat.one_mul], (odd_iff d).mp heven⟩

section Prime

variable {n : UInt64} [Fact n.toNat.Prime]

theorem cast_inj {x y : UInt64} (hx : x.toNat < n.toNat) (hy : y.toNat < n.toNat) :
    (x.toNat : ZMod n.toNat) = y.toNat ↔ x = y := by
  rw [ZMod.natCast_eq_natCast_iff', Nat.mod_eq_of_lt hx, Nat.mod_eq_of_lt hy, UInt64.toNat_inj]

theorem toNat_pred : (n - 1).toNat = n.toNat - 1 := by
  have hone : (1 : UInt64).toNat ≤ n.toNat := (Fact.out : n.toNat.Prime).one_le
  rw [UInt64.toNat_sub_of_le _ _ (UInt64.le_iff_toNat_le.mpr hone), UInt64.toNat_one]

theorem cast_pred : ((n - 1).toNat : ZMod n.toNat) = -1 := by
  rw [toNat_pred, Nat.cast_sub (Fact.out : n.toNat.Prime).one_le, ZMod.natCast_self, Nat.cast_one,
    zero_sub]

theorem eq_pred_iff {x : UInt64} (hx : x.toNat < n.toNat) :
    x = n - 1 ↔ (x.toNat : ZMod n.toNat) = -1 := by
  have hpred : (n - 1).toNat < n.toNat := by
    rw [toNat_pred]
    exact Nat.sub_lt (Fact.out : n.toNat.Prime).pos Nat.one_pos
  rw [← cast_pred, cast_inj hx hpred]

theorem eq_one_iff {x : UInt64} (hx : x.toNat < n.toNat) :
    x = 1 ↔ (x.toNat : ZMod n.toNat) = 1 := by
  have hone : (1 : UInt64).toNat < n.toNat := (Fact.out : n.toNat.Prime).one_lt
  rw [← cast_inj hx hone, UInt64.toNat_one, Nat.cast_one]

theorem cast_mulmod {x : UInt64} (hlt : n.toNat ≤ 2 ^ 63) (hx : x.toNat < n.toNat) :
    ((mulmod x x n).toNat : ZMod n.toNat) = x.toNat * x.toNat := by
  rw [toNat_mulmod hlt hx, ZMod.natCast_mod, Nat.cast_mul]

theorem squareLoop_of_pow (hlt : n.toNat ≤ 2 ^ 63) (k : Nat) {x : UInt64} (hx : x.toNat < n.toNat)
    {i : Nat} (hi : 1 ≤ i) (hik : i ≤ k) (h : (x.toNat : ZMod n.toNat) ^ 2 ^ i = -1) :
    squareLoop n k x = true := by
  induction k generalizing x i with
  | zero => omega
  | succ k ih =>
    have hsquare := cast_mulmod hlt hx
    have hnext : (mulmod x x n).toNat < n.toNat := by
      rw [toNat_mulmod hlt hx]
      exact Nat.mod_lt _ (Fact.out : n.toNat.Prime).pos
    have hpow : ((mulmod x x n).toNat : ZMod n.toNat) ^ 2 ^ (i - 1) = -1 := by
      rw [hsquare, ← pow_two, ← pow_mul, ← pow_succ', Nat.sub_add_cancel hi]
      exact h
    unfold squareLoop
    by_cases hfound : mulmod x x n = n - 1
    · simp [hfound]
    · have hlater : 1 ≤ i - 1 := by
        by_contra hfirst
        apply hfound
        rw [eq_pred_iff hnext]
        have hzero : i - 1 = 0 := by omega
        rwa [hzero, pow_zero, pow_one] at hpow
      dsimp only
      rw [if_neg hfound]
      exact ih hnext hlater (by omega) hpow

theorem passesBase_of_prime (hlt : n.toNat < 2 ^ 63) {d : UInt64} {r : Nat}
    (hd : n.toNat - 1 = 2 ^ r * d.toNat) (a : UInt64) : passesBase n d r a = true := by
  unfold passesBase
  dsimp only
  have hpos := (Fact.out : n.toNat.Prime).pos
  have ha : (a % n).toNat < n.toNat := by
    rw [UInt64.toNat_mod]
    exact Nat.mod_lt _ hpos
  generalize a % n = a at ha ⊢
  by_cases hzero : a = 0
  · rw [if_pos hzero]
  · rw [if_neg hzero]
    have hcast : (a.toNat : ZMod n.toNat) ≠ 0 := by
      intro h
      rw [ZMod.natCast_eq_zero_iff] at h
      exact hzero (UInt64.toNat_inj.mp (Nat.eq_zero_of_dvd_of_lt h ha))
    have hx : (powmod a d n).toNat < n.toNat := by
      rw [toNat_powmod hpos hlt.le]
      exact Nat.mod_lt _ hpos
    have hpow : ((powmod a d n).toNat : ZMod n.toNat) = (a.toNat : ZMod n.toNat) ^ d.toNat := by
      rw [toNat_powmod hpos hlt.le, ZMod.natCast_mod, Nat.cast_pow]
    have htest := strong_test hd hcast
    rw [← hpow] at htest
    generalize powmod a d n = x at hx htest
    split_ifs with hend
    · rfl
    · rw [not_or, eq_one_iff hx, eq_pred_iff hx] at hend
      rcases htest with hone | ⟨i, hi, hneg⟩
      · exact absurd hone hend.1
      · -- the power is not the first one, so the loop comes to it
        have hlater : 1 ≤ i := by
          by_contra hfirst
          apply hend.2
          have hi0 : i = 0 := by omega
          rwa [hi0, pow_zero, pow_one] at hneg
        exact squareLoop_of_pow hlt.le (r - 1) hx hlater (by omega) hneg

end Prime

/-- **No prime is rejected.** -/
theorem isPrime_of_prime {n : UInt64} (hn : n.toNat.Prime) (hlt : n.toNat < 2 ^ 63) :
    isPrime n = true := by
  have : Fact n.toNat.Prime := ⟨hn⟩
  unfold isPrime
  have htwo : ¬ n < 2 := by
    rw [UInt64.lt_iff_toNat_lt]
    exact Nat.not_lt.mpr hn.two_le
  rw [if_neg htwo]
  cases hfind : SMALL_PRIMES.find? fun p => n % p = 0 with
  | some p =>
    have hmem := List.mem_of_find?_eq_some hfind
    have hdvd : p.toNat ∣ n.toNat := by
      have hmod := List.find?_some (p := fun p => decide (n % p = 0)) hfind
      have hzero := congrArg UInt64.toNat (of_decide_eq_true hmod)
      rw [UInt64.toNat_mod] at hzero
      exact Nat.dvd_of_mod_eq_zero hzero
    have hall : (SMALL_PRIMES.all fun q => q.toNat ≠ 1) = true := by decide
    have hone : p.toNat ≠ 1 := of_decide_eq_true (List.all_eq_true.mp hall p hmem)
    have hsame : p.toNat = n.toNat := ((Nat.dvd_prime hn).mp hdvd).resolve_left hone
    exact decide_eq_true (UInt64.toNat_inj.mp hsame).symm
  | none =>
    have hne : n - 1 ≠ 0 := by
      intro hzero
      have hpred := congrArg UInt64.toNat hzero
      rw [toNat_pred, UInt64.toNat_zero] at hpred
      have hge := hn.two_le
      omega
    obtain ⟨k, hcount, hd, -⟩ := shiftOut_spec 64 hne (n - 1).toNat_lt 0
    rw [toNat_pred] at hd
    rw [Nat.zero_add] at hcount
    dsimp only
    rw [List.all_eq_true]
    intro a _
    rw [hcount]
    exact passesBase_of_prime hlt hd a

/-- **The primality test never rejects a prime**, and `mulmod` and `powmod` are products and powers
modulo `m`. -/
theorem isPrime_complete :
    (∀ n : UInt64, n.toNat.Prime → n.toNat < 2 ^ 63 → isPrime n = true) ∧
    ∀ m : UInt64, 0 < m.toNat → m.toNat ≤ 2 ^ 63 → ∀ a : UInt64, a.toNat < m.toNat →
      (∀ b : UInt64, (mulmod a b m).toNat = a.toNat * b.toNat % m.toNat) ∧
      ∀ e : UInt64, (powmod a e m).toNat = a.toNat ^ e.toNat % m.toNat := by
  refine ⟨fun n hn hlt => isPrime_of_prime hn hlt, ?_⟩
  intro m hpos hm a ha
  exact ⟨toNat_mulmod hm ha, toNat_powmod hpos hm a⟩

/-- A prime above the small ones, and the largest modulus. -/
theorem isPrime_complete_sample :
    isPrime 41 = true ∧ (mulmod 0x4000000000000000 3 0x8000000000000000).toNat = 2 ^ 62 := by
  obtain ⟨hprime, hmod⟩ := isPrime_complete
  refine ⟨hprime 41 (by decide) (by decide), ?_⟩
  exact (hmod 0x8000000000000000 (by decide) (by decide) 0x4000000000000000 (by decide)).1 3

end Rcpu.Etchash
