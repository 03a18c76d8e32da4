import Mathlib.Data.Nat.Bitwise
import Rcpu.ArithUint256

/-!
# Targets in compact form

`GetCompact` keeps the first bytes of a number, `SetCompact` reads them back.  What comes back is the
number cut off below its leading two or three bytes, without a sign and without overflow; a target
that was read from a compact form is not cut off again.
-/

namespace Rcpu.ArithUint256

/-! ### The fields of a compact number -/

/-- A mantissa below the sign bit and a size, as they are packed. -/
def pack (nWord nSize : Nat) : UInt32 := UInt32.ofNat (nWord + nSize * 2 ^ 24)

section Pack

variable {nWord nSize : Nat}

theorem toNat_pack (hword : nWord < 2 ^ 23) (hsize : nSize < 256) :
    (pack nWord nSize).toNat = nWord + nSize * 2 ^ 24 := by
  unfold pack
  rw [UInt32.toNat_ofNat']
  omega

theorem pack_shiftRight (hword : nWord < 2 ^ 23) (hsize : nSize < 256) :
    (pack nWord nSize >>> 24).toNat = nSize := by
  rw [UInt32.toNat_shiftRight, toNat_pack hword hsize, Nat.shiftRight_eq_div_pow]
  simp only [UInt32.reduceToNat, Nat.reduceMod]
  omega

theorem pack_mantissa (hword : nWord < 2 ^ 23) (hsize : nSize < 256) :
    (pack nWord nSize &&& 0x007FFFFF).toNat = nWord := by
  rw [UInt32.toNat_and, toNat_pack hword hsize]
  have hmask : (0x007FFFFF : UInt32).toNat = 2 ^ 23 - 1 := rfl
  rw [hmask, Nat.and_two_pow_sub_one_eq_mod]
  omega

theorem sign_eq_zero_iff {c : UInt32} : c &&& 0x00800000 = 0 ↔ c.toNat / 2 ^ 23 % 2 = 0 := by
  have hmask : (0x00800000 : UInt32).toNat = 2 ^ 23 := rfl
  rw [← UInt32.toNat_inj, UInt32.toNat_and, hmask, Nat.and_two_pow,
    Nat.testBit_eq_decide_div_mod_eq]
  simp

theorem pack_sign (hword : nWord < 2 ^ 23) (hsize : nSize < 256) :
    pack nWord nSize &&& 0x00800000 = 0 := by
  rw [sign_eq_zero_iff, toNat_pack hword hsize]
  omega

theorem setCompact_pack (hword : nWord < 2 ^ 23) (hsize : nSize < 33 ∨ nSize = 33 ∧ nWord < 2 ^ 16) :
    setCompact (pack nWord nSize) =
      ⟨if nSize ≤ 3 then nWord / 2 ^ (8 * (3 - nSize)) else nWord * 2 ^ (8 * (nSize - 3)) % 2 ^ 256,
        false, false⟩ := by
  have hlt : nSize < 256 := by omega
  have hflag : ∀ word, setCompact.flag (pack nWord nSize) word = false := by
    intro word
    simp [setCompact.flag, pack_sign hword hlt]
  have hoverflow : ∀ word ≤ nWord, setCompact.overflow nSize word = false := by
    intro word hle
    unfold setCompact.overflow
    rw [decide_eq_false_iff_not]
    omega
  unfold setCompact
  dsimp only
  rw [pack_shiftRight hword hlt, pack_mantissa hword hlt]
  split_ifs with hsmall
  · rw [hflag, hoverflow _ (Nat.div_le_self _ _)]
  · rw [hflag, hoverflow _ (le_refl _)]

end Pack

/-! ### Packing a number -/

/-- The leading bytes that `GetCompact` reads first. -/
def leading (n : Nat) : Nat :=
  let nSize := (Nat.size n + 7) / 8
  if nSize ≤ 3 then n * 2 ^ (8 * (3 - nSize)) else n / 2 ^ (8 * (nSize - 3))

theorem leading_lt (n : Nat) : leading n < 2 ^ 24 := by
  have hn : n < 2 ^ (8 * ((Nat.size n + 7) / 8)) :=
    lt_of_lt_of_le (Nat.lt_size_self n) (Nat.pow_le_pow_right (by decide) (by omega))
  unfold leading
  dsimp only
  split_ifs with hsmall
  · calc n * 2 ^ (8 * (3 - (Nat.size n + 7) / 8))
        < 2 ^ (8 * ((Nat.size n + 7) / 8)) * 2 ^ (8 * (3 - (Nat.size n + 7) / 8)) :=
          Nat.mul_lt_mul_of_pos_right hn (Nat.two_pow_pos _)
      _ = 2 ^ 24 := by
          rw [← Nat.pow_add]
          congr 1
          omega
  · rw [Nat.div_lt_iff_lt_mul (Nat.two_pow_pos _), ← Nat.pow_add]
    refine lt_of_lt_of_le hn (Nat.pow_le_pow_right (by decide) ?_)
    omega

theorem or_shiftLeft_eq_pack {nWord nSize : Nat} (hword : nWord < 2 ^ 23) (hsize : nSize < 256) :
    UInt32.ofNat nWord ||| UInt32.ofNat nSize <<< 24 = pack nWord nSize := by
  apply UInt32.toNat_inj.mp
  rw [UInt32.toNat_or, UInt32.toNat_shiftLeft, UInt32.toNat_ofNat', UInt32.toNat_ofNat',
    toNat_pack hword hsize, Nat.mod_eq_of_lt (by omega : nWord < 2 ^ 32),
    Nat.mod_eq_of_lt (by omega : nSize < 2 ^ 32)]
  simp only [UInt32.reduceToNat, Nat.reduceMod]
  rw [Nat.mod_eq_of_lt (by rw [Nat.shiftLeft_eq]; omega), Nat.or_comm,
    ← Nat.shiftLeft_add_eq_or_of_lt (by omega : nWord < 2 ^ 24), Nat.shiftLeft_eq, Nat.add_comm]

theorem word_eq_leading (n : Nat) : (if (Nat.size n + 7) / 8 ≤ 3 then
      UInt32.ofNat (n % 2 ^ 64 * 2 ^ (8 * (3 - (Nat.size n + 7) / 8)))
      else UInt32.ofNat (n / 2 ^ (8 * ((Nat.size n + 7) / 8 - 3)))) = UInt32.ofNat (leading n) := by
  unfold leading
  dsimp only
  split_ifs with hsmall
  · have hbound : n < 2 ^ 64 :=
      lt_of_lt_of_le (Nat.lt_size_self n) (Nat.pow_le_pow_right (by decide) (by omega))
    rw [Nat.mod_eq_of_lt hbound]
  · rfl

theorem sign_leading (n : Nat) :
    UInt32.ofNat (leading n) &&& 0x00800000 = 0 ↔ leading n < 2 ^ 23 := by
  have hlead := leading_lt n
  rw [sign_eq_zero_iff, UInt32.toNat_ofNat', Nat.mod_eq_of_lt (by omega : leading n < 2 ^ 32)]
  omega

theorem leading_shiftRight (n : Nat) :
    UInt32.ofNat (leading n) >>> 8 = UInt32.ofNat (leading n / 2 ^ 8) := by
  have hlead := leading_lt n
  apply UInt32.toNat_inj.mp
  rw [UInt32.toNat_shiftRight, UInt32.toNat_ofNat', UInt32.toNat_ofNat', Nat.shiftRight_eq_div_pow]
  simp only [UInt32.reduceToNat, Nat.reduceMod]
  omega

theorem getCompact_eq {n : Nat} (hn : n < 2 ^ 256) :
    getCompact n = if leading n < 2 ^ 23 then pack (leading n) ((Nat.size n + 7) / 8)
      else pack (leading n / 2 ^ 8) ((Nat.size n + 7) / 8 + 1) := by
  have hsize : Nat.size n ≤ 256 := Nat.size_le.mpr hn
  have hlead := leading_lt n
  unfold getCompact
  dsimp only
  rw [word_eq_leading]
  by_cases hbit : leading n < 2 ^ 23
  · rw [if_neg (not_not.mpr ((sign_leading n).mpr hbit)), if_pos hbit]
    exact or_shiftLeft_eq_pack hbit (by omega)
  · rw [if_pos (mt (sign_leading n).mp hbit), if_neg hbit, leading_shiftRight]
    exact or_shiftLeft_eq_pack (by omega) (by omega)

/-! ### What is kept -/

def dropped (n : Nat) : Nat := 8 * (Nat.size n / 8 - 2)

/-- A number without the bits that its compact form drops. -/
def truncated (n : Nat) : Nat := n / 2 ^ dropped n * 2 ^ dropped n

theorem truncated_le (n : Nat) : truncated n ≤ n := Nat.div_mul_le_self n _

theorem two_pow_dropped_le {n : Nat} (hn : 0 < n) : 2 ^ dropped n ≤ n := by
  have hsize : 0 < Nat.size n := Nat.size_pos.mpr hn
  refine le_trans (Nat.pow_le_pow_right (by decide) ?_) (Nat.lt_size.mp (Nat.sub_one_lt_of_lt hsize))
  unfold dropped
  omega

theorem truncated_pos {n : Nat} (hn : 0 < n) : 0 < truncated n :=
  Nat.mul_pos (Nat.div_pos (two_pow_dropped_le hn) (Nat.two_pow_pos _)) (Nat.two_pow_pos _)

theorem truncated_of_dvd {n : Nat} (h : 2 ^ dropped n ∣ n) : truncated n = n := Nat.div_mul_cancel h

theorem truncated_mono {m n : Nat} (h : m ≤ n) : truncated m ≤ truncated n := by
  have hsizes : Nat.size m ≤ Nat.size n := Nat.size_le_size h
  by_cases hsame : Nat.size m / 8 = Nat.size n / 8
  · have hdropped : dropped m = dropped n := by rw [dropped, hsame, dropped]
    unfold truncated
    rw [hdropped]
    exact Nat.mul_le_mul_right _ (Nat.div_le_div_right h)
  · -- a power of two with no bits to drop lies between the two numbers
    have hless : Nat.size m / 8 < Nat.size n / 8 := by omega
    have hbelow : m < 2 ^ (8 * (Nat.size n / 8) - 1) :=
      lt_of_lt_of_le (Nat.lt_size_self m) (Nat.pow_le_pow_right (by decide) (by omega))
    have habove : 2 ^ (8 * (Nat.size n / 8) - 1) ≤ n :=
      le_trans (Nat.pow_le_pow_right (by decide) (by omega))
        (Nat.lt_size.mp (by omega : Nat.size n - 1 < Nat.size n))
    have hsplit : 2 ^ (8 * (Nat.size n / 8) - 1) =
        2 ^ (8 * (Nat.size n / 8) - 1 - dropped n) * 2 ^ dropped n := by
      rw [← Nat.pow_add]
      congr 1
      unfold dropped
      omega
    calc truncated m ≤ m := truncated_le m
      _ ≤ 2 ^ (8 * (Nat.size n / 8) - 1) := hbelow.le
      _ = 2 ^ (8 * (Nat.size n / 8) - 1 - dropped n) * 2 ^ dropped n := hsplit
      _ ≤ n / 2 ^ dropped n * 2 ^ dropped n := by
          refine Nat.mul_le_mul_right _ ?_
          rw [Nat.le_div_iff_mul_le (Nat.two_pow_pos _), ← hsplit]
          exact habove

theorem leading_lt_iff (n : Nat) :
    leading n < 2 ^ 23 ↔ Nat.size n ≤ 8 * ((Nat.size n + 7) / 8) - 1 := by
  rw [Nat.size_le]
  unfold leading
  dsimp only
  split_ifs with hsmall
  · by_cases hzero : Nat.size n = 0
    · have hn : n = 0 := Nat.size_eq_zero.mp hzero
      simp [hn]
    · have hpow : (2 : Nat) ^ 23 = 2 ^ (8 * ((Nat.size n + 7) / 8) - 1) *
          2 ^ (8 * (3 - (Nat.size n + 7) / 8)) := by
        rw [← Nat.pow_add]
        congr 1
        omega
      rw [hpow, Nat.mul_lt_mul_right (Nat.two_pow_pos _)]
  · rw [Nat.div_lt_iff_lt_mul (Nat.two_pow_pos _), ← Nat.pow_add]
    have hexp : 23 + 8 * ((Nat.size n + 7) / 8 - 3) = 8 * ((Nat.size n + 7) / 8) - 1 := by omega
    rw [hexp]

theorem div_mul_eq_truncated {n k : Nat} (hn : n < 2 ^ 256) (hk : k = dropped n) :
    n / 2 ^ k * 2 ^ k % 2 ^ 256 = truncated n := by
  subst hk
  exact Nat.mod_eq_of_lt (lt_of_le_of_lt (truncated_le n) hn)

theorem truncated_of_dropped {n : Nat} (h : dropped n = 0) : truncated n = n := by
  apply truncated_of_dvd
  rw [h]
  exact one_dvd n

/-- **A number comes back from its compact form cut off**, with neither flag set. -/
theorem setCompact_getCompact {n : Nat} (hn : n < 2 ^ 256) :
    setCompact (getCompact n) = ⟨truncated n, false, false⟩ := by
  have hsize : Nat.size n ≤ 256 := Nat.size_le.mpr hn
  have hlead := leading_lt n
  have hfree := leading_lt_iff n
  rw [getCompact_eq hn]
  by_cases hbit : leading n < 2 ^ 23
  · have hbits := hfree.mp hbit
    rw [if_pos hbit, setCompact_pack hbit (by omega), leading]
    by_cases hsmall : (Nat.size n + 7) / 8 ≤ 3
    · rw [if_pos hsmall, if_pos hsmall, Nat.mul_div_cancel _ (Nat.two_pow_pos _),
        truncated_of_dropped (by unfold dropped; omega)]
    · rw [if_neg hsmall, if_neg hsmall, div_mul_eq_truncated hn (by unfold dropped; omega)]
  · have hbits : Nat.size n = 8 * ((Nat.size n + 7) / 8) := by
      have := mt hfree.mpr hbit
      omega
    rw [if_neg hbit, setCompact_pack (by omega) (by omega), leading]
    by_cases htiny : (Nat.size n + 7) / 8 + 1 ≤ 3
    · have hpow : (2 : Nat) ^ (8 * (3 - (Nat.size n + 7) / 8)) =
          2 ^ 8 * 2 ^ (8 * (3 - ((Nat.size n + 7) / 8 + 1))) := by
        rw [← Nat.pow_add]
        congr 1
        omega
      rw [if_pos htiny, if_pos (by omega), Nat.div_div_eq_div_mul, ← hpow,
        Nat.mul_div_cancel _ (Nat.two_pow_pos _), truncated_of_dropped (by unfold dropped; omega)]
    · rw [if_neg htiny]
      by_cases hthree : (Nat.size n + 7) / 8 ≤ 3
      · have hequal : (Nat.size n + 7) / 8 = 3 := by omega
        have hdropped : 8 = dropped n := by
          unfold dropped
          omega
        rw [if_pos hthree, hequal, show 8 * (3 - 3) = 0 from rfl, Nat.pow_zero, Nat.mul_one,
          ← div_mul_eq_truncated hn hdropped]
      · have hexp : 8 * ((Nat.size n + 7) / 8 - 3) + 8 = 8 * ((Nat.size n + 7) / 8 + 1 - 3) := by omega
        have hdropped : 8 * ((Nat.size n + 7) / 8 + 1 - 3) = dropped n := by
          unfold dropped
          omega
        rw [if_neg hthree, Nat.div_div_eq_div_mul, ← Nat.pow_add, hexp,
          ← div_mul_eq_truncated hn hdropped]

/-- A mantissa with whole bytes below it has nothing to drop, even if it does not fit. -/
theorem truncated_mul_two_pow_mod {nWord : Nat} (hword : nWord < 2 ^ 23) (j : Nat) :
    truncated (nWord * 2 ^ (8 * j) % 2 ^ 256) = nWord * 2 ^ (8 * j) % 2 ^ 256 := by
  apply truncated_of_dvd
  by_cases hfits : 8 * j ≤ 256
  · have hlt : nWord * 2 ^ (8 * j) % 2 ^ 256 < 2 ^ (23 + 8 * j) := by
      refine lt_of_le_of_lt (Nat.mod_le _ _) ?_
      rw [Nat.pow_add]
      exact Nat.mul_lt_mul_of_pos_right hword (Nat.two_pow_pos _)
    have hbits := Nat.size_le.mpr hlt
    have hdropped : dropped (nWord * 2 ^ (8 * j) % 2 ^ 256) ≤ 8 * j := by
      unfold dropped
      omega
    refine (Nat.pow_dvd_pow 2 hdropped).trans ?_
    rw [Nat.dvd_mod_iff (Nat.pow_dvd_pow 2 hfits)]
    exact Nat.dvd_mul_left _ _
  · have hzero : nWord * 2 ^ (8 * j) % 2 ^ 256 = 0 :=
      Nat.mod_eq_zero_of_dvd ((Nat.pow_dvd_pow 2 (by omega)).trans (Nat.dvd_mul_left _ _))
    rw [hzero]
    exact dvd_zero _

theorem truncated_setCompact (nCompact : UInt32) :
    truncated (setCompact nCompact).value = (setCompact nCompact).value := by
  have hword : (nCompact &&& 0x007FFFFF).toNat < 2 ^ 23 := by
    rw [UInt32.toNat_and]
    exact lt_of_le_of_lt Nat.and_le_right (by decide)
  unfold setCompact
  dsimp only
  split_ifs with hsmall
  · refine truncated_of_dropped ?_
    have hlt : (nCompact &&& 0x007FFFFF).toNat / 2 ^ (8 * (3 - (nCompact >>> 24).toNat)) < 2 ^ 23 :=
      lt_of_le_of_lt (Nat.div_le_self _ _) hword
    have hbits := Nat.size_le.mpr hlt
    unfold dropped
    dsimp only
    omega
  · exact truncated_mul_two_pow_mod hword _

end Rcpu.ArithUint256
