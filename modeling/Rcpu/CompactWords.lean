import Mathlib.Order.Bounds.Basic
import Rcpu.BaseUint
import Rcpu.CompactTarget

/-!
# The compact form on words

`SetCompact` and `GetCompact` as `arith_uint256.cpp` computes them, with the shifts and the length loop
of `base_uint`.  They are the functions on numbers of `ArithUint256`; what comes back from the compact
form of a number is the largest compact number that is not above it.
-/

namespace Rcpu.CompactWords

open Checks BaseUint
open Rcpu.ArithUint256 (dropped truncated)

abbrev ArithUint256 := BaseUint 8

structure Decoded where
  number : ArithUint256
  fNegative : Bool
  fOverflow : Bool

def setCompact (nCompact : UInt32) : Decoded :=
  let nSize := (nCompact >>> 24).toNat
  let nWord := nCompact &&& 0x007FFFFF
  if nSize ≤ 3 then
    let nWord := nWord >>> UInt32.ofNat (8 * (3 - nSize))
    ⟨ofUint64 nWord.toUInt64, negative nWord, overflow nSize nWord⟩
  else
    ⟨shiftLeft (ofUint64 nWord.toUInt64) (UInt32.ofNat (8 * (nSize - 3))), negative nWord,
      overflow nSize nWord⟩
where
  negative (nWord : UInt32) : Bool := nWord ≠ 0 ∧ nCompact &&& 0x00800000 ≠ 0
  overflow (nSize : Nat) (nWord : UInt32) : Bool :=
    nWord ≠ 0 ∧ (nSize > 34 ∨ (nWord > 0xFF ∧ nSize > 33) ∨ (nWord > 0xFFFF ∧ nSize > 32))

def getCompact (a : ArithUint256) (fNegative : Bool) : Except String UInt32 := do
  let nSize := (bits a + 7) / 8
  let nCompact : UInt32 :=
    if nSize ≤ 3 then (getLow64 a <<< UInt64.ofNat (8 * (3 - nSize))).toUInt32
    else (getLow64 (shiftRight a (UInt32.ofNat (8 * (nSize - 3))))).toUInt32
  -- the sign bit must stay free
  let (nCompact, nSize) :=
    if nCompact &&& 0x00800000 ≠ 0 then (nCompact >>> 8, nSize + 1) else (nCompact, nSize)
  require (nCompact &&& ~~~0x007FFFFF = 0) "(nCompact & ~0x007fffffU) == 0"
  require (nSize < 256) "nSize < 256"
  let nCompact := nCompact ||| UInt32.ofNat nSize <<< 24
  return nCompact ||| if fNegative ∧ nCompact &&& 0x007FFFFF ≠ 0 then 0x00800000 else 0

/-! ### The functions on numbers -/

theorem toNat_ofNat_of_lt {n : Nat} (h : n < 2 ^ 32) : (UInt32.ofNat n).toNat = n := by
  rw [UInt32.toNat_ofNat']
  exact Nat.mod_eq_of_lt h

theorem negative_eq (nCompact nWord : UInt32) :
    setCompact.negative nCompact nWord = ArithUint256.setCompact.flag nCompact nWord.toNat := by
  unfold setCompact.negative ArithUint256.setCompact.flag
  rw [decide_eq_decide, ne_eq, ne_eq nWord.toNat, ← UInt32.toNat_inj]
  rfl

theorem overflow_eq (nSize : Nat) (nWord : UInt32) :
    setCompact.overflow nSize nWord = ArithUint256.setCompact.overflow nSize nWord.toNat := by
  unfold setCompact.overflow ArithUint256.setCompact.overflow
  simp only [decide_eq_decide, ne_eq, ← UInt32.toNat_inj, gt_iff_lt, UInt32.lt_iff_toNat_lt]
  rfl

/-- **`SetCompact`** on words is `SetCompact` on numbers. -/
theorem setCompact_eq (nCompact : UInt32) :
    (⟨toNat (setCompact nCompact).number, (setCompact nCompact).fNegative,
      (setCompact nCompact).fOverflow⟩ : ArithUint256.Compact) = ArithUint256.setCompact nCompact := by
  have hsize : (nCompact >>> 24).toNat < 2 ^ 8 := by
    rw [UInt32.toNat_shiftRight, Nat.shiftRight_eq_div_pow]
    exact Nat.div_lt_of_lt_mul nCompact.toNat_lt
  unfold setCompact ArithUint256.setCompact
  dsimp only
  generalize (nCompact >>> 24).toNat = nSize at hsize ⊢
  generalize nCompact &&& 0x007FFFFF = nWord
  split_ifs with hsmall
  · have hshift : (nWord >>> UInt32.ofNat (8 * (3 - nSize))).toNat =
        nWord.toNat / 2 ^ (8 * (3 - nSize)) := by
      rw [UInt32.toNat_shiftRight, toNat_ofNat_of_lt (by omega), Nat.mod_eq_of_lt (by omega),
        Nat.shiftRight_eq_div_pow]
    rw [negative_eq, overflow_eq, hshift, toNat_ofUint64 (by decide), UInt32.toNat_toUInt64, hshift]
  · rw [negative_eq, overflow_eq, toNat_shiftLeft, toNat_ofUint64 (by decide), UInt32.toNat_toUInt64,
      toNat_ofNat_of_lt (by omega)]

theorem word_eq (a : ArithUint256) : (if (bits a + 7) / 8 ≤ 3 then
      (getLow64 a <<< UInt64.ofNat (8 * (3 - (bits a + 7) / 8))).toUInt32
      else (getLow64 (shiftRight a (UInt32.ofNat (8 * ((bits a + 7) / 8 - 3))))).toUInt32) =
    UInt32.ofNat (ArithUint256.leading (toNat a)) := by
  have hlt : toNat a < 2 ^ 256 := toNat_lt a
  have hbits : (toNat a).size ≤ 256 := Nat.size_le.mpr hlt
  have hlow : ∀ b : ArithUint256, (getLow64 b).toNat = toNat b % 2 ^ 64 := toNat_getLow64 (by decide)
  rw [← ArithUint256.word_eq_leading, bits_eq]
  apply UInt32.toNat_inj.mp
  split_ifs with hsmall
  · have hamount : (UInt64.ofNat (8 * (3 - ((toNat a).size + 7) / 8))).toNat % 64 =
        8 * (3 - ((toNat a).size + 7) / 8) := by
      rw [UInt64.toNat_ofNat']
      omega
    rw [UInt64.toNat_toUInt32, UInt64.toNat_shiftLeft, hlow, hamount, UInt32.toNat_ofNat',
      Nat.shiftLeft_eq]
    exact Nat.mod_mod_of_dvd _ (by decide)
  · rw [UInt64.toNat_toUInt32, hlow, toNat_shiftRight, toNat_ofNat_of_lt (by omega),
      UInt32.toNat_ofNat']
    exact Nat.mod_mod_of_dvd _ (by decide)

theorem and_not_mask {n : Nat} (h : n < 2 ^ 23) : UInt32.ofNat n &&& ~~~0x007FFFFF = 0 := by
  have hmask : (~~~0x007FFFFF : UInt32).toNat = 511 * 2 ^ 23 := rfl
  apply UInt32.toNat_inj.mp
  apply Nat.eq_of_testBit_eq
  intro i
  rw [UInt32.toNat_and, hmask, toNat_ofNat_of_lt (by omega), Nat.testBit_and, Nat.testBit_mul_two_pow,
    UInt32.toNat_zero, Nat.zero_testBit]
  by_cases hi : 23 ≤ i
  · rw [Nat.testBit_lt_two_pow (h.trans_le (Nat.pow_le_pow_right (by decide) hi)), Bool.false_and]
  · rw [decide_eq_false hi, Bool.false_and, Bool.and_false]

/-- **`GetCompact`** on words is `GetCompact` on numbers; its assertions hold. -/
theorem getCompact_eq (a : ArithUint256) :
    getCompact a false = .ok (ArithUint256.getCompact (toNat a)) := by
  have hbits : (toNat a).size ≤ 256 := Nat.size_le.mpr (toNat_lt a)
  have hlead := ArithUint256.leading_lt (toNat a)
  unfold getCompact ArithUint256.getCompact
  dsimp only
  rw [word_eq, ArithUint256.word_eq_leading, bits_eq]
  by_cases hbit : ArithUint256.leading (toNat a) < 2 ^ 23
  · have hsign := (ArithUint256.sign_leading (toNat a)).mpr hbit
    rw [if_neg (not_not.mpr hsign), if_neg (not_not.mpr hsign)]
    refine bind_unit_eq_ok.mpr ⟨require_eq_ok.mpr (and_not_mask hbit), ?_⟩
    refine bind_unit_eq_ok.mpr ⟨require_eq_ok.mpr (by omega), ?_⟩
    simp
  · have hsign := mt (ArithUint256.sign_leading (toNat a)).mp hbit
    rw [if_pos hsign, if_pos hsign, ArithUint256.leading_shiftRight]
    refine bind_unit_eq_ok.mpr ⟨require_eq_ok.mpr (and_not_mask (by omega)), ?_⟩
    refine bind_unit_eq_ok.mpr ⟨require_eq_ok.mpr (by omega), ?_⟩
    simp

/-! ### Rounding down -/

/-- The numbers that have a compact form, without a sign and without overflow. -/
def Representable (v : Nat) : Prop :=
  ∃ c, toNat (setCompact c).number = v ∧ (setCompact c).fNegative = false ∧
    (setCompact c).fOverflow = false

def byteLength (v : Nat) : Nat := (v.size + 7) / 8

theorem setCompact_number (nCompact : UInt32) :
    toNat (setCompact nCompact).number = (ArithUint256.setCompact nCompact).value :=
  congrArg ArithUint256.Compact.value (setCompact_eq nCompact)

theorem setCompact_getCompact (x : ArithUint256) :
    ∃ c, getCompact x false = .ok c ∧ toNat (setCompact c).number = truncated (toNat x) ∧
      (setCompact c).fNegative = false ∧ (setCompact c).fOverflow = false := by
  have hdecoded := setCompact_eq (ArithUint256.getCompact (toNat x))
  rw [ArithUint256.setCompact_getCompact (toNat_lt x)] at hdecoded
  injection hdecoded with hvalue hnegative hoverflow
  exact ⟨_, getCompact_eq x, hvalue, hnegative, hoverflow⟩

theorem Representable.truncated_eq {v : Nat} (h : Representable v) : truncated v = v := by
  obtain ⟨c, rfl, -, -⟩ := h
  rw [setCompact_number]
  exact ArithUint256.truncated_setCompact c

theorem representable_truncated (x : ArithUint256) : Representable (truncated (toNat x)) := by
  obtain ⟨c, -, hvalue, hnegative, hoverflow⟩ := setCompact_getCompact x
  exact ⟨c, hvalue, hnegative, hoverflow⟩

theorem size_truncated (n : Nat) : (truncated n).size = n.size := by
  apply Nat.le_antisymm
  · exact Nat.size_le_size (ArithUint256.truncated_le n)
  · by_cases hzero : n.size = 0
    · rw [hzero]
      exact Nat.zero_le _
    · have hdrop : dropped n ≤ n.size - 1 := by
        unfold dropped
        omega
      have hsplit : 2 ^ (n.size - 1) = 2 ^ (n.size - 1 - dropped n) * 2 ^ dropped n := by
        rw [← Nat.pow_add, Nat.sub_add_cancel hdrop]
      have hfirst : 2 ^ (n.size - 1) ≤ n := Nat.lt_size.mp (by omega)
      have hkept : 2 ^ (n.size - 1) ≤ truncated n := by
        unfold truncated
        rw [hsplit] at hfirst ⊢
        exact Nat.mul_le_mul_right _ ((Nat.le_div_iff_mul_le (Nat.two_pow_pos _)).mpr hfirst)
      have hlt := Nat.lt_size.mpr hkept
      omega

/-- The compact form of a number stands for the largest compact number that is not above it. -/
theorem isGreatest_truncated (x : ArithUint256) :
    IsGreatest {v | v ≤ toNat x ∧ Representable v} (truncated (toNat x)) := by
  refine ⟨⟨ArithUint256.truncated_le _, representable_truncated x⟩, ?_⟩
  rintro v ⟨hle, hv⟩
  rw [← hv.truncated_eq]
  exact ArithUint256.truncated_mono hle

/-- **Compact targets round down and keep the order**: to the largest compact number of the same
length, without flags; numbers decoded from a compact form come back. -/
theorem compact_rounds_down :
    (∀ x : ArithUint256, ∃ c, getCompact x false = .ok c ∧
      (setCompact c).fNegative = false ∧ (setCompact c).fOverflow = false ∧
      IsGreatest {v | v ≤ toNat x ∧ byteLength v = byteLength (toNat x) ∧ Representable v}
        (toNat (setCompact c).number) ∧
      IsGreatest {v | v ≤ toNat x ∧ Representable v} (toNat (setCompact c).number) ∧
      (toNat (setCompact c).number = 0 → toNat x = 0)) ∧
    (∀ (x y : ArithUint256) (c d : UInt32), toNat x ≤ toNat y → getCompact x false = .ok c →
      getCompact y false = .ok d → toNat (setCompact c).number ≤ toNat (setCompact d).number) ∧
    (∀ c : UInt32, (setCompact c).fNegative = false → (setCompact c).fOverflow = false →
      toNat (setCompact c).number ≠ 0 →
      ∃ d, getCompact (setCompact c).number false = .ok d ∧
        (setCompact d).number = (setCompact c).number) := by
  refine ⟨?_, ?_, ?_⟩
  · intro x
    obtain ⟨c, hc, hvalue, hnegative, hoverflow⟩ := setCompact_getCompact x
    have hgreatest := isGreatest_truncated x
    refine ⟨c, hc, hnegative, hoverflow, ?_, ?_, ?_⟩
    · rw [hvalue]
      refine ⟨⟨hgreatest.1.1, ?_, hgreatest.1.2⟩, ?_⟩
      · rw [byteLength, size_truncated, byteLength]
      · rintro v ⟨hle, -, hv⟩
        exact hgreatest.2 ⟨hle, hv⟩
    · rw [hvalue]
      exact hgreatest
    · intro hzero
      by_contra hne
      have hpos := ArithUint256.truncated_pos (Nat.pos_of_ne_zero hne)
      omega
  · intro x y c d hle hx hy
    obtain ⟨c', hc', hvalue, -⟩ := setCompact_getCompact x
    obtain ⟨d', hd', hvalue', -⟩ := setCompact_getCompact y
    obtain rfl := Except.ok.inj (hx.symm.trans hc')
    obtain rfl := Except.ok.inj (hy.symm.trans hd')
    rw [hvalue, hvalue']
    exact ArithUint256.truncated_mono hle
  · intro c hnegative hoverflow _
    obtain ⟨d, hd, hvalue, -⟩ := setCompact_getCompact (setCompact c).number
    refine ⟨d, hd, toNat_inj.mp ?_⟩
    rw [hvalue]
    exact Representable.truncated_eq ⟨c, rfl, hnegative, hoverflow⟩

/-- A target that was read from its compact form is given back. -/
theorem compact_rounds_down_sample :
    ∃ d, getCompact (setCompact 0x1D00FFFF).number false = .ok d ∧
      (setCompact d).number = (setCompact 0x1D00FFFF).number :=
  compact_rounds_down.2.2 0x1D00FFFF (by decide) (by decide) (by decide)

end Rcpu.CompactWords
