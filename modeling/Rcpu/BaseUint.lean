import Mathlib.Data.Nat.ModEq
import Rcpu.Checks
import Rcpu.Radix

/-!
# Big integers

`base_uint` of `arith_uint256.h` and `arith_uint256.cpp`: numbers of a fixed width as words of 32 bits,
least significant first, with the loops over them.  Every operator is that of the numbers, modulo
`2 ^ BITS` where they do not fit.
-/

namespace Rcpu

/-- The words `pn` of a `base_uint<32 * WIDTH>`. -/
abbrev BaseUint (WIDTH : Nat) := Vector UInt32 WIDTH

namespace BaseUint

open Checks Radix

variable {WIDTH : Nat}

def limb (a : BaseUint WIDTH) (i : Nat) : UInt32 := a[i]?.getD 0

def toNat (a : BaseUint WIDTH) : Nat := value 32 (fun i => (limb a i).toNat) WIDTH

def zero : BaseUint WIDTH := Vector.replicate WIDTH 0

/-! ### The operators -/

/-- `operator=(uint64_t)` -/
def ofUint64 (b : UInt64) : BaseUint WIDTH :=
  Vector.ofFn fun i => if i.val = 0 then b.toUInt32 else if i.val = 1 then (b >>> 32).toUInt32 else 0

/-- `pn[pos] |= x`, where `pos` is a position of the array. -/
def orLimb (pn : BaseUint WIDTH) (pos : Nat) (x : UInt32) : BaseUint WIDTH :=
  if h : pos < WIDTH then pn.set pos (pn[pos] ||| x) else pn

def shiftLeftRound (a : BaseUint WIDTH) (k : Nat) (shift : UInt32) (i : Nat) (pn : BaseUint WIDTH) :
    BaseUint WIDTH :=
  let pn := if i + k + 1 < WIDTH ∧ shift ≠ 0 then orLimb pn (i + k + 1) (limb a i >>> (32 - shift))
    else pn
  if i + k < WIDTH then orLimb pn (i + k) (limb a i <<< shift) else pn

/-- `operator<<=` -/
def shiftLeft (a : BaseUint WIDTH) (shift : UInt32) : BaseUint WIDTH :=
  WIDTH.fold (fun i _ pn => shiftLeftRound a (shift / 32).toNat (shift % 32) i pn) zero

def shiftRightRound (a : BaseUint WIDTH) (k : Nat) (shift : UInt32) (i : Nat) (pn : BaseUint WIDTH) :
    BaseUint WIDTH :=
  let pn := if k + 1 ≤ i ∧ shift ≠ 0 then orLimb pn (i - k - 1) (limb a i <<< (32 - shift)) else pn
  if k ≤ i then orLimb pn (i - k) (limb a i >>> shift) else pn

/-- `operator>>=` -/
def shiftRight (a : BaseUint WIDTH) (shift : UInt32) : BaseUint WIDTH :=
  WIDTH.fold (fun i _ pn => shiftRightRound a (shift / 32).toNat (shift % 32) i pn) zero

/-- The loop `for (int i = 0; i + j < WIDTH; i++)` that replaces `pn[i + j]` by the low half of a sum
and carries the high half. -/
def carryLoop (sum : Nat → UInt64 → UInt32 → UInt64) (j : Nat) (pn : BaseUint WIDTH) :
    BaseUint WIDTH × UInt64 :=
  (WIDTH - j).fold (fun i h (pn, carry) =>
    let n := sum i carry (limb pn (i + j))
    (pn.set (i + j) (n &&& 0xFFFFFFFF).toUInt32 (Nat.add_lt_of_lt_sub h), n >>> 32)) (pn, 0)

/-- `operator+=` -/
def add (a b : BaseUint WIDTH) : BaseUint WIDTH :=
  (carryLoop (fun i carry x => carry + x.toUInt64 + (limb b i).toUInt64) 0 a).1

/-- `operator*=(uint32_t)` -/
def mulWord (a : BaseUint WIDTH) (b32 : UInt32) : BaseUint WIDTH :=
  (carryLoop (fun _ carry x => carry + b32.toUInt64 * x.toUInt64) 0 a).1

/-- `operator*=(const base_uint&)` -/
def mul (pn b : BaseUint WIDTH) : BaseUint WIDTH :=
  WIDTH.fold (fun j _ a => (carryLoop (fun i carry x =>
    carry + x.toUInt64 + (limb pn j).toUInt64 * (limb b i).toUInt64) j a).1) zero

/-- `operator++`: the words that become zero pass the carry on. -/
def increment (pn : BaseUint WIDTH) (i : Nat) : Nat → BaseUint WIDTH
  | 0 => pn
  | n + 1 =>
    if h : i < WIDTH then
      let pn := pn.set i (pn[i] + 1)
      if limb pn i = 0 then increment pn (i + 1) n else pn
    else pn

/-- `operator~` -/
def complement (a : BaseUint WIDTH) : BaseUint WIDTH := a.map fun x => ~~~x

/-- `operator-()` -/
def neg (a : BaseUint WIDTH) : BaseUint WIDTH := increment (complement a) 0 WIDTH

/-- `operator-=` -/
def sub (a b : BaseUint WIDTH) : BaseUint WIDTH := add a (neg b)

/-- `CompareTo`, from the word below position `i` down. -/
def compareBelow (a b : BaseUint WIDTH) : Nat → Int
  | 0 => 0
  | i + 1 =>
    if limb a i < limb b i then -1 else if limb a i > limb b i then 1 else compareBelow a b i

def compareTo (a b : BaseUint WIDTH) : Int := compareBelow a b WIDTH

/-- The inner loop of `bits`: the highest bit of a word, from bit `nbits` down. -/
def highestBit (x : UInt32) : Nat → Nat
  | 0 => 1
  | nbits + 1 =>
    if x &&& 1 <<< UInt32.ofNat (nbits + 1) ≠ 0 then nbits + 1 + 1 else highestBit x nbits

/-- `bits`, from the word below position `pos` down. -/
def bitsBelow (a : BaseUint WIDTH) : Nat → Nat
  | 0 => 0
  | pos + 1 => if limb a pos ≠ 0 then 32 * pos + highestBit (limb a pos) 31 else bitsBelow a pos

def bits (a : BaseUint WIDTH) : Nat := bitsBelow a WIDTH

/-- The loop of `operator/=`, from `shift = n - 1` down to 0. -/
def divLoop : Nat → BaseUint WIDTH → BaseUint WIDTH → BaseUint WIDTH → BaseUint WIDTH
  | 0, _, _, pn => pn
  | shift + 1, num, div, pn =>
    if compareTo num div ≥ 0 then
      divLoop shift (sub num div) (shiftRight div 1)
        (orLimb pn (shift / 32) (1 <<< UInt32.ofNat (shift &&& 31)))
    else divLoop shift num (shiftRight div 1) pn

/-- `operator/=` -/
def div (a b : BaseUint WIDTH) : Except String (BaseUint WIDTH) := do
  let num_bits := bits a
  let div_bits := bits b
  require (div_bits ≠ 0) "Division by zero"
  if div_bits > num_bits then return zero
  else
    let shift := num_bits - div_bits
    return divLoop (shift + 1) a (shiftLeft b (UInt32.ofNat shift)) zero

def getLow64 (a : BaseUint WIDTH) : UInt64 := (limb a 0).toUInt64 ||| (limb a 1).toUInt64 <<< 32

/-! ### Words and bits -/

section Words

variable {a b pn : BaseUint WIDTH} {i : Nat}

theorem limb_of_le (h : WIDTH ≤ i) : limb a i = 0 := by
  rw [limb, Vector.getElem?_eq_none h]
  rfl

theorem limb_lt (a : BaseUint WIDTH) (i : Nat) : (limb a i).toNat < 2 ^ 32 := (limb a i).toNat_lt

theorem toNat_lt (a : BaseUint WIDTH) : toNat a < 2 ^ (32 * WIDTH) := value_lt (limb_lt a) WIDTH

@[simp] theorem limb_zero (i : Nat) : limb (zero : BaseUint WIDTH) i = 0 := by
  unfold limb zero
  by_cases h : i < WIDTH
  · simp [h]
  · simp [h]

theorem toNat_zero : toNat (zero : BaseUint WIDTH) = 0 := by
  unfold toNat value
  simp

theorem limb_set (h : i < WIDTH) (x : UInt32) (j : Nat) :
    limb (a.set i x h) j = if i = j then x else limb a j := by
  unfold limb
  rw [Vector.getElem?_set h]
  split_ifs
  · rfl
  · rfl

theorem limb_orLimb (pn : BaseUint WIDTH) (pos : Nat) (x : UInt32) (j : Nat) :
    limb (orLimb pn pos x) j = limb pn j ||| if pos = j ∧ j < WIDTH then x else 0 := by
  unfold orLimb
  split_ifs with h hj hj
  · rw [limb_set, if_pos hj.1, ← hj.1, limb, Vector.getElem?_eq_getElem h]
    rfl
  · have hne : ¬ pos = j := fun heq => hj ⟨heq, heq ▸ h⟩
    rw [limb_set, if_neg hne]
    simp
  · exact absurd (hj.1 ▸ hj.2) h
  · simp

def bit (a : BaseUint WIDTH) (n : Nat) : Bool := (limb a (n / 32)).toNat.testBit (n % 32)

theorem testBit_toNat (a : BaseUint WIDTH) (n : Nat) : (toNat a).testBit n = bit a n := by
  unfold toNat bit
  rw [testBit_value (by decide) (limb_lt a)]
  by_cases h : n / 32 < WIDTH
  · simp [h]
  · rw [limb_of_le (Nat.le_of_not_lt h)]
    simp

theorem bit_zero (n : Nat) : bit (zero : BaseUint WIDTH) n = false := by
  unfold bit
  simp

theorem toNat_inj : toNat a = toNat b ↔ a = b := by
  constructor
  · intro h
    have hword : ∀ i, limb a i = limb b i := by
      intro i
      apply UInt32.toNat_inj.mp
      apply Nat.eq_of_testBit_eq
      intro r
      by_cases hr : r < 32
      · have hbit := congrArg (fun m => m.testBit (32 * i + r)) h
        simp only [testBit_toNat, bit] at hbit
        rwa [Nat.mul_add_mod, Nat.mod_eq_of_lt hr, Nat.mul_add_div (by decide), Nat.div_eq_of_lt hr,
          Nat.add_zero] at hbit
      · have hle := Nat.pow_le_pow_right (show 0 < 2 by decide) (Nat.le_of_not_lt hr)
        rw [Nat.testBit_lt_two_pow ((limb_lt a i).trans_le hle),
          Nat.testBit_lt_two_pow ((limb_lt b i).trans_le hle)]
    apply Vector.ext
    intro i hi
    have hi' := hword i
    rwa [limb, limb, Vector.getElem?_eq_getElem hi, Vector.getElem?_eq_getElem hi] at hi'
  · intro h
    rw [h]

theorem toNat_eq_low (hwidth : 2 ≤ WIDTH) (a : BaseUint WIDTH) :
    toNat a = (limb a 0).toNat + (limb a 1).toNat * 2 ^ 32 +
      2 ^ 64 * value 32 (fun i => (limb a (i + 2)).toNat) (WIDTH - 2) := by
  have happend := value_append (w := 32) (d := fun i => (limb a i).toNat) 2 (WIDTH - 2)
  rw [show 2 + (WIDTH - 2) = WIDTH by omega] at happend
  rw [toNat, happend, value_succ, value_succ, value_zero]
  simp

theorem toNat_ofUint64 (hwidth : 2 ≤ WIDTH) (b : UInt64) :
    toNat (ofUint64 b : BaseUint WIDTH) = b.toNat := by
  have hword : ∀ i < WIDTH, limb (ofUint64 b : BaseUint WIDTH) i =
      if i = 0 then b.toUInt32 else if i = 1 then (b >>> 32).toUInt32 else 0 := by
    intro i hi
    simp [limb, ofUint64, hi]
  have hhigh : value 32 (fun i => (limb (ofUint64 b : BaseUint WIDTH) (i + 2)).toNat) (WIDTH - 2) =
      value 32 (fun _ => 0) (WIDTH - 2) := by
    apply value_congr
    intro i hi
    rw [hword _ (by omega)]
    simp
  have hnone : value 32 (fun _ => 0) (WIDTH - 2) = 0 := by simp [value]
  have hb := b.toNat_lt
  rw [toNat_eq_low hwidth, hhigh, hnone, hword 0 (by omega), hword 1 (by omega), if_pos rfl,
    if_neg (by decide), if_pos rfl, UInt64.toNat_toUInt32, UInt64.toNat_toUInt32,
    UInt64.toNat_shiftRight, Nat.shiftRight_eq_div_pow]
  simp only [UInt64.reduceToNat, Nat.reduceMod]
  omega

theorem toNat_getLow64 (hwidth : 2 ≤ WIDTH) (a : BaseUint WIDTH) :
    (getLow64 a).toNat = toNat a % 2 ^ 64 := by
  have h0 := limb_lt a 0
  have h1 := limb_lt a 1
  have hor : (getLow64 a).toNat = (limb a 0).toNat + (limb a 1).toNat * 2 ^ 32 := by
    rw [getLow64, UInt64.toNat_or, UInt64.toNat_shiftLeft, UInt32.toNat_toUInt64,
      UInt32.toNat_toUInt64, show (32 : UInt64).toNat % 64 = 32 from rfl, Nat.shiftLeft_eq,
      Nat.mod_eq_of_lt (by omega), Nat.or_comm, Nat.mul_comm, Nat.add_comm]
    exact (Nat.two_pow_add_eq_or_of_lt h0 _).symm
  rw [hor, toNat_eq_low hwidth, Nat.add_mul_mod_self_left]
  exact (Nat.mod_eq_of_lt (by omega)).symm

theorem bit_orLimb (pn : BaseUint WIDTH) (pos : Nat) (x : UInt32) (n : Nat) :
    bit (orLimb pn pos x) n =
      (bit pn n || (decide (pos = n / 32 ∧ n / 32 < WIDTH) && x.toNat.testBit (n % 32))) := by
  unfold bit
  rw [limb_orLimb, UInt32.toNat_or, Nat.testBit_or]
  split_ifs with h
  · simp [h]
  · simp [h]

end Words

/-! ### Shifts -/

section Shifts

variable {pn : BaseUint WIDTH} {shift : UInt32} {i k t n : Nat}

theorem testBit_word_shiftLeft (x s : UInt32) (r : Nat) (hr : r < 32) :
    (x <<< s).toNat.testBit r =
      (decide (s.toNat % 32 ≤ r) && x.toNat.testBit (r - s.toNat % 32)) := by
  rw [UInt32.toNat_shiftLeft, Nat.testBit_mod_two_pow, Nat.testBit_shiftLeft]
  simp [hr]

theorem testBit_word_shiftRight (x s : UInt32) (r : Nat) :
    (x >>> s).toNat.testBit r = x.toNat.testBit (r + s.toNat % 32) := by
  rw [UInt32.toNat_shiftRight, Nat.testBit_shiftRight, Nat.add_comm]

theorem testBit_word_of_le (x : UInt32) {r : Nat} (hr : 32 ≤ r) : x.toNat.testBit r = false :=
  Nat.testBit_lt_two_pow (x.toNat_lt.trans_le (Nat.pow_le_pow_right (by decide) hr))

theorem toNat_shift_parts (shift : UInt32) :
    shift.toNat = 32 * (shift / 32).toNat + (shift % 32).toNat ∧ (shift % 32).toNat < 32 := by
  rw [UInt32.toNat_div, UInt32.toNat_mod]
  exact ⟨(Nat.div_add_mod _ _).symm, Nat.mod_lt _ (by decide)⟩

theorem toNat_sub_shift (hshift : shift.toNat < 32) (hne : shift ≠ 0) :
    (32 - shift).toNat % 32 = 32 - shift.toNat := by
  have hpos : 0 < shift.toNat := by
    apply Nat.pos_of_ne_zero
    intro hzero
    exact hne (UInt32.toNat_inj.mp hzero)
  rw [UInt32.toNat_sub_of_le _ _ (UInt32.le_iff_toNat_le.mpr hshift.le)]
  exact Nat.mod_eq_of_lt (Nat.sub_lt (by decide) hpos)

/-- Where the bits of a word go, in the two words that it is spread over. -/
theorem spread_left (x : UInt32) (ht : t < 32) (q r : Nat) (hr : r < 32) :
    (decide (i + k + 1 = q ∧ t ≠ 0) && x.toNat.testBit (r + (32 - t)) ||
        (decide (i + k = q ∧ t ≤ r) && x.toNat.testBit (r - t))) =
      (decide (32 * k + t ≤ 32 * q + r ∧ (32 * q + r - (32 * k + t)) / 32 = i) &&
        x.toNat.testBit ((32 * q + r - (32 * k + t)) % 32)) := by
  by_cases hlow : i + k = q
  · by_cases htr : t ≤ r
    · have hpos : (32 * q + r - (32 * k + t)) % 32 = r - t := by omega
      have hword : 32 * k + t ≤ 32 * q + r ∧ (32 * q + r - (32 * k + t)) / 32 = i := by omega
      simp [hlow, htr, hpos, hword]
    · have hword : ¬ (32 * k + t ≤ 32 * q + r ∧ (32 * q + r - (32 * k + t)) / 32 = i) := by omega
      have hnot : ¬ i + k + 1 = q := by omega
      simp [htr, hword, hnot]
  · by_cases hhigh : i + k + 1 = q ∧ r < t
    · have hpos : (32 * q + r - (32 * k + t)) % 32 = r + (32 - t) := by omega
      have hword : 32 * k + t ≤ 32 * q + r ∧ (32 * q + r - (32 * k + t)) / 32 = i := by omega
      have hne : t ≠ 0 := by omega
      simp [hhigh.1, hpos, hword, hlow, hne]
    · have hword : ¬ (32 * k + t ≤ 32 * q + r ∧ (32 * q + r - (32 * k + t)) / 32 = i) := by omega
      by_cases hq : i + k + 1 = q ∧ t ≠ 0
      · have hout : x.toNat.testBit (r + (32 - t)) = false := testBit_word_of_le x (by omega)
        simp [hout, hlow, hword]
      · simp [hq, hlow, hword]

theorem bit_ite_orLimb (c : Prop) [Decidable c] (pn : BaseUint WIDTH) (pos : Nat) (x : UInt32)
    (n : Nat) :
    bit (if c then orLimb pn pos x else pn) n =
      (bit pn n || (decide (c ∧ pos = n / 32 ∧ n / 32 < WIDTH) && x.toNat.testBit (n % 32))) := by
  split_ifs with h
  · rw [bit_orLimb]
    simp [h]
  · simp [h]

theorem bit_shiftLeftRound (a pn : BaseUint WIDTH) (k : Nat) {s : UInt32} (hs : s.toNat < 32)
    (i n : Nat) :
    bit (shiftLeftRound a k s i pn) n = (bit pn n ||
      (decide (n / 32 < WIDTH ∧ 32 * k + s.toNat ≤ n ∧ (n - (32 * k + s.toNat)) / 32 = i) &&
        bit a (n - (32 * k + s.toNat)))) := by
  have hspread := @spread_left i k _ (limb a i) hs (n / 32) (n % 32) (Nat.mod_lt _ (by decide))
  rw [Nat.div_add_mod] at hspread
  unfold shiftLeftRound
  rw [bit_ite_orLimb, bit_ite_orLimb, testBit_word_shiftLeft _ _ _ (Nat.mod_lt _ (by decide)),
    testBit_word_shiftRight, Nat.mod_eq_of_lt hs, Bool.or_assoc]
  by_cases hq : n / 32 < WIDTH
  · congr 1
    have hhigh : (decide ((i + k + 1 < WIDTH ∧ s ≠ 0) ∧ i + k + 1 = n / 32 ∧ n / 32 < WIDTH) &&
          (limb a i).toNat.testBit (n % 32 + (32 - s).toNat % 32)) =
        (decide (i + k + 1 = n / 32 ∧ s.toNat ≠ 0) &&
          (limb a i).toNat.testBit (n % 32 + (32 - s.toNat))) := by
      by_cases hne : s = 0
      · simp [hne]
      · have hpos : s.toNat ≠ 0 := fun hzero => hne (UInt32.toNat_inj.mp hzero)
        rw [toNat_sub_shift hs hne]
        congr 1
        simp only [hne, hpos, ne_eq, not_false_eq_true, and_true, decide_eq_decide]
        omega
    have hlow : decide (i + k < WIDTH ∧ i + k = n / 32 ∧ n / 32 < WIDTH) =
        decide (i + k = n / 32) := by
      rw [decide_eq_decide]
      omega
    rw [hhigh, hlow, ← Bool.and_assoc, ← Bool.decide_and, hspread]
    by_cases hi : (n - (32 * k + s.toNat)) / 32 = i
    · rw [bit, hi]
      simp [hq]
    · simp [hi]
  · simp [hq]

/-- **`operator<<=`** multiplies by a power of two. -/
theorem toNat_shiftLeft (a : BaseUint WIDTH) (shift : UInt32) :
    toNat (shiftLeft a shift) = toNat a * 2 ^ shift.toNat % 2 ^ (32 * WIDTH) := by
  obtain ⟨hparts, hlt⟩ := toNat_shift_parts shift
  -- after some rounds the bits of the words before them have been moved
  have hloop : ∀ n, bit (shiftLeft a shift) n = (decide (n / 32 < WIDTH ∧ shift.toNat ≤ n ∧
      (n - shift.toNat) / 32 < WIDTH) && bit a (n - shift.toNat)) := by
    unfold shiftLeft
    refine fold_induction (P := fun m pn => ∀ n, bit pn n = (decide (n / 32 < WIDTH ∧
      shift.toNat ≤ n ∧ (n - shift.toNat) / 32 < m) && bit a (n - shift.toNat))) ?_ ?_
    · intro n
      simp [bit_zero]
    · intro i _ pn hpn n
      rw [bit_shiftLeftRound a pn _ hlt, ← hparts, hpn, ← Bool.and_or_distrib_right,
        ← Bool.decide_or]
      congr 2
      rw [eq_iff_iff]
      omega
  apply Nat.eq_of_testBit_eq
  intro n
  rw [testBit_toNat, hloop, Nat.testBit_mod_two_pow, Nat.testBit_mul_two_pow, testBit_toNat,
    ← Bool.and_assoc, ← Bool.decide_and]
  by_cases hbit : bit a (n - shift.toNat) = true
  · have hword : (n - shift.toNat) / 32 < WIDTH := by
      by_contra hge
      rw [bit, limb_of_le (Nat.le_of_not_lt hge)] at hbit
      simp at hbit
    congr 2
    rw [eq_iff_iff]
    omega
  · rw [Bool.eq_false_of_not_eq_true hbit, Bool.and_false, Bool.and_false]

theorem spread_right (x : UInt32) (ht : t < 32) (q r : Nat) (hr : r < 32) :
    (decide (k + 1 ≤ i ∧ i - k - 1 = q ∧ t ≠ 0) && (decide (32 - t ≤ r) &&
        x.toNat.testBit (r - (32 - t))) ||
        (decide (k ≤ i ∧ i - k = q) && x.toNat.testBit (r + t))) =
      (decide ((32 * q + r + (32 * k + t)) / 32 = i) &&
        x.toNat.testBit ((32 * q + r + (32 * k + t)) % 32)) := by
  by_cases hlow : k ≤ i ∧ i - k = q
  · have hnot : ¬ (k + 1 ≤ i ∧ i - k - 1 = q ∧ t ≠ 0) := by omega
    by_cases hin : r + t < 32
    · have hpos : (32 * q + r + (32 * k + t)) % 32 = r + t := by omega
      have hword : (32 * q + r + (32 * k + t)) / 32 = i := by omega
      rw [decide_eq_false hnot, decide_eq_true hlow, decide_eq_true hword, hpos, Bool.false_and,
        Bool.false_or]
    · have hout : x.toNat.testBit (r + t) = false := testBit_word_of_le x (by omega)
      have hword : ¬ (32 * q + r + (32 * k + t)) / 32 = i := by omega
      rw [decide_eq_false hnot, decide_eq_false hword, hout, Bool.false_and, Bool.and_false,
        Bool.false_and, Bool.false_or]
  · by_cases hhigh : k + 1 ≤ i ∧ i - k - 1 = q ∧ 32 - t ≤ r
    · have hpos : (32 * q + r + (32 * k + t)) % 32 = r - (32 - t) := by omega
      have hword : (32 * q + r + (32 * k + t)) / 32 = i := by omega
      have hparts : k + 1 ≤ i ∧ i - k - 1 = q ∧ t ≠ 0 := by omega
      rw [decide_eq_true hparts, decide_eq_true hhigh.2.2, decide_eq_false hlow, decide_eq_true hword,
        hpos, Bool.false_and, Bool.or_false, Bool.true_and]
    · have hword : ¬ (32 * q + r + (32 * k + t)) / 32 = i := by omega
      have hnone : ¬ ((k + 1 ≤ i ∧ i - k - 1 = q ∧ t ≠ 0) ∧ 32 - t ≤ r) := by omega
      rw [← Bool.and_assoc, ← Bool.decide_and, decide_eq_false hnone, decide_eq_false hlow,
        decide_eq_false hword, Bool.false_and, Bool.false_and, Bool.false_and, Bool.or_false]

theorem bit_shiftRightRound (a pn : BaseUint WIDTH) (k : Nat) {s : UInt32} (hs : s.toNat < 32)
    {i : Nat} (hi : i < WIDTH) (n : Nat) :
    bit (shiftRightRound a k s i pn) n = (bit pn n ||
      (decide ((n + (32 * k + s.toNat)) / 32 = i) && bit a (n + (32 * k + s.toNat)))) := by
  have hspread := @spread_right i k _ (limb a i) hs (n / 32) (n % 32) (Nat.mod_lt _ (by decide))
  rw [Nat.div_add_mod] at hspread
  have hhigh : (decide ((k + 1 ≤ i ∧ s ≠ 0) ∧ i - k - 1 = n / 32 ∧ n / 32 < WIDTH) &&
        (decide ((32 - s).toNat % 32 ≤ n % 32) &&
          (limb a i).toNat.testBit (n % 32 - (32 - s).toNat % 32))) =
      (decide (k + 1 ≤ i ∧ i - k - 1 = n / 32 ∧ s.toNat ≠ 0) &&
        (decide (32 - s.toNat ≤ n % 32) &&
          (limb a i).toNat.testBit (n % 32 - (32 - s.toNat)))) := by
    by_cases hne : s = 0
    · simp [hne]
    · have hpos : s.toNat ≠ 0 := fun hzero => hne (UInt32.toNat_inj.mp hzero)
      rw [toNat_sub_shift hs hne]
      congr 1
      simp only [hne, hpos, ne_eq, not_false_eq_true, and_true, decide_eq_decide]
      omega
  have hlow : decide (k ≤ i ∧ i - k = n / 32 ∧ n / 32 < WIDTH) =
      decide (k ≤ i ∧ i - k = n / 32) := by
    rw [decide_eq_decide]
    omega
  unfold shiftRightRound
  rw [bit_ite_orLimb, bit_ite_orLimb, testBit_word_shiftLeft _ _ _ (Nat.mod_lt _ (by decide)),
    testBit_word_shiftRight, Nat.mod_eq_of_lt hs, Bool.or_assoc, hhigh, hlow, hspread]
  congr 1
  by_cases hword : (n + (32 * k + s.toNat)) / 32 = i
  · rw [bit, hword]
  · simp [hword]

/-- **`operator>>=`** divides by a power of two. -/
theorem toNat_shiftRight (a : BaseUint WIDTH) (shift : UInt32) :
    toNat (shiftRight a shift) = toNat a / 2 ^ shift.toNat := by
  obtain ⟨hparts, hlt⟩ := toNat_shift_parts shift
  have hloop : ∀ n, bit (shiftRight a shift) n =
      (decide ((n + shift.toNat) / 32 < WIDTH) && bit a (n + shift.toNat)) := by
    unfold shiftRight
    refine fold_induction (P := fun m pn => ∀ n, bit pn n =
      (decide ((n + shift.toNat) / 32 < m) && bit a (n + shift.toNat))) ?_ ?_
    · intro n
      simp [bit_zero]
    · intro i hi pn hpn n
      rw [bit_shiftRightRound a pn _ hlt hi, ← hparts, hpn, ← Bool.and_or_distrib_right,
        ← Bool.decide_or]
      congr 2
      rw [eq_iff_iff]
      omega
  apply Nat.eq_of_testBit_eq
  intro n
  rw [testBit_toNat, hloop, Nat.testBit_div_two_pow, testBit_toNat]
  by_cases hword : (n + shift.toNat) / 32 < WIDTH
  · simp [hword]
  · rw [bit, limb_of_le (Nat.le_of_not_lt hword)]
    simp

end Shifts

/-! ### Sums and products -/

section Carries

variable {sum : Nat → UInt64 → UInt32 → UInt64} {t : Nat → Nat → Nat} {j : Nat}

theorem toNat_low (n : UInt64) : (n &&& 0xFFFFFFFF).toUInt32.toNat = n.toNat % 2 ^ 32 := by
  have hmask : (0xFFFFFFFF : UInt64).toNat = 2 ^ 32 - 1 := rfl
  rw [UInt64.toNat_toUInt32, UInt64.toNat_and, hmask, Nat.and_two_pow_sub_one_eq_mod, Nat.mod_mod]

theorem toNat_high (n : UInt64) : (n >>> 32).toNat = n.toNat / 2 ^ 32 := by
  rw [UInt64.toNat_shiftRight, Nat.shiftRight_eq_div_pow]
  rfl

/-- A loop with a carry adds up its terms, if no sum wraps around. -/
theorem carryLoop_spec (hsum : ∀ i carry x, carry.toNat < 2 ^ 32 →
      (sum i carry x).toNat = carry.toNat + t i x.toNat) (pn : BaseUint WIDTH) :
    (∀ i < j, limb (carryLoop sum j pn).1 i = limb pn i) ∧
      value 32 (fun i => (limb (carryLoop sum j pn).1 (i + j)).toNat) (WIDTH - j) +
          2 ^ (32 * (WIDTH - j)) * (carryLoop sum j pn).2.toNat =
        value 32 (fun i => t i (limb pn (i + j)).toNat) (WIDTH - j) := by
  -- the words that were reached hold the sum so far, the others are as they were
  have hloop : (carryLoop sum j pn).2.toNat < 2 ^ 32 ∧
      (∀ i, i < j ∨ WIDTH - j + j ≤ i → limb (carryLoop sum j pn).1 i = limb pn i) ∧
      value 32 (fun i => (limb (carryLoop sum j pn).1 (i + j)).toNat) (WIDTH - j) +
          2 ^ (32 * (WIDTH - j)) * (carryLoop sum j pn).2.toNat =
        value 32 (fun i => t i (limb pn (i + j)).toNat) (WIDTH - j) := by
    unfold carryLoop
    refine fold_induction (P := fun m (r : BaseUint WIDTH × UInt64) => r.2.toNat < 2 ^ 32 ∧
      (∀ i, i < j ∨ m + j ≤ i → limb r.1 i = limb pn i) ∧
      value 32 (fun i => (limb r.1 (i + j)).toNat) m + 2 ^ (32 * m) * r.2.toNat =
        value 32 (fun i => t i (limb pn (i + j)).toNat) m) ?_ ?_
    · exact ⟨by simp, fun _ _ => rfl, by simp⟩
    · rintro m hm ⟨pn', carry⟩ ⟨hcarry, hsame, hvalue⟩
      dsimp only at hcarry hsame hvalue ⊢
      have hn := hsum m carry (limb pn' (m + j)) hcarry
      rw [hsame (m + j) (.inr (Nat.le_refl _))] at hn ⊢
      generalize sum m carry (limb pn (m + j)) = n at hn ⊢
      refine ⟨?_, ?_, ?_⟩
      · rw [toNat_high]
        exact Nat.div_lt_of_lt_mul n.toNat_lt
      · intro i hi
        rw [limb_set, if_neg (by omega)]
        exact hsame i (by omega)
      · have hbefore : value 32 (fun i => (limb (pn'.set (m + j) (n &&& 0xFFFFFFFF).toUInt32
            (Nat.add_lt_of_lt_sub hm)) (i + j)).toNat) m =
            value 32 (fun i => (limb pn' (i + j)).toNat) m := by
          apply value_congr
          intro i hi
          rw [limb_set, if_neg (by omega)]
        rw [value_succ, value_succ, hbefore, limb_set, if_pos rfl, toNat_low, toNat_high, ← hvalue]
        have hdigits := Nat.mod_add_div n.toNat (2 ^ 32)
        have hpow : 2 ^ (32 * (m + 1)) = 2 ^ (32 * m) * 2 ^ 32 := by rw [← Nat.pow_add, Nat.mul_succ]
        calc _ = value 32 (fun i => (limb pn' (i + j)).toNat) m +
              2 ^ (32 * m) * (n.toNat % 2 ^ 32 + 2 ^ 32 * (n.toNat / 2 ^ 32)) := by
              rw [hpow]
              ring
          _ = _ := by
              rw [hdigits, hn]
              ring
  exact ⟨fun i hi => hloop.2.1 i (.inl hi), hloop.2.2⟩

theorem toNat_carryLoop (hsum : ∀ i carry x, carry.toNat < 2 ^ 32 →
      (sum i carry x).toNat = carry.toNat + t i x.toNat) (pn : BaseUint WIDTH) :
    toNat (carryLoop sum 0 pn).1 =
      value 32 (fun i => t i (limb pn i).toNat) WIDTH % 2 ^ (32 * WIDTH) := by
  obtain ⟨-, hvalue⟩ := carryLoop_spec (j := 0) hsum pn
  simp only [Nat.add_zero, Nat.sub_zero] at hvalue
  rw [← hvalue, Nat.add_mul_mod_self_left]
  exact (Nat.mod_eq_of_lt (toNat_lt _)).symm

theorem toNat_add (a b : BaseUint WIDTH) :
    toNat (add a b) = (toNat a + toNat b) % 2 ^ (32 * WIDTH) := by
  unfold add
  rw [toNat_carryLoop (t := fun i x => x + (limb b i).toNat)]
  · rw [value_add]
    rfl
  · intro i carry x hcarry
    have hx := x.toNat_lt
    have hb := limb_lt b i
    rw [UInt64.toNat_add, UInt64.toNat_add, UInt32.toNat_toUInt64, UInt32.toNat_toUInt64]
    omega

theorem word_mul_le (x y : UInt32) : x.toNat * y.toNat ≤ 2 ^ 64 - 2 * 2 ^ 32 + 1 :=
  Nat.mul_le_mul (Nat.le_pred_of_lt x.toNat_lt) (Nat.le_pred_of_lt y.toNat_lt)

theorem toNat_mulWord (a : BaseUint WIDTH) (b32 : UInt32) :
    toNat (mulWord a b32) = toNat a * b32.toNat % 2 ^ (32 * WIDTH) := by
  unfold mulWord
  rw [toNat_carryLoop (t := fun _ x => b32.toNat * x)]
  · rw [value_mul_left, Nat.mul_comm]
    rfl
  · intro i carry x hcarry
    have hmul := word_mul_le b32 x
    rw [UInt64.toNat_add, UInt64.toNat_mul, UInt32.toNat_toUInt64, UInt32.toNat_toUInt64]
    omega

/-- One round of `operator*=` adds a multiple of the other factor, from a word on. -/
theorem toNat_mul_round {j : Nat} (hj : j < WIDTH) (p : UInt32) (a b : BaseUint WIDTH) :
    toNat (carryLoop (fun i carry x => carry + x.toUInt64 + p.toUInt64 * (limb b i).toUInt64) j a).1 ≡
      toNat a + p.toNat * 2 ^ (32 * j) * toNat b [MOD 2 ^ (32 * WIDTH)] := by
  have hsum : ∀ (i : Nat) (carry : UInt64) (x : UInt32), carry.toNat < 2 ^ 32 →
      (carry + x.toUInt64 + p.toUInt64 * (limb b i).toUInt64).toNat =
        carry.toNat + (x.toNat + p.toNat * (limb b i).toNat) := by
    intro i carry x hcarry
    have hmul := word_mul_le p (limb b i)
    have hx := x.toNat_lt
    rw [UInt64.toNat_add, UInt64.toNat_add, UInt64.toNat_mul, UInt32.toNat_toUInt64,
      UInt32.toNat_toUInt64, UInt32.toNat_toUInt64]
    omega
  obtain ⟨hlow, hvalue⟩ := carryLoop_spec (t := fun i x => x + p.toNat * (limb b i).toNat) (j := j) hsum a
  rw [value_add, value_mul_left] at hvalue
  generalize carryLoop (fun i carry x => carry + x.toUInt64 + p.toUInt64 * (limb b i).toUInt64) j a =
    r at hlow hvalue ⊢
  -- the words below `j`, and those from `j` on
  have hwidth : j + (WIDTH - j) = WIDTH := by omega
  have hr : toNat r.1 = value 32 (fun i => (limb a i).toNat) j +
      2 ^ (32 * j) * value 32 (fun i => (limb r.1 (i + j)).toNat) (WIDTH - j) := by
    have happend := value_append (w := 32) (d := fun i => (limb r.1 i).toNat) j (WIDTH - j)
    rw [hwidth] at happend
    rw [toNat, happend]
    congr 1
    apply value_congr
    intro i hi
    rw [hlow i hi]
  have ha := value_append (w := 32) (d := fun i => (limb a i).toNat) j (WIDTH - j)
  have hb := value_append (w := 32) (d := fun i => (limb b i).toNat) (WIDTH - j) j
  rw [hwidth] at ha
  rw [Nat.add_comm _ j, hwidth] at hb
  have hpow : 2 ^ (32 * WIDTH) = 2 ^ (32 * j) * 2 ^ (32 * (WIDTH - j)) := by
    rw [← Nat.pow_add, ← Nat.mul_add, hwidth]
  have hsplit : toNat r.1 + 2 ^ (32 * WIDTH) * (r.2.toNat +
      p.toNat * value 32 (fun i => (limb b (i + (WIDTH - j))).toNat) j) =
      toNat a + p.toNat * 2 ^ (32 * j) * toNat b := by
    rw [hr, toNat, ha, toNat, hb, hpow]
    calc _ = value 32 (fun i => (limb a i).toNat) j + 2 ^ (32 * j) *
          (value 32 (fun i => (limb r.1 (i + j)).toNat) (WIDTH - j) +
            2 ^ (32 * (WIDTH - j)) * r.2.toNat) +
          2 ^ (32 * j) * 2 ^ (32 * (WIDTH - j)) *
            (p.toNat * value 32 (fun i => (limb b (i + (WIDTH - j))).toNat) j) := by ring
      _ = _ := by
        rw [hvalue]
        ring
  rw [← hsplit]
  exact (Nat.add_mul_mod_self_left _ _ _).symm

theorem toNat_mul (a b : BaseUint WIDTH) :
    toNat (mul a b) = toNat a * toNat b % 2 ^ (32 * WIDTH) := by
  have hloop : toNat (mul a b) ≡ value 32 (fun i => (limb a i).toNat) WIDTH * toNat b
      [MOD 2 ^ (32 * WIDTH)] := by
    unfold mul
    refine fold_induction (P := fun j (r : BaseUint WIDTH) =>
      toNat r ≡ value 32 (fun i => (limb a i).toNat) j * toNat b [MOD 2 ^ (32 * WIDTH)]) ?_ ?_
    · rw [toNat_zero, value_zero, Nat.zero_mul]
    · intro j hj r hr
      rw [value_succ, Nat.add_mul]
      exact (toNat_mul_round hj (limb a j) r b).trans (hr.add_right _)
  rw [← Nat.mod_eq_of_lt (toNat_lt (mul a b))]
  exact hloop

end Carries

/-! ### Differences -/

section Differences

variable {a b pn : BaseUint WIDTH} {i : Nat}

theorem toNat_set (h : i < WIDTH) (x : UInt32) :
    toNat (pn.set i x h) + (limb pn i).toNat * 2 ^ (32 * i) = toNat pn + x.toNat * 2 ^ (32 * i) := by
  have hothers : ∀ j, j ≠ i → (limb (pn.set i x h) j).toNat = (limb pn j).toNat := by
    intro j hj
    rw [limb_set, if_neg (Ne.symm hj)]
  have hset := value_update (w := 32) h hothers
  rw [limb_set, if_pos rfl] at hset
  exact hset

theorem toNat_increment (pn : BaseUint WIDTH) (i n : Nat) (hn : WIDTH ≤ i + n) :
    toNat (increment pn i n) ≡ toNat pn + 2 ^ (32 * i) [MOD 2 ^ (32 * WIDTH)] := by
  have hbeyond : ∀ (pn : BaseUint WIDTH) j, WIDTH ≤ j →
      toNat pn ≡ toNat pn + 2 ^ (32 * j) [MOD 2 ^ (32 * WIDTH)] := by
    intro pn j hj
    have hdvd : 2 ^ (32 * WIDTH) ∣ 2 ^ (32 * j) := Nat.pow_dvd_pow 2 (Nat.mul_le_mul_left 32 hj)
    exact (Nat.modEq_zero_iff_dvd.mpr hdvd).symm.add_left (toNat pn)
  induction n generalizing pn i with
  | zero => exact hbeyond pn i hn
  | succ n ih =>
    rw [increment]
    split_ifs with hi
    · have hword : limb pn i = pn[i] := by
        rw [limb, Vector.getElem?_eq_getElem hi]
        rfl
      have hset := @toNat_set _ pn i hi (pn[i] + 1)
      rw [hword, UInt32.toNat_add, UInt32.toNat_one] at hset
      have hlt := pn[i].toNat_lt
      dsimp only
      rw [limb_set, if_pos rfl]
      by_cases hzero : pn[i] + 1 = 0
      · -- the word was at its maximum, so that the next one is reached
        have hmax : (pn[i].toNat + 1) % 2 ^ 32 = 0 := by
          have hsum := congrArg UInt32.toNat hzero
          rwa [UInt32.toNat_add, UInt32.toNat_one, UInt32.toNat_zero] at hsum
        have hfull : pn[i].toNat + 1 = 2 ^ 32 := by omega
        have hpow : 2 ^ (32 * (i + 1)) = pn[i].toNat * 2 ^ (32 * i) + 2 ^ (32 * i) := by
          rw [← Nat.succ_mul, Nat.succ_eq_add_one, hfull, ← Nat.pow_add, Nat.mul_succ, Nat.add_comm]
        have hrest := ih (pn.set i (pn[i] + 1)) (i + 1) (by omega)
        rw [hmax, Nat.zero_mul, Nat.add_zero] at hset
        rw [hpow, ← Nat.add_assoc, hset] at hrest
        rw [if_pos hzero]
        exact hrest
      · have hnext : (pn[i].toNat + 1) % 2 ^ 32 = pn[i].toNat + 1 := by
          apply Nat.mod_eq_of_lt
          by_contra hge
          apply hzero
          apply UInt32.toNat_inj.mp
          rw [UInt32.toNat_add, UInt32.toNat_one, UInt32.toNat_zero]
          omega
        rw [if_neg hzero]
        rw [hnext, Nat.add_mul, Nat.one_mul] at hset
        have hsum : toNat (pn.set i (pn[i] + 1)) = toNat pn + 2 ^ (32 * i) := by omega
        rw [hsum]
    · exact hbeyond pn i (Nat.le_of_not_lt hi)

theorem toNat_complement (a : BaseUint WIDTH) :
    toNat (complement a) + toNat a + 1 = 2 ^ (32 * WIDTH) := by
  rw [← value_max WIDTH, toNat, toNat, ← value_add]
  congr 1
  apply value_congr
  intro i hi
  have hword : limb (complement a) i = ~~~limb a i := by
    unfold limb complement
    simp [hi]
  rw [hword, UInt32.toNat_not]
  have hlt := limb_lt a i
  have hsize : UInt32.size = 2 ^ 32 := rfl
  omega

theorem toNat_neg (a : BaseUint WIDTH) :
    toNat (neg a) = (2 ^ (32 * WIDTH) - toNat a) % 2 ^ (32 * WIDTH) := by
  have hincrement := toNat_increment (complement a) 0 WIDTH (by omega)
  have hcomplement := toNat_complement a
  have hlt := toNat_lt a
  rw [Nat.mul_zero, Nat.pow_zero] at hincrement
  have hsum : toNat (complement a) + 1 = 2 ^ (32 * WIDTH) - toNat a := by omega
  rw [hsum] at hincrement
  rw [← Nat.mod_eq_of_lt (toNat_lt (neg a))]
  exact hincrement

theorem toNat_sub (a b : BaseUint WIDTH) :
    toNat (sub a b) = (toNat a + (2 ^ (32 * WIDTH) - toNat b)) % 2 ^ (32 * WIDTH) := by
  unfold sub
  rw [toNat_add, toNat_neg, Nat.add_mod_mod]

theorem toNat_sub_of_le (h : toNat b ≤ toNat a) : toNat (sub a b) = toNat a - toNat b := by
  have hlt := toNat_lt a
  have hsplit : toNat a + (2 ^ (32 * WIDTH) - toNat b) =
      toNat a - toNat b + 2 ^ (32 * WIDTH) := by omega
  rw [toNat_sub, hsplit, Nat.add_mod_right]
  exact Nat.mod_eq_of_lt (by omega)

end Differences

/-! ### Comparison and length -/

section Comparison

variable {a b : BaseUint WIDTH}

theorem compareBelow_cases (a b : BaseUint WIDTH) (n : Nat) :
    (compareBelow a b n = -1 ∧
      value 32 (fun i => (limb a i).toNat) n < value 32 (fun i => (limb b i).toNat) n) ∨
    (compareBelow a b n = 1 ∧
      value 32 (fun i => (limb b i).toNat) n < value 32 (fun i => (limb a i).toNat) n) ∨
    (compareBelow a b n = 0 ∧
      value 32 (fun i => (limb a i).toNat) n = value 32 (fun i => (limb b i).toNat) n) := by
  induction n with
  | zero => exact .inr (.inr ⟨rfl, rfl⟩)
  | succ n ih =>
    unfold compareBelow
    by_cases hless : limb a n < limb b n
    · rw [if_pos hless]
      exact .inl ⟨rfl, value_succ_lt (limb_lt a) (UInt32.lt_iff_toNat_lt.mp hless)⟩
    · by_cases hmore : limb a n > limb b n
      · rw [if_neg hless, if_pos hmore]
        exact .inr (.inl ⟨rfl, value_succ_lt (limb_lt b) (UInt32.lt_iff_toNat_lt.mp hmore)⟩)
      · rw [if_neg hless, if_neg hmore, value_succ, value_succ]
        rw [UInt32.lt_iff_toNat_lt] at hless
        rw [gt_iff_lt, UInt32.lt_iff_toNat_lt] at hmore
        have hsame : (limb a n).toNat = (limb b n).toNat := by omega
        rw [hsame]
        rcases ih with ⟨hc, hlt⟩ | ⟨hc, hlt⟩ | ⟨hc, heq⟩
        · exact .inl ⟨hc, Nat.add_lt_add_right hlt _⟩
        · exact .inr (.inl ⟨hc, Nat.add_lt_add_right hlt _⟩)
        · exact .inr (.inr ⟨hc, by rw [heq]⟩)

/-- **`CompareTo`** is the order of the numbers. -/
theorem compareTo_eq (a b : BaseUint WIDTH) : compareTo a b =
    if toNat a < toNat b then -1 else if toNat b < toNat a then 1 else 0 := by
  rcases compareBelow_cases a b WIDTH with ⟨hc, hlt⟩ | ⟨hc, hlt⟩ | ⟨hc, heq⟩
  · exact hc.trans (if_pos hlt).symm
  · exact hc.trans ((if_neg hlt.asymm).trans (if_pos hlt)).symm
  · rw [← toNat, ← toNat] at heq
    rw [heq, if_neg (Nat.lt_irrefl _), if_neg (Nat.lt_irrefl _)]
    exact hc

theorem compareTo_nonneg_iff : compareTo a b ≥ 0 ↔ toNat b ≤ toNat a := by
  rw [compareTo_eq]
  split_ifs with hlt hgt
  · exact iff_of_false (by decide) (Nat.not_le.mpr hlt)
  · exact iff_of_true (by decide) hgt.le
  · exact iff_of_true (by decide) (Nat.le_of_not_lt hlt)

theorem word_bit_ne_zero (x : UInt32) {n : Nat} (hn : n < 32) :
    x &&& 1 <<< UInt32.ofNat n ≠ 0 ↔ x.toNat.testBit n = true := by
  have hmod : (UInt32.ofNat n).toNat % 32 = n := by
    rw [UInt32.toNat_ofNat']
    omega
  have hone : (1 <<< UInt32.ofNat n : UInt32).toNat = 2 ^ n := by
    rw [UInt32.toNat_shiftLeft, hmod, UInt32.toNat_one, Nat.one_shiftLeft]
    exact Nat.mod_eq_of_lt (Nat.pow_lt_pow_right (by decide) hn)
  rw [ne_eq, ← UInt32.toNat_inj, UInt32.toNat_and, hone, Nat.and_two_pow]
  cases x.toNat.testBit n with
  | true => simp
  | false => simp

theorem highestBit_eq (x : UInt32) (n : Nat) (hn : n < 32) (hlt : x.toNat < 2 ^ (n + 1))
    (hpos : 0 < x.toNat) : highestBit x n = x.toNat.size := by
  induction n with
  | zero =>
    have hone : x.toNat = 1 := by omega
    rw [hone]
    rfl
  | succ n ih =>
    unfold highestBit
    by_cases hbit : x.toNat.testBit (n + 1) = true
    · rw [if_pos ((word_bit_ne_zero x hn).mpr hbit)]
      have hsize := Nat.lt_size.mpr (Nat.ge_two_pow_of_testBit hbit)
      have hsize' := Nat.size_le.mpr hlt
      omega
    · rw [if_neg (mt (word_bit_ne_zero x hn).mp hbit)]
      apply ih (Nat.lt_of_succ_lt hn)
      rw [Bool.not_eq_true] at hbit
      by_contra hge
      have hword : x.toNat / 2 ^ (n + 1) = 1 := by
        apply Nat.div_eq_of_lt_le
        · omega
        · rw [Nat.pow_succ] at hlt
          omega
      rw [Nat.testBit_eq_decide_div_mod_eq, hword] at hbit
      simp at hbit

theorem bitsBelow_eq (a : BaseUint WIDTH) (n : Nat) :
    bitsBelow a n = (value 32 (fun i => (limb a i).toNat) n).size := by
  induction n with
  | zero => simp [bitsBelow]
  | succ n ih =>
    unfold bitsBelow
    by_cases hzero : limb a n = 0
    · rw [if_neg (not_not.mpr hzero), ih, value_succ, hzero, UInt32.toNat_zero, Nat.zero_mul,
        Nat.add_zero]
    · have hne : (limb a n).toNat ≠ 0 := fun h => hzero (UInt32.toNat_inj.mp h)
      rw [if_pos hzero, highestBit_eq _ 31 (by decide) (limb_lt a n) (Nat.pos_of_ne_zero hne),
        size_value_succ (limb_lt a) hne]

/-- **`bits`** is the length of the number. -/
theorem bits_eq (a : BaseUint WIDTH) : bits a = (toNat a).size := bitsBelow_eq a WIDTH

end Comparison

/-! ### Quotients -/

section Quotients

variable {a b num div pn : BaseUint WIDTH}

theorem toNat_setBit {shift : Nat} (hshift : shift < 32 * WIDTH) (h : 2 ^ (shift + 1) ∣ toNat pn) :
    toNat (orLimb pn (shift / 32) (1 <<< UInt32.ofNat (shift &&& 31))) = toNat pn + 2 ^ shift := by
  have hamount : (UInt32.ofNat (shift &&& 31)).toNat % 32 = shift % 32 := by
    have hmask : shift &&& 31 = shift % 32 := Nat.and_two_pow_sub_one_eq_mod shift 5
    rw [hmask, UInt32.toNat_ofNat']
    omega
  have hone : (1 <<< UInt32.ofNat (shift &&& 31) : UInt32).toNat = 2 ^ (shift % 32) := by
    rw [UInt32.toNat_shiftLeft, hamount, UInt32.toNat_one, Nat.one_shiftLeft]
    exact Nat.mod_eq_of_lt (Nat.pow_lt_pow_right (by decide) (Nat.mod_lt _ (by decide)))
  obtain ⟨q, hq⟩ := h
  have hor : toNat pn + 2 ^ shift = toNat pn ||| 2 ^ shift := by
    rw [hq]
    exact Nat.two_pow_add_eq_or_of_lt (Nat.pow_lt_pow_right (by decide) (Nat.lt_succ_self shift)) q
  rw [hor]
  apply Nat.eq_of_testBit_eq
  intro n
  rw [testBit_toNat, bit_orLimb, hone, Nat.testBit_or, testBit_toNat, Nat.testBit_two_pow,
    Nat.testBit_two_pow, ← Bool.decide_and]
  congr 2
  rw [eq_iff_iff]
  omega

/-- The loop adds the quotient of what is left, bit by bit from `n - 1` down. -/
theorem toNat_divLoop (n : Nat) (hn : n ≤ 32 * WIDTH) (hb : 0 < toNat b)
    (hnum : toNat num < toNat b * 2 ^ n) (hdiv : ∀ m, n = m + 1 → toNat div = toNat b * 2 ^ m)
    (hpn : 2 ^ n ∣ toNat pn) :
    toNat (divLoop n num div pn) = toNat pn + toNat num / toNat b := by
  induction n generalizing num div pn with
  | zero =>
    rw [Nat.pow_zero, Nat.mul_one] at hnum
    rw [divLoop, Nat.div_eq_of_lt hnum, Nat.add_zero]
  | succ shift ih =>
    have hshifted := hdiv shift rfl
    have hdouble : toNat b * 2 ^ (shift + 1) = toNat b * 2 ^ shift + toNat b * 2 ^ shift := by
      rw [Nat.pow_succ]
      ring
    have hhalf : ∀ m, shift = m + 1 → toNat (shiftRight div 1) = toNat b * 2 ^ m := by
      rintro m rfl
      rw [toNat_shiftRight, hshifted, Nat.pow_succ, ← Nat.mul_assoc]
      exact Nat.mul_div_cancel _ (by decide)
    have hmultiple : 2 ^ shift ∣ toNat pn := (Nat.pow_dvd_pow 2 (Nat.le_succ shift)).trans hpn
    unfold divLoop
    split_ifs with hge
    · rw [ge_iff_le, ← ge_iff_le, compareTo_nonneg_iff] at hge
      have hleft := toNat_sub_of_le hge
      have hbit := @toNat_setBit _ pn shift (by omega) hpn
      rw [ih (by omega) (by omega) hhalf (by rw [hbit]; exact Nat.dvd_add hmultiple (Nat.dvd_refl _)),
        hbit, hleft, hshifted, Nat.add_assoc]
      rw [hshifted] at hge
      congr 1
      have hsplit : toNat num = toNat num - toNat b * 2 ^ shift + toNat b * 2 ^ shift := by omega
      conv_rhs => rw [hsplit, Nat.add_mul_div_left _ _ hb, Nat.add_comm]
    · have hless : toNat num < toNat div := Nat.lt_of_not_le (mt compareTo_nonneg_iff.mpr hge)
      exact ih (by omega) (by omega) hhalf hmultiple

/-- **`operator/=`** is the quotient, unless the divisor is zero. -/
theorem toNat_div (hwidth : 32 * WIDTH < 2 ^ 32) (hb : toNat b ≠ 0) :
    ∃ q, BaseUint.div a b = .ok q ∧ toNat q = toNat a / toNat b := by
  have hpos : 0 < toNat b := Nat.pos_of_ne_zero hb
  have hbits : bits b ≠ 0 := by
    rw [bits_eq]
    exact mt Nat.size_eq_zero.mp hb
  have hsize : 2 ^ (bits b - 1) ≤ toNat b := by
    rw [bits_eq] at hbits ⊢
    exact Nat.lt_size.mp (by omega)
  have ha : toNat a < 2 ^ bits a := by
    rw [bits_eq]
    exact Nat.lt_size_self _
  have hwide : bits a ≤ 32 * WIDTH := by
    rw [bits_eq]
    exact Nat.size_le.mpr (toNat_lt a)
  by_cases hmore : bits b > bits a
  · refine ⟨zero, bind_unit_eq_ok.mpr ⟨require_eq_ok.mpr hbits, if_pos hmore⟩, ?_⟩
    have hless : toNat a < toNat b :=
      ha.trans_le ((Nat.pow_le_pow_right (by decide) (by omega)).trans hsize)
    rw [toNat_zero, Nat.div_eq_of_lt hless]
  · refine ⟨_, bind_unit_eq_ok.mpr ⟨require_eq_ok.mpr hbits, if_neg hmore⟩, ?_⟩
    have hamount : (UInt32.ofNat (bits a - bits b)).toNat = bits a - bits b := by
      rw [UInt32.toNat_ofNat']
      exact Nat.mod_eq_of_lt (by omega)
    -- the divisor is moved up to the length of the dividend and still fits
    have hfits : toNat b * 2 ^ (bits a - bits b) < 2 ^ (32 * WIDTH) := by
      have hlt : toNat b < 2 ^ bits b := by
        rw [bits_eq]
        exact Nat.lt_size_self _
      calc toNat b * 2 ^ (bits a - bits b) < 2 ^ bits b * 2 ^ (bits a - bits b) :=
            Nat.mul_lt_mul_of_pos_right hlt (Nat.two_pow_pos _)
        _ = 2 ^ bits a := by
            rw [← Nat.pow_add]
            congr 1
            omega
        _ ≤ 2 ^ (32 * WIDTH) := Nat.pow_le_pow_right (by decide) hwide
    have hbound : toNat a < toNat b * 2 ^ (bits a - bits b + 1) := by
      calc toNat a < 2 ^ bits a := ha
        _ = 2 ^ (bits b - 1) * 2 ^ (bits a - bits b + 1) := by
            rw [← Nat.pow_add]
            congr 1
            omega
        _ ≤ toNat b * 2 ^ (bits a - bits b + 1) := Nat.mul_le_mul_right _ hsize
    rw [toNat_divLoop _ (by omega) hpos hbound, toNat_zero, Nat.zero_add]
    · rintro m hm
      have hm : m = bits a - bits b := by omega
      rw [toNat_shiftLeft, hamount, Nat.mod_eq_of_lt hfits, hm]
    · rw [toNat_zero]
      exact Nat.dvd_zero _

/-- **The operators of `arith_uint256` and `arith_uint512` are those of the integers** that their words
represent, modulo `2 ^ BITS`. -/
theorem operators_eq_integers (BITS : Nat) (hBITS : BITS = 256 ∨ BITS = 512)
    (a b : BaseUint (BITS / 32)) :
    (∀ shift : UInt32, toNat (shiftLeft a shift) = toNat a * 2 ^ shift.toNat % 2 ^ BITS) ∧
    (∀ shift : UInt32, toNat (shiftRight a shift) = toNat a / 2 ^ shift.toNat) ∧
    (∀ b32 : UInt32, toNat (mulWord a b32) = toNat a * b32.toNat % 2 ^ BITS) ∧
    toNat (mul a b) = toNat a * toNat b % 2 ^ BITS ∧
    (toNat b ≠ 0 → ∃ q, BaseUint.div a b = .ok q ∧ toNat q = toNat a / toNat b) ∧
    compareTo a b = if toNat a < toNat b then -1 else if toNat b < toNat a then 1 else 0 := by
  have hbits : 32 * (BITS / 32) = BITS := by omega
  refine ⟨?_, toNat_shiftRight a, ?_, ?_, ?_, compareTo_eq a b⟩
  · intro shift
    rw [toNat_shiftLeft, hbits]
  · intro b32
    rw [toNat_mulWord, hbits]
  · rw [toNat_mul, hbits]
  · intro hb
    exact toNat_div (by omega) hb

/-- Seven divided by two, with 256 bits. -/
theorem operators_eq_integers_seven_two :
    ∃ q, BaseUint.div (ofUint64 7 : BaseUint (256 / 32)) (ofUint64 2) = .ok q ∧ toNat q = 3 := by
  have hseven : toNat (ofUint64 7 : BaseUint (256 / 32)) = 7 := by decide
  have htwo : toNat (ofUint64 2 : BaseUint (256 / 32)) = 2 := by decide
  obtain ⟨-, -, -, -, hdiv, -⟩ := operators_eq_integers 256 (.inl rfl) (ofUint64 7) (ofUint64 2)
  obtain ⟨q, hq, hvalue⟩ := hdiv (by rw [htwo]; decide)
  rw [hseven, htwo] at hvalue
  exact ⟨q, hq, hvalue⟩

end Quotients

end BaseUint

end Rcpu
