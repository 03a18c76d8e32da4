import Mathlib.Data.Nat.Bitwise
import Mathlib.Tactic.NormNum
import Rcpu.ByteStream
import Rcpu.CheckedMemory
import Rcpu.PairedLoop
import Rcpu.SquareSum
import Rcpu.TokenBucket
import Rcpu.Transaction

/-!
# The qhash simulation

`QHashFromSeed` simulates a circuit on sixteen qubits with integers in units of `2^30`.  Every product
and every sum that the code computes in 64 bits is checked here, so that a run gives a result only if
none overflows.  A bound on single amplitudes would grow with every gate; the sum of the squares of all
amplitudes does not, up to the rounding of each, and it bounds the amplitudes through the whole run.
-/

namespace Rcpu.QHash

open ByteStream Transaction PairedLoop SquareSum TokenBucket

/-! ### Fixed point -/

def Q30_ONE : Int := 2 ^ 30
def Q30_HALF : Int := 2 ^ 29

def NQUBITS : Nat := 16
def NAMP : Nat := 2 ^ NQUBITS
def NROUNDS : Nat := 2

/-- `cos(k*pi/8)` for `k` from 1 to 8. -/
def Q_COS : Vector Int 8 :=
  #v[992008094, 759250125, 410903207, 0, -410903207, -759250125, -992008094, -1073741824]

/-- `sin(k*pi/8)` for `k` from 1 to 8. -/
def Q_SIN : Vector Int 8 :=
  #v[410903207, 759250125, 992008094, 1073741824, 992008094, 759250125, 410903207, 0]

def Q30_Mul (a b : Int) : Option Int := do
  let product ← int64 (a * b)
  let sum ← int64 (product + Q30_HALF)
  return sum >>> (30 : Nat)

/-! ### Indices -/

def swapBits (mask d i : Nat) : Nat := ((i &&& mask) <<< d) ||| ((i >>> d) &&& mask)

def Rev16 (i : Nat) : Nat :=
  swapBits 0x00FF 8 (swapBits 0x0F0F 4 (swapBits 0x3333 2 (swapBits 0x5555 1 i)))

def bit (q : Fin NQUBITS) : Nat := 1 <<< q.val

theorem bit_eq (q : Fin NQUBITS) : bit q = 2 ^ q.val := Nat.one_shiftLeft q.val

theorem bit_lt (q : Fin NQUBITS) : bit q < NAMP := by
  rw [bit_eq]
  exact Nat.pow_lt_pow_right Nat.one_lt_two q.isLt

theorem rev16_lt (i : Nat) : Rev16 i < NAMP := by
  have hlow : (swapBits 0x0F0F 4 (swapBits 0x3333 2 (swapBits 0x5555 1 i)) &&& 0x00FF) <<< 8 <
      2 ^ 16 := by
    have hand := @Nat.and_le_right (swapBits 0x0F0F 4 (swapBits 0x3333 2 (swapBits 0x5555 1 i))) 0x00FF
    rw [Nat.shiftLeft_eq]
    omega
  have hhigh : swapBits 0x0F0F 4 (swapBits 0x3333 2 (swapBits 0x5555 1 i)) >>> 8 &&& 0x00FF <
      2 ^ 16 := lt_of_le_of_lt Nat.and_le_right (by decide)
  exact Nat.or_lt_two_pow hlow hhigh

def orBit (q : Fin NQUBITS) (i : Fin NAMP) : Fin NAMP :=
  ⟨i.val ||| bit q, Nat.or_lt_two_pow i.isLt (bit_lt q)⟩

def xorBit (q : Fin NQUBITS) (i : Fin NAMP) : Fin NAMP :=
  ⟨i.val ^^^ bit q, Nat.xor_lt_two_pow i.isLt (bit_lt q)⟩

def rev (i : Fin NAMP) : Fin NAMP := ⟨Rev16 i.val, rev16_lt i.val⟩

/-! ### The steps of the circuit -/

abbrev Amp := Vector Int NAMP

def rotatePair (c s : Int) (neg : Bool) (x y : Int) : Option (Int × Int) :=
  if !neg then do
    let nx ← int64 ((← Q30_Mul c x) - (← Q30_Mul s y))
    let ny ← int64 ((← Q30_Mul s x) + (← Q30_Mul c y))
    return (nx, ny)
  else do
    let nx ← int64 ((← Q30_Mul c x) + (← Q30_Mul s y))
    let ny ← int64 ((← Q30_Mul (← int64 (-s)) x) + (← Q30_Mul c y))
    return (nx, ny)

theorem kidx_lt (b : UInt8) : (b &&& 7).toNat < 8 := by
  rw [UInt8.toNat_and]
  exact Nat.lt_succ_of_le Nat.and_le_right

def kidx (b : UInt8) : Fin 8 := ⟨(b &&& 7).toNat, kidx_lt b⟩

/-- The single-qubit rotation on qubit `q` that the key byte `b` selects. -/
def gate (q : Fin NQUBITS) (b : UInt8) : Amp → Option Amp :=
  forPairs (fun i => i.val &&& bit q == 0) (orBit q)
    (rotatePair (Q_COS.get (kidx b)) (Q_SIN.get (kidx b)) (b >>> 7 != 0))

def swap (x y : Int) : Option (Int × Int) := some (y, x)

def cnot (q t : Fin NQUBITS) : Amp → Option Amp :=
  forPairs (fun i => i.val &&& bit q != 0 && i.val &&& bit t == 0) (xorBit t) swap

def bitReversal : Amp → Option Amp := forPairs (fun i => decide (i < rev i)) rev swap

inductive Step where
  | gate (q : Fin NQUBITS) (b : UInt8)
  | cnot (q t : Fin NQUBITS)
  | bitReversal

def Step.exec : Step → Amp → Option Amp
  | .gate q b => QHash.gate q b
  | .cnot q t => QHash.cnot q t
  | .bitReversal => QHash.bitReversal

def simulate (steps : List Step) (amp : Amp) : Option Amp :=
  steps.foldlM (fun amp step => step.exec amp) amp

/-! ### The circuit of a seed -/

theorem target_lt (n : Nat) : n &&& 15 < NQUBITS := Nat.lt_succ_of_le Nat.and_le_right

def target (q : Fin NQUBITS) (offset : Nat) : Fin NQUBITS :=
  ⟨(q.val + 1 + offset) &&& 15, target_lt _⟩

/-- The CNOT ladder, which passes over a qubit that is its own target. -/
def ladder (offset : Nat) : List Step :=
  (List.finRange NQUBITS).filterMap fun q =>
    if target q offset = q then none else some (.cnot q (target q offset))

def layers (kr : Fin (NQUBITS + 1) → UInt8) : List Step :=
  (List.finRange NQUBITS).map (fun q => .gate q (kr q.castSucc)) ++
    ladder (kr (Fin.last NQUBITS) &&& 15).toNat ++ [.bitReversal]

def NKEY : Nat := NROUNDS * (NQUBITS + 1)

theorem keyIndex_lt (r : Fin NROUNDS) (q : Fin (NQUBITS + 1)) :
    r.val * (NQUBITS + 1) + q.val < NKEY := by
  have hr : r.val < 2 := r.isLt
  have hq : q.val < 17 := q.isLt
  unfold NKEY NROUNDS NQUBITS
  omega

def keyIndex (r : Fin NROUNDS) (q : Fin (NQUBITS + 1)) : Fin NKEY :=
  ⟨r.val * (NQUBITS + 1) + q.val, keyIndex_lt r q⟩

def circuit (key : Vector UInt8 NKEY) : List Step :=
  (List.finRange NROUNDS).flatMap fun r => layers fun q => key.get (keyIndex r q)

section Hash

variable (sha256 : Bytes → Uint256)

def keystreamBlocks (seed : Uint256) (n : Nat) (out : Bytes) (ctr : UInt32) : Bytes :=
  if out.length < n then
    keystreamBlocks seed n
      (out ++ (sha256 (seed.bytes ++ leBytes 4 ctr.toNat)).bytes.take (min 32 (n - out.length)))
      (ctr + 1)
  else out
termination_by n - out.length
decreasing_by
  have hdigest := (sha256 (seed.bytes ++ leBytes 4 ctr.toNat)).size_eq
  rw [List.length_append, List.length_take, hdigest]
  omega

theorem length_keystreamBlocks (seed : Uint256) (n : Nat) (out : Bytes) (ctr : UInt32)
    (h : out.length ≤ n) : (keystreamBlocks sha256 seed n out ctr).length = n := by
  fun_induction keystreamBlocks sha256 seed n out ctr with
  | case1 out ctr hlt ih =>
    apply ih
    rw [List.length_append, List.length_take]
    omega
  | case2 out ctr hge => omega

def key (seed : Uint256) : Vector UInt8 NKEY :=
  ⟨(keystreamBlocks sha256 seed NKEY [] 0).toArray,
    length_keystreamBlocks sha256 seed NKEY [] 0 (Nat.zero_le _)⟩

def start : Amp := (Vector.replicate NAMP 0).set 0 Q30_ONE (by decide)

theorem acc_index_lt (i : Nat) : i &&& 63 < 64 := Nat.lt_succ_of_le Nat.and_le_right

def foldStep (amp : Amp) (acc : Vector Int 64) (i : Fin NAMP) : Option (Vector Int 64) := do
  let j : Fin 64 := ⟨i.val &&& 63, acc_index_lt i.val⟩
  let sum ← int64 (acc.get j + amp.get i)
  return acc.set j sum

def fold (amp : Amp) : Option (Vector Int 64) :=
  (List.finRange NAMP).foldlM (foldStep amp) (Vector.replicate 64 0)

def foldBytes (acc : Vector Int 64) : Bytes :=
  acc.toList.flatMap fun a => leBytes 8 (a % 2 ^ 64).toNat

/-- `QHashFromSeed`, without a result if a value leaves the range of its type. -/
def QHashFromSeed (seed : Uint256) : Option Uint256 := do
  let amp ← simulate (circuit (key sha256 seed)) start
  let acc ← fold amp
  return sha256 (sha256 (foldBytes acc)).bytes

end Hash

/-! ### Arithmetic without overflow -/

theorem int64_of_abs_le {x : Int} (h : |x| ≤ 2 ^ 62) : int64 x = some x := by
  obtain ⟨hlow, hhigh⟩ := abs_le.mp h
  exact if_pos ⟨by omega, by omega⟩

/-- The value that `Q30_Mul` rounds to. -/
def mul30 (a b : Int) : Int := (a * b + Q30_HALF) >>> (30 : Nat)

theorem abs_mul30_sub_le (a b : Int) : |2 ^ 30 * mul30 a b - a * b| ≤ 2 ^ 29 := by
  rw [mul30, Q30_HALF, Int.shiftRight_eq_div_pow, abs_le]
  generalize a * b = p
  constructor
  · omega
  · omega

theorem abs_mul_le {a b : Int} (ha : |a| ≤ 2 ^ 30) (hb : |b| ≤ 2 ^ 31) : |a * b| ≤ 2 ^ 61 := by
  rw [abs_mul]
  calc |a| * |b| ≤ 2 ^ 30 * 2 ^ 31 := mul_le_mul ha hb (abs_nonneg b) (by decide)
    _ = 2 ^ 61 := by norm_num

theorem q30_mul_eq {a b : Int} (ha : |a| ≤ 2 ^ 30) (hb : |b| ≤ 2 ^ 31) :
    Q30_Mul a b = some (mul30 a b) := by
  have hproduct := abs_mul_le ha hb
  have hsum : |a * b + Q30_HALF| ≤ 2 ^ 62 := by
    rw [abs_le] at hproduct ⊢
    unfold Q30_HALF
    omega
  rw [Q30_Mul, int64_of_abs_le (hproduct.trans (by norm_num))]
  show (int64 (a * b + Q30_HALF)).bind _ = _
  rw [int64_of_abs_le hsum]
  rfl

theorem abs_mul30_le {a b : Int} (ha : |a| ≤ 2 ^ 30) (hb : |b| ≤ 2 ^ 31) : |mul30 a b| ≤ 2 ^ 32 := by
  have hproduct := abs_mul_le ha hb
  have hrounded := abs_mul30_sub_le a b
  rw [abs_le] at hproduct hrounded ⊢
  omega

def turned (c s : Int) (neg : Bool) (x y : Int) : Int × Int :=
  if !neg then (mul30 c x - mul30 s y, mul30 s x + mul30 c y)
  else (mul30 c x + mul30 s y, mul30 (-s) x + mul30 c y)

theorem int64_mul30_add {a b x y : Int} (ha : |a| ≤ 2 ^ 30) (hb : |b| ≤ 2 ^ 30) (hx : |x| ≤ 2 ^ 31)
    (hy : |y| ≤ 2 ^ 31) : int64 (mul30 a x + mul30 b y) = some (mul30 a x + mul30 b y) := by
  have hfirst := abs_mul30_le ha hx
  have hsecond := abs_mul30_le hb hy
  apply int64_of_abs_le
  rw [abs_le] at hfirst hsecond ⊢
  omega

theorem int64_mul30_sub {a b x y : Int} (ha : |a| ≤ 2 ^ 30) (hb : |b| ≤ 2 ^ 30) (hx : |x| ≤ 2 ^ 31)
    (hy : |y| ≤ 2 ^ 31) : int64 (mul30 a x - mul30 b y) = some (mul30 a x - mul30 b y) := by
  have hfirst := abs_mul30_le ha hx
  have hsecond := abs_mul30_le hb hy
  apply int64_of_abs_le
  rw [abs_le] at hfirst hsecond ⊢
  omega

theorem rotatePair_eq {c s x y : Int} (neg : Bool) (hc : |c| ≤ 2 ^ 30) (hs : |s| ≤ 2 ^ 30)
    (hx : |x| ≤ 2 ^ 31) (hy : |y| ≤ 2 ^ 31) :
    rotatePair c s neg x y = some (turned c s neg x y) := by
  have hneg : |-s| ≤ 2 ^ 30 := by rwa [abs_neg]
  cases neg with
  | false =>
    simp [rotatePair, turned, q30_mul_eq hc hx, q30_mul_eq hs hy, q30_mul_eq hs hx, q30_mul_eq hc hy,
      int64_mul30_sub hc hs hx hy, int64_mul30_add hs hc hx hy]
  | true =>
    simp [rotatePair, turned, q30_mul_eq hc hx, q30_mul_eq hs hy, q30_mul_eq hneg hx, q30_mul_eq hc hy,
      int64_mul30_add hc hs hx hy, int64_mul30_add hneg hc hx hy,
      int64_of_abs_le (hneg.trans (by norm_num))]

def signedSin (s : Int) (neg : Bool) : Int := if neg then -s else s

/-- A rotation rounds each amplitude by at most one. -/
theorem abs_turned_sub_le (c s : Int) (neg : Bool) (x y : Int) :
    |2 ^ 30 * (turned c s neg x y).1 - (c * x - signedSin s neg * y)| ≤ 2 ^ 30 ∧
      |2 ^ 30 * (turned c s neg x y).2 - (signedSin s neg * x + c * y)| ≤ 2 ^ 30 := by
  have hcx := abs_mul30_sub_le c x
  have hcy := abs_mul30_sub_le c y
  have hsy := abs_mul30_sub_le s y
  have hsx := abs_mul30_sub_le (signedSin s neg) x
  rw [abs_le] at hcx hcy hsy hsx
  rw [abs_le, abs_le]
  cases neg with
  | false =>
    simp only [turned, signedSin, Bool.not_false, if_true, Bool.false_eq_true, if_false] at hsx ⊢
    omega
  | true =>
    simp only [turned, signedSin, Bool.not_true, Bool.false_eq_true, if_false, if_true] at hsx ⊢
    have hflip : -s * y = -(s * y) := neg_mul s y
    omega

theorem q_cos_le (k : Fin 8) : |Q_COS.get k| ≤ 2 ^ 30 := by
  revert k
  decide

theorem q_sin_le (k : Fin 8) : |Q_SIN.get k| ≤ 2 ^ 30 := by
  revert k
  decide

/-- The matrices are rotations up to the rounding of their entries. -/
theorem q_cos_sq_add_q_sin_sq_le (k : Fin 8) :
    Q_COS.get k ^ 2 + Q_SIN.get k ^ 2 ≤ (2 ^ 30 + 1) ^ 2 := by
  revert k
  decide

/-! ### The pairs of the three loops -/

theorem and_bit_beq_zero (i : Nat) (q : Fin NQUBITS) : (i &&& bit q == 0) = !i.testBit q.val := by
  rw [bit_eq, Nat.and_two_pow]
  cases i.testBit q.val with
  | false => simp
  | true => simp

theorem testBit_xorBit (t : Fin NQUBITS) (i : Fin NAMP) (k : Nat) :
    (xorBit t i).val.testBit k = (i.val.testBit k ^^ decide (t.val = k)) := by
  show (i.val ^^^ bit t).testBit k = _
  rw [bit_eq, Nat.testBit_xor, Nat.testBit_two_pow]

theorem xorBit_involutive (t : Fin NQUBITS) : Function.Involutive (xorBit t) := by
  intro i
  apply Fin.ext
  show i.val ^^^ bit t ^^^ bit t = i.val
  rw [Nat.xor_assoc, Nat.xor_self, Nat.xor_zero]

theorem orBit_eq_xorBit {q : Fin NQUBITS} {i : Fin NAMP} (h : i.val.testBit q.val = false) :
    orBit q i = xorBit q i := by
  apply Fin.ext
  apply Nat.eq_of_testBit_eq
  intro k
  rw [testBit_xorBit]
  show (i.val ||| bit q).testBit k = _
  rw [bit_eq, Nat.testBit_or, Nat.testBit_two_pow]
  by_cases hk : q.val = k
  · subst hk
    simp [h]
  · simp [hk]

theorem gate_pairing (q : Fin NQUBITS) :
    Pairing (fun i : Fin NAMP => i.val &&& bit q == 0) (orBit q) (xorBit q) where
  partner_eq i hi := by
    rw [and_bit_beq_zero, Bool.not_eq_true'] at hi
    exact orBit_eq_xorBit hi
  involutive := xorBit_involutive q
  one i hi := by
    rw [and_bit_beq_zero] at hi ⊢
    rw [testBit_xorBit]
    simpa using hi

theorem cnot_pairing (q t : Fin NQUBITS) :
    Pairing (fun i : Fin NAMP => i.val &&& bit q != 0 && i.val &&& bit t == 0) (xorBit t)
      (xorBit t) where
  partner_eq _ _ := rfl
  involutive := xorBit_involutive t
  one i hi := by
    simp only [bne, and_bit_beq_zero, testBit_xorBit] at hi ⊢
    simp_all

/-- The mask has the bits of the indices below 16 that have the bit `d` clear. -/
def Exchanges (mask d : Nat) : Prop :=
  ∀ k < 16, if k &&& d = 0 then
      mask.testBit k = true ∧ (d ≤ k → mask.testBit (k - d) = false) ∧ d + k = k ^^^ d
    else mask.testBit k = false ∧ (d ≤ k ∧ mask.testBit (k - d) = true) ∧ k - d = k ^^^ d

instance (mask d : Nat) : Decidable (Exchanges mask d) := Nat.decidableBallLT _ _

/-- A round of `Rev16` exchanges the bits whose indices differ in the bit `d`. -/
theorem testBit_swapBits {mask d : Nat} (h : Exchanges mask d) (i : Nat) {k : Nat} (hk : k < 16) :
    (swapBits mask d i).testBit k = i.testBit (k ^^^ d) := by
  have hbit := h k hk
  rw [swapBits, Nat.testBit_or, Nat.testBit_shiftLeft, Nat.testBit_and, Nat.testBit_and,
    Nat.testBit_shiftRight]
  split_ifs at hbit with hclear
  · obtain ⟨hmask, hlow, hxor⟩ := hbit
    rw [hmask, hxor, Bool.and_true]
    by_cases hd : d ≤ k
    · simp [hlow hd]
    · simp [hd]
  · obtain ⟨hmask, ⟨hd, hlow⟩, hxor⟩ := hbit
    rw [hlow, hmask, hxor, Bool.and_false, Bool.or_false, Bool.and_true, decide_eq_true hd,
      Bool.true_and]

theorem testBit_rev16 (i : Nat) {k : Nat} (hk : k < 16) :
    (Rev16 i).testBit k = i.testBit (15 - k) := by
  have hlt : ∀ k < 16, k ^^^ 8 < 16 ∧ k ^^^ 8 ^^^ 4 < 16 ∧ k ^^^ 8 ^^^ 4 ^^^ 2 < 16 ∧
      k ^^^ 8 ^^^ 4 ^^^ 2 ^^^ 1 = 15 - k := by decide
  obtain ⟨h8, h4, h2, hall⟩ := hlt k hk
  rw [Rev16, testBit_swapBits (by decide) _ hk, testBit_swapBits (by decide) _ h8,
    testBit_swapBits (by decide) _ h4, testBit_swapBits (by decide) _ h2, hall]

theorem rev_involutive : Function.Involutive rev := by
  intro i
  apply Fin.ext
  apply Nat.eq_of_testBit_eq
  intro k
  show (Rev16 (Rev16 i.val)).testBit k = i.val.testBit k
  by_cases hk : k < 16
  · rw [testBit_rev16 _ hk, testBit_rev16 _ (by omega)]
    congr 1
    omega
  · have hpow : 2 ^ 16 ≤ 2 ^ k := Nat.pow_le_pow_right (by decide) (Nat.not_lt.mp hk)
    rw [Nat.testBit_lt_two_pow ((rev16_lt _).trans_le hpow),
      Nat.testBit_lt_two_pow (i.isLt.trans_le hpow)]

theorem bitReversal_pairing : Pairing (fun i : Fin NAMP => decide (i < rev i)) rev rev where
  partner_eq _ _ := rfl
  involutive := rev_involutive
  one i hi := by
    rw [rev_involutive i]
    have hlt := of_decide_eq_true hi
    exact decide_eq_false (not_lt.mpr hlt.le)

/-! ### One step -/

def normBound (k : Nat) : Int := 2 ^ 30 + 258 * k

def Bounded (k : Nat) (amp : Amp) : Prop := sumSq amp.get ≤ normBound k ^ 2

theorem Bounded.abs_le {k : Nat} {amp : Amp} (h : Bounded k amp) (i : Fin NAMP) :
    |amp.get i| ≤ normBound k := by
  have hnonneg : 0 ≤ normBound k := by
    unfold normBound
    omega
  exact abs_le_of_sumSq_le hnonneg h i

theorem Bounded.permuted {k : Nat} {amp amp' : Amp} (h : Bounded k amp) (σ : Equiv.Perm (Fin NAMP))
    (hσ : ∀ i, amp'.get i = amp.get (σ i)) : Bounded k amp' := by
  have hget : amp'.get = fun i => amp.get (σ i) := funext hσ
  rw [Bounded, hget, sumSq_comp_perm]
  exact h

theorem cnot_permutes (q t : Fin NQUBITS) :
    ∃ σ : Equiv.Perm (Fin NAMP), ∀ amp, ∃ amp', cnot q t amp = some amp' ∧
      ∀ i, amp'.get i = amp.get (σ i) :=
  ⟨(cnot_pairing q t).swaps, (cnot_pairing q t).forPairs_swap⟩

theorem bitReversal_permutes :
    ∃ σ : Equiv.Perm (Fin NAMP), ∀ amp, ∃ amp', bitReversal amp = some amp' ∧
      ∀ i, amp'.get i = amp.get (σ i) :=
  ⟨bitReversal_pairing.swaps, bitReversal_pairing.forPairs_swap⟩

/-- A gate does not overflow, and makes the norm larger by the rounding of its table and of the
amplitudes only. -/
theorem gate_bounded {k : Nat} (hk : k ≤ 32) {amp : Amp} (h : Bounded k amp) (q : Fin NQUBITS)
    (b : UInt8) : ∃ amp', gate q b amp = some amp' ∧ Bounded (k + 1) amp' := by
  have hnorm : normBound k ≤ 2 ^ 31 := by
    unfold normBound
    omega
  have hsmall : ∀ i, |amp.get i| ≤ 2 ^ 31 := fun i => (h.abs_le i).trans hnorm
  have hpair := gate_pairing q
  obtain ⟨amp', hrun, hget⟩ := hpair.forPairs_spec fun i _ =>
    rotatePair_eq (b >>> 7 != 0) (q_cos_le (kidx b)) (q_sin_le (kidx b)) (hsmall i)
      (hsmall (xorBit q i))
  refine ⟨amp', hrun, ?_⟩
  have hfirst : ∀ i : Fin NAMP, ((xorBit q i).val &&& bit q == 0) = !(i.val &&& bit q == 0) := by
    intro i
    rw [and_bit_beq_zero, and_bit_beq_zero, testBit_xorBit]
    simp
  have hrounded : ∀ i, |2 ^ 30 * amp'.get i - rotated (fun i : Fin NAMP => i.val &&& bit q == 0)
      (xorBit q) (Q_COS.get (kidx b)) (signedSin (Q_SIN.get (kidx b)) (b >>> 7 != 0)) amp.get i| ≤
        2 ^ 30 := by
    intro i
    rw [hget i, rotated]
    cases hi : i.val &&& bit q == 0 with
    | true => exact (abs_turned_sub_le _ _ _ _ _).1
    | false =>
      rw [hfirst, hi]
      exact (abs_turned_sub_le _ _ _ _ _).2
  have hscale : Q_COS.get (kidx b) ^ 2 + signedSin (Q_SIN.get (kidx b)) (b >>> 7 != 0) ^ 2 ≤
      (2 ^ 30 + 1) ^ 2 := by
    have htable := q_cos_sq_add_q_sin_sq_le (kidx b)
    unfold signedSin
    split_ifs with hneg
    · rwa [neg_sq]
    · exact htable
  have hcard : (Fintype.card (Fin NAMP) : Int) * (2 ^ 30) ^ 2 ≤ (2 ^ 38) ^ 2 := by
    rw [Fintype.card_fin, NAMP, NQUBITS]
    norm_num
  refine sumSq_rounded_rotated (xorBit_involutive q) hfirst (by norm_num) ?_ (by norm_num) (by norm_num)
    hscale h hrounded hcard ?_
  · unfold normBound
    omega
  · unfold normBound at hnorm ⊢
    push_cast
    omega

def Step.gates : Step → Nat
  | .gate _ _ => 1
  | _ => 0

theorem Step.exec_bounded {k : Nat} (hk : k ≤ 32) {amp : Amp} (h : Bounded k amp) (step : Step) :
    ∃ amp', step.exec amp = some amp' ∧ Bounded (k + step.gates) amp' := by
  cases step with
  | gate q b => exact gate_bounded hk h q b
  | cnot q t =>
    obtain ⟨σ, hσ⟩ := cnot_permutes q t
    obtain ⟨amp', hrun, hget⟩ := hσ amp
    exact ⟨amp', hrun, h.permuted σ hget⟩
  | bitReversal =>
    obtain ⟨σ, hσ⟩ := bitReversal_permutes
    obtain ⟨amp', hrun, hget⟩ := hσ amp
    exact ⟨amp', hrun, h.permuted σ hget⟩

/-! ### Runs -/

def gates (steps : List Step) : Nat := (steps.map Step.gates).sum

/-- Steps with at most 32 gates in all run to their end. -/
theorem simulate_bounded (steps : List Step) {k : Nat} (hk : k + gates steps ≤ 32) {amp : Amp}
    (h : Bounded k amp) : ∃ amp', simulate steps amp = some amp' ∧ Bounded (k + gates steps) amp' := by
  induction steps generalizing k amp with
  | nil => exact ⟨amp, rfl, h⟩
  | cons step steps ih =>
    have hgates : gates (step :: steps) = step.gates + gates steps := List.sum_cons
    rw [hgates, ← Nat.add_assoc] at hk ⊢
    obtain ⟨mid, hmid, hbound⟩ := step.exec_bounded (by omega) h
    obtain ⟨amp', hrun, hbound'⟩ := ih hk hbound
    refine ⟨amp', ?_, hbound'⟩
    rw [simulate, List.foldlM_cons, hmid]
    exact hrun

theorem gates_ladder (offset : Nat) : gates (ladder offset) = 0 := by
  apply List.sum_eq_zero
  intro n hn
  obtain ⟨step, hstep, rfl⟩ := List.mem_map.mp hn
  obtain ⟨q, -, hq⟩ := List.mem_filterMap.mp hstep
  split_ifs at hq with htarget
  cases hq
  rfl

theorem gates_append (steps steps' : List Step) :
    gates (steps ++ steps') = gates steps + gates steps' := by
  rw [gates, List.map_append, List.sum_append, gates, gates]

theorem gates_flatMap {β : Type} {f : β → List Step} {n : Nat} (h : ∀ r, gates (f r) = n)
    (l : List β) : gates (l.flatMap f) = l.length * n := by
  induction l with
  | nil => exact (Nat.zero_mul n).symm
  | cons r l ih =>
    rw [List.flatMap_cons, gates_append, h, ih, List.length_cons, Nat.succ_mul, Nat.add_comm]

theorem gates_map_gate (b : Fin NQUBITS → UInt8) (l : List (Fin NQUBITS)) :
    gates (l.map fun q => .gate q (b q)) = l.length := by
  have hone : ∀ q, gates [Step.gate q (b q)] = 1 := fun _ => rfl
  rw [List.map_eq_flatMap, gates_flatMap hone, Nat.mul_one]

theorem gates_layers (kr : Fin (NQUBITS + 1) → UInt8) : gates (layers kr) = 16 := by
  have hreversal : gates [Step.bitReversal] = 0 := rfl
  rw [layers, gates_append, gates_append, gates_map_gate, gates_ladder, hreversal,
    List.length_finRange]
  rfl

theorem gates_circuit (key : Vector UInt8 NKEY) : gates (circuit key) = 32 := by
  rw [circuit, gates_flatMap fun r => gates_layers fun q => key.get (keyIndex r q),
    List.length_finRange]
  rfl

theorem gates_take_le (steps : List Step) (n : Nat) : gates (steps.take n) ≤ gates steps := by
  have hsplit := gates_append (steps.take n) (steps.drop n)
  rw [List.take_append_drop] at hsplit
  omega

theorem bounded_start : Bounded 0 start := by
  have hget : ∀ i : Fin NAMP, start.get i = if i = ⟨0, by decide⟩ then Q30_ONE else 0 := by
    intro i
    have hset := get_set (Vector.replicate NAMP (0 : Int)) ⟨0, by decide⟩ i Q30_ONE
    exact hset.trans (by simp [Vector.get])
  have hsum : sumSq start.get = Q30_ONE ^ 2 := by
    rw [sumSq, Finset.sum_eq_single (⟨0, by decide⟩ : Fin NAMP)]
    · rw [hget, if_pos rfl]
    · intro i _ hi
      rw [hget, if_neg hi]
      rfl
    · intro hnot
      exact absurd (Finset.mem_univ _) hnot
  exact hsum.le

/-! ### The fold -/

theorem foldStep_bounded {amp : Amp} (hamp : ∀ i, |amp.get i| ≤ 2 ^ 31) {acc : Vector Int 64} {n : Nat}
    (hn : n < NAMP) (hacc : ∀ j, |acc.get j| ≤ 2 ^ 31 * n) (i : Fin NAMP) :
    ∃ acc', foldStep amp acc i = some acc' ∧ ∀ j, |acc'.get j| ≤ 2 ^ 31 * (n + 1 : Nat) := by
  have hn' : n < 2 ^ 16 := hn
  have hsum : |acc.get ⟨i.val &&& 63, acc_index_lt i.val⟩ + amp.get i| ≤ 2 ^ 31 * (n + 1 : Nat) := by
    have habs := abs_add_le (acc.get ⟨i.val &&& 63, acc_index_lt i.val⟩) (amp.get i)
    have hleft := hacc ⟨i.val &&& 63, acc_index_lt i.val⟩
    have hright := hamp i
    push_cast
    omega
  have hrange : |acc.get ⟨i.val &&& 63, acc_index_lt i.val⟩ + amp.get i| ≤ 2 ^ 62 := by
    refine hsum.trans ?_
    push_cast
    omega
  refine ⟨acc.set (i.val &&& 63) (acc.get ⟨i.val &&& 63, acc_index_lt i.val⟩ + amp.get i)
    (acc_index_lt i.val), ?_, ?_⟩
  · rw [foldStep, int64_of_abs_le hrange]
    rfl
  · intro j
    have hset := get_set acc ⟨i.val &&& 63, acc_index_lt i.val⟩ j
      (acc.get ⟨i.val &&& 63, acc_index_lt i.val⟩ + amp.get i)
    rw [hset]
    split_ifs with hj
    · exact hsum
    · refine (hacc j).trans ?_
      push_cast
      omega

/-- A list of rounds of the fold adds at most one amplitude a round to each accumulator. -/
theorem foldlM_foldStep {amp : Amp} (hamp : ∀ i, |amp.get i| ≤ 2 ^ 31) (l : List (Fin NAMP)) {n : Nat}
    (hn : n + l.length ≤ NAMP) {acc : Vector Int 64} (hacc : ∀ j, |acc.get j| ≤ 2 ^ 31 * n) :
    ∃ acc', l.foldlM (foldStep amp) acc = some acc' := by
  induction l generalizing n acc with
  | nil => exact ⟨acc, rfl⟩
  | cons i l ih =>
    rw [List.length_cons] at hn
    obtain ⟨mid, hmid, hbound⟩ := foldStep_bounded hamp (by omega) hacc i
    obtain ⟨acc', hrun⟩ := ih (by omega) hbound
    refine ⟨acc', ?_⟩
    rw [List.foldlM_cons, hmid]
    exact hrun

theorem fold_eq_some {amp : Amp} (hamp : ∀ i, |amp.get i| ≤ 2 ^ 31) : ∃ acc, fold amp = some acc := by
  refine foldlM_foldStep hamp (List.finRange NAMP) (n := 0) ?_ ?_
  · rw [List.length_finRange, Nat.zero_add]
  · intro j
    simp [Vector.get]

/-! ### The simulation of a seed -/

/-- The steps up to any point run, and leave amplitudes of the size of one unit. -/
theorem simulate_take (key : Vector UInt8 NKEY) (n : Nat) :
    ∃ amp, simulate ((circuit key).take n) start = some amp ∧ Bounded 32 amp := by
  have hgates : gates ((circuit key).take n) ≤ 32 :=
    (gates_take_le (circuit key) n).trans (gates_circuit key).le
  obtain ⟨amp, hrun, hbound⟩ := simulate_bounded ((circuit key).take n) (k := 0) (by omega)
    bounded_start
  refine ⟨amp, hrun, hbound.trans ?_⟩
  refine pow_le_pow_left₀ ?_ ?_ 2
  · unfold normBound
    omega
  · unfold normBound
    omega

theorem simulate_permutes (steps : List Step) (h : gates steps = 0) :
    ∃ σ : Equiv.Perm (Fin NAMP), ∀ amp, ∃ amp', simulate steps amp = some amp' ∧
      ∀ i, amp'.get i = amp.get (σ i) := by
  induction steps with
  | nil => exact ⟨Equiv.refl _, fun amp => ⟨amp, rfl, fun _ => rfl⟩⟩
  | cons step steps ih =>
    have hgates : gates (step :: steps) = step.gates + gates steps := List.sum_cons
    obtain ⟨σ, hσ⟩ := ih (by omega)
    have hstep : ∃ τ : Equiv.Perm (Fin NAMP), ∀ amp, ∃ amp', step.exec amp = some amp' ∧
        ∀ i, amp'.get i = amp.get (τ i) := by
      cases step with
      | gate q b =>
        have hone : (Step.gate q b).gates = 1 := rfl
        omega
      | cnot q t => exact cnot_permutes q t
      | bitReversal => exact bitReversal_permutes
    obtain ⟨τ, hτ⟩ := hstep
    refine ⟨σ.trans τ, ?_⟩
    intro amp
    obtain ⟨mid, hmid, hget⟩ := hτ amp
    obtain ⟨amp', hrun, hget'⟩ := hσ mid
    refine ⟨amp', ?_, ?_⟩
    · rw [simulate, List.foldlM_cons, hmid]
      exact hrun
    · intro i
      rw [hget' i, hget]
      rfl

theorem qHashFromSeed_eq {sha256 : Bytes → Uint256} {seed : Uint256} {amp : Amp} {acc : Vector Int 64}
    (hrun : simulate (circuit (key sha256 seed)) start = some amp) (hfold : fold amp = some acc) :
    QHashFromSeed sha256 seed = some (sha256 (sha256 (foldBytes acc)).bytes) := by
  unfold QHashFromSeed
  -- the two runs are named before anything is reduced, so that neither is evaluated
  generalize simulate (circuit (key sha256 seed)) start = x at hrun ⊢
  subst hrun
  rw [Option.bind_eq_bind, Option.bind_some]
  generalize fold amp = y at hfold ⊢
  subst hfold
  rfl

/-- **The simulation stays within its bounds**: for every seed all steps run without overflow in 64
bits, no amplitude exceeds 1.04 units, and the CNOT ladders and bit reversals permute the
amplitudes. -/
theorem simulation_bounded (sha256 : Bytes → Uint256) (seed : Uint256) :
    (∀ n, ∃ amp, simulate ((circuit (key sha256 seed)).take n) start = some amp ∧
      ∀ i, 100 * |amp.get i| ≤ 104 * Q30_ONE) ∧
    (∃ result, QHashFromSeed sha256 seed = some result) ∧
    (∀ offset, ∃ σ : Equiv.Perm (Fin NAMP), ∀ amp, ∃ amp',
      simulate (ladder offset) amp = some amp' ∧ ∀ i, amp'.get i = amp.get (σ i)) ∧
    ∃ σ : Equiv.Perm (Fin NAMP), ∀ amp, ∃ amp',
      bitReversal amp = some amp' ∧ ∀ i, amp'.get i = amp.get (σ i) := by
  refine ⟨?_, ?_, ?_, bitReversal_permutes⟩
  · intro n
    obtain ⟨amp, hrun, hbound⟩ := simulate_take (key sha256 seed) n
    refine ⟨amp, hrun, ?_⟩
    intro i
    have hamp := hbound.abs_le i
    unfold normBound at hamp
    unfold Q30_ONE
    omega
  · obtain ⟨amp, hrun, hbound⟩ := simulate_take (key sha256 seed) (circuit (key sha256 seed)).length
    rw [List.take_length] at hrun
    obtain ⟨acc, hfold⟩ := fold_eq_some fun i => (hbound.abs_le i).trans (by decide)
    exact ⟨_, qHashFromSeed_eq hrun hfold⟩
  · intro offset
    exact simulate_permutes (ladder offset) (gates_ladder offset)

end Rcpu.QHash
