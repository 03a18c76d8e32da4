import Mathlib.Data.Nat.Digits.Lemmas
import Mathlib.Logic.Function.Iterate

/-!
# Digit strings and linear checksums

Two facts behind checksummed encodings.  A string of digits, most significant first, is determined
by its length and the number it stands for.  A checksum that is a linear map of its state plus the
next symbol lets the last symbols be solved for: whatever comes before them, they enter the result
as they would enter it alone.
-/

namespace Rcpu.Codeword

/-! ### Digit strings -/

def value (base : Nat) (digits : List Nat) : Nat := Nat.ofDigits base digits.reverse

variable {base : Nat} {ds ds' : List Nat}

@[simp] theorem value_nil : value base [] = 0 := rfl

theorem value_concat (d : Nat) : value base (ds ++ [d]) = value base ds * base + d := by
  rw [value, List.reverse_concat, Nat.ofDigits_cons, Nat.mul_comm, Nat.add_comm]
  rfl

theorem value_lt (hbase : 1 < base) (hds : ∀ d ∈ ds, d < base) :
    value base ds < base ^ ds.length := by
  have h := Nat.ofDigits_lt_base_pow_length hbase (l := ds.reverse)
    fun d hd => hds d (List.mem_reverse.mp hd)
  rwa [List.length_reverse] at h

theorem eq_of_value_eq (hbase : 1 < base) (hds : ∀ d ∈ ds, d < base) (hds' : ∀ d ∈ ds', d < base)
    (hlength : ds.length = ds'.length) (hvalue : value base ds = value base ds') : ds = ds' := by
  refine List.reverse_injective (Nat.ofDigits_inj_of_len_eq hbase ?_ ?_ ?_ hvalue)
  · rw [List.length_reverse, List.length_reverse, hlength]
  · intro d hd
    exact hds d (List.mem_reverse.mp hd)
  · intro d hd
    exact hds' d (List.mem_reverse.mp hd)

/-! ### Linear checksums -/

section Checksum

variable {w : Nat} {α : Type} {L : BitVec w → BitVec w} {ι : α → BitVec w}

def checksum (L : BitVec w → BitVec w) (ι : α → BitVec w) (c : BitVec w) (vs : List α) : BitVec w :=
  vs.foldl (fun c v => L c ^^^ ι v) c

theorem checksum_concat (c : BitVec w) (vs : List α) (v : α) :
    checksum L ι c (vs ++ [v]) = L (checksum L ι c vs) ^^^ ι v := by
  rw [checksum, List.foldl_concat]
  rfl

theorem checksum_append (c : BitVec w) (vs vs' : List α) :
    checksum L ι c (vs ++ vs') = checksum L ι (checksum L ι c vs) vs' :=
  List.foldl_append

variable (hL : ∀ x y, L (x ^^^ y) = L x ^^^ L y)

include hL

theorem map_zero_of_xor : L 0#w = 0#w := by
  have h := hL 0#w 0#w
  rwa [BitVec.xor_self, BitVec.xor_self] at h

theorem checksum_eq (c : BitVec w) (vs : List α) :
    checksum L ι c vs = L^[vs.length] c ^^^ checksum L ι 0#w vs := by
  induction vs using List.reverseRecOn with
  | nil => exact BitVec.xor_zero.symm
  | append_singleton vs v ih =>
    rw [checksum_concat, checksum_concat, ih, hL, List.length_append, List.length_singleton,
      Function.iterate_succ_apply', BitVec.xor_assoc]

/-- The last symbols enter the checksum by exclusive or with what they would give alone. -/
theorem checksum_append_eq (zero : α) (hzero : ι zero = 0#w) (c : BitVec w) (vs tail : List α) :
    checksum L ι c (vs ++ tail) =
      checksum L ι c (vs ++ List.replicate tail.length zero) ^^^ checksum L ι 0#w tail := by
  have hzeros : ∀ n, checksum L ι 0#w (List.replicate n zero) = 0#w := by
    intro n
    induction n with
    | zero => rfl
    | succ n ih =>
      rw [List.replicate_succ', checksum_concat, ih, map_zero_of_xor hL, hzero, BitVec.xor_self]
  rw [checksum_append, checksum_eq hL, checksum_append, checksum_eq hL _ (List.replicate _ _),
    hzeros, List.length_replicate, BitVec.xor_zero]

end Checksum

end Rcpu.Codeword
