import Rcpu.ByteStream

/-!
# Stream primitives of `serialize.h`

CompactSize, VARINT and vectors, as writers into a byte string and readers off one.  Sizes are
natural numbers; a `std::vector` never holds `2 ^ 64` elements, so the results below ask for that
bound where the encoding would wrap.
-/

namespace Rcpu.Serialize

open PrefixCode ByteStream

def MAX_SIZE : Nat := 0x02000000

/-! ### Integers -/

def serUint8 (n : UInt8) : Bytes := [n]

def serUint32 (n : UInt32) : Bytes := leBytes 4 n.toNat

def unserUint32 : Reader UInt32 := do
  let bs ← Reader.readBytes 4
  return UInt32.ofNat (ofLeBytes bs)

def serInt32 (n : Int32) : Bytes := leBytes 4 n.toUInt32.toNat

def unserInt32 : Reader Int32 := do
  let bs ← Reader.readBytes 4
  return (UInt32.ofNat (ofLeBytes bs)).toInt32

/-- An `int64_t`, two's complement, least significant byte first. -/
def serInt64 (n : Int) : Bytes := leBytes 8 (n % 2 ^ 64).toNat

/-- The `int64_t` with the bits of an unsigned 64-bit number. -/
def toInt64 (n : Nat) : Int :=
  if n % 2 ^ 64 < 2 ^ 63 then ((n % 2 ^ 64 : Nat) : Int) else ((n % 2 ^ 64 : Nat) : Int) - 2 ^ 64

def unserInt64 : Reader Int := do
  let bs ← Reader.readBytes 8
  return toInt64 (ofLeBytes bs)

def IsInt64 (n : Int) : Prop := -2 ^ 63 ≤ n ∧ n < 2 ^ 63

instance (n : Int) : Decidable (IsInt64 n) := inferInstanceAs (Decidable (_ ∧ _))

theorem isInt64_toInt64 (n : Nat) : IsInt64 (toInt64 n) := by
  unfold IsInt64 toInt64
  split <;> omega

theorem toInt64_emod {n : Int} (h : IsInt64 n) : toInt64 (n % 2 ^ 64).toNat = n := by
  unfold IsInt64 at h
  unfold toInt64
  split <;> omega

theorem toInt64_toNat_emod {n : Nat} (h : n < 2 ^ 64) : (toInt64 n % 2 ^ 64).toNat = n := by
  unfold toInt64
  split <;> omega

@[simp] theorem length_serUint32 (n : UInt32) : (serUint32 n).length = 4 := length_leBytes 4 _

@[simp] theorem length_serInt32 (n : Int32) : (serInt32 n).length = 4 := length_leBytes 4 _

@[simp] theorem length_serInt64 (n : Int) : (serInt64 n).length = 8 := length_leBytes 8 _

theorem uint32_toNat_lt (n : UInt32) : n.toNat < 256 ^ 4 := by
  have := n.toNat_lt
  omega

theorem reads_serUint32 (n : UInt32) : Reads unserUint32 (serUint32 n) n := by
  have h := (Reads.readBytes (serUint32 n) (length_serUint32 n)).map
    (fun bs => UInt32.ofNat (ofLeBytes bs))
  rwa [serUint32, ofLeBytes_leBytes_of_lt (uint32_toNat_lt n), UInt32.ofNat_toNat] at h

theorem reads_serInt32 (n : Int32) : Reads unserInt32 (serInt32 n) n := by
  have h := (Reads.readBytes (serInt32 n) (length_serInt32 n)).map
    (fun bs => (UInt32.ofNat (ofLeBytes bs)).toInt32)
  rwa [serInt32, ofLeBytes_leBytes_of_lt (uint32_toNat_lt _), UInt32.ofNat_toNat,
    Int32.toInt32_toUInt32] at h

theorem reads_serInt64 {n : Int} (h : IsInt64 n) : Reads unserInt64 (serInt64 n) n := by
  have hlt : (n % 2 ^ 64).toNat < 256 ^ 8 := by omega
  have hread := (Reads.readBytes (serInt64 n) (length_serInt64 n)).map
    (fun bs => toInt64 (ofLeBytes bs))
  rwa [serInt64, ofLeBytes_leBytes_of_lt hlt, toInt64_emod h] at hread

theorem prefixFree_serUint32 : PrefixFreeOn (fun _ => True) serUint32 :=
  Reads.prefixFree fun n _ => reads_serUint32 n

theorem prefixFree_serInt32 : PrefixFreeOn (fun _ => True) serInt32 :=
  Reads.prefixFree fun n _ => reads_serInt32 n

theorem prefixFree_serInt64 : PrefixFreeOn IsInt64 serInt64 :=
  Reads.prefixFree fun _ h => reads_serInt64 h

theorem isInt64_of_unserInt64 {s r : Bytes} {n : Int} (h : unserInt64 s = .ok (n, r)) :
    IsInt64 n := by
  obtain ⟨bs, s₁, -, h⟩ := Reader.bind_eq_ok.mp h
  simp only [Reader.pure_apply, Except.ok.injEq, Prod.mk.injEq] at h
  exact h.1 ▸ isInt64_toInt64 _

private theorem leBytes_uint32 {bs : Bytes} (hlen : bs.length = 4) :
    leBytes 4 (UInt32.ofNat (ofLeBytes bs)).toNat = bs := by
  have hlt : ofLeBytes bs < 2 ^ 32 := by
    have := ofLeBytes_lt bs
    rw [hlen] at this
    omega
  rw [UInt32.toNat_ofNat', Nat.mod_eq_of_lt hlt, ← hlen, leBytes_ofLeBytes]

theorem canonical_unserUint32 : Canonical unserUint32 serUint32 :=
  .ofBytes fun _ hlen => leBytes_uint32 hlen

theorem canonical_unserInt32 : Canonical unserInt32 serInt32 := by
  refine .ofBytes fun bs hlen => ?_
  rw [serInt32, UInt32.toUInt32_toInt32, leBytes_uint32 hlen]

theorem canonical_unserInt64 : Canonical unserInt64 serInt64 := by
  refine .ofBytes fun bs hlen => ?_
  have hlt := ofLeBytes_lt bs
  rw [hlen] at hlt
  rw [serInt64, toInt64_toNat_emod hlt, ← hlen, leBytes_ofLeBytes]

/-! ### CompactSize -/

def writeCompactSize (nSize : Nat) : Bytes :=
  if nSize < 253 then [UInt8.ofNat nSize]
  else if nSize ≤ 0xFFFF then 253 :: leBytes 2 nSize
  else if nSize ≤ 0xFFFFFFFF then 254 :: leBytes 4 nSize
  else 255 :: leBytes 8 nSize

/-- The width of the number that follows a CompactSize marker, and its least canonical value. -/
def compactSizeTail (chSize : UInt8) : Option (Nat × Nat) :=
  if chSize < 253 then none
  else if chSize = 253 then some (2, 253)
  else if chSize = 254 then some (4, 0x10000)
  else some (8, 0x100000000)

def readCompactSizeValue : Reader Nat := do
  let chSize ← Reader.readByte
  match compactSizeTail chSize with
  | none => return chSize.toNat
  | some (width, least) =>
    let bs ← Reader.readBytes width
    if ofLeBytes bs < least then throw "non-canonical ReadCompactSize()"
    else return ofLeBytes bs

def readCompactSize (rangeCheck : Bool) : Reader Nat := do
  let nSizeRet ← readCompactSizeValue
  if rangeCheck && decide (nSizeRet > MAX_SIZE) then throw "ReadCompactSize(): size too large"
  else return nSizeRet

theorem writeCompactSize_ne_nil (n : Nat) : writeCompactSize n ≠ [] := by
  unfold writeCompactSize
  split_ifs <;> simp

private theorem reads_compactSize_tail {marker : UInt8} {width least n : Nat}
    (hmarker : compactSizeTail marker = some (width, least)) (hleast : least ≤ n)
    (hn : n < 256 ^ width) :
    Reads readCompactSizeValue (marker :: leBytes width n) n := by
  refine (Reads.readByte marker).bind ?_
  simp only [hmarker]
  intro rest
  have hbytes := Reads.readBytes (leBytes width n) (length_leBytes width n) rest
  rw [Reader.bind_apply, hbytes]
  simp only [Except.bind, ofLeBytes_leBytes_of_lt hn, if_neg (Nat.not_lt.mpr hleast)]
  rfl

theorem reads_compactSizeValue {n : Nat} (h : n < 2 ^ 64) :
    Reads readCompactSizeValue (writeCompactSize n) n := by
  unfold writeCompactSize
  split_ifs with h1 h2 h3
  · have hto : (UInt8.ofNat n).toNat = n := by
      rw [UInt8.toNat_ofNat']
      omega
    have hlt : UInt8.ofNat n < 253 := by
      rw [UInt8.lt_iff_toNat_lt, hto]
      exact h1
    refine (Reads.readByte (UInt8.ofNat n)).bind (t := []) ?_
    simp only [compactSizeTail, if_pos hlt, hto]
    exact Reads.pure n
  · exact reads_compactSize_tail rfl (by omega) (by omega)
  · exact reads_compactSize_tail rfl (by omega) (by omega)
  · exact reads_compactSize_tail rfl (by omega) (by omega)

theorem readCompactSize_le {s r : Bytes} {n : Nat} (h : readCompactSize true s = .ok (n, r)) :
    n ≤ MAX_SIZE := by
  obtain ⟨m, s', -, hcheck⟩ := Reader.bind_eq_ok.mp h
  simp only [Bool.true_and, decide_eq_true_eq] at hcheck
  split at hcheck
  · simp at hcheck
  · next hle =>
    simp only [Reader.pure_apply, Except.ok.injEq, Prod.mk.injEq] at hcheck
    omega

theorem reads_writeCompactSize {n : Nat} (h : n ≤ MAX_SIZE) :
    Reads (readCompactSize true) (writeCompactSize n) n := by
  have hlt : n < 2 ^ 64 := by
    unfold MAX_SIZE at h
    omega
  refine List.append_nil (writeCompactSize n) ▸ (reads_compactSizeValue hlt).bind ?_
  simp only [Bool.true_and, decide_eq_true_eq, if_neg (Nat.not_lt.mpr h)]
  exact Reads.pure n

theorem prefixFree_writeCompactSize : PrefixFreeOn (· < 2 ^ 64) writeCompactSize :=
  Reads.prefixFree fun _ h => reads_compactSizeValue h

/-- A marker and the tail it announces write the number they denote, if the tail is canonical. -/
private theorem writeCompactSize_tail {marker : UInt8} {width least : Nat} {bs : Bytes}
    (hmarker : compactSizeTail marker = some (width, least)) (hlen : bs.length = width)
    (hleast : ¬ ofLeBytes bs < least) : writeCompactSize (ofLeBytes bs) = marker :: bs := by
  have hlt := ofLeBytes_lt bs
  have hbytes := leBytes_ofLeBytes bs
  unfold compactSizeTail at hmarker
  split_ifs at hmarker with h1 h2 h3
  · simp only [Option.some.injEq, Prod.mk.injEq] at hmarker
    obtain ⟨rfl, rfl⟩ := hmarker
    rw [hlen] at hlt hbytes
    rw [writeCompactSize, if_neg hleast, if_pos (by omega), hbytes, h2]
  · simp only [Option.some.injEq, Prod.mk.injEq] at hmarker
    obtain ⟨rfl, rfl⟩ := hmarker
    rw [hlen] at hlt hbytes
    rw [writeCompactSize, if_neg (by omega), if_neg (by omega), if_pos (by omega), hbytes, h3]
  · simp only [Option.some.injEq, Prod.mk.injEq] at hmarker
    obtain ⟨rfl, rfl⟩ := hmarker
    rw [hlen] at hlt hbytes
    have hmax : marker = 255 := by
      rw [UInt8.lt_iff_toNat_lt] at h1
      rw [← UInt8.toNat_inj] at h2 h3 ⊢
      have := marker.toNat_lt
      simp only [UInt8.reduceToNat] at h1 h2 h3 ⊢
      omega
    rw [writeCompactSize, if_neg (by omega), if_neg (by omega), if_neg (by omega), hbytes, hmax]

theorem canonical_readCompactSizeValue : Canonical readCompactSizeValue writeCompactSize := by
  intro s r n hread
  obtain ⟨chSize, s₁, hbyte, h⟩ := Reader.bind_eq_ok.mp hread
  obtain rfl := Reader.readByte_eq_ok.mp hbyte
  cases htail : compactSizeTail chSize with
  | none =>
    simp only [htail, Reader.pure_apply, Except.ok.injEq, Prod.mk.injEq] at h
    obtain ⟨rfl, rfl⟩ := h
    have hlt : chSize.toNat < 253 := by
      unfold compactSizeTail at htail
      split_ifs at htail with h1
      exact UInt8.lt_iff_toNat_lt.mp h1
    rw [writeCompactSize, if_pos hlt, UInt8.ofNat_toNat]
    rfl
  | some tail =>
    obtain ⟨width, least⟩ := tail
    simp only [htail] at h
    obtain ⟨bs, s₂, hbs, hcheck⟩ := Reader.bind_eq_ok.mp h
    obtain ⟨hlen, rfl⟩ := Reader.readBytes_eq_ok.mp hbs
    split at hcheck
    · simp at hcheck
    · next hleast =>
      simp only [Reader.pure_apply, Except.ok.injEq, Prod.mk.injEq] at hcheck
      obtain ⟨rfl, rfl⟩ := hcheck
      rw [writeCompactSize_tail htail hlen hleast, List.cons_append]

theorem canonical_readCompactSize (rangeCheck : Bool) :
    Canonical (readCompactSize rangeCheck) writeCompactSize := by
  intro s r n h
  obtain ⟨m, s₁, hvalue, h⟩ := Reader.bind_eq_ok.mp h
  split at h
  · simp at h
  · simp only [Reader.pure_apply, Except.ok.injEq, Prod.mk.injEq] at h
    obtain ⟨rfl, rfl⟩ := h
    exact canonical_readCompactSizeValue hvalue

/-! ### VARINT -/

/-- The digits `WriteVarInt` collects in `tmp`, least significant first: all but the first one
carry the continuation bit. -/
def varIntDigits (first : Bool) (n : Nat) : Bytes :=
  let digit := UInt8.ofNat (n % 128 + if first then 0 else 128)
  if n ≤ 0x7F then [digit] else digit :: varIntDigits false (n / 128 - 1)
termination_by n

def writeVarInt (n : Nat) : Bytes := (varIntDigits true n).reverse

theorem writeVarInt_of_lt {n : Nat} (h : n < 128) : writeVarInt n = [UInt8.ofNat n] := by
  rw [writeVarInt, varIntDigits, if_pos (by omega)]
  simp [Nat.mod_eq_of_lt h]

/-- The loop of `ReadVarInt` for an unsigned type with largest value `max`. -/
def readVarIntLoop (max : Nat) (n : Nat) : Bytes → Except String (Nat × Bytes)
  | [] => .error "DataStream::read(): end of data"
  | chData :: rest =>
    if n > max / 128 then .error "ReadVarInt(): size too large"
    else
      let n := n * 128 + chData.toNat % 128
      if chData.toNat ≥ 128 then
        if n = max then .error "ReadVarInt(): size too large"
        else readVarIntLoop max (n + 1) rest
      else .ok (n, rest)

def readVarInt (max : Nat) : Reader Nat := readVarIntLoop max 0

def UINT32_MAX : Nat := 0xFFFFFFFF

private theorem readVarIntLoop_continue {max acc n : Nat} (hacc : n / 128 = acc) (hn : n < max)
    (rest : Bytes) :
    readVarIntLoop max acc (UInt8.ofNat (n % 128 + 128) :: rest) =
      readVarIntLoop max (n + 1) rest := by
  have hdigit : (UInt8.ofNat (n % 128 + 128)).toNat = n % 128 + 128 := by
    rw [UInt8.toNat_ofNat']
    omega
  have hle : ¬ acc > max / 128 := by
    have := Nat.div_le_div_right (c := 128) hn.le
    omega
  have hval : acc * 128 + (n % 128 + 128) % 128 = n := by omega
  rw [readVarIntLoop, if_neg hle, hdigit]
  simp only [hval, ge_iff_le, Nat.le_add_left, if_true, if_neg hn.ne]

/-- Reading the continued digits of `n` leaves the accumulator at `n + 1`. -/
private theorem readVarIntLoop_digits {max : Nat} (n : Nat) (hn : n < max) (rest : Bytes) :
    readVarIntLoop max 0 ((varIntDigits false n).reverse ++ rest) =
      readVarIntLoop max (n + 1) rest := by
  induction n using Nat.strongRecOn generalizing rest with
  | ind n ih =>
    rw [varIntDigits]
    by_cases hsmall : n ≤ 0x7F
    · simp only [if_pos hsmall, Bool.false_eq_true, if_false, List.reverse_singleton,
        List.singleton_append]
      exact readVarIntLoop_continue (by omega) hn rest
    · simp only [if_neg hsmall, Bool.false_eq_true, if_false, List.reverse_cons,
        List.append_assoc, List.singleton_append]
      rw [ih (n / 128 - 1) (by omega) (by omega), Nat.sub_add_cancel (by omega)]
      exact readVarIntLoop_continue rfl hn rest

theorem reads_writeVarInt {max n : Nat} (hn : n ≤ max) :
    Reads (readVarInt max) (writeVarInt n) n := by
  intro rest
  have hdigit : (UInt8.ofNat (n % 128)).toNat = n % 128 := by
    rw [UInt8.toNat_ofNat']
    omega
  have hlast : readVarIntLoop max (n / 128) (UInt8.ofNat (n % 128) :: rest) = .ok (n, rest) := by
    have hle : ¬ n / 128 > max / 128 := by
      have := Nat.div_le_div_right (c := 128) hn
      omega
    have hval : n / 128 * 128 + n % 128 % 128 = n := by omega
    have hstop : ¬ n % 128 ≥ 128 := by omega
    rw [readVarIntLoop, if_neg hle, hdigit]
    simp only [hval, if_neg hstop]
  unfold readVarInt writeVarInt
  rw [varIntDigits]
  by_cases hsmall : n ≤ 0x7F
  · have hdiv : n / 128 = 0 := by omega
    simp only [if_pos hsmall, if_true, Nat.add_zero, List.reverse_singleton,
      List.singleton_append]
    rw [← hlast, hdiv]
  · simp only [if_neg hsmall, if_true, Nat.add_zero, List.reverse_cons, List.append_assoc,
      List.singleton_append]
    rw [readVarIntLoop_digits _ (by omega), Nat.sub_add_cancel (by omega)]
    exact hlast

theorem prefixFree_writeVarInt : PrefixFreeOn (fun _ => True) writeVarInt := by
  intro m n _ _ hp
  have hread : ∀ x, x = m ∨ x = n → Reads (readVarInt (m + n)) (writeVarInt x) x := by
    intro x hx
    exact reads_writeVarInt (by omega)
  exact Reads.prefixFree hread (.inl rfl) (.inr rfl) hp

/-! ### Vectors -/

/-- A `std::vector<unsigned char>` (or `prevector`): its size and its bytes. -/
def serBytes (v : Bytes) : Bytes := writeCompactSize v.length ++ v

def unserBytes : Reader Bytes := do
  let nSize ← readCompactSize true
  Reader.readBytes nSize

/-- `VectorFormatter` around an element serializer. -/
def serVector {α : Type} (ser : α → Bytes) (v : List α) : Bytes :=
  writeCompactSize v.length ++ v.flatMap ser

def unserVector {α : Type} (unser : Reader α) : Reader (List α) := do
  let nSize ← readCompactSize true
  Reader.readMany unser nSize

theorem unserBytes_length_le {s r v : Bytes} (h : unserBytes s = .ok (v, r)) :
    v.length ≤ MAX_SIZE := by
  obtain ⟨n, s', hsize, hread⟩ := Reader.bind_eq_ok.mp h
  rw [(Reader.readBytes_eq_ok.mp hread).1]
  exact readCompactSize_le hsize

theorem unserVector_eq_ok {α : Type} {unser : Reader α} {s r : Bytes} {v : List α}
    (h : unserVector unser s = .ok (v, r)) :
    v.length ≤ MAX_SIZE ∧ ∀ x ∈ v, ∃ s' r', unser s' = .ok (x, r') := by
  obtain ⟨n, s', hsize, hread⟩ := Reader.bind_eq_ok.mp h
  obtain ⟨hlen, hmem⟩ := Reader.readMany_eq_ok hread
  exact ⟨hlen ▸ readCompactSize_le hsize, hmem⟩

theorem reads_serBytes {v : Bytes} (h : v.length ≤ MAX_SIZE) : Reads unserBytes (serBytes v) v :=
  (reads_writeCompactSize h).bind (Reads.readBytes v rfl)

theorem reads_serVector {α : Type} {ser : α → Bytes} {unser : Reader α} {v : List α}
    (hlen : v.length ≤ MAX_SIZE) (h : ∀ x ∈ v, Reads unser (ser x) x) :
    Reads (unserVector unser) (serVector ser v) v :=
  (reads_writeCompactSize hlen).bind (Reads.readMany h)

theorem prefixFree_serBytes : PrefixFreeOn (fun v : Bytes => v.length < 2 ^ 64) serBytes := by
  apply PrefixFreeOn.of_append_inj
  intro v w r s hv hw heq
  simp only [serBytes, List.append_assoc] at heq
  obtain ⟨hlen, hrest⟩ := prefixFree_writeCompactSize.append_inj hv hw heq
  exact (List.append_inj hrest hlen).1

theorem prefixFree_serVector {α : Type} {P : α → Prop} {ser : α → Bytes}
    (hser : PrefixFreeOn P ser) :
    PrefixFreeOn (fun v : List α => v.length < 2 ^ 64 ∧ ∀ x ∈ v, P x) (serVector ser) :=
  countedList prefixFree_writeCompactSize hser

theorem canonical_unserBytes : Canonical unserBytes serBytes := by
  intro s r v h
  obtain ⟨n, s₁, hsize, h⟩ := Reader.bind_eq_ok.mp h
  obtain ⟨rfl, rfl⟩ := Reader.readBytes_eq_ok.mp h
  rw [canonical_readCompactSize true hsize, serBytes, List.append_assoc]

theorem canonical_unserVector {α : Type} {ser : α → Bytes} {unser : Reader α}
    (hunser : Canonical unser ser) : Canonical (unserVector unser) (serVector ser) := by
  intro s r v h
  obtain ⟨n, s₁, hsize, h⟩ := Reader.bind_eq_ok.mp h
  obtain ⟨rfl, -⟩ := Reader.readMany_eq_ok h
  rw [canonical_readCompactSize true hsize, Canonical.readMany hunser _ h, serVector,
    List.append_assoc]

theorem serBytes_ne_nil (v : Bytes) : serBytes v ≠ [] := by
  simp [serBytes, writeCompactSize_ne_nil]

end Rcpu.Serialize
