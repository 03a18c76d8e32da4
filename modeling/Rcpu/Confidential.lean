import Rcpu.Serialize

/-!
# Confidential values and nonces

`primitives/confidential.h`: a field that is null, explicit, or a 33-byte commitment, told apart
by its first byte, and the amounts (`consensus/amount.h`) an explicit value carries.
-/

namespace Rcpu.Confidential

open PrefixCode ByteStream Serialize

/-! ### Amounts

A `CAmount` (an `int64_t`) is an `Int`; where the source could wrap it, the results carry the bound. -/

def COIN : Int := 100000000

def MAX_MONEY : Int := 2100000000 * COIN

def MoneyRange (nValue : Int) : Prop := 0 ≤ nValue ∧ nValue ≤ MAX_MONEY

instance (n : Int) : Decidable (MoneyRange n) := inferInstanceAs (Decidable (_ ∧ _))

theorem MoneyRange.isInt64 {n : Int} (h : MoneyRange n) : IsInt64 n := by
  unfold MoneyRange MAX_MONEY COIN at h
  unfold IsInt64
  omega

/-! ### The common base class -/

/-- The template parameters of `CConfidentialCommitment`; no commitment prefix is one of the
bytes 0 (null) and 1 (explicit). -/
structure CommitmentFormat where
  explicitSize : Nat
  prefixA : UInt8
  prefixB : UInt8
  prefixC : UInt8
  explicitSize_pos : 0 < explicitSize
  commitment_ne : ∀ b, b = prefixA ∨ b = prefixB ∨ b = prefixC → b ≠ 0 ∧ b ≠ 1

def committedSize : Nat := 33

structure CConfidentialCommitment (fmt : CommitmentFormat) where
  vchCommitment : Bytes
deriving DecidableEq, Repr

namespace CConfidentialCommitment

variable {fmt : CommitmentFormat}

def null : CConfidentialCommitment fmt := ⟨[]⟩

def IsNull (c : CConfidentialCommitment fmt) : Prop := c.vchCommitment = []

def IsExplicit (c : CConfidentialCommitment fmt) : Prop :=
  c.vchCommitment.length = fmt.explicitSize ∧ c.vchCommitment.head? = some 1

def IsCommitment (c : CConfidentialCommitment fmt) : Prop :=
  c.vchCommitment.length = committedSize ∧
    (c.vchCommitment.head? = some fmt.prefixA ∨ c.vchCommitment.head? = some fmt.prefixB ∨
      c.vchCommitment.head? = some fmt.prefixC)

def IsValid (c : CConfidentialCommitment fmt) : Prop := c.IsNull ∨ c.IsExplicit ∨ c.IsCommitment

instance (c : CConfidentialCommitment fmt) : Decidable c.IsNull :=
  inferInstanceAs (Decidable (_ = _))
instance (c : CConfidentialCommitment fmt) : Decidable c.IsExplicit :=
  inferInstanceAs (Decidable (_ ∧ _))
instance (c : CConfidentialCommitment fmt) : Decidable c.IsCommitment :=
  inferInstanceAs (Decidable (_ ∧ _))
instance (c : CConfidentialCommitment fmt) : Decidable c.IsValid :=
  inferInstanceAs (Decidable (_ ∨ _))

/-- The version byte (0 when empty), then the remaining bytes. -/
def serialize (c : CConfidentialCommitment fmt) : Bytes :=
  match c.vchCommitment with
  | [] => [0]
  | version :: rest => version :: rest

theorem length_serialize (c : CConfidentialCommitment fmt) :
    c.serialize.length = max 1 c.vchCommitment.length := by
  unfold serialize
  cases c.vchCommitment with
  | nil => rfl
  | cons version rest => simp

def unserialize : Reader (CConfidentialCommitment fmt) := do
  let version ← Reader.readByte
  if version = 0 then return ⟨[]⟩
  else if version = 1 then
    let rest ← Reader.readBytes (fmt.explicitSize - 1)
    return ⟨version :: rest⟩
  else if version = fmt.prefixA ∨ version = fmt.prefixB ∨ version = fmt.prefixC then
    let rest ← Reader.readBytes (committedSize - 1)
    return ⟨version :: rest⟩
  else throw "Unrecognized serialization prefix"

@[simp] theorem isNull_null : (null : CConfidentialCommitment fmt).IsNull := rfl

theorem IsNull.eq_null {c : CConfidentialCommitment fmt} (h : c.IsNull) : c = null := by
  cases c
  exact congrArg _ h

theorem IsNull.not_isExplicit {c : CConfidentialCommitment fmt} (h : c.IsNull) :
    ¬ c.IsExplicit := by
  unfold IsNull at h
  simp [IsExplicit, h]

theorem IsNull.not_isCommitment {c : CConfidentialCommitment fmt} (h : c.IsNull) :
    ¬ c.IsCommitment := by
  unfold IsNull at h
  simp [IsCommitment, h, committedSize]

theorem IsCommitment.not_isExplicit {c : CConfidentialCommitment fmt} (h : c.IsCommitment) :
    ¬ c.IsExplicit := by
  rintro ⟨-, hone⟩
  have hprefix := h.2
  rw [hone] at hprefix
  simp only [Option.some.injEq] at hprefix
  exact (fmt.commitment_ne 1 hprefix).2 rfl

theorem isValid_of_unserialize {s r : Bytes} {c : CConfidentialCommitment fmt}
    (h : unserialize s = .ok (c, r)) : c.IsValid := by
  obtain ⟨version, s', -, h⟩ := Reader.bind_eq_ok.mp h
  split_ifs at h with h0 h1 h2
  · simp only [Reader.pure_apply, Except.ok.injEq, Prod.mk.injEq] at h
    exact .inl (h.1 ▸ rfl)
  · obtain ⟨rest, s'', hread, h⟩ := Reader.bind_eq_ok.mp h
    simp only [Reader.pure_apply, Except.ok.injEq, Prod.mk.injEq] at h
    have hlen := (Reader.readBytes_eq_ok.mp hread).1
    have hpos := fmt.explicitSize_pos
    refine .inr (.inl (h.1 ▸ ⟨?_, by simp [h1]⟩))
    simp only [List.length_cons]
    omega
  · obtain ⟨rest, s'', hread, h⟩ := Reader.bind_eq_ok.mp h
    simp only [Reader.pure_apply, Except.ok.injEq, Prod.mk.injEq] at h
    have hlen := (Reader.readBytes_eq_ok.mp hread).1
    refine .inr (.inr (h.1 ▸ ⟨?_, by simpa using h2⟩))
    simp [hlen, committedSize]
  · simp at h

/-- A field with a version byte and the right number of bytes behind it is read back. -/
private theorem reads_tail {version : UInt8} {rest : Bytes} {n : Nat} (hlen : rest.length = n) :
    Reads (do let rest ← Reader.readBytes n; return (⟨version :: rest⟩ : CConfidentialCommitment fmt))
      rest ⟨version :: rest⟩ :=
  (Reads.readBytes rest hlen).map _

theorem reads_serialize {c : CConfidentialCommitment fmt} (h : c.IsValid) :
    Reads unserialize c.serialize c := by
  obtain ⟨_ | ⟨version, rest⟩⟩ := c
  · exact (Reads.readByte 0).bind (t := []) (Reads.pure _)
  · refine (Reads.readByte version).bind (t := rest) ?_
    rcases h with h | ⟨hlen, hone⟩ | ⟨hlen, hprefix⟩
    · simp [IsNull] at h
    · simp only [List.head?_cons, Option.some.injEq] at hone
      simp only [List.length_cons] at hlen
      subst hone
      exact reads_tail (by omega)
    · simp only [List.head?_cons, Option.some.injEq] at hprefix
      simp only [List.length_cons, committedSize] at hlen
      have hne := fmt.commitment_ne version hprefix
      rw [if_neg hne.1, if_neg hne.2, if_pos hprefix]
      exact reads_tail (by simp only [committedSize]; omega)

theorem canonical_unserialize :
    Canonical unserialize (serialize : CConfidentialCommitment fmt → Bytes) := by
  intro s r c h
  obtain ⟨version, s₁, hbyte, h⟩ := Reader.bind_eq_ok.mp h
  rw [Reader.readByte_eq_ok.mp hbyte]
  split_ifs at h with h0 h1 h2
  · simp only [Reader.pure_apply, Except.ok.injEq, Prod.mk.injEq] at h
    obtain ⟨rfl, rfl⟩ := h
    rw [h0]
    rfl
  · obtain ⟨rest, s₂, hread, h⟩ := Reader.bind_eq_ok.mp h
    simp only [Reader.pure_apply, Except.ok.injEq, Prod.mk.injEq] at h
    obtain ⟨rfl, rfl⟩ := h
    rw [Canonical.readBytes _ hread]
    rfl
  · obtain ⟨rest, s₂, hread, h⟩ := Reader.bind_eq_ok.mp h
    simp only [Reader.pure_apply, Except.ok.injEq, Prod.mk.injEq] at h
    obtain ⟨rfl, rfl⟩ := h
    rw [Canonical.readBytes _ hread]
    rfl
  · simp at h

theorem prefixFree_serialize :
    PrefixFreeOn IsValid (serialize : CConfidentialCommitment fmt → Bytes) :=
  Reads.prefixFree fun _ h => reads_serialize h

end CConfidentialCommitment

/-! ### Values and nonces -/

/-- `CConfidentialCommitment<9, 8, 9>`: the default `PrefixC` is `0xFF`. -/
def valueFormat : CommitmentFormat where
  explicitSize := 9
  prefixA := 8
  prefixB := 9
  prefixC := 0xFF
  explicitSize_pos := by decide
  commitment_ne := by rintro b (rfl | rfl | rfl) <;> decide

/-- `CConfidentialCommitment<33, 2, 3, 4>` -/
def nonceFormat : CommitmentFormat where
  explicitSize := 33
  prefixA := 2
  prefixB := 3
  prefixC := 4
  explicitSize_pos := by decide
  commitment_ne := by rintro b (rfl | rfl | rfl) <;> decide

abbrev CConfidentialValue := CConfidentialCommitment valueFormat

abbrev CConfidentialNonce := CConfidentialCommitment nonceFormat

namespace CConfidentialValue

open CConfidentialCommitment

/-- `SetToAmount`: the byte 1 and the amount as a 64-bit big-endian integer. -/
def ofAmount (nAmount : Int) : CConfidentialValue :=
  ⟨1 :: beBytes 8 (nAmount % 2 ^ 64).toNat⟩

def getAmount (v : CConfidentialValue) : Int :=
  if v.IsExplicit then toInt64 (ofBeBytes v.vchCommitment.tail) else 0

@[simp] theorem isExplicit_ofAmount (n : Int) : (ofAmount n).IsExplicit := by
  simp [ofAmount, IsExplicit, valueFormat]

theorem isInt64_getAmount (v : CConfidentialValue) : IsInt64 (getAmount v) := by
  unfold getAmount
  split
  · exact isInt64_toInt64 _
  · decide

theorem getAmount_ofAmount {n : Int} (h : IsInt64 n) : getAmount (ofAmount n) = n := by
  have hlt : (n % 2 ^ 64).toNat < 256 ^ 8 := by omega
  rw [getAmount, if_pos (isExplicit_ofAmount n), ofAmount, List.tail_cons,
    ofBeBytes_beBytes_of_lt hlt, toInt64_emod h]

theorem ofAmount_getAmount {v : CConfidentialValue} (h : v.IsExplicit) :
    ofAmount (getAmount v) = v := by
  obtain ⟨_ | ⟨b, rest⟩⟩ := v
  · simp [IsExplicit, valueFormat] at h
  · have hlen : rest.length = 8 := by simpa [IsExplicit, valueFormat] using h.1
    have hone : b = 1 := by simpa using h.2
    have hlt : ofBeBytes rest < 2 ^ 64 := by
      have := ofBeBytes_lt rest
      rw [hlen] at this
      omega
    have hrest : beBytes 8 (ofBeBytes rest) = rest := hlen ▸ beBytes_ofBeBytes rest
    rw [getAmount, if_pos h, ofAmount, List.tail_cons, toInt64_toNat_emod hlt, hrest, hone]

theorem eq_of_getAmount_eq {v w : CConfidentialValue} (hv : v.IsExplicit) (hw : w.IsExplicit)
    (h : getAmount v = getAmount w) : v = w := by
  rw [← ofAmount_getAmount hv, h, ofAmount_getAmount hw]

theorem getAmount_of_not_isExplicit {v : CConfidentialValue} (h : ¬ v.IsExplicit) :
    getAmount v = 0 := if_neg h

end CConfidentialValue

end Rcpu.Confidential
