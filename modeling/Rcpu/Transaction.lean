import Rcpu.Confidential

/-!
# Transactions

`primitives/transaction.h`: inputs, outputs and transactions with their two serialization modes.
A version-3 transaction is written in confidential (CT) mode: each input carries a value field and
each output its commitment, nonce and range proof.  Any other version is written in the legacy
mode, where an output is an 8-byte amount and a script.
-/

namespace Rcpu.Transaction

open PrefixCode ByteStream Serialize Confidential

/-! ### Identifiers and outpoints -/

structure Uint256 where
  bytes : Bytes
  size_eq : bytes.length = 32
deriving DecidableEq, Repr

namespace Uint256

def null : Uint256 := ⟨List.replicate 32 0, rfl⟩

def unserialize : Reader Uint256 := fun s =>
  if h : 32 ≤ s.length then .ok (⟨s.take 32, by simpa using h⟩, s.drop 32)
  else .error "DataStream::read(): end of data"

theorem bytes_injective {a b : Uint256} (h : a.bytes = b.bytes) : a = b := by
  cases a
  cases b
  simpa using h

theorem prefixFree_bytes : PrefixFreeOn (fun _ => True) Uint256.bytes :=
  .of_length_eq (fun a _ => a.size_eq) (fun _ _ _ _ h => bytes_injective h)

end Uint256

structure COutPoint where
  hash : Uint256
  n : UInt32
deriving DecidableEq, Repr

namespace COutPoint

def NULL_INDEX : UInt32 := 0xFFFFFFFF

def IsNull (o : COutPoint) : Prop := o.hash = Uint256.null ∧ o.n = NULL_INDEX

instance (o : COutPoint) : Decidable o.IsNull := inferInstanceAs (Decidable (_ ∧ _))

def serialize (o : COutPoint) : Bytes := o.hash.bytes ++ serUint32 o.n

def unserialize : Reader COutPoint := do
  let hash ← Uint256.unserialize
  let n ← unserUint32
  return ⟨hash, n⟩

@[simp] theorem length_serialize (o : COutPoint) : o.serialize.length = 36 := by
  simp [serialize, o.hash.size_eq]

theorem prefixFree_serialize : PrefixFreeOn (fun _ => True) COutPoint.serialize :=
  (Uint256.prefixFree_bytes.prod prefixFree_serUint32).comap
    (f := fun o : COutPoint => (o.hash, o.n)) (fun _ _ => ⟨trivial, trivial⟩)
    (fun a b _ _ h => by
      cases a
      cases b
      simpa using h)

end COutPoint

abbrev CScript := Bytes

/-! ### Inputs and outputs -/

structure CTxIn where
  prevout : COutPoint
  scriptSig : CScript
  nSequence : UInt32
  scriptWitness : List Bytes
  nValue : CConfidentialValue
deriving DecidableEq, Repr

structure CTxOut where
  nValue : CConfidentialValue
  nNonce : CConfidentialNonce
  vchRangeproof : Bytes
  scriptPubKey : CScript
deriving DecidableEq, Repr

def MAX_RANGEPROOF_SIZE : Nat := 5134

namespace CTxIn

def SEQUENCE_FINAL : UInt32 := 0xFFFFFFFF

def serialize (fCT : Bool) (txin : CTxIn) : Bytes :=
  txin.prevout.serialize ++ serBytes txin.scriptSig ++ serUint32 txin.nSequence ++
    if fCT then txin.nValue.serialize else []

def unserialize (fCT : Bool) : Reader CTxIn := do
  let prevout ← COutPoint.unserialize
  let scriptSig ← unserBytes
  let nSequence ← unserUint32
  let nValue ← if fCT then CConfidentialCommitment.unserialize else pure .null
  return ⟨prevout, scriptSig, nSequence, [], nValue⟩

/-- What the stream format can express: sizes fit, and only CT mode carries a value field. -/
structure WellFormed (fCT : Bool) (txin : CTxIn) : Prop where
  scriptSig_lt : txin.scriptSig.length < 2 ^ 64
  value : if fCT then txin.nValue.IsValid else txin.nValue.IsNull

theorem wellFormed_of_unserialize {fCT : Bool} {s r : Bytes} {txin : CTxIn}
    (h : unserialize fCT s = .ok (txin, r)) : txin.WellFormed fCT ∧ txin.scriptWitness = [] := by
  obtain ⟨prevout, s₁, -, h⟩ := Reader.bind_eq_ok.mp h
  obtain ⟨scriptSig, s₂, hsig, h⟩ := Reader.bind_eq_ok.mp h
  obtain ⟨nSequence, s₃, -, h⟩ := Reader.bind_eq_ok.mp h
  have hlen : scriptSig.length < 2 ^ 64 := by
    have := unserBytes_length_le hsig
    unfold MAX_SIZE at this
    omega
  cases fCT with
  | true =>
    obtain ⟨nValue, s₄, hvalue, h⟩ := Reader.bind_eq_ok.mp h
    simp only [Reader.pure_apply, Except.ok.injEq, Prod.mk.injEq] at h
    rw [← h.1]
    exact ⟨⟨hlen, CConfidentialCommitment.isValid_of_unserialize hvalue⟩, rfl⟩
  | false =>
    obtain ⟨nValue, s₄, hvalue, h⟩ := Reader.bind_eq_ok.mp h
    simp only [Reader.pure_apply, Except.ok.injEq, Prod.mk.injEq] at h hvalue
    rw [← h.1, ← hvalue.1]
    exact ⟨⟨hlen, rfl⟩, rfl⟩

end CTxIn

namespace CTxOut

/-- The output of a plain amount, `CTxOut(nValueIn, scriptPubKeyIn)`. -/
def ofAmount (nValueIn : Int) (scriptPubKeyIn : CScript) : CTxOut :=
  ⟨.ofAmount nValueIn, .null, [], scriptPubKeyIn⟩

/-- The default output, which stands for a spent coin: the amount is -1. -/
def null : CTxOut := ofAmount (-1) []

def IsNull (o : CTxOut) : Prop := o.nValue.IsExplicit ∧ o.nValue.getAmount = -1

/-- A fee output carries the explicit transaction fee on an empty script. -/
def IsFee (o : CTxOut) : Prop := o.nValue.IsExplicit ∧ o.scriptPubKey = []

instance (o : CTxOut) : Decidable o.IsNull := inferInstanceAs (Decidable (_ ∧ _))
instance (o : CTxOut) : Decidable o.IsFee := inferInstanceAs (Decidable (_ ∧ _))

def serialize (fCT : Bool) (o : CTxOut) : Bytes :=
  (if fCT then o.nValue.serialize ++ o.nNonce.serialize ++ serBytes o.vchRangeproof
    else serInt64 (if o.nValue.IsExplicit then o.nValue.getAmount else 0)) ++
  serBytes o.scriptPubKey

def unserialize (fCT : Bool) : Reader CTxOut :=
  if fCT then do
    let nValue ← CConfidentialCommitment.unserialize
    let nNonce ← CConfidentialCommitment.unserialize
    let vchRangeproof ← unserBytes
    if vchRangeproof.length > MAX_RANGEPROOF_SIZE then
      throw s!"rangeproof too large ({vchRangeproof.length} > {MAX_RANGEPROOF_SIZE})"
    else
      let scriptPubKey ← unserBytes
      return ⟨nValue, nNonce, vchRangeproof, scriptPubKey⟩
  else do
    let value ← unserInt64
    let scriptPubKey ← unserBytes
    return ofAmount value scriptPubKey

/-- What the stream format can express: in legacy mode an amount and a script, in CT mode valid
fields; sizes fit. -/
structure WellFormed (fCT : Bool) (o : CTxOut) : Prop where
  value : if fCT then o.nValue.IsValid else o.nValue.IsExplicit
  nonce : if fCT then o.nNonce.IsValid else o.nNonce.IsNull
  rangeproof : if fCT then o.vchRangeproof.length < 2 ^ 64 else o.vchRangeproof = []
  script_lt : o.scriptPubKey.length < 2 ^ 64

theorem wellFormed_of_unserialize {fCT : Bool} {s r : Bytes} {o : CTxOut}
    (h : unserialize fCT s = .ok (o, r)) : o.WellFormed fCT := by
  have hlt : ∀ {s r v : Bytes}, unserBytes s = .ok (v, r) → v.length < 2 ^ 64 := by
    intro s r v hv
    have := unserBytes_length_le hv
    unfold MAX_SIZE at this
    omega
  cases fCT with
  | true =>
    obtain ⟨nValue, s₁, hvalue, h⟩ := Reader.bind_eq_ok.mp h
    obtain ⟨nNonce, s₂, hnonce, h⟩ := Reader.bind_eq_ok.mp h
    obtain ⟨proof, s₃, hproof, h⟩ := Reader.bind_eq_ok.mp h
    split at h
    · simp at h
    · obtain ⟨script, s₄, hscript, h⟩ := Reader.bind_eq_ok.mp h
      simp only [Reader.pure_apply, Except.ok.injEq, Prod.mk.injEq] at h
      rw [← h.1]
      exact ⟨CConfidentialCommitment.isValid_of_unserialize hvalue,
        CConfidentialCommitment.isValid_of_unserialize hnonce, hlt hproof, hlt hscript⟩
  | false =>
    obtain ⟨value, s₁, -, h⟩ := Reader.bind_eq_ok.mp h
    obtain ⟨script, s₂, hscript, h⟩ := Reader.bind_eq_ok.mp h
    simp only [Reader.pure_apply, Except.ok.injEq, Prod.mk.injEq] at h
    rw [← h.1]
    exact ⟨CConfidentialValue.isExplicit_ofAmount value, rfl, rfl, hlt hscript⟩

theorem serialize_false (o : CTxOut) :
    o.serialize false = serInt64 o.nValue.getAmount ++ serBytes o.scriptPubKey := by
  by_cases h : o.nValue.IsExplicit
  · simp [serialize, h]
  · simp [serialize, h, CConfidentialValue.getAmount_of_not_isExplicit h]

/-- The legacy mode determines exactly the amount and the script. -/
theorem serialize_false_append_inj {a b : CTxOut} {r s : Bytes}
    (ha : a.scriptPubKey.length < 2 ^ 64) (hb : b.scriptPubKey.length < 2 ^ 64)
    (h : a.serialize false ++ r = b.serialize false ++ s) :
    a.nValue.getAmount = b.nValue.getAmount ∧ a.scriptPubKey = b.scriptPubKey ∧ r = s := by
  rw [serialize_false, serialize_false, List.append_assoc, List.append_assoc] at h
  obtain ⟨hamount, h⟩ := prefixFree_serInt64.append_inj
    (CConfidentialValue.isInt64_getAmount _) (CConfidentialValue.isInt64_getAmount _) h
  obtain ⟨hscript, hrest⟩ := prefixFree_serBytes.append_inj ha hb h
  exact ⟨hamount, hscript, hrest⟩

theorem prefixFree_serialize (fCT : Bool) : PrefixFreeOn (WellFormed fCT) (serialize fCT) := by
  apply PrefixFreeOn.of_append_inj
  intro a b r s ha hb h
  cases fCT with
  | true =>
    simp only [serialize, if_true, List.append_assoc] at h
    obtain ⟨hvalue, h⟩ := CConfidentialCommitment.prefixFree_serialize.append_inj
      ha.value hb.value h
    obtain ⟨hnonce, h⟩ := CConfidentialCommitment.prefixFree_serialize.append_inj
      ha.nonce hb.nonce h
    obtain ⟨hproof, h⟩ := prefixFree_serBytes.append_inj ha.rangeproof hb.rangeproof h
    obtain ⟨hscript, -⟩ := prefixFree_serBytes.append_inj ha.script_lt hb.script_lt h
    cases a
    cases b
    simp_all
  | false =>
    obtain ⟨hamount, hscript, -⟩ := serialize_false_append_inj ha.script_lt hb.script_lt h
    have hvalue := CConfidentialValue.eq_of_getAmount_eq ha.value hb.value hamount
    have hnonce := ha.nonce.eq_null.trans hb.nonce.eq_null.symm
    have hproof := ha.rangeproof.trans hb.rangeproof.symm
    cases a
    cases b
    simp_all

theorem serialize_ne_nil (fCT : Bool) (o : CTxOut) : o.serialize fCT ≠ [] := by
  simp [serialize, serBytes_ne_nil]

end CTxOut

/-! ### Transactions -/

/-- Transaction version marking confidential-transactions serialization. -/
def CT_VERSION : Int32 := 3

structure CTransaction where
  vin : List CTxIn
  vout : List CTxOut
  nVersion : Int32
  nLockTime : UInt32
deriving DecidableEq, Repr

namespace CTransaction

def CURRENT_VERSION : Int32 := 2

/-- The version selects the serialization mode of every input and output. -/
def fCT (tx : CTransaction) : Bool := tx.nVersion = CT_VERSION

theorem fCT_congr {tx tx' : CTransaction} (h : tx.nVersion = tx'.nVersion) : tx.fCT = tx'.fCT := by
  unfold fCT
  rw [h]

def hasWitness (vin : List CTxIn) : Bool := vin.any fun txin => !txin.scriptWitness.isEmpty

def IsCoinBase (tx : CTransaction) : Prop :=
  tx.vin.length = 1 ∧ ∀ txin ∈ tx.vin, txin.prevout.IsNull

instance (tx : CTransaction) : Decidable tx.IsCoinBase := inferInstanceAs (Decidable (_ ∧ _))

/-- `GetValueOut`: explicit outputs other than fee outputs, with overflow checks. -/
def getValueOut (tx : CTransaction) : Except String Int :=
  tx.vout.foldlM (fun nValueOut txOut =>
    if ¬ txOut.nValue.IsExplicit then pure nValueOut
    else if txOut.IsFee then pure nValueOut
    else if ¬ MoneyRange txOut.nValue.getAmount ∨ ¬ MoneyRange (nValueOut + txOut.nValue.getAmount)
    then throw "GetValueOut: value out of range"
    else pure (nValueOut + txOut.nValue.getAmount)) 0

/-- `GetFeeOut`: the sum of the fee outputs. -/
def getFeeOut (tx : CTransaction) : Int :=
  tx.vout.foldl (fun nFee txOut =>
    if txOut.IsFee then nFee + txOut.nValue.getAmount else nFee) 0

def serialize (allowWitness : Bool) (tx : CTransaction) : Bytes :=
  let flags : UInt8 := if allowWitness && hasWitness tx.vin then 1 else 0
  serInt32 tx.nVersion ++
    (if flags ≠ 0 then serVector (CTxIn.serialize tx.fCT) [] ++ serUint8 flags else []) ++
    serVector (CTxIn.serialize tx.fCT) tx.vin ++
    serVector (CTxOut.serialize tx.fCT) tx.vout ++
    (if flags ≠ 0 then tx.vin.flatMap fun txin => serVector serBytes txin.scriptWitness else []) ++
    serUint32 tx.nLockTime

/-- The marker, the flags and both vectors: an empty first vector announces the extended format. -/
def unserializeVectors (allowWitness fCT : Bool) : Reader (UInt8 × List CTxIn × List CTxOut) := do
  let vin ← unserVector (CTxIn.unserialize fCT)
  if vin.isEmpty && allowWitness then
    let flags ← Reader.readByte
    if flags ≠ 0 then
      let vin ← unserVector (CTxIn.unserialize fCT)
      let vout ← unserVector (CTxOut.unserialize fCT)
      return (flags, vin, vout)
    else return (flags, [], [])
  else
    let vout ← unserVector (CTxOut.unserialize fCT)
    return (0, vin, vout)

def unserializeStacks : List CTxIn → Reader (List CTxIn)
  | [] => pure []
  | txin :: vin => do
    let stack ← unserVector unserBytes
    let vin ← unserializeStacks vin
    return { txin with scriptWitness := stack } :: vin

/-- The witness record, when its flag is set; returns the flags that are left. -/
def unserializeWitness (allowWitness : Bool) (flags : UInt8) (vin : List CTxIn) :
    Reader (UInt8 × List CTxIn) :=
  if flags &&& 1 ≠ 0 ∧ allowWitness then do
    let vin ← unserializeStacks vin
    if hasWitness vin then return (flags ^^^ 1, vin) else throw "Superfluous witness record"
  else return (flags, vin)

def unserialize (allowWitness : Bool) : Reader CTransaction := do
  let nVersion ← unserInt32
  let (flags, vin, vout) ← unserializeVectors allowWitness (nVersion = CT_VERSION)
  let (flags, vin) ← unserializeWitness allowWitness flags vin
  if flags ≠ 0 then throw "Unknown transaction optional data"
  else
    let nLockTime ← unserUint32
    return ⟨vin, vout, nVersion, nLockTime⟩

/-! ### What wire decoding guarantees -/

/-- The transactions the stream format can express. -/
structure WellFormed (tx : CTransaction) : Prop where
  vin_lt : tx.vin.length < 2 ^ 64
  vout_lt : tx.vout.length < 2 ^ 64
  vin_wf : ∀ txin ∈ tx.vin, txin.WellFormed tx.fCT
  vout_wf : ∀ txout ∈ tx.vout, txout.WellFormed tx.fCT

private theorem wellFormed_of_unserVectors {fCT : Bool} {s r s' r' : Bytes} {vin : List CTxIn}
    {vout : List CTxOut} (hvin : unserVector (CTxIn.unserialize fCT) s = .ok (vin, r))
    (hvout : unserVector (CTxOut.unserialize fCT) s' = .ok (vout, r')) :
    (vin.length < 2 ^ 64 ∧ ∀ txin ∈ vin, txin.WellFormed fCT) ∧
      (vout.length < 2 ^ 64 ∧ ∀ txout ∈ vout, txout.WellFormed fCT) := by
  obtain ⟨hin_le, hin⟩ := unserVector_eq_ok hvin
  obtain ⟨hout_le, hout⟩ := unserVector_eq_ok hvout
  unfold MAX_SIZE at hin_le hout_le
  refine ⟨⟨by omega, fun txin hmem => ?_⟩, by omega, fun txout hmem => ?_⟩
  · obtain ⟨_, _, hread⟩ := hin txin hmem
    exact (CTxIn.wellFormed_of_unserialize hread).1
  · obtain ⟨_, _, hread⟩ := hout txout hmem
    exact CTxOut.wellFormed_of_unserialize hread

private theorem wellFormed_of_unserializeVectors {allowWitness fCT : Bool} {s r : Bytes}
    {flags : UInt8} {vin : List CTxIn} {vout : List CTxOut}
    (h : unserializeVectors allowWitness fCT s = .ok ((flags, vin, vout), r)) :
    (vin.length < 2 ^ 64 ∧ ∀ txin ∈ vin, txin.WellFormed fCT) ∧
      (vout.length < 2 ^ 64 ∧ ∀ txout ∈ vout, txout.WellFormed fCT) := by
  obtain ⟨vin₀, s₁, hvin₀, h⟩ := Reader.bind_eq_ok.mp h
  split at h
  · obtain ⟨b, s₂, -, h⟩ := Reader.bind_eq_ok.mp h
    split at h
    · obtain ⟨vin₁, s₃, hvin₁, h⟩ := Reader.bind_eq_ok.mp h
      obtain ⟨vout₁, s₄, hvout₁, h⟩ := Reader.bind_eq_ok.mp h
      simp only [Reader.pure_apply, Except.ok.injEq, Prod.mk.injEq] at h
      obtain ⟨⟨-, rfl, rfl⟩, -⟩ := h
      exact wellFormed_of_unserVectors hvin₁ hvout₁
    · simp only [Reader.pure_apply, Except.ok.injEq, Prod.mk.injEq] at h
      obtain ⟨⟨-, rfl, rfl⟩, -⟩ := h
      simp
  · obtain ⟨vout₁, s₂, hvout₁, h⟩ := Reader.bind_eq_ok.mp h
    simp only [Reader.pure_apply, Except.ok.injEq, Prod.mk.injEq] at h
    obtain ⟨⟨-, rfl, rfl⟩, -⟩ := h
    exact wellFormed_of_unserVectors hvin₀ hvout₁

private theorem wellFormed_of_unserializeStacks {fCT : Bool} {vin vin' : List CTxIn}
    {s r : Bytes} (h : unserializeStacks vin s = .ok (vin', r))
    (hvin : ∀ txin ∈ vin, txin.WellFormed fCT) :
    vin'.length = vin.length ∧ ∀ txin ∈ vin', txin.WellFormed fCT := by
  induction vin generalizing vin' s r with
  | nil =>
    simp only [unserializeStacks, Reader.pure_apply, Except.ok.injEq, Prod.mk.injEq] at h
    obtain ⟨rfl, -⟩ := h
    simp
  | cons txin vin ih =>
    obtain ⟨stack, s₁, -, h⟩ := Reader.bind_eq_ok.mp h
    obtain ⟨rest, s₂, hrest, h⟩ := Reader.bind_eq_ok.mp h
    simp only [Reader.pure_apply, Except.ok.injEq, Prod.mk.injEq] at h
    obtain ⟨rfl, -⟩ := h
    rw [List.forall_mem_cons] at hvin
    obtain ⟨hlen, hwf⟩ := ih hrest hvin.2
    refine ⟨by simp [hlen], ?_⟩
    rw [List.forall_mem_cons]
    exact ⟨⟨hvin.1.scriptSig_lt, hvin.1.value⟩, hwf⟩

/-- **Wire decoding yields well-formed transactions.** -/
theorem wellFormed_of_unserialize {allowWitness : Bool} {s r : Bytes} {tx : CTransaction}
    (h : unserialize allowWitness s = .ok (tx, r)) : tx.WellFormed := by
  obtain ⟨nVersion, s₁, -, h⟩ := Reader.bind_eq_ok.mp h
  obtain ⟨⟨flags, vin, vout⟩, s₂, hvectors, h⟩ := Reader.bind_eq_ok.mp h
  obtain ⟨⟨flags', vin'⟩, s₃, hwitness, h⟩ := Reader.bind_eq_ok.mp h
  dsimp only at h
  split at h
  · simp at h
  obtain ⟨nLockTime, s₄, -, h⟩ := Reader.bind_eq_ok.mp h
  simp only [Reader.pure_apply, Except.ok.injEq, Prod.mk.injEq] at h
  obtain ⟨rfl, -⟩ := h
  obtain ⟨⟨hin_lt, hin⟩, hout_lt, hout⟩ := wellFormed_of_unserializeVectors hvectors
  unfold unserializeWitness at hwitness
  split at hwitness
  · obtain ⟨vin₁, s₅, hstacks, hwitness⟩ := Reader.bind_eq_ok.mp hwitness
    obtain ⟨hlen, hin'⟩ := wellFormed_of_unserializeStacks hstacks hin
    split at hwitness
    · simp only [Reader.pure_apply, Except.ok.injEq, Prod.mk.injEq] at hwitness
      obtain ⟨⟨-, rfl⟩, -⟩ := hwitness
      exact ⟨hlen ▸ hin_lt, hout_lt, hin', hout⟩
    · simp at hwitness
  · simp only [Reader.pure_apply, Except.ok.injEq, Prod.mk.injEq] at hwitness
    obtain ⟨⟨-, rfl⟩, -⟩ := hwitness
    exact ⟨hin_lt, hout_lt, hin, hout⟩

end CTransaction

end Rcpu.Transaction
