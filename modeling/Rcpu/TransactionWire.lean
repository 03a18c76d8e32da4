import Rcpu.Transaction

/-!
# The transaction wire format

Both directions of `SerializeTransaction` and `UnserializeTransaction`: the reader accepts nothing
but what the writer writes, and it reads back every transaction the format can express.

The format is ambiguous by design: an empty input vector doubles as the marker of the extended
format.  A reader that sees it reads a flags byte; if that is 0, it has read two empty vectors, which
is what the writer writes for a transaction without inputs and outputs.
-/

namespace Rcpu.TransactionWire

open ByteStream Serialize Confidential Transaction

/-! ### Inputs and outputs, from bytes -/

theorem canonical_uint256 : Canonical Uint256.unserialize Uint256.bytes := by
  intro s r x h
  unfold Uint256.unserialize at h
  split at h
  · simp only [Except.ok.injEq, Prod.mk.injEq] at h
    obtain ⟨rfl, rfl⟩ := h
    exact (List.take_append_drop 32 s).symm
  · simp at h

theorem canonical_outPoint : Canonical COutPoint.unserialize COutPoint.serialize := by
  intro s r o h
  obtain ⟨hash, s₁, hhash, h⟩ := Reader.bind_eq_ok.mp h
  obtain ⟨n, s₂, hn, h⟩ := Reader.bind_eq_ok.mp h
  simp only [Reader.pure_apply, Except.ok.injEq, Prod.mk.injEq] at h
  obtain ⟨rfl, rfl⟩ := h
  rw [canonical_uint256 hhash, canonical_unserUint32 hn, COutPoint.serialize, List.append_assoc]

theorem canonical_txIn (fCT : Bool) : Canonical (CTxIn.unserialize fCT) (CTxIn.serialize fCT) := by
  intro s r txin h
  obtain ⟨prevout, s₁, hprevout, h⟩ := Reader.bind_eq_ok.mp h
  obtain ⟨scriptSig, s₂, hscript, h⟩ := Reader.bind_eq_ok.mp h
  obtain ⟨nSequence, s₃, hsequence, h⟩ := Reader.bind_eq_ok.mp h
  rw [canonical_outPoint hprevout, canonical_unserBytes hscript, canonical_unserUint32 hsequence]
  cases fCT with
  | true =>
    obtain ⟨nValue, s₄, hvalue, h⟩ := Reader.bind_eq_ok.mp h
    simp only [Reader.pure_apply, Except.ok.injEq, Prod.mk.injEq] at h
    obtain ⟨rfl, rfl⟩ := h
    rw [CConfidentialCommitment.canonical_unserialize hvalue]
    simp [CTxIn.serialize]
  | false =>
    obtain ⟨nValue, s₄, hvalue, h⟩ := Reader.bind_eq_ok.mp h
    simp only [Reader.pure_apply, Except.ok.injEq, Prod.mk.injEq] at h hvalue
    obtain ⟨rfl, rfl⟩ := h
    rw [hvalue.2]
    simp [CTxIn.serialize]

theorem canonical_txOut (fCT : Bool) :
    Canonical (CTxOut.unserialize fCT) (CTxOut.serialize fCT) := by
  intro s r txout h
  cases fCT with
  | true =>
    obtain ⟨nValue, s₁, hvalue, h⟩ := Reader.bind_eq_ok.mp h
    obtain ⟨nNonce, s₂, hnonce, h⟩ := Reader.bind_eq_ok.mp h
    obtain ⟨proof, s₃, hproof, h⟩ := Reader.bind_eq_ok.mp h
    split at h
    · simp at h
    obtain ⟨script, s₄, hscript, h⟩ := Reader.bind_eq_ok.mp h
    simp only [Reader.pure_apply, Except.ok.injEq, Prod.mk.injEq] at h
    obtain ⟨rfl, rfl⟩ := h
    rw [CConfidentialCommitment.canonical_unserialize hvalue,
      CConfidentialCommitment.canonical_unserialize hnonce, canonical_unserBytes hproof,
      canonical_unserBytes hscript]
    simp [CTxOut.serialize]
  | false =>
    obtain ⟨value, s₁, hvalue, h⟩ := Reader.bind_eq_ok.mp h
    obtain ⟨script, s₂, hscript, h⟩ := Reader.bind_eq_ok.mp h
    simp only [Reader.pure_apply, Except.ok.injEq, Prod.mk.injEq] at h
    obtain ⟨rfl, rfl⟩ := h
    have hint := isInt64_of_unserInt64 hvalue
    rw [canonical_unserInt64 hvalue, canonical_unserBytes hscript, CTxOut.serialize_false,
      CTxOut.ofAmount, CConfidentialValue.getAmount_ofAmount hint, List.append_assoc]

/-! ### Transactions, from bytes -/

/-- An input as the two vectors carry it: the witness travels behind them. -/
def withoutWitness (txin : CTxIn) : CTxIn := { txin with scriptWitness := [] }

@[simp] theorem serialize_withoutWitness (fCT : Bool) (txin : CTxIn) :
    (withoutWitness txin).serialize fCT = txin.serialize fCT := rfl

theorem serVector_withoutWitness (fCT : Bool) (vin : List CTxIn) :
    serVector (CTxIn.serialize fCT) (vin.map withoutWitness) =
      serVector (CTxIn.serialize fCT) vin := by
  simp [serVector, List.flatMap_map]

def witnessStacks (vin : List CTxIn) : Bytes :=
  vin.flatMap fun txin => serVector serBytes txin.scriptWitness

theorem hasWitness_eq_false {vin : List CTxIn} :
    CTransaction.hasWitness vin = false ↔ vin.map withoutWitness = vin := by
  induction vin with
  | nil => simp [CTransaction.hasWitness]
  | cons txin vin ih =>
    obtain ⟨prevout, scriptSig, nSequence, scriptWitness, nValue⟩ := txin
    simp only [CTransaction.hasWitness, List.any_cons, Bool.or_eq_false_iff, Bool.not_eq_false',
      List.isEmpty_iff, List.map_cons, List.cons.injEq, withoutWitness, CTxIn.mk.injEq, true_and,
      and_true] at ih ⊢
    rw [ih, eq_comm]

theorem serialize_eq (tx : CTransaction) :
    tx.serialize true = serInt32 tx.nVersion ++
      ((if CTransaction.hasWitness tx.vin then
        serVector (CTxIn.serialize tx.fCT) [] ++ ([1] ++ (serVector (CTxIn.serialize tx.fCT) tx.vin ++
          (serVector (CTxOut.serialize tx.fCT) tx.vout ++ witnessStacks tx.vin)))
      else serVector (CTxIn.serialize tx.fCT) tx.vin ++ serVector (CTxOut.serialize tx.fCT) tx.vout) ++
      serUint32 tx.nLockTime) := by
  cases hw : CTransaction.hasWitness tx.vin <;>
    simp [CTransaction.serialize, hw, witnessStacks, serUint8]

/-- What the two vectors were read from: a legacy encoding, or the marker, the flags and both. -/
theorem unserializeVectors_cases {fCT : Bool} {s r : Bytes} {flags : UInt8} {vin : List CTxIn}
    {vout : List CTxOut}
    (h : CTransaction.unserializeVectors true fCT s = .ok ((flags, vin, vout), r)) :
    vin.map withoutWitness = vin ∧
    ((flags = 0 ∧ s = serVector (CTxIn.serialize fCT) vin ++
        (serVector (CTxOut.serialize fCT) vout ++ r)) ∨
      (flags ≠ 0 ∧ s = serVector (CTxIn.serialize fCT) [] ++ ([flags] ++
        (serVector (CTxIn.serialize fCT) vin ++ (serVector (CTxOut.serialize fCT) vout ++ r))))) := by
  have hplain : ∀ {s r : Bytes} {vin : List CTxIn},
      unserVector (CTxIn.unserialize fCT) s = .ok (vin, r) → vin.map withoutWitness = vin := by
    intro s r vin hvin
    refine (List.map_congr_left fun txin hmem => ?_).trans (List.map_id vin)
    obtain ⟨_, _, hread⟩ := (unserVector_eq_ok hvin).2 txin hmem
    rw [withoutWitness, ← (CTxIn.wellFormed_of_unserialize hread).2]
    rfl
  obtain ⟨vin₀, s₁, hvin₀, h⟩ := Reader.bind_eq_ok.mp h
  rw [canonical_unserVector (canonical_txIn fCT) hvin₀]
  split at h
  · next hempty =>
    simp only [Bool.and_true, List.isEmpty_iff] at hempty
    obtain ⟨b, s₂, hflags, h⟩ := Reader.bind_eq_ok.mp h
    rw [Reader.readByte_eq_ok.mp hflags, hempty]
    split at h
    · next hb =>
      obtain ⟨vin₁, s₃, hvin₁, h⟩ := Reader.bind_eq_ok.mp h
      obtain ⟨vout₁, s₄, hvout₁, h⟩ := Reader.bind_eq_ok.mp h
      simp only [Reader.pure_apply, Except.ok.injEq, Prod.mk.injEq] at h
      obtain ⟨⟨rfl, rfl, rfl⟩, rfl⟩ := h
      rw [canonical_unserVector (canonical_txIn fCT) hvin₁,
        canonical_unserVector (canonical_txOut fCT) hvout₁]
      exact ⟨hplain hvin₁, .inr ⟨hb, rfl⟩⟩
    · next hb =>
      simp only [Reader.pure_apply, Except.ok.injEq, Prod.mk.injEq] at h
      obtain ⟨⟨rfl, rfl, rfl⟩, rfl⟩ := h
      refine ⟨rfl, .inl ⟨not_not.mp hb, ?_⟩⟩
      rw [not_not.mp hb]
      rfl
  · obtain ⟨vout₁, s₂, hvout₁, h⟩ := Reader.bind_eq_ok.mp h
    simp only [Reader.pure_apply, Except.ok.injEq, Prod.mk.injEq] at h
    obtain ⟨⟨rfl, rfl, rfl⟩, rfl⟩ := h
    rw [canonical_unserVector (canonical_txOut fCT) hvout₁]
    exact ⟨hplain hvin₀, .inl ⟨rfl, rfl⟩⟩

/-- The stacks read are those of the inputs returned, which are otherwise unchanged. -/
theorem canonical_unserializeStacks {vin vin' : List CTxIn} {s r : Bytes}
    (h : CTransaction.unserializeStacks vin s = .ok (vin', r)) :
    s = witnessStacks vin' ++ r ∧ vin'.map withoutWitness = vin.map withoutWitness := by
  induction vin generalizing vin' s with
  | nil =>
    simp only [CTransaction.unserializeStacks, Reader.pure_apply, Except.ok.injEq,
      Prod.mk.injEq] at h
    obtain ⟨rfl, rfl⟩ := h
    exact ⟨rfl, rfl⟩
  | cons txin vin ih =>
    obtain ⟨stack, s₁, hstack, h⟩ := Reader.bind_eq_ok.mp h
    obtain ⟨rest, s₂, hrest, h⟩ := Reader.bind_eq_ok.mp h
    simp only [Reader.pure_apply, Except.ok.injEq, Prod.mk.injEq] at h
    obtain ⟨rfl, rfl⟩ := h
    obtain ⟨hbytes, hmap⟩ := ih hrest
    rw [canonical_unserVector canonical_unserBytes hstack, hbytes]
    refine ⟨by simp [witnessStacks], ?_⟩
    rw [List.map_cons, List.map_cons, hmap]
    rfl

/-- A witness record was read exactly when its flag was the only one; it holds a witness. -/
theorem unserializeWitness_cases {flags : UInt8} {vin vin' : List CTxIn} {s r : Bytes}
    (h : CTransaction.unserializeWitness true flags vin s = .ok ((0, vin'), r)) :
    (flags = 0 ∧ vin' = vin ∧ s = r) ∨
      (flags = 1 ∧ CTransaction.hasWitness vin' ∧ s = witnessStacks vin' ++ r ∧
        vin'.map withoutWitness = vin.map withoutWitness) := by
  unfold CTransaction.unserializeWitness at h
  split at h
  · obtain ⟨vin₁, s₁, hstacks, h⟩ := Reader.bind_eq_ok.mp h
    split at h
    · next hwitness =>
      simp only [Reader.pure_apply, Except.ok.injEq, Prod.mk.injEq] at h
      obtain ⟨⟨hflags, rfl⟩, rfl⟩ := h
      obtain ⟨hbytes, hmap⟩ := canonical_unserializeStacks hstacks
      exact .inr ⟨UInt8.xor_eq_zero_iff.mp hflags, hwitness, hbytes, hmap⟩
    · simp at h
  · simp only [Reader.pure_apply, Except.ok.injEq, Prod.mk.injEq] at h
    obtain ⟨⟨rfl, rfl⟩, rfl⟩ := h
    exact .inl ⟨rfl, rfl, rfl⟩

theorem canonical_transaction :
    Canonical (CTransaction.unserialize true) (CTransaction.serialize true) := by
  intro s r tx h
  obtain ⟨nVersion, s₁, hversion, h⟩ := Reader.bind_eq_ok.mp h
  obtain ⟨⟨flags, vin, vout⟩, s₂, hvectors, h⟩ := Reader.bind_eq_ok.mp h
  obtain ⟨⟨flags', vin'⟩, s₃, hwitness, h⟩ := Reader.bind_eq_ok.mp h
  dsimp only at h
  split at h
  · simp at h
  next hflags =>
  obtain ⟨nLockTime, s₄, hlock, h⟩ := Reader.bind_eq_ok.mp h
  simp only [Reader.pure_apply, Except.ok.injEq, Prod.mk.injEq] at h
  obtain ⟨rfl, rfl⟩ := h
  obtain rfl := not_not.mp hflags
  rw [canonical_unserInt32 hversion, serialize_eq, List.append_assoc]
  congr 1
  obtain ⟨hplain, hcases⟩ := unserializeVectors_cases hvectors
  rcases unserializeWitness_cases hwitness with ⟨rfl, rfl, rfl⟩ | ⟨rfl, hhas, rfl, hmap⟩
  · rcases hcases with ⟨-, rfl⟩ | ⟨hne, -⟩
    · rw [canonical_unserUint32 hlock, hasWitness_eq_false.mpr hplain]
      simp [CTransaction.fCT]
    · exact absurd rfl hne
  · rcases hcases with ⟨hne, -⟩ | ⟨-, rfl⟩
    · exact absurd hne (by decide)
    · have hvin := serVector_withoutWitness (nVersion = CT_VERSION) vin'
      rw [hmap, serVector_withoutWitness] at hvin
      rw [canonical_unserUint32 hlock, hvin]
      simp [hhas, CTransaction.fCT]

/-! ### Inputs and outputs, to bytes -/

theorem reads_uint256 (x : Uint256) : Reads Uint256.unserialize x.bytes x := by
  intro rest
  obtain ⟨bytes, hsize⟩ := x
  have hle : 32 ≤ (bytes ++ rest).length := by
    rw [List.length_append]
    omega
  rw [Uint256.unserialize, dif_pos hle]
  simp only [List.take_left' hsize, List.drop_left' hsize]

theorem reads_outPoint (o : COutPoint) : Reads COutPoint.unserialize o.serialize o :=
  (reads_uint256 o.hash).bind ((reads_serUint32 o.n).map _)

structure FitsIn (fCT : Bool) (txin : CTxIn) : Prop where
  scriptSig : txin.scriptSig.length ≤ MAX_SIZE
  stack : txin.scriptWitness.length ≤ MAX_SIZE
  items : ∀ item ∈ txin.scriptWitness, item.length ≤ MAX_SIZE
  value : txin.nValue.IsValid
  plain : fCT = false → txin.nValue.IsNull

structure FitsOut (fCT : Bool) (txout : CTxOut) : Prop where
  value : txout.nValue.IsValid
  nonce : txout.nNonce.IsValid
  rangeproof : txout.vchRangeproof.length ≤ MAX_RANGEPROOF_SIZE
  script : txout.scriptPubKey.length ≤ MAX_SIZE
  plain : fCT = false →
    txout.nValue.IsExplicit ∧ txout.nNonce.IsNull ∧ txout.vchRangeproof = []

structure Fits (tx : CTransaction) : Prop where
  vin_ne_nil : tx.vin ≠ []
  vin_le : tx.vin.length ≤ MAX_SIZE
  vout_le : tx.vout.length ≤ MAX_SIZE
  vin : ∀ txin ∈ tx.vin, FitsIn tx.fCT txin
  vout : ∀ txout ∈ tx.vout, FitsOut tx.fCT txout

theorem FitsIn.reads {fCT : Bool} {txin : CTxIn} (h : FitsIn fCT txin) :
    Reads (CTxIn.unserialize fCT) (txin.serialize fCT) (withoutWitness txin) := by
  rw [CTxIn.serialize, List.append_assoc, List.append_assoc]
  refine (reads_outPoint txin.prevout).bind ((reads_serBytes h.scriptSig).bind
    ((reads_serUint32 txin.nSequence).bind ?_))
  cases fCT with
  | true => exact (CConfidentialCommitment.reads_serialize h.value).map _
  | false =>
    obtain ⟨prevout, scriptSig, nSequence, scriptWitness, nValue⟩ := txin
    obtain rfl := (h.plain rfl).eq_null
    exact Reads.pure _

theorem FitsOut.reads {fCT : Bool} {txout : CTxOut} (h : FitsOut fCT txout) :
    Reads (CTxOut.unserialize fCT) (txout.serialize fCT) txout := by
  cases fCT with
  | true =>
    have hproof : txout.vchRangeproof.length ≤ MAX_SIZE :=
      h.rangeproof.trans (by decide)
    rw [CTxOut.serialize, if_pos rfl, List.append_assoc, List.append_assoc]
    refine (CConfidentialCommitment.reads_serialize h.value).bind
      ((CConfidentialCommitment.reads_serialize h.nonce).bind ((reads_serBytes hproof).bind ?_))
    rw [if_neg (Nat.not_lt.mpr h.rangeproof)]
    exact (reads_serBytes h.script).map _
  | false =>
    obtain ⟨nValue, nNonce, vchRangeproof, scriptPubKey⟩ := txout
    obtain ⟨hexplicit, hnonce, rfl⟩ := h.plain rfl
    obtain rfl := hnonce.eq_null
    have hread : Reads (CTxOut.unserialize false)
        (serInt64 nValue.getAmount ++ serBytes scriptPubKey)
        (CTxOut.ofAmount nValue.getAmount scriptPubKey) :=
      (reads_serInt64 (CConfidentialValue.isInt64_getAmount nValue)).bind
        ((reads_serBytes h.script).map (CTxOut.ofAmount nValue.getAmount))
    rw [CTxOut.ofAmount, CConfidentialValue.ofAmount_getAmount hexplicit] at hread
    rw [CTxOut.serialize_false]
    exact hread

/-! ### Transactions, to bytes -/

section Reads

variable {tx : CTransaction} (h : Fits tx)

include h

theorem Fits.reads_vin :
    Reads (unserVector (CTxIn.unserialize tx.fCT)) (serVector (CTxIn.serialize tx.fCT) tx.vin)
      (tx.vin.map withoutWitness) := by
  rw [← serVector_withoutWitness]
  refine reads_serVector (by simpa using h.vin_le) ?_
  intro txin' hmem
  obtain ⟨txin, htxin, rfl⟩ := List.mem_map.mp hmem
  exact (h.vin txin htxin).reads

theorem Fits.reads_vout :
    Reads (unserVector (CTxOut.unserialize tx.fCT)) (serVector (CTxOut.serialize tx.fCT) tx.vout)
      tx.vout :=
  reads_serVector h.vout_le fun txout hmem => (h.vout txout hmem).reads

/-- The marker cannot be mistaken for the inputs, of which there is at least one. -/
theorem Fits.reads_legacy :
    Reads (CTransaction.unserializeVectors true tx.fCT)
      (serVector (CTxIn.serialize tx.fCT) tx.vin ++ serVector (CTxOut.serialize tx.fCT) tx.vout)
      (0, tx.vin.map withoutWitness, tx.vout) := by
  refine h.reads_vin.bind ?_
  rw [if_neg (by simp [h.vin_ne_nil])]
  exact h.reads_vout.map fun vout => (0, tx.vin.map withoutWitness, vout)

theorem Fits.reads_extended :
    Reads (CTransaction.unserializeVectors true tx.fCT)
      (serVector (CTxIn.serialize tx.fCT) [] ++ ([1] ++
        (serVector (CTxIn.serialize tx.fCT) tx.vin ++ serVector (CTxOut.serialize tx.fCT) tx.vout)))
      (1, tx.vin.map withoutWitness, tx.vout) := by
  have hmarker : Reads (unserVector (CTxIn.unserialize tx.fCT))
      (serVector (CTxIn.serialize tx.fCT) []) [] := reads_serVector (by decide) (by simp)
  refine hmarker.bind ((Reads.readByte 1).bind ?_)
  rw [if_pos (by decide)]
  exact h.reads_vin.bind (h.reads_vout.map fun vout => (1, tx.vin.map withoutWitness, vout))

omit h in
theorem reads_unserializeStacks {vin : List CTxIn} {fCT : Bool} (hvin : ∀ txin ∈ vin, FitsIn fCT txin) :
    Reads (CTransaction.unserializeStacks (vin.map withoutWitness)) (witnessStacks vin) vin := by
  induction vin with
  | nil => exact Reads.pure []
  | cons txin vin ih =>
    rw [List.forall_mem_cons] at hvin
    have hstack : Reads (unserVector unserBytes) (serVector serBytes txin.scriptWitness)
        txin.scriptWitness :=
      reads_serVector hvin.1.stack fun item hmem => reads_serBytes (hvin.1.items item hmem)
    exact hstack.bind ((ih hvin.2).map _)

theorem Fits.reads_witness (hwitness : CTransaction.hasWitness tx.vin) :
    Reads (CTransaction.unserializeWitness true 1 (tx.vin.map withoutWitness))
      (witnessStacks tx.vin) (0, tx.vin) := by
  have hread := (reads_unserializeStacks h.vin).bind (t := []) (f := fun vin =>
    if CTransaction.hasWitness vin then (return ((1 : UInt8) ^^^ 1, vin) : Reader _)
    else throw "Superfluous witness record") (y := (0, tx.vin)) (by
      rw [if_pos hwitness]
      exact Reads.pure _)
  rwa [List.append_nil] at hread

theorem Fits.reads_transaction : Reads (CTransaction.unserialize true) (tx.serialize true) tx := by
  have hlock : Reads (if (0 : UInt8) ≠ 0 then throw "Unknown transaction optional data"
      else do
        let nLockTime ← unserUint32
        return (⟨tx.vin, tx.vout, tx.nVersion, nLockTime⟩ : CTransaction))
      (serUint32 tx.nLockTime) tx := (reads_serUint32 tx.nLockTime).map _
  rw [serialize_eq]
  refine (reads_serInt32 tx.nVersion).bind ?_
  cases hw : CTransaction.hasWitness tx.vin with
  | true =>
    have hassoc : ∀ a b c d e f : Bytes,
        (a ++ (b ++ (c ++ (d ++ e)))) ++ f = (a ++ (b ++ (c ++ d))) ++ (e ++ f) := by simp
    rw [if_pos rfl, hassoc]
    exact h.reads_extended.bind ((h.reads_witness hw).bind hlock)
  | false =>
    have hread := h.reads_legacy
    rw [hasWitness_eq_false.mp hw] at hread
    exact hread.bind ((Reads.pure _).bind (s := []) hlock)

end Reads

/-- **The wire format is a bijection on what it accepts**: what is read completely is written back
as it was, and every transaction the format can express is read back, witnesses included. -/
theorem wire_bijection :
    (∀ (wire : Bytes) (tx : CTransaction), CTransaction.unserialize true wire = .ok (tx, []) →
      tx.serialize true = wire) ∧
    (∀ tx : CTransaction, Fits tx →
      CTransaction.unserialize true (tx.serialize true) = .ok (tx, [])) := by
  constructor
  · intro wire tx h
    rw [canonical_transaction h, List.append_nil]
  · intro tx h
    have hread := h.reads_transaction []
    rwa [List.append_nil] at hread

def sampleTx : CTransaction where
  vin := [⟨⟨Uint256.null, 0⟩, [], CTxIn.SEQUENCE_FINAL, [[1, 2]], .null⟩]
  vout := [⟨⟨8 :: List.replicate 32 7⟩, ⟨4 :: List.replicate 32 5⟩, [9], [0x51]⟩,
    CTxOut.ofAmount 10 []]
  nVersion := CT_VERSION
  nLockTime := 0

theorem fits_sampleTx : Fits sampleTx where
  vin_ne_nil := by decide
  vin_le := by decide
  vout_le := by decide
  vin := by
    simp only [sampleTx, List.forall_mem_singleton]
    exact ⟨by decide, by decide, by decide, .inl rfl, fun h => absurd h (by decide)⟩
  vout := by
    simp only [sampleTx, List.forall_mem_cons]
    refine ⟨⟨by decide, by decide, by decide, by decide, fun h => absurd h (by decide)⟩,
      ⟨by decide, by decide, by decide, by decide, fun h => absurd h (by decide)⟩, by simp⟩

theorem wire_sampleTx :
    CTransaction.unserialize true (sampleTx.serialize true) = .ok (sampleTx, []) ∧
    ∀ tx, CTransaction.unserialize true (sampleTx.serialize true) = .ok (tx, []) →
      tx.serialize true = sampleTx.serialize true :=
  ⟨wire_bijection.2 sampleTx fits_sampleTx, fun tx => wire_bijection.1 _ tx⟩

/-! ### What the txid stands for -/

/-- The transaction that `TX_NO_WITNESS` writes. -/
def noWitness (tx : CTransaction) : CTransaction := { tx with vin := tx.vin.map withoutWitness }

theorem serialize_noWitness (tx : CTransaction) :
    (noWitness tx).serialize true = tx.serialize false := by
  have hplain : CTransaction.hasWitness (tx.vin.map withoutWitness) = false := by
    rw [hasWitness_eq_false, List.map_map]
    rfl
  simp only [CTransaction.serialize, noWitness, hplain, serVector_withoutWitness]
  rfl

theorem Fits.noWitness {tx : CTransaction} (h : Fits tx) : Fits (noWitness tx) where
  vin_ne_nil := by simpa [TransactionWire.noWitness] using h.vin_ne_nil
  vin_le := by simpa [TransactionWire.noWitness] using h.vin_le
  vout_le := h.vout_le
  vin := by
    intro txin' hmem
    obtain ⟨txin, htxin, rfl⟩ := List.mem_map.mp hmem
    have hfits := h.vin txin htxin
    exact ⟨hfits.scriptSig, Nat.zero_le _, nofun, hfits.value, hfits.plain⟩
  vout := h.vout

/-- **What the hashes of a transaction stand for**: the bytes behind the txid show everything but
the witnesses, commitments and range proofs included, and those behind the witness hash show all. -/
theorem hashed_bytes_inj (tx tx' : CTransaction) (h : Fits tx) (h' : Fits tx') :
    (tx.serialize false = tx'.serialize false ↔ noWitness tx = noWitness tx') ∧
      (tx.serialize true = tx'.serialize true ↔ tx = tx') := by
  have hinj : ∀ {a b : CTransaction}, Fits a → Fits b →
      a.serialize true = b.serialize true → a = b := by
    intro a b ha hb heq
    have hread := ha.reads_transaction []
    rw [heq, hb.reads_transaction []] at hread
    exact (Prod.mk.inj (Except.ok.inj hread)).1.symm
  refine ⟨?_, hinj h h', fun heq => heq ▸ rfl⟩
  rw [← serialize_noWitness, ← serialize_noWitness]
  exact ⟨hinj h.noWitness h'.noWitness, fun heq => heq ▸ rfl⟩

theorem hashed_bytes_sampleTx :
    sampleTx.serialize false = (noWitness sampleTx).serialize false ∧
      sampleTx.serialize true ≠ (noWitness sampleTx).serialize true := by
  have hinj := hashed_bytes_inj sampleTx (noWitness sampleTx) fits_sampleTx fits_sampleTx.noWitness
  exact ⟨hinj.1.mpr rfl, mt hinj.2.mp (by decide)⟩

end Rcpu.TransactionWire
