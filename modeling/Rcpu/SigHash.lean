import Mathlib.Data.Set.Function
import Rcpu.ScriptCode
import Rcpu.TxCheck

/-!
# What a signature commits to

Two signature messages are compared as byte strings.  SHA256 is only assumed to have no collision
among the messages it is applied to: it is injective on a set `𝓜` that contains them.
-/

namespace Rcpu.SigHash

open Checks PrefixCode ByteStream Serialize Confidential Transaction TxCheck Script Interpreter
  ScriptCode

/-! ### The legacy message -/

def inputFields (scriptCode : CScript) (nIn : Nat) (nHashType : UInt8) (input : CTxIn × Nat) :
    COutPoint × Bytes × UInt32 :=
  (input.1.prevout, if input.2 ≠ nIn then serBytes [] else serializeScriptCode scriptCode,
    if input.2 ≠ nIn ∧ (fHashSingle nHashType ∨ fHashNone nHashType) then 0 else input.1.nSequence)

def writeFields (fields : COutPoint × Bytes × UInt32) : Bytes :=
  fields.1.serialize ++ (fields.2.1 ++ serUint32 fields.2.2)

theorem serializeInput_eq (scriptCode : CScript) (nIn : Nat) (nHashType : UInt8)
    (input : CTxIn × Nat) :
    serializeInput scriptCode nIn nHashType input =
      writeFields (inputFields scriptCode nIn nHashType input) := by
  obtain ⟨txin, nInput⟩ := input
  have hzero : serInt32 0 = serUint32 0 := rfl
  unfold serializeInput writeFields inputFields
  dsimp only
  rw [hzero, apply_ite serUint32, List.append_assoc]

theorem prefixFree_writeFields :
    PrefixFreeOn (fun fields => IsScriptCode fields.2.1) writeFields := by
  have h := COutPoint.prefixFree_serialize.prod (prefixFree_scriptCode.prod prefixFree_serUint32)
  exact h.mono fun fields hcode => ⟨trivial, hcode, trivial⟩

theorem isScriptCode_inputFields {scriptCode : CScript} (hlt : scriptCode.length < 2 ^ 64)
    (nIn : Nat) (nHashType : UInt8) (input : CTxIn × Nat) :
    IsScriptCode (inputFields scriptCode nIn nHashType input).2.1 := by
  unfold inputFields
  dsimp only
  split_ifs
  · exact isScriptCode_nil
  · exact ⟨scriptCode, hlt, rfl⟩

def outputField (nIn : Nat) (nHashType : UInt8) (output : CTxOut × Nat) : CTxOut :=
  if fHashSingle nHashType ∧ output.2 ≠ nIn then CTxOut.null else output.1

theorem serializeOutput_eq (fCT : Bool) (nIn : Nat) (nHashType : UInt8) (output : CTxOut × Nat) :
    serializeOutput fCT nIn nHashType output = (outputField nIn nHashType output).serialize fCT := by
  obtain ⟨txout, nOutput⟩ := output
  unfold serializeOutput outputField
  dsimp only
  split_ifs <;> rfl

theorem wellFormed_null (fCT : Bool) : CTxOut.null.WellFormed fCT := by
  cases fCT with
  | true => exact ⟨.inr (.inl (CConfidentialValue.isExplicit_ofAmount _)), .inl rfl, by decide,
      by decide⟩
  | false => exact ⟨CConfidentialValue.isExplicit_ofAmount _, rfl, rfl, by decide⟩

section Legacy

variable {tx tx' : CTransaction} {scriptCode scriptCode' : CScript} {nIn nIn' : Nat}
  {nHashType nHashType' : UInt8} {r r' : Bytes}

theorem length_signedInputs (h : tx.WellFormed) :
    (signedInputs tx nIn nHashType).length < 2 ^ 64 := by
  have hlt := h.vin_lt
  unfold signedInputs
  split_ifs
  · cases tx.vin[nIn]? <;> simp
  · simpa using hlt

theorem signedOutputs_wellFormed (h : tx.WellFormed) (nIn : Nat) (nHashType : UInt8) :
    (signedOutputs tx nIn nHashType).length < 2 ^ 64 ∧
      ∀ output ∈ signedOutputs tx nIn nHashType,
        (outputField nIn nHashType output).WellFormed tx.fCT := by
  have hlt := h.vout_lt
  have hsub : (signedOutputs tx nIn nHashType).Sublist tx.vout.zipIdx := by
    unfold signedOutputs
    split_ifs
    · exact List.nil_sublist _
    · exact List.take_sublist _ _
    · exact List.Sublist.refl _
  constructor
  · have := hsub.length_le
    rw [List.length_zipIdx] at this
    omega
  · intro output hmem
    unfold outputField
    split_ifs
    · exact wellFormed_null _
    · exact h.vout_wf _ (List.fst_mem_of_mem_zipIdx (hsub.subset hmem))

/-- The legacy message determines everything it shows, whatever follows it. -/
theorem serializeForSignature_append_inj (hcode : scriptCode.length < 2 ^ 64)
    (hcode' : scriptCode'.length < 2 ^ 64) (htx : tx.WellFormed) (htx' : tx'.WellFormed)
    (h : serializeForSignature tx scriptCode nIn nHashType ++ r =
      serializeForSignature tx' scriptCode' nIn' nHashType' ++ r') :
    tx.nVersion = tx'.nVersion ∧
      (signedInputs tx nIn nHashType).map (inputFields scriptCode nIn nHashType) =
        (signedInputs tx' nIn' nHashType').map (inputFields scriptCode' nIn' nHashType') ∧
      (signedOutputs tx nIn nHashType).map (outputField nIn nHashType) =
        (signedOutputs tx' nIn' nHashType').map (outputField nIn' nHashType') ∧
      tx.nLockTime = tx'.nLockTime ∧ r = r' := by
  have hins : ∀ {tx : CTransaction} {scriptCode : CScript} {nIn : Nat} {nHashType : UInt8},
      serVector (serializeInput scriptCode nIn nHashType) (signedInputs tx nIn nHashType) =
        serVector writeFields ((signedInputs tx nIn nHashType).map
          (inputFields scriptCode nIn nHashType)) := by
    intro tx scriptCode nIn nHashType
    simp only [serVector, List.length_map, List.flatMap_map, ← serializeInput_eq]
  have houts : ∀ {tx : CTransaction} {nIn : Nat} {nHashType : UInt8},
      serVector (serializeOutput tx.fCT nIn nHashType) (signedOutputs tx nIn nHashType) =
        serVector (CTxOut.serialize tx.fCT) ((signedOutputs tx nIn nHashType).map
          (outputField nIn nHashType)) := by
    intro tx nIn nHashType
    simp only [serVector, List.length_map, List.flatMap_map, ← serializeOutput_eq]
  simp only [serializeForSignature, hins, houts, List.append_assoc] at h
  obtain ⟨hversion, h⟩ := prefixFree_serInt32.append_inj trivial trivial h
  obtain ⟨hinputs, h⟩ := (prefixFree_serVector prefixFree_writeFields).append_inj
    ⟨by simpa using length_signedInputs htx,
      List.forall_mem_map.mpr fun input _ => isScriptCode_inputFields hcode nIn nHashType input⟩
    ⟨by simpa using length_signedInputs htx',
      List.forall_mem_map.mpr fun input _ => isScriptCode_inputFields hcode' nIn' nHashType' input⟩
    h
  have hmode : tx'.fCT = tx.fCT := (CTransaction.fCT_congr hversion).symm
  rw [hmode] at h
  obtain ⟨hlen, hwf⟩ := signedOutputs_wellFormed htx nIn nHashType
  obtain ⟨hlen', hwf'⟩ := signedOutputs_wellFormed htx' nIn' nHashType'
  rw [hmode] at hwf'
  obtain ⟨houtputs, h⟩ := (prefixFree_serVector (CTxOut.prefixFree_serialize tx.fCT)).append_inj
    ⟨by simpa using hlen, List.forall_mem_map.mpr hwf⟩
    ⟨by simpa using hlen', List.forall_mem_map.mpr hwf'⟩ h
  obtain ⟨hlock, h⟩ := prefixFree_serUint32.append_inj trivial trivial h
  exact ⟨hversion, hinputs, houtputs, hlock, h⟩

end Legacy

/-! ### Digests -/

section Digests

variable (sha256 : Bytes → Uint256)

def doubled (message : Bytes) : List Bytes := [message, (sha256 message).bytes]

def bip143Hashed (tx : CTransaction) (nIn : Nat) (nHashType : UInt8) : List Bytes :=
  (if fAnyoneCanPay nHashType then [] else doubled sha256 (prevoutsBytes tx)) ++
    (if fAnyoneCanPay nHashType ∨ fHashSingle nHashType ∨ fHashNone nHashType then []
      else doubled sha256 (sequencesBytes tx)) ++
    if ¬ fHashSingle nHashType ∧ ¬ fHashNone nHashType then doubled sha256 (outputsBytes tx)
    else match fHashSingle nHashType, tx.vout[nIn]? with
      | true, some txout => doubled sha256 (txout.serialize tx.fCT)
      | _, _ => []

def bip341Hashed (tx : CTransaction) (spentOutputs : List CTxOut) (nIn : Nat) (hashType : UInt8) :
    List Bytes :=
  (if inputType hashType ≠ SIGHASH_ANYONECANPAY then
    [prevoutsBytes tx, spentAmountsBytes spentOutputs, spentScriptsBytes spentOutputs,
      sequencesBytes tx]
    else []) ++
    (if outputType hashType = SIGHASH_ALL then [outputsBytes tx] else []) ++
    if outputType hashType = SIGHASH_SINGLE then
      (tx.vout[nIn]?.map (CTxOut.serialize false)).toList
    else []

def hashed (checker : SignatureChecker) (tx : CTransaction) (sigversion : SigVersion)
    (hashType : UInt8) : List Bytes :=
  match sigversion with
  | .BASE => []
  | .WITNESS_V0 => bip143Hashed sha256 tx checker.nIn.toNat hashType
  | .TAPROOT | .TAPSCRIPT => bip341Hashed tx checker.spentOutputs checker.nIn.toNat hashType

theorem signatureMessage_init (tx : CTransaction) (spentOutputs : List CTxOut) (force : Bool)
    (scriptCode : CScript) (nIn : Nat) (nHashType : UInt8) (amount : Int)
    (sigversion : SigVersion) :
    signatureMessage sha256 (some (.init sha256 tx spentOutputs force)) scriptCode tx nIn nHashType
        amount sigversion =
      signatureMessage sha256 none scriptCode tx nIn nHashType amount sigversion := by
  unfold signatureMessage signatureMidstate bip143Prevouts bip143Sequence bip143Outputs
  cases hready : (PrecomputedTransactionData.init sha256 tx spentOutputs force).m_bip143_segwit_ready
    with
  | false => simp only [Option.filter, hready, Bool.false_eq_true, if_false]
  | true =>
    have huses : (force || (witnessSpends tx spentOutputs).any (!·)) = true := hready
    simp only [Option.filter, if_true, PrecomputedTransactionData.init, huses]

variable {sha256} {𝓜 : Set Bytes} (hsha : Set.InjOn sha256 𝓜)

include hsha

theorem eq_of_doubled {m m' : Bytes} (hm : ∀ x ∈ doubled sha256 m, x ∈ 𝓜)
    (hm' : ∀ x ∈ doubled sha256 m', x ∈ 𝓜)
    (h : sha256Uint256 sha256 (sha256 m) = sha256Uint256 sha256 (sha256 m')) : m = m' := by
  simp only [doubled, List.forall_mem_cons] at hm hm'
  have hbytes : (sha256 m).bytes = (sha256 m').bytes := hsha hm.2.1 hm'.2.1 h
  exact hsha hm.1 hm'.1 (Uint256.bytes_injective hbytes)

omit hsha

/-- The list of prevouts, of sequence numbers or of outputs from its concatenation. -/
theorem prevouts_eq_of_bytes {tx tx' : CTransaction} (h : prevoutsBytes tx = prevoutsBytes tx') :
    tx.vin.map CTxIn.prevout = tx'.vin.map CTxIn.prevout := by
  apply flatMap_inj COutPoint.prefixFree_serialize (fun o _ => ?_) (fun _ _ => trivial)
    (fun _ _ => trivial)
  · simpa only [prevoutsBytes, List.flatMap_map] using h
  · exact List.ne_nil_of_length_pos (by simp)

theorem sequences_eq_of_bytes {tx tx' : CTransaction} (h : sequencesBytes tx = sequencesBytes tx') :
    tx.vin.map CTxIn.nSequence = tx'.vin.map CTxIn.nSequence := by
  apply flatMap_inj prefixFree_serUint32 (fun n _ => ?_) (fun _ _ => trivial) (fun _ _ => trivial)
  · simpa only [sequencesBytes, List.flatMap_map] using h
  · exact List.ne_nil_of_length_pos (by simp)

theorem outputs_eq_of_bytes {tx tx' : CTransaction} (htx : tx.WellFormed) (htx' : tx'.WellFormed)
    (hversion : tx.nVersion = tx'.nVersion) (h : outputsBytes tx = outputsBytes tx') :
    tx.vout = tx'.vout := by
  have hmode : tx'.fCT = tx.fCT := (CTransaction.fCT_congr hversion).symm
  unfold outputsBytes at h
  rw [hmode] at h
  exact flatMap_inj (CTxOut.prefixFree_serialize tx.fCT)
    (fun o _ => CTxOut.serialize_ne_nil tx.fCT o) htx.vout_wf (hmode ▸ htx'.vout_wf) h

end Digests

/-! ### Reading the messages -/

section Messages

variable {sha256 : Bytes → Uint256} {tx tx' : CTransaction} {scriptCode scriptCode' : CScript}
  {nIn nIn' : Nat} {nHashType nHashType' : UInt8} {amount amount' : Int} {message : Bytes}

theorem signatureMessage_base (h : signatureMessage sha256 none scriptCode tx nIn nHashType amount
    .BASE = some message) :
    message = serializeForSignature tx scriptCode nIn nHashType ++ leBytes 4 nHashType.toNat := by
  unfold signatureMessage signatureMidstate at h
  cases hvin : tx.vin[nIn]? with
  | none => simp [hvin] at h
  | some txin =>
    rw [hvin, ite_eq_iff] at h
    rcases h with ⟨-, h⟩ | ⟨-, h⟩
    · simp at h
    · simpa using h.symm

/-- A witness v0 message determines its digests, the version and the lock time. -/
theorem signatureMessage_witnessV0 (hcode : scriptCode.length < 2 ^ 64)
    (hcode' : scriptCode'.length < 2 ^ 64)
    (h : signatureMessage sha256 none scriptCode tx nIn nHashType amount .WITNESS_V0 = some message)
    (h' : signatureMessage sha256 none scriptCode' tx' nIn' nHashType' amount' .WITNESS_V0 =
      some message) :
    tx.nVersion = tx'.nVersion ∧
      bip143Prevouts sha256 none tx nHashType = bip143Prevouts sha256 none tx' nHashType' ∧
      bip143Sequence sha256 none tx nHashType = bip143Sequence sha256 none tx' nHashType' ∧
      bip143Outputs sha256 none tx nIn nHashType = bip143Outputs sha256 none tx' nIn' nHashType' ∧
      tx.nLockTime = tx'.nLockTime := by
  unfold signatureMessage signatureMidstate at h h'
  cases hvin : tx.vin[nIn]? with
  | none => simp [hvin] at h
  | some txin =>
    cases hvin' : tx'.vin[nIn']? with
    | none => simp [hvin'] at h'
    | some txin' =>
      simp only [hvin, hvin', ne_eq, not_true, false_and, if_false, if_true, Option.map_some,
        Option.some.injEq, List.append_assoc] at h h'
      rw [← h'] at h
      obtain ⟨hversion, h⟩ := prefixFree_serInt32.append_inj trivial trivial h
      obtain ⟨hprevouts, h⟩ := Uint256.prefixFree_bytes.append_inj trivial trivial h
      obtain ⟨hsequence, h⟩ := Uint256.prefixFree_bytes.append_inj trivial trivial h
      obtain ⟨-, h⟩ := COutPoint.prefixFree_serialize.append_inj trivial trivial h
      obtain ⟨-, h⟩ := prefixFree_serBytes.append_inj hcode hcode' h
      obtain ⟨-, h⟩ := List.append_inj h (by simp)
      obtain ⟨-, h⟩ := prefixFree_serUint32.append_inj trivial trivial h
      obtain ⟨houtputs, h⟩ := Uint256.prefixFree_bytes.append_inj trivial trivial h
      obtain ⟨hlock, -⟩ := prefixFree_serUint32.append_inj trivial trivial h
      exact ⟨hversion, hprevouts, hsequence, houtputs, hlock⟩

variable {execdata execdata' : ScriptExecutionData} {inPos inPos' : UInt32}
  {hashType hashType' : UInt8} {sigversion sigversion' : SigVersion}
  {spentOutputs spentOutputs' : List CTxOut} {force force' : Bool}

def transactionDigests (sha256 : Bytes → Uint256) (tx : CTransaction) (spentOutputs : List CTxOut)
    (hashType : UInt8) : Bytes :=
  (if inputType hashType ≠ SIGHASH_ANYONECANPAY then
    (sha256 (prevoutsBytes tx)).bytes ++ ((sha256 (spentAmountsBytes spentOutputs)).bytes ++
      ((sha256 (spentScriptsBytes spentOutputs)).bytes ++ (sha256 (sequencesBytes tx)).bytes))
    else []) ++
    if outputType hashType = SIGHASH_ALL then (sha256 (outputsBytes tx)).bytes else []

/-- When `SignatureHashSchnorr` has a message, and what it is: the precomputed digests are those
of the transaction and the spent outputs. -/
theorem schnorrMessage_init : schnorrMessage sha256 execdata tx inPos hashType sigversion
      (.init sha256 tx spentOutputs force) = some message ↔
    (force || (witnessSpends tx spentOutputs).any id) = true ∧ IsSchnorrHashType hashType ∧
    ∃ txin spent outputData, tx.vin[inPos.toNat]? = some txin ∧
      spentOutputs[inPos.toNat]? = some spent ∧
      schnorrOutputData sha256 execdata tx inPos hashType = some outputData ∧
      message = HASHER_TAPSIGHASH sha256 ++ (serUint8 0 ++ (serUint8 hashType ++
        (serInt32 tx.nVersion ++ (serUint32 tx.nLockTime ++
        (transactionDigests sha256 tx spentOutputs hashType ++
        (schnorrInputData execdata (if sigversion = .TAPSCRIPT then 1 else 0) txin spent inPos
          hashType ++ (outputData ++ tapscriptData execdata sigversion))))))) := by
  unfold schnorrMessage
  cases htxin : tx.vin[inPos.toNat]? with
  | none => simp
  | some txin =>
    have hspents : (PrecomputedTransactionData.init sha256 tx spentOutputs force).m_spent_outputs =
        spentOutputs := rfl
    rw [hspents]
    cases hspent : spentOutputs[inPos.toNat]? with
    | none => simp
    | some spent =>
      cases hout : schnorrOutputData sha256 execdata tx inPos hashType with
      | none => simp
      | some outputData =>
        have hne : spentOutputs.isEmpty = false := by
          cases spentOutputs with
          | nil => simp at hspent
          | cons => rfl
        have hready : (PrecomputedTransactionData.init sha256 tx spentOutputs
            force).m_bip341_taproot_ready = (force || (witnessSpends tx spentOutputs).any id) := by
          simp [PrecomputedTransactionData.init, hne]
        have hspentReady : (PrecomputedTransactionData.init sha256 tx spentOutputs
            force).m_spent_outputs_ready = true := by
          simp [PrecomputedTransactionData.init, hne]
        simp only [hready, hspentReady, true_and, Option.some.injEq, exists_eq_left',
          exists_and_left]
        cases huses : force || (witnessSpends tx spentOutputs).any id with
        | false => simp
        | true =>
          by_cases htype : IsSchnorrHashType hashType
          · simp only [htype, true_and, if_true, Option.some.injEq, schnorrTransactionData,
              transactionDigests, PrecomputedTransactionData.init, hne, huses, Bool.or_true,
              Bool.and_true, Bool.not_false, getPrevoutsSHA256, getSequencesSHA256,
              getOutputsSHA256, getSpentAmountsSHA256, getSpentScriptsSHA256, List.append_assoc]
            exact eq_comm
          · simp [htype]

theorem schnorrMessage_head
    (h : schnorrMessage sha256 execdata tx inPos hashType sigversion
      (.init sha256 tx spentOutputs force) = some message)
    (h' : schnorrMessage sha256 execdata' tx' inPos' hashType' sigversion'
      (.init sha256 tx' spentOutputs' force') = some message) :
    hashType = hashType' ∧ tx.nVersion = tx'.nVersion ∧ tx.nLockTime = tx'.nLockTime ∧
      ∃ rest rest', transactionDigests sha256 tx spentOutputs hashType ++ rest =
        transactionDigests sha256 tx' spentOutputs' hashType' ++ rest' := by
  obtain ⟨-, -, txin, spent, outputData, -, -, -, hm⟩ := schnorrMessage_init.mp h
  obtain ⟨-, -, txin', spent', outputData', -, -, -, hm'⟩ := schnorrMessage_init.mp h'
  have heq := hm.symm.trans hm'
  obtain ⟨-, heq⟩ := List.append_inj heq rfl
  obtain ⟨-, heq⟩ := List.append_inj heq rfl
  obtain ⟨htype, heq⟩ := List.append_inj heq rfl
  obtain ⟨hversion, heq⟩ := prefixFree_serInt32.append_inj trivial trivial heq
  obtain ⟨hlock, heq⟩ := prefixFree_serUint32.append_inj trivial trivial heq
  exact ⟨by simpa [serUint8] using htype, hversion, hlock, _, _, heq⟩

end Messages

/-! ### `SIGHASH_ALL` fixes the transaction -/

structure AgreeSigned (tx tx' : CTransaction) : Prop where
  nVersion : tx.nVersion = tx'.nVersion
  nLockTime : tx.nLockTime = tx'.nLockTime
  prevouts : tx.vin.map CTxIn.prevout = tx'.vin.map CTxIn.prevout
  sequences : tx.vin.map CTxIn.nSequence = tx'.vin.map CTxIn.nSequence
  vout : tx.vout = tx'.vout

structure Agree (tx tx' : CTransaction) : Prop extends AgreeSigned tx tx' where
  values : tx.vin.map CTxIn.nValue = tx'.vin.map CTxIn.nValue

/-- With equal scripts as well, the serialization that the txid is the hash of is the same. -/
theorem Agree.serialize_eq {tx tx' : CTransaction} (h : Agree tx tx')
    (hscripts : tx.vin.map CTxIn.scriptSig = tx'.vin.map CTxIn.scriptSig) :
    tx.serialize false = tx'.serialize false := by
  have hmode : tx.fCT = tx'.fCT := CTransaction.fCT_congr h.nVersion
  have hvin : tx.vin.map (CTxIn.serialize tx'.fCT) = tx'.vin.map (CTxIn.serialize tx'.fCT) := by
    apply List.ext_getElem?
    intro i
    have hprevout := congrArg (fun l => l[i]?) h.prevouts
    have hscript := congrArg (fun l => l[i]?) hscripts
    have hsequence := congrArg (fun l => l[i]?) h.sequences
    have hvalue := congrArg (fun l => l[i]?) h.values
    simp only [List.getElem?_map] at hprevout hscript hsequence hvalue ⊢
    cases hi : tx.vin[i]? with
    | none =>
      rw [hi, Option.map_none, eq_comm, Option.map_eq_none_iff] at hprevout
      rw [hprevout]
    | some txin =>
      cases hi' : tx'.vin[i]? with
      | none => simp [hi, hi'] at hprevout
      | some txin' =>
        simp only [hi, hi', Option.map_some, Option.some.injEq] at hprevout hscript hsequence hvalue
        simp only [Option.map_some, CTxIn.serialize, hprevout, hscript, hsequence, hvalue]
  have hlen : tx.vin.length = tx'.vin.length := by
    simpa using congrArg List.length h.prevouts
  have hvector : serVector (CTxIn.serialize tx'.fCT) tx.vin =
      serVector (CTxIn.serialize tx'.fCT) tx'.vin := by
    simp only [serVector, List.flatMap_def, hvin, hlen]
  simp only [CTransaction.serialize, Bool.false_and, Bool.false_eq_true, if_false, ne_eq,
    not_true_eq_false, hmode, h.nVersion, h.nLockTime, h.vout, hvector]

/-- The hash types that cover every input and every output. -/
def IsAll (sigversion : SigVersion) (hashType : UInt8) : Prop :=
  match sigversion with
  | .BASE | .WITNESS_V0 =>
    fAnyoneCanPay hashType = false ∧ fHashSingle hashType = false ∧ fHashNone hashType = false
  | .TAPROOT | .TAPSCRIPT => hashType = SIGHASH_DEFAULT ∨ hashType = SIGHASH_ALL

theorem isAll_sighash_all (sigversion : SigVersion) : IsAll sigversion SIGHASH_ALL := by
  cases sigversion with
  | BASE => exact ⟨by decide, by decide, by decide⟩
  | WITNESS_V0 => exact ⟨by decide, by decide, by decide⟩
  | TAPROOT => exact .inr rfl
  | TAPSCRIPT => exact .inr rfl

theorem values_eq {tx tx' : CTransaction} (hwf : tx.WellFormed) (hwf' : tx'.WellFormed)
    (hchecked : Checked tx) (hchecked' : Checked tx') (hlen : tx.vin.length = tx'.vin.length) :
    tx.vin.map CTxIn.nValue = tx'.vin.map CTxIn.nValue := by
  have hnull : ∀ {tx : CTransaction}, tx.WellFormed → Checked tx →
      tx.vin.map CTxIn.nValue = List.replicate tx.vin.length .null := by
    intro tx hwf hchecked
    rw [List.eq_replicate_iff]
    refine ⟨List.length_map _, ?_⟩
    intro value hmem
    obtain ⟨txin, htxin, rfl⟩ := List.mem_map.mp hmem
    apply CConfidentialCommitment.IsNull.eq_null
    cases hmode : tx.fCT with
    | true => exact hchecked.inputValue hmode txin htxin
    | false =>
      have hvalue := (hwf.vin_wf txin htxin).value
      rwa [hmode, if_neg Bool.false_ne_true] at hvalue
  rw [hnull hwf hchecked, hnull hwf' hchecked', hlen]

section All

variable {sha256 : Bytes → Uint256} {𝓜 : Set Bytes} {tx tx' : CTransaction}
  {checker checker' : SignatureChecker} {hashType hashType' : UInt8} {message : Bytes}

/-- With `SIGHASH_ALL` the legacy message shows all inputs and outputs as they are. -/
theorem fields_of_isAll (hall : IsAll .BASE hashType) (tx : CTransaction) (scriptCode : CScript)
    (nIn : Nat) :
    ((signedInputs tx nIn hashType).map (inputFields scriptCode nIn hashType)).map Prod.fst =
        tx.vin.map CTxIn.prevout ∧
      ((signedInputs tx nIn hashType).map (inputFields scriptCode nIn hashType)).map
        (fun fields => fields.2.2) = tx.vin.map CTxIn.nSequence ∧
      (signedOutputs tx nIn hashType).map (outputField nIn hashType) = tx.vout := by
  obtain ⟨hpay, hsingle, hnone⟩ := hall
  have hinputs : signedInputs tx nIn hashType = tx.vin.zipIdx := by
    rw [signedInputs, hpay, if_neg Bool.false_ne_true]
  have houtputs : signedOutputs tx nIn hashType = tx.vout.zipIdx := by
    rw [signedOutputs, hnone, hsingle, if_neg Bool.false_ne_true, if_neg Bool.false_ne_true]
  have hsequence : (fun fields : COutPoint × Bytes × UInt32 => fields.2.2) ∘
      inputFields scriptCode nIn hashType = fun input => input.1.nSequence := by
    funext input
    simp [inputFields, hsingle, hnone]
  have houtput : outputField nIn hashType = fun output => output.1 := by
    funext output
    simp [outputField, hsingle]
  rw [hinputs, houtputs, List.map_map, List.map_map, hsequence, houtput]
  exact ⟨map_zipIdx_fst CTxIn.prevout tx.vin, map_zipIdx_fst CTxIn.nSequence tx.vin,
    List.zipIdx_map_fst 0 tx.vout⟩

theorem agreeSigned_base (hwf : tx.WellFormed) (hwf' : tx'.WellFormed)
    (hall : IsAll .BASE hashType) (hall' : IsAll .BASE hashType')
    (h : checker.message sha256 tx .BASE hashType = some message)
    (h' : checker'.message sha256 tx' .BASE hashType' = some message) : AgreeSigned tx tx' := by
  simp only [SignatureChecker.message, signatureMessage_init] at h h'
  have hmessage := (signatureMessage_base h).symm.trans (signatureMessage_base h')
  obtain ⟨hversion, hins, houts, hlock, -⟩ := serializeForSignature_append_inj
    checker.scriptCode_lt checker'.scriptCode_lt hwf hwf' hmessage
  obtain ⟨hprevout, hsequence, hout⟩ :=
    fields_of_isAll hall tx checker.scriptCode checker.nIn.toNat
  obtain ⟨hprevout', hsequence', hout'⟩ :=
    fields_of_isAll hall' tx' checker'.scriptCode checker'.nIn.toNat
  refine ⟨hversion, hlock, ?_, ?_, ?_⟩
  · rw [← hprevout, ← hprevout', hins]
  · rw [← hsequence, ← hsequence', hins]
  · rw [← hout, ← hout', houts]

theorem agreeSigned_witnessV0 (hsha : Set.InjOn sha256 𝓜) (hwf : tx.WellFormed)
    (hwf' : tx'.WellFormed) (hall : IsAll .WITNESS_V0 hashType)
    (hall' : IsAll .WITNESS_V0 hashType')
    (hmem : ∀ m ∈ hashed sha256 checker tx .WITNESS_V0 hashType, m ∈ 𝓜)
    (hmem' : ∀ m ∈ hashed sha256 checker' tx' .WITNESS_V0 hashType', m ∈ 𝓜)
    (h : checker.message sha256 tx .WITNESS_V0 hashType = some message)
    (h' : checker'.message sha256 tx' .WITNESS_V0 hashType' = some message) :
    AgreeSigned tx tx' := by
  simp only [SignatureChecker.message, signatureMessage_init] at h h'
  obtain ⟨hpay, hsingle, hnone⟩ := hall
  obtain ⟨hpay', hsingle', hnone'⟩ := hall'
  obtain ⟨hversion, hprevouts, hsequence, houtputs, hlock⟩ := signatureMessage_witnessV0
    checker.scriptCode_lt checker'.scriptCode_lt h h'
  simp only [hashed, bip143Hashed, hpay, hsingle, hnone, hpay', hsingle', hnone', or_self,
    Bool.false_eq_true, not_false_eq_true, and_self, if_true, if_false,
    List.forall_mem_append] at hmem hmem'
  simp only [bip143Prevouts, bip143Sequence, bip143Outputs, hpay, hsingle, hnone, hpay', hsingle',
    hnone', or_self, Bool.false_eq_true, not_false_eq_true, and_self, if_true, if_false,
    Option.filter_none, getPrevoutsSHA256, getSequencesSHA256,
    getOutputsSHA256] at hprevouts hsequence houtputs
  obtain ⟨⟨hin, hseq⟩, hout⟩ := hmem
  obtain ⟨⟨hin', hseq'⟩, hout'⟩ := hmem'
  exact ⟨hversion, hlock, prevouts_eq_of_bytes (eq_of_doubled hsha hin hin' hprevouts),
    sequences_eq_of_bytes (eq_of_doubled hsha hseq hseq' hsequence),
    outputs_eq_of_bytes hwf hwf' hversion (eq_of_doubled hsha hout hout' houtputs)⟩

theorem agreeSigned_schnorr {sigversion : SigVersion} (hsha : Set.InjOn sha256 𝓜)
    (hwf : tx.WellFormed) (hwf' : tx'.WellFormed)
    (hall : hashType = SIGHASH_DEFAULT ∨ hashType = SIGHASH_ALL)
    (hmem : ∀ m ∈ bip341Hashed tx checker.spentOutputs checker.nIn.toNat hashType, m ∈ 𝓜)
    (hmem' : ∀ m ∈ bip341Hashed tx' checker'.spentOutputs checker'.nIn.toNat hashType', m ∈ 𝓜)
    (h : schnorrMessage sha256 checker.execdata tx checker.nIn hashType sigversion
      (.init sha256 tx checker.spentOutputs checker.force) = some message)
    (h' : schnorrMessage sha256 checker'.execdata tx' checker'.nIn hashType' sigversion
      (.init sha256 tx' checker'.spentOutputs checker'.force) = some message) :
    AgreeSigned tx tx' := by
  obtain ⟨rfl, hversion, hlock, rest, rest', hdigests⟩ := schnorrMessage_head h h'
  have hinput : inputType hashType ≠ SIGHASH_ANYONECANPAY := by
    rcases hall with rfl | rfl <;> decide
  have houtput : outputType hashType = SIGHASH_ALL := by
    rcases hall with rfl | rfl <;> decide
  simp only [bip341Hashed, if_pos hinput, if_pos houtput, List.forall_mem_append,
    List.forall_mem_cons] at hmem hmem'
  simp only [transactionDigests, if_pos hinput, if_pos houtput, List.append_assoc] at hdigests
  obtain ⟨⟨⟨hin, -, -, hseq, -⟩, hout, -⟩, -⟩ := hmem
  obtain ⟨⟨⟨hin', -, -, hseq', -⟩, hout', -⟩, -⟩ := hmem'
  obtain ⟨hprevouts, hdigests⟩ := Uint256.prefixFree_bytes.append_inj trivial trivial hdigests
  obtain ⟨-, hdigests⟩ := Uint256.prefixFree_bytes.append_inj trivial trivial hdigests
  obtain ⟨-, hdigests⟩ := Uint256.prefixFree_bytes.append_inj trivial trivial hdigests
  obtain ⟨hsequences, hdigests⟩ := Uint256.prefixFree_bytes.append_inj trivial trivial hdigests
  obtain ⟨houtputs, -⟩ := Uint256.prefixFree_bytes.append_inj trivial trivial hdigests
  exact ⟨hversion, hlock, prevouts_eq_of_bytes (hsha hin hin' hprevouts),
    sequences_eq_of_bytes (hsha hseq hseq' hsequences),
    outputs_eq_of_bytes hwf hwf' hversion (hsha hout hout' houtputs)⟩

end All

/-! ### A sample -/

/-- A hash without collisions among the messages below. -/
def sampleHash (message : Bytes) : Uint256 :=
  ⟨beBytes 32 (message.foldl (fun acc b => acc * 257 + b.toNat + 1) 0), length_beBytes 32 _⟩

def sampleCommitment (b : UInt8) : CConfidentialValue := ⟨8 :: List.replicate 32 b⟩

def taprootScript : CScript := OP_TRUE :: 32 :: List.replicate 32 7

def sampleTx (scriptSig : CScript) (value : CConfidentialValue) : CTransaction where
  nVersion := CT_VERSION
  vin := [⟨⟨Uint256.null, 0⟩, scriptSig, 5, [[1]], .null⟩]
  vout := [⟨value, .null, [1, 2], [OP_TRUE]⟩]
  nLockTime := 9

def sampleChecker (spent : CConfidentialValue) : SignatureChecker where
  nIn := 0
  amount := 0
  spentOutputs := [⟨spent, .null, [], taprootScript⟩]
  force := false
  scriptCode := [OP_DUP, OP_CODESEPARATOR, OP_CHECKSIG]
  execdata := ⟨Uint256.null, 0, false, Uint256.null, none⟩
  scriptCode_lt := by decide
  spentScripts_lt := by simp [taprootScript]

def sampleMessages : List Bytes :=
  hashed sampleHash (sampleChecker .null) (sampleTx [] (sampleCommitment 1)) .WITNESS_V0
      SIGHASH_ALL ++
    hashed sampleHash (sampleChecker .null) (sampleTx [] (sampleCommitment 1)) .WITNESS_V0
      SIGHASH_SINGLE ++
    hashed sampleHash (sampleChecker (.ofAmount 70)) (sampleTx [] (sampleCommitment 1)) .TAPROOT
      SIGHASH_DEFAULT

theorem injOn_sampleHash : Set.InjOn sampleHash {m | m ∈ sampleMessages} := by
  have h : ∀ m ∈ sampleMessages, ∀ m' ∈ sampleMessages, sampleHash m = sampleHash m' → m = m' := by
    decide +kernel
  exact fun m hm m' hm' heq => h m hm m' hm' heq

theorem unserialize_sampleTx :
    CTransaction.unserialize true ((sampleTx [] (sampleCommitment 1)).serialize true) =
      .ok (sampleTx [] (sampleCommitment 1), []) ∧
    CTransaction.unserialize true ((sampleTx [OP_TRUE] (sampleCommitment 1)).serialize true) =
      .ok (sampleTx [OP_TRUE] (sampleCommitment 1), []) := ⟨rfl, rfl⟩

/-- **A signature over everything fixes the transaction**, up to the scripts and witnesses that
hold the signatures. -/
theorem sighash_all_fixes_transaction (sha256 : Bytes → Uint256) (𝓜 : Set Bytes)
    (hsha : Set.InjOn sha256 𝓜) (tx tx' : CTransaction) (wire wire' : Bytes)
    (hwire : CTransaction.unserialize true wire = .ok (tx, []))
    (hwire' : CTransaction.unserialize true wire' = .ok (tx', []))
    (hcheck : checkTransaction tx = .ok ()) (hcheck' : checkTransaction tx' = .ok ())
    (sigversion : SigVersion) (checker checker' : SignatureChecker) (hashType hashType' : UInt8)
    (hall : IsAll sigversion hashType) (hall' : IsAll sigversion hashType')
    (hmem : ∀ m ∈ hashed sha256 checker tx sigversion hashType, m ∈ 𝓜)
    (hmem' : ∀ m ∈ hashed sha256 checker' tx' sigversion hashType', m ∈ 𝓜) (message : Bytes)
    (h : checker.message sha256 tx sigversion hashType = some message)
    (h' : checker'.message sha256 tx' sigversion hashType' = some message) :
    Agree tx tx' ∧ (tx.vin.map CTxIn.scriptSig = tx'.vin.map CTxIn.scriptSig →
      tx.serialize false = tx'.serialize false) := by
  have hwf := CTransaction.wellFormed_of_unserialize hwire
  have hwf' := CTransaction.wellFormed_of_unserialize hwire'
  have hsigned : AgreeSigned tx tx' := by
    cases sigversion with
    | BASE => exact agreeSigned_base hwf hwf' hall hall' h h'
    | WITNESS_V0 => exact agreeSigned_witnessV0 hsha hwf hwf' hall hall' hmem hmem' h h'
    | TAPROOT => exact agreeSigned_schnorr hsha hwf hwf' hall hmem hmem' h h'
    | TAPSCRIPT => exact agreeSigned_schnorr hsha hwf hwf' hall hmem hmem' h h'
  have hlen : tx.vin.length = tx'.vin.length := by
    simpa using congrArg List.length hsigned.prevouts
  have hagree : Agree tx tx' := ⟨hsigned, values_eq hwf hwf' (checked_of_checkTransaction hcheck)
    (checked_of_checkTransaction hcheck') hlen⟩
  exact ⟨hagree, hagree.serialize_eq⟩

theorem resigned_agrees :
    Agree (sampleTx [] (sampleCommitment 1)) (sampleTx [OP_TRUE] (sampleCommitment 1)) := by
  obtain ⟨message, h, h'⟩ : ∃ message,
      (sampleChecker .null).message sampleHash (sampleTx [] (sampleCommitment 1)) .WITNESS_V0
        SIGHASH_ALL = some message ∧
      (sampleChecker .null).message sampleHash (sampleTx [OP_TRUE] (sampleCommitment 1)) .WITNESS_V0
        SIGHASH_ALL = some message := ⟨_, rfl, rfl⟩
  have hmem : ∀ m ∈ hashed sampleHash (sampleChecker .null) (sampleTx [] (sampleCommitment 1))
      .WITNESS_V0 SIGHASH_ALL, m ∈ sampleMessages :=
    fun m hm => List.mem_append_left _ (List.mem_append_left _ hm)
  have hcheck : checkTransaction (sampleTx [] (sampleCommitment 1)) = .ok () := rfl
  have hcheck' : checkTransaction (sampleTx [OP_TRUE] (sampleCommitment 1)) = .ok () := rfl
  exact (sighash_all_fixes_transaction sampleHash _ injOn_sampleHash _ _ _ _ unserialize_sampleTx.1
    unserialize_sampleTx.2 hcheck hcheck' .WITNESS_V0 _ _ _ _ (isAll_sighash_all _)
    (isAll_sighash_all _) hmem hmem message h h').1

/-! ### `SIGHASH_SINGLE` -/

section Single

variable {sha256 : Bytes → Uint256} {𝓜 : Set Bytes} {tx tx' : CTransaction}
  {checker checker' : SignatureChecker} {hashType : UInt8} {message : Bytes}

def IsSingle (sigversion : SigVersion) (hashType : UInt8) : Prop :=
  match sigversion with
  | .BASE | .WITNESS_V0 => fHashSingle hashType = true
  | .TAPROOT | .TAPSCRIPT => outputType hashType = SIGHASH_SINGLE

theorem fHashNone_of_single (h : fHashSingle hashType = true) : fHashNone hashType = false := by
  simp only [fHashSingle, fHashNone, decide_eq_true_eq, decide_eq_false_iff_not] at h ⊢
  rw [h]
  decide

theorem output_eq_of_base (hwf : tx.WellFormed) (hwf' : tx'.WellFormed)
    (hsingle : fHashSingle hashType = true) (hnIn : checker'.nIn = checker.nIn)
    (h : checker.message sha256 tx .BASE hashType = some message)
    (h' : checker'.message sha256 tx' .BASE hashType = some message) :
    tx'.vout[checker.nIn.toNat]? = tx.vout[checker.nIn.toNat]? := by
  have hentry : ∀ tx : CTransaction, ((signedOutputs tx checker.nIn.toNat hashType).map
      (outputField checker.nIn.toNat hashType))[checker.nIn.toNat]? =
      tx.vout[checker.nIn.toNat]? := by
    intro tx
    rw [signedOutputs, fHashNone_of_single hsingle, if_neg Bool.false_ne_true, if_pos hsingle,
      List.getElem?_map, List.getElem?_take, if_pos (Nat.lt_succ_self _), List.getElem?_zipIdx]
    cases tx.vout[checker.nIn.toNat]? <;> simp [outputField]
  simp only [SignatureChecker.message, signatureMessage_init, hnIn] at h h'
  have hmessage := (signatureMessage_base h).symm.trans (signatureMessage_base h')
  obtain ⟨-, -, houts, -⟩ := serializeForSignature_append_inj
    checker.scriptCode_lt checker'.scriptCode_lt hwf hwf' hmessage
  rw [← hentry tx, ← hentry tx', houts]

theorem output_eq_of_witnessV0 (hsha : Set.InjOn sha256 𝓜) (hwf : tx.WellFormed)
    (hwf' : tx'.WellFormed) (hsingle : fHashSingle hashType = true)
    (hnIn : checker'.nIn = checker.nIn) {out out' : CTxOut}
    (hout : tx.vout[checker.nIn.toNat]? = some out)
    (hout' : tx'.vout[checker.nIn.toNat]? = some out')
    (hmem : ∀ m ∈ hashed sha256 checker tx .WITNESS_V0 hashType, m ∈ 𝓜)
    (hmem' : ∀ m ∈ hashed sha256 checker' tx' .WITNESS_V0 hashType, m ∈ 𝓜)
    (h : checker.message sha256 tx .WITNESS_V0 hashType = some message)
    (h' : checker'.message sha256 tx' .WITNESS_V0 hashType = some message) : out' = out := by
  simp only [SignatureChecker.message, signatureMessage_init, hnIn] at h h'
  obtain ⟨hversion, -, -, houtputs, -⟩ := signatureMessage_witnessV0
    checker.scriptCode_lt checker'.scriptCode_lt h h'
  have hmode : tx'.fCT = tx.fCT := (CTransaction.fCT_congr hversion).symm
  simp only [hashed, hnIn, bip143Hashed, hsingle, not_true, false_and, if_false, hout, hout', hmode,
    List.forall_mem_append] at hmem hmem'
  simp only [bip143Outputs, hsingle, not_true, false_and, if_false, hout, hout', hmode,
    getHash] at houtputs
  have hbytes := eq_of_doubled hsha hmem.2 hmem'.2 houtputs
  have hwellformed : out'.WellFormed tx.fCT :=
    hmode ▸ hwf'.vout_wf out' (List.mem_of_getElem? hout')
  exact ((CTxOut.prefixFree_serialize tx.fCT).inj
    (hwf.vout_wf out (List.mem_of_getElem? hout)) hwellformed hbytes).symm

def otherProof (out : CTxOut) : CTxOut :=
  { out with vchRangeproof := if out.vchRangeproof = [] then [0] else [] }

theorem otherProof_ne (out : CTxOut) : otherProof out ≠ out := by
  intro h
  have hproof := congrArg CTxOut.vchRangeproof h
  unfold otherProof at hproof
  by_cases hempty : out.vchRangeproof = []
  · simp [hempty] at hproof
  · simp only [hempty, if_false] at hproof
    exact hempty hproof.symm

theorem wellFormed_otherProof {out : CTxOut} (h : out.WellFormed true) :
    (otherProof out).WellFormed true := by
  refine ⟨h.value, h.nonce, ?_, h.script_lt⟩
  unfold otherProof
  rw [if_pos rfl]
  dsimp only
  split_ifs <;> simp

def replaceProof (tx : CTransaction) (nIn : Nat) : CTransaction :=
  { tx with vout := tx.vout.modify nIn otherProof }

/-- Taproot with `SIGHASH_SINGLE` serializes the output without its proof. -/
theorem message_replaceProof {execdata : ScriptExecutionData} {inPos : UInt32}
    {sigversion : SigVersion} {spentOutputs : List CTxOut} {force : Bool}
    (hsingle : outputType hashType = SIGHASH_SINGLE)
    (h : schnorrMessage sha256 execdata tx inPos hashType sigversion
      (.init sha256 tx spentOutputs force) = some message) :
    schnorrMessage sha256 execdata (replaceProof tx inPos.toNat) inPos hashType sigversion
      (.init sha256 (replaceProof tx inPos.toNat) spentOutputs force) = some message := by
  obtain ⟨huses, htype, txin, spent, outputData, htxin, hspent, hout, hm⟩ :=
    schnorrMessage_init.mp h
  have hall : outputType hashType ≠ SIGHASH_ALL := by
    rw [hsingle]
    decide
  refine schnorrMessage_init.mpr ⟨huses, htype, txin, spent, outputData, htxin, hspent, ?_, ?_⟩
  · rw [← hout]
    unfold schnorrOutputData replaceProof
    rw [if_pos hsingle, if_pos hsingle]
    dsimp only
    rw [List.getElem?_modify_eq]
    cases tx.vout[inPos.toNat]? <;> rfl
  · rw [hm, transactionDigests, transactionDigests, if_neg hall, if_neg hall]
    rfl

theorem hashed_replaceProof {spentOutputs : List CTxOut} {nIn : Nat}
    (hsingle : outputType hashType = SIGHASH_SINGLE) :
    bip341Hashed (replaceProof tx nIn) spentOutputs nIn hashType =
      bip341Hashed tx spentOutputs nIn hashType := by
  have hall : outputType hashType ≠ SIGHASH_ALL := by
    rw [hsingle]
    decide
  have hout : (replaceProof tx nIn).vout[nIn]?.map (CTxOut.serialize false) =
      tx.vout[nIn]?.map (CTxOut.serialize false) := by
    unfold replaceProof
    dsimp only
    rw [List.getElem?_modify_eq]
    cases tx.vout[nIn]? <;> rfl
  unfold bip341Hashed
  rw [hout, if_neg hall, if_neg hall]
  rfl

theorem wellFormed_replaceProof (h : tx.WellFormed) (hversion : tx.nVersion = CT_VERSION)
    (nIn : Nat) : (replaceProof tx nIn).WellFormed := by
  have hmode : tx.fCT = true := by simp [CTransaction.fCT, hversion]
  refine ⟨h.vin_lt, by simpa [replaceProof] using h.vout_lt, h.vin_wf, ?_⟩
  intro out hmem
  change out.WellFormed tx.fCT
  obtain ⟨j, hj⟩ := List.mem_iff_getElem?.mp hmem
  rw [replaceProof, List.getElem?_modify, Option.map_eq_map, Option.map_eq_some_iff] at hj
  obtain ⟨o, ho, rfl⟩ := hj
  have hwf := h.vout_wf o (List.mem_of_getElem? ho)
  split_ifs
  · rw [hmode] at hwf ⊢
    exact wellFormed_otherProof hwf
  · exact hwf

/-- No taproot scheme commits to the proof of the matching output. -/
theorem schnorr_single_not_committed {sigversion : SigVersion}
    (hwf : tx.WellFormed) (hversion : tx.nVersion = CT_VERSION)
    (hsingle : outputType hashType = SIGHASH_SINGLE) (hlt : checker.nIn.toNat < tx.vout.length)
    (hmem : ∀ m ∈ bip341Hashed tx checker.spentOutputs checker.nIn.toNat hashType, m ∈ 𝓜)
    (h : schnorrMessage sha256 checker.execdata tx checker.nIn hashType sigversion
      (.init sha256 tx checker.spentOutputs checker.force) = some message) :
    ∃ tx' : CTransaction, tx'.WellFormed ∧ tx'.nVersion = CT_VERSION ∧
      checker.nIn.toNat < tx'.vout.length ∧
      (∀ m ∈ bip341Hashed tx' checker.spentOutputs checker.nIn.toNat hashType, m ∈ 𝓜) ∧
      schnorrMessage sha256 checker.execdata tx' checker.nIn hashType sigversion
        (.init sha256 tx' checker.spentOutputs checker.force) = some message ∧
      tx'.vout[checker.nIn.toNat]? ≠ tx.vout[checker.nIn.toNat]? := by
  refine ⟨replaceProof tx checker.nIn.toNat, wellFormed_replaceProof hwf hversion _, hversion,
    by simpa [replaceProof] using hlt, ?_, message_replaceProof hsingle h, ?_⟩
  · rwa [hashed_replaceProof hsingle]
  · unfold replaceProof
    dsimp only
    rw [List.getElem?_modify_eq, List.getElem?_eq_getElem hlt]
    simpa using otherProof_ne _

end Single

/-- **When `SIGHASH_SINGLE` commits to the complete matching output**: in the ECDSA schemes.
Taproot leaves out commitment, nonce and proof. -/
theorem sighash_single_commits_iff (sha256 : Bytes → Uint256) (𝓜 : Set Bytes)
    (hsha : Set.InjOn sha256 𝓜) (tx : CTransaction) (hwf : tx.WellFormed)
    (hversion : tx.nVersion = CT_VERSION) (sigversion : SigVersion) (checker : SignatureChecker)
    (hashType : UInt8) (hsingle : IsSingle sigversion hashType)
    (hlt : checker.nIn.toNat < tx.vout.length)
    (hmem : ∀ m ∈ hashed sha256 checker tx sigversion hashType, m ∈ 𝓜) (message : Bytes)
    (h : checker.message sha256 tx sigversion hashType = some message) :
    (∀ (tx' : CTransaction) (checker' : SignatureChecker), tx'.WellFormed →
      tx'.nVersion = CT_VERSION → checker'.nIn = checker.nIn →
      checker.nIn.toNat < tx'.vout.length →
      (∀ m ∈ hashed sha256 checker' tx' sigversion hashType, m ∈ 𝓜) →
      checker'.message sha256 tx' sigversion hashType = some message →
      tx'.vout[checker.nIn.toNat]? = tx.vout[checker.nIn.toNat]?) ↔
    sigversion = .BASE ∨ sigversion = .WITNESS_V0 := by
  cases sigversion with
  | BASE =>
    refine iff_of_true ?_ (.inl rfl)
    intro tx' checker' hwf' _ hnIn _ _ h'
    exact output_eq_of_base hwf hwf' hsingle hnIn h h'
  | WITNESS_V0 =>
    refine iff_of_true ?_ (.inr rfl)
    intro tx' checker' hwf' _ hnIn hlt' hmem' h'
    have hout := List.getElem?_eq_getElem hlt
    have hout' := List.getElem?_eq_getElem hlt'
    rw [hout, hout', output_eq_of_witnessV0 hsha hwf hwf' hsingle hnIn hout hout' hmem hmem' h h']
  | TAPROOT =>
    refine iff_of_false (fun hall => ?_) (by simp)
    obtain ⟨tx', hwf', hversion', hlt', hmem', h', hne⟩ :=
      schnorr_single_not_committed hwf hversion hsingle hlt hmem h
    exact hne (hall tx' checker hwf' hversion' rfl hlt' hmem' h')
  | TAPSCRIPT =>
    refine iff_of_false (fun hall => ?_) (by simp)
    obtain ⟨tx', hwf', hversion', hlt', hmem', h', hne⟩ :=
      schnorr_single_not_committed hwf hversion hsingle hlt hmem h
    exact hne (hall tx' checker hwf' hversion' rfl hlt' hmem' h')

theorem witnessV0_commits_to_sampleOutput :
    (∀ m ∈ hashed sampleHash (sampleChecker .null) (sampleTx [OP_TRUE] (sampleCommitment 1))
      .WITNESS_V0 SIGHASH_SINGLE, m ∈ sampleMessages) ∧
    (sampleTx [OP_TRUE] (sampleCommitment 1)).vout[0]? =
      (sampleTx [] (sampleCommitment 1)).vout[0]? := by
  have hmem : ∀ m ∈ hashed sampleHash (sampleChecker .null) (sampleTx [] (sampleCommitment 1))
      .WITNESS_V0 SIGHASH_SINGLE, m ∈ sampleMessages :=
    fun m hm => List.mem_append_left _ (List.mem_append_right _ hm)
  have hwf := CTransaction.wellFormed_of_unserialize unserialize_sampleTx.1
  have hwf' := CTransaction.wellFormed_of_unserialize unserialize_sampleTx.2
  exact ⟨hmem, (sighash_single_commits_iff sampleHash _ injOn_sampleHash
    (sampleTx [] (sampleCommitment 1)) hwf rfl .WITNESS_V0 (sampleChecker .null) SIGHASH_SINGLE rfl
    (by decide) hmem _ rfl).mpr (.inr rfl) (sampleTx [OP_TRUE] (sampleCommitment 1))
    (sampleChecker .null) hwf' rfl rfl (by decide) hmem rfl⟩

/-- Two accepted transactions with different commitments in the signed output have the same
taproot message. -/
theorem taproot_single_same_message :
    checkTransaction (sampleTx [] (sampleCommitment 1)) = .ok () ∧
    checkTransaction (sampleTx [] (sampleCommitment 2)) = .ok () ∧
    ((sampleChecker (.ofAmount 70)).message sampleHash (sampleTx [] (sampleCommitment 1)) .TAPROOT
      SIGHASH_SINGLE).isSome ∧
    (sampleChecker (.ofAmount 70)).message sampleHash (sampleTx [] (sampleCommitment 1)) .TAPROOT
        SIGHASH_SINGLE =
      (sampleChecker (.ofAmount 70)).message sampleHash (sampleTx [] (sampleCommitment 2)) .TAPROOT
        SIGHASH_SINGLE ∧
    (sampleTx [] (sampleCommitment 1)).vout[0]? ≠ (sampleTx [] (sampleCommitment 2)).vout[0]? :=
  ⟨rfl, rfl, rfl, rfl, by decide⟩

/-! ### Spent outputs -/

section Spent

variable {spent spent' : List CTxOut}

/-- The amounts that the digest of the spent amounts has. -/
theorem spentAmountsBytes_eq (spent : List CTxOut) :
    spentAmountsBytes spent = ((spent.filter fun out => out.nValue.IsExplicit).map fun out =>
      out.nValue.getAmount).flatMap serInt64 := by
  induction spent with
  | nil => rfl
  | cons out spent ih =>
    unfold spentAmountsBytes at ih ⊢
    rw [List.flatMap_cons, ih, List.filter_cons]
    by_cases hexplicit : out.nValue.IsExplicit
    · simp [hexplicit]
    · simp [hexplicit]

theorem spentScripts_eq_of_bytes (hspent : ∀ out ∈ spent, out.scriptPubKey.length < 2 ^ 64)
    (hspent' : ∀ out ∈ spent', out.scriptPubKey.length < 2 ^ 64)
    (h : spentScriptsBytes spent = spentScriptsBytes spent') :
    spent.map CTxOut.scriptPubKey = spent'.map CTxOut.scriptPubKey := by
  apply flatMap_inj prefixFree_serBytes (fun v _ => serBytes_ne_nil v)
  · exact List.forall_mem_map.mpr hspent
  · exact List.forall_mem_map.mpr hspent'
  · simpa only [spentScriptsBytes, List.flatMap_map] using h

/-- If all values are explicit, the amounts determine the values: a committed value among the
others would leave an amount out. -/
theorem spentValues_eq_of_bytes (hexplicit : ∀ out ∈ spent, out.nValue.IsExplicit)
    (hlen : spent'.length = spent.length) (h : spentAmountsBytes spent = spentAmountsBytes spent') :
    spent.map CTxOut.nValue = spent'.map CTxOut.nValue := by
  rw [spentAmountsBytes_eq, spentAmountsBytes_eq] at h
  have hint : ∀ {spent : List CTxOut}, ∀ n ∈ (spent.filter fun out => out.nValue.IsExplicit).map
      (fun out => out.nValue.getAmount), IsInt64 n := by
    intro spent n hmem
    obtain ⟨out, -, rfl⟩ := List.mem_map.mp hmem
    exact CConfidentialValue.isInt64_getAmount _
  have hamounts := flatMap_inj prefixFree_serInt64
    (fun n _ => List.ne_nil_of_length_pos (by simp)) hint hint h
  have hfilter : spent.filter (fun out => out.nValue.IsExplicit) = spent :=
    List.filter_eq_self.mpr (by simpa using hexplicit)
  have hall : ∀ out ∈ spent', out.nValue.IsExplicit := by
    have hcount : (spent'.filter fun out => out.nValue.IsExplicit).length = spent'.length := by
      have := congrArg List.length hamounts
      rw [List.length_map, List.length_map, hfilter] at this
      rw [← this, hlen]
    simpa using List.length_filter_eq_length_iff.mp hcount
  have hfilter' : spent'.filter (fun out => out.nValue.IsExplicit) = spent' :=
    List.filter_eq_self.mpr (by simpa using hall)
  rw [hfilter, hfilter'] at hamounts
  have hvalues : ∀ {spent : List CTxOut}, (∀ out ∈ spent, out.nValue.IsExplicit) →
      spent.map CTxOut.nValue =
        (spent.map fun out => out.nValue.getAmount).map CConfidentialValue.ofAmount := by
    intro spent hexplicit
    rw [List.map_map]
    apply List.map_congr_left
    intro out hmem
    exact (CConfidentialValue.ofAmount_getAmount (hexplicit out hmem)).symm
  rw [hvalues hexplicit, hvalues hall, hamounts]

def otherCommitment (out : CTxOut) : CTxOut :=
  { out with nValue :=
      if out.nValue = ⟨8 :: List.replicate 32 0⟩ then ⟨9 :: List.replicate 32 0⟩
      else ⟨8 :: List.replicate 32 0⟩ }

theorem otherCommitment_ne (out : CTxOut) : (otherCommitment out).nValue ≠ out.nValue := by
  unfold otherCommitment
  dsimp only
  split_ifs with h
  · rw [h]
    decide
  · exact fun heq => h heq.symm

theorem not_isExplicit_otherCommitment (out : CTxOut) :
    ¬ (otherCommitment out).nValue.IsExplicit := by
  unfold otherCommitment
  dsimp only
  split_ifs <;> decide

/-- A taproot message does not change with a spent value that is not explicit; with
`SIGHASH_ANYONECANPAY`, nor with an explicit zero. -/
def replaceValue (spent : List CTxOut) (i : Nat) : List CTxOut := spent.modify i otherCommitment

theorem map_replaceValue {β : Type} {f : CTxOut → β} {i : Nat}
    (h : ∀ out, spent[i]? = some out → f (otherCommitment out) = f out) :
    (replaceValue spent i).map f = spent.map f := by
  apply List.ext_getElem?
  intro j
  rw [List.getElem?_map, List.getElem?_map, replaceValue, List.getElem?_modify]
  cases hj : spent[j]? with
  | none => rfl
  | some out =>
    by_cases hij : i = j
    · subst hij
      simp [h out hj]
    · simp [hij]

theorem spentBytes_replaceValue {i : Nat}
    (h : ∀ out, spent[i]? = some out → ¬ out.nValue.IsExplicit) :
    spentAmountsBytes (replaceValue spent i) = spentAmountsBytes spent ∧
      spentScriptsBytes (replaceValue spent i) = spentScriptsBytes spent := by
  simp only [spentAmountsBytes, spentScriptsBytes, List.flatMap_def]
  constructor
  · congr 1
    apply map_replaceValue
    intro out hout
    rw [if_neg (not_isExplicit_otherCommitment out), if_neg (h out hout)]
  · congr 1
    exact map_replaceValue fun _ _ => rfl

/-- The spent values and scripts that a taproot signature is to cover. -/
def coveredSpent (hashType : UInt8) (nIn : Nat) (spent : List CTxOut) :
    List (CConfidentialValue × CScript) :=
  if inputType hashType = SIGHASH_ANYONECANPAY then
    (spent[nIn]?.map fun out => (out.nValue, out.scriptPubKey)).toList
  else spent.map fun out => (out.nValue, out.scriptPubKey)

/-- The covered values are explicit, and with `SIGHASH_ANYONECANPAY` not zero. -/
def SpentInClear (hashType : UInt8) (nIn : Nat) (spent : List CTxOut) : Prop :=
  if inputType hashType = SIGHASH_ANYONECANPAY then
    ∀ out, spent[nIn]? = some out → out.nValue.IsExplicit ∧ out.nValue.getAmount ≠ 0
  else ∀ out ∈ spent, out.nValue.IsExplicit

theorem witnessSpends_congr {tx : CTransaction}
    (h : spent.map CTxOut.scriptPubKey = spent'.map CTxOut.scriptPubKey) :
    witnessSpends tx spent = witnessSpends tx spent' := by
  unfold witnessSpends
  apply List.map_congr_left
  rintro ⟨txin, inpos⟩ -
  have hscript := congrArg (fun l => (l[inpos]?.map looksTaproot).getD false) h
  simpa only [List.getElem?_map, Option.map_map, Function.comp_def] using hscript

section Covered

variable {sha256 : Bytes → Uint256} {𝓜 : Set Bytes} {tx : CTransaction}
  {execdata execdata' : ScriptExecutionData} {inPos : UInt32} {sigversion : SigVersion}
  {force force' : Bool} {hashType : UInt8} {message : Bytes}

/-- Without `SIGHASH_ANYONECANPAY` the message has the digests of amounts and scripts. -/
theorem spentBytes_eq (hsha : Set.InjOn sha256 𝓜)
    (hinput : inputType hashType ≠ SIGHASH_ANYONECANPAY)
    (hmem : ∀ m ∈ bip341Hashed tx spent inPos.toNat hashType, m ∈ 𝓜)
    (hmem' : ∀ m ∈ bip341Hashed tx spent' inPos.toNat hashType, m ∈ 𝓜)
    (h : schnorrMessage sha256 execdata tx inPos hashType sigversion
      (.init sha256 tx spent force) = some message)
    (h' : schnorrMessage sha256 execdata' tx inPos hashType sigversion
      (.init sha256 tx spent' force') = some message) :
    spentAmountsBytes spent = spentAmountsBytes spent' ∧
      spentScriptsBytes spent = spentScriptsBytes spent' := by
  obtain ⟨-, -, -, rest, rest', hdigests⟩ := schnorrMessage_head h h'
  simp only [bip341Hashed, if_pos hinput, List.forall_mem_append,
    List.forall_mem_cons] at hmem hmem'
  simp only [transactionDigests, if_pos hinput, List.append_assoc] at hdigests
  obtain ⟨⟨⟨-, hamounts, hscripts, -⟩, -⟩, -⟩ := hmem
  obtain ⟨⟨⟨-, hamounts', hscripts', -⟩, -⟩, -⟩ := hmem'
  obtain ⟨-, hdigests⟩ := List.append_inj hdigests rfl
  obtain ⟨hamount, hdigests⟩ := Uint256.prefixFree_bytes.append_inj trivial trivial hdigests
  obtain ⟨hscript, -⟩ := Uint256.prefixFree_bytes.append_inj trivial trivial hdigests
  exact ⟨hsha hamounts hamounts' hamount, hsha hscripts hscripts' hscript⟩

/-- With it, the message has the spent output in the plain serialization. -/
theorem spentOutput_eq (hinput : inputType hashType = SIGHASH_ANYONECANPAY) {out out' : CTxOut}
    (hout : spent[inPos.toNat]? = some out) (hout' : spent'[inPos.toNat]? = some out')
    (hlt : out.scriptPubKey.length < 2 ^ 64) (hlt' : out'.scriptPubKey.length < 2 ^ 64)
    (h : schnorrMessage sha256 execdata tx inPos hashType sigversion
      (.init sha256 tx spent force) = some message)
    (h' : schnorrMessage sha256 execdata' tx inPos hashType sigversion
      (.init sha256 tx spent' force') = some message) :
    out.nValue.getAmount = out'.nValue.getAmount ∧ out.scriptPubKey = out'.scriptPubKey := by
  obtain ⟨-, -, txin, _, outputData, htxin, hspent, -, hm⟩ := schnorrMessage_init.mp h
  obtain ⟨-, -, txin', _, outputData', htxin', hspent', -, hm'⟩ := schnorrMessage_init.mp h'
  obtain rfl := Option.some.inj (htxin.symm.trans htxin')
  obtain rfl := Option.some.inj (hout.symm.trans hspent)
  obtain rfl := Option.some.inj (hout'.symm.trans hspent')
  have heq := hm.symm.trans hm'
  simp only [transactionDigests, hinput, ne_eq, not_true_eq_false, if_false, List.nil_append,
    schnorrInputData, if_true, List.append_assoc] at heq
  -- tag, epoch, hash type, version, lock time and the digest of the outputs are the same
  obtain ⟨-, heq⟩ := List.append_inj heq rfl
  obtain ⟨-, heq⟩ := List.append_inj heq rfl
  obtain ⟨-, heq⟩ := List.append_inj heq rfl
  obtain ⟨-, heq⟩ := List.append_inj heq rfl
  obtain ⟨-, heq⟩ := List.append_inj heq rfl
  obtain ⟨-, heq⟩ := List.append_inj heq rfl
  obtain ⟨-, heq⟩ := List.append_inj heq rfl
  obtain ⟨-, heq⟩ := List.append_inj heq rfl
  obtain ⟨hamount, hscript, -⟩ := CTxOut.serialize_false_append_inj hlt hlt' heq
  exact ⟨hamount, hscript⟩

theorem message_replaceValue {i : Nat}
    (hhidden : if inputType hashType = SIGHASH_ANYONECANPAY then
      i = inPos.toNat ∧ ∀ out, spent[i]? = some out → out.nValue.getAmount = 0
      else ∀ out, spent[i]? = some out → ¬ out.nValue.IsExplicit)
    (h : schnorrMessage sha256 execdata tx inPos hashType sigversion
      (.init sha256 tx spent force) = some message) :
    schnorrMessage sha256 execdata tx inPos hashType sigversion
      (.init sha256 tx (replaceValue spent i) force) = some message := by
  obtain ⟨huses, htype, txin, out, outputData, htxin, hspent, hout, hm⟩ :=
    schnorrMessage_init.mp h
  have hscripts : (replaceValue spent i).map CTxOut.scriptPubKey = spent.map CTxOut.scriptPubKey :=
    map_replaceValue fun _ _ => rfl
  have hspent' : (replaceValue spent i)[inPos.toNat]? =
      some (if i = inPos.toNat then otherCommitment out else out) := by
    rw [replaceValue, List.getElem?_modify, hspent]
    split_ifs <;> rfl
  refine schnorrMessage_init.mpr ⟨witnessSpends_congr hscripts ▸ huses, htype, txin, _, outputData,
    htxin, hspent', hout, ?_⟩
  rw [hm]
  by_cases hinput : inputType hashType = SIGHASH_ANYONECANPAY
  · rw [if_pos hinput] at hhidden
    obtain ⟨rfl, hzero⟩ := hhidden
    have hplain : (otherCommitment out).serialize false = out.serialize false := by
      rw [CTxOut.serialize_false, CTxOut.serialize_false, hzero out hspent,
        CConfidentialValue.getAmount_of_not_isExplicit (not_isExplicit_otherCommitment out)]
      rfl
    simp only [transactionDigests, hinput, ne_eq, not_true_eq_false, if_false, schnorrInputData,
      if_true, hplain]
  · rw [if_neg hinput] at hhidden
    obtain ⟨hamounts, hscriptBytes⟩ := spentBytes_replaceValue hhidden
    simp only [transactionDigests, hamounts, hscriptBytes, schnorrInputData, if_neg hinput]

theorem hashed_replaceValue {i : Nat} (hinput : inputType hashType ≠ SIGHASH_ANYONECANPAY →
      ∀ out, spent[i]? = some out → ¬ out.nValue.IsExplicit) :
    bip341Hashed tx (replaceValue spent i) inPos.toNat hashType =
      bip341Hashed tx spent inPos.toNat hashType := by
  unfold bip341Hashed
  by_cases hpay : inputType hashType = SIGHASH_ANYONECANPAY
  · simp only [hpay, ne_eq, not_true_eq_false, if_false]
  · obtain ⟨hamounts, hscripts⟩ := spentBytes_replaceValue (hinput hpay)
    rw [hamounts, hscripts]

/-- A taproot signature covers the spent values that its message shows. -/
theorem covered_of_spentInClear (hsha : Set.InjOn sha256 𝓜) {spent spent' : List CTxOut}
    (hspent : ∀ out ∈ spent, out.scriptPubKey.length < 2 ^ 64)
    (hspent' : ∀ out ∈ spent', out.scriptPubKey.length < 2 ^ 64)
    (hlen : spent'.length = spent.length) (hclear : SpentInClear hashType inPos.toNat spent)
    (hmem : ∀ m ∈ bip341Hashed tx spent inPos.toNat hashType, m ∈ 𝓜)
    (hmem' : ∀ m ∈ bip341Hashed tx spent' inPos.toNat hashType, m ∈ 𝓜)
    (h : schnorrMessage sha256 execdata tx inPos hashType sigversion
      (.init sha256 tx spent force) = some message)
    (h' : schnorrMessage sha256 execdata' tx inPos hashType sigversion
      (.init sha256 tx spent' force') = some message) :
    coveredSpent hashType inPos.toNat spent' = coveredSpent hashType inPos.toNat spent := by
  unfold SpentInClear at hclear
  unfold coveredSpent
  by_cases hinput : inputType hashType = SIGHASH_ANYONECANPAY
  · rw [if_pos hinput] at hclear
    rw [if_pos hinput, if_pos hinput]
    obtain ⟨-, -, -, out, -, -, hout, -⟩ := schnorrMessage_init.mp h
    obtain ⟨-, -, -, out', -, -, hout', -⟩ := schnorrMessage_init.mp h'
    obtain ⟨hamount, hscript⟩ := spentOutput_eq hinput hout hout'
      (hspent out (List.mem_of_getElem? hout)) (hspent' out' (List.mem_of_getElem? hout')) h h'
    obtain ⟨hexplicit, hne⟩ := hclear out hout
    have hexplicit' : out'.nValue.IsExplicit := by
      by_contra hnot
      rw [CConfidentialValue.getAmount_of_not_isExplicit hnot] at hamount
      exact hne hamount
    rw [hout, hout', Option.map_some, Option.map_some, hscript,
      CConfidentialValue.eq_of_getAmount_eq hexplicit hexplicit' hamount]
  · rw [if_neg hinput] at hclear
    rw [if_neg hinput, if_neg hinput]
    obtain ⟨hamounts, hscripts⟩ := spentBytes_eq hsha hinput hmem hmem' h h'
    have hvalues := spentValues_eq_of_bytes hclear hlen hamounts
    have hscripts := spentScripts_eq_of_bytes hspent hspent' hscripts
    rw [← List.zip_map', ← List.zip_map', hvalues, hscripts]

/-- A value that it does not show can be replaced. -/
theorem exists_hidden_of_not_spentInClear
    (hclear : ¬ SpentInClear hashType inPos.toNat spent) :
    ∃ i, (if inputType hashType = SIGHASH_ANYONECANPAY then
      i = inPos.toNat ∧ ∀ out, spent[i]? = some out → out.nValue.getAmount = 0
      else ∀ out, spent[i]? = some out → ¬ out.nValue.IsExplicit) ∧
      coveredSpent hashType inPos.toNat (replaceValue spent i) ≠
        coveredSpent hashType inPos.toNat spent := by
  unfold SpentInClear at hclear
  unfold coveredSpent
  by_cases hinput : inputType hashType = SIGHASH_ANYONECANPAY
  · rw [if_pos hinput] at hclear
    push Not at hclear
    obtain ⟨out, hout, hzero⟩ := hclear
    refine ⟨inPos.toNat, ?_, ?_⟩
    · rw [if_pos hinput]
      refine ⟨rfl, fun out' hout' => ?_⟩
      obtain rfl := Option.some.inj (hout.symm.trans hout')
      by_cases hexplicit : out.nValue.IsExplicit
      · exact hzero hexplicit
      · exact CConfidentialValue.getAmount_of_not_isExplicit hexplicit
    · rw [if_pos hinput, if_pos hinput, replaceValue, List.getElem?_modify_eq, hout]
      intro heq
      simp only [Option.map_eq_map, Option.map_some, Option.toList_some, List.cons.injEq,
        Prod.mk.injEq, and_true] at heq
      exact otherCommitment_ne out heq.1
  · rw [if_neg hinput] at hclear
    push Not at hclear
    obtain ⟨out, hmem, hnot⟩ := hclear
    obtain ⟨i, hi⟩ := List.mem_iff_getElem?.mp hmem
    refine ⟨i, ?_, ?_⟩
    · rw [if_neg hinput]
      intro out' hout'
      obtain rfl := Option.some.inj (hi.symm.trans hout')
      exact hnot
    · rw [if_neg hinput, if_neg hinput]
      intro heq
      have hentry := congrArg (fun l => l[i]?) heq
      simp only [List.getElem?_map, replaceValue, List.getElem?_modify_eq, hi, Option.map_eq_map,
        Option.map_some, Option.some.injEq, Prod.mk.injEq] at hentry
      exact otherCommitment_ne out hentry.1

end Covered

end Spent

/-- **When a taproot signature commits to the spent values it covers**: if these are explicit, and
not zero where only one input is signed. -/
theorem taproot_commits_to_spent_iff (sha256 : Bytes → Uint256) (𝓜 : Set Bytes)
    (hsha : Set.InjOn sha256 𝓜) (tx : CTransaction) (sigversion : SigVersion)
    (htaproot : sigversion = .TAPROOT ∨ sigversion = .TAPSCRIPT) (checker : SignatureChecker)
    (hashType : UInt8) (hlen : checker.spentOutputs.length = tx.vin.length)
    (hmem : ∀ m ∈ hashed sha256 checker tx sigversion hashType, m ∈ 𝓜) (message : Bytes)
    (h : checker.message sha256 tx sigversion hashType = some message) :
    (∀ checker' : SignatureChecker, checker'.nIn = checker.nIn →
      checker'.spentOutputs.length = tx.vin.length →
      (∀ m ∈ hashed sha256 checker' tx sigversion hashType, m ∈ 𝓜) →
      checker'.message sha256 tx sigversion hashType = some message →
      coveredSpent hashType checker.nIn.toNat checker'.spentOutputs =
        coveredSpent hashType checker.nIn.toNat checker.spentOutputs) ↔
    SpentInClear hashType checker.nIn.toNat checker.spentOutputs := by
  have hmessage : ∀ checker : SignatureChecker, checker.message sha256 tx sigversion hashType =
      schnorrMessage sha256 checker.execdata tx checker.nIn hashType sigversion
        (.init sha256 tx checker.spentOutputs checker.force) := by
    rcases htaproot with rfl | rfl <;> exact fun _ => rfl
  have hhashed : ∀ checker : SignatureChecker, hashed sha256 checker tx sigversion hashType =
      bip341Hashed tx checker.spentOutputs checker.nIn.toNat hashType := by
    rcases htaproot with rfl | rfl <;> exact fun _ => rfl
  simp only [hmessage, hhashed] at h hmem ⊢
  constructor
  · intro hall
    by_contra hclear
    obtain ⟨i, hhidden, hne⟩ := exists_hidden_of_not_spentInClear hclear
    have hscripts : (replaceValue checker.spentOutputs i).map CTxOut.scriptPubKey =
        checker.spentOutputs.map CTxOut.scriptPubKey := map_replaceValue fun _ _ => rfl
    have hlt : ∀ out ∈ replaceValue checker.spentOutputs i, out.scriptPubKey.length < 2 ^ 64 := by
      intro out hout
      have hscript := List.mem_map_of_mem (f := CTxOut.scriptPubKey) hout
      rw [hscripts] at hscript
      obtain ⟨out', hout', heq⟩ := List.mem_map.mp hscript
      exact heq ▸ checker.spentScripts_lt out' hout'
    refine hne (hall { checker with
      spentOutputs := replaceValue checker.spentOutputs i
      spentScripts_lt := hlt } rfl ?_ ?_ (message_replaceValue hhidden h))
    · simpa [replaceValue] using hlen
    · dsimp only
      rw [hashed_replaceValue]
      · exact hmem
      · intro hinput
        rwa [if_neg hinput] at hhidden
  · intro hclear checker' hnIn hlen' hmem' h'
    rw [hnIn] at hmem' h'
    exact covered_of_spentInClear hsha checker.spentScripts_lt checker'.spentScripts_lt
      (hlen'.trans hlen.symm) hclear hmem hmem' h h'

theorem taproot_commits_to_sampleAmount :
    SpentInClear SIGHASH_DEFAULT 0 (sampleChecker (.ofAmount 70)).spentOutputs ∧
    ∀ checker' : SignatureChecker, checker'.nIn = 0 → checker'.spentOutputs.length = 1 →
      (∀ m ∈ hashed sampleHash checker' (sampleTx [] (sampleCommitment 1)) .TAPROOT SIGHASH_DEFAULT,
        m ∈ sampleMessages) →
      checker'.message sampleHash (sampleTx [] (sampleCommitment 1)) .TAPROOT SIGHASH_DEFAULT =
        (sampleChecker (.ofAmount 70)).message sampleHash (sampleTx [] (sampleCommitment 1)) .TAPROOT
          SIGHASH_DEFAULT →
      checker'.spentOutputs.map (fun out => (out.nValue, out.scriptPubKey)) =
        [(.ofAmount 70, taprootScript)] := by
  have hclear : SpentInClear SIGHASH_DEFAULT 0 (sampleChecker (.ofAmount 70)).spentOutputs := by
    simp [SpentInClear, sampleChecker, inputType, SIGHASH_DEFAULT, SIGHASH_ANYONECANPAY]
  refine ⟨hclear, fun checker' hnIn hlen hmem' h' => ?_⟩
  have hmem : ∀ m ∈ hashed sampleHash (sampleChecker (.ofAmount 70))
      (sampleTx [] (sampleCommitment 1)) .TAPROOT SIGHASH_DEFAULT, m ∈ sampleMessages :=
    fun m hm => List.mem_append_right _ hm
  exact (taproot_commits_to_spent_iff sampleHash _ injOn_sampleHash
    (sampleTx [] (sampleCommitment 1)) .TAPROOT (.inl rfl) (sampleChecker (.ofAmount 70))
    SIGHASH_DEFAULT rfl hmem _ rfl).mpr hclear checker' hnIn hlen hmem' h'

/-- Two different committed values of the spent output have the same message. -/
theorem taproot_spent_same_message :
    ((sampleChecker (sampleCommitment 1)).message sampleHash (sampleTx [] (sampleCommitment 1))
      .TAPROOT SIGHASH_DEFAULT).isSome ∧
    (sampleChecker (sampleCommitment 1)).message sampleHash (sampleTx [] (sampleCommitment 1))
        .TAPROOT SIGHASH_DEFAULT =
      (sampleChecker (sampleCommitment 2)).message sampleHash (sampleTx [] (sampleCommitment 1))
        .TAPROOT SIGHASH_DEFAULT ∧
    (sampleChecker (sampleCommitment 1)).spentOutputs.map CTxOut.nValue ≠
      (sampleChecker (sampleCommitment 2)).spentOutputs.map CTxOut.nValue :=
  ⟨rfl, rfl, by decide⟩

end Rcpu.SigHash
