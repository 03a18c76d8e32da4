import Rcpu.Script

/-!
# Signature messages

The signature hashing of `script/interpreter.cpp`: the legacy serializer, the digests of BIP143
and BIP341 with their precomputed data, and the messages that `SignatureHash` and
`SignatureHashSchnorr` hash.  SHA256 is a parameter.
-/

namespace Rcpu.Interpreter

open ByteStream Serialize Transaction Script

inductive SigVersion where
  | BASE
  | WITNESS_V0
  | TAPROOT
  | TAPSCRIPT
deriving DecidableEq, Repr

def SIGHASH_DEFAULT : UInt8 := 0
def SIGHASH_ALL : UInt8 := 1
def SIGHASH_NONE : UInt8 := 2
def SIGHASH_SINGLE : UInt8 := 3
def SIGHASH_OUTPUT_MASK : UInt8 := 3
def SIGHASH_ANYONECANPAY : UInt8 := 0x80
def SIGHASH_INPUT_MASK : UInt8 := 0x80

/-! ### The legacy serializer -/

/-- The flags of `CTransactionSignatureSerializer`, read off a hash type.  The hash type of an
ECDSA signature is its last byte. -/
def fAnyoneCanPay (nHashType : UInt8) : Bool := nHashType &&& SIGHASH_ANYONECANPAY ≠ 0
def fHashSingle (nHashType : UInt8) : Bool := nHashType &&& 0x1F = SIGHASH_SINGLE
def fHashNone (nHashType : UInt8) : Bool := nHashType &&& 0x1F = SIGHASH_NONE

/-- The first loop of `SerializeScriptCode`. -/
def nCodeSeparators : Nat → CScript → Nat
  | 0, _ => 0
  | fuel + 1, it =>
    match getScriptOp it with
    | (none, _) => 0
    | (some opcode, it) =>
      (if opcode = OP_CODESEPARATOR then 1 else 0) + nCodeSeparators fuel it

/-- The second loop: whenever the iterator passes a separator, what lies between `itBegin` and the
separator is written. -/
def writeSegments : Nat → CScript → CScript → Bytes
  | 0, _, _ => []
  | fuel + 1, itBegin, it =>
    match getScriptOp it with
    | (none, it) => itBegin.take (itBegin.length - it.length)
    | (some opcode, it) =>
      if opcode = OP_CODESEPARATOR then
        itBegin.take (itBegin.length - it.length - 1) ++ writeSegments fuel it it
      else writeSegments fuel itBegin it

/-- The script without its code separators.  Every instruction has a byte, so the loops end within
the length of the script. -/
def serializeScriptCode (scriptCode : CScript) : Bytes :=
  let fuel := scriptCode.length + 1
  writeCompactSize (scriptCode.length - nCodeSeparators fuel scriptCode) ++
    writeSegments fuel scriptCode scriptCode

/-- One input: other inputs' scripts are blank, and with `SIGHASH_SINGLE` and `SIGHASH_NONE` so
are their sequence numbers. -/
def serializeInput (scriptCode : CScript) (nIn : Nat) (nHashType : UInt8) (input : CTxIn × Nat) :
    Bytes :=
  let (txin, nInput) := input
  txin.prevout.serialize ++
    (if nInput ≠ nIn then serBytes [] else serializeScriptCode scriptCode) ++
    if nInput ≠ nIn ∧ (fHashSingle nHashType ∨ fHashNone nHashType) then serInt32 0
    else serUint32 txin.nSequence

/-- One output: with `SIGHASH_SINGLE` those in front of the matching one are blank. -/
def serializeOutput (fCT : Bool) (nIn : Nat) (nHashType : UInt8) (output : CTxOut × Nat) : Bytes :=
  let (txout, nOutput) := output
  if fHashSingle nHashType ∧ nOutput ≠ nIn then CTxOut.null.serialize fCT else txout.serialize fCT

/-- The inputs the message covers, with their positions. -/
def signedInputs (txTo : CTransaction) (nIn : Nat) (nHashType : UInt8) : List (CTxIn × Nat) :=
  if fAnyoneCanPay nHashType then (txTo.vin[nIn]?.map fun txin => (txin, nIn)).toList
  else txTo.vin.zipIdx

def signedOutputs (txTo : CTransaction) (nIn : Nat) (nHashType : UInt8) : List (CTxOut × Nat) :=
  if fHashNone nHashType then []
  else if fHashSingle nHashType then txTo.vout.zipIdx.take (nIn + 1)
  else txTo.vout.zipIdx

/-- `CTransactionSignatureSerializer::Serialize` -/
def serializeForSignature (txTo : CTransaction) (scriptCode : CScript) (nIn : Nat)
    (nHashType : UInt8) : Bytes :=
  serInt32 txTo.nVersion ++
    serVector (serializeInput scriptCode nIn nHashType) (signedInputs txTo nIn nHashType) ++
    serVector (serializeOutput txTo.fCT nIn nHashType) (signedOutputs txTo nIn nHashType) ++
    serUint32 txTo.nLockTime

/-! ### Digests -/

def prevoutsBytes (txTo : CTransaction) : Bytes :=
  txTo.vin.flatMap fun txin => txin.prevout.serialize

def sequencesBytes (txTo : CTransaction) : Bytes :=
  txTo.vin.flatMap fun txin => serUint32 txin.nSequence

def outputsBytes (txTo : CTransaction) : Bytes :=
  txTo.vout.flatMap fun txout => txout.serialize txTo.fCT

/-- The amounts spent; an output that is not explicit is skipped. -/
def spentAmountsBytes (outputsSpent : List CTxOut) : Bytes :=
  outputsSpent.flatMap fun txout =>
    if txout.nValue.IsExplicit then serInt64 txout.nValue.getAmount else []

def spentScriptsBytes (outputsSpent : List CTxOut) : Bytes :=
  outputsSpent.flatMap fun txout => serBytes txout.scriptPubKey

variable (sha256 : Bytes → Uint256)

def getPrevoutsSHA256 (txTo : CTransaction) : Uint256 := sha256 (prevoutsBytes txTo)
def getSequencesSHA256 (txTo : CTransaction) : Uint256 := sha256 (sequencesBytes txTo)
def getOutputsSHA256 (txTo : CTransaction) : Uint256 := sha256 (outputsBytes txTo)
def getSpentAmountsSHA256 (outputsSpent : List CTxOut) : Uint256 :=
  sha256 (spentAmountsBytes outputsSpent)
def getSpentScriptsSHA256 (outputsSpent : List CTxOut) : Uint256 :=
  sha256 (spentScriptsBytes outputsSpent)

def sha256Uint256 (hash : Uint256) : Uint256 := sha256 hash.bytes

def getHash (message : Bytes) : Uint256 := sha256Uint256 sha256 (sha256 message)

structure PrecomputedTransactionData where
  m_prevouts_single_hash : Uint256 := .null
  m_sequences_single_hash : Uint256 := .null
  m_outputs_single_hash : Uint256 := .null
  m_spent_amounts_single_hash : Uint256 := .null
  m_spent_scripts_single_hash : Uint256 := .null
  m_bip341_taproot_ready : Bool := false
  hashPrevouts : Uint256 := .null
  hashSequence : Uint256 := .null
  hashOutputs : Uint256 := .null
  m_bip143_segwit_ready : Bool := false
  m_spent_outputs : List CTxOut := []
  m_spent_outputs_ready : Bool := false

def WITNESS_V1_TAPROOT_SIZE : Nat := 32

/-- Whether an output looks like taproot: 34 bytes that start with `OP_1`. -/
def looksTaproot (script : CScript) : Bool :=
  script.length = 2 + WITNESS_V1_TAPROOT_SIZE ∧ script.head? = some OP_TRUE

/-- For every input with a witness, whether it is taken for a taproot spend. -/
def witnessSpends (txTo : CTransaction) (spentOutputs : List CTxOut) : List Bool :=
  (txTo.vin.zipIdx.filter fun (txin, _) => !txin.scriptWitness.isEmpty).map fun (_, inpos) =>
    (spentOutputs[inpos]?.map fun out => looksTaproot out.scriptPubKey).getD false

/-- `PrecomputedTransactionData::Init`; `spentOutputs` is empty or has one entry for each input. -/
def PrecomputedTransactionData.init (txTo : CTransaction) (spentOutputs : List CTxOut)
    (force : Bool) : PrecomputedTransactionData :=
  let usesBip143Segwit := force || (witnessSpends txTo spentOutputs).any (!·)
  let usesBip341Taproot := force || (witnessSpends txTo spentOutputs).any id
  let shared := usesBip143Segwit || usesBip341Taproot
  let spentReady := !spentOutputs.isEmpty
  let taprootReady := usesBip341Taproot && spentReady
  { m_spent_outputs := spentOutputs
    m_spent_outputs_ready := spentReady
    m_prevouts_single_hash := if shared then getPrevoutsSHA256 sha256 txTo else .null
    m_sequences_single_hash := if shared then getSequencesSHA256 sha256 txTo else .null
    m_outputs_single_hash := if shared then getOutputsSHA256 sha256 txTo else .null
    hashPrevouts :=
      if usesBip143Segwit then sha256Uint256 sha256 (getPrevoutsSHA256 sha256 txTo) else .null
    hashSequence :=
      if usesBip143Segwit then sha256Uint256 sha256 (getSequencesSHA256 sha256 txTo) else .null
    hashOutputs :=
      if usesBip143Segwit then sha256Uint256 sha256 (getOutputsSHA256 sha256 txTo) else .null
    m_bip143_segwit_ready := usesBip143Segwit
    m_spent_amounts_single_hash :=
      if taprootReady then getSpentAmountsSHA256 sha256 spentOutputs else .null
    m_spent_scripts_single_hash :=
      if taprootReady then getSpentScriptsSHA256 sha256 spentOutputs else .null
    m_bip341_taproot_ready := taprootReady }

/-! ### `SignatureHash` -/

/-- The three digests of a witness v0 message, from the cache if it has them. -/
def bip143Prevouts (cache : Option PrecomputedTransactionData) (txTo : CTransaction)
    (nHashType : UInt8) : Uint256 :=
  if fAnyoneCanPay nHashType then .null
  else match cache.filter (·.m_bip143_segwit_ready) with
    | some cache => cache.hashPrevouts
    | none => sha256Uint256 sha256 (getPrevoutsSHA256 sha256 txTo)

def bip143Sequence (cache : Option PrecomputedTransactionData) (txTo : CTransaction)
    (nHashType : UInt8) : Uint256 :=
  if fAnyoneCanPay nHashType ∨ fHashSingle nHashType ∨ fHashNone nHashType then .null
  else match cache.filter (·.m_bip143_segwit_ready) with
    | some cache => cache.hashSequence
    | none => sha256Uint256 sha256 (getSequencesSHA256 sha256 txTo)

def bip143Outputs (cache : Option PrecomputedTransactionData) (txTo : CTransaction) (nIn : Nat)
    (nHashType : UInt8) : Uint256 :=
  if ¬ fHashSingle nHashType ∧ ¬ fHashNone nHashType then
    match cache.filter (·.m_bip143_segwit_ready) with
    | some cache => cache.hashOutputs
    | none => sha256Uint256 sha256 (getOutputsSHA256 sha256 txTo)
  else match fHashSingle nHashType, txTo.vout[nIn]? with
    | true, some txout => getHash sha256 (txout.serialize txTo.fCT)
    | _, _ => .null

def signatureMidstate (cache : Option PrecomputedTransactionData) (scriptCode : CScript)
    (txTo : CTransaction) (nIn : Nat) (nHashType : UInt8) (amount : Int)
    (sigversion : SigVersion) : Option Bytes :=
  match txTo.vin[nIn]? with
  | none => none
  | some txin =>
    if sigversion = .WITNESS_V0 then
      some (serInt32 txTo.nVersion ++
        (bip143Prevouts sha256 cache txTo nHashType).bytes ++
        (bip143Sequence sha256 cache txTo nHashType).bytes ++
        txin.prevout.serialize ++ serBytes scriptCode ++ serInt64 amount ++
        serUint32 txin.nSequence ++
        (bip143Outputs sha256 cache txTo nIn nHashType).bytes ++
        serUint32 txTo.nLockTime)
    else some (serializeForSignature txTo scriptCode nIn nHashType)

/-- The message of `SignatureHash`; none for a missing input, nor for `SIGHASH_SINGLE` without a
matching output outside of witness v0, where the hash is one. -/
def signatureMessage (cache : Option PrecomputedTransactionData) (scriptCode : CScript)
    (txTo : CTransaction) (nIn : Nat) (nHashType : UInt8) (amount : Int)
    (sigversion : SigVersion) : Option Bytes :=
  if sigversion ≠ .WITNESS_V0 ∧ fHashSingle nHashType ∧ nIn ≥ txTo.vout.length then none
  else (signatureMidstate sha256 cache scriptCode txTo nIn nHashType amount sigversion).map
    fun midstate => midstate ++ leBytes 4 nHashType.toNat

/-! ### `SignatureHashSchnorr` -/

structure ScriptExecutionData where
  m_tapleaf_hash : Uint256
  m_codeseparator_pos : UInt32
  m_annex_present : Bool
  m_annex_hash : Uint256
  m_output_hash : Option Uint256

/-- `TaggedHash("TapSighash")`: the digest of the tag, twice. -/
def tapSighashTag : Bytes := [0x54, 0x61, 0x70, 0x53, 0x69, 0x67, 0x68, 0x61, 0x73, 0x68]

def HASHER_TAPSIGHASH : Bytes := (sha256 tapSighashTag).bytes ++ (sha256 tapSighashTag).bytes

def IsSchnorrHashType (hashType : UInt8) : Prop :=
  hashType ≤ 0x03 ∨ (0x81 ≤ hashType ∧ hashType ≤ 0x83)

instance (hashType : UInt8) : Decidable (IsSchnorrHashType hashType) :=
  inferInstanceAs (Decidable (_ ∨ _))

def outputType (hashType : UInt8) : UInt8 :=
  if hashType = SIGHASH_DEFAULT then SIGHASH_ALL else hashType &&& SIGHASH_OUTPUT_MASK

def inputType (hashType : UInt8) : UInt8 := hashType &&& SIGHASH_INPUT_MASK

def schnorrTransactionData (cache : PrecomputedTransactionData) (txTo : CTransaction)
    (hashType : UInt8) : Bytes :=
  serInt32 txTo.nVersion ++ serUint32 txTo.nLockTime ++
    (if inputType hashType ≠ SIGHASH_ANYONECANPAY then
      cache.m_prevouts_single_hash.bytes ++ cache.m_spent_amounts_single_hash.bytes ++
        cache.m_spent_scripts_single_hash.bytes ++ cache.m_sequences_single_hash.bytes
    else []) ++
    if outputType hashType = SIGHASH_ALL then cache.m_outputs_single_hash.bytes else []

def schnorrInputData (execdata : ScriptExecutionData) (extFlag : UInt8) (txin : CTxIn)
    (spent : CTxOut) (inPos : UInt32) (hashType : UInt8) : Bytes :=
  serUint8 ((extFlag <<< 1) + if execdata.m_annex_present then 1 else 0) ++
    (if inputType hashType = SIGHASH_ANYONECANPAY then
      txin.prevout.serialize ++ spent.serialize false ++ serUint32 txin.nSequence
    else serUint32 inPos) ++
    if execdata.m_annex_present then execdata.m_annex_hash.bytes else []

def schnorrOutputData (execdata : ScriptExecutionData) (txTo : CTransaction) (inPos : UInt32)
    (hashType : UInt8) : Option Bytes :=
  if outputType hashType = SIGHASH_SINGLE then
    txTo.vout[inPos.toNat]?.map fun txout =>
      (execdata.m_output_hash.getD (sha256 (txout.serialize false))).bytes
  else some []

/-- The part of BIP342. -/
def tapscriptData (execdata : ScriptExecutionData) (sigversion : SigVersion) : Bytes :=
  if sigversion = .TAPSCRIPT then
    execdata.m_tapleaf_hash.bytes ++ serUint8 0 ++ serUint32 execdata.m_codeseparator_pos
  else []

/-- The message of `SignatureHashSchnorr`, if it does not fail. -/
def schnorrMessage (execdata : ScriptExecutionData) (txTo : CTransaction) (inPos : UInt32)
    (hashType : UInt8) (sigversion : SigVersion) (cache : PrecomputedTransactionData) :
    Option Bytes :=
  let extFlag : UInt8 := if sigversion = .TAPSCRIPT then 1 else 0
  match txTo.vin[inPos.toNat]?, cache.m_spent_outputs[inPos.toNat]?,
      schnorrOutputData sha256 execdata txTo inPos hashType with
  | some txin, some spent, some outputData =>
    if cache.m_bip341_taproot_ready ∧ cache.m_spent_outputs_ready ∧ IsSchnorrHashType hashType then
      some (HASHER_TAPSIGHASH sha256 ++ serUint8 0 ++ serUint8 hashType ++
        schnorrTransactionData cache txTo hashType ++
        schnorrInputData execdata extFlag txin spent inPos hashType ++ outputData ++
        tapscriptData execdata sigversion)
    else none
  | _, _, _ => none

/-! ### Signature checkers -/

/-- What a `GenericTransactionSignatureChecker` has, and what script execution adds to it for one
signature.  No `std::vector` has `2 ^ 64` bytes. -/
structure SignatureChecker where
  nIn : UInt32
  amount : Int
  spentOutputs : List CTxOut
  force : Bool
  scriptCode : CScript
  execdata : ScriptExecutionData
  scriptCode_lt : scriptCode.length < 2 ^ 64
  spentScripts_lt : ∀ out ∈ spentOutputs, out.scriptPubKey.length < 2 ^ 64

def SignatureChecker.message (checker : SignatureChecker) (txTo : CTransaction)
    (sigversion : SigVersion) (hashType : UInt8) : Option Bytes :=
  let txdata := PrecomputedTransactionData.init sha256 txTo checker.spentOutputs checker.force
  match sigversion with
  | .BASE | .WITNESS_V0 =>
    signatureMessage sha256 (some txdata) checker.scriptCode txTo checker.nIn.toNat hashType
      checker.amount sigversion
  | .TAPROOT | .TAPSCRIPT =>
    schnorrMessage sha256 checker.execdata txTo checker.nIn hashType sigversion txdata

end Rcpu.Interpreter
