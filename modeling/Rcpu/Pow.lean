import Rcpu.ArithUint256

/-!
# Proof of work

The three verifiers of `pow.cpp` with their three modes.  Every verifier computes a hash from the
canonical 112 bytes of the header, in which the field `hashRandomX` is null, and the header carries
the hash in that field; for RandomX a commitment of header and hash is what meets the target.

The hash functions themselves are fields of `PowHashes`, arbitrary functions of their inputs.
-/

namespace Rcpu.Pow

open ByteStream Serialize Transaction ArithUint256

/-! ### Headers and parameters -/

structure CBlockHeader where
  nVersion : Int32
  hashPrevBlock : Uint256
  hashMerkleRoot : Uint256
  nTime : UInt32
  nBits : UInt32
  nNonce : UInt32
  hashRandomX : Uint256
deriving DecidableEq, Repr

structure CBlockIndex where
  nHeight : Int
  nVersion : Int32
  nTime : UInt32
  nBits : UInt32
  /-- Blocks of the second algorithm since its activation; negative when not computed. -/
  nSecondAlgoCount : Int
deriving DecidableEq, Repr

def BLOCK_VERSION_QHASH : Int32 := 0x40000000

def MAX_FUTURE_BLOCK_TIME : UInt32 := 2 * 60 * 60

structure ASERTAnchor where
  nHeight : Int
  nBits : UInt32
  nPrevBlockTime : Int
deriving DecidableEq, Repr

structure Params where
  powLimit : Uint256
  fPowAllowMinDifficultyBlocks : Bool
  fPowNoRetargeting : Bool
  nPowTargetSpacing : Int
  nPowTargetTimespan : Int
  fPowRandomX : Bool
  nRandomXEpochDuration : UInt32
  nDualAlgoActivationHeight : Int
  nDualAlgoTargetSpacing : Int
  fDualAlgoEtchash : Bool
  nEtchashEpochLength : Int
  nEtchashBigEndianHeight : Int
  nASERTActivationHeight : Int
  nASERTHalfLife : Int
  asertAnchorParams : Option ASERTAnchor
deriving DecidableEq, Repr

inductive POWVerifyMode where
  | POW_VERIFY_FULL
  | POW_VERIFY_COMMITMENT_ONLY
  | POW_VERIFY_MINING
deriving DecidableEq, Repr

inductive PowAlgo where
  | RandomX
  | Etchash
  | QHash
deriving DecidableEq, Repr

open POWVerifyMode

structure PowHashes where
  sha256 : Bytes → Uint256
  /-- The virtual machine of an epoch and `randomx_calculate_hash` on it; `none` when no machine
  can be obtained. -/
  getVM : UInt32 → Option (Bytes → Uint256)
  /-- `randomx_calculate_commitment` -/
  calculateCommitment : Bytes → Uint256 → Uint256
  qHashFromSeed : Uint256 → Uint256
  keccak256 : Bytes → Uint256
  /-- The result of `HashimotoLight` on the cache and the dataset size of an epoch. -/
  hashimotoLight : Nat → Uint256 → UInt64 → Uint256

section Verifiers

variable (hashes : PowHashes)

def serializeHeaderFields (header : CBlockHeader) : Bytes :=
  serInt32 header.nVersion ++ header.hashPrevBlock.bytes ++ header.hashMerkleRoot.bytes ++
    serUint32 header.nTime ++ serUint32 header.nBits ++ serUint32 header.nNonce

/-- `SerializeRandomXHeader`: the canonical bytes, with `hashRandomX` left null. -/
def serializeRandomXHeader (header : CBlockHeader) : Bytes :=
  serializeHeaderFields header ++ Uint256.null.bytes

def sha256d (bytes : Bytes) : Uint256 := hashes.sha256 (hashes.sha256 bytes).bytes

/-- `CBlockHeader::GetHash`: only chains with `fPowRandomX` have the extended header. -/
def getHash (params : Params) (header : CBlockHeader) : Uint256 :=
  sha256d hashes (serializeHeaderFields header ++
    if params.fPowRandomX then header.hashRandomX.bytes else [])

/-- The target of a header, unless it is out of range. -/
def checkedTarget (params : Params) (nBits : UInt32) : Option Nat :=
  let bnTarget := setCompact nBits
  if bnTarget.fNegative ∨ bnTarget.value = 0 ∨ bnTarget.fOverflow ∨
      bnTarget.value > uintToArith256 params.powLimit then none
  else some bnTarget.value

theorem checkedTarget_eq_some {params : Params} {nBits : UInt32} {bnTarget : Nat}
    (h : checkedTarget params nBits = some bnTarget) :
    (setCompact nBits).fNegative = false ∧ (setCompact nBits).fOverflow = false ∧
      0 < (setCompact nBits).value ∧ (setCompact nBits).value ≤ uintToArith256 params.powLimit ∧
      (setCompact nBits).value = bnTarget := by
  unfold checkedTarget at h
  dsimp only at h
  split at h
  · simp at h
  · next hrange =>
    simp only [not_or, Bool.not_eq_true] at hrange
    obtain ⟨hneg, hzero, hover, hlimit⟩ := hrange
    exact ⟨hneg, hover, Nat.pos_of_ne_zero hzero, Nat.le_of_not_gt hlimit, by simpa using h⟩

def checkProofOfWork (hash : Uint256) (nBits : UInt32) (params : Params) : Bool :=
  match checkedTarget params nBits with
  | none => false
  | some bnTarget => uintToArith256 hash ≤ bnTarget

/-! ### RandomX -/

def getEpoch (nTimestamp nDuration : UInt32) : UInt32 :=
  if nDuration = 0 then 0 else nTimestamp / nDuration

def getRandomXCommitment (block : CBlockHeader) (inHash : Option Uint256) : Uint256 :=
  hashes.calculateCommitment (serializeRandomXHeader block) (inHash.getD block.hashRandomX)

/-- The time that selects the epoch; a previous block time of 0 is unknown and does not clamp. -/
def epochTime (block : CBlockHeader) (prevBlockTime : UInt32) : UInt32 :=
  if prevBlockTime ≠ 0 then min block.nTime (prevBlockTime + MAX_FUTURE_BLOCK_TIME)
  else block.nTime

/-- `*outHash = hash`, if the pointer is not null. -/
def setOut (outHash : Option Uint256) (hash : Uint256) : Option Uint256 := outHash.map fun _ => hash

/-- `outHash` is a pointer, `none` the null pointer.  The flags of the sanity check at the end of
the source hold on every path that reaches it. -/
def checkProofOfWorkRandomX (block : CBlockHeader) (params : Params) (verifyMode : POWVerifyMode)
    (outHash : Option Uint256) (prevBlockTime : UInt32) : Except String (Bool × Option Uint256) :=
  if !params.fPowRandomX then
    .ok (checkProofOfWork (getHash hashes params block) block.nBits params, outHash)
  else if block.hashPrevBlock = Uint256.null then .ok (true, setOut outHash block.hashRandomX)
  else
    match checkedTarget params block.nBits with
    | none => .ok (false, outHash)
    | some bnTarget =>
      if outHash = none ∧ verifyMode = POW_VERIFY_MINING then
        .error "mining requires outHash parameter"
      -- the cheaper commitment check comes first
      else if verifyMode ≠ POW_VERIFY_MINING ∧ (block.hashRandomX = Uint256.null ∨
          uintToArith256 (getRandomXCommitment hashes block none) > bnTarget) then
        .ok (false, outHash)
      else if verifyMode = POW_VERIFY_COMMITMENT_ONLY then
        .ok (true, setOut outHash block.hashRandomX)
      else
        let nEpoch := getEpoch (epochTime block prevBlockTime) params.nRandomXEpochDuration
        match hashes.getVM nEpoch with
        | none => .ok (false, outHash)
        | some calculateHash =>
          let rxHash := calculateHash (serializeRandomXHeader block)
          if verifyMode = POW_VERIFY_MINING then
            -- mining reports the hash even when it misses the target
            .ok (uintToArith256 (getRandomXCommitment hashes block (some rxHash)) ≤ bnTarget,
              setOut outHash rxHash)
          else if rxHash ≠ block.hashRandomX then .ok (false, outHash)
          else .ok (true, setOut outHash block.hashRandomX)

/-! ### The legacy second algorithm -/

def qhash (block : CBlockHeader) : Uint256 :=
  hashes.qHashFromSeed (sha256d hashes (serializeRandomXHeader block))

def checkProofOfWorkQHash (block : CBlockHeader) (params : Params) (verifyMode : POWVerifyMode)
    (outHash : Option Uint256) : Bool × Option Uint256 :=
  if block.hashPrevBlock = Uint256.null then (true, setOut outHash block.hashRandomX)
  else
    match checkedTarget params block.nBits with
    | none => (false, outHash)
    | some bnTarget =>
      let result := qhash hashes block
      let outHash := setOut outHash result
      if verifyMode ≠ POW_VERIFY_MINING ∧
          (block.hashRandomX = Uint256.null ∨ result ≠ block.hashRandomX) then (false, outHash)
      else (uintToArith256 result ≤ bnTarget, outHash)

/-! ### Etchash -/

def getEtchashEpoch (nHeight : Int) (params : Params) : Int :=
  if nHeight < 0 ∨ nHeight < params.nDualAlgoActivationHeight then -1
  else (nHeight - params.nDualAlgoActivationHeight).tdiv params.nEtchashEpochLength

def reverseCopy (hash : Uint256) : Uint256 := ⟨hash.bytes.reverse, by simp [hash.size_eq]⟩

/-- A hashimoto result as a number: big-endian from a height on. -/
def etchashValue (nHeight : Int) (params : Params) (result : Uint256) : Nat :=
  if nHeight ≥ params.nEtchashBigEndianHeight then uintToArith256 (reverseCopy result)
  else uintToArith256 result

/-- The hashimoto result of a header in an epoch: the header hash does not depend on the nonce. -/
def etchashResult (block : CBlockHeader) (epoch : Int) : Uint256 :=
  hashes.hashimotoLight epoch.toNat
    (hashes.keccak256 (serializeRandomXHeader { block with nNonce := 0 })) block.nNonce.toUInt64

def checkProofOfWorkEtchash (block : CBlockHeader) (nHeight : Int) (params : Params)
    (verifyMode : POWVerifyMode) (outHash : Option Uint256) : Bool × Option Uint256 :=
  if block.hashPrevBlock = Uint256.null then (true, setOut outHash block.hashRandomX)
  else
    match checkedTarget params block.nBits with
    | none => (false, outHash)
    | some bnTarget =>
      let epoch := getEtchashEpoch nHeight params
      if epoch < 0 then (false, outHash)
      else if verifyMode = POW_VERIFY_COMMITMENT_ONLY then
        -- only the claimed result is compared with the target
        if block.hashRandomX = Uint256.null then (false, outHash)
        else (etchashValue nHeight params block.hashRandomX ≤ bnTarget, outHash)
      else
        let result := etchashResult hashes block epoch
        let outHash := setOut outHash result
        if verifyMode ≠ POW_VERIFY_MINING ∧
            (block.hashRandomX = Uint256.null ∨ result ≠ block.hashRandomX) then (false, outHash)
        else (etchashValue nHeight params result ≤ bnTarget, outHash)

def verify (algo : PowAlgo) (block : CBlockHeader) (nHeight : Int) (params : Params)
    (verifyMode : POWVerifyMode) (outHash : Option Uint256) (prevBlockTime : UInt32) :
    Except String (Bool × Option Uint256) :=
  match algo with
  | .RandomX => checkProofOfWorkRandomX hashes block params verifyMode outHash prevBlockTime
  | .Etchash => .ok (checkProofOfWorkEtchash hashes block nHeight params verifyMode outHash)
  | .QHash => .ok (checkProofOfWorkQHash hashes block params verifyMode outHash)

/-! ### What a proof is -/

/-- The hash a miner computes for a header; the field `hashRandomX` plays no part in it. -/
def computed (algo : PowAlgo) (block : CBlockHeader) (nHeight : Int) (params : Params)
    (prevBlockTime : UInt32) : Option Uint256 :=
  match algo with
  | .RandomX =>
    (hashes.getVM (getEpoch (epochTime block prevBlockTime) params.nRandomXEpochDuration)).map
      fun calculateHash => calculateHash (serializeRandomXHeader block)
  | .Etchash =>
    if getEtchashEpoch nHeight params < 0 then none
    else some (etchashResult hashes block (getEtchashEpoch nHeight params))
  | .QHash => some (qhash hashes block)

/-- The number that is compared with the target. -/
def claimed (algo : PowAlgo) (block : CBlockHeader) (nHeight : Int) (params : Params)
    (hash : Uint256) : Nat :=
  match algo with
  | .RandomX => uintToArith256 (getRandomXCommitment hashes block (some hash))
  | .Etchash => etchashValue nHeight params hash
  | .QHash => uintToArith256 hash

def Meets (algo : PowAlgo) (block : CBlockHeader) (nHeight : Int) (params : Params)
    (hash : Uint256) : Prop :=
  ∃ bnTarget, checkedTarget params block.nBits = some bnTarget ∧
    claimed hashes algo block nHeight params hash ≤ bnTarget

/-- A hash is a proof of work for a header: it is the computed one, and it meets the target. -/
def IsProof (algo : PowAlgo) (block : CBlockHeader) (nHeight : Int) (params : Params)
    (prevBlockTime : UInt32) (hash : Uint256) : Prop :=
  computed hashes algo block nHeight params prevBlockTime = some hash ∧
    Meets hashes algo block nHeight params hash

/-- The field `hashRandomX` is left out of everything a proof depends on. -/
theorem isProof_setHash (algo : PowAlgo) (block : CBlockHeader) (nHeight : Int) (params : Params)
    (prevBlockTime : UInt32) (hash hash' : Uint256) :
    IsProof hashes algo { block with hashRandomX := hash' } nHeight params prevBlockTime hash ↔
      IsProof hashes algo block nHeight params prevBlockTime hash := by
  cases algo <;> rfl

/-- A verifier accepted, whatever it wrote to its output. -/
def Passes (result : Except String (Bool × Option Uint256)) : Prop :=
  ∃ outHash, result = .ok (true, outHash)

variable {hashes} {algo : PowAlgo} {block : CBlockHeader} {nHeight : Int} {params : Params}
  {outHash : Option Uint256} {prevBlockTime : UInt32} {hash : Uint256}

/-- Full verification asks for a proof in the field `hashRandomX`. -/
theorem passes_full_iff (hgenesis : block.hashPrevBlock ≠ Uint256.null)
    (halgo : algo = .RandomX → params.fPowRandomX) :
    Passes (verify hashes algo block nHeight params POW_VERIFY_FULL outHash prevBlockTime) ↔
      block.hashRandomX ≠ Uint256.null ∧
        IsProof hashes algo block nHeight params prevBlockTime block.hashRandomX := by
  unfold Passes IsProof Meets
  cases htarget : checkedTarget params block.nBits with
  | none =>
    cases algo with
    | RandomX => simp [verify, checkProofOfWorkRandomX, halgo rfl, hgenesis, htarget]
    | Etchash => simp [verify, checkProofOfWorkEtchash, hgenesis, htarget]
    | QHash => simp [verify, checkProofOfWorkQHash, hgenesis, htarget]
  | some bnTarget =>
    by_cases hnull : block.hashRandomX = Uint256.null
    · cases algo with
      | RandomX => simp [verify, checkProofOfWorkRandomX, halgo rfl, hgenesis, htarget, hnull]
      | Etchash => simp [verify, checkProofOfWorkEtchash, hgenesis, htarget, hnull, ite_eq_iff]
      | QHash => simp [verify, checkProofOfWorkQHash, hgenesis, htarget, hnull]
    · cases algo with
      | RandomX =>
        cases hvm : hashes.getVM
            (getEpoch (epochTime block prevBlockTime) params.nRandomXEpochDuration) with
        | none =>
          simp [verify, checkProofOfWorkRandomX, halgo rfl, hgenesis, htarget, hnull, computed, hvm]
        | some calculateHash =>
          by_cases hhash : calculateHash (serializeRandomXHeader block) = block.hashRandomX <;>
            simp [verify, checkProofOfWorkRandomX, halgo rfl, hgenesis, htarget, hnull, computed,
              claimed, hvm, hhash, getRandomXCommitment, ite_eq_iff]
      | Etchash =>
        by_cases hepoch : getEtchashEpoch nHeight params < 0
        · simp [verify, checkProofOfWorkEtchash, hgenesis, htarget, computed, hepoch]
        · by_cases hhash :
              etchashResult hashes block (getEtchashEpoch nHeight params) = block.hashRandomX <;>
            simp [verify, checkProofOfWorkEtchash, hgenesis, htarget, hnull, computed, claimed,
              hepoch, hhash]
      | QHash =>
        by_cases hhash : qhash hashes block = block.hashRandomX <;>
          simp [verify, checkProofOfWorkQHash, hgenesis, htarget, hnull, computed, claimed, hhash]

private theorem reported_iff {v : Uint256 → Nat} {bnTarget : Nat} {result : Uint256} :
    (v result ≤ bnTarget ∧ result = hash) ↔ (result = hash ∧ v hash ≤ bnTarget) := by
  constructor
  · rintro ⟨hle, rfl⟩
    exact ⟨rfl, hle⟩
  · rintro ⟨rfl, hle⟩
    exact ⟨hle, rfl⟩

/-- Mining succeeds with a hash exactly when the hash is a proof. -/
theorem mining_iff (hgenesis : block.hashPrevBlock ≠ Uint256.null)
    (halgo : algo = .RandomX → params.fPowRandomX) (init : Uint256) :
    verify hashes algo block nHeight params POW_VERIFY_MINING (some init) prevBlockTime =
        .ok (true, some hash) ↔
      IsProof hashes algo block nHeight params prevBlockTime hash := by
  unfold IsProof Meets
  cases htarget : checkedTarget params block.nBits with
  | none =>
    cases algo with
    | RandomX => simp [verify, checkProofOfWorkRandomX, halgo rfl, hgenesis, htarget]
    | Etchash => simp [verify, checkProofOfWorkEtchash, hgenesis, htarget]
    | QHash => simp [verify, checkProofOfWorkQHash, hgenesis, htarget]
  | some bnTarget =>
    cases algo with
    | RandomX =>
      cases hvm : hashes.getVM
          (getEpoch (epochTime block prevBlockTime) params.nRandomXEpochDuration) with
      | none => simp [verify, checkProofOfWorkRandomX, halgo rfl, hgenesis, htarget, computed, hvm]
      | some calculateHash =>
        simpa [verify, checkProofOfWorkRandomX, halgo rfl, hgenesis, htarget, computed, claimed, hvm,
          setOut] using
          reported_iff (v := fun hash =>
            uintToArith256 (getRandomXCommitment hashes block (some hash)))
    | Etchash =>
      by_cases hepoch : getEtchashEpoch nHeight params < 0
      · simp [verify, checkProofOfWorkEtchash, hgenesis, htarget, computed, hepoch]
      · simpa [verify, checkProofOfWorkEtchash, hgenesis, htarget, computed, claimed, hepoch,
          setOut] using reported_iff (v := etchashValue nHeight params)
    | QHash =>
      simpa [verify, checkProofOfWorkQHash, hgenesis, htarget, computed, claimed, setOut] using
        reported_iff (v := uintToArith256)

/-- The commitment check accepts a header that carries a proof; it needs no previous block time. -/
theorem passes_commitment (hgenesis : block.hashPrevBlock ≠ Uint256.null)
    (halgo : algo = .RandomX → params.fPowRandomX) (hnull : block.hashRandomX ≠ Uint256.null)
    (hproof : IsProof hashes algo block nHeight params prevBlockTime block.hashRandomX)
    (prevBlockTime' : UInt32) :
    Passes (verify hashes algo block nHeight params POW_VERIFY_COMMITMENT_ONLY outHash
      prevBlockTime') := by
  obtain ⟨hcomputed, bnTarget, htarget, hle⟩ := hproof
  cases algo with
  | RandomX =>
    refine ⟨setOut outHash block.hashRandomX, ?_⟩
    have hcommitment : ¬ uintToArith256 (getRandomXCommitment hashes block none) > bnTarget :=
      Nat.not_lt.mpr hle
    simp [verify, checkProofOfWorkRandomX, halgo rfl, hgenesis, htarget, hnull, hcommitment]
  | Etchash =>
    refine ⟨outHash, ?_⟩
    have hepoch : ¬ getEtchashEpoch nHeight params < 0 := by
      intro hneg
      simp [computed, hneg] at hcomputed
    simpa [verify, checkProofOfWorkEtchash, hgenesis, htarget, hnull, hepoch, claimed] using hle
  | QHash =>
    refine ⟨setOut outHash block.hashRandomX, ?_⟩
    have hhash : qhash hashes block = block.hashRandomX := by simpa [computed] using hcomputed
    simpa [verify, checkProofOfWorkQHash, hgenesis, htarget, hnull, hhash, claimed] using hle

end Verifiers

/-! ### Mining and verifying -/

/-- **Mining and verifying agree**: a hash that mining reports makes the header pass both
verifications, and on a header that passes full verification mining finds the hash in its field.
Without RandomX there is no such field. -/
theorem mining_agrees (hashes : PowHashes) (algo : PowAlgo) (params : Params) (H : CBlockHeader)
    (hgenesis : H.hashPrevBlock ≠ Uint256.null) (nHeight : Int) (prevBlockTime : UInt32) :
    (∀ init h, h ≠ Uint256.null →
      verify hashes algo H nHeight params POW_VERIFY_MINING (some init) prevBlockTime =
        .ok (true, some h) →
      ∀ outHash,
        Passes (verify hashes algo { H with hashRandomX := h } nHeight params POW_VERIFY_FULL outHash
          prevBlockTime) ∧
        Passes (verify hashes algo { H with hashRandomX := h } nHeight params
          POW_VERIFY_COMMITMENT_ONLY outHash prevBlockTime)) ∧
    ((params.fPowRandomX = false → H.hashRandomX = Uint256.null) → ∀ outHash,
      Passes (verify hashes algo H nHeight params POW_VERIFY_FULL outHash prevBlockTime) →
      verify hashes algo H nHeight params POW_VERIFY_MINING (some Uint256.null) prevBlockTime =
        .ok (true, some H.hashRandomX)) := by
  by_cases halgo : algo = .RandomX → params.fPowRandomX
  · constructor
    · intro init h hnull hmining outHash
      have hproof := (isProof_setHash hashes algo H nHeight params prevBlockTime h h).mpr
        ((mining_iff hgenesis halgo init).mp hmining)
      have hgenesis' : { H with hashRandomX := h }.hashPrevBlock ≠ Uint256.null := hgenesis
      have hnull' : { H with hashRandomX := h }.hashRandomX ≠ Uint256.null := hnull
      exact ⟨(passes_full_iff hgenesis' halgo).mpr ⟨hnull', hproof⟩,
        passes_commitment hgenesis' halgo hnull' hproof prevBlockTime⟩
    · intro _ outHash hfull
      exact (mining_iff hgenesis halgo _).mpr ((passes_full_iff hgenesis halgo).mp hfull).2
  · -- a legacy chain: every mode compares the hash of the header, which has no RandomX field
    simp only [Classical.not_imp, Bool.not_eq_true] at halgo
    obtain ⟨rfl, hlegacy⟩ := halgo
    have hverify : ∀ (block : CBlockHeader) mode outHash,
        verify hashes .RandomX block nHeight params mode outHash prevBlockTime =
          .ok (checkProofOfWork (getHash hashes params block) block.nBits params, outHash) := by
      intro block mode outHash
      simp [verify, checkProofOfWorkRandomX, hlegacy]
    have hsame : ∀ h, getHash hashes params { H with hashRandomX := h } =
        getHash hashes params H := by
      intro h
      simp [getHash, hlegacy, serializeHeaderFields]
    simp only [hverify, hsame, Except.ok.injEq, Prod.mk.injEq, Passes, Option.some.injEq]
    constructor
    · rintro init h - ⟨hpow, -⟩ outHash
      exact ⟨⟨outHash, hpow, rfl⟩, outHash, hpow, rfl⟩
    · rintro hfield outHash ⟨_, hpow, -⟩
      exact ⟨hpow, (hfield hlegacy).symm⟩

section Sample

def smallHash (n : UInt8) : Uint256 := ⟨n :: List.replicate 31 0, rfl⟩

def sampleHashes : PowHashes where
  sha256 _ := smallHash 1
  getVM _ := some fun _ => smallHash 2
  calculateCommitment _ _ := smallHash 3
  qHashFromSeed _ := smallHash 4
  keccak256 _ := smallHash 5
  hashimotoLight _ _ _ := smallHash 6

def sampleParams : Params where
  powLimit := ⟨List.replicate 32 0xFF, rfl⟩
  fPowAllowMinDifficultyBlocks := false
  fPowNoRetargeting := false
  nPowTargetSpacing := 600
  nPowTargetTimespan := 1209600
  fPowRandomX := true
  nRandomXEpochDuration := 604800
  nDualAlgoActivationHeight := 100
  nDualAlgoTargetSpacing := 600
  fDualAlgoEtchash := true
  nEtchashEpochLength := 30000
  nEtchashBigEndianHeight := 2147483647
  nASERTActivationHeight := 0
  nASERTHalfLife := 172800
  asertAnchorParams := none

def sampleHeader : CBlockHeader where
  nVersion := 0x20000000
  hashPrevBlock := smallHash 9
  hashMerkleRoot := smallHash 8
  nTime := 1700000000
  nBits := 0x207FFFFF
  nNonce := 7
  hashRandomX := Uint256.null

theorem mining_agrees_sampleHeader :
    verify sampleHashes .RandomX sampleHeader 150 sampleParams POW_VERIFY_MINING
        (some Uint256.null) 1699999000 = .ok (true, some (smallHash 2)) ∧
    Passes (verify sampleHashes .RandomX { sampleHeader with hashRandomX := smallHash 2 } 150
      sampleParams POW_VERIFY_FULL none 1699999000) := by
  have hmining : verify sampleHashes .RandomX sampleHeader 150 sampleParams POW_VERIFY_MINING
      (some Uint256.null) 1699999000 = .ok (true, some (smallHash 2)) := by decide +kernel
  exact ⟨hmining, ((mining_agrees sampleHashes .RandomX sampleParams sampleHeader (by decide) 150
    1699999000).1 Uint256.null (smallHash 2) (by decide) hmining none).1⟩

end Sample

end Rcpu.Pow
