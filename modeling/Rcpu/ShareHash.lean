import Rcpu.PowDispatch

/-!
# Hashing a header on request

The RPC `computerandomxhash` (`rpc/mining.cpp`) computes the hash and the commitment of a header for
mining pools.  It selects the algorithm with conditions of its own; where the version bit of the second
algorithm is set below the activation height they differ from those of consensus.
-/

namespace Rcpu.ShareHash

open Transaction Rcpu.Pow PowDispatch
open POWVerifyMode

inductive RPCErrorCode where
  | RPC_VERIFY_ERROR
  | RPC_DESERIALIZATION_ERROR
  | RPC_INVALID_PARAMETER
  | RPC_MISC_ERROR
deriving DecidableEq, Repr

structure JSONRPCError where
  code : RPCErrorCode
  message : String
deriving DecidableEq, Repr

structure ShareResult where
  hash : Uint256
  commitment : Uint256
  block_hash : Uint256
  hash_verified : Bool
deriving DecidableEq, Repr

section Rpc

variable (hashes : PowHashes)

/-- The calls of a peer in the last ten seconds, and whether one more is admitted; times are in
seconds. -/
def admitCall (calls : List Int) (now : Int) : List Int × Bool :=
  let calls := calls.dropWhile fun time => time < now - 10
  if calls.length ≥ 20 then (calls, false) else (calls ++ [now], true)

def hashShare (header : CBlockHeader) (params : Params) (nShareHeight : Int)
    (prevBlockTime : UInt32) : Except String (Bool × Option Uint256) :=
  let fQhashHeader := header.nVersion &&& BLOCK_VERSION_QHASH ≠ 0
  let rx_hash := some Uint256.null
  if fQhashHeader ∧ params.fDualAlgoEtchash ∧ nShareHeight ≥ params.nDualAlgoActivationHeight then
    .ok (checkProofOfWorkEtchash hashes header nShareHeight params POW_VERIFY_MINING rx_hash)
  else if fQhashHeader ∧ !params.fDualAlgoEtchash then
    .ok (checkProofOfWorkQHash hashes header params POW_VERIFY_MINING rx_hash)
  else checkProofOfWorkRandomX hashes header params POW_VERIFY_MINING rx_hash prevBlockTime

/-- The call after the rate limit; a header that does not decode is `none`. -/
def computeShare (params : Params) (lookupBlockIndex : Uint256 → Option CBlockIndex)
    (decoded : Option CBlockHeader) : Except JSONRPCError ShareResult :=
  match decoded with
  | none => .error ⟨.RPC_DESERIALIZATION_ERROR, "Block header decode failed"⟩
  | some header =>
    if !params.fPowRandomX then
      .error ⟨.RPC_INVALID_PARAMETER, "RandomX is not enabled for this chain"⟩
    else if header.hashPrevBlock = Uint256.null then
      .ok ⟨header.hashRandomX, getRandomXCommitment hashes header none, getHash hashes params header,
        true⟩
    else
      let pindexPrev := lookupBlockIndex header.hashPrevBlock
      let prevBlockTime := pindexPrev.elim 0 fun prev => prev.nTime
      let nShareHeight := pindexPrev.elim (-1) fun prev => prev.nHeight + 1
      match hashShare hashes header params nShareHeight prevBlockTime with
      | .error what => .error ⟨.RPC_MISC_ERROR, what⟩
      | .ok (hash_ok, rx_hash) =>
        let rx_hash := rx_hash.getD Uint256.null
        let rx_commitment := if header.nVersion &&& BLOCK_VERSION_QHASH ≠ 0 then rx_hash
          else getRandomXCommitment hashes header (some rx_hash)
        .ok ⟨rx_hash, rx_commitment, getHash hashes params header, hash_ok⟩

/-- The call of a peer, with the times of its calls before and after. -/
def computerandomxhash (params : Params) (lookupBlockIndex : Uint256 → Option CBlockIndex)
    (calls : List Int) (now : Int) (decoded : Option CBlockHeader) :
    Except JSONRPCError ShareResult × List Int :=
  match admitCall calls now with
  | (calls, false) =>
    (.error ⟨.RPC_VERIFY_ERROR, "computerandomxhash: rate limit exceeded, retry later"⟩, calls)
  | (calls, true) => (computeShare hashes params lookupBlockIndex decoded, calls)

/-! ### What consensus does -/

/-- What the target bounds: the commitment for RandomX, the hash for the other algorithms. -/
def consensusCommitment (algo : PowAlgo) (header : CBlockHeader) (hash : Uint256) : Uint256 :=
  match algo with
  | .RandomX => getRandomXCommitment hashes header (some hash)
  | .Etchash | .QHash => hash

/-- The header is evaluated by the algorithm that consensus selects, at the height and with the
previous block time that `CheckBlockHeader` uses. -/
def EvaluatesLike (params : Params) (prev : CBlockIndex) (header : CBlockHeader)
    (result : Except JSONRPCError ShareResult) : Prop :=
  ∃ algo hash_ok hash,
    getPowAlgoForHeader (prev.nHeight + 1) header.nVersion params = some algo ∧
    verify hashes algo header (prev.nHeight + 1) params POW_VERIFY_MINING (some Uint256.null)
      prev.nTime = .ok (hash_ok, some hash) ∧
    result = .ok ⟨hash, consensusCommitment hashes algo header hash, getHash hashes params header,
      hash_ok⟩

end Rpc

section Dispatch

variable {hashes : PowHashes} {params : Params} {prev : CBlockIndex} {header : CBlockHeader}
  {lookupBlockIndex : Uint256 → Option CBlockIndex}

/-- A verifier that is given a place for the hash leaves the computed hash there, or nothing. -/
theorem exists_verify_mining (hrx : params.fPowRandomX)
    (hgenesis : header.hashPrevBlock ≠ Uint256.null) (algo : PowAlgo) (nHeight : Int)
    (prevBlockTime : UInt32) (hash : Uint256) :
    ∃ hash_ok hash', verify hashes algo header nHeight params POW_VERIFY_MINING (some hash)
        prevBlockTime = .ok (hash_ok, some hash') ∧
      (hash' = hash ∨ computed hashes algo header nHeight params prevBlockTime = some hash') := by
  have hmining : ∀ {P : Prop}, ¬ (POW_VERIFY_MINING ≠ POW_VERIFY_MINING ∧ P) := fun h => h.1 rfl
  have hcommitment : ¬ POW_VERIFY_MINING = POW_VERIFY_COMMITMENT_ONLY := by decide
  cases algo with
  | RandomX =>
    unfold verify checkProofOfWorkRandomX computed
    dsimp only
    rw [if_neg (by simp [hrx]), if_neg hgenesis]
    cases checkedTarget params header.nBits with
    | none => exact ⟨_, _, rfl, .inl rfl⟩
    | some bnTarget =>
      dsimp only
      rw [if_neg (by simp), if_neg hmining, if_neg hcommitment]
      cases hashes.getVM (getEpoch (epochTime header prevBlockTime) params.nRandomXEpochDuration) with
      | none => exact ⟨_, _, rfl, .inl rfl⟩
      | some calculateHash => exact ⟨_, _, rfl, .inr rfl⟩
  | Etchash =>
    unfold verify checkProofOfWorkEtchash computed
    dsimp only
    rw [if_neg hgenesis]
    cases checkedTarget params header.nBits with
    | none => exact ⟨_, _, rfl, .inl rfl⟩
    | some bnTarget =>
      dsimp only
      rw [if_neg hcommitment, if_neg hmining]
      split_ifs
      · exact ⟨_, _, rfl, .inl rfl⟩
      · exact ⟨_, _, rfl, .inr rfl⟩
  | QHash =>
    unfold verify checkProofOfWorkQHash computed
    dsimp only
    rw [if_neg hgenesis]
    cases checkedTarget params header.nBits with
    | none => exact ⟨_, _, rfl, .inl rfl⟩
    | some bnTarget =>
      dsimp only
      rw [if_neg hmining]
      exact ⟨_, _, rfl, .inr rfl⟩

theorem computeShare_eq (hrx : params.fPowRandomX) (hgenesis : header.hashPrevBlock ≠ Uint256.null)
    (hprev : lookupBlockIndex header.hashPrevBlock = some prev) {hash_ok : Bool} {hash : Uint256}
    (hshare : hashShare hashes header params (prev.nHeight + 1) prev.nTime = .ok (hash_ok, some hash)) :
    computeShare hashes params lookupBlockIndex (some header) =
      .ok ⟨hash, if header.nVersion &&& BLOCK_VERSION_QHASH ≠ 0 then hash
        else getRandomXCommitment hashes header (some hash), getHash hashes params header, hash_ok⟩ := by
  unfold computeShare
  dsimp only
  rw [if_neg (by simp [hrx]), if_neg hgenesis, hprev]
  dsimp only [Option.elim]
  rw [hshare]
  rfl

/-- Where the bit is clear, or the second algorithm is active, the dispatch is that of consensus. -/
theorem evaluatesLike_of (hrx : params.fPowRandomX) (hheight : 0 ≤ prev.nHeight)
    (hgenesis : header.hashPrevBlock ≠ Uint256.null)
    (hprev : lookupBlockIndex header.hashPrevBlock = some prev)
    (h : header.nVersion &&& BLOCK_VERSION_QHASH = 0 ∨
      params.nDualAlgoActivationHeight ≤ prev.nHeight + 1) :
    EvaluatesLike hashes params prev header
      (computeShare hashes params lookupBlockIndex (some header)) := by
  by_cases hbit : header.nVersion &&& BLOCK_VERSION_QHASH = 0
  · obtain ⟨hash_ok, hash, hverify, -⟩ := @exists_verify_mining hashes params header hrx hgenesis
      .RandomX (prev.nHeight + 1) prev.nTime Uint256.null
    have hshare : hashShare hashes header params (prev.nHeight + 1) prev.nTime =
        .ok (hash_ok, some hash) := by
      unfold hashShare
      dsimp only
      rw [if_neg fun hcond => hcond.1 hbit, if_neg fun hcond => hcond.1 hbit]
      exact hverify
    refine ⟨.RandomX, hash_ok, hash, if_pos hbit, hverify, ?_⟩
    rw [computeShare_eq hrx hgenesis hprev hshare, if_neg (not_not.mpr hbit)]
    rfl
  · have hactive := h.resolve_left hbit
    have hnext : ¬ prev.nHeight + 1 < 0 := by omega
    cases hetchash : params.fDualAlgoEtchash with
    | true =>
      obtain ⟨hash_ok, hash, hverify, -⟩ := @exists_verify_mining hashes params header hrx hgenesis
        .Etchash (prev.nHeight + 1) prev.nTime Uint256.null
      have hshare : hashShare hashes header params (prev.nHeight + 1) prev.nTime =
          .ok (hash_ok, some hash) := by
        unfold hashShare
        dsimp only
        rw [if_pos ⟨hbit, hetchash, hactive⟩]
        exact hverify
      refine ⟨.Etchash, hash_ok, hash, ?_, hverify, ?_⟩
      · unfold getPowAlgoForHeader
        rw [if_neg hbit, if_neg hnext, if_neg (not_lt.mpr hactive), hetchash]
        rfl
      · rw [computeShare_eq hrx hgenesis hprev hshare, if_pos hbit]
        rfl
    | false =>
      obtain ⟨hash_ok, hash, hverify, -⟩ := @exists_verify_mining hashes params header hrx hgenesis
        .QHash (prev.nHeight + 1) prev.nTime Uint256.null
      have hshare : hashShare hashes header params (prev.nHeight + 1) prev.nTime =
          .ok (hash_ok, some hash) := by
        unfold hashShare
        dsimp only
        rw [if_neg (by simp [hetchash]), if_pos ⟨hbit, by simp [hetchash]⟩]
        exact hverify
      refine ⟨.QHash, hash_ok, hash, ?_, hverify, ?_⟩
      · unfold getPowAlgoForHeader
        rw [if_neg hbit, if_neg hnext, if_neg (not_lt.mpr hactive), hetchash]
        rfl
      · rw [computeShare_eq hrx hgenesis hprev hshare, if_pos hbit]
        rfl

/-- With hash functions whose results are never commitments the difference shows. -/
theorem not_evaluatesLike (hrx : params.fPowRandomX) (hheight : 0 ≤ prev.nHeight)
    (hgenesis : header.hashPrevBlock ≠ Uint256.null)
    (hprev : lookupBlockIndex header.hashPrevBlock = some prev)
    (hbit : header.nVersion &&& BLOCK_VERSION_QHASH ≠ 0)
    (hbelow : prev.nHeight + 1 < params.nDualAlgoActivationHeight) :
    ¬ EvaluatesLike sampleHashes params prev header
      (computeShare sampleHashes params lookupBlockIndex (some header)) := by
  rintro ⟨algo, hash_ok, hash, halgo, hverify, hresult⟩
  have hrandomX : algo = .RandomX := by
    unfold getPowAlgoForHeader at halgo
    rw [if_neg hbit, if_neg (by omega), if_pos hbelow] at halgo
    exact (Option.some.inj halgo).symm
  subst hrandomX
  -- the verifier that was run, and a hash of it that is no commitment
  obtain ⟨run, hshare, hrun⟩ : ∃ run, hashShare sampleHashes header params (prev.nHeight + 1)
      prev.nTime = verify sampleHashes run header (prev.nHeight + 1) params POW_VERIFY_MINING
        (some Uint256.null) prev.nTime ∧ run ≠ .Etchash := by
    unfold hashShare
    dsimp only
    rw [if_neg fun hcond => absurd hcond.2.2 (not_le.mpr hbelow)]
    split_ifs
    · exact ⟨.QHash, rfl, by decide⟩
    · exact ⟨.RandomX, rfl, by decide⟩
  obtain ⟨found_ok, found, hfound, hwhich⟩ := @exists_verify_mining sampleHashes params header hrx
    hgenesis run (prev.nHeight + 1) prev.nTime Uint256.null
  rw [computeShare_eq hrx hgenesis hprev (hshare.trans hfound), if_pos hbit] at hresult
  have hcommitment : found = smallHash 3 := congrArg ShareResult.commitment (Except.ok.inj hresult)
  rcases hwhich with hnull | hcomputed
  · exact absurd (hnull.symm.trans hcommitment) (by decide)
  · cases run with
    | RandomX =>
      have hhash : smallHash 2 = found := Option.some.inj hcomputed
      exact absurd (hhash.trans hcommitment) (by decide)
    | Etchash => exact hrun rfl
    | QHash =>
      have hhash : smallHash 4 = found := Option.some.inj hcomputed
      exact absurd (hhash.trans hcommitment) (by decide)

/-- **Where the RPC evaluates a header as consensus does**: if the version bit of the second
algorithm is clear or that algorithm is active at the height. -/
theorem computerandomxhash_agrees_iff (hrx : params.fPowRandomX) (hheight : 0 ≤ prev.nHeight)
    (hgenesis : header.hashPrevBlock ≠ Uint256.null)
    (hprev : lookupBlockIndex header.hashPrevBlock = some prev) {calls : List Int} {now : Int}
    (hcalls : (admitCall calls now).2 = true) :
    (∀ hashes, EvaluatesLike hashes params prev header
      (computerandomxhash hashes params lookupBlockIndex calls now (some header)).1) ↔
    header.nVersion &&& BLOCK_VERSION_QHASH = 0 ∨
      params.nDualAlgoActivationHeight ≤ prev.nHeight + 1 := by
  have hshare : ∀ hashes, (computerandomxhash hashes params lookupBlockIndex calls now (some header)).1 =
      computeShare hashes params lookupBlockIndex (some header) := by
    intro hashes
    unfold computerandomxhash
    split
    · next heq =>
      rw [heq] at hcalls
      cases hcalls
    · rfl
  simp only [hshare]
  constructor
  · intro hagrees
    by_contra hcond
    push Not at hcond
    exact not_evaluatesLike hrx hheight hgenesis hprev hcond.1 hcond.2 (hagrees sampleHashes)
  · intro hcond hashes
    exact evaluatesLike_of hrx hheight hgenesis hprev hcond

end Dispatch

/-! ### Sample headers -/

def sampleIndex (nHeight : Int) (_ : Uint256) : Option CBlockIndex := some (sampleParent nHeight)

/-- A header of the second algorithm after its activation. -/
theorem computerandomxhash_agrees_provedHeader :
    getPowAlgoForHeader 150 provedHeader.nVersion sampleParams = some .Etchash ∧
    ∀ hashes, EvaluatesLike hashes sampleParams (sampleParent 149) provedHeader
      (computerandomxhash hashes sampleParams (sampleIndex 149) [] 0 (some provedHeader)).1 :=
  ⟨by decide, (computerandomxhash_agrees_iff rfl (by decide) (by decide) rfl (by decide)).mpr
    (.inr (by decide))⟩

/-- Below activation consensus ignores the version bit.  With Etchash the right hash is returned as
the commitment; without it the wrong algorithm is run. -/
theorem computerandomxhash_below_activation :
    (getPowAlgoForHeader 50 provedHeader.nVersion sampleParams = some .RandomX ∧
      (computerandomxhash sampleHashes sampleParams (sampleIndex 49) [] 0 (some provedHeader)).1.map
        ShareResult.commitment = .ok (smallHash 2) ∧
      getRandomXCommitment sampleHashes provedHeader (some (smallHash 2)) = smallHash 3) ∧
    (getPowAlgoForHeader 50 provedHeader.nVersion { sampleParams with fDualAlgoEtchash := false } =
        some .RandomX ∧
      (computerandomxhash sampleHashes { sampleParams with fDualAlgoEtchash := false } (sampleIndex 49)
        [] 0 (some provedHeader)).1.map ShareResult.hash = .ok (qhash sampleHashes provedHeader) ∧
      computed sampleHashes .RandomX provedHeader 50 sampleParams 1699999000 = some (smallHash 2) ∧
      qhash sampleHashes provedHeader = smallHash 4) := by
  decide +kernel

end Rcpu.ShareHash
