import Rcpu.Difficulty
import Rcpu.HashChain

/-!
# Headers synchronisation

`headerssync.cpp`: the headers of a peer are downloaded twice.  In the first phase their work is added
up and one bit is kept of every `HEADER_COMMITMENT_PERIOD`-th header; when the work suffices they are
downloaded again, compared with the bits and released from a buffer once enough headers are on top of
them, or once the work has been reached again.

Heights are those of blocks, natural numbers here.  The divisors in `PermittedDifficultyTransition` are
parameters of the chain and not zero.
-/

namespace Rcpu.HeadersSync

open ArithUint256 Transaction Rcpu.Pow Difficulty HashChain

def HEADER_COMMITMENT_PERIOD : Nat := 606

def REDOWNLOAD_BUFFER_SIZE : Nat := 14441

/-! ### Work and difficulty -/

/-- `GetBlockProof`: `2 ^ 256 / (bnTarget + 1)`, computed with 256 bits. -/
def getBlockProof (nBits : UInt32) : Nat :=
  let bnTarget := setCompact nBits
  if bnTarget.fNegative ∨ bnTarget.fOverflow ∨ bnTarget.value = 0 then 0
  else (2 ^ 256 - 1 - bnTarget.value) / (bnTarget.value + 1) + 1

def permittedDifficultyTransition (params : Params) (height : Int) (oldNBits newNBits : UInt32) :
    Bool :=
  if params.fPowAllowMinDifficultyBlocks then true
  -- every block has a target of its own
  else if params.asertAnchorParams.isSome ∧ height ≥ params.nASERTActivationHeight then true
  else if height.tmod (difficultyAdjustmentInterval params) = 0 then
    let smallestTimespan := params.nPowTargetTimespan.tdiv 4
    let largestTimespan := params.nPowTargetTimespan * 4
    let powLimit := uintToArith256 params.powLimit
    let observedNewTarget := (setCompact newNBits).value
    let divisor := (params.nPowTargetTimespan % 2 ^ 64).toNat
    let tmp := (setCompact oldNBits).value * (largestTimespan % 2 ^ 32).toNat % 2 ^ 512 / divisor
    let largestDifficultyTarget := if tmp > powLimit then powLimit else tmp % 2 ^ 256
    let maximumNewTarget := (setCompact (getCompact largestDifficultyTarget)).value
    let smallest := (setCompact oldNBits).value * (smallestTimespan % 2 ^ 32).toNat % 2 ^ 256 / divisor
    let smallestDifficultyTarget := if smallest > powLimit then powLimit else smallest
    let minimumNewTarget := (setCompact (getCompact smallestDifficultyTarget)).value
    if maximumNewTarget < observedNewTarget then false
    else if minimumNewTarget > observedNewTarget then false
    else true
  else if oldNBits ≠ newNBits then false
  else true

/-! ### The state of a sync -/

structure CompressedHeader where
  nVersion : Int32
  hashMerkleRoot : Uint256
  nTime : UInt32
  nBits : UInt32
  nNonce : UInt32
  hashRandomX : Uint256
deriving DecidableEq, Repr

def CompressedHeader.ofHeader (header : CBlockHeader) : CompressedHeader where
  nVersion := header.nVersion
  hashMerkleRoot := header.hashMerkleRoot
  nTime := header.nTime
  nBits := header.nBits
  nNonce := header.nNonce
  hashRandomX := header.hashRandomX

def CompressedHeader.getFullHeader (c : CompressedHeader) (hashPrevBlock : Uint256) : CBlockHeader where
  nVersion := c.nVersion
  hashPrevBlock := hashPrevBlock
  hashMerkleRoot := c.hashMerkleRoot
  nTime := c.nTime
  nBits := c.nBits
  nNonce := c.nNonce
  hashRandomX := c.hashRandomX

/-- The index entry a sync starts from.  It is stored under the hash of its header. -/
structure ChainStart (hashes : PowHashes) (params : Params) where
  nHeight : Nat
  nChainWork : Nat
  header : CBlockHeader
  blockHash : Uint256
  blockHash_eq : blockHash = getHash hashes params header

structure Sync where
  hashes : PowHashes
  m_consensus_params : Params
  m_chain_start : ChainStart hashes m_consensus_params
  m_minimum_required_work : Nat
  m_commit_offset : Fin HEADER_COMMITMENT_PERIOD
  m_hasher : Uint256 → UInt64
  m_max_commitments : Nat

inductive State where
  | PRESYNC
  | REDOWNLOAD
  | FINAL
deriving DecidableEq, Repr

structure HeadersSyncState where
  m_current_chain_work : Nat
  m_header_commitments : List Bool
  m_last_header_received : CBlockHeader
  m_current_height : Nat
  m_redownloaded_headers : List CompressedHeader
  m_redownload_buffer_last_height : Nat
  m_redownload_buffer_last_hash : Uint256
  m_redownload_buffer_first_prev_hash : Uint256
  m_redownload_chain_work : Nat
  m_process_all_remaining_headers : Bool
  m_download_state : State
deriving DecidableEq, Repr

structure ProcessingResult where
  pow_validated_headers : List CBlockHeader := []
  success : Bool := false
  request_more : Bool := false
deriving DecidableEq, Repr

/-- `CBlockHeader::SetNull` -/
def nullHeader : CBlockHeader := ⟨0, Uint256.null, Uint256.null, 0, 0, 0, Uint256.null⟩

namespace HeadersSyncState

def finalize (s : HeadersSyncState) : HeadersSyncState :=
  { s with
    m_header_commitments := []
    m_last_header_received := nullHeader
    m_redownloaded_headers := []
    m_redownload_buffer_last_hash := Uint256.null
    m_redownload_buffer_first_prev_hash := Uint256.null
    m_process_all_remaining_headers := false
    m_current_height := 0
    m_download_state := .FINAL }

end HeadersSyncState

section Sync

variable (sync : Sync)

/-- The constructor of `HeadersSyncState`. -/
def Sync.new : HeadersSyncState where
  m_current_chain_work := sync.m_chain_start.nChainWork
  m_header_commitments := []
  m_last_header_received := sync.m_chain_start.header
  m_current_height := sync.m_chain_start.nHeight
  m_redownloaded_headers := []
  m_redownload_buffer_last_height := 0
  m_redownload_buffer_last_hash := Uint256.null
  m_redownload_buffer_first_prev_hash := Uint256.null
  m_redownload_chain_work := 0
  m_process_all_remaining_headers := false
  m_download_state := .PRESYNC

def Sync.hash (header : CBlockHeader) : Uint256 := getHash sync.hashes sync.m_consensus_params header

/-- The bit that is kept of a header. -/
def Sync.commitment (header : CBlockHeader) : Bool := sync.m_hasher (sync.hash header) &&& 1 ≠ 0

def Sync.IsCommitmentHeight (height : Nat) : Prop :=
  height % HEADER_COMMITMENT_PERIOD = sync.m_commit_offset

instance : DecidablePred sync.IsCommitmentHeight := fun height =>
  inferInstanceAs (Decidable (height % HEADER_COMMITMENT_PERIOD = sync.m_commit_offset))

/-! ### The first phase -/

/-- The state after a header, with the commitments so far. -/
def processHeader (s : HeadersSyncState) (current : CBlockHeader) (commitments : List Bool) :
    HeadersSyncState :=
  { s with
    m_header_commitments := commitments
    m_current_chain_work := (s.m_current_chain_work + getBlockProof current.nBits) % 2 ^ 256
    m_last_header_received := current
    m_current_height := s.m_current_height + 1 }

def validateAndProcessSingleHeader (s : HeadersSyncState) (current : CBlockHeader) :
    HeadersSyncState × Bool :=
  if s.m_download_state ≠ .PRESYNC then (s, false)
  else
    let nextHeight := s.m_current_height + 1
    if !permittedDifficultyTransition sync.m_consensus_params nextHeight
        s.m_last_header_received.nBits current.nBits then (s, false)
    else
      let commitments := if sync.IsCommitmentHeight nextHeight then
        s.m_header_commitments ++ [sync.commitment current] else s.m_header_commitments
      -- a chain that no honest peer can have yet
      if sync.IsCommitmentHeight nextHeight ∧ commitments.length > sync.m_max_commitments then
        ({ s with m_header_commitments := commitments }, false)
      else (processHeader s current commitments, true)

def beginRedownload (s : HeadersSyncState) : HeadersSyncState :=
  { s with
    m_redownloaded_headers := []
    m_redownload_buffer_last_height := sync.m_chain_start.nHeight
    m_redownload_buffer_first_prev_hash := sync.m_chain_start.blockHash
    m_redownload_buffer_last_hash := sync.m_chain_start.blockHash
    m_redownload_chain_work := sync.m_chain_start.nChainWork
    m_download_state := .REDOWNLOAD }

def validateAndStoreHeadersCommitments (s : HeadersSyncState) (headers : List CBlockHeader) :
    HeadersSyncState × Bool :=
  match headers with
  | [] => (s, true)
  | first :: _ =>
    if s.m_download_state ≠ .PRESYNC then (s, false)
    else if first.hashPrevBlock ≠ sync.hash s.m_last_header_received then (s, false)
    else
      match feed (validateAndProcessSingleHeader sync) s headers with
      | (s, false) => (s, false)
      | (s, true) =>
        if s.m_current_chain_work ≥ sync.m_minimum_required_work then (beginRedownload sync s, true)
        else (s, true)

/-! ### The second phase -/

/-- Where the next header goes, with the commitments that are left. -/
def storeHeader (s : HeadersSyncState) (header : CBlockHeader) (commitments : List Bool) :
    HeadersSyncState :=
  { s with
    m_header_commitments := commitments
    m_redownloaded_headers := s.m_redownloaded_headers ++ [.ofHeader header]
    m_redownload_buffer_last_height := s.m_redownload_buffer_last_height + 1
    m_redownload_buffer_last_hash := sync.hash header }

def previousNBits (s : HeadersSyncState) : UInt32 :=
  match s.m_redownloaded_headers.getLast? with
  | some back => back.nBits
  | none => sync.m_chain_start.header.nBits

def validateAndStoreRedownloadedHeader (s : HeadersSyncState) (header : CBlockHeader) :
    HeadersSyncState × Bool :=
  if s.m_download_state ≠ .REDOWNLOAD then (s, false)
  else
    let nextHeight := s.m_redownload_buffer_last_height + 1
    if header.hashPrevBlock ≠ s.m_redownload_buffer_last_hash then (s, false)
    else if !permittedDifficultyTransition sync.m_consensus_params nextHeight
        (previousNBits sync s) header.nBits then (s, false)
    else
      let work := (s.m_redownload_chain_work + getBlockProof header.nBits) % 2 ^ 256
      let s := { s with
        m_redownload_chain_work := work
        m_process_all_remaining_headers := s.m_process_all_remaining_headers ||
          decide (work ≥ sync.m_minimum_required_work) }
      -- the peer may have extended its chain since, so that there is nothing to compare with any more
      if s.m_process_all_remaining_headers = false ∧ sync.IsCommitmentHeight nextHeight then
        match s.m_header_commitments with
        | [] => (s, false)
        | expected :: rest =>
          if sync.commitment header ≠ expected then ({ s with m_header_commitments := rest }, false)
          else (storeHeader sync s header rest, true)
      else (storeHeader sync s header s.m_header_commitments, true)

/-- The loop of `PopHeadersReadyForAcceptance`: the full headers, what stays in the buffer, and the
hash that its first header follows. -/
def popHeaders (processAll : Bool) :
    List CompressedHeader → Uint256 → List CBlockHeader × List CompressedHeader × Uint256
  | [], firstPrevHash => ([], [], firstPrevHash)
  | front :: rest, firstPrevHash =>
    if (front :: rest).length > REDOWNLOAD_BUFFER_SIZE ∨ processAll then
      let header := front.getFullHeader firstPrevHash
      let (ret, left, prev) := popHeaders processAll rest (sync.hash header)
      (header :: ret, left, prev)
    else ([], front :: rest, firstPrevHash)

def popHeadersReadyForAcceptance (s : HeadersSyncState) : HeadersSyncState × List CBlockHeader :=
  if s.m_download_state ≠ .REDOWNLOAD then (s, [])
  else
    let (ret, left, prev) := popHeaders sync s.m_process_all_remaining_headers
      s.m_redownloaded_headers s.m_redownload_buffer_first_prev_hash
    ({ s with m_redownloaded_headers := left, m_redownload_buffer_first_prev_hash := prev }, ret)

/-! ### Messages -/

def processPresync (s : HeadersSyncState) (receivedHeaders : List CBlockHeader)
    (fullHeadersMessage : Bool) : HeadersSyncState × ProcessingResult :=
  match validateAndStoreHeadersCommitments sync s receivedHeaders with
  | (s, false) => (s, {})
  | (s, true) =>
    (s, { success := true
          request_more := fullHeadersMessage || s.m_download_state = .REDOWNLOAD })

def processRedownload (s : HeadersSyncState) (receivedHeaders : List CBlockHeader)
    (fullHeadersMessage : Bool) : HeadersSyncState × ProcessingResult :=
  match feed (validateAndStoreRedownloadedHeader sync) s receivedHeaders with
  | (s, false) => (s, {})
  | (s, true) =>
    let (s, ret) := popHeadersReadyForAcceptance sync s
    (s, { pow_validated_headers := ret
          success := true
          request_more := !(s.m_redownloaded_headers.isEmpty && s.m_process_all_remaining_headers) &&
            fullHeadersMessage })

def processNextHeaders (s : HeadersSyncState) (receivedHeaders : List CBlockHeader)
    (fullHeadersMessage : Bool) : HeadersSyncState × ProcessingResult :=
  if receivedHeaders = [] then (s, {})
  else if s.m_download_state = .FINAL then (s, {})
  else
    let (s, ret) := match s.m_download_state with
      | .PRESYNC => processPresync sync s receivedHeaders fullHeadersMessage
      | .REDOWNLOAD => processRedownload sync s receivedHeaders fullHeadersMessage
      | .FINAL => (s, {})
    (if ret.success ∧ ret.request_more then s else s.finalize, ret)

end Sync

end Rcpu.HeadersSync
