import Rcpu.Pow
import Rcpu.Validation

/-!
# Where proof of work is checked

`CheckBlockHeader` decides about a header, its parent being known.  Before and after that the code
looks at the proof of work in four more places, each with its own choice of algorithm and of mode:
`CheckBlock`, which may not know the height, `HasValidProofOfWork` on a batch of headers,
`LoadBlockIndexGuts` at startup and `ReadBlockFromDisk`.
-/

namespace Rcpu.PowDispatch

open Transaction ArithUint256 Rcpu.Pow
open POWVerifyMode

open Rcpu.Validation (BlockFailure)

section Dispatch

variable (hashes : PowHashes)

/-- The algorithm of a header, if it can be told: below activation the version bit is ignored. -/
def getPowAlgoForHeader (nHeight : Int) (nVersion : Int32) (params : Params) : Option PowAlgo :=
  if nVersion &&& BLOCK_VERSION_QHASH = 0 then some .RandomX
  else if nHeight < 0 then none
  else if nHeight < params.nDualAlgoActivationHeight then some .RandomX
  else some (if params.fDualAlgoEtchash then .Etchash else .QHash)

def verdict (result : Except String (Bool × Option Uint256)) : Except String Bool :=
  result.map Prod.fst

def requirePow (verdict : Except String Bool) : Except BlockFailure Unit :=
  match verdict with
  | .error what => .error (.exception what)
  | .ok true => .ok ()
  | .ok false => .error (.invalid ⟨.BLOCK_INVALID_HEADER, "high-hash", "proof of work failed"⟩)

def checkBlockHeader (block : CBlockHeader) (params : Params) (fCheckPOW : Bool)
    (pindexPrev : Option CBlockIndex) : Except BlockFailure Unit :=
  if !fCheckPOW then .ok ()
  else
    let nHeight := pindexPrev.elim (-1) fun prev => prev.nHeight + 1
    let prevBlockTime := pindexPrev.elim 0 fun prev => prev.nTime
    match getPowAlgoForHeader nHeight block.nVersion params with
    | some .Etchash => requirePow
        (verdict (verify hashes .Etchash block nHeight params POW_VERIFY_FULL none prevBlockTime))
    | some .QHash => requirePow
        (verdict (verify hashes .QHash block nHeight params POW_VERIFY_FULL none prevBlockTime))
    -- an unknown height keeps the RandomX verdict
    | some .RandomX | none => requirePow
        (verdict (verify hashes .RandomX block nHeight params POW_VERIFY_FULL none prevBlockTime))

/-- The proof-of-work stage of `CheckBlock`; `g_isRandomX` mirrors `fPowRandomX`. -/
def checkBlockPow (block : CBlockHeader) (params : Params) (fCheckPOW : Bool) (nHeight : Int) :
    Except BlockFailure Unit :=
  let commitment (algo : PowAlgo) : Except String Bool :=
    verdict (verify hashes algo block nHeight params POW_VERIFY_COMMITMENT_ONLY none 0)
  if params.fPowRandomX then
    if !fCheckPOW then .ok ()
    else if block.nVersion &&& BLOCK_VERSION_QHASH ≠ 0 then
      match getPowAlgoForHeader nHeight block.nVersion params with
      | some .Etchash => requirePow (commitment .Etchash)
      | some .QHash => requirePow (commitment .QHash)
      | none =>
        -- Etchash needs the height: its verdict is deferred; else either proof will do
        if params.fDualAlgoEtchash then .ok ()
        else if commitment .QHash = .ok true then .ok ()
        else requirePow (commitment .RandomX)
      | some .RandomX => requirePow (commitment .RandomX)
    else requirePow (commitment .RandomX)
  else checkBlockHeader hashes block params fCheckPOW none

/-- The check of one header in `HasValidProofOfWork`. -/
def headerHasValidPow (header : CBlockHeader) (params : Params) (nHeight : Int) :
    Except String Bool :=
  match getPowAlgoForHeader nHeight header.nVersion params with
  | none => .ok true
  -- the claim of an Etchash header costs nothing to forge, so it is verified in full
  | some .Etchash => verdict (verify hashes .Etchash header nHeight params POW_VERIFY_FULL none 0)
  | some .QHash =>
    verdict (verify hashes .QHash header nHeight params POW_VERIFY_COMMITMENT_ONLY none 0)
  | some .RandomX =>
    verdict (verify hashes .RandomX header nHeight params POW_VERIFY_COMMITMENT_ONLY none 0)

def hasValidProofOfWork (params : Params) : List CBlockHeader → Int → Except String Bool
  | [], _ => .ok true
  | header :: headers, nHeight => do
    if ← headerHasValidPow hashes header params nHeight then
      hasValidProofOfWork params headers (if nHeight ≥ 0 then nHeight + 1 else nHeight)
    else return false

/-- The check of an index entry in `LoadBlockIndexGuts`. -/
def loadedPowOk (hdr : CBlockHeader) (nHeight : Int) (params : Params) : Except String Bool :=
  match (getPowAlgoForHeader nHeight hdr.nVersion params).getD .RandomX with
  | .Etchash =>
    let bnTarget := setCompact hdr.nBits
    let resultForTarget := if nHeight ≥ params.nEtchashBigEndianHeight then
      reverseCopy hdr.hashRandomX else hdr.hashRandomX
    .ok (!bnTarget.fNegative ∧ !bnTarget.fOverflow ∧ bnTarget.value > 0 ∧
      bnTarget.value ≤ uintToArith256 params.powLimit ∧ hdr.hashRandomX ≠ Uint256.null ∧
      uintToArith256 resultForTarget ≤ bnTarget.value)
  | .QHash => verdict (verify hashes .QHash hdr nHeight params POW_VERIFY_COMMITMENT_ONLY none 0)
  | .RandomX =>
    verdict (verify hashes .RandomX hdr nHeight params POW_VERIFY_COMMITMENT_ONLY none 0)

/-- The check of the header in `ReadBlockFromDisk`, given the index entry of its parent. -/
def readPowOk (hdr : CBlockHeader) (pindexPrev : Option CBlockIndex) (params : Params) :
    Except String Bool :=
  let nHeight := pindexPrev.elim (-1) fun prev => prev.nHeight + 1
  match getPowAlgoForHeader nHeight hdr.nVersion params with
  | none => .ok true
  | some algo => verdict (verify hashes algo hdr nHeight params POW_VERIFY_COMMITMENT_ONLY none 0)

/-! ### What an accepted header carries -/

variable {hashes} {params : Params} {block : CBlockHeader} {prev : CBlockIndex} {nHeight : Int}
  {algo : PowAlgo}

theorem verdict_eq_true {result : Except String (Bool × Option Uint256)} :
    verdict result = .ok true ↔ Passes result := by
  cases result with
  | error what => simp [verdict, Passes, Except.map]
  | ok pair =>
    obtain ⟨ok, outHash⟩ := pair
    simp [verdict, Passes, Except.map]

@[simp] theorem requirePow_eq_ok {result : Except String Bool} :
    requirePow result = .ok () ↔ result = .ok true := by
  unfold requirePow
  split <;> simp

theorem exists_algo (params : Params) (nVersion : Int32) (h : 0 ≤ nHeight) :
    ∃ algo, getPowAlgoForHeader nHeight nVersion params = some algo := by
  unfold getPowAlgoForHeader
  rw [if_neg (not_lt.mpr h)]
  split_ifs <;> exact ⟨_, rfl⟩

theorem verify_height (hashes : PowHashes) (block : CBlockHeader) (params : Params)
    (mode : POWVerifyMode) (nHeight nHeight' : Int) (h : algo ≠ .Etchash) :
    verify hashes algo block nHeight params mode none 0 =
      verify hashes algo block nHeight' params mode none 0 := by
  cases algo with
  | RandomX => rfl
  | Etchash => exact absurd rfl h
  | QHash => rfl

/-- An accepted header holds a proof of the algorithm its height and version select. -/
structure Proved (hashes : PowHashes) (params : Params) (block : CBlockHeader) (nHeight : Int)
    (prevBlockTime : UInt32) (algo : PowAlgo) : Prop where
  algo_eq : getPowAlgoForHeader nHeight block.nVersion params = some algo
  ne_null : block.hashRandomX ≠ Uint256.null
  proof : IsProof hashes algo block nHeight params prevBlockTime block.hashRandomX

theorem proved_of_checkBlockHeader (hrx : params.fPowRandomX)
    (hgenesis : block.hashPrevBlock ≠ Uint256.null) (hheight : 0 ≤ prev.nHeight)
    (h : checkBlockHeader hashes block params true (some prev) = .ok ()) :
    ∃ algo, Proved hashes params block (prev.nHeight + 1) prev.nTime algo := by
  have hnext : 0 ≤ prev.nHeight + 1 := by omega
  obtain ⟨algo, halgo⟩ := exists_algo params block.nVersion hnext
  have hfull : Passes (verify hashes algo block (prev.nHeight + 1) params POW_VERIFY_FULL none
      prev.nTime) := by
    rw [← verdict_eq_true, ← requirePow_eq_ok]
    cases algo <;> simpa [checkBlockHeader, halgo] using h
  obtain ⟨hnull, hproof⟩ := (passes_full_iff hgenesis fun _ => hrx).mp hfull
  exact ⟨algo, halgo, hnull, hproof⟩

section Prechecks

variable {prevBlockTime : UInt32} (hrx : params.fPowRandomX)
  (hgenesis : block.hashPrevBlock ≠ Uint256.null)
  (hproved : Proved hashes params block nHeight prevBlockTime algo)

include hrx hgenesis hproved

theorem commitment_true :
    verdict (verify hashes algo block nHeight params POW_VERIFY_COMMITMENT_ONLY none 0) =
      .ok true :=
  verdict_eq_true.mpr (passes_commitment hgenesis (fun _ => hrx) hproved.ne_null hproved.proof 0)

omit hrx hgenesis in
theorem algo_eq_randomX (hbit : block.nVersion &&& BLOCK_VERSION_QHASH = 0) : algo = .RandomX := by
  have halgo := hproved.algo_eq
  rw [getPowAlgoForHeader, if_pos hbit, Option.some.injEq] at halgo
  exact halgo.symm

theorem checkBlockPow_of_proved : checkBlockPow hashes block params true nHeight = .ok () := by
  have hcommitment := commitment_true hrx hgenesis hproved
  by_cases hbit : block.nVersion &&& BLOCK_VERSION_QHASH = 0
  · obtain rfl := algo_eq_randomX hproved hbit
    simp [checkBlockPow, hrx, hbit, hcommitment]
  · cases algo <;> simp [checkBlockPow, hrx, hbit, hproved.algo_eq, hcommitment]

/-- Without the height the verdict is deferred, or one of the two proofs it may be is good. -/
theorem checkBlockPow_unknown_of_proved : checkBlockPow hashes block params true (-1) = .ok () := by
  have hcommitment := commitment_true hrx hgenesis hproved
  by_cases hbit : block.nVersion &&& BLOCK_VERSION_QHASH = 0
  · obtain rfl := algo_eq_randomX hproved hbit
    rw [verify_height hashes block params _ nHeight (-1) (by decide)] at hcommitment
    simp [checkBlockPow, hrx, hbit, hcommitment]
  · have hunknown : getPowAlgoForHeader (-1) block.nVersion params = none := by
      simp [getPowAlgoForHeader, hbit]
    by_cases hetchash : params.fDualAlgoEtchash
    · simp [checkBlockPow, hrx, hbit, hunknown, hetchash]
    · have hnot : algo ≠ .Etchash := by
        rintro rfl
        have halgo := hproved.algo_eq
        simp [getPowAlgoForHeader, hbit, hetchash, ite_eq_iff] at halgo
      rw [verify_height hashes block params _ nHeight (-1) hnot] at hcommitment
      cases algo with
      | Etchash => exact absurd rfl hnot
      | QHash => simp [checkBlockPow, hrx, hbit, hunknown, hetchash, hcommitment]
      | RandomX => simp [checkBlockPow, hrx, hbit, hunknown, hetchash, hcommitment]

theorem headerHasValidPow_of_proved :
    headerHasValidPow hashes block params nHeight = .ok true := by
  have hcommitment := commitment_true hrx hgenesis hproved
  unfold headerHasValidPow
  rw [hproved.algo_eq]
  cases algo with
  | RandomX => exact hcommitment
  | QHash => exact hcommitment
  | Etchash =>
    -- the full Etchash check does not read the previous block time
    have hfull : Passes (verify hashes .Etchash block nHeight params POW_VERIFY_FULL none
        prevBlockTime) :=
      (passes_full_iff hgenesis fun _ => hrx).mpr ⟨hproved.ne_null, hproved.proof⟩
    exact verdict_eq_true.mpr hfull

theorem loadedPowOk_of_proved : loadedPowOk hashes block nHeight params = .ok true := by
  have hcommitment := commitment_true hrx hgenesis hproved
  unfold loadedPowOk
  rw [hproved.algo_eq]
  cases algo with
  | RandomX => exact hcommitment
  | QHash => exact hcommitment
  | Etchash =>
    obtain ⟨-, bnTarget, htarget, hle⟩ := hproved.proof
    obtain ⟨hneg, hover, hpos, hlimit, rfl⟩ := checkedTarget_eq_some htarget
    have hvalue : etchashValue nHeight params block.hashRandomX ≤ (setCompact block.nBits).value :=
      hle
    rw [etchashValue, ← apply_ite uintToArith256] at hvalue
    simp [hneg, hover, hpos, hlimit, hproved.ne_null, hvalue]

theorem readPowOk_of_proved (hheight : prev.nHeight + 1 = nHeight) :
    readPowOk hashes block (some prev) params = .ok true := by
  simp only [readPowOk, Option.elim_some, hheight, hproved.algo_eq]
  exact commitment_true hrx hgenesis hproved

/-- A block whose parent is not in the index is left to `AcceptBlockHeader`. -/
theorem readPowOk_unknown_of_proved : readPowOk hashes block none params = .ok true := by
  by_cases hbit : block.nVersion &&& BLOCK_VERSION_QHASH = 0
  · obtain rfl := algo_eq_randomX hproved hbit
    have hcommitment := commitment_true hrx hgenesis hproved
    rw [verify_height hashes block params _ nHeight (-1) (by decide)] at hcommitment
    simp [readPowOk, getPowAlgoForHeader, hbit, hcommitment]
  · simp [readPowOk, getPowAlgoForHeader, hbit]

end Prechecks

theorem hasValidProofOfWork_eq_true {headers : List CBlockHeader} (hstart : 0 ≤ nHeight)
    (h : ∀ i (hi : i < headers.length),
      headerHasValidPow hashes headers[i] params (nHeight + i) = .ok true) :
    hasValidProofOfWork hashes params headers nHeight = .ok true := by
  induction headers generalizing nHeight with
  | nil => rfl
  | cons header headers ih =>
    have hfirst := h 0 (by simp)
    simp only [List.getElem_cons_zero, Nat.cast_zero, add_zero] at hfirst
    have hrest : hasValidProofOfWork hashes params headers (nHeight + 1) = .ok true := by
      apply ih (by omega)
      intro i hi
      have hnext := h (i + 1) (by simpa using hi)
      rwa [List.getElem_cons_succ, Nat.cast_add, Nat.cast_one, add_comm (i : Int), ← add_assoc]
        at hnext
    simp only [hasValidProofOfWork, hfirst, ge_iff_le, hstart, if_true]
    exact hrest

end Dispatch

/-- **No check of the proof of work rejects what consensus accepts**: neither `CheckBlock`, with or
without the height, nor the checks at startup and on reading a block, nor `HasValidProofOfWork` on a
batch. -/
theorem prechecks_accept (hashes : PowHashes) (params : Params) (hrx : params.fPowRandomX) :
    (∀ (block : CBlockHeader) (prev : CBlockIndex), 0 ≤ prev.nHeight →
      block.hashPrevBlock ≠ Uint256.null →
      checkBlockHeader hashes block params true (some prev) = .ok () →
      checkBlockPow hashes block params true (prev.nHeight + 1) = .ok () ∧
      checkBlockPow hashes block params true (-1) = .ok () ∧
      loadedPowOk hashes block (prev.nHeight + 1) params = .ok true ∧
      readPowOk hashes block (some prev) params = .ok true ∧
      readPowOk hashes block none params = .ok true) ∧
    (∀ (batch : List (CBlockHeader × CBlockIndex)) (nStartHeight : Int), 1 ≤ nStartHeight →
      (∀ i (hi : i < batch.length), batch[i].2.nHeight + 1 = nStartHeight + i ∧
        batch[i].1.hashPrevBlock ≠ Uint256.null ∧
        checkBlockHeader hashes batch[i].1 params true (some batch[i].2) = .ok ()) →
      hasValidProofOfWork hashes params (batch.map Prod.fst) nStartHeight = .ok true) := by
  constructor
  · intro block prev hheight hgenesis haccept
    obtain ⟨algo, hproved⟩ := proved_of_checkBlockHeader hrx hgenesis hheight haccept
    exact ⟨checkBlockPow_of_proved hrx hgenesis hproved,
      checkBlockPow_unknown_of_proved hrx hgenesis hproved,
      loadedPowOk_of_proved hrx hgenesis hproved, readPowOk_of_proved hrx hgenesis hproved rfl,
      readPowOk_unknown_of_proved hrx hgenesis hproved⟩
  · intro batch nStartHeight hstart hbatch
    apply hasValidProofOfWork_eq_true (by omega)
    intro i hi
    rw [List.length_map] at hi
    obtain ⟨hheight, hgenesis, haccept⟩ := hbatch i hi
    obtain ⟨algo, hproved⟩ := proved_of_checkBlockHeader hrx hgenesis (by omega) haccept
    rw [hheight] at hproved
    rw [List.getElem_map]
    exact headerHasValidPow_of_proved hrx hgenesis hproved

section Sample

def provedHeader : CBlockHeader :=
  { sampleHeader with nVersion := 0x60000000, hashRandomX := smallHash 6 }

def sampleParent (nHeight : Int) : CBlockIndex where
  nHeight := nHeight
  nVersion := 0x20000000
  nTime := 1699999000
  nBits := 0x207FFFFF
  nSecondAlgoCount := -1

theorem prechecks_accept_provedHeader :
    loadedPowOk sampleHashes provedHeader 150 sampleParams = .ok true ∧
    hasValidProofOfWork sampleHashes sampleParams [provedHeader, provedHeader] 150 = .ok true := by
  have haccepts := prechecks_accept sampleHashes sampleParams rfl
  constructor
  · have haccept : checkBlockHeader sampleHashes provedHeader sampleParams true
        (some (sampleParent 149)) = .ok () := by decide +kernel
    exact (haccepts.1 provedHeader (sampleParent 149) (by decide) (by decide) haccept).2.2.1
  · exact haccepts.2 [(provedHeader, sampleParent 149), (provedHeader, sampleParent 150)] 150
      (by decide) (by decide +kernel)

end Sample

end Rcpu.PowDispatch
