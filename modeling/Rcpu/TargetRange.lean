import Rcpu.Asert
import Rcpu.HeadersSync

/-!
# The bits of the next block

Where ASERT or the schedules of the two algorithms decide, the bits of the next block always stand for
a target that `CheckProofOfWork` admits.  Whatever rule decides, the headers presync lets the bits
pass.
-/

namespace Rcpu.Difficulty

open ArithUint256 Transaction Rcpu.Pow

theorem uintToArith256_lt (hash : Uint256) : uintToArith256 hash < 2 ^ 256 := by
  have hlt := ByteStream.ofLeBytes_lt hash.bytes
  rw [hash.size_eq] at hlt
  exact lt_of_lt_of_eq hlt (by decide +kernel)

/-! ### Targets that can be met -/

structure ValidBits (params : Params) (nBits : UInt32) : Prop where
  nonnegative : (setCompact nBits).fNegative = false
  fits : (setCompact nBits).fOverflow = false
  positive : 0 < (setCompact nBits).value
  le_limit : (setCompact nBits).value ≤ uintToArith256 params.powLimit

section Range

variable {params : Params} {pindex : CBlockIndex} {ancestors : List CBlockIndex}

theorem validBits_getCompact {target : Nat} (hpos : 0 < target)
    (hle : target ≤ uintToArith256 params.powLimit) : ValidBits params (getCompact target) := by
  have hcompact := setCompact_getCompact (lt_of_le_of_lt hle (uintToArith256_lt params.powLimit))
  constructor
  · rw [hcompact]
  · rw [hcompact]
  · rw [hcompact]
    exact truncated_pos hpos
  · rw [hcompact]
    exact le_trans (truncated_le target) hle

/-- The range check of `CheckProofOfWork` passes, so only the hash is left to compare. -/
theorem ValidBits.checkProofOfWork {nBits : UInt32} (h : ValidBits params nBits) (hash : Uint256) :
    checkProofOfWork hash nBits params = decide (uintToArith256 hash ≤ (setCompact nBits).value) := by
  have hrange : checkedTarget params nBits = some (setCompact nBits).value := by
    unfold checkedTarget
    dsimp only
    rw [if_neg]
    rintro (hneg | hzero | hover | habove)
    · rw [h.nonnegative] at hneg
      cases hneg
    · exact h.positive.ne' hzero
    · rw [h.fits] at hover
      cases hover
    · exact absurd h.le_limit (not_le.mpr habove)
  unfold Pow.checkProofOfWork
  rw [hrange]

theorem calculateASERT_range {refTarget powLimit : Nat} {nHeightDiff nHalfLife : Int}
    (spacing nTimeDiff : Int) (href : 0 < refTarget) (hle : refTarget ≤ powLimit)
    (hlimit : powLimit < 2 ^ 256) (hheight : 0 ≤ nHeightDiff) (hhalf : nHalfLife ≠ 0) :
    ∃ target, calculateASERT refTarget spacing nTimeDiff nHeightDiff powLimit nHalfLife = .ok target ∧
      0 < target ∧ target ≤ powLimit := by
  obtain ⟨scaled, hscaled⟩ := exists_scaledTarget refTarget powLimit
    (timeDelta spacing nTimeDiff nHeightDiff) hhalf
  refine ⟨_, calculateASERT_eq href hle hlimit hheight hscaled, ?_⟩
  unfold clampTarget
  omega

theorem Linked.exists_height (h : Linked pindex ancestors) {height : Int} (hnonneg : 0 ≤ height)
    (hle : height ≤ pindex.nHeight) : ∃ p ∈ pindex :: ancestors, p.nHeight = height := by
  induction ancestors generalizing pindex with
  | nil =>
    have hzero : pindex.nHeight = 0 := h
    exact ⟨pindex, List.mem_cons_self, by omega⟩
  | cons pprev rest ih =>
    by_cases hhere : height = pindex.nHeight
    · exact ⟨pindex, List.mem_cons_self, hhere.symm⟩
    · have hnext := h.1
      obtain ⟨p, hp, hheight⟩ := ih h.2 (by omega)
      exact ⟨p, List.mem_cons_of_mem _ hp, hheight⟩

theorem validBits_asert {anchor : ASERTAnchor} (pblock : CBlockHeader)
    (hlimit : 0 < uintToArith256 params.powLimit) (hhalf : 0 < params.nASERTHalfLife)
    (hpos : 0 < (setCompact anchor.nBits).value)
    (hle : (setCompact anchor.nBits).value ≤ uintToArith256 params.powLimit)
    (hheight : anchor.nHeight ≤ pindex.nHeight) :
    ∃ nBits, getNextASERTWorkRequired pindex pblock params anchor = .ok nBits ∧
      ValidBits params nBits := by
  unfold getNextASERTWorkRequired
  rw [if_neg (not_not.mpr hheight)]
  split_ifs
  · exact ⟨_, rfl, validBits_getCompact hlimit (le_refl _)⟩
  · obtain ⟨target, htarget, htpos, htle⟩ := calculateASERT_range params.nPowTargetSpacing
      (getBlockTime pindex.nTime - anchor.nPrevBlockTime) hpos hle (uintToArith256_lt params.powLimit)
      (by omega : 0 ≤ pindex.nHeight - anchor.nHeight) hhalf.ne'
    dsimp only
    rw [htarget]
    exact ⟨_, rfl, validBits_getCompact htpos htle⟩

theorem validBits_dual (pblock : CBlockHeader) (fQhash : Bool)
    (hlimit : 0 < uintToArith256 params.powLimit) (hhalf : 0 < params.nASERTHalfLife)
    (hact : 0 < params.nDualAlgoActivationHeight) (hlinked : Linked pindex ancestors)
    (hcounted : Counted params.nDualAlgoActivationHeight pindex ancestors)
    (hheight : params.nDualAlgoActivationHeight ≤ pindex.nHeight + 1) :
    ∃ nBits, getDualAlgoWorkRequired pindex ancestors pblock params fQhash = .ok nBits ∧
      ValidBits params nBits := by
  obtain ⟨anchor, hmem, hanchor⟩ := hlinked.exists_height
    (by omega : 0 ≤ params.nDualAlgoActivationHeight - 1) (by omega)
  obtain ⟨hpos, hle⟩ := dualRefTarget_range anchor.nBits hlimit
  unfold getDualAlgoWorkRequired
  dsimp only
  rw [if_neg (not_not.mpr hact), ← hanchor, getAncestor_eq hlinked hmem, hanchor,
    secondAlgoCount_eq hlinked hcounted, nHeightDiff_eq hlinked hact (by omega)]
  dsimp only [bind, Except.bind]
  split_ifs
  · exact ⟨_, rfl, validBits_getCompact hpos hle⟩
  · exact ⟨_, rfl, validBits_getCompact hlimit (le_refl _)⟩
  · obtain ⟨target, htarget, htpos, htle⟩ := calculateASERT_range params.nDualAlgoTargetSpacing
      (getBlockTime pindex.nTime - getBlockTime anchor.nTime) hpos hle
      (uintToArith256_lt params.powLimit)
      (Int.natCast_nonneg (algoBlocks params.nDualAlgoActivationHeight fQhash (pindex :: ancestors)))
      hhalf.ne'
    rw [htarget]
    exact ⟨_, rfl, validBits_getCompact htpos htle⟩

/-- **The difficulty rules always ask for a target that can be met**: no assertion fails, and the
bits pass the range check of `CheckProofOfWork`. -/
theorem nextWork_satisfiable (hlimit : 0 < uintToArith256 params.powLimit)
    (hhalf : 0 < params.nASERTHalfLife) (hact : 0 < params.nDualAlgoActivationHeight)
    (chain : IndexChain params)
    (hanchor : ∀ anchor ∈ params.asertAnchorParams, 0 < (setCompact anchor.nBits).value ∧
      (setCompact anchor.nBits).value ≤ uintToArith256 params.powLimit ∧
      anchor.nHeight ≤ chain.tip.nHeight)
    (hpath : params.nDualAlgoActivationHeight ≤ chain.tip.nHeight + 1 ∨
      params.asertAnchorParams.isSome ∧ params.nASERTActivationHeight ≤ chain.tip.nHeight + 1)
    (pblock : CBlockHeader) :
    ∃ nBits, chain.nextWork pblock = .ok nBits ∧ ValidBits params nBits ∧
      ∀ hash, checkProofOfWork hash nBits params =
        decide (uintToArith256 hash ≤ (setCompact nBits).value) := by
  have hvalid : ∃ nBits, chain.nextWork pblock = .ok nBits ∧ ValidBits params nBits := by
    unfold IndexChain.nextWork getNextWorkRequired
    by_cases hdual : chain.tip.nHeight + 1 ≥ params.nDualAlgoActivationHeight
    · rw [if_pos hdual]
      exact validBits_dual pblock _ hlimit hhalf hact chain.linked chain.counted hdual
    · obtain ⟨hsome, hactive⟩ := hpath.resolve_left hdual
      obtain ⟨anchor, hparams⟩ := Option.isSome_iff_exists.mp hsome
      obtain ⟨hpos, hle, hheight⟩ := hanchor anchor hparams
      rw [if_neg hdual, hparams]
      dsimp only
      rw [if_pos hactive]
      exact validBits_asert pblock hlimit hhalf hpos hle hheight
  obtain ⟨nBits, hnext, hbits⟩ := hvalid
  exact ⟨nBits, hnext, hbits, hbits.checkProofOfWork⟩

theorem longChain_satisfiable :
    ∃ nBits, longChain.nextWork sampleHeader = .ok nBits ∧ ValidBits earlyParams nBits ∧
      ∀ hash, checkProofOfWork hash nBits earlyParams =
        decide (uintToArith256 hash ≤ (setCompact nBits).value) :=
  nextWork_satisfiable (by decide +kernel) (by decide) (by decide) longChain (by decide +kernel)
    (.inl (by decide)) sampleHeader

end Range

/-! ### The presync check -/

section Presync

variable {params : Params} {pindex : CBlockIndex} {T : Nat}

/-- A target stretched by `a / T` and cut off at the limit. -/
def retargeted (params : Params) (target T a : Nat) : Nat :=
  min (target * a / T) (uintToArith256 params.powLimit)

theorem retargeted_lt (params : Params) (target T a : Nat) :
    retargeted params target T a < 2 ^ 256 :=
  lt_of_le_of_lt (Nat.min_le_right _ _) (uintToArith256_lt params.powLimit)

theorem retargeted_mono {target a b : Nat} (h : a ≤ b) :
    retargeted params target T a ≤ retargeted params target T b :=
  min_le_min_right _ (Nat.div_le_div_right (Nat.mul_le_mul_left target h))

theorem cutoff_eq (params : Params) (target T a : Nat) :
    (if target * a / T > uintToArith256 params.powLimit then uintToArith256 params.powLimit
      else target * a / T % 2 ^ 256) = retargeted params target T a := by
  have hlimit := uintToArith256_lt params.powLimit
  unfold retargeted
  split_ifs with habove
  · exact (Nat.min_eq_right (Nat.le_of_lt habove)).symm
  · have hle := Nat.le_of_not_lt habove
    rw [Nat.mod_eq_of_lt (lt_of_le_of_lt hle hlimit), Nat.min_eq_left hle]

theorem setCompact_lt (nBits : UInt32) : (setCompact nBits).value < 2 ^ 256 := by
  have hword : (nBits &&& 0x007FFFFF).toNat < 2 ^ 23 := by
    rw [UInt32.toNat_and]
    exact lt_of_le_of_lt Nat.and_le_right (by decide)
  unfold setCompact
  dsimp only
  split_ifs
  · refine lt_of_le_of_lt (Nat.div_le_self _ _) (lt_trans hword ?_)
    decide +kernel
  · exact Nat.mod_lt _ (Nat.two_pow_pos 256)

theorem mul_mod_512 (nBits : UInt32) {a : Nat} (ha : a < 2 ^ 32) :
    (setCompact nBits).value * a % 2 ^ 512 = (setCompact nBits).value * a := by
  refine Nat.mod_eq_of_lt ?_
  calc (setCompact nBits).value * a < 2 ^ 256 * 2 ^ 32 := Nat.mul_lt_mul'' (setCompact_lt nBits) ha
    _ ≤ 2 ^ 512 := by
        rw [← pow_add]
        exact pow_le_pow_right₀ one_le_two (by decide)

def clampSpan (timespan nActualTimespan : Int) : Int :=
  let nActualTimespan := if nActualTimespan < timespan.tdiv 4 then timespan.tdiv 4
    else nActualTimespan
  if nActualTimespan > timespan * 4 then timespan * 4 else nActualTimespan

theorem clampSpan_eq (T : Nat) (nActualTimespan : Int) :
    ∃ a : Nat, clampSpan T nActualTimespan = a ∧ T / 4 ≤ a ∧ a ≤ 4 * T := by
  have hquarter : (T : Int).tdiv 4 = (T / 4 : Nat) := by
    rw [Int.tdiv_eq_ediv_of_nonneg (Int.natCast_nonneg T)]
    rfl
  refine ⟨(clampSpan T nActualTimespan).toNat, ?_⟩
  unfold clampSpan
  dsimp only
  rw [hquarter]
  split_ifs <;> omega

/-- The legacy rule stretches the last target by at most four in either direction, or keeps it. -/
theorem calculateNextWorkRequired_spec (hT : params.nPowTargetTimespan = T) (hpos : 0 < T)
    (hfit : 4 * T < 2 ^ 32)
    (hle : (setCompact pindex.nBits).value ≤ uintToArith256 params.powLimit)
    {nFirstBlockTime : Int} {nBits : UInt32}
    (h : calculateNextWorkRequired pindex nFirstBlockTime params = .ok nBits) :
    ∃ a, T / 4 ≤ a ∧ a ≤ 4 * T ∧
      (setCompact nBits).value = truncated (retargeted params (setCompact pindex.nBits).value T a) := by
  unfold calculateNextWorkRequired at h
  split_ifs at h with hkeep
  · obtain rfl := Except.ok.inj h
    refine ⟨T, Nat.div_le_self _ _, by omega, ?_⟩
    rw [retargeted, Nat.mul_div_cancel _ hpos, Nat.min_eq_left hle, truncated_setCompact]
  · obtain ⟨a, ha, hlow, hhigh⟩ := clampSpan_eq T (getBlockTime pindex.nTime - nFirstBlockTime)
    have hfactor : ((a : Int) % 2 ^ 32).toNat = a := by omega
    have hdivisor : ((T : Int) % 2 ^ 64).toNat = T := by omega
    have hproduct := mul_mod_512 pindex.nBits (by omega : a < 2 ^ 32)
    rw [hT] at h
    change (if ((T : Int) % 2 ^ 64).toNat = 0 then .error "Division by zero" else
      let bnNew512 := (setCompact pindex.nBits).value *
        (clampSpan T (getBlockTime pindex.nTime - nFirstBlockTime) % 2 ^ 32).toNat % 2 ^ 512 /
          ((T : Int) % 2 ^ 64).toNat
      .ok (getCompact (if bnNew512 > uintToArith256 params.powLimit then
        uintToArith256 params.powLimit else bnNew512 % 2 ^ 256)) : Except String UInt32) = _ at h
    rw [hdivisor, if_neg hpos.ne', ha, hfactor, hproduct] at h
    obtain rfl := Except.ok.inj h
    refine ⟨a, hlow, hhigh, ?_⟩
    rw [cutoff_eq, setCompact_getCompact (retargeted_lt params _ T a)]

/-- The bounds of the presync check, in exact and in wrapping arithmetic. -/
theorem presync_bounds (hT : params.nPowTargetTimespan = T) (hpos : 0 < T) (hfit : 4 * T < 2 ^ 32)
    {a : Nat} (hlow : T / 4 ≤ a) (hhigh : a ≤ 4 * T) {oldNBits nBits : UInt32}
    (hobserved : (setCompact nBits).value =
      truncated (retargeted params (setCompact oldNBits).value T a)) :
    (let powLimit := uintToArith256 params.powLimit
      let divisor := (params.nPowTargetTimespan % 2 ^ 64).toNat
      let tmp := (setCompact oldNBits).value *
        (params.nPowTargetTimespan * 4 % 2 ^ 32).toNat % 2 ^ 512 / divisor
      let smallest := (setCompact oldNBits).value *
        (params.nPowTargetTimespan.tdiv 4 % 2 ^ 32).toNat % 2 ^ 256 / divisor
      if (setCompact (getCompact (if tmp > powLimit then powLimit else tmp % 2 ^ 256))).value <
        (setCompact nBits).value then false
      else if (setCompact (getCompact (if smallest > powLimit then powLimit else smallest))).value >
        (setCompact nBits).value then false
      else true) = true := by
  have hlargest : ((T : Int) * 4 % 2 ^ 32).toNat = 4 * T := by omega
  have hsmallest : ((T : Int).tdiv 4 % 2 ^ 32).toNat = T / 4 := by
    rw [Int.tdiv_eq_ediv_of_nonneg (Int.natCast_nonneg T)]
    omega
  have hdivisor : ((T : Int) % 2 ^ 64).toNat = T := by omega
  have hlimit := uintToArith256_lt params.powLimit
  dsimp only
  rw [hT, hlargest, hsmallest, hdivisor, mul_mod_512 oldNBits hfit, cutoff_eq,
    setCompact_getCompact (retargeted_lt params _ T (4 * T)), hobserved]
  -- the product of the smallest target may wrap, which only lowers the bound
  have hwrapped : (if (setCompact oldNBits).value * (T / 4) % 2 ^ 256 / T >
        uintToArith256 params.powLimit then uintToArith256 params.powLimit
      else (setCompact oldNBits).value * (T / 4) % 2 ^ 256 / T) ≤
      retargeted params (setCompact oldNBits).value T a := by
    refine le_trans ?_ (retargeted_mono hlow)
    have hmod : (setCompact oldNBits).value * (T / 4) % 2 ^ 256 / T ≤
        (setCompact oldNBits).value * (T / 4) / T := Nat.div_le_div_right (Nat.mod_le _ _)
    unfold retargeted
    split_ifs with habove
    · exact le_min (le_trans habove.le hmod) (le_refl _)
    · exact le_min hmod (not_lt.mp habove)
  rw [setCompact_getCompact (lt_of_le_of_lt hwrapped (retargeted_lt params _ T a)),
    if_neg (not_lt.mpr (truncated_mono (retargeted_mono hhigh))),
    if_neg (not_lt.mpr (truncated_mono hwrapped))]

/-- **The presync check lets every correct step pass.**  The path for two algorithms is only taken once
ASERT is active. -/
theorem permitted_of_nextWork (hspacing : 0 < params.nPowTargetSpacing)
    (hspan : params.nPowTargetSpacing ≤ params.nPowTargetTimespan)
    (hfit : 4 * params.nPowTargetTimespan < 2 ^ 32)
    (hdual : params.nDualAlgoActivationHeight ≤ pindex.nHeight + 1 →
      params.asertAnchorParams.isSome ∧ params.nASERTActivationHeight ≤ pindex.nHeight + 1)
    {ancestors : List CBlockIndex}
    (hvalid : ∀ p ∈ pindex :: ancestors, 0 < (setCompact p.nBits).value ∧
      (setCompact p.nBits).value ≤ uintToArith256 params.powLimit)
    {pblock : CBlockHeader} {nBits : UInt32}
    (h : getNextWorkRequired pindex ancestors pblock params = .ok nBits) :
    HeadersSync.permittedDifficultyTransition params (pindex.nHeight + 1) pindex.nBits nBits = true := by
  unfold HeadersSync.permittedDifficultyTransition
  by_cases hmin : params.fPowAllowMinDifficultyBlocks = true
  · rw [if_pos hmin]
  by_cases hasert : params.asertAnchorParams.isSome ∧
      pindex.nHeight + 1 ≥ params.nASERTActivationHeight
  · rw [if_neg hmin, if_pos hasert]
  rw [if_neg hmin, if_neg hasert]
  have hlegacy : getLegacyWorkRequired pindex ancestors pblock params = .ok nBits := by
    unfold getNextWorkRequired at h
    rw [if_neg fun hheight => hasert (hdual hheight)] at h
    cases hparams : params.asertAnchorParams with
    | none =>
      rw [hparams] at h
      exact h
    | some anchor =>
      rw [hparams] at h
      dsimp only at h
      rwa [if_neg fun hactive => hasert ⟨by rw [hparams]; rfl, hactive⟩] at h
  obtain ⟨T, hT⟩ := Int.eq_ofNat_of_zero_le (by omega : 0 ≤ params.nPowTargetTimespan)
  have hpos : 0 < T := by omega
  have hfit' : 4 * T < 2 ^ 32 := by omega
  obtain ⟨-, hle⟩ := hvalid pindex List.mem_cons_self
  unfold getLegacyWorkRequired at hlegacy
  dsimp only at hlegacy
  by_cases hretarget : (pindex.nHeight + 1).tmod (difficultyAdjustmentInterval params) = 0
  · rw [if_pos hretarget]
    rw [if_neg (not_not.mpr hretarget)] at hlegacy
    obtain ⟨first, hfirst⟩ : ∃ first, calculateNextWorkRequired pindex first params = .ok nBits := by
      generalize (if params.fPowRandomX = true then
          max 0 (pindex.nHeight - difficultyAdjustmentInterval params)
        else pindex.nHeight - (difficultyAdjustmentInterval params - 1)) = nHeightFirst at hlegacy
      split_ifs at hlegacy
      obtain ⟨found, -, hfound⟩ := Checks.bind_eq_ok.mp hlegacy
      cases found with
      | none => cases hfound
      | some pindexFirst => exact ⟨_, hfound⟩
    obtain ⟨a, hlow, hhigh, hobserved⟩ := calculateNextWorkRequired_spec hT hpos hfit' hle hfirst
    exact presync_bounds hT hpos hfit' hlow hhigh hobserved
  · rw [if_neg hretarget]
    rw [if_pos hretarget, if_neg hmin] at hlegacy
    rw [if_neg (not_not.mpr (Except.ok.inj hlegacy))]

def legacyParams : Params :=
  { sampleParams with nPowTargetTimespan := 600, nDualAlgoActivationHeight := 2147483647 }

/-- The target falls to a quarter, the most that is allowed. -/
theorem permitted_genesisEntry :
    getNextWorkRequired genesisEntry [] sampleHeader legacyParams = .ok 0x201FFFFF ∧
      HeadersSync.permittedDifficultyTransition legacyParams 1 genesisEntry.nBits 0x201FFFFF = true := by
  have hnext : getNextWorkRequired genesisEntry [] sampleHeader legacyParams = .ok 0x201FFFFF := by
    decide +kernel
  refine ⟨hnext, ?_⟩
  exact @permitted_of_nextWork legacyParams genesisEntry (by decide) (by decide) (by decide)
    (fun hdual => absurd hdual (by decide)) [] (by decide +kernel) sampleHeader _ hnext

end Presync

end Rcpu.Difficulty
