import Rcpu.Checks
import Rcpu.Pow

/-!
# The next target

`pow.cpp`: the target of the next block of a chain.  From `nDualAlgoActivationHeight` on each of the
two algorithms runs its own ASERT schedule, which is driven by the number of blocks of that
algorithm; before that one ASERT schedule or the legacy retarget rule is used.

A chain is its last index entry together with the ancestors of that entry, nearest first.  A failed
`assert` and a division by zero are errors.
-/

namespace Rcpu.Difficulty

open ArithUint256 Rcpu.Pow

def isSecondAlgo (nVersion : Int32) : Bool := nVersion &&& BLOCK_VERSION_QHASH ≠ 0

def getBlockTime (nTime : UInt32) : Int := nTime.toNat

/-! ### ASERT -/

def INT64_MAX : Int := 2 ^ 63 - 1

def INT64_MIN : Int := -2 ^ 63

/-- How far a chain is behind its schedule, or that the difference does not fit. -/
structure TimeDelta where
  overflow_high : Bool := false
  overflow_low : Bool := false
  time_delta : Int := 0
deriving DecidableEq, Repr

def timeDelta (nPowTargetSpacing nTimeDiff nHeightDiff : Int) : TimeDelta :=
  let h1 := nHeightDiff + 1
  if nPowTargetSpacing > 0 ∧ h1 > 0 ∧ nPowTargetSpacing > INT64_MAX.tdiv h1 then
    { overflow_low := true }
  else
    let ideal := nPowTargetSpacing * h1
    if nTimeDiff ≥ 0 ∧ nTimeDiff > INT64_MAX + (if ideal < 0 then ideal else 0) then
      { overflow_high := true }
    else if nTimeDiff < 0 ∧ ideal > 0 ∧ nTimeDiff < INT64_MIN + ideal then
      { overflow_low := true }
    else { time_delta := nTimeDiff - ideal }

/-- The cubic approximation of `2 ^ (frac / 65536)`, scaled by `65536`. -/
def asertFactor (frac : Nat) : Nat :=
  65536 + (195766423245049 * frac + 971821376 * frac * frac + 5127 * frac * frac * frac +
    2 ^ 47) % 2 ^ 64 / 2 ^ 48

/-- The whole powers of two; a product that does not fit in 512 bits is cut off at the limit. -/
def shiftTarget (nextTarget512 powLimit512 : Nat) (shifts : Int) : Nat :=
  if shifts > 512 then powLimit512
  else if shifts < -512 then 1
  else if shifts ≤ 0 then nextTarget512 / 2 ^ (-shifts).toNat
  else
    let nextTarget512Shifted := nextTarget512 * 2 ^ shifts.toNat % 2 ^ 512
    if nextTarget512Shifted / 2 ^ shifts.toNat ≠ nextTarget512 then powLimit512
    else nextTarget512Shifted

def scaledTarget (refTarget powLimit : Nat) (delta : TimeDelta) (nHalfLife : Int) :
    Except String Nat :=
  let max_mul := INT64_MAX.tdiv 65536
  if delta.overflow_high ∨ delta.time_delta > max_mul then .ok powLimit
  else if delta.overflow_low ∨ delta.time_delta < -max_mul then .ok 1
  else if nHalfLife = 0 then .error "division by zero"
  else
    let exponent := (delta.time_delta * 65536).tdiv nHalfLife
    let shifts := exponent / 65536
    let frac := (exponent % 65536).toNat
    .ok (shiftTarget (refTarget * asertFactor frac % 2 ^ 512) powLimit (shifts - 16))

def calculateASERT (refTarget : Nat) (nPowTargetSpacing nTimeDiff nHeightDiff : Int)
    (powLimit : Nat) (nHalfLife : Int) : Except String Nat :=
  if ¬ (refTarget > 0 ∧ refTarget ≤ powLimit) then
    .error "assert(refTarget > 0 && refTarget <= powLimit)"
  else if ¬ nHeightDiff ≥ 0 then .error "assert(nHeightDiff >= 0)"
  else do
    let delta := timeDelta nPowTargetSpacing nTimeDiff nHeightDiff
    let nextTarget512 ← scaledTarget refTarget powLimit delta nHalfLife
    let nextTarget := min nextTarget512 powLimit % 2 ^ 256
    -- zero is not a valid target, but one is
    return if nextTarget = 0 then 1 else if nextTarget > powLimit then powLimit else nextTarget

def getNextASERTWorkRequired (pindexPrev : CBlockIndex) (pblock : CBlockHeader) (params : Params)
    (anchorParams : ASERTAnchor) : Except String UInt32 :=
  if ¬ pindexPrev.nHeight ≥ anchorParams.nHeight then
    .error "assert(pindexPrev->nHeight >= anchorParams.nHeight)"
  else if params.fPowAllowMinDifficultyBlocks ∧ getBlockTime pblock.nTime >
      getBlockTime pindexPrev.nTime + 2 * params.nPowTargetSpacing then
    .ok (getCompact (uintToArith256 params.powLimit))
  else do
    let refBlockTarget := (setCompact anchorParams.nBits).value
    let nTimeDiff := getBlockTime pindexPrev.nTime - anchorParams.nPrevBlockTime
    let nHeightDiff := pindexPrev.nHeight - anchorParams.nHeight
    let nextTarget ← calculateASERT refBlockTarget params.nPowTargetSpacing nTimeDiff nHeightDiff
      (uintToArith256 params.powLimit) params.nASERTHalfLife
    return getCompact nextTarget

/-! ### Two algorithms -/

/-- The walk of `GetAncestor`, one entry at a time. -/
def walkTo (height : Int) : CBlockIndex → List CBlockIndex → Int → Except String CBlockIndex
  | pindexWalk, [], heightWalk =>
    if heightWalk > height then .error "assert(pindexWalk->pprev)" else .ok pindexWalk
  | pindexWalk, pprev :: rest, heightWalk =>
    if heightWalk > height then walkTo height pprev rest (heightWalk - 1) else .ok pindexWalk

def getAncestor (pindex : CBlockIndex) (ancestors : List CBlockIndex) (height : Int) :
    Except String (Option CBlockIndex) :=
  if height > pindex.nHeight ∨ height < 0 then .ok none
  else (walkTo height pindex ancestors pindex.nHeight).map some

def walkSecondAlgo (nActHeight : Int) : List CBlockIndex → Int
  | [] => 0
  | p :: rest =>
    if p.nHeight ≥ nActHeight then
      (if isSecondAlgo p.nVersion then 1 else 0) + walkSecondAlgo nActHeight rest
    else 0

def secondAlgoCount (nActHeight : Int) (pindexLast : CBlockIndex) (ancestors : List CBlockIndex) :
    Int :=
  if pindexLast.nSecondAlgoCount < 0 then walkSecondAlgo nActHeight (pindexLast :: ancestors)
  else pindexLast.nSecondAlgoCount

/-- Both algorithms start at twice the difficulty of the anchor. -/
def dualRefTarget (nBits : UInt32) (powLimit : Nat) : Nat :=
  let refTarget := (setCompact nBits).value / 2
  let refTarget := if refTarget = 0 then 1 else refTarget
  if refTarget > powLimit then powLimit else refTarget

def getDualAlgoWorkRequired (pindexLast : CBlockIndex) (ancestors : List CBlockIndex)
    (pblock : CBlockHeader) (params : Params) (fQhash : Bool) : Except String UInt32 :=
  let nActHeight := params.nDualAlgoActivationHeight
  let powLimit := uintToArith256 params.powLimit
  if ¬ nActHeight > 0 then .error "assert(nActHeight > 0)"
  else do
    match ← getAncestor pindexLast ancestors (nActHeight - 1) with
    | none => return getCompact powLimit
    | some pindexAnchor =>
      let refTarget := dualRefTarget pindexAnchor.nBits powLimit
      if params.fPowNoRetargeting then return getCompact refTarget
      else if params.fPowAllowMinDifficultyBlocks ∧ getBlockTime pblock.nTime >
          getBlockTime pindexLast.nTime + 2 * params.nPowTargetSpacing then
        return getCompact powLimit
      else
        let nQhashCount := secondAlgoCount nActHeight pindexLast ancestors
        let nTotal := pindexLast.nHeight - (nActHeight - 1)
        let nHeightDiff := if fQhash then nQhashCount else nTotal - nQhashCount
        let nTimeDiff := getBlockTime pindexLast.nTime - getBlockTime pindexAnchor.nTime
        let nextTarget ← calculateASERT refTarget params.nDualAlgoTargetSpacing nTimeDiff
          nHeightDiff powLimit params.nASERTHalfLife
        return getCompact nextTarget

/-! ### The legacy rule -/

def difficultyAdjustmentInterval (params : Params) : Int :=
  params.nPowTargetTimespan.tdiv params.nPowTargetSpacing

/-- The bits of the last block that was not mined at the minimum difficulty. -/
def lastOrdinaryBits (params : Params) (nProofOfWorkLimit : UInt32) :
    CBlockIndex → List CBlockIndex → UInt32
  | pindex, [] => pindex.nBits
  | pindex, pprev :: rest =>
    if pindex.nHeight.tmod (difficultyAdjustmentInterval params) ≠ 0 ∧
        pindex.nBits = nProofOfWorkLimit then
      lastOrdinaryBits params nProofOfWorkLimit pprev rest
    else pindex.nBits

def calculateNextWorkRequired (pindexLast : CBlockIndex) (nFirstBlockTime : Int)
    (params : Params) : Except String UInt32 :=
  if params.fPowNoRetargeting then .ok pindexLast.nBits
  else
    let timespan := params.nPowTargetTimespan
    let nActualTimespan := getBlockTime pindexLast.nTime - nFirstBlockTime
    let nActualTimespan := if nActualTimespan < timespan.tdiv 4 then timespan.tdiv 4
      else nActualTimespan
    let nActualTimespan := if nActualTimespan > timespan * 4 then timespan * 4 else nActualTimespan
    let bnPowLimit := uintToArith256 params.powLimit
    -- the product takes a 32-bit factor, the quotient a 64-bit one
    let bnNew512 := (setCompact pindexLast.nBits).value * (nActualTimespan % 2 ^ 32).toNat % 2 ^ 512
    let divisor := (timespan % 2 ^ 64).toNat
    if divisor = 0 then .error "Division by zero"
    else
      let bnNew512 := bnNew512 / divisor
      .ok (getCompact (if bnNew512 > bnPowLimit then bnPowLimit else bnNew512 % 2 ^ 256))

/-- `GetNextWorkRequired` below the activation of the second algorithm. -/
def getLegacyWorkRequired (pindexLast : CBlockIndex) (ancestors : List CBlockIndex)
    (pblock : CBlockHeader) (params : Params) : Except String UInt32 :=
  let nProofOfWorkLimit := getCompact (uintToArith256 params.powLimit)
  let interval := difficultyAdjustmentInterval params
  if (pindexLast.nHeight + 1).tmod interval ≠ 0 then
    if params.fPowAllowMinDifficultyBlocks then
      if getBlockTime pblock.nTime > getBlockTime pindexLast.nTime + params.nPowTargetSpacing * 2
      then .ok nProofOfWorkLimit
      else .ok (lastOrdinaryBits params nProofOfWorkLimit pindexLast ancestors)
    else .ok pindexLast.nBits
  else
    -- on RandomX chains the intervals overlap by one block
    let nHeightFirst := if params.fPowRandomX then max 0 (pindexLast.nHeight - interval)
      else pindexLast.nHeight - (interval - 1)
    if ¬ nHeightFirst ≥ 0 then .error "assert(nHeightFirst >= 0)"
    else do
      match ← getAncestor pindexLast ancestors nHeightFirst with
      | none => .error "assert(pindexFirst)"
      | some pindexFirst =>
        calculateNextWorkRequired pindexLast (getBlockTime pindexFirst.nTime) params

def getNextWorkRequired (pindexLast : CBlockIndex) (ancestors : List CBlockIndex)
    (pblock : CBlockHeader) (params : Params) : Except String UInt32 :=
  if pindexLast.nHeight + 1 ≥ params.nDualAlgoActivationHeight then
    getDualAlgoWorkRequired pindexLast ancestors pblock params (isSecondAlgo pblock.nVersion)
  else
    match params.asertAnchorParams with
    | some anchorParams =>
      if pindexLast.nHeight + 1 ≥ params.nASERTActivationHeight then
        getNextASERTWorkRequired pindexLast pblock params anchorParams
      else getLegacyWorkRequired pindexLast ancestors pblock params
    | none => getLegacyWorkRequired pindexLast ancestors pblock params

/-! ### Targets are in range -/

theorem exists_scaledTarget (refTarget powLimit : Nat) (delta : TimeDelta) {nHalfLife : Int}
    (hhalf : nHalfLife ≠ 0) :
    ∃ target, scaledTarget refTarget powLimit delta nHalfLife = .ok target := by
  unfold scaledTarget
  simp only [hhalf, if_false]
  split_ifs <;> exact ⟨_, rfl⟩

theorem exists_calculateASERT {refTarget powLimit : Nat} {nHeightDiff nHalfLife : Int}
    (spacing nTimeDiff : Int) (href : 0 < refTarget) (hlimit : refTarget ≤ powLimit)
    (hheight : 0 ≤ nHeightDiff) (hhalf : nHalfLife ≠ 0) :
    ∃ target, calculateASERT refTarget spacing nTimeDiff nHeightDiff powLimit nHalfLife =
      .ok target := by
  obtain ⟨scaled, hscaled⟩ := exists_scaledTarget refTarget powLimit
    (timeDelta spacing nTimeDiff nHeightDiff) hhalf
  unfold calculateASERT
  rw [if_neg (by simp [href, hlimit]), if_neg (by simp [hheight])]
  dsimp only
  rw [hscaled]
  exact ⟨_, rfl⟩

theorem dualRefTarget_range (nBits : UInt32) {powLimit : Nat} (h : 0 < powLimit) :
    0 < dualRefTarget nBits powLimit ∧ dualRefTarget nBits powLimit ≤ powLimit := by
  unfold dualRefTarget
  dsimp only
  split_ifs <;> omega

/-! ### Chains -/

/-- Heights go down by one to the genesis block. -/
def Linked : CBlockIndex → List CBlockIndex → Prop
  | pindex, [] => pindex.nHeight = 0
  | pindex, pprev :: rest => pindex.nHeight = pprev.nHeight + 1 ∧ Linked pprev rest

def algoBlocks (nActHeight : Int) (fQhash : Bool) (chain : List CBlockIndex) : Nat :=
  chain.countP fun p => nActHeight ≤ p.nHeight ∧ isSecondAlgo p.nVersion = fQhash

variable {nActHeight : Int} {pindex : CBlockIndex} {ancestors : List CBlockIndex}

theorem Linked.nonneg (h : Linked pindex ancestors) : ∀ p ∈ pindex :: ancestors, 0 ≤ p.nHeight := by
  induction ancestors generalizing pindex with
  | nil =>
    intro p hp
    obtain rfl := List.mem_singleton.mp hp
    exact ge_of_eq h
  | cons pprev rest ih =>
    intro p hp
    rcases List.mem_cons.mp hp with rfl | hp
    · have hprev := ih h.2 pprev List.mem_cons_self
      have hnext := h.1
      omega
    · exact ih h.2 p hp

theorem Linked.le (h : Linked pindex ancestors) :
    ∀ p ∈ pindex :: ancestors, p.nHeight ≤ pindex.nHeight := by
  induction ancestors generalizing pindex with
  | nil => simp
  | cons pprev rest ih =>
    intro p hp
    rcases List.mem_cons.mp hp with rfl | hp
    · exact le_refl _
    · have hle := ih h.2 p hp
      have hnext := h.1
      omega

theorem algoBlocks_cons (fQhash : Bool) (p : CBlockIndex) (chain : List CBlockIndex) :
    algoBlocks nActHeight fQhash (p :: chain) = algoBlocks nActHeight fQhash chain +
      if nActHeight ≤ p.nHeight ∧ isSecondAlgo p.nVersion = fQhash then 1 else 0 := by
  simp [algoBlocks, List.countP_cons]

theorem algoBlocks_eq_zero (fQhash : Bool) (h : Linked pindex ancestors)
    (hbelow : pindex.nHeight < nActHeight) :
    algoBlocks nActHeight fQhash (pindex :: ancestors) = 0 := by
  unfold algoBlocks
  rw [List.countP_eq_zero]
  intro p hp
  have hle := h.le p hp
  simp only [decide_eq_true_eq, not_and]
  omega

theorem walkSecondAlgo_eq (h : Linked pindex ancestors) :
    walkSecondAlgo nActHeight (pindex :: ancestors) =
      algoBlocks nActHeight true (pindex :: ancestors) := by
  induction ancestors generalizing pindex with
  | nil => simp [walkSecondAlgo, algoBlocks, List.countP_cons, ite_and]
  | cons pprev rest ih =>
    rw [walkSecondAlgo]
    split
    · next hge =>
      rw [ih h.2, algoBlocks_cons true pindex]
      simp [hge.le, add_comm]
    · next hlt => rw [algoBlocks_eq_zero true h (not_le.mp hlt), Nat.cast_zero]

theorem algoBlocks_add (h : Linked pindex ancestors) (hact : 0 < nActHeight)
    (hpast : nActHeight - 1 ≤ pindex.nHeight) :
    (algoBlocks nActHeight true (pindex :: ancestors) +
      algoBlocks nActHeight false (pindex :: ancestors) : Int) =
      pindex.nHeight - (nActHeight - 1) := by
  induction ancestors generalizing pindex with
  | nil =>
    have hzero : pindex.nHeight = 0 := h
    rw [algoBlocks_eq_zero true h (by omega), algoBlocks_eq_zero false h (by omega)]
    omega
  | cons pprev rest ih =>
    by_cases hbelow : pindex.nHeight < nActHeight
    · rw [algoBlocks_eq_zero true h hbelow, algoBlocks_eq_zero false h hbelow]
      omega
    · have hnext := h.1
      have hrest := ih h.2 (by omega)
      rw [algoBlocks_cons true pindex, algoBlocks_cons false pindex]
      cases hbit : isSecondAlgo pindex.nVersion <;> simp [not_lt.mp hbelow] <;> omega

theorem walkTo_eq (h : Linked pindex ancestors) {anchor : CBlockIndex}
    (hmem : anchor ∈ pindex :: ancestors) :
    walkTo anchor.nHeight pindex ancestors pindex.nHeight = .ok anchor := by
  induction ancestors generalizing pindex with
  | nil =>
    obtain rfl := List.mem_singleton.mp hmem
    rw [walkTo, if_neg (lt_irrefl _)]
  | cons pprev rest ih =>
    have hnext := h.1
    rw [walkTo]
    rcases List.mem_cons.mp hmem with rfl | hmem
    · rw [if_neg (lt_irrefl _)]
    · have hbelow := h.2.le anchor hmem
      rw [if_pos (by omega), show pindex.nHeight - 1 = pprev.nHeight by omega]
      exact ih h.2 hmem

theorem getAncestor_eq (h : Linked pindex ancestors) {anchor : CBlockIndex}
    (hmem : anchor ∈ pindex :: ancestors) :
    getAncestor pindex ancestors anchor.nHeight = .ok (some anchor) := by
  have hle := h.le anchor hmem
  have hnonneg := h.nonneg anchor hmem
  unfold getAncestor
  rw [if_neg (by omega), walkTo_eq h hmem]
  rfl

def Counted (nActHeight : Int) (pindex : CBlockIndex) (ancestors : List CBlockIndex) : Prop :=
  pindex.nSecondAlgoCount < 0 ∨
    pindex.nSecondAlgoCount = algoBlocks nActHeight true (pindex :: ancestors)

theorem secondAlgoCount_eq (hlinked : Linked pindex ancestors)
    (hcounted : Counted nActHeight pindex ancestors) :
    secondAlgoCount nActHeight pindex ancestors =
      algoBlocks nActHeight true (pindex :: ancestors) := by
  unfold secondAlgoCount
  rcases hcounted with hunknown | hexact
  · rw [if_pos hunknown, walkSecondAlgo_eq hlinked]
  · rw [if_neg (by omega), hexact]

/-! ### What the cached count can change -/

def forgetCount (pindex : CBlockIndex) : CBlockIndex := { pindex with nSecondAlgoCount := -1 }

theorem getAncestor_forgetCount (pindex : CBlockIndex) (ancestors : List CBlockIndex)
    (height : Int) :
    getAncestor (forgetCount pindex) ancestors height = getAncestor pindex ancestors height ∨
      getAncestor (forgetCount pindex) ancestors height = .ok (some (forgetCount pindex)) ∧
        getAncestor pindex ancestors height = .ok (some pindex) := by
  by_cases hrange : height > pindex.nHeight ∨ height < 0
  · left
    rw [getAncestor, getAncestor, if_pos hrange]
    exact if_pos hrange
  · by_cases hhere : pindex.nHeight > height
    · left
      cases ancestors <;> simp [getAncestor, walkTo, forgetCount, hhere]
    · right
      cases ancestors <;>
        simp only [getAncestor, walkTo, forgetCount, hrange, hhere, if_false] <;> exact ⟨rfl, rfl⟩

theorem secondAlgoCount_forgetCount (hlinked : Linked pindex ancestors)
    (hcounted : Counted nActHeight pindex ancestors) :
    secondAlgoCount nActHeight (forgetCount pindex) ancestors =
      secondAlgoCount nActHeight pindex ancestors := by
  rw [secondAlgoCount_eq hlinked hcounted, ← walkSecondAlgo_eq hlinked]
  rfl

theorem getDualAlgoWorkRequired_forgetCount {params : Params} (pblock : CBlockHeader)
    (fQhash : Bool) (hlinked : Linked pindex ancestors)
    (hcounted : Counted params.nDualAlgoActivationHeight pindex ancestors) :
    getDualAlgoWorkRequired (forgetCount pindex) ancestors pblock params fQhash =
      getDualAlgoWorkRequired pindex ancestors pblock params fQhash := by
  unfold getDualAlgoWorkRequired
  dsimp only
  rw [secondAlgoCount_forgetCount hlinked hcounted]
  rcases getAncestor_forgetCount pindex ancestors (params.nDualAlgoActivationHeight - 1) with
    heq | ⟨hforgotten, hkept⟩
  · rw [heq]
    rfl
  · rw [hforgotten, hkept]
    rfl

theorem getLegacyWorkRequired_forgetCount (pindex : CBlockIndex) (ancestors : List CBlockIndex)
    (pblock : CBlockHeader) (params : Params) :
    getLegacyWorkRequired (forgetCount pindex) ancestors pblock params =
      getLegacyWorkRequired pindex ancestors pblock params := by
  have hordinary : ∀ limit, lastOrdinaryBits params limit (forgetCount pindex) ancestors =
      lastOrdinaryBits params limit pindex ancestors := by
    intro limit
    cases ancestors <;> rfl
  unfold getLegacyWorkRequired
  dsimp only
  rw [hordinary, show (forgetCount pindex).nHeight = pindex.nHeight from rfl]
  rcases getAncestor_forgetCount pindex ancestors
    (if params.fPowRandomX then max 0 (pindex.nHeight - difficultyAdjustmentInterval params)
      else pindex.nHeight - (difficultyAdjustmentInterval params - 1)) with
    heq | ⟨hforgotten, hkept⟩
  · rw [heq]
    rfl
  · rw [hforgotten, hkept]
    rfl

/-- **A right count changes nothing**: the next bits are those of the chain walk. -/
theorem getNextWorkRequired_forgetCount {params : Params} (pblock : CBlockHeader)
    (hlinked : Linked pindex ancestors)
    (hcounted : Counted params.nDualAlgoActivationHeight pindex ancestors) :
    getNextWorkRequired (forgetCount pindex) ancestors pblock params =
      getNextWorkRequired pindex ancestors pblock params := by
  unfold getNextWorkRequired
  rw [getDualAlgoWorkRequired_forgetCount pblock _ hlinked hcounted,
    getLegacyWorkRequired_forgetCount]
  rfl

/-! ### The schedule of one algorithm -/

/-- The bits of the next block of an algorithm that has made `nBlocks` blocks since the anchor. -/
def scheduledWork (params : Params) (nBits : UInt32) (nTimeDiff : Int) (nBlocks : Nat) :
    Except String UInt32 :=
  if params.fPowNoRetargeting then
    .ok (getCompact (dualRefTarget nBits (uintToArith256 params.powLimit)))
  else (calculateASERT (dualRefTarget nBits (uintToArith256 params.powLimit))
    params.nDualAlgoTargetSpacing nTimeDiff nBlocks (uintToArith256 params.powLimit)
    params.nASERTHalfLife).map getCompact

theorem exists_scheduledWork {params : Params} (nBits : UInt32) (nTimeDiff : Int) (nBlocks : Nat)
    (hlimit : 0 < uintToArith256 params.powLimit) (hhalf : params.nASERTHalfLife ≠ 0) :
    ∃ work, scheduledWork params nBits nTimeDiff nBlocks = .ok work := by
  obtain ⟨hpos, hle⟩ := dualRefTarget_range nBits hlimit
  obtain ⟨target, htarget⟩ := exists_calculateASERT params.nDualAlgoTargetSpacing nTimeDiff hpos hle
    (Int.natCast_nonneg nBlocks) hhalf
  unfold scheduledWork
  split
  · exact ⟨_, rfl⟩
  · exact ⟨getCompact target, by rw [htarget]; rfl⟩

theorem nHeightDiff_eq (h : Linked pindex ancestors) (hact : 0 < nActHeight)
    (hpast : nActHeight - 1 ≤ pindex.nHeight) (fQhash : Bool) :
    (if fQhash then (algoBlocks nActHeight true (pindex :: ancestors) : Int)
      else pindex.nHeight - (nActHeight - 1) - algoBlocks nActHeight true (pindex :: ancestors)) =
      algoBlocks nActHeight fQhash (pindex :: ancestors) := by
  have hsum := algoBlocks_add h hact hpast
  cases fQhash with
  | true => rfl
  | false =>
    rw [if_neg Bool.false_ne_true]
    omega

section Schedule

variable {params : Params} {anchor : CBlockIndex} (pblock : CBlockHeader)
  (hlinked : Linked pindex ancestors)
  (hcounted : Counted params.nDualAlgoActivationHeight pindex ancestors)
  (hmem : anchor ∈ pindex :: ancestors)
  (hanchor : anchor.nHeight = params.nDualAlgoActivationHeight - 1)
  (hmin : params.fPowAllowMinDifficultyBlocks = false)

include hlinked hcounted hmem hanchor hmin

theorem getDualAlgoWorkRequired_eq (fQhash : Bool) :
    getDualAlgoWorkRequired pindex ancestors pblock params fQhash =
      scheduledWork params anchor.nBits (getBlockTime pindex.nTime - getBlockTime anchor.nTime)
        (algoBlocks params.nDualAlgoActivationHeight fQhash (pindex :: ancestors)) := by
  have hnonneg := hlinked.nonneg anchor hmem
  have hle := hlinked.le anchor hmem
  have hact : 0 < params.nDualAlgoActivationHeight := by omega
  unfold getDualAlgoWorkRequired scheduledWork
  dsimp only
  rw [if_neg (not_not.mpr hact), ← hanchor, getAncestor_eq hlinked hmem, hanchor,
    secondAlgoCount_eq hlinked hcounted, nHeightDiff_eq hlinked hact (by omega), hmin]
  cases params.fPowNoRetargeting with
  | true => rfl
  | false => exact Checks.bind_pure_eq_map getCompact _

/-- Past activation only the anchor, the time of the tip and the number of blocks of the algorithm
enter the next bits. -/
theorem getNextWorkRequired_eq :
    getNextWorkRequired pindex ancestors pblock params =
      scheduledWork params anchor.nBits (getBlockTime pindex.nTime - getBlockTime anchor.nTime)
        (algoBlocks params.nDualAlgoActivationHeight (isSecondAlgo pblock.nVersion)
          (pindex :: ancestors)) := by
  have hle := hlinked.le anchor hmem
  rw [getNextWorkRequired, if_pos (by omega)]
  exact getDualAlgoWorkRequired_eq pblock hlinked hcounted hmem hanchor hmin _

end Schedule

structure IndexChain (params : Params) where
  tip : CBlockIndex
  ancestors : List CBlockIndex
  linked : Linked tip ancestors
  counted : Counted params.nDualAlgoActivationHeight tip ancestors

namespace IndexChain

variable {params : Params}

def blocks (chain : IndexChain params) : List CBlockIndex := chain.tip :: chain.ancestors

def nextWork (chain : IndexChain params) (pblock : CBlockHeader) : Except String UInt32 :=
  getNextWorkRequired chain.tip chain.ancestors pblock params

end IndexChain

/-- **The two difficulties do not interfere**: chains with like anchors and tip times and equally
many blocks of one algorithm give its next block the same bits. -/
theorem nextWork_independent (params : Params)
    (hmin : params.fPowAllowMinDifficultyBlocks = false) (chain chain' : IndexChain params)
    (anchor anchor' : CBlockIndex) (hmem : anchor ∈ chain.blocks) (hmem' : anchor' ∈ chain'.blocks)
    (hheight : anchor.nHeight = params.nDualAlgoActivationHeight - 1)
    (hheight' : anchor'.nHeight = params.nDualAlgoActivationHeight - 1)
    (hbits : anchor.nBits = anchor'.nBits) (htime : anchor.nTime = anchor'.nTime)
    (htip : chain.tip.nTime = chain'.tip.nTime) (fQhash : Bool)
    (hblocks : algoBlocks params.nDualAlgoActivationHeight fQhash chain.blocks =
      algoBlocks params.nDualAlgoActivationHeight fQhash chain'.blocks)
    (pblock pblock' : CBlockHeader) (halgo : isSecondAlgo pblock.nVersion = fQhash)
    (halgo' : isSecondAlgo pblock'.nVersion = fQhash) :
    chain.nextWork pblock = chain'.nextWork pblock' ∧
      (0 < uintToArith256 params.powLimit → params.nASERTHalfLife ≠ 0 →
        ∃ nBits, chain.nextWork pblock = .ok nBits) := by
  have hnext := getNextWorkRequired_eq pblock chain.linked chain.counted hmem hheight hmin
  have hnext' := getNextWorkRequired_eq pblock' chain'.linked chain'.counted hmem' hheight' hmin
  rw [halgo] at hnext
  rw [halgo'] at hnext'
  constructor
  · calc chain.nextWork pblock
        = scheduledWork params anchor.nBits (getBlockTime chain.tip.nTime -
            getBlockTime anchor.nTime)
            (algoBlocks params.nDualAlgoActivationHeight fQhash chain.blocks) := hnext
      _ = scheduledWork params anchor'.nBits (getBlockTime chain'.tip.nTime -
            getBlockTime anchor'.nTime)
            (algoBlocks params.nDualAlgoActivationHeight fQhash chain'.blocks) := by
          rw [hbits, htime, htip, hblocks]
      _ = chain'.nextWork pblock' := hnext'.symm
  · intro hlimit hhalf
    obtain ⟨nBits, hwork⟩ := exists_scheduledWork anchor.nBits
      (getBlockTime chain.tip.nTime - getBlockTime anchor.nTime)
      (algoBlocks params.nDualAlgoActivationHeight fQhash chain.blocks) hlimit hhalf
    exact ⟨nBits, hnext.trans hwork⟩

section Sample

def earlyParams : Params := { sampleParams with nDualAlgoActivationHeight := 1 }

def entryAt (nHeight : Int) (nVersion : Int32) (nTime : UInt32) (nSecondAlgoCount : Int) :
    CBlockIndex where
  nHeight := nHeight
  nVersion := nVersion
  nTime := nTime
  nBits := 0x207FFFFF
  nSecondAlgoCount := nSecondAlgoCount

def genesisEntry : CBlockIndex := entryAt 0 1 1000 0

def shortChain : IndexChain earlyParams where
  tip := entryAt 1 0x20000000 9000 0
  ancestors := [genesisEntry]
  linked := ⟨rfl, rfl⟩
  counted := .inr rfl

/-- A block of the first algorithm between two of the second one; the count is not cached. -/
def longChain : IndexChain earlyParams where
  tip := entryAt 3 0x60000000 9000 (-1)
  ancestors := [entryAt 2 0x20000000 4000 1, entryAt 1 0x60000000 2000 1, genesisEntry]
  linked := ⟨rfl, rfl, rfl, rfl⟩
  counted := .inl (by decide)

theorem shortChain_nextWork :
    shortChain.nextWork sampleHeader = longChain.nextWork sampleHeader ∧
      ∃ nBits, shortChain.nextWork sampleHeader = .ok nBits := by
  have hindependent := nextWork_independent earlyParams rfl shortChain longChain genesisEntry
    genesisEntry (by decide) (by decide) rfl rfl rfl rfl rfl false (by decide) sampleHeader
    sampleHeader (by decide) (by decide)
  exact ⟨hindependent.1, hindependent.2 (by decide +kernel) (by decide)⟩

end Sample

end Rcpu.Difficulty
