import Rcpu.CompactTarget
import Rcpu.Difficulty
import Rcpu.FloorScale

/-!
# The ASERT target

`CalculateASERT` in closed form: on the range of times and heights that chains have, the branches
that avoid overflow do not change the value, which is a fixed-point approximation of
`refTarget * 2 ^ (time_delta / nHalfLife)`.  From the closed form the target is seen to grow with
the time and the reference target and to shrink with the height.
-/

namespace Rcpu.Difficulty

open ArithUint256 FloorScale

/-! ### The closed form -/

/-- The exponent in units of `1 / 65536`, rounded toward zero. -/
def asertExponent (nPowTargetSpacing nTimeDiff nHeightDiff nHalfLife : Int) : Int :=
  ((nTimeDiff - nPowTargetSpacing * (nHeightDiff + 1)) * 65536).tdiv nHalfLife

def exactFactor (f : Nat) : Nat :=
  65536 + (195766423245049 * f + 971821376 * f ^ 2 + 5127 * f ^ 3 + 2 ^ 47) / 2 ^ 48

/-- The reference target times `2 ^ (e / 65536)`. -/
def exactTarget (refTarget : Nat) (e : Int) : Nat :=
  floorScale (refTarget * exactFactor (e % 65536).toNat) (e / 65536 - 16)

section Factor

variable {f g : Nat}

theorem asertFactor_eq (hf : f < 65536) : asertFactor f = exactFactor f := by
  have hf' : f ≤ 65535 := by omega
  have hsquare : f * f ≤ 65535 * 65535 := Nat.mul_le_mul hf' hf'
  have hcube : f * f * f ≤ 65535 * 65535 * 65535 := Nat.mul_le_mul hsquare hf'
  have hsum : 195766423245049 * f + 971821376 * f * f + 5127 * f * f * f + 2 ^ 47 < 2 ^ 64 := by
    rw [Nat.mul_assoc 971821376, Nat.mul_assoc (5127 * f), Nat.mul_assoc 5127, ← Nat.mul_assoc f]
    omega
  unfold asertFactor exactFactor
  rw [Nat.mod_eq_of_lt hsum]
  congr 2
  ring

theorem exactFactor_mono (hfg : f ≤ g) : exactFactor f ≤ exactFactor g := by
  unfold exactFactor
  gcongr

theorem le_exactFactor (f : Nat) : 65536 ≤ exactFactor f := Nat.le_add_right _ _

theorem exactFactor_le (hf : f < 65536) : exactFactor f ≤ 131072 :=
  le_trans (exactFactor_mono (by omega : f ≤ 65535)) (by decide)

end Factor

section Value

variable {refTarget powLimit : Nat} {nPowTargetSpacing nTimeDiff nHeightDiff nHalfLife : Int}

def clampTarget (powLimit n : Nat) : Nat := max 1 (min powLimit n)

theorem mod_frac_lt (e : Int) : (e % 65536).toNat < 65536 := by
  have := Int.emod_lt_of_pos e (by decide : (0 : Int) < 65536)
  omega

theorem scaled_lt (href : refTarget < 2 ^ 256) (e : Int) :
    refTarget * exactFactor (e % 65536).toNat < 2 ^ 273 := by
  have hfactor := exactFactor_le (mod_frac_lt e)
  calc refTarget * exactFactor (e % 65536).toNat ≤ refTarget * 131072 := Nat.mul_le_mul_left _ hfactor
    _ < 2 ^ 273 := by omega

theorem clampTarget_of_le {n : Nat} (h : powLimit ≤ n) :
    clampTarget powLimit n = clampTarget powLimit powLimit := by
  unfold clampTarget
  rw [Nat.min_eq_left h, Nat.min_self]

theorem clampTarget_of_le_one {n : Nat} (h : n ≤ 1) : clampTarget powLimit n = 1 := by
  unfold clampTarget
  omega

theorem clampTarget_mono {m n : Nat} (h : m ≤ n) :
    clampTarget powLimit m ≤ clampTarget powLimit n := by
  unfold clampTarget
  omega

/-- Neither the early exits nor the check for lost bits change the value. -/
theorem clampTarget_shiftTarget {x : Nat} (hx : x < 2 ^ 512) (hpos : 0 < x)
    (hlimit : powLimit < 2 ^ 256) (shifts : Int) :
    clampTarget powLimit (shiftTarget x powLimit shifts) =
      clampTarget powLimit (floorScale x shifts) := by
  -- a product that needs more than 512 bits exceeds the limit
  have hover : 2 ^ 512 ≤ floorScale x shifts →
      clampTarget powLimit powLimit = clampTarget powLimit (floorScale x shifts) := by
    intro hbig
    have hpow := pow_le_pow_right₀ (one_le_two : 1 ≤ 2) (show 256 ≤ 512 by decide)
    exact (clampTarget_of_le (le_trans hlimit.le (le_trans hpow hbig))).symm
  unfold shiftTarget
  dsimp only
  split_ifs with hlarge hsmall hright hlost
  · apply hover
    rw [floorScale_of_nonneg x (by omega)]
    calc 2 ^ 512 ≤ 2 ^ shifts.toNat := Nat.pow_le_pow_right (by decide) (by omega)
      _ ≤ x * 2 ^ shifts.toNat := Nat.le_mul_of_pos_left _ hpos
  · rw [floorScale_eq_zero hx hsmall.le, clampTarget_of_le_one (le_refl 1),
      clampTarget_of_le_one (Nat.zero_le 1)]
  · rw [floorScale_of_nonpos x hright]
  · apply hover
    rw [floorScale_of_nonneg x (by omega)]
    by_contra hfits
    rw [Nat.mod_eq_of_lt (not_le.mp hfits), Nat.mul_div_cancel _ (Nat.two_pow_pos _)] at hlost
    exact hlost rfl
  · rw [floorScale_of_nonneg x (by omega)]
    have hkept : x * 2 ^ shifts.toNat ≤ x * 2 ^ shifts.toNat % 2 ^ 512 := by
      have hle := Nat.div_mul_le_self (x * 2 ^ shifts.toNat % 2 ^ 512) (2 ^ shifts.toNat)
      rwa [not_not.mp hlost] at hle
    rw [le_antisymm (Nat.mod_le _ _) hkept]

theorem calculateASERT_eq {scaled : Nat} (href : 0 < refTarget) (hle : refTarget ≤ powLimit)
    (hlimit : powLimit < 2 ^ 256) (hheight : 0 ≤ nHeightDiff)
    (hscaled : scaledTarget refTarget powLimit (timeDelta nPowTargetSpacing nTimeDiff nHeightDiff)
      nHalfLife = .ok scaled) :
    calculateASERT refTarget nPowTargetSpacing nTimeDiff nHeightDiff powLimit nHalfLife =
      .ok (clampTarget powLimit scaled) := by
  unfold calculateASERT
  rw [if_neg (by simp [href, hle]), if_neg (by simp [hheight])]
  dsimp only
  rw [hscaled]
  have hmod : min scaled powLimit % 2 ^ 256 = min scaled powLimit :=
    Nat.mod_eq_of_lt (lt_of_le_of_lt (Nat.min_le_right _ _) hlimit)
  dsimp only [bind, Except.bind]
  rw [hmod]
  unfold clampTarget
  congr 1
  split_ifs with hzero habove
  · omega
  · omega
  · omega

/-- The saturated time difference is the exact one, or far below zero. -/
theorem timeDelta_cases (hspacing : 0 < nPowTargetSpacing) (htime : |nTimeDiff| < 2 ^ 33)
    (hheight : 0 ≤ nHeightDiff) :
    timeDelta nPowTargetSpacing nTimeDiff nHeightDiff =
        { time_delta := nTimeDiff - nPowTargetSpacing * (nHeightDiff + 1) } ∨
      timeDelta nPowTargetSpacing nTimeDiff nHeightDiff = { overflow_low := true } ∧
        nTimeDiff - nPowTargetSpacing * (nHeightDiff + 1) < -2 ^ 62 := by
  obtain ⟨hlow, hhigh⟩ := abs_lt.mp htime
  have hideal : 0 < nPowTargetSpacing * (nHeightDiff + 1) := Int.mul_pos hspacing (by omega)
  have hover : nPowTargetSpacing > INT64_MAX.tdiv (nHeightDiff + 1) →
      INT64_MAX < nPowTargetSpacing * (nHeightDiff + 1) := by
    intro hlarge
    rw [Int.tdiv_eq_ediv_of_nonneg (by decide)] at hlarge
    exact (Int.ediv_lt_iff_lt_mul (by omega)).mp hlarge
  unfold timeDelta
  dsimp only
  unfold INT64_MAX at hover ⊢
  unfold INT64_MIN
  generalize nPowTargetSpacing * (nHeightDiff + 1) = ideal at hideal hover ⊢
  rw [if_neg (by omega : ¬ ideal < 0),
    if_neg (by omega : ¬ (nTimeDiff ≥ 0 ∧ nTimeDiff > 2 ^ 63 - 1 + 0))]
  split_ifs with hlarge hbehind
  · right
    have := hover hlarge.2.2
    exact ⟨rfl, by omega⟩
  · right
    exact ⟨rfl, by omega⟩
  · left
    rfl

theorem exactTarget_eq_zero (href : refTarget < 2 ^ 256) {e : Int} (he : e ≤ -2 ^ 30) :
    exactTarget refTarget e = 0 := by
  refine floorScale_eq_zero (scaled_lt href e) ?_
  omega

theorem asertExponent_le (hhalf : 0 < nHalfLife) (hhalf' : nHalfLife ≤ 2 ^ 30)
    (hdelta : nTimeDiff - nPowTargetSpacing * (nHeightDiff + 1) < -(2 ^ 47 - 1)) :
    asertExponent nPowTargetSpacing nTimeDiff nHeightDiff nHalfLife ≤ -2 ^ 30 := by
  unfold asertExponent
  generalize nTimeDiff - nPowTargetSpacing * (nHeightDiff + 1) = delta at hdelta ⊢
  have hneg : (delta * 65536).tdiv nHalfLife = -((-delta * 65536) / nHalfLife) := by
    rw [← Int.tdiv_eq_ediv_of_nonneg (by omega), ← Int.neg_tdiv, Int.neg_mul, Int.neg_neg]
  have hquotient : 2 ^ 30 ≤ (-delta * 65536) / nHalfLife := by
    rw [Int.le_ediv_iff_mul_le hhalf]
    omega
  rw [hneg]
  omega

/-- **`CalculateASERT` in closed form.** -/
theorem calculateASERT_closed (href : 0 < refTarget) (hle : refTarget ≤ powLimit)
    (hlimit : powLimit < 2 ^ 256) (hspacing : 0 < nPowTargetSpacing) (hhalf : 0 < nHalfLife)
    (hhalf' : nHalfLife ≤ 2 ^ 30) (htime : |nTimeDiff| < 2 ^ 33) (hheight : 0 ≤ nHeightDiff) :
    calculateASERT refTarget nPowTargetSpacing nTimeDiff nHeightDiff powLimit nHalfLife =
      .ok (clampTarget powLimit (exactTarget refTarget
        (asertExponent nPowTargetSpacing nTimeDiff nHeightDiff nHalfLife))) := by
  have href' : refTarget < 2 ^ 256 := lt_of_le_of_lt hle hlimit
  have hmax : INT64_MAX.tdiv 65536 = 2 ^ 47 - 1 := by decide
  have hbehind := @asertExponent_le nPowTargetSpacing nTimeDiff nHeightDiff nHalfLife hhalf hhalf'
  -- both low exits return the smallest target, which is what the formula gives there
  have hlow : nTimeDiff - nPowTargetSpacing * (nHeightDiff + 1) < -(2 ^ 47 - 1) →
      clampTarget powLimit 1 = clampTarget powLimit (exactTarget refTarget
        (asertExponent nPowTargetSpacing nTimeDiff nHeightDiff nHalfLife)) := by
    intro hdelta
    rw [exactTarget_eq_zero href' (hbehind hdelta), clampTarget_of_le_one (le_refl 1),
      clampTarget_of_le_one (Nat.zero_le 1)]
  have hideal : 0 < nPowTargetSpacing * (nHeightDiff + 1) := Int.mul_pos hspacing (by omega)
  have hahead := (abs_lt.mp htime).2
  rcases timeDelta_cases hspacing htime hheight with hexact | ⟨hover, hdelta⟩
  · by_cases hdelta : nTimeDiff - nPowTargetSpacing * (nHeightDiff + 1) < -(2 ^ 47 - 1)
    · rw [← hlow hdelta]
      refine calculateASERT_eq href hle hlimit hheight ?_
      unfold scaledTarget
      rw [hexact, hmax]
      dsimp only
      rw [if_neg (by simp; omega), if_pos (.inr hdelta)]
    · have hfrac := mod_frac_lt (asertExponent nPowTargetSpacing nTimeDiff nHeightDiff nHalfLife)
      have hscaled := scaled_lt href'
        (asertExponent nPowTargetSpacing nTimeDiff nHeightDiff nHalfLife)
      have hpow := pow_le_pow_right₀ (one_le_two : 1 ≤ 2) (show 273 ≤ 512 by decide)
      have hbits := lt_of_lt_of_le hscaled hpow
      have hpos : 0 < refTarget * exactFactor
          (asertExponent nPowTargetSpacing nTimeDiff nHeightDiff nHalfLife % 65536).toNat :=
        Nat.mul_pos href (lt_of_lt_of_le (by decide) (le_exactFactor _))
      unfold exactTarget
      rw [← clampTarget_shiftTarget hbits hpos hlimit]
      refine calculateASERT_eq href hle hlimit hheight ?_
      unfold scaledTarget
      rw [hexact, hmax]
      dsimp only
      rw [if_neg (by simp; omega), if_neg (by simp; omega), if_neg hhalf.ne']
      have hexponent : ((nTimeDiff - nPowTargetSpacing * (nHeightDiff + 1)) * 65536).tdiv nHalfLife =
          asertExponent nPowTargetSpacing nTimeDiff nHeightDiff nHalfLife := rfl
      rw [hexponent, asertFactor_eq hfrac, Nat.mod_eq_of_lt hbits]
  · rw [← hlow (by omega)]
    refine calculateASERT_eq href hle hlimit hheight ?_
    unfold scaledTarget
    rw [hover, hmax]
    rfl

/-- **`CalculateASERT` computes the fixed-point target exactly**, rounded down and cut off at `1`
and `powLimit`. -/
theorem calculateASERT_exact (href : 0 < refTarget) (hle : refTarget ≤ powLimit)
    (hlimit : powLimit < 2 ^ 256) (hspacing : 0 < nPowTargetSpacing) (hhalf : 0 < nHalfLife)
    (hhalf' : nHalfLife ≤ 2 ^ 30) (htime : |nTimeDiff| < 2 ^ 33) (hheight : 0 ≤ nHeightDiff) :
    ∃ target, calculateASERT refTarget nPowTargetSpacing nTimeDiff nHeightDiff powLimit nHalfLife =
        .ok target ∧
      let e := ((nTimeDiff - nPowTargetSpacing * (nHeightDiff + 1)) * 65536).tdiv nHalfLife
      let s := e / 65536
      let f := e - 65536 * s
      let F : Int :=
        65536 + (195766423245049 * f + 971821376 * f ^ 2 + 5127 * f ^ 3 + 2 ^ 47) / 2 ^ 48
      (target : Int) = max 1 (min (powLimit : Int) ⌊(refTarget : ℚ) * (F : ℚ) * 2 ^ (s - 16)⌋) := by
  refine ⟨_, calculateASERT_closed href hle hlimit hspacing hhalf hhalf' htime hheight, ?_⟩
  intro e s f F
  have hf : f = ((e % 65536).toNat : Int) := by
    have hnonneg := Int.emod_nonneg e (by decide : (65536 : Int) ≠ 0)
    have hsplit := Int.mul_ediv_add_emod e 65536
    omega
  have hF : F = (exactFactor (e % 65536).toNat : Int) := by
    show 65536 + (195766423245049 * f + 971821376 * f ^ 2 + 5127 * f ^ 3 + 2 ^ 47) / 2 ^ 48 = _
    rw [hf]
    unfold exactFactor
    push_cast
    rfl
  have hfloor : ⌊(refTarget : ℚ) * (F : ℚ) * 2 ^ (s - 16)⌋ = (exactTarget refTarget e : Int) := by
    unfold exactTarget
    rw [← floor_mul_zpow, hF]
    push_cast
    rfl
  rw [hfloor]
  unfold clampTarget
  push_cast
  rfl

end Value

/-- Half a half-life behind schedule. -/
theorem calculateASERT_exact_sample :
    ∃ target, calculateASERT (2 ^ 240) 600 87000 71 (2 ^ 255) 172800 = .ok target ∧
      (target : Int) = max 1 (min ((2 ^ 255 : Nat) : Int) ⌊((2 ^ 240 : Nat) : ℚ) *
        (65536 + (195766423245049 * 16611 + 971821376 * 16611 ^ 2 + 5127 * 16611 ^ 3 + 2 ^ 47) /
          2 ^ 48 : Int) * 2 ^ ((0 : Int) - 16)⌋) :=
  calculateASERT_exact (by decide +kernel) (by decide +kernel) (by decide +kernel) (by decide)
    (by decide) (by decide) (by decide) (by decide)

/-! ### Monotonicity -/

section Monotone

variable {refTarget refTarget' powLimit : Nat} {e e' : Int}
  {nPowTargetSpacing nTimeDiff nTimeDiff' nHeightDiff nHeightDiff' nHalfLife : Int}

theorem exactTarget_mono_ref (h : refTarget ≤ refTarget') (e : Int) :
    exactTarget refTarget e ≤ exactTarget refTarget' e :=
  floorScale_mono_left (Nat.mul_le_mul_right _ h) _

/-- The target grows within an octave and from one octave to the next. -/
theorem exactTarget_mono (h : e ≤ e') : exactTarget refTarget e ≤ exactTarget refTarget e' := by
  unfold exactTarget
  by_cases hsame : e / 65536 = e' / 65536
  · rw [hsame]
    refine floorScale_mono_left (Nat.mul_le_mul_left _ (exactFactor_mono ?_)) _
    omega
  · have hnext : e / 65536 - 16 + 1 ≤ e' / 65536 - 16 := by omega
    calc floorScale (refTarget * exactFactor (e % 65536).toNat) (e / 65536 - 16)
        ≤ floorScale (refTarget * 131072) (e / 65536 - 16) :=
          floorScale_mono_left (Nat.mul_le_mul_left _ (exactFactor_le (mod_frac_lt e))) _
      _ = floorScale (refTarget * 65536) (e / 65536 - 16 + 1) := by
          rw [← floorScale_mul_two, Nat.mul_assoc]
      _ ≤ floorScale (refTarget * 65536) (e' / 65536 - 16) := floorScale_mono_right _ hnext
      _ ≤ floorScale (refTarget * exactFactor (e' % 65536).toNat) (e' / 65536 - 16) :=
          floorScale_mono_left (Nat.mul_le_mul_left _ (le_exactFactor _)) _

theorem asertExponent_mono (hspacing : 0 < nPowTargetSpacing) (hhalf : 0 < nHalfLife)
    (htime : nTimeDiff ≤ nTimeDiff') (hheight : nHeightDiff' ≤ nHeightDiff) :
    asertExponent nPowTargetSpacing nTimeDiff nHeightDiff nHalfLife ≤
      asertExponent nPowTargetSpacing nTimeDiff' nHeightDiff' nHalfLife := by
  have hideal : nPowTargetSpacing * (nHeightDiff' + 1) ≤ nPowTargetSpacing * (nHeightDiff + 1) :=
    Int.mul_le_mul_of_nonneg_left (by omega) hspacing.le
  refine Int.tdiv_le_tdiv hhalf ?_
  omega

theorem clampTarget_lt {n : Nat} (hlimit : powLimit < 2 ^ 256) : clampTarget powLimit n < 2 ^ 256 := by
  unfold clampTarget
  omega

/-- **ASERT is monotone** in the time, the reference target and, the other way, the height; so is
its compact form. -/
theorem calculateASERT_monotone (href : 0 < refTarget) (hrefs : refTarget ≤ refTarget')
    (hle : refTarget' ≤ powLimit) (hlimit : powLimit < 2 ^ 256) (hspacing : 0 < nPowTargetSpacing)
    (hhalf : 0 < nHalfLife) (hhalf' : nHalfLife ≤ 2 ^ 30) (htime : |nTimeDiff| < 2 ^ 33)
    (htime' : |nTimeDiff'| < 2 ^ 33) (htimes : nTimeDiff ≤ nTimeDiff') (hheight' : 0 ≤ nHeightDiff')
    (hheights : nHeightDiff' ≤ nHeightDiff) :
    ∃ target target',
      calculateASERT refTarget nPowTargetSpacing nTimeDiff nHeightDiff powLimit nHalfLife =
        .ok target ∧
      calculateASERT refTarget' nPowTargetSpacing nTimeDiff' nHeightDiff' powLimit nHalfLife =
        .ok target' ∧
      target ≤ target' ∧
      (setCompact (getCompact target)).value ≤ (setCompact (getCompact target')).value := by
  refine ⟨_, _,
    calculateASERT_closed href (le_trans hrefs hle) hlimit hspacing hhalf hhalf' htime
      (le_trans hheight' hheights),
    calculateASERT_closed (lt_of_lt_of_le href hrefs) hle hlimit hspacing hhalf hhalf' htime' hheight',
    ?_⟩
  have hexponent := asertExponent_mono hspacing hhalf htimes hheights
  have htarget := @clampTarget_mono powLimit _ _
    (le_trans (exactTarget_mono_ref hrefs _) (exactTarget_mono hexponent))
  refine ⟨htarget, ?_⟩
  rw [setCompact_getCompact (clampTarget_lt hlimit), setCompact_getCompact (clampTarget_lt hlimit)]
  exact truncated_mono htarget

/-- One block more and a day less. -/
theorem calculateASERT_monotone_sample :
    ∃ target target', calculateASERT (2 ^ 240) 600 0 72 (2 ^ 255) 172800 = .ok target ∧
      calculateASERT (2 ^ 240) 600 86400 71 (2 ^ 255) 172800 = .ok target' ∧ target ≤ target' ∧
      (setCompact (getCompact target)).value ≤ (setCompact (getCompact target')).value :=
  calculateASERT_monotone (by decide +kernel) (le_refl _) (by decide +kernel) (by decide +kernel)
    (by decide) (by decide) (by decide) (by decide) (by decide) (by decide) (by decide) (by decide)

end Monotone

end Rcpu.Difficulty
