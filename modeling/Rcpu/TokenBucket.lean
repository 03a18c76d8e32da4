import Mathlib.Algebra.Order.Ring.Int
import Mathlib.Tactic.Linarith
import Mathlib.Tactic.Ring

/-!
# Token buckets

A counter of tokens that refills with time up to a burst, and requests that are granted while it
covers them.  What is granted within a window is bounded by the burst and the refill of the window.
Times and amounts are integers and refills are rounded down, so the bound is proved on the counter
times the unit of time, where nothing is rounded.
-/

namespace Rcpu.TokenBucket

/-! ### Requests over time -/

section Requests

variable {σ τ : Type} (request : σ → Int → Int → σ × Bool)

def run (state : σ) (calls : List (Int × Int)) : σ :=
  calls.foldl (fun state call => (request state call.1 call.2).1) state

/-- The total of the positive requests granted between `s` and `e`. -/
def spentIn (s e : Int) : σ → List (Int × Int) → Int
  | _, [] => 0
  | state, (now, n) :: calls =>
    (if (request state now n).2 = true ∧ 0 < n ∧ s ≤ now ∧ now ≤ e then n else 0) +
      spentIn s e (request state now n).1 calls

/-- The calls come in the order of time, and none before `t`. -/
def Ordered : Int → List (Int × Int) → Prop
  | _, [] => True
  | t, (now, _) :: calls => t ≤ now ∧ Ordered now calls

variable {request} {request' : τ → Int → Int → τ × Bool} {f : σ → τ}
  (h : ∀ state now n, (f (request state now n).1, (request state now n).2) = request' (f state) now n)
include h

/-- A change of the state's form changes nothing that is observed. -/
theorem run_map (state : σ) (calls : List (Int × Int)) :
    f (run request state calls) = run request' (f state) calls := by
  induction calls generalizing state with
  | nil => rfl
  | cons call calls ih =>
    rw [run, List.foldl_cons, ← run, ih, run, run, List.foldl_cons, ← h]

theorem spentIn_map (s e : Int) (state : σ) (calls : List (Int × Int)) :
    spentIn request s e state calls = spentIn request' s e (f state) calls := by
  induction calls generalizing state with
  | nil => rfl
  | cons call calls ih =>
    obtain ⟨now, n⟩ := call
    rw [spentIn, spentIn, ih, ← h]

end Requests

/-! ### Buckets -/

structure Limit where
  burst : Int
  refill : Int
  unit : Int
  burst_nonneg : 0 ≤ burst
  refill_nonneg : 0 ≤ refill
  unit_pos : 0 < unit

structure Bucket where
  tokens : Int
  last : Int
deriving DecidableEq

variable (L : Limit)

def refilled (b : Bucket) (now : Int) : Bucket :=
  if now - b.last > 0 then
    ⟨min L.burst (b.tokens + ((now - b.last) * L.refill).tdiv L.unit), now⟩
  else b

def consume (b : Bucket) (now n : Int) : Bucket × Bool :=
  if n ≤ 0 then (b, true)
  else
    let b := refilled L b now
    if b.tokens < n then (b, false) else ({ b with tokens := b.tokens - n }, true)

def full (created : Int) : Bucket := ⟨L.burst, created⟩

structure Sound (b : Bucket) (now : Int) : Prop where
  nonneg : 0 ≤ b.tokens
  le_burst : b.tokens ≤ L.burst
  last_le : b.last ≤ now

def credit (b : Bucket) (t : Int) : Int :=
  min (L.burst * L.unit) (b.tokens * L.unit + (t - b.last) * L.refill)

variable {L} {b : Bucket} {now n : Int}

theorem sound_full (L : Limit) (created : Int) : Sound L (full L created) created :=
  ⟨L.burst_nonneg, le_refl _, le_refl _⟩

/-! ### One request -/

/-- A refill at a later time keeps the counter within its bounds, and adds no more than the time is
worth. -/
theorem refilled_spec (hb : Sound L b now) :
    (refilled L b now).last = now ∧ b.tokens ≤ (refilled L b now).tokens ∧
      (refilled L b now).tokens ≤ L.burst ∧ (refilled L b now).tokens * L.unit ≤ credit L b now := by
  have hlast := hb.last_le
  have hburst := hb.le_burst
  have hunit := L.unit_pos
  rw [refilled, credit]
  by_cases helapsed : now - b.last > 0
  · have hprod : 0 ≤ (now - b.last) * L.refill := mul_nonneg (by omega) L.refill_nonneg
    have hrefill : 0 ≤ ((now - b.last) * L.refill).tdiv L.unit := Int.tdiv_nonneg hprod (by omega)
    have hfloor : ((now - b.last) * L.refill).tdiv L.unit * L.unit ≤ (now - b.last) * L.refill := by
      rw [Int.tdiv_eq_ediv_of_nonneg hprod]
      exact Int.ediv_mul_le _ (by omega)
    rw [if_pos helapsed]
    refine ⟨rfl, by dsimp only; omega, min_le_left _ _, le_min ?_ ?_⟩
    · exact mul_le_mul_of_nonneg_right (min_le_left _ _) hunit.le
    · calc _ ≤ (b.tokens + ((now - b.last) * L.refill).tdiv L.unit) * L.unit :=
            mul_le_mul_of_nonneg_right (min_le_right _ _) hunit.le
        _ ≤ _ := by
            rw [add_mul]
            exact add_le_add_right hfloor _
  · have hnow : now = b.last := by omega
    rw [if_neg helapsed, hnow, sub_self, zero_mul, add_zero]
    exact ⟨rfl, le_refl _, hburst, le_min (mul_le_mul_of_nonneg_right hburst hunit.le) (le_refl _)⟩

theorem consume_cases (L : Limit) (b : Bucket) (now n : Int) :
    (n ≤ 0 ∧ consume L b now n = (b, true)) ∨
    (0 < n ∧ (refilled L b now).tokens < n ∧ consume L b now n = (refilled L b now, false)) ∨
    (0 < n ∧ n ≤ (refilled L b now).tokens ∧
      consume L b now n = ({ refilled L b now with tokens := (refilled L b now).tokens - n }, true)) := by
  rw [consume]
  by_cases hn : n ≤ 0
  · exact .inl ⟨hn, if_pos hn⟩
  · rw [if_neg hn]
    by_cases hshort : (refilled L b now).tokens < n
    · exact .inr (.inl ⟨by omega, hshort, if_pos hshort⟩)
    · exact .inr (.inr ⟨by omega, by omega, if_neg hshort⟩)

theorem sound_consume (hb : Sound L b now) : Sound L (consume L b now n).1 now := by
  obtain ⟨hlast, hmore, hburst, -⟩ := refilled_spec hb
  have hnonneg := hb.nonneg
  rcases consume_cases L b now n with ⟨-, h⟩ | ⟨-, -, h⟩ | ⟨hn, hcover, h⟩
  · rw [h]
    exact hb
  · rw [h]
    exact ⟨le_trans hnonneg hmore, hburst, hlast.le⟩
  · rw [h]
    exact ⟨by dsimp only; omega, by dsimp only; omega, hlast.le⟩

theorem credit_consume (hb : Sound L b now) :
    credit L (consume L b now n).1 now +
        (if (consume L b now n).2 = true ∧ 0 < n then n else 0) * L.unit ≤ credit L b now := by
  obtain ⟨hlast, -, -, hcredit⟩ := refilled_spec hb
  have hreduce (k : Int) :
      credit L { refilled L b now with tokens := (refilled L b now).tokens - k } now + k * L.unit
        ≤ credit L b now := by
    have hle : credit L { refilled L b now with tokens := (refilled L b now).tokens - k } now
        ≤ ((refilled L b now).tokens - k) * L.unit := by
      refine le_trans (min_le_right _ _) ?_
      rw [hlast, sub_self, zero_mul, add_zero]
    rw [sub_mul] at hle
    linarith
  rcases consume_cases L b now n with ⟨hn, h⟩ | ⟨-, -, h⟩ | ⟨hn, -, h⟩
  · rw [h, if_neg (by omega), zero_mul, add_zero]
  · have hzero := hreduce 0
    rw [sub_zero] at hzero
    rw [h, if_neg (by simp only [Bool.false_eq_true, false_and, not_false_iff])]
    exact hzero
  · rw [h, if_pos ⟨rfl, hn⟩]
    exact hreduce n

/-! ### Windows -/

variable {s e : Int} {calls : List (Int × Int)}

theorem credit_le_burst (L : Limit) (b : Bucket) (t : Int) : credit L b t ≤ L.burst * L.unit :=
  min_le_left _ _

theorem credit_nonneg (hb : Sound L b now) : 0 ≤ credit L b now :=
  le_min (mul_nonneg L.burst_nonneg L.unit_pos.le)
    (add_nonneg (mul_nonneg hb.nonneg L.unit_pos.le)
      (mul_nonneg (by have := hb.last_le; omega) L.refill_nonneg))

theorem credit_le_add (b : Bucket) {t : Int} (ht : t ≤ now) :
    credit L b now ≤ credit L b t + (now - t) * L.refill := by
  have hgain : 0 ≤ (now - t) * L.refill := mul_nonneg (by omega) L.refill_nonneg
  rw [credit, credit, ← min_add_add_right]
  refine min_le_min (by omega) (le_of_eq ?_)
  rw [add_assoc, ← add_mul]
  congr 2
  omega

theorem spentIn_of_after (hcalls : Ordered now calls) (hnow : e < now) : spentIn (consume L) s e b calls = 0 := by
  induction calls generalizing b now with
  | nil => rfl
  | cons call calls ih =>
    obtain ⟨time, k⟩ := call
    obtain ⟨htime, hrest⟩ := hcalls
    rw [spentIn, if_neg (by omega), ih hrest (by omega), add_zero]

/-- From time `t` on, what is spent up to `e` is covered by the credit at `t` and the refill. -/
theorem spentIn_le_credit {t : Int} (hb : Sound L b t) (hcalls : Ordered t calls) (hte : t ≤ e) :
    spentIn (consume L) s e b calls * L.unit ≤ credit L b t + (e - t) * L.refill := by
  induction calls generalizing b t with
  | nil =>
    rw [spentIn, zero_mul]
    exact add_nonneg (credit_nonneg hb) (mul_nonneg (by omega) L.refill_nonneg)
  | cons call calls ih =>
    obtain ⟨time, k⟩ := call
    obtain ⟨htime, hrest⟩ := hcalls
    have hall : Ordered time ((time, k) :: calls) := ⟨le_refl time, hrest⟩
    by_cases hlate : e < time
    · rw [spentIn_of_after hall hlate, zero_mul]
      exact add_nonneg (credit_nonneg hb) (mul_nonneg (by omega) L.refill_nonneg)
    · have hb' : Sound L b time := ⟨hb.nonneg, hb.le_burst, le_trans hb.last_le htime⟩
      have hnext := ih (sound_consume (n := k) hb') hrest (by omega)
      have hspend := credit_consume (n := k) hb'
      have hgain := credit_le_add (L := L) b htime
      have hcount : (if (consume L b time k).2 = true ∧ 0 < k ∧ s ≤ time ∧ time ≤ e then k else 0)
          * L.unit ≤ (if (consume L b time k).2 = true ∧ 0 < k then k else 0) * L.unit := by
        apply mul_le_mul_of_nonneg_right _ L.unit_pos.le
        by_cases hgrant : (consume L b time k).2 = true ∧ 0 < k
        · rw [if_pos hgrant]
          split_ifs <;> omega
        · rw [if_neg hgrant, if_neg fun h => hgrant ⟨h.1, h.2.1⟩]
      have hsplit : (e - t) * L.refill = (e - time) * L.refill + (time - t) * L.refill := by ring
      rw [spentIn, add_mul, hsplit]
      linarith

/-- In any window no more is granted than the burst and the refill of the window. -/
theorem spentIn_le (hb : Sound L b now) (hcalls : Ordered now calls) (hse : s ≤ e) :
    spentIn (consume L) s e b calls ≤ L.burst + (e - s) * L.refill / L.unit := by
  have hunit := L.unit_pos
  have hscaled : spentIn (consume L) s e b calls * L.unit ≤ L.burst * L.unit + (e - s) * L.refill := by
    induction calls generalizing b now with
    | nil =>
      rw [spentIn, zero_mul]
      exact add_nonneg (mul_nonneg L.burst_nonneg hunit.le) (mul_nonneg (by omega) L.refill_nonneg)
    | cons call calls ih =>
      obtain ⟨time, k⟩ := call
      obtain ⟨htime, hrest⟩ := hcalls
      have hall : Ordered time ((time, k) :: calls) := ⟨le_refl time, hrest⟩
      have hb' : Sound L b time := ⟨hb.nonneg, hb.le_burst, le_trans hb.last_le htime⟩
      by_cases hbefore : time < s
      · rw [spentIn, if_neg (by omega), zero_add]
        exact ih (sound_consume hb') hrest
      · by_cases hlate : e < time
        · rw [spentIn_of_after hall hlate, zero_mul]
          exact add_nonneg (mul_nonneg L.burst_nonneg hunit.le) (mul_nonneg (by omega) L.refill_nonneg)
        · have hspent := spentIn_le_credit (s := s) hb' hall (by omega : time ≤ e)
          have hcap := credit_le_burst L b time
          have hshift : (e - time) * L.refill ≤ (e - s) * L.refill :=
            mul_le_mul_of_nonneg_right (by omega) L.refill_nonneg
          linarith
  rw [← sub_le_iff_le_add', Int.le_ediv_iff_mul_le hunit, sub_mul]
  linarith

/-! ### Runs -/

theorem sound_run (hb : Sound L b now) (hcalls : Ordered now calls) :
    ∃ t, Sound L (run (consume L) b calls) t ∧ (t = now ∨ ∃ call ∈ calls, call.1 = t) := by
  induction calls generalizing b now with
  | nil => exact ⟨now, hb, .inl rfl⟩
  | cons call calls ih =>
    obtain ⟨htime, hrest⟩ := hcalls
    have hb' : Sound L b call.1 := ⟨hb.nonneg, hb.le_burst, le_trans hb.last_le htime⟩
    obtain ⟨t, hsound, rfl | ⟨other, hmem, hother⟩⟩ := ih (sound_consume (n := call.2) hb') hrest
    · exact ⟨_, hsound, .inr ⟨call, List.mem_cons_self, rfl⟩⟩
    · exact ⟨t, hsound, .inr ⟨other, List.mem_cons_of_mem call hmem, hother⟩⟩

/-- A bucket that is full, or was last looked at by time `t`. -/
def Quiet (L : Limit) (b : Bucket) (t : Int) : Prop := b.tokens = L.burst ∨ b.last ≤ t

theorem quiet_run {t : Int} (hb : Sound L b now) (hcalls : Ordered now calls) (hquiet : Quiet L b t)
    (ht : ∀ call ∈ calls, call.1 ≤ t) : Quiet L (run (consume L) b calls) t := by
  induction calls generalizing b now with
  | nil => exact hquiet
  | cons call calls ih =>
    obtain ⟨htime, hrest⟩ := hcalls
    have hb' : Sound L b call.1 := ⟨hb.nonneg, hb.le_burst, le_trans hb.last_le htime⟩
    have hlast : (refilled L b call.1).last ≤ t := by
      rw [(refilled_spec hb').1]
      exact ht call List.mem_cons_self
    have hnext : Quiet L (consume L b call.1 call.2).1 t := by
      rcases consume_cases L b call.1 call.2 with ⟨-, h⟩ | ⟨-, -, h⟩ | ⟨-, -, h⟩
      · rw [h]
        exact hquiet
      · rw [h]
        exact .inr hlast
      · rw [h]
        exact .inr hlast
    exact ih (sound_consume hb') hrest hnext fun c hc => ht c (List.mem_cons_of_mem call hc)

/-- After a time that refills the whole bucket, a request within the burst is granted. -/
theorem consume_of_quiet {t : Int} (hb : Sound L b now) (hquiet : Quiet L b t)
    (hlong : L.burst * L.unit ≤ (now - t) * L.refill) (hn : n ≤ L.burst) :
    (consume L b now n).2 = true := by
  have hfull : 0 < n → L.burst ≤ (refilled L b now).tokens := by
    intro hpos
    rcases hquiet with htokens | hlast
    · rw [← htokens]
      exact (refilled_spec hb).2.1
    · have hprod : L.burst * L.unit ≤ (now - b.last) * L.refill :=
        le_trans hlong (mul_le_mul_of_nonneg_right (by omega) L.refill_nonneg)
      have hburst : 0 < L.burst * L.unit := mul_pos (by omega) L.unit_pos
      have helapsed : now - b.last > 0 := by
        by_contra hzero
        have hnonpos : (now - b.last) * L.refill ≤ 0 :=
          mul_nonpos_of_nonpos_of_nonneg (by omega) L.refill_nonneg
        omega
      have hrefill : L.burst ≤ ((now - b.last) * L.refill).tdiv L.unit := by
        rw [Int.tdiv_eq_ediv_of_nonneg (by omega), Int.le_ediv_iff_mul_le L.unit_pos]
        exact hprod
      have hnonneg := hb.nonneg
      rw [refilled, if_pos helapsed]
      exact le_min (le_refl _) (by omega)
  rcases consume_cases L b now n with ⟨-, h⟩ | ⟨hpos, hshort, -⟩ | ⟨-, -, h⟩
  · rw [h]
  · have := hfull hpos
    omega
  · rw [h]

/-! ### With 64 bits -/

/-- A signed 64-bit value; outside of its range the result is undefined. -/
def int64 (x : Int) : Option Int := if -2 ^ 63 ≤ x ∧ x < 2 ^ 63 then some x else none

theorem int64_of_lt {x : Int} (h0 : 0 ≤ x) (h : x < 2 ^ 63) : int64 x = some x :=
  if_pos ⟨by omega, h⟩

/-- `refilled` with every intermediate result in 64 bits. -/
def refilledChecked (L : Limit) (b : Bucket) (now : Int) : Option Bucket := do
  let elapsed ← int64 (now - b.last)
  if elapsed > 0 then
    let product ← int64 (elapsed * L.refill)
    let tokens ← int64 (b.tokens + product.tdiv L.unit)
    return ⟨min L.burst tokens, now⟩
  else return b

/-- `consume` with every intermediate result in 64 bits. -/
def consumeChecked (L : Limit) (b : Bucket) (now n : Int) : Option (Bucket × Bool) :=
  if n ≤ 0 then some (b, true)
  else do
    let b ← refilledChecked L b now
    if b.tokens < n then return (b, false)
    else return ({ b with tokens := ← int64 (b.tokens - n) }, true)

/-- Nothing overflows as long as the refill since the last request fits. -/
theorem consumeChecked_eq (hb : Sound L b now) (hrefill : 1 ≤ L.refill)
    (hfits : (now - b.last) * L.refill + L.burst < 2 ^ 63) :
    consumeChecked L b now n = some (consume L b now n) := by
  have hlast := hb.last_le
  have hnonneg := hb.nonneg
  have hburst := hb.le_burst
  have hprod : now - b.last ≤ (now - b.last) * L.refill := le_mul_of_one_le_right (by omega) hrefill
  have hchecked : refilledChecked L b now = some (refilled L b now) := by
    rw [refilledChecked, int64_of_lt (by omega) (by omega)]
    by_cases helapsed : now - b.last > 0
    · have hquot : ((now - b.last) * L.refill).tdiv L.unit ≤ (now - b.last) * L.refill := by
        rw [Int.tdiv_eq_ediv_of_nonneg (by omega)]
        exact Int.ediv_le_self _ (by omega)
      have hquot0 : 0 ≤ ((now - b.last) * L.refill).tdiv L.unit :=
        Int.tdiv_nonneg (by omega) L.unit_pos.le
      simp only [Option.bind_eq_bind, Option.bind_some, if_pos helapsed,
        int64_of_lt (by omega : 0 ≤ (now - b.last) * L.refill) (by omega),
        int64_of_lt (by omega : 0 ≤ b.tokens + ((now - b.last) * L.refill).tdiv L.unit) (by omega), pure,
        refilled]
    · simp only [Option.bind_eq_bind, Option.bind_some, if_neg helapsed, pure, refilled]
  obtain ⟨-, -, hmax, -⟩ := refilled_spec hb
  have hcap : 0 ≤ (now - b.last) * L.refill := by omega
  rw [consumeChecked, consume]
  by_cases hn : n ≤ 0
  · rw [if_pos hn, if_pos hn]
  · rw [if_neg hn, if_neg hn, hchecked]
    by_cases hshort : (refilled L b now).tokens < n
    · simp only [Option.bind_eq_bind, Option.bind_some, if_pos hshort, pure]
    · simp only [Option.bind_eq_bind, Option.bind_some, if_neg hshort, pure,
        int64_of_lt (by omega : 0 ≤ (refilled L b now).tokens - n) (by omega)]

/-! ### A bucket that starts full -/

section Full

variable {created : Int} (hcalls : Ordered created calls)
include hcalls

theorem spentIn_full_le {T : Int} (hT : 0 ≤ T) :
    spentIn (consume L) s (s + T) (full L created) calls ≤ L.burst + T * L.refill / L.unit := by
  have h := spentIn_le (s := s) (sound_full L created) hcalls (by omega : s ≤ s + T)
  rwa [add_sub_cancel_left] at h

theorem tokens_run_full (L : Limit) : 0 ≤ (run (consume L) (full L created) calls).tokens ∧
    (run (consume L) (full L created) calls).tokens ≤ L.burst := by
  obtain ⟨t, hsound, -⟩ := sound_run (sound_full L created) hcalls
  exact ⟨hsound.nonneg, hsound.le_burst⟩

theorem sound_run_full (L : Limit) (hcreated : created ≤ now) (hnow : ∀ call ∈ calls, call.1 ≤ now) :
    Sound L (run (consume L) (full L created) calls) now := by
  obtain ⟨t, hsound, rfl | ⟨call, hmem, rfl⟩⟩ := sound_run (sound_full L created) hcalls
  · exact ⟨hsound.nonneg, hsound.le_burst, le_trans hsound.last_le hcreated⟩
  · exact ⟨hsound.nonneg, hsound.le_burst, le_trans hsound.last_le (hnow call hmem)⟩

/-- A request within the burst is granted when every call before it is a full refill ago. -/
theorem consume_run_full {wait : Int} (hwait : 0 ≤ wait) (hcreated : created ≤ now)
    (hquiet : ∀ call ∈ calls, call.1 + wait ≤ now) (hlong : L.burst * L.unit ≤ wait * L.refill)
    (hn : n ≤ L.burst) : (consume L (run (consume L) (full L created) calls) now n).2 = true := by
  have hb : Sound L (run (consume L) (full L created) calls) now :=
    sound_run_full hcalls L hcreated fun call hmem => by
      have := hquiet call hmem
      omega
  have hrun : Quiet L (run (consume L) (full L created) calls) (now - wait) :=
    quiet_run (sound_full L created) hcalls (.inl rfl) fun call hmem => by
      have := hquiet call hmem
      omega
  apply consume_of_quiet hb hrun _ hn
  rwa [sub_sub_cancel]

end Full

end Rcpu.TokenBucket
