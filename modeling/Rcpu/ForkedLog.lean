import Mathlib.Data.List.Basic
import Mathlib.Logic.Function.Basic
import Rcpu.Checks

/-!
# Logs that survive reorganisations

A log holds, for each height, the name and the record of the item that stands there on the current
path, and an archive of records by name.  Extending the path overwrites the entry at a height; before
the path is cut back, the entries above the cut are copied to the archive, so that the record of
every item that ever stood on the path can still be found.
-/

namespace Rcpu.ForkedLog

open Checks

structure Log (κ α : Type) where
  byHeight : Nat → Option (κ × α)
  byName : κ → Option α

variable {κ α ε : Type} [DecidableEq κ]

namespace Log

/-! ### Operations -/

def empty : Log κ α := ⟨fun _ => none, fun _ => none⟩

def record (log : Log κ α) (height : Nat) (name : κ) (a : α) : Log κ α :=
  { log with byHeight := Function.update log.byHeight height (some (name, a)) }

/-- The record of an item: the entry at its height if that is the item, else the archive. -/
def lookup (log : Log κ α) (height : Nat) (name : κ) : Option α :=
  match log.byHeight height with
  | none => none
  | some entry => if entry.1 = name then some entry.2 else log.byName name

def archive (fail : Nat → ε) (log : Log κ α) (height : Nat) : Except ε (Log κ α) :=
  match log.byHeight height with
  | none => .error (fail height)
  | some entry => .ok { log with byName := Function.update log.byName entry.1 (some entry.2) }

def archiveAll (fail : Nat → ε) (heights : List Nat) (log : Log κ α) :
    Except ε (Log κ α) :=
  heights.foldlM (archive fail) log

variable {log log' : Log κ α} {R : κ → Nat → α → Prop} {fail : Nat → ε}

omit [DecidableEq κ] in
theorem byHeight_record_self (height : Nat) (name : κ) (a : α) :
    (log.record height name a).byHeight height = some (name, a) :=
  Function.update_self ..

omit [DecidableEq κ] in
theorem byHeight_record_of_ne {height height' : Nat} (name : κ) (a : α) (h : height' ≠ height) :
    (log.record height name a).byHeight height' = log.byHeight height' :=
  Function.update_of_ne h ..

/-! ### Soundness

What is stored is compared with a relation that says which record belongs to a name. -/

structure Sound (R : κ → Nat → α → Prop) (log : Log κ α) : Prop where
  height : ∀ {h k a}, log.byHeight h = some (k, a) → R k h a
  name : ∀ {k a}, log.byName k = some a → ∃ h, R k h a

/-- A name has one height and one record. -/
def Functional (R : κ → Nat → α → Prop) : Prop :=
  ∀ {k h a h' a'}, R k h a → R k h' a' → h = h' ∧ a = a'

omit [DecidableEq κ] in
theorem sound_empty : Sound R (empty : Log κ α) where
  height h := by cases h
  name h := by cases h

omit [DecidableEq κ] in
theorem Sound.record (hlog : Sound R log) {h : Nat} {k : κ} {a : α} (hR : R k h a) :
    Sound R (log.record h k a) where
  height := by
    intro h' k' a' hentry
    by_cases hh : h' = h
    · subst hh
      rw [byHeight_record_self, Option.some.injEq, Prod.mk.injEq] at hentry
      obtain ⟨rfl, rfl⟩ := hentry
      exact hR
    · rw [byHeight_record_of_ne k a hh] at hentry
      exact hlog.height hentry
  name := hlog.name

theorem archive_eq_ok {h : Nat} (harchive : log.archive fail h = .ok log') :
    ∃ k a, log.byHeight h = some (k, a) ∧
      log' = { log with byName := Function.update log.byName k (some a) } := by
  unfold archive at harchive
  cases hentry : log.byHeight h with
  | none =>
    rw [hentry] at harchive
    cases harchive
  | some entry =>
    rw [hentry] at harchive
    exact ⟨entry.1, entry.2, rfl, (Except.ok.inj harchive).symm⟩

theorem Sound.archive (hlog : Sound R log) {h : Nat} (harchive : log.archive fail h = .ok log') :
    Sound R log' := by
  obtain ⟨k, a, hentry, rfl⟩ := archive_eq_ok harchive
  refine ⟨hlog.height, ?_⟩
  intro k' a' hname
  by_cases hk : k' = k
  · subst hk
    dsimp only at hname
    rw [Function.update_self, Option.some.injEq] at hname
    exact ⟨h, hname ▸ hlog.height hentry⟩
  · dsimp only at hname
    rw [Function.update_of_ne hk] at hname
    exact hlog.name hname

theorem Sound.archiveAll (hlog : Sound R log) {heights : List Nat}
    (harchive : log.archiveAll fail heights = .ok log') : Sound R log' :=
  foldlM_invariant (fun _ _ _ _ hacc hstep => hacc.archive hstep) hlog harchive

theorem Sound.lookup_eq (hlog : Sound R log) (hR : Functional R) {h h' : Nat} {k : κ} {a b : α}
    (hlookup : log.lookup h k = some a) (hb : R k h' b) : a = b := by
  unfold lookup at hlookup
  cases hentry : log.byHeight h with
  | none =>
    rw [hentry] at hlookup
    cases hlookup
  | some entry =>
    rw [hentry] at hlookup
    dsimp only at hlookup
    split_ifs at hlookup with hname
    · rw [Option.some.injEq] at hlookup
      subst hname hlookup
      exact (hR (hlog.height hentry) hb).2
    · obtain ⟨h'', ha⟩ := hlog.name hlookup
      exact (hR ha hb).2

/-! ### Copying loses nothing -/

theorem archiveAll_eq_ok {heights : List Nat} (harchive : log.archiveAll fail heights = .ok log') :
    log'.byHeight = log.byHeight ∧
      (∀ k, (log.byName k).isSome → (log'.byName k).isSome) ∧
      ∀ h ∈ heights, ∀ k a, log.byHeight h = some (k, a) → (log'.byName k).isSome := by
  induction heights generalizing log with
  | nil =>
    obtain rfl := pure_eq_ok.mp harchive
    exact ⟨rfl, fun _ hk => hk, by simp⟩
  | cons h heights ih =>
    obtain ⟨mid, hstep, hrest⟩ := foldlM_cons_eq_ok.mp harchive
    obtain ⟨hheight, hkeep, hcopied⟩ := ih hrest
    obtain ⟨k, a, hentry, rfl⟩ := archive_eq_ok hstep
    have hname : ∀ k', (log.byName k').isSome ∨ k' = k → (log'.byName k').isSome := by
      intro k' hk'
      apply hkeep
      by_cases heq : k' = k
      · simp [heq]
      · simpa [heq] using hk'
    refine ⟨hheight, fun k' hk' => hname k' (.inl hk'), ?_⟩
    rw [List.forall_mem_cons]
    refine ⟨fun k' a' hentry' => ?_, fun h' hmem => hcopied h' hmem⟩
    rw [hentry, Option.some.injEq, Prod.mk.injEq] at hentry'
    exact hname k' (.inr hentry'.1.symm)

theorem exists_archiveAll {heights : List Nat}
    (hthere : ∀ h ∈ heights, (log.byHeight h).isSome) :
    ∃ log', log.archiveAll fail heights = .ok log' := by
  induction heights generalizing log with
  | nil => exact ⟨log, rfl⟩
  | cons h heights ih =>
    rw [List.forall_mem_cons] at hthere
    obtain ⟨entry, hentry⟩ := Option.isSome_iff_exists.mp hthere.1
    have hstep : log.archive fail h =
        .ok { log with byName := Function.update log.byName entry.1 (some entry.2) } := by
      rw [archive, hentry]
    have hrest : ∀ h' ∈ heights, (Log.byHeight { log with
        byName := Function.update log.byName entry.1 (some entry.2) } h').isSome := hthere.2
    obtain ⟨log', hlog'⟩ := ih hrest
    exact ⟨log', foldlM_cons_eq_ok.mpr ⟨_, hstep, hlog'⟩⟩

/-! ### Completeness along a path -/

/-- The entries of the path are in place, those above its end are archived, and every known item can
be found. -/
structure Tracks (R : κ → Nat → α → Prop) (log : Log κ α) (path : List κ) (known : κ → Prop) :
    Prop extends Sound R log where
  on_path : ∀ {above k rest}, path = above ++ k :: rest → ∃ a, log.byHeight rest.length = some (k, a)
  archived : ∀ {h k a}, path.length ≤ h → log.byHeight h = some (k, a) → (log.byName k).isSome
  found : ∀ {k}, known k → ∃ h entry, (∃ a, R k h a) ∧ log.byHeight h = some entry ∧
    (entry.1 = k ∨ (log.byName k).isSome)

variable {path rest : List κ} {known : κ → Prop}

omit [DecidableEq κ] in
theorem tracks_empty : Tracks R (empty : Log κ α) [] fun _ => False where
  toSound := sound_empty
  on_path h := by simp at h
  archived _ h := by cases h
  found h := h.elim

omit [DecidableEq κ] in
/-- **Extending the path.** -/
theorem Tracks.record (hlog : Tracks R log path known) {k : κ} {a : α} (hR : R k path.length a) :
    Tracks R (log.record path.length k a) (k :: path) fun k' => k' = k ∨ known k' where
  toSound := hlog.toSound.record hR
  on_path := by
    intro above k' rest hpath
    cases above with
    | nil =>
      obtain ⟨rfl, rfl⟩ := List.cons.inj hpath
      exact ⟨a, byHeight_record_self ..⟩
    | cons _ above =>
      have hpath : path = above ++ k' :: rest := (List.cons.inj hpath).2
      have hne : rest.length ≠ path.length := by
        rw [hpath, List.length_append, List.length_cons]
        omega
      rw [byHeight_record_of_ne k a hne]
      exact hlog.on_path hpath
  archived := by
    intro h k' a' hh hentry
    rw [List.length_cons] at hh
    rw [byHeight_record_of_ne k a (by omega)] at hentry
    exact hlog.archived (by omega) hentry
  found := by
    rintro k' (rfl | hknown)
    · exact ⟨path.length, (k', a), ⟨a, hR⟩, byHeight_record_self .., .inl rfl⟩
    · obtain ⟨h, entry, hrecord, hentry, hfound⟩ := hlog.found hknown
      by_cases hh : h = path.length
      · -- the overwritten entry stood above the path, so it is archived
        subst hh
        refine ⟨path.length, (k, a), hrecord, byHeight_record_self .., .inr ?_⟩
        rcases hfound with rfl | hname
        · exact hlog.archived (Nat.le_refl _) hentry
        · exact hname
      · exact ⟨h, entry, hrecord, (byHeight_record_of_ne k a hh).trans hentry, hfound⟩

omit [DecidableEq κ] in
theorem Tracks.isSome_of_lt (hlog : Tracks R log path known) {h : Nat} (hh : h < path.length) :
    (log.byHeight h).isSome := by
  have hdrop : path.length - 1 - h < path.length := by omega
  have hpath : path = path.take (path.length - 1 - h) ++
      path[path.length - 1 - h] :: path.drop (path.length - 1 - h + 1) := by
    rw [← List.drop_eq_getElem_cons hdrop, List.take_append_drop]
  obtain ⟨a, hentry⟩ := hlog.on_path hpath
  have hlength : (path.drop (path.length - 1 - h + 1)).length = h := by
    rw [List.length_drop]
    omega
  rw [hlength] at hentry
  rw [hentry]
  rfl

/-- The heights of a path from the item above `rest` to its end. -/
def heightsFrom (path rest : List κ) : List Nat :=
  List.range' rest.length (path.length - rest.length)

theorem Tracks.exists_archiveAll (hlog : Tracks R log path known) (fail : Nat → ε) (rest : List κ) :
    ∃ log', log.archiveAll fail (heightsFrom path rest) = .ok log' := by
  apply Log.exists_archiveAll
  intro h hmem
  apply hlog.isSome_of_lt
  rw [heightsFrom, List.mem_range'_1] at hmem
  omega

/-- **Cutting the path back** after its upper entries have been copied. -/
theorem Tracks.cut (hlog : Tracks R log path known) {above : List κ} {k : κ}
    (hpath : path = above ++ k :: rest)
    (harchive : log.archiveAll fail (heightsFrom path rest) = .ok log') :
    Tracks R log' (k :: rest) known := by
  obtain ⟨hheight, hkeep, hcopied⟩ := archiveAll_eq_ok harchive
  refine ⟨hlog.toSound.archiveAll harchive, ?_, ?_, ?_⟩
  · intro above' k' rest' hsplit
    rw [hheight]
    have hlonger : path = (above ++ above') ++ k' :: rest' := by
      rw [hpath, hsplit, List.append_assoc]
    exact hlog.on_path hlonger
  · intro h k' a hh hentry
    rw [hheight] at hentry
    by_cases hlt : h < path.length
    · refine hcopied h ?_ k' a hentry
      rw [heightsFrom, List.mem_range'_1]
      rw [List.length_cons] at hh
      omega
    · exact hkeep k' (hlog.archived (by omega) hentry)
  · intro k' hknown
    obtain ⟨h, entry, hrecord, hentry, hfound⟩ := hlog.found hknown
    refine ⟨h, entry, hrecord, by rw [hheight, hentry], ?_⟩
    rcases hfound with heq | hname
    · exact .inl heq
    · exact .inr (hkeep k' hname)

theorem Tracks.lookup_eq_some (hlog : Tracks R log path known) (hR : Functional R) {k : κ} {h : Nat}
    {a : α} (hknown : known k) (ha : R k h a) : log.lookup h k = some a := by
  obtain ⟨h', entry, ⟨a', ha'⟩, hentry, hfound⟩ := hlog.found hknown
  obtain ⟨rfl, rfl⟩ := hR ha' ha
  rw [lookup, hentry]
  dsimp only
  split_ifs with hname
  · subst hname
    rw [(hR (hlog.height hentry) ha).2]
  · obtain ⟨b, hb⟩ := Option.isSome_iff_exists.mp (hfound.resolve_left hname)
    obtain ⟨h'', hb'⟩ := hlog.name hb
    rw [hb, (hR hb' ha).2]

end Log

end Rcpu.ForkedLog
