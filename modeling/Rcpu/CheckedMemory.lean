import Mathlib.Data.List.Basic

/-!
# Memory with bounds

An array as a list, with reads and writes of blocks that fail outside of it, and loops of steps that
may fail.  A loop whose steps stay within bounds is the loop of the plain steps.
-/

namespace Rcpu.CheckedMemory

variable {α β γ σ τ : Type}

/-! ### Blocks -/

def slice (mem : List α) (off len : Nat) : List α := (mem.drop off).take len

def splice (mem : List α) (off : Nat) (block : List α) : List α :=
  mem.take off ++ block ++ mem.drop (off + block.length)

def read (mem : List α) (off len : Nat) : Option (List α) :=
  if off + len ≤ mem.length then some (slice mem off len) else none

def write (mem : List α) (off : Nat) (block : List α) : Option (List α) :=
  if off + block.length ≤ mem.length then some (splice mem off block) else none

section Blocks

variable {mem block : List α} {off len : Nat}

theorem read_of_le (h : off + len ≤ mem.length) : read mem off len = some (slice mem off len) :=
  if_pos h

theorem write_of_le (h : off + block.length ≤ mem.length) :
    write mem off block = some (splice mem off block) := if_pos h

theorem length_slice (h : off + len ≤ mem.length) : (slice mem off len).length = len := by
  rw [slice, List.length_take, List.length_drop]
  omega

theorem length_splice (h : off + block.length ≤ mem.length) :
    (splice mem off block).length = mem.length := by
  rw [splice, List.length_append, List.length_append, List.length_take, List.length_drop]
  omega

theorem map_slice (f : α → β) : (slice mem off len).map f = slice (mem.map f) off len := by
  rw [slice, List.map_take, List.map_drop, slice]

theorem slice_succ (h : off + len < mem.length) (d : α) :
    slice mem off (len + 1) = slice mem off len ++ [mem.getD (off + len) d] := by
  have hget : (mem.drop off)[len]? = some (mem.getD (off + len) d) := by
    rw [List.getElem?_drop, List.getD_eq_getElem?_getD, List.getElem?_eq_getElem h]
    rfl
  rw [slice, List.take_add_one, hget, slice]
  rfl

/-- Up to the end of the block, what was written before it is kept. -/
theorem take_splice (h : off ≤ mem.length) :
    (splice mem off block).take (off + block.length) = mem.take off ++ block := by
  have hlen : (mem.take off ++ block).length = off + block.length := by
    rw [List.length_append, List.length_take, Nat.min_eq_left h]
  rw [splice, List.take_left' hlen]

theorem splice_of_eq (h : off + block.length = mem.length) :
    splice mem off block = mem.take off ++ block := by
  rw [splice, h, List.drop_length, List.append_nil]

end Blocks

/-! ### Loops -/

/-- A loop of steps that succeed on related states, and keep them related, runs to its end. -/
theorem foldlM_simulates {f : σ → β → Option σ} {g : τ → β → τ} {R : σ → τ → Prop} (l : List β)
    (hstep : ∀ s t, R s t → ∀ x ∈ l, ∃ s', f s x = some s' ∧ R s' (g t x)) {s : σ} {t : τ}
    (hst : R s t) : ∃ s', l.foldlM f s = some s' ∧ R s' (l.foldl g t) := by
  induction l generalizing s t with
  | nil => exact ⟨s, rfl, hst⟩
  | cons x l ih =>
    obtain ⟨s₁, hs₁, hnext⟩ := hstep s t hst x List.mem_cons_self
    rw [List.foldlM_cons, hs₁, List.foldl_cons]
    exact ih (fun s t hst y hy => hstep s t hst y (List.mem_cons_of_mem x hy)) hnext

/-- A loop whose steps are those of a total function as long as an invariant holds. -/
theorem foldlM_eq_some {f : σ → β → Option σ} {g : σ → β → σ} {P : σ → Prop} (l : List β)
    (hstep : ∀ s, P s → ∀ x ∈ l, f s x = some (g s x) ∧ P (g s x)) {s : σ} (hs : P s) :
    l.foldlM f s = some (l.foldl g s) ∧ P (l.foldl g s) := by
  have hrelated : ∀ s t, s = t ∧ P s → ∀ x ∈ l, ∃ s', f s x = some s' ∧ s' = g t x ∧ P s' := by
    rintro s _ ⟨rfl, hs⟩ x hx
    obtain ⟨hrun, hnext⟩ := hstep s hs x hx
    exact ⟨g s x, hrun, rfl, hnext⟩
  obtain ⟨_, hrun, rfl, hlast⟩ := foldlM_simulates l hrelated ⟨rfl, hs⟩
  exact ⟨hrun, hlast⟩

theorem mapM_simulates {f : α → Option β} {g : α → γ} {h : β → γ} (l : List α)
    (hstep : ∀ x ∈ l, ∃ y, f x = some y ∧ h y = g x) :
    ∃ ys, l.mapM f = some ys ∧ ys.map h = l.map g := by
  induction l with
  | nil => exact ⟨[], rfl, rfl⟩
  | cons x l ih =>
    obtain ⟨y, hy, hx⟩ := hstep x List.mem_cons_self
    obtain ⟨ys, hys, hmap⟩ := ih fun z hz => hstep z (List.mem_cons_of_mem x hz)
    refine ⟨y :: ys, ?_, ?_⟩
    · rw [List.mapM_cons, hy, hys]
      rfl
    · rw [List.map_cons, List.map_cons, hx, hmap]

end Rcpu.CheckedMemory
