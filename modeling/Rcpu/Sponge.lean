import Mathlib.Data.List.Basic

/-!
# Buffered absorption

A state that takes its input in blocks of a fixed length.  A message that arrives in pieces is split
into the blocks absorbed so far and a tail that waits for the rest of its block; how the pieces were
cut does not matter.
-/

namespace Rcpu.Sponge

variable {α σ : Type}

def blocksOf (rate : Nat) : Nat → List α → List (List α)
  | 0, _ => []
  | k + 1, data => data.take rate :: blocksOf rate k (data.drop rate)

def absorbAll (absorb : σ → List α → σ) (rate : Nat) (init : σ) (data : List α) : σ :=
  (blocksOf rate (data.length / rate) data).foldl absorb init

def Absorbed (absorb : σ → List α → σ) (rate : Nat) (init : σ) (data : List α) (st : σ)
    (tail : List α) : Prop :=
  ∃ blocks : List (List α), (∀ block ∈ blocks, block.length = rate) ∧
    data = blocks.flatten ++ tail ∧ tail.length < rate ∧ st = blocks.foldl absorb init

section Blocks

variable {rate : Nat} {blocks : List (List α)} (hblocks : ∀ block ∈ blocks, block.length = rate)
include hblocks

theorem length_flatten_blocks : blocks.flatten.length = blocks.length * rate := by
  induction blocks with
  | nil => rw [List.flatten_nil, List.length_nil, List.length_nil, Nat.zero_mul]
  | cons block blocks ih =>
    rw [List.flatten_cons, List.length_append, hblocks block List.mem_cons_self,
      ih fun b hb => hblocks b (List.mem_cons_of_mem block hb), List.length_cons, Nat.succ_mul,
      Nat.add_comm]

theorem blocksOf_flatten : blocksOf rate blocks.length blocks.flatten = blocks := by
  induction blocks with
  | nil => rfl
  | cons block blocks ih =>
    have hblock := hblocks block List.mem_cons_self
    rw [List.length_cons, blocksOf, List.flatten_cons, List.take_left' hblock, List.drop_left' hblock,
      ih fun b hb => hblocks b (List.mem_cons_of_mem block hb)]

theorem absorbAll_flatten (absorb : σ → List α → σ) (init : σ) (hrate : 0 < rate) :
    absorbAll absorb rate init blocks.flatten = blocks.foldl absorb init := by
  rw [absorbAll, length_flatten_blocks hblocks, Nat.mul_div_cancel _ hrate, blocksOf_flatten hblocks]

end Blocks

variable {absorb : σ → List α → σ} {rate : Nat} {init : σ}

theorem absorbed_nil (hrate : 0 < rate) : Absorbed absorb rate init [] init [] :=
  ⟨[], fun _ h => absurd h List.not_mem_nil, rfl, hrate, rfl⟩

section Absorbed

variable {data tail piece : List α} {st : σ} (h : Absorbed absorb rate init data st tail)
include h

/-- A piece that leaves the block open only grows the tail. -/
theorem Absorbed.append (hopen : tail.length + piece.length < rate) :
    Absorbed absorb rate init (data ++ piece) st (tail ++ piece) := by
  obtain ⟨blocks, hblocks, rfl, -, hst⟩ := h
  refine ⟨blocks, hblocks, List.append_assoc .., ?_, hst⟩
  rw [List.length_append]
  exact hopen

theorem Absorbed.concat_block (hfull : (tail ++ piece).length = rate) :
    ∃ blocks : List (List α), (∀ block ∈ blocks, block.length = rate) ∧
      data ++ piece = blocks.flatten ∧ absorb st (tail ++ piece) = blocks.foldl absorb init := by
  obtain ⟨blocks, hblocks, rfl, -, rfl⟩ := h
  refine ⟨blocks ++ [tail ++ piece], ?_, ?_, ?_⟩
  · intro block hmem
    rcases List.mem_append.mp hmem with hmem | hmem
    · exact hblocks block hmem
    · rw [List.mem_singleton.mp hmem]
      exact hfull
  · rw [List.flatten_append, List.flatten_singleton, List.append_assoc]
  · rw [List.foldl_append, List.foldl_cons, List.foldl_nil]

/-- A piece that closes the block is absorbed with the tail. -/
theorem Absorbed.block (hfull : (tail ++ piece).length = rate) (hrate : 0 < rate) :
    Absorbed absorb rate init (data ++ piece) (absorb st (tail ++ piece)) [] := by
  obtain ⟨blocks, hblocks, hdata, hst⟩ := h.concat_block hfull
  exact ⟨blocks, hblocks, by rw [hdata, List.append_nil], hrate, hst⟩

/-- A last piece that closes the block ends the message. -/
theorem Absorbed.finish (hfull : (tail ++ piece).length = rate) (hrate : 0 < rate) :
    absorb st (tail ++ piece) = absorbAll absorb rate init (data ++ piece) := by
  obtain ⟨blocks, hblocks, hdata, hst⟩ := h.concat_block hfull
  rw [hst, hdata, absorbAll_flatten hblocks absorb init hrate]

theorem Absorbed.length_tail : tail.length = data.length % rate := by
  obtain ⟨blocks, hblocks, rfl, hlt, -⟩ := h
  rw [List.length_append, length_flatten_blocks hblocks, Nat.mul_add_mod_self_right,
    Nat.mod_eq_of_lt hlt]

end Absorbed

end Rcpu.Sponge
