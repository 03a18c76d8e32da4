import Mathlib.Data.List.Basic

/-!
# Lists with swap removal

A list of keys in no particular order, beside a table that says where each key stands.  A key is added
at the end; to remove one, the last key is moved to its place.
-/

namespace Rcpu.SwapList

variable {κ : Type} {pos : κ → Option Nat} {l : List κ} {i : Nat}

/-- The table says where each key stands. -/
def Placed (pos : κ → Option Nat) (l : List κ) : Prop := ∀ i k, l[i]? = some k ↔ pos k = some i

theorem placed_nil : Placed (fun _ : κ => none) [] := by
  intro i k
  simp

theorem Placed.lt_length {k : κ} (h : Placed pos l) (hk : pos k = some i) : i < l.length :=
  (List.getElem?_eq_some_iff.mp ((h i k).mpr hk)).1

theorem Placed.inj {k k' : κ} (h : Placed pos l) (hk : pos k = some i) (hk' : pos k' = some i) :
    k = k' := by
  have heq := (h i k).mpr hk
  rw [(h i k').mpr hk'] at heq
  exact (Option.some.inj heq).symm

variable [DecidableEq κ] {k last : κ}

theorem Placed.concat (h : Placed pos l) (hk : pos k = none) :
    Placed (fun j => if j = k then some l.length else pos j) (l ++ [k]) := by
  intro i j
  dsimp only
  rcases Nat.lt_trichotomy i l.length with hlt | rfl | hgt
  · rw [List.getElem?_append_left hlt, h]
    split_ifs with hj
    · rw [hj, hk, Option.some.injEq]
      exact iff_of_false (fun hnone => by cases hnone) (Nat.ne_of_lt hlt).symm
    · exact Iff.rfl
  · rw [List.getElem?_concat_length, Option.some.injEq]
    split_ifs with hj
    · exact iff_of_true hj.symm rfl
    · exact iff_of_false (fun heq => hj heq.symm)
        fun hpos => absurd (h.lt_length hpos) (Nat.lt_irrefl _)
  · have hlength : (l ++ [k]).length ≤ i := by
      rw [List.length_append]
      exact hgt
    rw [List.getElem?_eq_none hlength]
    refine iff_of_false (fun hnone => by cases hnone) ?_
    split_ifs with hj
    · exact fun heq => Nat.ne_of_lt hgt (Option.some.inj heq)
    · exact fun hpos => Nat.lt_asymm hgt (h.lt_length hpos)

theorem Placed.remove (h : Placed pos l) (hk : pos k = some i) (hlast : l.getLast? = some last) :
    Placed (fun j => if j = k then none else if j = last then some i else pos j)
      (l.set i last).dropLast := by
  have hi := h.lt_length hk
  have hend : pos last = some (l.length - 1) := by
    rw [← h, ← List.getLast?_eq_getElem?, hlast]
  intro n j
  dsimp only
  rw [List.getElem?_dropLast, List.length_set, List.getElem?_set]
  split_ifs with hn hin hj hjlast hj hjlast hj hjlast
  · -- the removed key is not the last one, which takes its place
    refine iff_of_false ?_ (fun hnone => by cases hnone)
    rintro heq
    obtain rfl : last = k := (Option.some.inj heq).trans hj
    have := Option.some.inj (hend.symm.trans hk)
    omega
  · exact iff_of_true (by rw [hjlast]) (by rw [hin])
  · refine iff_of_false (fun heq => hjlast (Option.some.inj heq).symm) ?_
    intro hpos
    exact hj (h.inj (hin ▸ hpos) hk)
  · rw [hj, h, hk]
    exact iff_of_false (fun heq => hin (Option.some.inj heq)) (fun hnone => by cases hnone)
  · rw [hjlast, h, hend]
    refine iff_of_false (fun heq => ?_) fun heq => hin (Option.some.inj heq)
    have := Option.some.inj heq
    omega
  · exact h n j
  · exact iff_of_false (fun hnone => by cases hnone) (fun hnone => by cases hnone)
  · refine iff_of_false (fun hnone => by cases hnone) ?_
    intro heq
    have hiend : i = l.length - 1 := by
      have := Option.some.inj heq
      omega
    rw [hiend] at hk
    exact hj (hjlast.trans (h.inj hend hk))
  · refine iff_of_false (fun hnone => by cases hnone) ?_
    intro hpos
    have hnend : n = l.length - 1 := by
      have := h.lt_length hpos
      omega
    rw [hnend] at hpos
    exact hjlast (h.inj hpos hend)

omit [DecidableEq κ] in
theorem dropLast_set_last (h : i + 1 = l.length) (a : κ) : (l.set i a).dropLast = l.dropLast := by
  refine List.ext_getElem? fun n => ?_
  rw [List.getElem?_dropLast, List.getElem?_dropLast, List.length_set]
  split_ifs with hn
  · exact List.getElem?_set_ne (by omega)
  · rfl

end Rcpu.SwapList
