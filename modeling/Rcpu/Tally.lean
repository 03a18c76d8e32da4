import Mathlib.Algebra.BigOperators.GroupWithZero.Action
import Mathlib.Algebra.Group.Hom.Basic
import Mathlib.Algebra.Module.Defs
import Mathlib.Algebra.Ring.Int.Defs
import Mathlib.Tactic.Abel

/-!
# Running tallies

A loop that changes a quantity by a fixed amount at each element changes it by the sum of the amounts,
whatever the order; taking the amounts off again therefore restores it.  A *settled* tally is one
whose open balance has been moved to an account for it.
-/

namespace Rcpu.Tally

variable {σ α ε M : Type}

section Fold

variable [AddCommMonoid M] {c : σ → M} {w : α → M}

theorem content_foldl {step : σ → α → σ} (hstep : ∀ s x, c (step s x) = c s + w x)
    (s : σ) (l : List α) : c (l.foldl step s) = c s + (l.map w).sum := by
  induction l generalizing s with
  | nil => simp
  | cons x l ih => rw [List.foldl_cons, ih, hstep, List.map_cons, List.sum_cons, add_assoc]

/-- A fallible loop whose steps succeed and add an amount each. -/
theorem exists_content_foldlM {step : σ → α → Except ε σ} {l : List α}
    (hstep : ∀ s, ∀ x ∈ l, ∃ s', step s x = .ok s' ∧ c s' = c s + w x) (s : σ) :
    ∃ s', l.foldlM step s = .ok s' ∧ c s' = c s + (l.map w).sum := by
  induction l generalizing s with
  | nil => exact ⟨s, rfl, by simp⟩
  | cons x l ih =>
    obtain ⟨mid, hmid, hcontent⟩ := hstep s x List.mem_cons_self
    obtain ⟨s', hs', hrest⟩ := ih (fun s y hy => hstep s y (List.mem_cons_of_mem x hy)) mid
    refine ⟨s', ?_, ?_⟩
    · rw [List.foldlM_cons, hmid]
      exact hs'
    · rw [hrest, hcontent, List.map_cons, List.sum_cons, add_assoc]

end Fold

theorem sum_map_zsmul [AddCommGroup M] (n : Int) (w : α → M) (l : List α) :
    (l.map fun x => n • w x).sum = n • (l.map w).sum := by
  rw [List.smul_sum, List.map_map]
  rfl

section Settle

variable [AddCommGroup M] (balance : M →+ Int) (account : M)

def settle (x : M) : M := x + balance x • account

variable {balance account}

theorem balance_settle (h : balance account = -1) (x : M) :
    balance (settle balance account x) = 0 := by
  rw [settle, map_add, map_zsmul, h, smul_neg, smul_eq_mul, mul_one, add_neg_cancel]

theorem settle_of_balance_eq_zero {x : M} (h : balance x = 0) : settle balance account x = x := by
  rw [settle, h, zero_smul, add_zero]

/-- Settling in between makes no difference. -/
theorem settle_settle_add (h : balance account = -1) (x y : M) :
    settle balance account (settle balance account x + y) = settle balance account (x + y) := by
  have hopen : balance (settle balance account x + y) = balance y := by
    rw [map_add, balance_settle h, zero_add]
  rw [settle, hopen, settle, settle, map_add, add_zsmul]
  abel

/-- Taking off what was put on leads back to a settled tally. -/
theorem settle_settle_add_sub (h : balance account = -1) {x : M} (hx : balance x = 0) (y : M) :
    settle balance account (settle balance account (x + y) - y) = x := by
  rw [sub_eq_add_neg, settle_settle_add h, add_neg_cancel_right, settle_of_balance_eq_zero hx]

end Settle

end Rcpu.Tally
