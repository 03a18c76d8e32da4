import Rcpu.Orphanage
import Rcpu.TokenBucket

/-!
# The work budgets of a peer

`ConsumeCTProofBudget` and `ConsumeHeaderBudget` of `Peer`.  Times are in microseconds.
-/

namespace Rcpu.PeerBudgets

open TokenBucket
open Rcpu.Orphanage (CTBudget CT_PROOF_BUDGET_MAX consumeCTProofBudget)

/-! ### The budgets -/

def ctLimit : Limit where
  burst := CT_PROOF_BUDGET_MAX
  refill := 32
  unit := 1000
  burst_nonneg := by decide
  refill_nonneg := by decide
  unit_pos := by decide

def newCTBudget (created : Int) : CTBudget := ⟨CT_PROOF_BUDGET_MAX, created⟩

def ctBucket (budget : CTBudget) : Bucket := ⟨budget.m_ct_budget_tokens, budget.m_ct_budget_last⟩

theorem consumeCTProofBudget_eq (budget : CTBudget) (now bytes : Int) :
    (ctBucket (consumeCTProofBudget budget now bytes).1, (consumeCTProofBudget budget now bytes).2)
      = consume ctLimit (ctBucket budget) now bytes := by
  rw [consumeCTProofBudget, consume]
  by_cases hbytes : bytes ≤ 0
  · rw [if_pos hbytes, if_pos hbytes]
  · have hrefilled : ctBucket (if now - budget.m_ct_budget_last > 0 then
        ⟨min CT_PROOF_BUDGET_MAX
          (budget.m_ct_budget_tokens + ((now - budget.m_ct_budget_last) * 32).tdiv 1000), now⟩
        else budget) = refilled ctLimit (ctBucket budget) now := by
      rw [refilled]
      split_ifs with helapsed h h
      · rfl
      · exact absurd helapsed h
      · exact absurd h helapsed
      · rfl
    rw [if_neg hbytes, if_neg hbytes]
    dsimp only
    rw [← hrefilled]
    generalize (if now - budget.m_ct_budget_last > 0 then _ else budget) = filled
    by_cases hshort : filled.m_ct_budget_tokens < bytes
    · rw [if_pos hshort]
      exact (if_pos hshort).symm
    · rw [if_neg hshort]
      exact (if_neg hshort).symm

def HEADER_BUDGET_MAX : Int := 20000

def HEADER_BUDGET_REFILL_PER_SEC : Int := 2000

def headerLimit : Limit where
  burst := HEADER_BUDGET_MAX
  refill := HEADER_BUDGET_REFILL_PER_SEC
  unit := 1000000
  burst_nonneg := by decide
  refill_nonneg := by decide
  unit_pos := by decide

def newHeaderBudget (created : Int) : Bucket := ⟨HEADER_BUDGET_MAX, created⟩

def consumeHeaderBudget (budget : Bucket) (now headers : Int) : Bucket × Bool :=
  consume headerLimit budget now headers

/-! ### Limits -/

/-- Both budgets are hard limits: no window grants more than the burst and its refill, and after a
full refill any request within the burst is granted.  64 bits suffice, for headers for some 146
years. -/
theorem budgets_hard_limits (created : Int) (calls : List (Int × Int))
    (hcalls : Ordered created calls) :
    ((∀ s T, 0 ≤ T → spentIn consumeCTProofBudget s (s + T) (newCTBudget created) calls
        ≤ 262144 + 32 * T / 1000) ∧
      (0 ≤ (run consumeCTProofBudget (newCTBudget created) calls).m_ct_budget_tokens ∧
        (run consumeCTProofBudget (newCTBudget created) calls).m_ct_budget_tokens ≤ 262144) ∧
      (∀ now bytes, created ≤ now → (∀ call ∈ calls, call.1 + 8192000 ≤ now) → bytes ≤ 262144 →
        (consumeCTProofBudget (run consumeCTProofBudget (newCTBudget created) calls) now bytes).2
          = true) ∧
      (∀ budget now bytes, budget = run consumeCTProofBudget (newCTBudget created) calls →
        created ≤ now → (∀ call ∈ calls, call.1 ≤ now) →
        (now - budget.m_ct_budget_last) * 32 + 262144 < 2 ^ 63 →
        consumeChecked ctLimit (ctBucket budget) now bytes
          = some (consume ctLimit (ctBucket budget) now bytes))) ∧
    ((∀ s T, 0 ≤ T → spentIn consumeHeaderBudget s (s + T) (newHeaderBudget created) calls
        ≤ 20000 + 2000 * T / 1000000) ∧
      (0 ≤ (run consumeHeaderBudget (newHeaderBudget created) calls).tokens ∧
        (run consumeHeaderBudget (newHeaderBudget created) calls).tokens ≤ 20000) ∧
      (∀ now headers, created ≤ now → (∀ call ∈ calls, call.1 + 10000000 ≤ now) → headers ≤ 20000 →
        (consumeHeaderBudget (run consumeHeaderBudget (newHeaderBudget created) calls) now headers).2
          = true) ∧
      (∀ budget now headers, budget = run consumeHeaderBudget (newHeaderBudget created) calls →
        created ≤ now → (∀ call ∈ calls, call.1 ≤ now) →
        (now - budget.last) * 2000 + 20000 < 2 ^ 63 →
        consumeChecked headerLimit budget now headers = some (consumeHeaderBudget budget now headers))) := by
  constructor
  · have hrun : ctBucket (run consumeCTProofBudget (newCTBudget created) calls)
        = run (consume ctLimit) (full ctLimit created) calls :=
      run_map consumeCTProofBudget_eq (newCTBudget created) calls
    refine ⟨?_, ?_, ?_, ?_⟩
    · intro s T hT
      rw [spentIn_map consumeCTProofBudget_eq, mul_comm 32]
      exact spentIn_full_le hcalls hT
    · have htokens := tokens_run_full hcalls ctLimit
      rw [← hrun] at htokens
      exact htokens
    · intro now bytes hcreated hquiet hbytes
      have hgrant := consume_run_full hcalls (by decide) hcreated hquiet
        (by decide : ctLimit.burst * ctLimit.unit ≤ 8192000 * ctLimit.refill) hbytes
      rw [← hrun, ← consumeCTProofBudget_eq] at hgrant
      exact hgrant
    · rintro budget now bytes rfl hcreated hnow hfits
      have hsound := sound_run_full hcalls ctLimit hcreated hnow
      rw [← hrun] at hsound
      exact consumeChecked_eq hsound (by decide) hfits
  · refine ⟨?_, tokens_run_full hcalls headerLimit, ?_, ?_⟩
    · intro s T hT
      rw [mul_comm 2000]
      exact spentIn_full_le hcalls hT
    · intro now headers hcreated hquiet hheaders
      exact consume_run_full hcalls (by decide) hcreated hquiet
        (by decide : headerLimit.burst * headerLimit.unit ≤ 10000000 * headerLimit.refill) hheaders
    · rintro budget now headers rfl hcreated hnow hfits
      exact consumeChecked_eq (sound_run_full hcalls headerLimit hcreated hnow) (by decide) hfits

/-- A peer that spends its whole burst for headers gets nothing more at the same time, and a second
later what the refill covers. -/
theorem budgets_hard_limits_burst :
    spentIn consumeHeaderBudget 0 1000000 (newHeaderBudget 0)
        [(0, 20000), (0, 1), (1000000, 2000), (1000000, 1)] = 22000 ∧
      (22000 : Int) ≤ 20000 + 2000 * 1000000 / 1000000 := by
  have hspent : spentIn consumeHeaderBudget 0 1000000 (newHeaderBudget 0)
      [(0, 20000), (0, 1), (1000000, 2000), (1000000, 1)] = 22000 := by decide
  have hcalls : Ordered 0 [(0, 20000), (0, 1), (1000000, 2000), (1000000, 1)] :=
    ⟨by decide, by decide, by decide, by decide, trivial⟩
  have hlimit := (budgets_hard_limits 0 _ hcalls).2.1 0 1000000 (by decide)
  rw [zero_add, hspent] at hlimit
  exact ⟨hspent, hlimit⟩

/-! ### Batches of headers -/

section Batches

variable (getHash : CBlockHeader → Uint256) (params : Params)

variable {getHash params}

end Batches

end Rcpu.PeerBudgets
