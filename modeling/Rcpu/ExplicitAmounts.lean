import Rcpu.Supply

/-!
# Explicit amounts of version 3

A version-3 transaction without a single commitment still goes through `VerifyAmounts`, that is
through curve points.  Over a group in which no multiple of the value generator vanishes but those
of the order, the points stand for the amounts, with one exception: the commitment to amount zero
is the point at infinity, which `secp256k1_pedersen_commit` does not return.
-/

namespace Rcpu.ExplicitAmounts

open Checks Confidential Transaction Pedersen ConfidentialValidation
open Rcpu.Validation (uint256S)

def amountOf (out : CTxOut) : Int := out.nValue.getAmount

structure Balanced (inputs : List CTxOut) (tx : CTransaction) : Prop where
  inputs_range : ∀ prevout ∈ inputs, MoneyRange (amountOf prevout)
  outputs_range : ∀ out ∈ tx.vout, MoneyRange (amountOf out)
  fee_pos : ∀ out ∈ tx.vout, out.IsFee → 0 < amountOf out
  fee_range : MoneyRange (tx.vout.map feeAmount).sum
  sum_eq : (inputs.map amountOf).sum = (tx.vout.map amountOf).sum

instance (inputs : List CTxOut) (tx : CTransaction) : Decidable (Balanced inputs tx) :=
  decidable_of_iff
    ((∀ prevout ∈ inputs, MoneyRange (amountOf prevout)) ∧
      (∀ out ∈ tx.vout, MoneyRange (amountOf out)) ∧
      (∀ out ∈ tx.vout, out.IsFee → 0 < amountOf out) ∧
      MoneyRange (tx.vout.map feeAmount).sum ∧
      (inputs.map amountOf).sum = (tx.vout.map amountOf).sum)
    ⟨fun ⟨hin, hout, hpos, hfee, hsum⟩ => ⟨hin, hout, hpos, hfee, hsum⟩,
      fun h => ⟨h.inputs_range, h.outputs_range, h.fee_pos, h.fee_range, h.sum_eq⟩⟩

section Explicit

variable {𝔾 : Type} [AddCommGroup 𝔾] [Module Scalar 𝔾] [DecidableEq 𝔾] {secp : Secp256k1 𝔾}
  (hH : ∀ n : Scalar, n • secp.generators.H = 0 → n = 0)

def pointOf (secp : Secp256k1 𝔾) (out : CTxOut) : 𝔾 :=
  secp.generators.commit (amountOf out : Scalar) 0

include hH

theorem explicitCommit_iff_pointOf {out : CTxOut} {c : 𝔾} :
    (MoneyRange (amountOf out) ∧ explicitCommit secp (amountOf out) = some c) ↔
      c = pointOf secp out ∧ MoneyRange (amountOf out) ∧ amountOf out ≠ 0 := by
  constructor
  · rintro ⟨hrange, hcommit⟩
    obtain ⟨rfl, hne⟩ := (explicitCommit_eq_some secp hrange).mp hcommit
    exact ⟨rfl, hrange, (commit_ne_zero hH hrange).mp hne⟩
  · rintro ⟨rfl, hrange, hne⟩
    have hpoint := (commit_ne_zero hH hrange).mpr hne
    exact ⟨hrange, (explicitCommit_eq_some secp hrange).mpr ⟨rfl, hpoint⟩⟩

theorem forall₂_pointOf {f : CTxOut → Option 𝔾} {outs : List CTxOut} {points : List 𝔾}
    (hf : ∀ out ∈ outs, ∀ c, f out = some c ↔
      MoneyRange (amountOf out) ∧ explicitCommit secp (amountOf out) = some c) :
    List.Forall₂ (fun out c => f out = some c) outs points ↔
      points = outs.map (pointOf secp) ∧
        ∀ out ∈ outs, MoneyRange (amountOf out) ∧ amountOf out ≠ 0 := by
  apply forall₂_iff_eq_map (Q := Eq) (List.forall₂_refl outs)
  rintro out hmem _ c rfl
  rw [hf out hmem, explicitCommit_iff_pointOf hH]

omit hH [DecidableEq 𝔾] in
theorem sum_pointOf (outs : List CTxOut) :
    (outs.map (pointOf secp)).sum =
      secp.generators.commit (((outs.map amountOf).sum : Int) : Scalar) 0 := by
  have hzero : (outs.map fun _ => (0 : Scalar)).sum = 0 := by simp
  have hcast : (((outs.map amountOf).sum : Int) : Scalar) =
      (outs.map fun out => (amountOf out : Scalar)).sum := by
    exact (map_list_sum (Int.castRingHom Scalar) _).trans (by rw [List.map_map]; rfl)
  rw [hcast, ← hzero]
  exact secp.generators.sum_commit outs _ _

omit [DecidableEq 𝔾] in
theorem sum_pointOf_eq_iff {inputs outs : List CTxOut} (hin : inputs.length < 2 ^ 64)
    (hout : outs.length < 2 ^ 64) (hinputs : ∀ prevout ∈ inputs, MoneyRange (amountOf prevout))
    (houts : ∀ out ∈ outs, MoneyRange (amountOf out)) :
    (inputs.map (pointOf secp)).sum = (outs.map (pointOf secp)).sum ↔
      (inputs.map amountOf).sum = (outs.map amountOf).sum := by
  rw [sum_pointOf, sum_pointOf]
  constructor
  · intro h
    have hscalar : (((inputs.map amountOf).sum : Int) : Scalar) -
        (((outs.map amountOf).sum : Int) : Scalar) = 0 := by
      apply hH
      rw [sub_smul, sub_eq_zero]
      simpa [Generators.commit] using h
    refine intCast_inj_of_lt (sum_lt_scalarOrder ?_ ?_) (sum_lt_scalarOrder ?_ ?_)
      (sub_eq_zero.mp hscalar)
    · rwa [List.length_map]
    · rwa [List.forall_mem_map]
    · rwa [List.length_map]
    · rwa [List.forall_mem_map]
  · intro h
    rw [h]

/-- **Explicit amounts, judged by the verifier**: it wants the plain balance, and no amount zero. -/
theorem verifyBalance_explicit {inputs : List CTxOut} {tx : CTransaction} {fee : Int}
    (hin : inputs.length < 2 ^ 64) (hout : tx.vout.length < 2 ^ 64)
    (hinputs : ∀ prevout ∈ inputs, prevout.nValue.IsExplicit)
    (hvout : ∀ out ∈ tx.vout, out.nValue.IsExplicit) :
    verifyBalance secp inputs tx = some fee ↔
      (Balanced inputs tx ∧ fee = (tx.vout.map feeAmount).sum) ∧
        ∀ out ∈ inputs ++ tx.vout, amountOf out ≠ 0 := by
  have hnone : ¬ hasConfidentialOutput tx = true := by
    rw [hasConfidentialOutput, List.any_eq_true]
    rintro ⟨out, hmem, hcommit⟩
    exact (of_decide_eq_true hcommit).not_isExplicit (hvout out hmem)
  have hcommitIn : ∀ prevout ∈ inputs, ∀ c, inputCommitment secp prevout = some c ↔
      MoneyRange (amountOf prevout) ∧ explicitCommit secp (amountOf prevout) = some c := by
    intro prevout hmem c
    have hcommit : ¬ prevout.nValue.IsCommitment := fun h => h.not_isExplicit (hinputs _ hmem)
    simp only [inputCommitment_eq_some, hinputs _ hmem, hcommit, true_and, false_and, or_false,
      amountOf]
  have hcommitOut : ∀ out ∈ tx.vout, ∀ c, outputCommitment secp out = some c ↔
      MoneyRange (amountOf out) ∧ explicitCommit secp (amountOf out) = some c := by
    intro out hmem c
    have hcommit : ¬ out.nValue.IsCommitment := fun h => h.not_isExplicit (hvout _ hmem)
    simp only [outputCommitment_eq_some, hvout _ hmem, hcommit, true_and, false_and, or_false,
      amountOf]
  simp only [verifyBalance_eq_some, forall₂_pointOf hH hcommitIn, forall₂_pointOf hH hcommitOut,
    List.forall_mem_append]
  constructor
  · rintro ⟨_, _, ⟨rfl, hins⟩, ⟨rfl, houts⟩, hpos, hfee, hrange, -, hsum⟩
    have hinRange := fun prevout hmem => (hins prevout hmem).1
    have houtRange := fun out hmem => (houts out hmem).1
    have hamounts := (sum_pointOf_eq_iff hH hin hout hinRange houtRange).mp hsum
    exact ⟨⟨⟨hinRange, houtRange, hpos, hfee ▸ hrange, hamounts⟩, hfee⟩,
      fun prevout hmem => (hins prevout hmem).2, fun out hmem => (houts out hmem).2⟩
  · rintro ⟨⟨hbal, rfl⟩, hinZero, houtZero⟩
    refine ⟨_, _, ⟨rfl, fun prevout hmem => ⟨hbal.inputs_range prevout hmem, hinZero prevout hmem⟩⟩,
      ⟨rfl, fun out hmem => ⟨hbal.outputs_range out hmem, houtZero out hmem⟩⟩, hbal.fee_pos, rfl,
      hbal.fee_range, fun h => absurd h hnone, ?_⟩
    exact (sum_pointOf_eq_iff hH hin hout hbal.inputs_range hbal.outputs_range).mpr hbal.sum_eq

/-- **When plain arithmetic decides**: `VerifyAmounts` accepts an all-explicit transaction just when
the amounts balance, unless one of them is zero. -/
theorem verifyAmounts_explicit_iff {inputs : List CTxOut} {tx : CTransaction}
    (hcoinbase : ¬ tx.IsCoinBase) (hlen : inputs.length = tx.vin.length)
    (hin : inputs.length < 2 ^ 64) (hout : tx.vout.length < 2 ^ 64)
    (hinputs : ∀ prevout ∈ inputs, prevout.nValue.IsExplicit)
    (hvout : ∀ out ∈ tx.vout, out.nValue.IsExplicit) :
    (∀ fee, verifyAmounts secp inputs tx = .ok (some fee) ↔
      Balanced inputs tx ∧ fee = (tx.vout.map feeAmount).sum) ↔
    (Balanced inputs tx → ∀ out ∈ inputs ++ tx.vout, amountOf out ≠ 0) := by
  have hverify : ∀ fee, verifyAmounts secp inputs tx = .ok (some fee) ↔
      (Balanced inputs tx ∧ fee = (tx.vout.map feeAmount).sum) ∧
        ∀ out ∈ inputs ++ tx.vout, amountOf out ≠ 0 := by
    intro fee
    rw [verifyAmounts_eq_ok, verifyBalance_explicit hH hin hout hinputs hvout]
    simp only [hcoinbase, hlen, not_false_eq_true, true_and]
  constructor
  · intro h hbal
    exact ((hverify _).mp ((h _).mpr ⟨hbal, rfl⟩)).2
  · intro h fee
    rw [hverify, and_iff_left_iff_imp]
    intro hbal
    exact h hbal.1

end Explicit

/-! ### A payment, with and without a data output -/

theorem idealSecp_smul_H (n : Scalar) (h : n • Supply.idealSecp.generators.H = 0) : n = 0 := by
  simpa [Supply.idealSecp, idealGenerators] using h

def spentOutput : CTxOut := .ofAmount 1000 [0x51]

def explicitTx (vout : List CTxOut) : CTransaction where
  vin := [{ prevout := ⟨uint256S 1, 0⟩, scriptSig := [], nSequence := 0, scriptWitness := [],
            nValue := .null }]
  vout := vout
  nVersion := CT_VERSION
  nLockTime := 0

theorem verifyAmounts_explicit_payment :
    Balanced [spentOutput] (explicitTx [.ofAmount 990 [0x51], .ofAmount 10 []]) ∧
      verifyAmounts Supply.idealSecp [spentOutput]
        (explicitTx [.ofAmount 990 [0x51], .ofAmount 10 []]) = .ok (some 10) := by
  have hbal : Balanced [spentOutput] (explicitTx [.ofAmount 990 [0x51], .ofAmount 10 []]) := by
    decide
  refine ⟨hbal, ?_⟩
  refine ((verifyAmounts_explicit_iff idealSecp_smul_H (by decide) rfl (by decide) (by decide)
    (by decide) (by decide)).mpr ?_ 10).mpr ⟨hbal, by decide⟩
  intro _
  decide

/-- The same payment with an `OP_RETURN` output of amount zero balances and is refused. -/
theorem verifyAmounts_explicit_dataOutput :
    Balanced [spentOutput]
        (explicitTx [.ofAmount 990 [0x51], .ofAmount 0 [0x6a], .ofAmount 10 []]) ∧
      (∀ n : Scalar, n • Supply.idealSecp.generators.H = 0 → n = 0) ∧
      verifyAmounts Supply.idealSecp [spentOutput]
        (explicitTx [.ofAmount 990 [0x51], .ofAmount 0 [0x6a], .ofAmount 10 []]) = .ok none := by
  refine ⟨by decide, idealSecp_smul_H, ?_⟩
  decide +kernel

end Rcpu.ExplicitAmounts
