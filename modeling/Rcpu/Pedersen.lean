import Mathlib.Data.ZMod.Basic
import Mathlib.Algebra.Module.Basic
import Mathlib.Algebra.BigOperators.Group.List.Basic
import Mathlib.Algebra.Module.Prod
import Mathlib.Tactic.Abel

/-!
# Pedersen commitments

Commitments `v • H + b • G` in a group that is a module over the scalars `ZMod q`.  They are
additively homomorphic whatever the generators are.  The ideal binding scheme is the one whose
group is the pairs of scalars themselves: there a commitment *is* the pair of its value and its
blind, so it can be opened in one way only.
-/

namespace Rcpu.Pedersen

variable {q : ℕ}

structure Generators (𝔾 : Type) where
  G : 𝔾
  H : 𝔾

namespace Generators

variable {𝔾 : Type} [AddCommGroup 𝔾] [Module (ZMod q) 𝔾] (g : Generators 𝔾)

def commit (v b : ZMod q) : 𝔾 := v • g.H + b • g.G

theorem commit_add (v b v' b' : ZMod q) :
    g.commit v b + g.commit v' b' = g.commit (v + v') (b + b') := by
  simp only [commit, add_smul]
  abel

@[simp] theorem commit_zero : g.commit (0 : ZMod q) 0 = 0 := by
  simp [commit]

theorem sum_commit {ι : Type} (l : List ι) (v b : ι → ZMod q) :
    (l.map fun i => g.commit (v i) (b i)).sum = g.commit (l.map v).sum (l.map b).sum := by
  induction l with
  | nil => simp
  | cons i l ih => simp only [List.map_cons, List.sum_cons, ih, commit_add]

end Generators

/-- The generators of the ideal scheme: a commitment is its opening. -/
def idealGenerators (q : ℕ) : Generators (ZMod q × ZMod q) := ⟨(0, 1), (1, 0)⟩

@[simp] theorem commit_idealGenerators (v b : ZMod q) : (idealGenerators q).commit v b = (v, b) := by
  simp [Generators.commit, idealGenerators]

theorem intCast_inj_of_lt {m n : ℤ} (hm : 0 ≤ m ∧ m < q) (hn : 0 ≤ n ∧ n < q)
    (h : (m : ZMod q) = (n : ZMod q)) : m = n := by
  have hmod := (ZMod.intCast_eq_intCast_iff m n q).mp h
  rwa [Int.ModEq, Int.emod_eq_of_lt hm.1 hm.2, Int.emod_eq_of_lt hn.1 hn.2] at hmod

end Rcpu.Pedersen
