import Mathlib.Init

/-!
# Related results

Two fallible computations are related if they fail with the same error or succeed with related
results.  Sequencing and loops keep this, so that two runs of one program from related states can be
compared step by step.
-/

namespace Rcpu.ExceptRel

variable {ε α β α' β' γ : Type}

inductive Relates (Q : α → β → Prop) : Except ε α → Except ε β → Prop
  | ok {a : α} {b : β} (h : Q a b) : Relates Q (.ok a) (.ok b)
  | error (e : ε) : Relates Q (.error e) (.error e)

theorem Relates.exists_ok {Q : α → β → Prop} {x : Except ε α} {y : Except ε β} {a : α}
    (h : Relates Q x y) (hx : x = .ok a) : ∃ b, y = .ok b ∧ Q a b := by
  cases h with
  | ok hab =>
    cases hx
    exact ⟨_, rfl, hab⟩
  | error e => cases hx

theorem Relates.bind {Q : α → β → Prop} {Q' : α' → β' → Prop} {x : Except ε α} {y : Except ε β}
    {f : α → Except ε α'} {g : β → Except ε β'} (h : Relates Q x y)
    (hfg : ∀ a b, Q a b → Relates Q' (f a) (g b)) : Relates Q' (x >>= f) (y >>= g) := by
  cases h with
  | ok hab => exact hfg _ _ hab
  | error e => exact .error e

theorem Relates.foldlM {Q : α → β → Prop} {f : α → γ → Except ε α} {g : β → γ → Except ε β}
    (hfg : ∀ a b x, Q a b → Relates Q (f a x) (g b x)) {a : α} {b : β} (hab : Q a b) (l : List γ) :
    Relates Q (l.foldlM f a) (l.foldlM g b) := by
  induction l generalizing a b with
  | nil => exact .ok hab
  | cons x l ih =>
    rw [List.foldlM_cons, List.foldlM_cons]
    exact (hfg a b x hab).bind fun _ _ h => ih h

theorem Relates.map_eq {Q : α → β → Prop} {x : Except ε α} {y : Except ε β} {f : α → γ} {g : β → γ}
    (h : Relates Q x y) (hfg : ∀ a b, Q a b → f a = g b) : x.map f = y.map g := by
  cases h with
  | ok hab => exact congrArg Except.ok (hfg _ _ hab)
  | error e => rfl

theorem relates_of_map_fst {x : Except ε (γ × α)} {y : Except ε (γ × β)} {P : α → Prop} {P' : β → Prop}
    (h : x.map Prod.fst = y.map Prod.fst) (hx : ∀ r, x = .ok r → P r.2) (hy : ∀ r, y = .ok r → P' r.2) :
    Relates (fun r r' => r.1 = r'.1 ∧ P r.2 ∧ P' r'.2) x y := by
  cases x with
  | error e =>
    cases y with
    | error e' =>
      obtain rfl : e = e' := Except.error.inj h
      exact .error e
    | ok r' => cases h
  | ok r =>
    cases y with
    | error e' => cases h
    | ok r' => exact .ok ⟨Except.ok.inj h, hx r rfl, hy r' rfl⟩

/-- One computation, and two continuations that are related for each of its results. -/
theorem relates_bind_self {Q : α' → β' → Prop} {x : Except ε α} {f : α → Except ε α'}
    {g : α → Except ε β'} (h : ∀ a, Relates Q (f a) (g a)) : Relates Q (x >>= f) (x >>= g) := by
  cases x with
  | ok a => exact h a
  | error e => exact .error e

end Rcpu.ExceptRel
