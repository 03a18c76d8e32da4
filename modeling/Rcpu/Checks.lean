import Mathlib.Algebra.BigOperators.Group.List.Basic
import Mathlib.Algebra.Group.Int.Defs
import Mathlib.Data.List.Forall2

/-!
# Fallible computations

Inversion lemmas for `Except`: what it means that a sequence of checks, a loop of checks or an
accumulating loop went through.  Validation code is a chain of such steps, so every statement of
the form "if it is accepted, then …" starts by peeling one of these off.
-/

namespace Rcpu.Checks

variable {ε α β : Type}

def require (p : Prop) [Decidable p] (e : ε) : Except ε Unit := if p then .ok () else .error e

@[simp] theorem require_eq_ok {p : Prop} [Decidable p] {e : ε} {u : Unit} :
    require p e = .ok u ↔ p := by
  unfold require
  split <;> simp [*]

theorem bind_eq_ok {x : Except ε α} {f : α → Except ε β} {b : β} :
    (x >>= f) = .ok b ↔ ∃ a, x = .ok a ∧ f a = .ok b := by
  cases x with
  | error e => simp [bind, Except.bind]
  | ok a => simp [bind, Except.bind]

theorem require_eq_error {p : Prop} [Decidable p] {e e' : ε} :
    require p e = .error e' ↔ ¬ p ∧ e = e' := by
  unfold require
  split <;> simp [*]

theorem bind_eq_error {x : Except ε α} {f : α → Except ε β} {e : ε} :
    (x >>= f) = .error e ↔ x = .error e ∨ ∃ a, x = .ok a ∧ f a = .error e := by
  cases x with
  | error e => simp [bind, Except.bind]
  | ok a => simp [bind, Except.bind]

theorem bind_unit_eq_ok {x : Except ε Unit} {f : Unit → Except ε β} {b : β} :
    (x >>= f) = .ok b ↔ x = .ok () ∧ f () = .ok b := by
  rw [bind_eq_ok]
  exact ⟨fun ⟨(), h⟩ => h, fun h => ⟨(), h⟩⟩

@[simp] theorem pure_eq_ok {a b : α} : (pure a : Except ε α) = .ok b ↔ a = b := by
  simp [pure, Except.pure]

@[simp] theorem throw_ne_ok {e : ε} {b : α} : (throw e : Except ε α) ≠ .ok b := by
  simp [throw, throwThe, MonadExceptOf.throw]

theorem bind_pure_eq_map (g : α → β) (x : Except ε α) : (x >>= fun a => pure (g a)) = x.map g := by
  cases x <;> rfl

theorem map_eq_ok {g : α → β} {x : Except ε α} {b : β} :
    x.map g = .ok b ↔ ∃ a, x = .ok a ∧ g a = b := by
  cases x <;> simp [Except.map]

theorem mapError_eq_ok {ε' : Type} {g : ε → ε'} {x : Except ε α} {a : α} :
    x.mapError g = .ok a ↔ x = .ok a := by
  cases x <;> simp [Except.mapError]

theorem forM_eq_ok {f : α → Except ε Unit} {l : List α} {u : Unit} :
    l.forM f = .ok u ↔ ∀ x ∈ l, f x = .ok u := by
  induction l with
  | nil => simp [List.forM]
  | cons x l ih =>
    have hcons : (x :: l).forM f = f x >>= fun _ => l.forM f := rfl
    rw [hcons, bind_unit_eq_ok, ih, List.forall_mem_cons]

section Fold

variable {f : β → α → Except ε β}

theorem foldlM_congr {g : β → α → Except ε β} {l : List α} (h : ∀ b, ∀ x ∈ l, f b x = g b x) (b : β) :
    l.foldlM f b = l.foldlM g b := by
  induction l generalizing b with
  | nil => rfl
  | cons x l ih =>
    obtain ⟨hx, hl⟩ := forall_and.mp fun b => List.forall_mem_cons.mp (h b)
    rw [List.foldlM_cons, List.foldlM_cons, hx]
    exact congrArg _ (funext fun b => ih hl b)

theorem foldlM_cons_eq_ok {x : α} {l : List α} {a b : β} :
    (x :: l).foldlM f a = .ok b ↔ ∃ a', f a x = .ok a' ∧ l.foldlM f a' = .ok b := by
  rw [List.foldlM_cons, bind_eq_ok]

theorem foldlM_concat_eq_ok {x : α} {l : List α} {a b : β} :
    (l ++ [x]).foldlM f a = .ok b ↔ ∃ a', l.foldlM f a = .ok a' ∧ f a' x = .ok b := by
  rw [List.foldlM_append, bind_eq_ok]
  simp only [foldlM_cons_eq_ok, List.foldlM_nil, pure_eq_ok, exists_eq_right]

theorem foldlM_invariant {P : β → Prop} {l : List α} {a b : β}
    (hstep : ∀ acc x acc', x ∈ l → P acc → f acc x = .ok acc' → P acc') (ha : P a)
    (h : l.foldlM f a = .ok b) : P b := by
  induction l generalizing a with
  | nil =>
    rw [List.foldlM_nil, pure_eq_ok] at h
    exact h ▸ ha
  | cons x l ih =>
    obtain ⟨a', hx, h⟩ := foldlM_cons_eq_ok.mp h
    exact ih (fun acc y acc' hy => hstep acc y acc' (List.mem_cons_of_mem x hy))
      (hstep a x a' List.mem_cons_self ha hx) h

theorem foldlM_mem {l : List α} {a b : β} (h : l.foldlM f a = .ok b) {x : α} (hx : x ∈ l) :
    ∃ acc acc', f acc x = .ok acc' := by
  induction l generalizing a with
  | nil => simp at hx
  | cons y l ih =>
    obtain ⟨a', hy, h⟩ := foldlM_cons_eq_ok.mp h
    rcases List.mem_cons.mp hx with rfl | hx
    · exact ⟨a, a', hy⟩
    · exact ih h hx

theorem foldlM_eq_error {l : List α} {a : β} {e : ε} (h : l.foldlM f a = .error e) :
    ∃ acc, ∃ x ∈ l, f acc x = .error e := by
  induction l generalizing a with
  | nil => cases h
  | cons x l ih =>
    rw [List.foldlM_cons] at h
    cases hx : f a x with
    | error e' =>
      rw [hx] at h
      obtain rfl : e' = e := Except.error.inj h
      exact ⟨a, x, List.mem_cons_self, hx⟩
    | ok a' =>
      rw [hx] at h
      obtain ⟨acc, y, hy, herror⟩ := ih h
      exact ⟨acc, y, List.mem_cons_of_mem x hy, herror⟩

/-- A loop whose steps succeed whatever came before, or fail whatever came before. -/
theorem exists_foldlM_eq_ok {P : α → Prop} {l : List α}
    (hstep : ∀ acc, ∀ x ∈ l, (∃ acc', f acc x = .ok acc') ↔ P x) (a : β) :
    (∃ b, l.foldlM f a = .ok b) ↔ ∀ x ∈ l, P x := by
  constructor
  · rintro ⟨b, hb⟩ x hx
    obtain ⟨acc, hacc⟩ := foldlM_mem hb hx
    exact (hstep acc x hx).mp hacc
  · intro hall
    induction l generalizing a with
    | nil => exact ⟨a, rfl⟩
    | cons x l ih =>
      rw [List.forall_mem_cons] at hall
      obtain ⟨a', ha'⟩ := (hstep a x List.mem_cons_self).mpr hall.1
      obtain ⟨b, hb⟩ := ih (fun acc y hy => hstep acc y (List.mem_cons_of_mem x hy)) a' hall.2
      exact ⟨b, foldlM_cons_eq_ok.mpr ⟨a', ha', hb⟩⟩

/-- A loop whose steps add a weight to a quantity adds the sum of the weights. -/
theorem foldlM_sum {M : Type} [AddMonoid M] {c : β → M} {w : α → M} {l : List α} {a b : β}
    (hstep : ∀ acc x acc', x ∈ l → f acc x = .ok acc' → c acc' = c acc + w x)
    (h : l.foldlM f a = .ok b) : c b = c a + (l.map w).sum := by
  induction l generalizing a with
  | nil =>
    rw [List.foldlM_nil, pure_eq_ok] at h
    simp [h]
  | cons x l ih =>
    obtain ⟨a', hx, h⟩ := foldlM_cons_eq_ok.mp h
    have htail := ih (fun acc y acc' hy => hstep acc y acc' (List.mem_cons_of_mem x hy)) h
    rw [htail, hstep a x a' List.mem_cons_self hx, List.map_cons, List.sum_cons, add_assoc]

end Fold

/-! ### Collecting loops -/

theorem map_zipIdx_fst (f : α → β) (l : List α) :
    (l.zipIdx.map fun entry => f entry.1) = l.map f := by
  conv_rhs => rw [← List.zipIdx_map_fst 0 l, List.map_map]
  rfl

/-- A loop that collects results succeeds exactly when each element has its result. -/
theorem mapM_eq_ok {f : α → Except ε β} {l : List α} {r : List β} :
    l.mapM f = .ok r ↔ List.Forall₂ (fun x y => f x = .ok y) l r := by
  induction l generalizing r with
  | nil => simp [pure, Except.pure, eq_comm]
  | cons x l ih =>
    rw [List.mapM_cons, bind_eq_ok]
    constructor
    · rintro ⟨y, hy, h⟩
      obtain ⟨ys, hys, h⟩ := bind_eq_ok.mp h
      obtain rfl := pure_eq_ok.mp h
      exact .cons hy (ih.mp hys)
    · rintro (_ | ⟨hy, hys⟩)
      exact ⟨_, hy, bind_eq_ok.mpr ⟨_, ih.mpr hys, rfl⟩⟩

theorem mapM_eq_some {f : α → Option β} {l : List α} {r : List β} :
    l.mapM f = some r ↔ List.Forall₂ (fun x y => f x = some y) l r := by
  induction l generalizing r with
  | nil => simp [eq_comm]
  | cons x l ih =>
    rw [List.mapM_cons]
    constructor
    · intro h
      simp only [Option.bind_eq_bind, Option.bind_eq_some_iff, Option.pure_def,
        Option.some.injEq] at h
      obtain ⟨y, hy, ys, hys, rfl⟩ := h
      exact .cons hy (ih.mp hys)
    · rintro (_ | ⟨hy, hys⟩)
      simp [hy, ih.mpr hys]

/-- A relation that is a guarded function of the first list determines the last one. -/
theorem forall₂_iff_eq_map {γ : Type} {Q : α → β → Prop} {R : β → γ → Prop} {f : α → γ}
    {P : α → Prop} {xs : List α} {ys : List β} {zs : List γ} (hQ : List.Forall₂ Q xs ys)
    (hR : ∀ x ∈ xs, ∀ y z, Q x y → (R y z ↔ z = f x ∧ P x)) :
    List.Forall₂ R ys zs ↔ zs = xs.map f ∧ ∀ x ∈ xs, P x := by
  induction hQ generalizing zs with
  | nil => simp
  | @cons x y xs ys hxy _ ih =>
    rw [List.forall_mem_cons] at hR
    rw [List.forall_mem_cons, List.map_cons]
    constructor
    · rintro (_ | ⟨hz, hzs⟩)
      obtain ⟨rfl, hP⟩ := (hR.1 y _ hxy).mp hz
      obtain ⟨rfl, hPs⟩ := (ih hR.2).mp hzs
      exact ⟨rfl, hP, hPs⟩
    · rintro ⟨rfl, hP, hPs⟩
      exact .cons ((hR.1 y _ hxy).mpr ⟨rfl, hP⟩) ((ih hR.2).mpr ⟨rfl, hPs⟩)

theorem forall_mem_iff_of_forall₂ {Q : α → β → Prop} {P : α → Prop} {P' : β → Prop} {xs : List α}
    {ys : List β} (hQ : List.Forall₂ Q xs ys) (hP : ∀ x ∈ xs, ∀ y, Q x y → (P' y ↔ P x)) :
    (∀ y ∈ ys, P' y) ↔ ∀ x ∈ xs, P x := by
  induction hQ with
  | nil => simp
  | cons hxy _ ih =>
    rw [List.forall_mem_cons] at hP
    rw [List.forall_mem_cons, List.forall_mem_cons, hP.1 _ hxy, ih hP.2]

theorem exists_of_forall₂ {R : α → β → Prop} {xs : List α} {ys : List β}
    (h : List.Forall₂ R xs ys) {x : α} (hx : x ∈ xs) : ∃ y, R x y := by
  have hall : List.Forall₂ (fun x y => (∃ y, R x y) ∧ R x y) xs ys :=
    h.imp fun _ y hy => ⟨⟨y, hy⟩, hy⟩
  exact ((List.forall₂_and_left _ _).mp hall).1 x hx

end Rcpu.Checks
