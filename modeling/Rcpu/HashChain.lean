import Mathlib.Data.List.Infix

/-!
# Chains that are fed in batches

Lists in which every element fits its position and the one before it, such as the blocks of a hash
chain; samples of such lists at some of the positions; and loops that hand elements to a step until it
rejects one.
-/

namespace Rcpu.HashChain

variable {α β σ : Type}

/-! ### Chains -/

section Chain

variable (f : α → β) (R : Nat → β → α → Prop)

/-- What the next element has to fit. -/
def tip (b : β) (l : List α) : β := l.foldl (fun _ x => f x) b

def Chained : Nat → β → List α → Prop
  | _, _, [] => True
  | n, b, x :: rest => R (n + 1) b x ∧ Chained (n + 1) (f x) rest

variable {f R} {n : Nat} {b : β} {l l' : List α} {x : α}

@[simp] theorem tip_nil : tip f b [] = b := rfl

theorem tip_append : tip f b (l ++ l') = tip f (tip f b l) l' := List.foldl_append

@[simp] theorem tip_concat : tip f b (l ++ [x]) = f x := tip_append

theorem map_tip {γ : Type} (g : β → γ) : g (tip f b l) = tip (fun x => g (f x)) (g b) l := by
  induction l generalizing b with
  | nil => rfl
  | cons x l ih => exact ih

theorem chained_append :
    Chained f R n b (l ++ l') ↔ Chained f R n b l ∧ Chained f R (n + l.length) (tip f b l) l' := by
  induction l generalizing n b with
  | nil => simp [Chained]
  | cons x l ih =>
    rw [List.cons_append, Chained, ih, Chained, and_assoc, List.length_cons]
    have hpos : n + 1 + l.length = n + (l.length + 1) := by omega
    rw [hpos]
    rfl

theorem chained_concat :
    Chained f R n b (l ++ [x]) ↔ Chained f R n b l ∧ R (n + l.length + 1) (tip f b l) x := by
  rw [chained_append]
  simp [Chained]

theorem Chained.of_append (h : Chained f R n b (l ++ l')) : Chained f R n b l :=
  (chained_append.mp h).1

end Chain

/-! ### Samples -/

section Sampled

variable (p : Nat → Prop) [DecidablePred p] (f : α → β)

def sampled : Nat → List α → List β
  | _, [] => []
  | n, x :: rest => if p (n + 1) then f x :: sampled (n + 1) rest else sampled (n + 1) rest

variable {p f} {n : Nat} {l l' : List α}

theorem sampled_append :
    sampled p f n (l ++ l') = sampled p f n l ++ sampled p f (n + l.length) l' := by
  induction l generalizing n with
  | nil => simp [sampled]
  | cons x l ih =>
    have hpos : n + 1 + l.length = n + (l.length + 1) := by omega
    rw [List.cons_append, sampled, ih, sampled, List.length_cons, hpos]
    split_ifs
    · rw [List.cons_append]
    · rfl

theorem sampled_concat {x : α} : sampled p f n (l ++ [x]) =
    sampled p f n l ++ if p (n + l.length + 1) then [f x] else [] := by
  rw [sampled_append]
  simp [sampled]

theorem sampled_length_le (l l' : List α) :
    (sampled p f n l).length ≤ (sampled p f n (l ++ l')).length := by
  rw [sampled_append, List.length_append]
  omega

theorem getElem?_of_sampled (h : sampled p f n l <+: sampled p f n l') {i : Nat} {x : α}
    (hx : l[i]? = some x) (hi : p (n + i + 1)) : ∃ y, l'[i]? = some y ∧ f y = f x := by
  induction l generalizing l' n i with
  | nil => cases hx
  | cons a l ih =>
    cases l' with
    | nil =>
      -- nothing is sampled in the shorter list, so that position `i` is not sampled either
      exfalso
      have hnil : sampled p f n (a :: l) = [] := List.prefix_nil.mp h
      obtain ⟨hlt, -⟩ := List.getElem?_eq_some_iff.mp hx
      have hsplit : sampled p f n ((a :: l).take i ++ (a :: l).drop i) = [] := by
        rw [List.take_append_drop, hnil]
      rw [sampled_append, List.length_take_of_le hlt.le, List.drop_eq_getElem_cons hlt, sampled,
        if_pos hi] at hsplit
      simp at hsplit
    | cons a' l' =>
      rw [sampled, sampled] at h
      cases i with
      | zero =>
        rw [List.getElem?_cons_zero, Option.some.injEq] at hx
        rw [if_pos hi, if_pos hi, List.cons_prefix_cons] at h
        exact ⟨a', rfl, hx ▸ h.1.symm⟩
      | succ i =>
        have hpos : n + (i + 1) + 1 = n + 1 + i + 1 := by omega
        rw [hpos] at hi
        split_ifs at h with hp
        · exact ih (List.cons_prefix_cons.mp h).2 hx hi
        · exact ih h hx hi

end Sampled

/-! ### Loops that stop at the first rejected element -/

section Feed

variable (step : σ → α → σ × Bool)

def feed : σ → List α → σ × Bool
  | s, [] => (s, true)
  | s, x :: rest =>
    match step s x with
    | (s', true) => feed s' rest
    | (s', false) => (s', false)

def accepted : σ → List α → List α
  | _, [] => []
  | s, x :: rest =>
    match step s x with
    | (s', true) => x :: accepted s' rest
    | (_, false) => []

variable {step} {P : σ → List α → Prop} {s : σ} {done : List α}

/-- What each accepted element preserves holds of all that were accepted, in the final state if none
was rejected. -/
theorem exists_accepted
    (hstep : ∀ s done x s', P s done → step s x = (s', true) → P s' (done ++ [x]))
    (h : P s done) (l : List α) :
    ∃ s', P s' (done ++ accepted step s l) ∧
      ((feed step s l).2 = true → (feed step s l).1 = s' ∧ accepted step s l = l) := by
  induction l generalizing s done with
  | nil => exact ⟨s, by rwa [accepted, List.append_nil], fun _ => ⟨rfl, rfl⟩⟩
  | cons x l ih =>
    rw [feed, accepted]
    rcases hx : step s x with ⟨s', _ | _⟩
    · exact ⟨s, by rwa [List.append_nil], fun hfalse => by cases hfalse⟩
    · obtain ⟨s'', hP, hall⟩ := ih (hstep s done x s' h hx)
      refine ⟨s'', by simpa using hP, ?_⟩
      intro htrue
      obtain ⟨hs'', hrest⟩ := hall htrue
      exact ⟨hs'', congrArg (x :: ·) hrest⟩

theorem exists_feed {Q : List α → Prop} (hQ : ∀ l l', Q (l ++ l') → Q l)
    (hstep : ∀ s done x, P s done → Q (done ++ [x]) → ∃ s', step s x = (s', true) ∧ P s' (done ++ [x]))
    (h : P s done) {l : List α} (hl : Q (done ++ l)) :
    ∃ s', feed step s l = (s', true) ∧ P s' (done ++ l) := by
  induction l generalizing s done with
  | nil => exact ⟨s, rfl, by rwa [List.append_nil]⟩
  | cons x l ih =>
    rw [List.append_cons] at hl ⊢
    obtain ⟨s', hx, hs'⟩ := hstep s done x h (hQ _ l hl)
    rw [feed, hx]
    exact ih hs' hl

end Feed

end Rcpu.HashChain
