import Mathlib.Algebra.Order.Ring.Nat
import Mathlib.Tactic.Ring
import Rcpu.PrefixCode

/-!
# Byte streams

Fixed-width integers in both byte orders, and readers: stream functions that consume a prefix of
their input or throw.  `Reads rd bs x` says that `rd` consumes exactly `bs` and returns `x`,
whatever follows; it composes along `bind`, so a round trip of a record is assembled from the
round trips of its fields, and it yields prefix-freeness of the corresponding encoder.
`Canonical rd enc` is the other direction: `rd` accepts nothing but encodings.
-/

namespace Rcpu.ByteStream

open PrefixCode

abbrev Bytes := List UInt8

/-! ### Fixed-width integers -/

/-- The low `w` bytes of `n`, least significant byte first. -/
def leBytes : Nat → Nat → Bytes
  | 0, _ => []
  | w + 1, n => UInt8.ofNat n :: leBytes w (n / 256)

def ofLeBytes : Bytes → Nat
  | [] => 0
  | b :: bs => b.toNat + 256 * ofLeBytes bs

def beBytes (w n : Nat) : Bytes := (leBytes w n).reverse

def ofBeBytes (bs : Bytes) : Nat := ofLeBytes bs.reverse

@[simp] theorem length_leBytes (w n : Nat) : (leBytes w n).length = w := by
  induction w generalizing n with
  | zero => rfl
  | succ w ih => simp [leBytes, ih]

@[simp] theorem length_beBytes (w n : Nat) : (beBytes w n).length = w := by
  simp [beBytes]

theorem ofLeBytes_leBytes (w n : Nat) : ofLeBytes (leBytes w n) = n % 256 ^ w := by
  induction w generalizing n with
  | zero => simp [leBytes, ofLeBytes, Nat.mod_one]
  | succ w ih =>
    have hb : (UInt8.ofNat n).toNat = n % 256 := by simp
    rw [leBytes, ofLeBytes, ih, hb, Nat.pow_succ', Nat.mod_mul]

theorem ofLeBytes_leBytes_of_lt {w n : Nat} (h : n < 256 ^ w) : ofLeBytes (leBytes w n) = n := by
  rw [ofLeBytes_leBytes, Nat.mod_eq_of_lt h]

theorem ofLeBytes_lt (bs : Bytes) : ofLeBytes bs < 256 ^ bs.length := by
  induction bs with
  | nil => simp [ofLeBytes]
  | cons b bs ih =>
    have hb := b.toNat_lt
    simp only [ofLeBytes, List.length_cons, Nat.pow_succ']
    omega

theorem leBytes_ofLeBytes (bs : Bytes) : leBytes bs.length (ofLeBytes bs) = bs := by
  induction bs with
  | nil => rfl
  | cons b bs ih =>
    have hb := b.toNat_lt
    have hhead : UInt8.ofNat (b.toNat + 256 * ofLeBytes bs) = b := by
      apply UInt8.toNat.inj
      simp only [UInt8.toNat_ofNat']
      omega
    have htail : (b.toNat + 256 * ofLeBytes bs) / 256 = ofLeBytes bs := by omega
    rw [List.length_cons, ofLeBytes, leBytes, hhead, htail, ih]

theorem ofLeBytes_concat (bs : Bytes) (b : UInt8) :
    ofLeBytes (bs ++ [b]) = ofLeBytes bs + 256 ^ bs.length * b.toNat := by
  induction bs with
  | nil => simp [ofLeBytes]
  | cons c bs ih =>
    rw [List.cons_append, ofLeBytes, ih, ofLeBytes, List.length_cons, Nat.pow_succ']
    rw [Nat.mul_add, Nat.add_assoc, Nat.mul_assoc]

theorem leBytes_eq_map (w n : Nat) :
    leBytes w n = (List.range w).map fun i => UInt8.ofNat (n / 256 ^ i) := by
  induction w generalizing n with
  | zero => rfl
  | succ w ih =>
    rw [leBytes, ih, List.range_succ_eq_map, List.map_cons, List.map_map, Nat.pow_zero, Nat.div_one]
    simp only [Function.comp_def, Nat.div_div_eq_div_mul, Nat.pow_succ', Nat.succ_eq_add_one]

theorem leBytes_mod (w n : Nat) : leBytes w (n % 256 ^ w) = leBytes w n := by
  have h := leBytes_ofLeBytes (leBytes w n)
  rwa [length_leBytes, ofLeBytes_leBytes] at h

theorem leBytes_append (v w n : Nat) : leBytes v n ++ leBytes w (n / 256 ^ v) = leBytes (v + w) n := by
  induction v generalizing n with
  | zero => rw [leBytes, Nat.pow_zero, Nat.div_one, Nat.zero_add, List.nil_append]
  | succ v ih =>
    rw [Nat.succ_add, leBytes, leBytes, List.cons_append, ← ih (n / 256), Nat.div_div_eq_div_mul,
      Nat.pow_succ']

theorem ofBeBytes_beBytes_of_lt {w n : Nat} (h : n < 256 ^ w) : ofBeBytes (beBytes w n) = n := by
  simp [ofBeBytes, beBytes, ofLeBytes_leBytes_of_lt h]

theorem ofBeBytes_lt (bs : Bytes) : ofBeBytes bs < 256 ^ bs.length := by
  simpa [ofBeBytes] using ofLeBytes_lt bs.reverse

theorem beBytes_ofBeBytes (bs : Bytes) : beBytes bs.length (ofBeBytes bs) = bs := by
  have h := leBytes_ofLeBytes bs.reverse
  rw [List.length_reverse] at h
  rw [beBytes, ofBeBytes, h, List.reverse_reverse]

/-! ### Readers -/

/-- A reader consumes a prefix of the stream and returns a value, or throws a message. -/
abbrev Reader (α : Type) := StateT Bytes (Except String) α

namespace Reader

variable {α β : Type}

def readByte : Reader UInt8
  | [] => throw "DataStream::read(): end of data"
  | b :: rest => pure (b, rest)

def readBytes (n : Nat) : Reader Bytes := fun s =>
  if s.length < n then throw "DataStream::read(): end of data" else pure (s.take n, s.drop n)

def readMany (rd : Reader α) : Nat → Reader (List α)
  | 0 => pure []
  | n + 1 => do
    let x ← rd
    let xs ← readMany rd n
    return x :: xs

@[simp] theorem pure_apply (x : α) (s : Bytes) : (pure x : Reader α) s = .ok (x, s) := rfl

@[simp] theorem throw_apply (e : String) (s : Bytes) : (throw e : Reader α) s = .error e := rfl

theorem bind_apply (rd : Reader α) (f : α → Reader β) (s : Bytes) :
    (rd >>= f) s = (rd s).bind (fun p => f p.1 p.2) := rfl

/-- Inversion of a sequence: both parts ran, the second on what the first left. -/
theorem bind_eq_ok {rd : Reader α} {f : α → Reader β} {s r : Bytes} {y : β} :
    (rd >>= f) s = .ok (y, r) ↔ ∃ x s', rd s = .ok (x, s') ∧ f x s' = .ok (y, r) := by
  rw [bind_apply]
  cases hrd : rd s with
  | error e => simp [Except.bind]
  | ok p => simp [Except.bind, Prod.ext_iff]

theorem readByte_eq_ok {s r : Bytes} {b : UInt8} : readByte s = .ok (b, r) ↔ s = b :: r := by
  cases s with
  | nil => simp [readByte, throw, throwThe, MonadExceptOf.throw]
  | cons c s =>
    simp only [readByte, pure, Except.pure, Except.ok.injEq, Prod.mk.injEq, List.cons.injEq]

theorem readBytes_eq_ok {n : Nat} {s r x : Bytes} :
    readBytes n s = .ok (x, r) ↔ x.length = n ∧ s = x ++ r := by
  unfold readBytes
  split
  · next h =>
    simp only [throw, throwThe, MonadExceptOf.throw, reduceCtorEq, false_iff, not_and]
    rintro hn rfl
    simp only [List.length_append] at h
    omega
  · next h =>
    simp only [pure, Except.pure, Except.ok.injEq, Prod.mk.injEq]
    constructor
    · rintro ⟨rfl, rfl⟩
      exact ⟨by rw [List.length_take]; omega, (List.take_append_drop n s).symm⟩
    · rintro ⟨rfl, rfl⟩
      simp

theorem readMany_eq_ok {rd : Reader α} {n : Nat} {s r : Bytes} {xs : List α}
    (h : readMany rd n s = .ok (xs, r)) :
    xs.length = n ∧ ∀ x ∈ xs, ∃ s' r', rd s' = .ok (x, r') := by
  induction n generalizing s xs with
  | zero =>
    simp only [readMany, pure_apply, Except.ok.injEq, Prod.mk.injEq] at h
    obtain ⟨rfl, rfl⟩ := h
    simp
  | succ n ih =>
    simp only [readMany, bind_eq_ok, pure_apply, Except.ok.injEq, Prod.mk.injEq] at h
    obtain ⟨x, s₁, hx, xs', s₂, hxs', rfl, rfl⟩ := h
    obtain ⟨hlen, hmem⟩ := ih hxs'
    refine ⟨by simp [hlen], ?_⟩
    rw [List.forall_mem_cons]
    exact ⟨⟨s, s₁, hx⟩, hmem⟩

end Reader

/-! ### Exact reads -/

section Reads

variable {α β : Type}

/-- `rd` consumes exactly `bs` and returns `x`, whatever follows on the stream. -/
def Reads (rd : Reader α) (bs : Bytes) (x : α) : Prop :=
  ∀ rest, rd (bs ++ rest) = .ok (x, rest)

namespace Reads

theorem pure (x : α) : Reads (Pure.pure x) [] x := fun _ => rfl

theorem bind {rd : Reader α} {f : α → Reader β} {s t : Bytes} {x : α} {y : β}
    (hrd : Reads rd s x) (hf : Reads (f x) t y) : Reads (rd >>= f) (s ++ t) y := by
  intro rest
  rw [List.append_assoc, Reader.bind_apply, hrd (t ++ rest)]
  exact hf rest

theorem map {rd : Reader α} {bs : Bytes} {x : α} (f : α → β) (hrd : Reads rd bs x) :
    Reads (rd >>= fun a => Pure.pure (f a)) bs (f x) := by
  intro rest
  rw [Reader.bind_apply, hrd rest]
  rfl

theorem readByte (b : UInt8) : Reads Reader.readByte [b] b := fun _ => rfl

theorem readBytes {n : Nat} (bs : Bytes) (h : bs.length = n) :
    Reads (Reader.readBytes n) bs bs :=
  fun _ => Reader.readBytes_eq_ok.mpr ⟨h, rfl⟩

theorem readMany {rd : Reader α} {enc : α → Bytes} {xs : List α}
    (h : ∀ x ∈ xs, Reads rd (enc x) x) :
    Reads (Reader.readMany rd xs.length) (xs.flatMap enc) xs := by
  induction xs with
  | nil => exact Reads.pure []
  | cons x xs ih =>
    rw [List.forall_mem_cons] at h
    exact h.1.bind ((ih h.2).map (x :: ·))

theorem prefixFree {P : α → Prop} {rd : Reader α} {enc : α → Bytes}
    (h : ∀ x, P x → Reads rd (enc x) x) : PrefixFreeOn P enc := by
  apply PrefixFreeOn.of_append_inj
  intro x y r s hx hy heq
  have hrd : rd (enc x ++ r) = rd (enc y ++ s) := by rw [heq]
  rw [h x hx r, h y hy s] at hrd
  simp only [Except.ok.injEq, Prod.mk.injEq] at hrd
  exact hrd.1

end Reads

end Reads

/-! ### Canonical readers -/

section Canonical

variable {α : Type} {rd : Reader α} {enc : α → Bytes}

/-- What `rd` consumes is the encoding of what it returns. -/
def Canonical (rd : Reader α) (enc : α → Bytes) : Prop :=
  ∀ ⦃s r : Bytes⦄ ⦃x : α⦄, rd s = .ok (x, r) → s = enc x ++ r

namespace Canonical

theorem readBytes (n : Nat) : Canonical (Reader.readBytes n) fun bs => bs :=
  fun _ _ _ h => (Reader.readBytes_eq_ok.mp h).2

theorem readMany (hrd : Canonical rd enc) (n : Nat) :
    Canonical (Reader.readMany rd n) fun xs => xs.flatMap enc := by
  induction n with
  | zero =>
    intro s r xs h
    simp only [Reader.readMany, Reader.pure_apply, Except.ok.injEq, Prod.mk.injEq] at h
    obtain ⟨rfl, rfl⟩ := h
    rfl
  | succ n ih =>
    intro s r xs h
    obtain ⟨x, s₁, hx, h⟩ := Reader.bind_eq_ok.mp h
    obtain ⟨xs', s₂, hxs, h⟩ := Reader.bind_eq_ok.mp h
    simp only [Reader.pure_apply, Except.ok.injEq, Prod.mk.injEq] at h
    obtain ⟨rfl, rfl⟩ := h
    rw [hrd hx, ih hxs, ← List.append_assoc]
    rfl

theorem ofBytes {n : Nat} {dec : Bytes → α} (h : ∀ bs, bs.length = n → enc (dec bs) = bs) :
    Canonical (do let bs ← Reader.readBytes n; return dec bs) enc := by
  intro s r x hread
  obtain ⟨bs, s₁, hbs, hx⟩ := Reader.bind_eq_ok.mp hread
  simp only [Reader.pure_apply, Except.ok.injEq, Prod.mk.injEq] at hx
  obtain ⟨hlen, rfl⟩ := Reader.readBytes_eq_ok.mp hbs
  obtain ⟨rfl, rfl⟩ := hx
  rw [h bs hlen]

end Canonical

end Canonical

end Rcpu.ByteStream
