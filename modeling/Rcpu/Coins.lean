import Rcpu.WeightedMap
import Rcpu.Script
import Rcpu.TxCheck

/-!
# The coins view

`coins.cpp` at the level of the map a view denotes: an outpoint maps to its unspent coin.  A spent
entry that a cache still holds is the same as no entry here, since every caller either checks
`HaveCoin` first or compares the coin it got with an output that is not null.

`AddCoin` refuses spent coins and drops fee outputs and unspendable scripts, so a view only ever
holds coins that are none of these; the type says so.
-/

namespace Rcpu.Coins

open Checks WeightedMap Transaction Script TxCheck

/-! ### Coins -/

structure Coin where
  out : CTxOut
  fCoinBase : Bool
  /-- A 31-bit field of the source. -/
  nHeight : Fin (2 ^ 31)
deriving DecidableEq, Repr

namespace Coin

/-- The constructor from an output, a height and the coinbase flag. -/
def ofOut (out : CTxOut) (nHeightIn : Nat) (fCoinBaseIn : Bool) : Coin :=
  ⟨out, fCoinBaseIn, Fin.ofNat (2 ^ 31) nHeightIn⟩

theorem nHeight_ofOut {out : CTxOut} {nHeight : Nat} {fCoinBase : Bool} (h : nHeight < 2 ^ 31) :
    (ofOut out nHeight fCoinBase).nHeight.val = nHeight := Nat.mod_eq_of_lt h

def IsSpent (coin : Coin) : Prop := coin.out.IsNull

instance (coin : Coin) : Decidable coin.IsSpent := inferInstanceAs (Decidable (CTxOut.IsNull _))

def IsDropped (out : CTxOut) : Prop := IsUnspendable out.scriptPubKey ∨ out.IsFee

instance (out : CTxOut) : Decidable (IsDropped out) := inferInstanceAs (Decidable (_ ∨ _))

def Storable (coin : Coin) : Prop := ¬ coin.IsSpent ∧ ¬ IsDropped coin.out

instance (coin : Coin) : Decidable coin.Storable := inferInstanceAs (Decidable (_ ∧ _))

end Coin

/-! ### Views -/

/-- The map from outpoints to unspent coins that a `CCoinsView` denotes. -/
structure CCoinsView where
  coins : Map COutPoint Coin
  storable : ∀ outpoint coin, coins.lookup outpoint = some coin → coin.Storable

namespace CCoinsView

@[ext] theorem ext {view view' : CCoinsView}
    (h : ∀ outpoint, view.coins.lookup outpoint = view'.coins.lookup outpoint) : view = view' := by
  obtain ⟨coins, _⟩ := view
  obtain ⟨coins', _⟩ := view'
  obtain rfl : coins = coins' := Finmap.ext_lookup h
  rfl

def empty : CCoinsView := ⟨∅, by simp⟩

def getCoin (view : CCoinsView) (outpoint : COutPoint) : Option Coin := view.coins.lookup outpoint

def haveCoin (view : CCoinsView) (outpoint : COutPoint) : Bool := (view.getCoin outpoint).isSome

def insert (view : CCoinsView) (outpoint : COutPoint) (coin : Coin) (h : coin.Storable) :
    CCoinsView where
  coins := view.coins.insert outpoint coin
  storable := by
    intro o c hlookup
    by_cases ho : o = outpoint
    · subst ho
      rw [Finmap.lookup_insert, Option.some.injEq] at hlookup
      exact hlookup ▸ h
    · rw [Finmap.lookup_insert_of_ne _ ho] at hlookup
      exact view.storable o c hlookup

def erase (view : CCoinsView) (outpoint : COutPoint) : CCoinsView where
  coins := view.coins.erase outpoint
  storable := by
    intro o c hlookup
    by_cases ho : o = outpoint
    · subst ho
      rw [Finmap.lookup_erase] at hlookup
      simp at hlookup
    · rw [Finmap.lookup_erase_ne ho] at hlookup
      exact view.storable o c hlookup

variable {Result : Type}

def addCoin (view : CCoinsView) (outpoint : COutPoint) (coin : Coin) (possibleOverwrite : Bool) :
    Except (Failure Result) CCoinsView :=
  if hspent : coin.IsSpent then .error (.assertion "!coin.IsSpent()")
  else if hdrop : Coin.IsDropped coin.out then .ok view
  else if !possibleOverwrite && view.haveCoin outpoint then
    .error (.exception
      "Attempted to overwrite an unspent coin (when possible_overwrite is false)")
  else .ok (view.insert outpoint coin ⟨hspent, hdrop⟩)

/-- `SpendCoin`: the coin moved out and the view without it; `none` stands for returning false. -/
def spendCoin (view : CCoinsView) (outpoint : COutPoint) : Option (Coin × CCoinsView) :=
  (view.getCoin outpoint).map fun coin => (coin, view.erase outpoint)

/-- One round of the loop of `AddCoins`, for the output `out` at index `i`. -/
def addOutput (txid : Uint256) (tx : CTransaction) (nHeight : Nat) (checkForOverwrite : Bool)
    (view : CCoinsView) (entry : CTxOut × Nat) : Except (Failure Result) CCoinsView :=
  let (out, i) := entry
  let outpoint : COutPoint := ⟨txid, UInt32.ofNat i⟩
  -- only confidential transactions may write commitments; anything else is skipped and logged
  if !tx.fCT ∧ out.nValue.IsCommitment then .ok view
  else
    let fCoinbase : Bool := tx.IsCoinBase
    let overwrite := if checkForOverwrite then view.haveCoin outpoint else fCoinbase
    view.addCoin outpoint (.ofOut out nHeight fCoinbase) overwrite

def addCoins (view : CCoinsView) (txid : Uint256) (tx : CTransaction) (nHeight : Nat)
    (checkForOverwrite : Bool) : Except (Failure Result) CCoinsView :=
  tx.vout.zipIdx.foldlM (addOutput txid tx nHeight checkForOverwrite) view

def HaveInputs (getCoin : COutPoint → Option Coin) (tx : CTransaction) : Prop :=
  ¬ tx.IsCoinBase → ∀ txin ∈ tx.vin, (getCoin txin.prevout).isSome

instance (getCoin : COutPoint → Option Coin) (tx : CTransaction) :
    Decidable (HaveInputs getCoin tx) := inferInstanceAs (Decidable (_ → _))

/-! ### Small lemmas -/

@[simp] theorem getCoin_empty (o : COutPoint) : empty.getCoin o = none := Finmap.lookup_empty o

@[simp] theorem getCoin_insert_self (view : CCoinsView) (o : COutPoint) (c : Coin) (h : c.Storable) :
    (view.insert o c h).getCoin o = some c := Finmap.lookup_insert _

theorem getCoin_insert_of_ne {view : CCoinsView} {o o' : COutPoint} {c : Coin} {h : c.Storable}
    (hne : o' ≠ o) : (view.insert o c h).getCoin o' = view.getCoin o' :=
  Finmap.lookup_insert_of_ne _ hne

@[simp] theorem getCoin_erase_self (view : CCoinsView) (o : COutPoint) :
    (view.erase o).getCoin o = none := Finmap.lookup_erase o _

theorem getCoin_erase_of_ne {view : CCoinsView} {o o' : COutPoint} (hne : o' ≠ o) :
    (view.erase o).getCoin o' = view.getCoin o' := Finmap.lookup_erase_ne hne

theorem getCoin_storable {view : CCoinsView} {o : COutPoint} {c : Coin}
    (h : view.getCoin o = some c) : c.Storable := view.storable o c h

theorem insert_erase_self {view : CCoinsView} {o : COutPoint} {c : Coin} (h : view.getCoin o = some c)
    (hc : c.Storable) : (view.erase o).insert o c hc = view := by
  ext1 o'
  change ((view.erase o).insert o c hc).getCoin o' = view.getCoin o'
  by_cases ho : o' = o
  · rw [ho, getCoin_insert_self, h]
  · rw [getCoin_insert_of_ne ho, getCoin_erase_of_ne ho]

theorem spendCoin_eq_some {view view' : CCoinsView} {o : COutPoint} {c : Coin} :
    view.spendCoin o = some (c, view') ↔ view.getCoin o = some c ∧ view' = view.erase o := by
  simp only [spendCoin, Option.map_eq_some_iff, Prod.mk.injEq]
  constructor
  · rintro ⟨d, hd, rfl, rfl⟩
    exact ⟨hd, rfl⟩
  · rintro ⟨hc, rfl⟩
    exact ⟨c, hc, rfl, rfl⟩

/-- What a successful `AddCoin` did: nothing for a dropped output, else one insertion, into a free
slot unless overwriting was allowed. -/
theorem addCoin_eq_ok {view view' : CCoinsView} {o : COutPoint} {c : Coin} {ow : Bool}
    (h : view.addCoin o c ow = (.ok view' : Except (Failure Result) CCoinsView)) :
    (Coin.IsDropped c.out ∧ view' = view) ∨
      ∃ hc : c.Storable, view' = view.insert o c hc ∧ (ow = false → view.getCoin o = none) := by
  unfold addCoin at h
  split_ifs at h with hspent hdrop how
  · simp only [Except.ok.injEq] at h
    exact .inl ⟨hdrop, h.symm⟩
  · simp only [Except.ok.injEq] at h
    refine .inr ⟨⟨hspent, hdrop⟩, h.symm, fun hfalse => ?_⟩
    simpa [hfalse, haveCoin] using how

theorem addCoin_of_free {view : CCoinsView} {o : COutPoint} {c : Coin} (hc : c.Storable)
    (hfree : view.getCoin o = none) :
    view.addCoin o c false = (.ok (view.insert o c hc) : Except (Failure Result) CCoinsView) := by
  obtain ⟨hspent, hdrop⟩ := hc
  have hhave : ¬ ((!false && view.haveCoin o) = true) := by simp [haveCoin, hfree]
  unfold addCoin
  rw [dif_neg hspent, dif_neg hdrop, if_neg hhave]

/-! ### Spending and adding in bulk -/

def eraseAll (view : CCoinsView) (outpoints : List COutPoint) : CCoinsView :=
  outpoints.foldl erase view

@[simp] theorem eraseAll_nil (view : CCoinsView) : view.eraseAll [] = view := rfl

@[simp] theorem eraseAll_cons (view : CCoinsView) (o : COutPoint) (os : List COutPoint) :
    view.eraseAll (o :: os) = (view.erase o).eraseAll os := rfl

theorem getCoin_eraseAll (view : CCoinsView) (os : List COutPoint) (o : COutPoint) :
    (view.eraseAll os).getCoin o = if o ∈ os then none else view.getCoin o := by
  induction os generalizing view with
  | nil => simp
  | cons o' os ih =>
    rw [eraseAll_cons, ih]
    by_cases ho : o = o'
    · subst ho
      simp
    · simp [ho, getCoin_erase_of_ne ho]

/-- Outputs that `AddCoins` writes: not a commitment of a non-CT transaction, and not dropped. -/
def IsStored (tx : CTransaction) (out : CTxOut) : Prop :=
  ¬ (tx.fCT = false ∧ out.nValue.IsCommitment) ∧ ¬ Coin.IsDropped out

instance (tx : CTransaction) (out : CTxOut) : Decidable (IsStored tx out) :=
  inferInstanceAs (Decidable (_ ∧ _))

theorem isStored_iff {tx : CTransaction} {out : CTxOut} (h : Checked tx) (hmem : out ∈ tx.vout) :
    IsStored tx out ↔ ¬ Coin.IsDropped out := by
  refine ⟨fun hs => hs.2, fun hdrop => ⟨?_, hdrop⟩⟩
  rintro ⟨hct, hcommit⟩
  exact (h.nonCT hct out hmem).1 hcommit

section AddCoins

variable {txid : Uint256} {tx : CTransaction} {nHeight : Nat} {view view' : CCoinsView}
  {out : CTxOut} {n : Nat}

/-- What a round of `AddCoins` did: nothing unless the output is stored, else one insertion. -/
theorem addOutput_eq_ok (h : addOutput txid tx nHeight false view (out, n) =
      (.ok view' : Except (Failure Result) CCoinsView)) :
    (¬ IsStored tx out ∧ view' = view) ∨
      (IsStored tx out ∧ ∃ hc : (Coin.ofOut out nHeight tx.IsCoinBase).Storable,
        view' = view.insert ⟨txid, UInt32.ofNat n⟩ (Coin.ofOut out nHeight tx.IsCoinBase) hc ∧
        (¬ tx.IsCoinBase → view.getCoin ⟨txid, UInt32.ofNat n⟩ = none)) := by
  unfold addOutput at h
  dsimp only at h
  split at h
  · next hskip =>
    simp only [Except.ok.injEq] at h
    refine .inl ⟨fun hstored => hstored.1 (by simpa using hskip), h.symm⟩
  · next hskip =>
    rw [if_neg Bool.false_ne_true] at h
    rcases addCoin_eq_ok h with ⟨hdrop, rfl⟩ | ⟨hc, rfl, hfree⟩
    · exact .inl ⟨fun hstored => hstored.2 hdrop, rfl⟩
    · refine .inr ⟨⟨by simpa using hskip, hc.2⟩, hc, rfl, fun hcb => hfree (by simpa using hcb)⟩

/-- A round of `AddCoins` succeeds on an output that is not null, at a free slot if it is stored. -/
theorem exists_addOutput_eq_ok (hnull : ¬ out.IsNull)
    (hfree : IsStored tx out → view.getCoin ⟨txid, UInt32.ofNat n⟩ = none) :
    ∃ view', addOutput txid tx nHeight false view (out, n) =
      (.ok view' : Except (Failure Result) CCoinsView) := by
  unfold addOutput
  dsimp only
  split
  · exact ⟨view, rfl⟩
  · next hskip =>
    have hspent : ¬ (Coin.ofOut out nHeight tx.IsCoinBase).IsSpent := hnull
    unfold addCoin
    rw [dif_neg hspent]
    split
    · exact ⟨view, rfl⟩
    · next hdrop =>
      have hnone := hfree ⟨by simpa using hskip, hdrop⟩
      rw [if_neg (by simp [haveCoin, hnone])]
      exact ⟨_, rfl⟩

/-- The coin a transaction creates at an outpoint, its outputs being numbered from `n`. -/
def createdFrom (txid : Uint256) (tx : CTransaction) (nHeight : Nat) (vout : List CTxOut) (n : Nat)
    (o : COutPoint) : Option Coin :=
  if o.hash = txid ∧ n ≤ o.n.toNat then
    (vout[o.n.toNat - n]?).bind fun out =>
      if IsStored tx out then some (.ofOut out nHeight tx.IsCoinBase) else none
  else none

def createdCoin (txid : Uint256) (tx : CTransaction) (nHeight : Nat) (o : COutPoint) :
    Option Coin := createdFrom txid tx nHeight tx.vout 0 o

theorem createdCoin_eq_some {o : COutPoint} {c : Coin} :
    createdCoin txid tx nHeight o = some c ↔
      o.hash = txid ∧ ∃ out, tx.vout[o.n.toNat]? = some out ∧ IsStored tx out ∧
        Coin.ofOut out nHeight tx.IsCoinBase = c := by
  unfold createdCoin createdFrom
  by_cases hhash : o.hash = txid
  · simp [hhash, Option.bind_eq_some_iff]
  · simp [hhash]

theorem outpoint_eq_iff (hn : n < 2 ^ 32) {o : COutPoint} :
    o = ⟨txid, UInt32.ofNat n⟩ ↔ o.hash = txid ∧ o.n.toNat = n := by
  obtain ⟨hash, i⟩ := o
  have hto : (UInt32.ofNat n).toNat = n := by
    rw [UInt32.toNat_ofNat']
    exact Nat.mod_eq_of_lt hn
  simp only [COutPoint.mk.injEq, and_congr_right_iff]
  intro _
  rw [← UInt32.toNat_inj, hto]

theorem createdFrom_cons (vout : List CTxOut) (o : COutPoint) :
    createdFrom txid tx nHeight (out :: vout) n o =
      if o.hash = txid ∧ o.n.toNat = n then
        if IsStored tx out then some (.ofOut out nHeight tx.IsCoinBase) else none
      else createdFrom txid tx nHeight vout (n + 1) o := by
  unfold createdFrom
  by_cases hhash : o.hash = txid
  · rcases Nat.lt_trichotomy o.n.toNat n with hlt | heq | hgt
    · simp [hhash, hlt.ne, Nat.not_le.mpr hlt, Nat.not_le.mpr (Nat.lt_succ_of_lt hlt)]
    · simp [hhash, heq]
    · have hsub : o.n.toNat - n = (o.n.toNat - (n + 1)) + 1 := by omega
      simp [hhash, hgt.le, hgt.ne', Nat.succ_le_of_lt hgt, hsub]
  · simp [hhash]

private theorem getCoin_foldlM_addOutput (vout : List CTxOut) (hlen : n + vout.length ≤ 2 ^ 32)
    (h : (vout.zipIdx n).foldlM (addOutput txid tx nHeight false) view =
      (.ok view' : Except (Failure Result) CCoinsView)) (o : COutPoint) :
    view'.getCoin o = (createdFrom txid tx nHeight vout n o).or (view.getCoin o) := by
  induction vout generalizing n view with
  | nil =>
    obtain rfl := pure_eq_ok.mp h
    simp [createdFrom]
  | cons out vout ih =>
    rw [List.zipIdx_cons, foldlM_cons_eq_ok] at h
    obtain ⟨mid, hstep, h⟩ := h
    rw [List.length_cons] at hlen
    rw [ih (by omega) h, createdFrom_cons]
    have hslot : o = ⟨txid, UInt32.ofNat n⟩ ↔ o.hash = txid ∧ o.n.toNat = n :=
      outpoint_eq_iff (by omega)
    by_cases ho : o = ⟨txid, UInt32.ofNat n⟩
    · have hlater : createdFrom txid tx nHeight vout (n + 1) o = none := by
        simp [createdFrom, (hslot.mp ho).2]
      rw [hlater, if_pos (hslot.mp ho)]
      rcases addOutput_eq_ok hstep with ⟨hnot, rfl⟩ | ⟨hstored, hc, rfl, -⟩
      · simp [hnot]
      · simp [hstored, ho]
    · rw [if_neg fun hh => ho (hslot.mpr hh)]
      rcases addOutput_eq_ok hstep with ⟨-, rfl⟩ | ⟨-, hc, rfl, -⟩
      · rfl
      · rw [getCoin_insert_of_ne ho]

/-- **What `AddCoins` does**: the created coins come to lie over the view. -/
theorem getCoin_addCoins (hlen : tx.vout.length ≤ 2 ^ 32)
    (h : view.addCoins txid tx nHeight false = (.ok view' : Except (Failure Result) CCoinsView))
    (o : COutPoint) :
    view'.getCoin o = (createdCoin txid tx nHeight o).or (view.getCoin o) :=
  getCoin_foldlM_addOutput tx.vout (by omega) h o

/-- `AddCoins` of a transaction that is not a coinbase found the slots it writes free. -/
theorem getCoin_eq_none_of_addCoins (hlen : tx.vout.length ≤ 2 ^ 32) (hcb : ¬ tx.IsCoinBase)
    (h : view.addCoins txid tx nHeight false = (.ok view' : Except (Failure Result) CCoinsView))
    {o : COutPoint} (ho : (createdCoin txid tx nHeight o).isSome) : view.getCoin o = none := by
  suffices hloop : ∀ (vout : List CTxOut) (n : Nat) (view : CCoinsView), n + vout.length ≤ 2 ^ 32 →
      (vout.zipIdx n).foldlM (addOutput txid tx nHeight false) view =
        (.ok view' : Except (Failure Result) CCoinsView) →
      (createdFrom txid tx nHeight vout n o).isSome → view.getCoin o = none from
    hloop tx.vout 0 view (by omega) h ho
  intro vout
  induction vout with
  | nil =>
    intro n view _ _ ho
    simp [createdFrom] at ho
  | cons out vout ih =>
    intro n view hlen h ho
    rw [List.zipIdx_cons, foldlM_cons_eq_ok] at h
    obtain ⟨mid, hstep, h⟩ := h
    rw [List.length_cons] at hlen
    have hslot : o = ⟨txid, UInt32.ofNat n⟩ ↔ o.hash = txid ∧ o.n.toNat = n :=
      outpoint_eq_iff (by omega)
    rw [createdFrom_cons] at ho
    by_cases heq : o = ⟨txid, UInt32.ofNat n⟩
    · rw [if_pos (hslot.mp heq)] at ho
      rcases addOutput_eq_ok hstep with ⟨hnot, -⟩ | ⟨-, -, -, hfree⟩
      · simp [hnot] at ho
      · rw [heq]
        exact hfree hcb
    · rw [if_neg fun hh => heq (hslot.mpr hh)] at ho
      have hmid := ih (n + 1) mid (by omega) h ho
      rcases addOutput_eq_ok hstep with ⟨-, rfl⟩ | ⟨-, hc, rfl, -⟩
      · exact hmid
      · rwa [getCoin_insert_of_ne heq] at hmid

theorem getCoin_slot_eq_none {vout : List CTxOut} (hn : n < 2 ^ 32)
    (hfree : ∀ o, (createdFrom txid tx nHeight (out :: vout) n o).isSome → view.getCoin o = none)
    (hstored : IsStored tx out) : view.getCoin ⟨txid, UInt32.ofNat n⟩ = none := by
  apply hfree
  rw [createdFrom_cons, if_pos ((outpoint_eq_iff hn).mp rfl), if_pos hstored]
  rfl

theorem getCoin_eq_none_of_addOutput {vout : List CTxOut} {mid : CCoinsView} (hn : n < 2 ^ 32)
    (hfree : ∀ o, (createdFrom txid tx nHeight (out :: vout) n o).isSome → view.getCoin o = none)
    (hstep : addOutput txid tx nHeight false view (out, n) =
      (.ok mid : Except (Failure Result) CCoinsView)) (o : COutPoint)
    (ho : (createdFrom txid tx nHeight vout (n + 1) o).isSome) : mid.getCoin o = none := by
  have hslot : ∀ o : COutPoint, o = ⟨txid, UInt32.ofNat n⟩ ↔ o.hash = txid ∧ o.n.toNat = n :=
    fun o => outpoint_eq_iff hn
  have hne : o ≠ ⟨txid, UInt32.ofNat n⟩ := by
    rintro rfl
    have hn := ((hslot _).mp rfl).2
    simp [createdFrom, hn] at ho
  have hview : view.getCoin o = none := by
    apply hfree
    rw [createdFrom_cons, if_neg fun hh => hne ((hslot o).mpr hh)]
    exact ho
  rcases addOutput_eq_ok hstep with ⟨-, rfl⟩ | ⟨-, hc, rfl, -⟩
  · exact hview
  · rw [getCoin_insert_of_ne hne, hview]

/-- `AddCoins` succeeds on outputs that are not null when the slots it writes are free. -/
theorem exists_addCoins_eq_ok (hlen : tx.vout.length ≤ 2 ^ 32)
    (hnull : ∀ out ∈ tx.vout, ¬ out.IsNull)
    (hfree : ∀ o, (createdCoin txid tx nHeight o).isSome → view.getCoin o = none) :
    ∃ view', view.addCoins txid tx nHeight false =
      (.ok view' : Except (Failure Result) CCoinsView) := by
  suffices hloop : ∀ (vout : List CTxOut) (n : Nat) (view : CCoinsView), n + vout.length ≤ 2 ^ 32 →
      (∀ out ∈ vout, ¬ out.IsNull) →
      (∀ o, (createdFrom txid tx nHeight vout n o).isSome → view.getCoin o = none) →
      ∃ view', (vout.zipIdx n).foldlM (addOutput txid tx nHeight false) view =
        (.ok view' : Except (Failure Result) CCoinsView) from
    hloop tx.vout 0 view (by omega) hnull hfree
  intro vout
  induction vout with
  | nil =>
    intro n view _ _ _
    exact ⟨view, rfl⟩
  | cons out vout ih =>
    intro n view hlen hnull hfree
    rw [List.forall_mem_cons] at hnull
    rw [List.length_cons] at hlen
    obtain ⟨mid, hmid⟩ : ∃ mid, addOutput txid tx nHeight false view (out, n) =
        (.ok mid : Except (Failure Result) CCoinsView) :=
      exists_addOutput_eq_ok hnull.1 (getCoin_slot_eq_none (by omega) hfree)
    have hrest := getCoin_eq_none_of_addOutput (by omega) hfree hmid
    obtain ⟨view', hview'⟩ := ih (n + 1) mid (by omega) hnull.2 hrest
    exact ⟨view', by rw [List.zipIdx_cons, foldlM_cons_eq_ok]; exact ⟨mid, hmid, hview'⟩⟩

end AddCoins

end CCoinsView

end Rcpu.Coins
