import Rcpu.WalletCoherence
import Rcpu.WalletLock

/-!
# Amounts after unlocking

`Unlock` records what opens with the keys, and a transaction with something to record forgets the
amounts it has cached.  Nothing else is forgotten.  A debit is computed from the outputs of other
transactions, and change has no fallback to the records, so an amount that was computed without the
keys can stay.
-/

namespace Rcpu.WalletCache

open Checks ByteStream Confidential Transaction
open Rcpu.ConfidentialValidation (Scalar)
open Rcpu.WalletReceive (toyHash160 descriptorWallet sampleOutput payToWitnessPubKeyHash)

/-! ### The wallet after unlocking -/

section Unlock

variable {𝔾 : Type} {hash160 : Bytes → Bytes} {env : WalletEnv 𝔾} {w w' : CWallet hash160}
  {wtx : CWalletTx} {txid : Uint256} {filter : isminefilter} {key : Bytes}

def CWallet.withKey (w : CWallet hash160) (key : Bytes) : CWallet hash160 :=
  { w with vMasterKey := some key }

theorem unlock_eq_true (h : unlock env w key = (w', true)) :
    w' = cacheCTUnblindedAmounts env (w.withKey key) := by
  unfold unlock at h
  split_ifs at h
  · cases h
  · exact (congrArg Prod.fst h).symm

theorem isLocked_withKey (w : CWallet hash160) (key : Bytes) : (w.withKey key).isLocked = false :=
  Bool.and_false _

theorem sameChain_unlock (w : CWallet hash160) (key : Bytes) :
    SameChain w (cacheCTUnblindedAmounts env (w.withKey key)) := by
  -- the master key is not part of the chain
  have hrecorded := @sameChain_cacheCTUnblindedAmounts _ _ env (w.withKey key)
  exact ⟨hrecorded.isMine, hrecorded.spends, hrecorded.height, hrecorded.zeroConf,
    hrecorded.avoidReuse, hrecorded.previouslySpent, hrecorded.affected, hrecorded.txs⟩

theorem unblinded_withKey (w : CWallet hash160) (key : Bytes) (txout : CTxOut) :
    unblinded env (w.withKey key) txout = opens env w.keys txout :=
  unblinded_of_unlocked (isLocked_withKey w key) txout

theorem unblinded_unlock (w : CWallet hash160) (key : Bytes) (txout : CTxOut) :
    unblinded env (cacheCTUnblindedAmounts env (w.withKey key)) txout = opens env w.keys txout :=
  unblinded_of_unlocked (isLocked_withKey w key) txout

/-- What opens is an amount, and what was recorded is what opens. -/
structure Legible (env : WalletEnv 𝔾) (w : CWallet hash160) : Prop where
  inRange : ∀ txid wtx, w.mapWallet.lookup txid = some wtx → ∀ txout ∈ wtx.tx.vout, ∀ value,
    opens env w.keys txout = some value → MoneyRange value
  recorded : ∀ txid wtx, w.mapWallet.lookup txid = some wtx → ∀ output ∈ wtx.tx.vout.zipIdx,
    ∀ value recorded, keyless env output.1 = none → opens env w.keys output.1 = some value →
      wtx.recorded output.2 = some recorded → recorded = value

/-- An amount other than zero that only a key opens, and that was not recorded. -/
def Hidden (env : WalletEnv 𝔾) (w : CWallet hash160) (wtx : CWalletTx) (output : CTxOut × Nat) :
    Prop :=
  keyless env output.1 = none ∧ wtx.recorded output.2 = none ∧
    ∃ value, opens env w.keys output.1 = some value ∧ value ≠ 0

/-- Unlocking shows the hidden amounts, and changes no other. -/
theorem unblindedOrRecorded_unlock (hlocked : w.isLocked = true) (hlegible : Legible env w)
    (hlookup : w.mapWallet.lookup txid = some wtx) {output : CTxOut × Nat}
    (hmem : output ∈ wtx.tx.vout.zipIdx) :
    unblindedOrRecorded env w wtx output ≤
        unblindedOrRecorded env (cacheCTUnblindedAmounts env (w.withKey key))
          (cacheTx env (w.withKey key) wtx) output ∧
      (unblindedOrRecorded env w wtx output =
        unblindedOrRecorded env (cacheCTUnblindedAmounts env (w.withKey key))
          (cacheTx env (w.withKey key) wtx) output ↔ ¬ Hidden env w wtx output) := by
  unfold unblindedOrRecorded Hidden
  rw [unblinded_of_locked hlocked, unblinded_unlock, recorded_cacheTx hmem]
  cases hkeyless : keyless env output.1 with
  | some value =>
    rw [opens_of_keyless hkeyless]
    simp
  | none =>
    cases hopens : opens env w.keys output.1 with
    | none =>
      have hnone : toRecord env (w.withKey key) output.1 = none := by
        rw [toRecord, unblinded_withKey, hopens, Option.filter_none, ite_self]
      rw [hnone, Option.or_none]
      simp
    | some value =>
      have hrange := hlegible.inRange txid wtx hlookup output.1 (List.fst_mem_of_mem_zipIdx hmem)
        value hopens
      cases hrecorded : wtx.recorded output.2 with
      | some recorded =>
        obtain rfl := hlegible.recorded txid wtx hlookup output hmem value recorded hkeyless hopens
          hrecorded
        simp
      | none =>
        refine ⟨hrange.1, ?_⟩
        simp [eq_comm]

theorem pending_of_hidden (hlegible : Legible env w) (hlookup : w.mapWallet.lookup txid = some wtx)
    {output : CTxOut × Nat} (hmem : output ∈ wtx.tx.vout.zipIdx) (h : Hidden env w wtx output) :
    Pending env (w.withKey key) wtx := by
  obtain ⟨hkeyless, hrecorded, value, hopens, -⟩ := h
  have hrange := hlegible.inRange txid wtx hlookup output.1 (List.fst_mem_of_mem_zipIdx hmem) value
    hopens
  have hrecord : toRecord env (w.withKey key) output.1 = some value :=
    toRecord_eq_some.mpr ⟨not_isExplicit_of_keyless hkeyless,
      (unblinded_withKey w key output.1).trans hopens, hrange⟩
  refine ⟨output, hmem, Option.map_eq_none_iff.mp hrecorded, ?_⟩
  rw [hrecord]
  exact Option.some_ne_none value

/-! ### Amounts of one transaction -/

theorem creditValue_unlock (hlocked : w.isLocked = true) (hlegible : Legible env w)
    (hlookup : w.mapWallet.lookup txid = some wtx) (hpending : ¬ Pending env (w.withKey key) wtx)
    {output : CTxOut × Nat} (hmem : output ∈ wtx.tx.vout.zipIdx) :
    creditValue env (cacheCTUnblindedAmounts env (w.withKey key)) wtx output =
      creditValue env w wtx output := by
  have hvalue := (@unblindedOrRecorded_unlock _ _ _ _ _ _ key hlocked hlegible hlookup _ hmem).2.mpr
    fun hhidden => hpending (pending_of_hidden hlegible hlookup hmem hhidden)
  rw [cacheTx_of_not_pending hpending] at hvalue
  unfold creditValue
  rw [hvalue]

theorem availableValue_unlock (hlocked : w.isLocked = true) (hlegible : Legible env w)
    (hlookup : w.mapWallet.lookup txid = some wtx) (hpending : ¬ Pending env (w.withKey key) wtx)
    {output : CTxOut × Nat} (hmem : output ∈ wtx.tx.vout.zipIdx) :
    availableValue env (cacheCTUnblindedAmounts env (w.withKey key)) wtx filter output =
      availableValue env w wtx filter output := by
  have hmine := isMineFor_congr (@sameChain_unlock _ _ env w key).isMine output.1 filter
  unfold availableValue outputGetCredit
  rw [unblinded_of_locked hlocked, unblinded_unlock, hmine]
  cases hkeyless : keyless env output.1 with
  | some value => rw [opens_of_keyless hkeyless]
  | none =>
    have hexplicit := not_isExplicit_of_keyless hkeyless
    cases hopens : opens env w.keys output.1 with
    | none => rfl
    | some value =>
      have hrange := hlegible.inRange txid wtx hlookup output.1 (List.fst_mem_of_mem_zipIdx hmem)
        value hopens
      dsimp only [bind, Except.bind]
      rw [if_neg (not_not.mpr hrange)]
      dsimp only
      by_cases hmine' : w.isMineFor output.1 filter = true
      · have hfallback : (0 : Int) = 0 ∧ ¬ output.1.nValue.IsExplicit ∧
            w.isMineFor output.1 filter = true := ⟨rfl, hexplicit, hmine'⟩
        rw [if_pos hmine', if_pos hfallback]
        cases hrecorded : wtx.recorded output.2 with
        | some recorded =>
          obtain rfl := hlegible.recorded txid wtx hlookup output hmem value recorded hkeyless hopens
            hrecorded
          exact ite_self _
        | none =>
          -- only an amount of zero can have been left out
          have hzero : value = 0 := by
            by_contra hne
            exact hpending (pending_of_hidden hlegible hlookup hmem
              ⟨hkeyless, hrecorded, value, hopens, hne⟩)
          rw [hzero]
          exact ite_self _
      · rw [if_neg hmine', if_neg fun hfallback => hmine' hfallback.2.2]

/-! ### Debits -/

/-- A hidden amount of the wallet among the outputs of a transaction. -/
def HiddenOutput (env : WalletEnv 𝔾) (w : CWallet hash160) (filter : isminefilter)
    (prev : CWalletTx) (n : Nat) : Prop :=
  ∃ txout, prev.tx.vout[n]? = some txout ∧ w.isMineFor txout filter = true ∧
    Hidden env w prev (txout, n)

theorem debitOf_unlock (hlocked : w.isLocked = true) (hlegible : Legible env w)
    (hlookup : w.mapWallet.lookup txid = some wtx) (n : Nat) :
    debitOf env w filter wtx n ≤ debitOf env (cacheCTUnblindedAmounts env (w.withKey key)) filter
        (cacheTx env (w.withKey key) wtx) n ∧
      (debitOf env w filter wtx n = debitOf env (cacheCTUnblindedAmounts env (w.withKey key)) filter
        (cacheTx env (w.withKey key) wtx) n ↔ ¬ HiddenOutput env w filter wtx n) := by
  unfold debitOf HiddenOutput
  rw [cacheTx_tx]
  cases hout : wtx.tx.vout[n]? with
  | none => simp
  | some txout =>
    have hmem : (txout, n) ∈ wtx.tx.vout.zipIdx := by
      rw [List.mem_zipIdx_iff_getElem?]
      exact hout
    obtain ⟨hle, heq⟩ := @unblindedOrRecorded_unlock _ _ _ _ _ _ key hlocked hlegible hlookup _ hmem
    dsimp only
    rw [isMineFor_congr (@sameChain_unlock _ _ env w key).isMine]
    by_cases hmine : w.isMineFor txout filter = true
    · simp only [Option.some.injEq, exists_eq_left', hmine, true_and]
      exact ⟨hle, heq⟩
    · simp [hmine]

def HiddenInput (env : WalletEnv 𝔾) (w : CWallet hash160) (filter : isminefilter) (txin : CTxIn) :
    Prop :=
  ∃ prev, w.mapWallet.lookup txin.prevout.hash = some prev ∧
    HiddenOutput env w filter prev txin.prevout.n.toNat

theorem getDebitIn_unlock (hlocked : w.isLocked = true) (hlegible : Legible env w) (txin : CTxIn) :
    getDebitIn env w filter txin ≤
        getDebitIn env (cacheCTUnblindedAmounts env (w.withKey key)) filter txin ∧
      (getDebitIn env w filter txin =
        getDebitIn env (cacheCTUnblindedAmounts env (w.withKey key)) filter txin ↔
        ¬ HiddenInput env w filter txin) := by
  have hlookup' := @lookup_cacheCTUnblindedAmounts _ _ env (w.withKey key) txin.prevout.hash
  unfold getDebitIn HiddenInput
  cases hlookup : w.mapWallet.lookup txin.prevout.hash with
  | none =>
    have hnone : (w.withKey key).mapWallet.lookup txin.prevout.hash = none := hlookup
    rw [hlookup', hnone]
    simp
  | some prev =>
    have hsome : (w.withKey key).mapWallet.lookup txin.prevout.hash = some prev := hlookup
    rw [hlookup', hsome]
    simp only [Option.some.injEq, exists_eq_left']
    exact debitOf_unlock hlocked hlegible hlookup txin.prevout.n.toNat

def debitSum (env : WalletEnv 𝔾) (w : CWallet hash160) (filter : isminefilter) (tx : CTransaction) :
    Int :=
  (tx.vin.map (getDebitIn env w filter)).sum

theorem addInRange_eq_ok {error : String} {nSum value sum : Int}
    (h : addInRange error nSum value = .ok sum) : sum = nSum + value := by
  unfold addInRange at h
  split_ifs at h
  exact (Except.ok.inj h).symm

theorem getDebit_eq_ok {tx : CTransaction} {value : Int} (h : getDebit env w tx filter = .ok value) :
    value = debitSum env w filter tx := by
  have hsum := foldlM_sum (c := id) (w := getDebitIn env w filter)
    (fun nDebit txin nDebit' _ hstep => addInRange_eq_ok hstep) h
  simpa [debitSum] using hsum

/-- Terms that are at most as large, with the same sum, are the same. -/
theorem eq_of_sum_eq {α : Type} {l : List α} {f g : α → Int} (hle : ∀ x ∈ l, f x ≤ g x)
    (hsum : (l.map g).sum ≤ (l.map f).sum) : ∀ x ∈ l, f x = g x := by
  intro x hx
  by_contra hne
  have hlt := List.sum_lt_sum f g hle ⟨x, hx, lt_of_le_of_ne (hle x hx) hne⟩
  omega

/-! ### Change -/

def changeOf (env : WalletEnv 𝔾) (w : CWallet hash160) (txout : CTxOut) : Int :=
  if w.scriptIsChange txout.scriptPubKey then (unblinded env w txout).getD 0 else 0

theorem outputGetChange_eq_ok {txout : CTxOut} {value : Int}
    (h : outputGetChange env w txout = .ok value) : value = changeOf env w txout := by
  unfold outputGetChange at h
  unfold changeOf
  cases hvalue : unblinded env w txout with
  | none =>
    rw [hvalue] at h
    rw [← Except.ok.inj h, Option.getD_none, ite_self]
  | some amount =>
    rw [hvalue] at h
    dsimp only at h
    split_ifs at h with hrange hchange
    · rw [if_pos hchange]
      exact (Except.ok.inj h).symm
    · rw [if_neg hchange]
      exact (Except.ok.inj h).symm

theorem txGetChange_eq_ok {tx : CTransaction} {value : Int} (h : txGetChange env w tx = .ok value) :
    value = (tx.vout.map (changeOf env w)).sum := by
  have hround : ∀ nChange txout nChange', txout ∈ tx.vout →
      (do addInRange "TxGetChange: value out of range" nChange (← outputGetChange env w txout)) =
        Except.ok nChange' → id nChange' = id nChange + changeOf env w txout := by
    intro nChange txout nChange' _ hstep
    obtain ⟨amount, hamount, hstep⟩ := bind_eq_ok.mp hstep
    rw [← outputGetChange_eq_ok hamount]
    exact addInRange_eq_ok hstep
  simpa using foldlM_sum hround h

def HiddenChange (env : WalletEnv 𝔾) (w : CWallet hash160) (txout : CTxOut) : Prop :=
  w.scriptIsChange txout.scriptPubKey = true ∧ keyless env txout = none ∧
    ∃ value, opens env w.keys txout = some value ∧ value ≠ 0

theorem changeOf_unlock (hlocked : w.isLocked = true) (hlegible : Legible env w)
    (hlookup : w.mapWallet.lookup txid = some wtx) {txout : CTxOut} (hmem : txout ∈ wtx.tx.vout) :
    changeOf env w txout ≤ changeOf env (cacheCTUnblindedAmounts env (w.withKey key)) txout ∧
      (HiddenChange env w txout → changeOf env w txout ≠
        changeOf env (cacheCTUnblindedAmounts env (w.withKey key)) txout) := by
  have hsame : (cacheCTUnblindedAmounts env (w.withKey key)).scriptIsChange txout.scriptPubKey =
      w.scriptIsChange txout.scriptPubKey := rfl
  unfold changeOf HiddenChange
  rw [unblinded_of_locked hlocked, unblinded_unlock, hsame]
  by_cases hchange : w.scriptIsChange txout.scriptPubKey = true
  · rw [if_pos hchange, if_pos hchange]
    cases hkeyless : keyless env txout with
    | some value =>
      rw [opens_of_keyless hkeyless]
      simp
    | none =>
      cases hopens : opens env w.keys txout with
      | none => simp
      | some value =>
        have hrange := hlegible.inRange txid wtx hlookup txout hmem value hopens
        refine ⟨hrange.1, ?_⟩
        rintro ⟨-, -, value', hvalue', hne⟩
        obtain rfl := Option.some.inj hvalue'
        exact hne.symm
  · simp [hchange]

/-- The change is computed alike if nothing of it is hidden. -/
theorem outputGetChange_unlock (hlocked : w.isLocked = true) (hlegible : Legible env w)
    (hlookup : w.mapWallet.lookup txid = some wtx) {txout : CTxOut} (hmem : txout ∈ wtx.tx.vout)
    (h : ¬ HiddenChange env w txout) :
    outputGetChange env (cacheCTUnblindedAmounts env (w.withKey key)) txout =
      outputGetChange env w txout := by
  have hsame : (cacheCTUnblindedAmounts env (w.withKey key)).scriptIsChange txout.scriptPubKey =
      w.scriptIsChange txout.scriptPubKey := rfl
  unfold outputGetChange
  rw [unblinded_of_locked hlocked, unblinded_unlock, hsame]
  cases hkeyless : keyless env txout with
  | some value => rw [opens_of_keyless hkeyless]
  | none =>
    cases hopens : opens env w.keys txout with
    | none => rfl
    | some value =>
      have hrange := hlegible.inRange txid wtx hlookup txout hmem value hopens
      dsimp only
      rw [if_neg (not_not.mpr hrange)]
      by_cases hchange : w.scriptIsChange txout.scriptPubKey = true
      · have hzero : value = 0 := by
          by_contra hne
          exact h ⟨hchange, hkeyless, value, hopens, hne⟩
        rw [if_pos hchange, hzero]
      · rw [if_neg hchange]

/-! ### Amounts that are up to date -/

structure FreshTx (env : WalletEnv 𝔾) (w : CWallet hash160) (wtx : CWalletTx) : Prop where
  amounts : UpToDate env w wtx
  change : ∀ value, wtx.nChangeCached = some value → txGetChange env w wtx.tx = .ok value

def Fresh (env : WalletEnv 𝔾) (w : CWallet hash160) : Prop :=
  ∀ txid wtx, w.mapWallet.lookup txid = some wtx → FreshTx env w wtx

/-- What is cached on a transaction of a locked wallet stays right when the keys come back: it is
right already, and hides nothing. -/
structure Survives (env : WalletEnv 𝔾) (w : CWallet hash160) (wtx : CWalletTx) : Prop where
  amounts : UpToDate env w wtx
  debit : ∀ filter, wtx.m_amounts .DEBIT filter ≠ none →
    ∀ txin ∈ wtx.tx.vin, ¬ HiddenInput env w filter txin
  change : ∀ value, wtx.nChangeCached = some value → txGetChange env w wtx.tx = .ok value →
    ∀ txout ∈ wtx.tx.vout, ¬ HiddenChange env w txout

/-- Debits are cached as computed when fewer transactions were there, and change as computed without
the keys or with them. -/
structure Sound (env : WalletEnv 𝔾) (w : CWallet hash160) : Prop where
  debit : ∀ txid wtx, w.mapWallet.lookup txid = some wtx → ∀ filter value,
    wtx.m_amounts .DEBIT filter = some value → value ≤ debitSum env w filter wtx.tx
  change : ∀ txid wtx, w.mapWallet.lookup txid = some wtx → ∀ value,
    wtx.nChangeCached = some value → txGetChange env w wtx.tx = .ok value ∨
      ∀ key, txGetChange env (w.withKey key) wtx.tx = .ok value

theorem getDebit_unlock (hlocked : w.isLocked = true) (hlegible : Legible env w)
    {tx : CTransaction} (h : ∀ txin ∈ tx.vin, ¬ HiddenInput env w filter txin) :
    getDebit env (cacheCTUnblindedAmounts env (w.withKey key)) tx filter =
      getDebit env w tx filter :=
  getDebit_congr fun txin htxin => ((getDebitIn_unlock hlocked hlegible txin).2.mpr (h txin htxin)).symm

theorem creditOf_unlock (hlocked : w.isLocked = true) (hlegible : Legible env w)
    (hlookup : w.mapWallet.lookup txid = some wtx) (hpending : ¬ Pending env (w.withKey key) wtx) :
    creditOf env (cacheCTUnblindedAmounts env (w.withKey key)) wtx filter = creditOf env w wtx filter :=
  creditOf_congr rfl rfl fun _ hmem => creditValue_unlock hlocked hlegible hlookup hpending hmem

theorem availableOf_unlock (hlocked : w.isLocked = true) (hlegible : Legible env w)
    (hlookup : w.mapWallet.lookup txid = some wtx) (hpending : ¬ Pending env (w.withKey key) wtx) :
    availableOf env (cacheCTUnblindedAmounts env (w.withKey key)) wtx filter =
      availableOf env w wtx filter :=
  availableOf_congr rfl (fun output _ => (sameChain_unlock w key).countsAvailable rfl output)
    fun _ hmem => availableValue_unlock hlocked hlegible hlookup hpending hmem

/-- A debit that is right after unlocking was right before, and hides nothing. -/
theorem debit_of_fresh (hlocked : w.isLocked = true) (hlegible : Legible env w)
    {tx : CTransaction} {value : Int} (hbound : value ≤ debitSum env w filter tx)
    (h : getDebit env (cacheCTUnblindedAmounts env (w.withKey key)) tx filter = .ok value) :
    getDebit env w tx filter = .ok value ∧ ∀ txin ∈ tx.vin, ¬ HiddenInput env w filter txin := by
  have hvalue := getDebit_eq_ok h
  have heq := eq_of_sum_eq (fun txin _ => (getDebitIn_unlock hlocked hlegible txin).1)
    (hvalue.symm.le.trans hbound)
  have hvisible : ∀ txin ∈ tx.vin, ¬ HiddenInput env w filter txin := fun txin htxin =>
    (getDebitIn_unlock hlocked hlegible txin).2.mp (heq txin htxin)
  exact ⟨(getDebit_unlock hlocked hlegible hvisible).symm.trans h, hvisible⟩

/-- Change that is computed alike before and after unlocking hides nothing. -/
theorem not_hiddenChange (hlocked : w.isLocked = true) (hlegible : Legible env w)
    (hlookup : w.mapWallet.lookup txid = some wtx) {value : Int}
    (hbefore : txGetChange env w wtx.tx = .ok value)
    (hafter : txGetChange env (cacheCTUnblindedAmounts env (w.withKey key)) wtx.tx = .ok value) :
    ∀ txout ∈ wtx.tx.vout, ¬ HiddenChange env w txout := by
  have hsum := (txGetChange_eq_ok hafter).symm.trans (txGetChange_eq_ok hbefore)
  have heq :=
    eq_of_sum_eq (fun txout hmem => (changeOf_unlock hlocked hlegible hlookup hmem).1) hsum.le
  intro txout hmem hhidden
  exact (changeOf_unlock hlocked hlegible hlookup hmem).2 hhidden (heq txout hmem)

/-- **Unlocking**: the cached amounts are right exactly if those that are kept survive. -/
theorem fresh_unlock_iff (hlocked : w.isLocked = true) (hlegible : Legible env w)
    (hsound : Sound env w) :
    Fresh env (cacheCTUnblindedAmounts env (w.withKey key)) ↔
      ∀ txid wtx, w.mapWallet.lookup txid = some wtx → ¬ Pending env (w.withKey key) wtx →
        Survives env w wtx := by
  constructor
  · intro hfresh txid wtx hlookup hpending
    have hkept : (cacheCTUnblindedAmounts env (w.withKey key)).mapWallet.lookup txid = some wtx := by
      rw [lookup_cacheCTUnblindedAmounts]
      exact (congrArg (Option.map _) hlookup).trans (congrArg some (cacheTx_of_not_pending hpending))
    have hright := hfresh txid wtx hkept
    have hdebit : ∀ filter value, wtx.m_amounts .DEBIT filter = some value →
        getDebit env w wtx.tx filter = .ok value ∧
          ∀ txin ∈ wtx.tx.vin, ¬ HiddenInput env w filter txin := by
      intro filter value hcached
      exact debit_of_fresh hlocked hlegible (hsound.debit txid wtx hlookup filter value hcached)
        (hright.amounts .DEBIT (by decide) filter value hcached)
    refine ⟨?_, ?_, ?_⟩
    · intro type htype filter value hcached
      have hafter := hright.amounts type htype filter value hcached
      cases type with
      | DEBIT => exact (hdebit filter value hcached).1
      | CREDIT => exact (creditOf_unlock hlocked hlegible hlookup hpending).symm.trans hafter
      | IMMATURE_CREDIT => exact absurd rfl htype
      | AVAILABLE_CREDIT =>
        exact (availableOf_unlock hlocked hlegible hlookup hpending).symm.trans hafter
    · intro filter hcached
      obtain ⟨value, hvalue⟩ := Option.ne_none_iff_exists'.mp hcached
      exact (hdebit filter value hvalue).2
    · intro value hcached hbefore
      exact not_hiddenChange hlocked hlegible hlookup hbefore (hright.change value hcached)
  · intro hsurvives txid wtx' hlookup'
    rw [lookup_cacheCTUnblindedAmounts] at hlookup'
    obtain ⟨wtx, hlookup, rfl⟩ := Option.map_eq_some_iff.mp hlookup'
    by_cases hpending : Pending env (w.withKey key) wtx
    · -- whatever was cached has been forgotten
      rw [cacheTx_of_pending hpending]
      refine ⟨?_, ?_⟩
      · intro type _ filter value hcached
        cases hcached
      · intro value hcached
        cases hcached
    · rw [cacheTx_of_not_pending hpending]
      have hkept := hsurvives txid wtx hlookup hpending
      refine ⟨?_, ?_⟩
      · intro type htype filter value hcached
        have hbefore := hkept.amounts type htype filter value hcached
        cases type with
        | DEBIT =>
          have hvisible := hkept.debit filter (by rw [hcached]; exact Option.some_ne_none value)
          exact (getDebit_unlock hlocked hlegible hvisible).trans hbefore
        | CREDIT => exact (creditOf_unlock hlocked hlegible hlookup hpending).trans hbefore
        | IMMATURE_CREDIT => exact absurd rfl htype
        | AVAILABLE_CREDIT =>
          exact (availableOf_unlock hlocked hlegible hlookup hpending).trans hbefore
      · intro value hcached
        rcases hsound.change txid wtx hlookup value hcached with hbefore | hwith
        · have hvisible := hkept.change value hcached hbefore
          rw [← hbefore]
          exact txGetChange_congr fun txout hmem =>
            outputGetChange_unlock hlocked hlegible hlookup hmem (hvisible txout hmem)
        · exact hwith key

/-! ### Runs of a locked wallet -/

theorem Extends.txGetChange (h : Extends w w') (tx : CTransaction) :
    txGetChange env w' tx = txGetChange env w tx :=
  txGetChange_congr fun txout _ => outputGetChange_congr h.unblinded h.isMine h.addressBook txout

theorem Extends.withKey (h : Extends w w') (key : Bytes) : Extends (w.withKey key) (w'.withKey key) :=
  ⟨h.keys, h.crypted, rfl, h.isMine, h.addressBook, h.avoidReuse, h.affected, h.txs, h.arrivals,
    h.caches⟩

/-- A wallet can be read if it can be later, with the same keys and at least the same transactions. -/
theorem Legible.of_later (hlegible : Legible env w') (hkeys : w'.keys = w.keys)
    (htxs : ∀ txid wtx, w.mapWallet.lookup txid = some wtx → ∃ wtx',
      w'.mapWallet.lookup txid = some wtx' ∧ wtx'.tx = wtx.tx ∧ wtx'.mapValue = wtx.mapValue) :
    Legible env w := by
  refine ⟨?_, ?_⟩
  · intro txid wtx hlookup txout htxout value hopens
    obtain ⟨wtx', hlookup', htx, -⟩ := htxs txid wtx hlookup
    rw [← hkeys] at hopens
    exact hlegible.inRange txid wtx' hlookup' txout (htx ▸ htxout) value hopens
  · intro txid wtx hlookup output hmem value recorded hkeyless hopens hrecorded
    obtain ⟨wtx', hlookup', htx, hrecords⟩ := htxs txid wtx hlookup
    rw [← hkeys] at hopens
    exact hlegible.recorded txid wtx' hlookup' output (htx ▸ hmem) value recorded hkeyless hopens
      ((recorded_congr hrecords _).trans hrecorded)

theorem debitOf_nonneg (hlocked : w.isLocked = true) (hlegible : Legible env w)
    (hlookup : w.mapWallet.lookup txid = some wtx) (hrecords : wtx.mapValue = ∅) (n : Nat) :
    0 ≤ debitOf env w filter wtx n := by
  unfold debitOf
  split
  · exact le_rfl
  · next txout hout =>
    split_ifs
    · unfold unblindedOrRecorded
      split
      · next value hvalue =>
        rw [unblinded_of_locked hlocked] at hvalue
        exact (hlegible.inRange txid wtx hlookup txout (List.mem_of_getElem? hout) value
          (opens_of_keyless hvalue)).1
      · rw [CWalletTx.recorded, hrecords]
        exact le_rfl
    · exact le_rfl

/-- A debit can only grow: a transaction that arrives late may be one that an input spends from. -/
theorem Extends.debitSum_le (h : Extends w w') (hlocked : w'.isLocked = true)
    (hlegible : Legible env w') (tx : CTransaction) :
    debitSum env w filter tx ≤ debitSum env w' filter tx := by
  refine List.sum_le_sum fun txin _ => ?_
  cases hlookup : w.mapWallet.lookup txin.prevout.hash with
  | some prev =>
    refine (h.getDebitIn fun hnone => ?_).symm.le
    cases hnone.symm.trans hlookup
  | none =>
    have hzero : WalletCache.getDebitIn env w filter txin = 0 := by
      unfold WalletCache.getDebitIn
      rw [hlookup]
    rw [hzero]
    unfold WalletCache.getDebitIn
    cases hlookup' : w'.mapWallet.lookup txin.prevout.hash with
    | none => exact le_rfl
    | some prev =>
      exact debitOf_nonneg hlocked hlegible hlookup' (h.arrivals _ prev hlookup hlookup') _

theorem Sound.of_extends (hsound : Sound env w) (h : Extends w w') (hlocked : w'.isLocked = true)
    (hlegible : Legible env w') : Sound env w' := by
  refine ⟨?_, ?_⟩
  · intro txid wtx hlookup filter value hcached
    rcases h.caches txid wtx hlookup with hforgotten | hbefore
    · rw [hforgotten.1] at hcached
      cases hcached
    · exact (hsound.debit txid wtx hbefore filter value hcached).trans
        (h.debitSum_le hlocked hlegible wtx.tx)
  · intro txid wtx hlookup value hcached
    rcases h.caches txid wtx hlookup with hforgotten | hbefore
    · rw [hforgotten.2] at hcached
      cases hcached
    · rw [h.txGetChange]
      refine (hsound.change txid wtx hbefore value hcached).imp_right fun hwith key => ?_
      rw [(h.withKey key).txGetChange]
      exact hwith key

theorem SameTxs.withKey (h : SameTxs w w') (key : Bytes) : SameTxs (w.withKey key) (w'.withKey key) :=
  ⟨⟨h.isMine, h.spends, h.height, h.zeroConf, h.avoidReuse, h.previouslySpent, h.affected, h.txs⟩,
    h.keys, h.crypted, rfl, h.addressBook, h.records⟩

theorem Sound.of_asked (hsound : Sound env w) (h : Asked env w w') : Sound env w' := by
  obtain ⟨txid, wtx, wtx', hlookup, hremembers, rfl⟩ := h
  have hsame := SameTxs.of_remembers hlookup hremembers
  have hsum : ∀ filter tx,
      debitSum env { w with mapWallet := w.mapWallet.insert txid wtx' } filter tx =
        debitSum env w filter tx := by
    intro filter tx
    unfold debitSum
    congr 2
    funext txin
    exact hsame.getDebitIn txin
  refine ⟨?_, ?_⟩
  · intro t a' ha' filter value hcached
    obtain ⟨a, ha, hafter⟩ := remembers_of_lookup_insert hlookup hremembers ha'
    rw [hsum, hafter.tx]
    rcases hafter.amounts .DEBIT filter with hkept | ⟨computed, hcomputed, -, hnow⟩
    · exact hsound.debit t a ha filter value (hkept ▸ hcached)
    · rw [Option.some.inj (hcached.symm.trans hnow)]
      exact (getDebit_eq_ok hcomputed).le
  · intro t a' ha' value hcached
    obtain ⟨a, ha, hafter⟩ := remembers_of_lookup_insert hlookup hremembers ha'
    rw [hsame.txGetChange, hafter.tx]
    rcases hafter.change with hkept | ⟨computed, hcomputed, hnow⟩
    · refine (hsound.change t a ha value (hkept ▸ hcached)).imp_right fun hwith key => ?_
      rw [(hsame.withKey key).txGetChange]
      exact hwith key
    · rw [Option.some.inj (hcached.symm.trans hnow)]
      exact .inl hcomputed

/-- **Runs of a locked wallet**, by induction on the steps. -/
theorem sound_of_run {start : CWallet hash160} (hrun : Relation.ReflTransGen (Step env) start w)
    (hlocked : start.isLocked = true) (hsound : Sound env start) (hlegible : Legible env w) :
    w.isLocked = true ∧ Sound env w := by
  induction hrun with
  | refl => exact ⟨hlocked, hsound⟩
  | tail _ hstep ih =>
    rcases hstep.cases with hextends | hasked
    · obtain ⟨hlocked, hsound⟩ := ih (hlegible.of_later hextends.keys hextends.txs)
      have hlocked' := hextends.isLocked.trans hlocked
      exact ⟨hlocked', hsound.of_extends hextends hlocked' hlegible⟩
    · have hsame := hasked.sameTxs
      obtain ⟨hlocked, hsound⟩ := ih (hlegible.of_later hsame.keys fun _ _ => hsame.exists_records)
      exact ⟨hsame.isLocked.trans hlocked, hsound.of_asked hasked⟩

theorem sound_of_forgotten (h : ∀ txid wtx, w.mapWallet.lookup txid = some wtx → wtx.Forgotten) :
    Sound env w := by
  refine ⟨?_, ?_⟩
  · intro txid wtx hlookup filter value hcached
    rw [(h txid wtx hlookup).1] at hcached
    cases hcached
  · intro txid wtx hlookup value hcached
    rw [(h txid wtx hlookup).2] at hcached
    cases hcached

end Unlock

/-! ### A locked wallet -/

/-- A wallet that was loaded with one confirmed transaction, and is locked. -/
def lockedWallet (vout : List CTxOut) : CWallet toyHash160 :=
  { sampleWallet vout with vMasterKey := none }

theorem forgotten_lockedWallet {vout : List CTxOut} (txid : Uint256) (wtx : CWalletTx)
    (hlookup : (lockedWallet vout).mapWallet.lookup txid = some wtx) : wtx.Forgotten := by
  rw [lookup_sampleWallet hlookup]
  exact forgotten_new _ _

theorem linked_lockedWallet {vout : List CTxOut} : Linked sampleEnv (lockedWallet vout) := by
  refine ⟨?_, fun spend hmem => absurd hmem List.not_mem_nil, ?_⟩
  · intro txid wtx hlookup
    by_cases htxid : txid = sampleHash 1
    · rw [lookup_sampleWallet hlookup, htxid]
      rfl
    · unfold lockedWallet sampleWallet at hlookup
      rw [Finmap.lookup_insert_of_ne _ htxid] at hlookup
      cases hlookup
  · intro txid wtx hlookup _
    exact (forgotten_lockedWallet txid wtx hlookup).1

def blindedPayment : CTransaction :=
  sampleTx ⟨sampleHash 9, 0⟩ [sampleOutput payToWitnessPubKeyHash] 1

/-- The payment is spent, with 700 units of change in the clear. -/
def blindedSpend : CTransaction := sampleTx ⟨sampleHash 1, 0⟩ [explicitOutput] 2

end Rcpu.WalletCache
