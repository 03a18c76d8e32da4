import Rcpu.WalletAnswers

/-!
# Balances after locking

`Lock` records the amounts of confidential outputs before the keys go away.  The amounts that
`GetBalance` reads fall back to what was recorded, so a locked wallet reports the same balance.
`GetAddressBalances` has no such fallback: it loses the outputs that only a key opens.
-/

namespace Rcpu.WalletCache

open Checks ByteStream Confidential Transaction WeightedMap Solver Unblind
open Rcpu.ConfidentialValidation (Scalar)
open Rcpu.WalletReceive (toyHash160 descriptorWallet sampleOutput payToWitnessPubKeyHash)

section Lock

variable {𝔾 : Type} {hash160 : Bytes → Bytes} {env : WalletEnv 𝔾} {w : CWallet hash160}
  {wtx : CWalletTx} {txid : Uint256} {filter : isminefilter}

/-- The records and the amounts that are to be dropped are right, and coinbases are explicit. -/
structure Settled (env : WalletEnv 𝔾) (w : CWallet hash160) : Prop where
  inRange : ∀ txid wtx, w.mapWallet.lookup txid = some wtx → ∀ txout ∈ wtx.tx.vout, ∀ value,
    keyless env txout = none → opens env w.keys txout = some value → MoneyRange value
  recorded : ∀ txid wtx, w.mapWallet.lookup txid = some wtx → ∀ output ∈ wtx.tx.vout.zipIdx,
    ∀ value recorded, keyless env output.1 = none → opens env w.keys output.1 = some value →
      wtx.recorded output.2 = some recorded → recorded = value
  /-- A transaction with an amount to record forgets what it has cached. -/
  fresh : ∀ txid wtx, w.mapWallet.lookup txid = some wtx → Pending env w wtx →
    ∀ type filter value, wtx.m_amounts type filter = some value →
      amountOf env w wtx type filter = .ok value
  /-- Consensus asks for this ("bad-cb-confidential"). -/
  coinbase : ∀ txid wtx, w.mapWallet.lookup txid = some wtx → wtx.tx.IsCoinBase →
    ∀ txout ∈ wtx.tx.vout, txout.nValue.IsExplicit

/-- An encrypted wallet with its master key at hand. -/
def CWallet.Unlocked (w : CWallet hash160) : Prop := w.crypted = true ∧ w.vMasterKey.isSome = true

instance (w : CWallet hash160) : Decidable w.Unlocked := inferInstanceAs (Decidable (_ ∧ _))

theorem CWallet.Unlocked.isLocked (h : w.Unlocked) : w.isLocked = false := by
  unfold CWallet.isLocked
  obtain ⟨key, hkey⟩ := Option.isSome_iff_exists.mp h.2
  rw [hkey, h.1]
  rfl

theorem lock_of_unlocked (h : w.Unlocked) :
    lock env w = ({ cacheCTUnblindedAmounts env w with vMasterKey := none }, true) := by
  unfold lock
  rw [if_neg (by simp [h.1]), if_pos h.2]

theorem isLocked_lock (h : w.Unlocked) : (lock env w).1.isLocked = true := by
  rw [lock_of_unlocked h]
  unfold CWallet.isLocked cacheCTUnblindedAmounts
  dsimp only
  rw [h.1]
  rfl

theorem lookup_lock (h : w.Unlocked) (txid : Uint256) :
    (lock env w).1.mapWallet.lookup txid = (w.mapWallet.lookup txid).map (cacheTx env w) := by
  rw [lock_of_unlocked h]
  exact lookup_cacheCTUnblindedAmounts w txid

theorem sameChain_lock (h : w.Unlocked) : SameChain w (lock env w).1 := by
  rw [lock_of_unlocked h]
  -- the master key is not part of the chain
  have hrecorded := @sameChain_cacheCTUnblindedAmounts _ _ env w
  exact ⟨hrecorded.isMine, hrecorded.spends, hrecorded.height, hrecorded.zeroConf,
    hrecorded.avoidReuse, hrecorded.previouslySpent, hrecorded.affected, hrecorded.txs⟩

theorem not_isExplicit_of_keyless {txout : CTxOut} (h : keyless env txout = none) :
    ¬ txout.nValue.IsExplicit := by
  intro hexplicit
  rw [keyless, if_pos hexplicit] at h
  cases h

/-- What is recorded in the end for an output that only a key opens. -/
theorem getD_recorded_cacheTx (h : w.Unlocked) (hsettled : Settled env w)
    (hlookup : w.mapWallet.lookup txid = some wtx) {output : CTxOut × Nat}
    (hmem : output ∈ wtx.tx.vout.zipIdx) (hkeyless : keyless env output.1 = none) :
    ((cacheTx env w wtx).recorded output.2).getD 0 =
      (opens env w.keys output.1).getD ((wtx.recorded output.2).getD 0) := by
  have hunblinded := @unblinded_of_unlocked _ _ env w h.isLocked output.1
  rw [recorded_cacheTx hmem]
  cases hopens : opens env w.keys output.1 with
  | none =>
    have hnone : toRecord env w output.1 = none := by
      rw [toRecord, hunblinded, hopens, Option.filter_none, ite_self]
    rw [hnone, Option.or_none]
    rfl
  | some value =>
    have hrange := hsettled.inRange txid wtx hlookup output.1 (List.fst_mem_of_mem_zipIdx hmem) value
      hkeyless hopens
    have hrecord : toRecord env w output.1 = some value :=
      toRecord_eq_some.mpr ⟨not_isExplicit_of_keyless hkeyless, hunblinded.trans hopens, hrange⟩
    cases hrecorded : wtx.recorded output.2 with
    | none =>
      rw [hrecord]
      rfl
    | some recorded =>
      exact hsettled.recorded txid wtx hlookup output hmem value recorded hkeyless hopens hrecorded

/-- An output of the wallet is valued as before: it opens, or its amount has been recorded. -/
theorem unblindedOrRecorded_lock (h : w.Unlocked) (hsettled : Settled env w)
    (hlookup : w.mapWallet.lookup txid = some wtx) {output : CTxOut × Nat}
    (hmem : output ∈ wtx.tx.vout.zipIdx) :
    unblindedOrRecorded env (lock env w).1 (cacheTx env w wtx) output =
      unblindedOrRecorded env w wtx output := by
  unfold unblindedOrRecorded
  rw [unblinded_of_locked (isLocked_lock h), unblinded_of_unlocked h.isLocked]
  cases hkeyless : keyless env output.1 with
  | some value => rw [opens_of_keyless hkeyless]
  | none =>
    dsimp only
    rw [getD_recorded_cacheTx h hsettled hlookup hmem hkeyless]
    cases opens env w.keys output.1 <;> rfl

theorem debitOf_lock (h : w.Unlocked) (hsettled : Settled env w)
    (hlookup : w.mapWallet.lookup txid = some wtx) (n : Nat) :
    debitOf env (lock env w).1 filter (cacheTx env w wtx) n = debitOf env w filter wtx n := by
  unfold debitOf
  rw [cacheTx_tx]
  cases hout : wtx.tx.vout[n]? with
  | none => rfl
  | some txout =>
    have hmem : (txout, n) ∈ wtx.tx.vout.zipIdx := by
      rw [List.mem_zipIdx_iff_getElem?]
      exact hout
    dsimp only
    rw [isMineFor_congr (sameChain_lock h).isMine, unblindedOrRecorded_lock h hsettled hlookup hmem]

theorem getDebit_lock (h : w.Unlocked) (hsettled : Settled env w) (tx : CTransaction) :
    getDebit env (lock env w).1 tx filter = getDebit env w tx filter := by
  refine getDebit_congr ?_
  intro txin _
  unfold getDebitIn
  rw [lookup_lock h]
  cases hlookup : w.mapWallet.lookup txin.prevout.hash with
  | none => rfl
  | some prev => exact debitOf_lock h hsettled hlookup _

/-- The fallback of `CachedTxGetAvailableCredit` finds the amount that needed a key. -/
theorem availableValue_lock (h : w.Unlocked) (hsettled : Settled env w)
    (hlookup : w.mapWallet.lookup txid = some wtx) {output : CTxOut × Nat}
    (hmem : output ∈ wtx.tx.vout.zipIdx) :
    availableValue env (lock env w).1 (cacheTx env w wtx) filter output =
      availableValue env w wtx filter output := by
  have hmine := isMineFor_congr (@sameChain_lock _ _ env w h).isMine output.1 filter
  unfold availableValue outputGetCredit
  rw [unblinded_of_locked (isLocked_lock h), unblinded_of_unlocked h.isLocked, hmine]
  cases hkeyless : keyless env output.1 with
  | some value =>
    have hopens := @opens_of_keyless _ _ _ w.keys _ _ hkeyless
    rw [hopens]
    dsimp only
    split_ifs with hrange hmine'
    · dsimp only [bind, Except.bind]
      split_ifs with hfallback
      · have hunblinded := (unblinded_of_unlocked h.isLocked output.1).trans hopens
        rw [recorded_cacheTx hmem,
          toRecord_eq_some.mpr ⟨hfallback.2.1, hunblinded, hrange⟩]
        cases wtx.recorded output.2 <;> rfl
      · rfl
    · dsimp only [bind, Except.bind]
      rw [if_neg fun hfallback => hmine' hfallback.2.2, if_neg fun hfallback => hmine' hfallback.2.2]
    · rfl
  | none =>
    have hrecorded := getD_recorded_cacheTx h hsettled hlookup hmem hkeyless
    have hexplicit := not_isExplicit_of_keyless hkeyless
    dsimp only [bind, Except.bind]
    cases hopens : opens env w.keys output.1 with
    | none =>
      rw [hopens, Option.getD_none] at hrecorded
      dsimp only
      rw [hrecorded]
    | some value =>
      rw [hopens, Option.getD_some] at hrecorded
      have hrange := hsettled.inRange txid wtx hlookup output.1 (List.fst_mem_of_mem_zipIdx hmem)
        value hkeyless hopens
      dsimp only
      rw [if_neg (not_not.mpr hrange), hrecorded]
      by_cases hmine' : w.isMineFor output.1 filter = true
      · rw [if_pos ⟨rfl, hexplicit, hmine'⟩, if_pos hmine']
        dsimp only
        split_ifs with hzero
        · -- an amount of zero is looked up in the records as well
          cases hbefore : wtx.recorded output.2 with
          | none => rfl
          | some recorded =>
            rw [hsettled.recorded txid wtx hlookup output hmem value recorded hkeyless hopens hbefore]
            rfl
        · rfl
      · rw [if_neg fun hfallback => hmine' hfallback.2.2, if_neg hmine']
        dsimp only
        rw [if_neg fun hfallback => hmine' hfallback.2.2]

theorem availableOf_lock (h : w.Unlocked) (hsettled : Settled env w)
    (hlookup : w.mapWallet.lookup txid = some wtx) :
    availableOf env (lock env w).1 (cacheTx env w wtx) filter = availableOf env w wtx filter :=
  availableOf_congr (cacheTx_tx wtx)
    (fun output _ => (sameChain_lock h).countsAvailable (cacheTx_tx wtx) output)
    fun _ hmem => availableValue_lock h hsettled hlookup hmem

theorem txGetCredit_lock (h : w.Unlocked) {tx : CTransaction}
    (hexplicit : ∀ txout ∈ tx.vout, txout.nValue.IsExplicit) :
    txGetCredit env (lock env w).1 tx filter = txGetCredit env w tx filter := by
  refine txGetCredit_congr ?_
  intro txout htxout
  have hkeyless : keyless env txout = some txout.nValue.getAmount := if_pos (hexplicit txout htxout)
  unfold outputGetCredit
  rw [unblinded_of_locked (isLocked_lock h), unblinded_of_unlocked h.isLocked, hkeyless,
    opens_of_keyless hkeyless, isMineFor_congr (sameChain_lock h).isMine]

/-- What is cached on a transaction is kept, or computed again. -/
theorem readAmount_lock (hsettled : Settled env w)
    (hlookup : w.mapWallet.lookup txid = some wtx) {type : AmountType}
    (hamount : amountOf env (lock env w).1 (cacheTx env w wtx) type filter =
      amountOf env w wtx type filter) :
    readAmount env (lock env w).1 (cacheTx env w wtx) type filter =
      readAmount env w wtx type filter := by
  unfold readAmount
  rw [hamount]
  by_cases hpending : Pending env w wtx
  · rw [cacheTx_of_pending hpending]
    cases hcached : wtx.m_amounts type filter with
    | none => rfl
    | some value => exact hsettled.fresh txid wtx hlookup hpending type filter value hcached
  · rw [cacheTx_of_not_pending hpending]

/-- **A wallet reads the same amounts before and after it is locked.** -/
theorem alike_lock (h : w.Unlocked) (hsettled : Settled env w) : Alike env w (lock env w).1 := by
  refine ⟨sameChain_lock h, ?_⟩
  intro txid wtx wtx' hlookup hlookup'
  rw [lookup_lock h, hlookup] at hlookup'
  obtain rfl := Option.some.inj hlookup'
  refine ⟨?_, ?_, fun filter => availableOf_lock h hsettled hlookup, ?_⟩
  · intro filter
    refine readAmount_lock hsettled hlookup ?_
    unfold amountOf
    rw [cacheTx_tx]
    exact getDebit_lock h hsettled wtx.tx
  · intro filter
    exact readAmount_lock hsettled hlookup (availableOf_lock h hsettled hlookup)
  · intro hcoinbase filter
    refine readAmount_lock hsettled hlookup ?_
    unfold amountOf
    rw [cacheTx_tx]
    exact txGetCredit_lock h (hsettled.coinbase txid wtx hlookup hcoinbase)

end Lock

/-! ### Address balances -/

section Addresses

variable {𝔾 : Type} {hash160 : Bytes → Bytes} {env : WalletEnv 𝔾} {w w' : CWallet hash160}
  {txid : Uint256}

structure NeedsKey (env : WalletEnv 𝔾) (w : CWallet hash160) (txid : Uint256)
    (output : CTxOut × Nat) (value : Int) : Prop where
  mine : w.isMine output.1.scriptPubKey ≠ 0
  address : (extractDestination output.1.scriptPubKey).1 = true
  unspent : w.isSpent ⟨txid, UInt32.ofNat output.2⟩ = false
  keyless : keyless env output.1 = none
  opens : opens env w.keys output.1 = some value

theorem addressEntry_lock (h : w.Unlocked) (output : CTxOut × Nat) :
    (addressEntry env w txid output = none ∧ addressEntry env (lock env w).1 txid output = none) ∨
    ∃ addr, w.isMine output.1.scriptPubKey ≠ 0 ∧
      (extractDestination output.1.scriptPubKey).1 = true ∧
      addressEntry env w txid output = some (addr,
        if w.isSpent ⟨txid, UInt32.ofNat output.2⟩ then 0 else (opens env w.keys output.1).getD 0) ∧
      addressEntry env (lock env w).1 txid output = some (addr,
        if w.isSpent ⟨txid, UInt32.ofNat output.2⟩ then 0 else (keyless env output.1).getD 0) := by
  have hchain := @sameChain_lock _ _ env w h
  unfold addressEntry
  dsimp only
  rw [hchain.isMine, hchain.isSpent, unblinded_of_locked (isLocked_lock h),
    unblinded_of_unlocked h.isLocked]
  by_cases hskip : w.isMine output.1.scriptPubKey = 0 ∨
      (!(extractDestination output.1.scriptPubKey).1) = true
  · rw [if_pos hskip, if_pos hskip]
    exact .inl ⟨rfl, rfl⟩
  · rw [if_neg hskip, if_neg hskip]
    push Not at hskip
    exact .inr ⟨_, hskip.1, by simpa using hskip.2, rfl, rfl⟩

/-- Locking lowers the entry of an output by what only a key opens. -/
theorem below_addressEntry_lock (h : w.Unlocked) (hsettled : Settled env w) {wtx : CWalletTx}
    (hlookup : w.mapWallet.lookup txid = some wtx) {output : CTxOut × Nat}
    (hmem : output ∈ wtx.tx.vout.zipIdx) :
    Below (addressEntry env w txid output).toList
      (addressEntry env (lock env w).1 txid output).toList := by
  rcases @addressEntry_lock _ _ env w txid h output with
    ⟨hbefore, hafter⟩ | ⟨addr, -, -, hbefore, hafter⟩
  · rw [hbefore, hafter]
    exact .nil
  · rw [hbefore, hafter]
    refine .cons ⟨rfl, ?_⟩ .nil
    dsimp only
    split_ifs
    · exact Int.le_refl 0
    · cases hkeyless : keyless env output.1 with
      | some value => rw [opens_of_keyless hkeyless]
      | none =>
        cases hopens : opens env w.keys output.1 with
        | none => exact Int.le_refl 0
        | some value =>
          exact (hsettled.inRange txid wtx hlookup output.1 (List.fst_mem_of_mem_zipIdx hmem) value
            hkeyless hopens).1

theorem addressEntry_lock_eq_iff (h : w.Unlocked) (output : CTxOut × Nat) :
    addressEntry env (lock env w).1 txid output = addressEntry env w txid output ↔
      ∀ value, NeedsKey env w txid output value → value = 0 := by
  rcases @addressEntry_lock _ _ env w txid h output with
    ⟨hbefore, hafter⟩ | ⟨addr, hmine, haddress, hbefore, hafter⟩
  · rw [hbefore, hafter]
    refine ⟨fun _ value hneeds => ?_, fun _ => rfl⟩
    have hcounts : ¬ (w.isMine output.1.scriptPubKey = 0 ∨
        (!(extractDestination output.1.scriptPubKey).1) = true) := by
      rintro (hzero | hnone)
      · exact hneeds.mine hzero
      · rw [hneeds.address] at hnone
        cases hnone
    unfold addressEntry at hbefore
    dsimp only at hbefore
    rw [if_neg hcounts] at hbefore
    cases hbefore
  · rw [hbefore, hafter, Option.some.injEq, Prod.mk.injEq]
    constructor
    · rintro ⟨-, hvalues⟩ value hneeds
      rw [if_neg (by simp [hneeds.unspent]), if_neg (by simp [hneeds.unspent]), hneeds.keyless,
        hneeds.opens] at hvalues
      exact hvalues.symm
    · intro hzero
      refine ⟨rfl, ?_⟩
      split_ifs with hspent
      · rfl
      · cases hkeyless : keyless env output.1 with
        | some value => rw [opens_of_keyless hkeyless]
        | none =>
          cases hopens : opens env w.keys output.1 with
          | none => rfl
          | some value =>
            exact (hzero value ⟨hmine, haddress, by simpa using hspent, hkeyless, hopens⟩).symm

theorem addressEntries_eq_flatMap {wtx : CWalletTx} (hlookup : w.mapWallet.lookup txid = some wtx) :
    addressEntries env w txid =
      wtx.tx.vout.zipIdx.flatMap fun output => (addressEntry env w txid output).toList := by
  rw [addressEntries, hlookup]
  exact List.filterMap_eq_flatMap_toList _ _

theorem addressEntries_lock_eq_flatMap (h : w.Unlocked) {wtx : CWalletTx}
    (hlookup : w.mapWallet.lookup txid = some wtx) :
    addressEntries env (lock env w).1 txid = wtx.tx.vout.zipIdx.flatMap fun output =>
      (addressEntry env (lock env w).1 txid output).toList := by
  have hlookup' : (lock env w).1.mapWallet.lookup txid = some (cacheTx env w wtx) := by
    rw [lookup_lock h, hlookup]
    rfl
  rw [addressEntries_eq_flatMap hlookup', cacheTx_tx]

theorem below_addressEntries_lock (h : w.Unlocked) (hsettled : Settled env w) (txid : Uint256) :
    Below (addressEntries env w txid) (addressEntries env (lock env w).1 txid) := by
  cases hlookup : w.mapWallet.lookup txid with
  | none =>
    rw [addressEntries, hlookup, addressEntries, (sameChain_lock h).lookup_eq_none hlookup]
    exact .nil
  | some wtx =>
    rw [addressEntries_eq_flatMap hlookup, addressEntries_lock_eq_flatMap h hlookup]
    exact Below.flatMap fun _ hmem => below_addressEntry_lock h hsettled hlookup hmem

theorem addressEntries_lock_eq_iff (h : w.Unlocked) (hsettled : Settled env w) (txid : Uint256) :
    addressEntries env (lock env w).1 txid = addressEntries env w txid ↔
      ∀ wtx, w.mapWallet.lookup txid = some wtx → ∀ output ∈ wtx.tx.vout.zipIdx,
        ∀ value, NeedsKey env w txid output value → value = 0 := by
  cases hlookup : w.mapWallet.lookup txid with
  | none =>
    rw [addressEntries, addressEntries, hlookup, (sameChain_lock h).lookup_eq_none hlookup]
    simp
  | some wtx =>
    rw [addressEntries_eq_flatMap hlookup, addressEntries_lock_eq_flatMap h hlookup,
      flatMap_eq_iff fun _ hmem => below_addressEntry_lock h hsettled hlookup hmem]
    simp only [Option.some.injEq, forall_eq']
    refine forall₂_congr fun output _ => ?_
    rw [← addressEntry_lock_eq_iff h]
    constructor
    · intro hlists
      have hheads := congrArg List.head? hlists
      rwa [Option.head?_toList, Option.head?_toList] at hheads
    · intro hentries
      rw [hentries]

theorem paid_lock (h : w.Unlocked) (hsettled : Settled env w) (order : List Uint256) :
    Below (paid env w order) (paid env (lock env w).1 order) ∧
    (paid env (lock env w).1 order = paid env w order ↔
      ∀ txid ∈ order, Counted env w txid →
        addressEntries env (lock env w).1 txid = addressEntries env w txid) := by
  classical
  have halike := alike_lock h hsettled
  have hcounted : ∀ txid, Counted env (lock env w).1 txid ↔ Counted env w txid := fun txid =>
    ⟨fun hcounted => hcounted.of_alike halike.symm, fun hcounted => hcounted.of_alike halike⟩
  have hbelow := below_addressEntries_lock h hsettled
  unfold paid
  simp only [hcounted]
  refine ⟨Below.flatMap fun txid _ => hbelow txid, ?_⟩
  rw [flatMap_eq_iff fun txid _ => hbelow txid]
  simp only [List.mem_filter, decide_eq_true_eq, and_imp]

/-- **`GetBalance` reports the same after `Lock`.** -/
theorem getBalance_lock (h : w.Unlocked) (hsettled : Settled env w) (order : List Uint256)
    (min_depth : Int) (avoid_reuse : Bool) :
    (getBalance env (lock env w).1 order min_depth avoid_reuse).map Prod.fst =
      (getBalance env w order min_depth avoid_reuse).map Prod.fst := by
  have hrelates := relates_getBalance (alike_lock h hsettled) order min_depth avoid_reuse
  exact (hrelates.map_eq fun _ _ hanswers => hanswers.1).symm

/-- A locked wallet finds address balances if it did so before. -/
theorem exists_getAddressBalances_lock (h : w.Unlocked) (hsettled : Settled env w)
    {order : List Uint256} {balances : Map CTxDestination Int}
    (hbefore : getAddressBalances env w order = .ok (balances, w')) :
    ∃ balances' w'', getAddressBalances env (lock env w).1 order = .ok (balances', w'') := by
  obtain ⟨⟨⟨found, memo⟩, after⟩, hloop, -⟩ := bind_eq_ok.mp hbefore
  have hrelates := relates_addTxAddresses (alike_lock h hsettled) order [] ∅ ∅
  obtain ⟨⟨⟨found', memo'⟩, after'⟩, hloop', -⟩ := hrelates.exists_ok hloop
  exact ⟨found', after', bind_eq_ok.mpr ⟨_, hloop', rfl⟩⟩

end Addresses

/-! ### An unlocked wallet -/

theorem length_hashBytes (n : Nat) : (leBytes 32 n).length = 32 := length_leBytes 32 n

def sampleHash (n : Nat) : Uint256 := ⟨leBytes 32 n, length_hashBytes n⟩

def sampleEnv : WalletEnv Scalar := ⟨exchangeEnv, fun tx => sampleHash tx.nLockTime.toNat⟩

def sampleTx (prevout : COutPoint) (vout : List CTxOut) (nLockTime : UInt32) : CTransaction where
  nVersion := CT_VERSION
  vin := [⟨prevout, [], CTxIn.SEQUENCE_FINAL, [], .null⟩]
  vout := vout
  nLockTime := nLockTime

def emptyWallet (vMasterKey : Option Bytes) : CWallet toyHash160 where
  keys := descriptorWallet
  crypted := true
  vMasterKey := vMasterKey
  checkDecryptionKey key := key = [1]
  isMine script := if script = payToWitnessPubKeyHash then ISMINE_SPENDABLE else 0
  mapWallet := ∅
  mapTxSpends := []
  m_last_block_processed_height := 10
  m_spend_zero_conf_change := true
  avoidReuse := false
  previouslySpent := []
  affectedDests _ := []
  inAddressBook _ := false

def sampleWalletTx (vout : List CTxOut) : CWalletTx :=
  .new (sampleTx ⟨sampleHash 9, 0⟩ vout 1) (.Confirmed Uint256.null 8 1)

def sampleWallet (vout : List CTxOut) : CWallet toyHash160 :=
  { emptyWallet (some [1]) with mapWallet := Finmap.insert (sampleHash 1) (sampleWalletTx vout) ∅ }

theorem lookup_sampleWallet {vout : List CTxOut} {txid : Uint256} {wtx : CWalletTx}
    (h : (sampleWallet vout).mapWallet.lookup txid = some wtx) : wtx = sampleWalletTx vout := by
  unfold sampleWallet at h
  dsimp only at h
  by_cases htxid : txid = sampleHash 1
  · rw [htxid, Finmap.lookup_insert] at h
    exact (Option.some.inj h).symm
  · rw [Finmap.lookup_insert_of_ne _ htxid] at h
    cases h

theorem settled_sampleWallet {vout : List CTxOut}
    (hrange : ∀ txout ∈ vout, ∀ value ∈ opens sampleEnv descriptorWallet txout, MoneyRange value) :
    Settled sampleEnv (sampleWallet vout) := by
  refine ⟨?_, ?_, ?_, ?_⟩
  · intro txid wtx hlookup txout htxout value _ hopens
    obtain rfl := lookup_sampleWallet hlookup
    exact hrange txout htxout value hopens
  · intro txid wtx hlookup _ _ _ _ _ _ hrecorded
    obtain rfl := lookup_sampleWallet hlookup
    cases hrecorded
  · intro txid wtx hlookup _ _ _ _ hcached
    obtain rfl := lookup_sampleWallet hlookup
    cases hcached
  · intro txid wtx hlookup hcoinbase
    obtain rfl := lookup_sampleWallet hlookup
    have hnull : COutPoint.IsNull ⟨sampleHash 9, 0⟩ := hcoinbase.2 _ List.mem_cons_self
    exact absurd hnull (by decide)

def explicitOutput : CTxOut := .ofAmount 700 payToWitnessPubKeyHash

end Rcpu.WalletCache
