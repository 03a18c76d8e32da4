import Mathlib.Logic.Relation
import Rcpu.WalletAnswers

/-!
# Cached amounts over runs of a wallet

A wallet takes transactions, changes their states and answers queries, which cache amounts.  A
transaction that is touched forgets what it has cached, and so do those it spends from.  Amounts that
stay cached stay right as long as transactions arrive after those they spend from.
-/

namespace Rcpu.WalletCache

open Checks ByteStream Transaction WeightedMap Solver

variable {𝔾 : Type} {hash160 : Bytes → Bytes} {env : WalletEnv 𝔾} {w w' w'' : CWallet hash160}
  {wtx wtx' : CWalletTx} {txid : Uint256} {filter : isminefilter}

/-! ### What a wallet keeps -/

def CWalletTx.Forgotten (wtx : CWalletTx) : Prop :=
  (∀ type filter, wtx.m_amounts type filter = none) ∧ wtx.nChangeCached = none

theorem forgotten_markDirty (wtx : CWalletTx) : wtx.markDirty.Forgotten := ⟨fun _ _ => rfl, rfl⟩

theorem forgotten_new (tx : CTransaction) (state : TxState) : (CWalletTx.new tx state).Forgotten :=
  ⟨fun _ _ => rfl, rfl⟩

/-- The transactions and their records stay, new ones have no records, and what is cached was cached
before. -/
structure Extends (w w' : CWallet hash160) : Prop where
  keys : w'.keys = w.keys
  crypted : w'.crypted = w.crypted
  masterKey : w'.vMasterKey = w.vMasterKey
  isMine : w'.isMine = w.isMine
  addressBook : w'.inAddressBook = w.inAddressBook
  avoidReuse : w'.avoidReuse = w.avoidReuse
  affected : w'.affectedDests = w.affectedDests
  txs : ∀ txid wtx, w.mapWallet.lookup txid = some wtx → ∃ wtx',
    w'.mapWallet.lookup txid = some wtx' ∧ wtx'.tx = wtx.tx ∧ wtx'.mapValue = wtx.mapValue
  arrivals : ∀ txid wtx', w.mapWallet.lookup txid = none → w'.mapWallet.lookup txid = some wtx' →
    wtx'.mapValue = ∅
  caches : ∀ txid wtx', w'.mapWallet.lookup txid = some wtx' →
    wtx'.Forgotten ∨ w.mapWallet.lookup txid = some wtx'

theorem extends_tip (w : CWallet hash160) (height : Nat) :
    Extends w { w with m_last_block_processed_height := height } := by
  refine ⟨rfl, rfl, rfl, rfl, rfl, rfl, rfl, fun _ wtx hlookup => ⟨wtx, hlookup, rfl, rfl⟩, ?_,
    fun _ _ hlookup => .inr hlookup⟩
  intro txid wtx' hnone hsome
  cases hnone.symm.trans hsome

theorem Extends.refl (w : CWallet hash160) : Extends w w := extends_tip w _

theorem Extends.trans (h : Extends w w') (h' : Extends w' w'') : Extends w w'' := by
  refine ⟨h'.keys.trans h.keys, h'.crypted.trans h.crypted, h'.masterKey.trans h.masterKey,
    h'.isMine.trans h.isMine, h'.addressBook.trans h.addressBook, h'.avoidReuse.trans h.avoidReuse,
    h'.affected.trans h.affected, ?_, ?_, ?_⟩
  · intro txid wtx hlookup
    obtain ⟨wtx', hlookup', htx, hrecords⟩ := h.txs txid wtx hlookup
    obtain ⟨wtx'', hlookup'', htx', hrecords'⟩ := h'.txs txid wtx' hlookup'
    exact ⟨wtx'', hlookup'', htx'.trans htx, hrecords'.trans hrecords⟩
  · intro txid wtx'' hnone hlookup''
    cases hlookup' : w'.mapWallet.lookup txid with
    | none => exact h'.arrivals txid wtx'' hlookup' hlookup''
    | some wtx' =>
      obtain ⟨a, ha, -, hrecords⟩ := h'.txs txid wtx' hlookup'
      rw [Option.some.inj (hlookup''.symm.trans ha), hrecords]
      exact h.arrivals txid wtx' hnone hlookup'
  · intro txid wtx'' hlookup''
    rcases h'.caches txid wtx'' hlookup'' with hforgotten | hlookup'
    · exact .inl hforgotten
    · exact h.caches txid wtx'' hlookup'

theorem Extends.forgotten (h : Extends w w')
    (hforgotten : ∀ wtx, w.mapWallet.lookup txid = some wtx → wtx.Forgotten)
    (hlookup' : w'.mapWallet.lookup txid = some wtx') : wtx'.Forgotten := by
  rcases h.caches txid wtx' hlookup' with hnew | hlookup
  · exact hnew
  · exact hforgotten wtx' hlookup

theorem Extends.isLocked (h : Extends w w') : w'.isLocked = w.isLocked :=
  isLocked_congr h.crypted h.masterKey

theorem Extends.unblinded (h : Extends w w') (txout : CTxOut) :
    unblinded env w' txout = unblinded env w txout :=
  unblinded_congr h.keys h.isLocked txout

/-- Put a transaction that remembers nothing: a new one, or one that was there. -/
theorem Extends.insert (spends : List (COutPoint × Uint256)) (hforgotten : wtx'.Forgotten)
    (hnew : w.mapWallet.lookup txid = none → wtx'.mapValue = ∅)
    (hsame : ∀ wtx, w.mapWallet.lookup txid = some wtx →
      wtx'.tx = wtx.tx ∧ wtx'.mapValue = wtx.mapValue) :
    Extends w { w with mapWallet := w.mapWallet.insert txid wtx', mapTxSpends := spends } := by
  refine ⟨rfl, rfl, rfl, rfl, rfl, rfl, rfl, ?_, ?_, ?_⟩
  · intro t a hlookup
    by_cases ht : t = txid
    · rw [ht] at hlookup
      rw [ht]
      exact ⟨wtx', Finmap.lookup_insert _, hsame a hlookup⟩
    · exact ⟨a, (Finmap.lookup_insert_of_ne _ ht).trans hlookup, rfl, rfl⟩
  · intro t a hnone hlookup
    by_cases ht : t = txid
    · rw [ht] at hnone hlookup
      rw [Finmap.lookup_insert] at hlookup
      exact Option.some.inj hlookup ▸ hnew hnone
    · rw [Finmap.lookup_insert_of_ne _ ht, hnone] at hlookup
      cases hlookup
  · intro t a hlookup
    by_cases ht : t = txid
    · rw [ht, Finmap.lookup_insert] at hlookup
      exact .inl (Option.some.inj hlookup ▸ hforgotten)
    · rw [Finmap.lookup_insert_of_ne _ ht] at hlookup
      exact .inr hlookup

/-- A transaction of the wallet forgets, and may take another state. -/
theorem extends_insert_markDirty (hlookup : w.mapWallet.lookup txid = some wtx) (m_state : TxState) :
    Extends w { w with
      mapWallet := w.mapWallet.insert txid { wtx with m_state := m_state }.markDirty } := by
  refine .insert w.mapTxSpends (forgotten_markDirty _) ?_ ?_
  · intro hnone
    cases hnone.symm.trans hlookup
  · intro a ha
    obtain rfl := Option.some.inj (hlookup.symm.trans ha)
    exact ⟨rfl, rfl⟩

/-! ### Forgetting -/

theorem extends_modifyTx_markDirty (w : CWallet hash160) (txid : Uint256) :
    Extends w (modifyTx w txid CWalletTx.markDirty) := by
  unfold modifyTx
  cases hlookup : w.mapWallet.lookup txid with
  | none => exact .refl w
  | some wtx => exact extends_insert_markDirty hlookup wtx.m_state

theorem forgotten_modifyTx_markDirty
    (hlookup : (modifyTx w txid CWalletTx.markDirty).mapWallet.lookup txid = some wtx) :
    wtx.Forgotten := by
  unfold modifyTx at hlookup
  cases hbefore : w.mapWallet.lookup txid with
  | none =>
    rw [hbefore] at hlookup
    cases hbefore.symm.trans hlookup
  | some a =>
    rw [hbefore] at hlookup
    dsimp only at hlookup
    rw [Finmap.lookup_insert] at hlookup
    exact Option.some.inj hlookup ▸ forgotten_markDirty a

theorem SameTxs.refl (w : CWallet hash160) : SameTxs w w :=
  ⟨⟨rfl, rfl, rfl, rfl, rfl, rfl, rfl, fun _ => rfl⟩, rfl, rfl, rfl, rfl, fun _ => rfl⟩

theorem SameTxs.trans (h : SameTxs w w') (h' : SameTxs w' w'') : SameTxs w w'' :=
  ⟨h.toSameChain.trans h'.toSameChain, h'.keys.trans h.keys, h'.crypted.trans h.crypted,
    h'.masterKey.trans h.masterKey, h'.addressBook.trans h.addressBook,
    fun txid => (h'.records txid).trans (h.records txid)⟩

theorem sameTxs_modifyTx_markDirty (w : CWallet hash160) (txid : Uint256) :
    SameTxs w (modifyTx w txid CWalletTx.markDirty) := by
  unfold modifyTx
  cases hlookup : w.mapWallet.lookup txid with
  | none => exact .refl w
  | some wtx =>
    refine ⟨⟨rfl, rfl, rfl, rfl, rfl, rfl, rfl, fun t => ?_⟩, rfl, rfl, rfl, rfl, fun t => ?_⟩
    · by_cases ht : t = txid
      · rw [ht, Finmap.lookup_insert, hlookup]
        rfl
      · rw [Finmap.lookup_insert_of_ne _ ht]
    · by_cases ht : t = txid
      · rw [ht, Finmap.lookup_insert, hlookup]
        rfl
      · rw [Finmap.lookup_insert_of_ne _ ht]

/-- The transactions that the inputs spend from forget; nothing else happens. -/
theorem markInputsDirty_spec (w : CWallet hash160) (tx : CTransaction) :
    Extends w (markInputsDirty w tx) ∧ SameTxs w (markInputsDirty w tx) ∧
      ∀ txin ∈ tx.vin, ∀ wtx, (markInputsDirty w tx).mapWallet.lookup txin.prevout.hash = some wtx →
        wtx.Forgotten := by
  unfold markInputsDirty
  induction tx.vin generalizing w with
  | nil => exact ⟨.refl w, .refl w, fun txin htxin => absurd htxin List.not_mem_nil⟩
  | cons txin vin ih =>
    obtain ⟨hextends, hsame, hforgets⟩ := ih (modifyTx w txin.prevout.hash CWalletTx.markDirty)
    refine ⟨(extends_modifyTx_markDirty w _).trans hextends,
      (sameTxs_modifyTx_markDirty w _).trans hsame, ?_⟩
    intro input hinput wtx hlookup
    rcases List.mem_cons.mp hinput with rfl | hinput
    · exact hextends.forgotten (fun _ => forgotten_modifyTx_markDirty) hlookup
    · exact hforgets input hinput wtx hlookup

theorem lookup_markDestinationsDirty (destinations : List CTxDestination) (txid : Uint256) :
    ∃ pays : CWalletTx → Bool,
      (∀ wtx, pays wtx = wtx.tx.vout.any fun txout =>
        (extractDestination txout.scriptPubKey).1 &&
          decide ((extractDestination txout.scriptPubKey).2 ∈ destinations)) ∧
      (markDestinationsDirty w destinations).mapWallet.lookup txid =
        (w.mapWallet.lookup txid).map fun wtx =>
          if wtx.m_is_cache_empty then wtx else if pays wtx then wtx.markDirty else wtx :=
  ⟨_, fun _ => rfl, lookup_mapValues _ _ _⟩

theorem extends_markDestinationsDirty (w : CWallet hash160) (destinations : List CTxDestination)
    (previouslySpent : List CTxDestination) :
    Extends w (markDestinationsDirty { w with previouslySpent := previouslySpent } destinations) := by
  refine ⟨rfl, rfl, rfl, rfl, rfl, rfl, rfl, fun txid => ?_, fun txid => ?_, fun txid => ?_⟩
  all_goals
    obtain ⟨pays, -, hlookup⟩ := @lookup_markDestinationsDirty _
      { w with previouslySpent := previouslySpent } destinations txid
    rw [hlookup]
    dsimp only
  · intro wtx hbefore
    rw [hbefore, Option.map_some]
    refine ⟨_, rfl, ?_⟩
    split_ifs <;> exact ⟨rfl, rfl⟩
  · intro wtx' hnone hafter
    rw [hnone] at hafter
    cases hafter
  · intro wtx' hafter
    obtain ⟨wtx, hbefore, rfl⟩ := Option.map_eq_some_iff.mp hafter
    split_ifs
    · exact .inr hbefore
    · exact .inl (forgotten_markDirty wtx)
    · exact .inr hbefore

/-! ### Steps -/

/-- What `AddToWallet` does: it marks the addresses that are spent from, and puts the transaction or
gives it another state. -/
theorem addToWallet_cases {tx : CTransaction} {state : TxState}
    (h : addToWallet env w tx state = .ok w') :
    ∃ used, markUsed w tx = .ok used ∧
      ((used.mapWallet.lookup (env.getHash tx) = none ∧
          w' = { used with
            mapWallet := used.mapWallet.insert (env.getHash tx) (.new tx state)
            mapTxSpends := spendsOf env tx ++ used.mapTxSpends }) ∨
        ∃ wtx m_state, used.mapWallet.lookup (env.getHash tx) = some wtx ∧
          w' = { used with
            mapWallet := used.mapWallet.insert (env.getHash tx)
              { wtx with m_state := m_state }.markDirty }) := by
  obtain ⟨used, hused, h⟩ := bind_eq_ok.mp h
  refine ⟨used, hused, ?_⟩
  cases hlookup : used.mapWallet.lookup (env.getHash tx) with
  | none =>
    rw [hlookup] at h
    exact .inl ⟨rfl, (pure_eq_ok.mp h).symm⟩
  | some wtx =>
    rw [hlookup] at h
    obtain ⟨m_state, -, h⟩ := bind_eq_ok.mp h
    exact .inr ⟨wtx, m_state, rfl, (pure_eq_ok.mp h).symm⟩

theorem syncTransaction_cases {tx : CTransaction} {state : TxState} {update_tx : Bool}
    (h : syncTransaction env w tx state update_tx = .ok w') :
    w' = w ∨ ∃ added, addToWallet env w tx state = .ok added ∧ w' = markInputsDirty added tx := by
  obtain ⟨⟨added, after⟩, hadd, hfinish⟩ := bind_eq_ok.mp h
  have hunchanged : ∀ r, (pure (false, w) : Except String (Bool × CWallet hash160)) = .ok r →
      r = (false, w) := fun r hr => (pure_eq_ok.mp hr).symm
  unfold addToWalletIfInvolvingMe at hadd
  dsimp only at hadd
  split_ifs at hadd with hskip
  · obtain ⟨rfl, rfl⟩ := Prod.mk.inj (hunchanged _ hadd)
    exact .inl (pure_eq_ok.mp hfinish).symm
  · obtain ⟨involved, -, hadd⟩ := bind_eq_ok.mp hadd
    cases involved with
    | false =>
      obtain ⟨rfl, rfl⟩ := Prod.mk.inj (hunchanged _ hadd)
      exact .inl (pure_eq_ok.mp hfinish).symm
    | true =>
      obtain ⟨after', hadded, hadd⟩ := bind_eq_ok.mp hadd
      obtain ⟨rfl, rfl⟩ := Prod.mk.inj (pure_eq_ok.mp hadd)
      exact .inr ⟨_, hadded, (pure_eq_ok.mp hfinish).symm⟩

theorem markUsed_cases {tx : CTransaction} (h : markUsed w tx = .ok w') :
    w' = w ∨ ∃ destinations, w' = markDestinationsDirty
      { w with previouslySpent := destinations ++ w.previouslySpent } destinations := by
  unfold markUsed at h
  split_ifs at h
  · exact .inl (pure_eq_ok.mp h).symm
  · obtain ⟨destinations, -, h⟩ := bind_eq_ok.mp h
    exact .inr ⟨destinations, (pure_eq_ok.mp h).symm⟩

theorem extends_markUsed {tx : CTransaction} (h : markUsed w tx = .ok w') : Extends w w' := by
  rcases markUsed_cases h with rfl | ⟨destinations, rfl⟩
  · exact .refl w'
  · exact extends_markDestinationsDirty w destinations _

theorem extends_addToWallet {tx : CTransaction} {state : TxState}
    (h : addToWallet env w tx state = .ok w') : Extends w w' := by
  obtain ⟨used, hused, ⟨hnone, rfl⟩ | ⟨wtx, m_state, hsome, rfl⟩⟩ := addToWallet_cases h
  · refine (extends_markUsed hused).trans (.insert _ (forgotten_new tx state) (fun _ => rfl) ?_)
    intro a ha
    cases hnone.symm.trans ha
  · exact (extends_markUsed hused).trans (extends_insert_markDirty hsome m_state)

theorem extends_updateTxState (w : CWallet hash160) (txid : Uint256) (state : TxState) :
    Extends w (updateTxState w txid state) := by
  unfold updateTxState
  cases hlookup : w.mapWallet.lookup txid with
  | none => exact .refl w
  | some wtx =>
    exact (extends_insert_markDirty hlookup state).trans (markInputsDirty_spec _ wtx.tx).1

/-- What happens to a wallet: it is told of transactions, of other states and of blocks, and it is
asked for amounts. -/
inductive Step (env : WalletEnv 𝔾) : CWallet hash160 → CWallet hash160 → Prop where
  | sync {w w' : CWallet hash160} (tx : CTransaction) (state : TxState) (update_tx : Bool) :
      syncTransaction env w tx state update_tx = .ok w' → Step env w w'
  | update (w : CWallet hash160) (txid : Uint256) (state : TxState) :
      Step env w (updateTxState w txid state)
  | tip (w : CWallet hash160) (height : Nat) :
      Step env w { w with m_last_block_processed_height := height }
  | debit {w : CWallet hash160} {r : Int × CWallet hash160} (txid : Uint256) (filter : isminefilter) :
      withTx w txid (fun wtx => cachedTxGetDebit env w wtx filter) = .ok r → Step env w r.2
  | credit {w : CWallet hash160} {r : Int × CWallet hash160} (txid : Uint256) (filter : isminefilter) :
      withTx w txid (fun wtx => cachedTxGetCredit env w wtx filter) = .ok r → Step env w r.2
  | available {w : CWallet hash160} {r : Int × CWallet hash160} (txid : Uint256)
      (filter : isminefilter) :
      withTx w txid (fun wtx => cachedTxGetAvailableCredit env w wtx filter) = .ok r →
        Step env w r.2
  | change {w : CWallet hash160} {r : Int × CWallet hash160} (txid : Uint256) :
      withTx w txid (cachedTxGetChange env w) = .ok r → Step env w r.2

def Asked (env : WalletEnv 𝔾) (w w' : CWallet hash160) : Prop :=
  ∃ txid wtx wtx', w.mapWallet.lookup txid = some wtx ∧ Remembers env w wtx wtx' ∧
    w' = { w with mapWallet := w.mapWallet.insert txid wtx' }

theorem Asked.sameTxs (h : Asked env w w') : SameTxs w w' := by
  obtain ⟨txid, wtx, wtx', hlookup, hremembers, rfl⟩ := h
  exact .of_remembers hlookup hremembers

theorem asked_withTx {call : CWalletTx → Except String (Int × CWalletTx)} {r : Int × CWallet hash160}
    (hcall : ∀ wtx r, call wtx = .ok r → Remembers env w wtx r.2)
    (h : withTx w txid call = .ok r) : Asked env w r.2 := by
  unfold withTx at h
  cases hlookup : w.mapWallet.lookup txid with
  | none =>
    rw [hlookup] at h
    cases h
  | some wtx =>
    rw [hlookup] at h
    obtain ⟨⟨a, wtx'⟩, hok, h⟩ := bind_eq_ok.mp h
    obtain rfl := pure_eq_ok.mp h
    exact ⟨txid, wtx, wtx', hlookup, hcall wtx _ hok, rfl⟩

/-- **What a step can do.** -/
theorem Step.cases (h : Step env w w') : Extends w w' ∨ Asked env w w' := by
  cases h with
  | sync tx state update_tx h =>
    rcases syncTransaction_cases h with rfl | ⟨added, hadded, rfl⟩
    · exact .inl (.refl w')
    · exact .inl ((extends_addToWallet hadded).trans (markInputsDirty_spec added tx).1)
  | update txid state => exact .inl (extends_updateTxState w txid state)
  | tip height => exact .inl (extends_tip w height)
  | debit txid filter h => exact .inr (asked_withTx (fun _ _ => remembers_cachedTxGetDebit) h)
  | credit txid filter h => exact .inr (asked_withTx (fun _ _ => remembers_cachedTxGetCredit) h)
  | available txid filter h =>
    exact .inr (asked_withTx (fun _ _ => remembers_cachedTxGetAvailableCredit) h)
  | change txid h => exact .inr (asked_withTx (fun _ _ => remembers_cachedTxGetChange) h)

/-! ### Amounts that are up to date -/

/-- The amounts that a transaction has cached are what would be computed now. -/
def UpToDate (env : WalletEnv 𝔾) (w : CWallet hash160) (wtx : CWalletTx) : Prop :=
  ∀ type, type ≠ .IMMATURE_CREDIT → ∀ filter value, wtx.m_amounts type filter = some value →
    amountOf env w wtx type filter = .ok value

theorem CWalletTx.Forgotten.upToDate (h : wtx.Forgotten) : UpToDate env w wtx := by
  intro type _ filter value hcached
  rw [h.1 type filter] at hcached
  cases hcached

/-- A debit changes only if a transaction arrives that the input spends from. -/
theorem Extends.getDebitIn (h : Extends w w') {txin : CTxIn}
    (hnone : w.mapWallet.lookup txin.prevout.hash = none →
      w'.mapWallet.lookup txin.prevout.hash = none) :
    getDebitIn env w' filter txin = getDebitIn env w filter txin := by
  unfold WalletCache.getDebitIn
  cases hlookup : w.mapWallet.lookup txin.prevout.hash with
  | none => rw [hnone hlookup]
  | some prev =>
    obtain ⟨prev', hlookup', htx, hrecords⟩ := h.txs _ prev hlookup
    rw [hlookup']
    exact debitOf_congr h.unblinded h.isMine htx hrecords _

theorem isSpent_kept {outpoint : COutPoint}
    (hspends : ∀ spend, spend.1 = outpoint → (spend ∈ w'.mapTxSpends ↔ spend ∈ w.mapTxSpends))
    (hcounts : ∀ spend ∈ w.mapTxSpends, spend.1 = outpoint →
      (w'.mapWallet.lookup spend.2).any w'.countsAsSpend =
        (w.mapWallet.lookup spend.2).any w.countsAsSpend) :
    w'.isSpent outpoint = w.isSpent outpoint := by
  unfold CWallet.isSpent
  rw [Bool.eq_iff_iff, List.any_eq_true, List.any_eq_true]
  constructor
  · rintro ⟨spend, hmem, hspend⟩
    obtain ⟨hop, hany⟩ := Bool.and_eq_true_iff.mp hspend
    have hmem := (hspends spend (of_decide_eq_true hop)).mp hmem
    rw [hcounts spend hmem (of_decide_eq_true hop)] at hany
    exact ⟨spend, hmem, Bool.and_eq_true_iff.mpr ⟨hop, hany⟩⟩
  · rintro ⟨spend, hmem, hspend⟩
    obtain ⟨hop, hany⟩ := Bool.and_eq_true_iff.mp hspend
    rw [← hcounts spend hmem (of_decide_eq_true hop)] at hany
    exact ⟨spend, (hspends spend (of_decide_eq_true hop)).mpr hmem,
      Bool.and_eq_true_iff.mpr ⟨hop, hany⟩⟩

/-- The amounts of a transaction are computed as before if its inputs, what is spent of it and the
addresses it pays are as before. -/
theorem Extends.amountOf (h : Extends w w')
    (hdebit : ∀ filter, ∀ txin ∈ wtx.tx.vin,
      WalletCache.getDebitIn env w' filter txin = WalletCache.getDebitIn env w filter txin)
    (hspent : ∀ n, w'.isSpent ⟨env.getHash wtx.tx, n⟩ = w.isSpent ⟨env.getHash wtx.tx, n⟩)
    (hused : ∀ txout ∈ wtx.tx.vout, w'.isSpentKey txout.scriptPubKey =
      w.isSpentKey txout.scriptPubKey) (type : AmountType) (filter : isminefilter) :
    WalletCache.amountOf env w' wtx type filter = WalletCache.amountOf env w wtx type filter := by
  cases type with
  | DEBIT => exact getDebit_congr (hdebit filter)
  | CREDIT =>
    refine creditOf_congr rfl h.isMine ?_
    intro output _
    rw [creditValue, unblindedOrRecorded_congr h.unblinded rfl, creditValue]
  | IMMATURE_CREDIT =>
    exact txGetCredit_congr fun txout _ => outputGetCredit_congr h.unblinded h.isMine txout
  | AVAILABLE_CREDIT =>
    refine availableOf_congr rfl ?_ ?_
    · intro output hmem
      unfold countsAvailable
      rw [hspent, h.avoidReuse, hused output.1 (List.fst_mem_of_mem_zipIdx hmem)]
    · intro output _
      unfold availableValue
      rw [outputGetCredit_congr h.unblinded h.isMine, isMineFor_congr h.isMine]

/-! ### Transactions in order -/

structure Linked (env : WalletEnv 𝔾) (w : CWallet hash160) : Prop where
  ids : ∀ txid wtx, w.mapWallet.lookup txid = some wtx → env.getHash wtx.tx = txid
  spends : ∀ spend ∈ w.mapTxSpends, ∃ wtx, w.mapWallet.lookup spend.2 = some wtx ∧
    spend.1 ∈ wtx.tx.vin.map CTxIn.prevout
  empty : ∀ txid wtx, w.mapWallet.lookup txid = some wtx → wtx.m_is_cache_empty = true →
    ∀ type filter, wtx.m_amounts type filter = none

theorem Linked.of_extends (hlinked : Linked env w) (h : Extends w w')
    (hids : ∀ txid wtx', w.mapWallet.lookup txid = none → w'.mapWallet.lookup txid = some wtx' →
      env.getHash wtx'.tx = txid)
    (hspends : ∀ spend ∈ w'.mapTxSpends, spend ∈ w.mapTxSpends ∨
      ∃ wtx', w'.mapWallet.lookup spend.2 = some wtx' ∧ spend.1 ∈ wtx'.tx.vin.map CTxIn.prevout) :
    Linked env w' := by
  refine ⟨?_, ?_, ?_⟩
  · intro txid wtx' hlookup'
    cases hlookup : w.mapWallet.lookup txid with
    | none => exact hids txid wtx' hlookup hlookup'
    | some wtx =>
      obtain ⟨wtx'', hlookup'', htx, -⟩ := h.txs txid wtx hlookup
      obtain rfl := Option.some.inj (hlookup'.symm.trans hlookup'')
      rw [htx]
      exact hlinked.ids txid wtx hlookup
  · intro spend hmem
    rcases hspends spend hmem with hold | hnew
    · obtain ⟨wtx, hlookup, hprevout⟩ := hlinked.spends spend hold
      obtain ⟨wtx', hlookup', htx, -⟩ := h.txs _ wtx hlookup
      exact ⟨wtx', hlookup', htx ▸ hprevout⟩
    · exact hnew
  · intro txid wtx' hlookup' hempty type filter
    rcases h.caches txid wtx' hlookup' with hforgotten | hlookup
    · exact hforgotten.1 type filter
    · exact hlinked.empty txid wtx' hlookup hempty type filter

/-- A transaction arrives in order: the wallet has nothing yet that spends from it, and if it was
there before, then with the same inputs. -/
structure InOrder (env : WalletEnv 𝔾) (w : CWallet hash160) (tx : CTransaction) : Prop where
  first : w.mapWallet.lookup (env.getHash tx) = none → ∀ txid wtx,
    w.mapWallet.lookup txid = some wtx → ∀ txin ∈ wtx.tx.vin, txin.prevout.hash ≠ env.getHash tx
  same : ∀ wtx, w.mapWallet.lookup (env.getHash tx) = some wtx →
    wtx.tx.vin.map CTxIn.prevout = tx.vin.map CTxIn.prevout

/-- A key has one address, as with descriptors. -/
def NoAlias (w : CWallet hash160) : Prop :=
  ∀ script, ∀ dest ∈ w.affectedDests script, dest = (extractDestination script).2

def Coherent (env : WalletEnv 𝔾) (w : CWallet hash160) : Prop :=
  ∀ txid wtx, w.mapWallet.lookup txid = some wtx → UpToDate env w wtx

theorem any_countsAsSpend_congr {a b : Option CWalletTx}
    (hheight : w'.m_last_block_processed_height = w.m_last_block_processed_height)
    (hstate : a.map CWalletTx.m_state = b.map CWalletTx.m_state) :
    a.any w'.countsAsSpend = b.any w.countsAsSpend := by
  have hcounts : ∀ wtx : CWalletTx, w'.countsAsSpend wtx = w.countsAsSpend wtx := by
    intro wtx
    unfold CWallet.countsAsSpend CWallet.getTxDepthInMainChain
    rw [hheight]
  cases a with
  | none =>
    rw [Option.map_none, eq_comm, Option.map_eq_none_iff] at hstate
    rw [hstate]
    rfl
  | some a =>
    rw [Option.map_some, eq_comm, Option.map_eq_some_iff] at hstate
    obtain ⟨b, rfl, hsame⟩ := hstate
    rw [Option.any_some, Option.any_some, hcounts]
    unfold CWallet.countsAsSpend CWallet.getTxDepthInMainChain CWalletTx.isAbandoned
    rw [hsame]

/-- Marking addresses as spent from: what pays to them forgets. -/
theorem coherent_markUsed {tx : CTransaction} (hlinked : Linked env w) (hcoherent : Coherent env w)
    (halias : NoAlias w) (h : markUsed w tx = .ok w') : Coherent env w' := by
  rcases markUsed_cases h with rfl | ⟨destinations, hdirty⟩
  · exact hcoherent
  have hextends := extends_markUsed h
  have hlookups := fun txid => @lookup_markDestinationsDirty _
    { w with previouslySpent := destinations ++ w.previouslySpent } destinations txid
  rw [← hdirty] at hlookups
  intro txid wtx' hlookup'
  obtain ⟨pays, hpays, hlookup⟩ := hlookups txid
  rw [hlookup] at hlookup'
  obtain ⟨wtx, hbefore, rfl⟩ := Option.map_eq_some_iff.mp hlookup'
  have hcached := hcoherent txid wtx hbefore
  split_ifs with hempty hpaid
  · intro type _ filter value hsome
    rw [hlinked.empty txid wtx hbefore hempty type filter] at hsome
    cases hsome
  · exact (forgotten_markDirty wtx).upToDate
  · intro type htype filter value hsome
    rw [← hcached type htype filter value hsome]
    refine hextends.amountOf (fun filter txin _ => hextends.getDebitIn ?_) (fun n => ?_) ?_ type filter
    · intro hnone
      obtain ⟨_, -, hparent⟩ := hlookups txin.prevout.hash
      rw [hparent]
      exact congrArg (Option.map _) hnone
    · refine isSpent_kept (fun spend _ => by rw [hdirty]; rfl) ?_
      intro spend _ _
      refine any_countsAsSpend_congr (by rw [hdirty]; rfl) ?_
      obtain ⟨_, -, hspender⟩ := hlookups spend.2
      rw [hspender, Option.map_map]
      congr 1
      funext spender
      dsimp only [Function.comp_apply]
      split_ifs <;> rfl
    · intro txout hmem
      have hother : (extractDestination txout.scriptPubKey).1 = true →
          (extractDestination txout.scriptPubKey).2 ∉ destinations := by
        intro hextracted hdest
        apply hpaid
        rw [hpays, List.any_eq_true]
        exact ⟨txout, hmem, by simp [hextracted, hdest]⟩
      have hspentNow : w'.previouslySpent = destinations ++ w.previouslySpent := by rw [hdirty]; rfl
      unfold CWallet.isSpentKey
      dsimp only
      cases hextracted : (extractDestination txout.scriptPubKey).1 with
      | false => rfl
      | true =>
        have hnot := hother hextracted
        rw [Bool.true_and, Bool.true_and, hspentNow, hextends.affected]
        congr 1
        · simp [hnot]
        · rw [Bool.eq_iff_iff, List.any_eq_true, List.any_eq_true]
          refine exists_congr fun dest => and_congr_right fun hdest => ?_
          rw [halias txout.scriptPubKey dest hdest]
          simp [hnot]

/-- Putting a transaction: all but those it spends from stay up to date. -/
theorem upToDate_insert {hash : Uint256} {prevouts : List COutPoint}
    {spends : List (COutPoint × Uint256)} (hlinked : Linked env w) (hcoherent : Coherent env w)
    (hextends : Extends w
      { w with mapWallet := w.mapWallet.insert hash wtx', mapTxSpends := spends })
    (hfirst : w.mapWallet.lookup hash = none → ∀ txid wtx, w.mapWallet.lookup txid = some wtx →
      ∀ txin ∈ wtx.tx.vin, txin.prevout.hash ≠ hash)
    (hnew : ∀ spend ∈ spends, spend ∈ w.mapTxSpends ∨ spend.1 ∈ prevouts)
    (hold : ∀ spend ∈ w.mapTxSpends, spend ∈ spends)
    (hprevouts : ∀ spend ∈ w.mapTxSpends, spend.2 = hash → spend.1 ∈ prevouts)
    (hlookup : Finmap.lookup txid (w.mapWallet.insert hash wtx') = some wtx)
    (hspends : ∀ outpoint ∈ prevouts, outpoint.hash ≠ txid) :
    UpToDate env { w with mapWallet := w.mapWallet.insert hash wtx', mapTxSpends := spends } wtx := by
  rcases hextends.caches txid wtx hlookup with hnothing | hbefore
  · exact hnothing.upToDate
  have hid := hlinked.ids txid wtx hbefore
  intro type htype filter value hcached
  rw [← hcoherent txid wtx hbefore type htype filter value hcached]
  refine hextends.amountOf (fun filter txin htxin => hextends.getDebitIn ?_) (fun n => ?_)
    (fun _ _ => rfl) type filter
  · intro hnone
    have hne : txin.prevout.hash ≠ hash := by
      intro heq
      rw [heq] at hnone
      exact hfirst hnone txid wtx hbefore txin htxin heq
    exact (Finmap.lookup_insert_of_ne _ hne).trans hnone
  · have hother : ∀ spend : COutPoint × Uint256, spend.1 = ⟨env.getHash wtx.tx, n⟩ →
        spend.1 ∉ prevouts := by
      intro spend hop hmem
      apply hspends spend.1 hmem
      rw [hop]
      exact hid
    refine isSpent_kept ?_ ?_
    · intro spend hop
      exact ⟨fun hmem => (hnew spend hmem).resolve_right (hother spend hop), hold spend⟩
    · intro spend hmem hop
      have hne : spend.2 ≠ hash := fun heq => hother spend hop (hprevouts spend hmem heq)
      refine any_countsAsSpend_congr rfl ?_
      rw [Finmap.lookup_insert_of_ne _ hne]

/-- Those that the inputs spend from forget, and then everything is up to date. -/
theorem coherent_markInputsDirty {tx : CTransaction}
    (h : ∀ txid wtx, w.mapWallet.lookup txid = some wtx →
      (∀ outpoint ∈ tx.vin.map CTxIn.prevout, outpoint.hash ≠ txid) → UpToDate env w wtx) :
    Coherent env (markInputsDirty w tx) := by
  obtain ⟨hextends, hsame, hforgets⟩ := markInputsDirty_spec w tx
  intro txid wtx hlookup
  by_cases hparent : ∃ txin ∈ tx.vin, txin.prevout.hash = txid
  · obtain ⟨txin, htxin, rfl⟩ := hparent
    exact (hforgets txin htxin wtx hlookup).upToDate
  · rcases hextends.caches txid wtx hlookup with hforgotten | hbefore
    · exact hforgotten.upToDate
    intro type htype filter value hcached
    rw [hsame.amountOf rfl rfl]
    refine h txid wtx hbefore ?_ type htype filter value hcached
    rw [List.forall_mem_map]
    intro txin htxin heq
    exact hparent ⟨txin, htxin, heq⟩

/-! ### Orderly runs -/

theorem map_tx_markUsed {tx : CTransaction} (h : markUsed w tx = .ok w') (txid : Uint256) :
    (w'.mapWallet.lookup txid).map CWalletTx.tx = (w.mapWallet.lookup txid).map CWalletTx.tx := by
  rcases markUsed_cases h with rfl | ⟨destinations, rfl⟩
  · rfl
  · obtain ⟨_, -, hlookup⟩ := @lookup_markDestinationsDirty _
      { w with previouslySpent := destinations ++ w.previouslySpent } destinations txid
    rw [hlookup, Option.map_map]
    congr 1
    funext wtx
    dsimp only [Function.comp_apply]
    split_ifs <;> rfl

theorem mapTxSpends_markUsed {tx : CTransaction} (h : markUsed w tx = .ok w') :
    w'.mapTxSpends = w.mapTxSpends := by
  rcases markUsed_cases h with rfl | ⟨destinations, rfl⟩ <;> rfl

theorem linked_markUsed {tx : CTransaction} (hlinked : Linked env w) (h : markUsed w tx = .ok w') :
    Linked env w' := by
  refine hlinked.of_extends (extends_markUsed h) ?_ ?_
  · intro txid wtx' hnone hsome
    have htx := map_tx_markUsed h txid
    rw [hnone, hsome] at htx
    cases htx
  · intro spend hmem
    exact .inl (mapTxSpends_markUsed h ▸ hmem)

theorem InOrder.markUsed {tx : CTransaction} (horder : InOrder env w tx)
    (h : markUsed w tx = .ok w') : InOrder env w' tx := by
  have htx := map_tx_markUsed h
  refine ⟨?_, ?_⟩
  · intro hnone txid wtx' hlookup'
    have hbefore := htx txid
    rw [hlookup', eq_comm, Option.map_some, Option.map_eq_some_iff] at hbefore
    obtain ⟨wtx, hlookup, hsame⟩ := hbefore
    have hhash := htx (env.getHash tx)
    rw [hnone, eq_comm, Option.map_none, Option.map_eq_none_iff] at hhash
    rw [← hsame]
    exact horder.first hhash txid wtx hlookup
  · intro wtx' hlookup'
    have hbefore := htx (env.getHash tx)
    rw [hlookup', eq_comm, Option.map_some, Option.map_eq_some_iff] at hbefore
    obtain ⟨wtx, hlookup, hsame⟩ := hbefore
    rw [← hsame]
    exact horder.same wtx hlookup

theorem Linked.markInputsDirty (hlinked : Linked env w) (tx : CTransaction) :
    Linked env (markInputsDirty w tx) := by
  obtain ⟨hextends, hsame, -⟩ := markInputsDirty_spec w tx
  refine hlinked.of_extends hextends ?_ ?_
  · intro txid wtx' hnone hsome
    cases (hsame.lookup_eq_none hnone).symm.trans hsome
  · intro spend hmem
    exact .inl (hsame.spends ▸ hmem)

theorem coherent_insert_new {tx : CTransaction} {state : TxState} (hlinked : Linked env w)
    (hcoherent : Coherent env w) (horder : InOrder env w tx)
    (hnone : w.mapWallet.lookup (env.getHash tx) = none)
    (hw' : w' = { w with
      mapWallet := w.mapWallet.insert (env.getHash tx) (.new tx state)
      mapTxSpends := spendsOf env tx ++ w.mapTxSpends }) :
    Linked env (markInputsDirty w' tx) ∧ Coherent env (markInputsDirty w' tx) := by
  have hextends : Extends w { w with
      mapWallet := w.mapWallet.insert (env.getHash tx) (.new tx state)
      mapTxSpends := spendsOf env tx ++ w.mapTxSpends } := by
    refine .insert _ (forgotten_new tx state) (fun _ => rfl) ?_
    intro wtx hsome
    cases hnone.symm.trans hsome
  have hspendsOf : ∀ spend ∈ spendsOf env tx,
      spend.1 ∈ tx.vin.map CTxIn.prevout ∧ spend.2 = env.getHash tx := by
    intro spend hmem
    unfold spendsOf at hmem
    split_ifs at hmem
    · cases hmem
    · obtain ⟨txin, htxin, rfl⟩ := List.mem_map.mp hmem
      exact ⟨List.mem_map_of_mem htxin, rfl⟩
  subst hw'
  refine ⟨Linked.markInputsDirty (hlinked.of_extends hextends ?_ ?_) tx, ?_⟩
  · intro txid wtx' hbefore hafter
    by_cases htxid : txid = env.getHash tx
    · rw [htxid, Finmap.lookup_insert] at hafter
      rw [htxid, ← Option.some.inj hafter]
      rfl
    · rw [Finmap.lookup_insert_of_ne _ htxid, hbefore] at hafter
      cases hafter
  · intro spend hmem
    rcases List.mem_append.mp hmem with hspend | hold
    · obtain ⟨hprevout, hhash⟩ := hspendsOf spend hspend
      refine .inr ⟨.new tx state, ?_, hprevout⟩
      rw [hhash]
      exact Finmap.lookup_insert _
    · exact .inl hold
  · apply coherent_markInputsDirty
    intro txid wtx hlookup hspends
    refine upToDate_insert hlinked hcoherent hextends (fun _ => horder.first hnone) ?_
      (fun spend hmem => List.mem_append_right _ hmem) ?_ hlookup hspends
    · intro spend hmem
      exact (List.mem_append.mp hmem).symm.imp_right fun hspend => (hspendsOf spend hspend).1
    · intro spend hmem hhash
      obtain ⟨spender, hspender, -⟩ := hlinked.spends spend hmem
      rw [hhash, hnone] at hspender
      cases hspender

theorem coherent_insert_state {tx : CTransaction} {hash : Uint256} {m_state : TxState}
    (hlinked : Linked env w) (hcoherent : Coherent env w)
    (hlookup : w.mapWallet.lookup hash = some wtx)
    (hinputs : wtx.tx.vin.map CTxIn.prevout = tx.vin.map CTxIn.prevout)
    (hw' : w' = { w with
      mapWallet := w.mapWallet.insert hash { wtx with m_state := m_state }.markDirty }) :
    Linked env (markInputsDirty w' tx) ∧ Coherent env (markInputsDirty w' tx) := by
  have hextends := extends_insert_markDirty hlookup m_state
  subst hw'
  refine ⟨Linked.markInputsDirty (hlinked.of_extends hextends ?_ fun spend hmem => .inl hmem) tx, ?_⟩
  · intro txid wtx' hbefore hafter
    by_cases htxid : txid = hash
    · rw [htxid, hlookup] at hbefore
      cases hbefore
    · rw [Finmap.lookup_insert_of_ne _ htxid, hbefore] at hafter
      cases hafter
  · apply coherent_markInputsDirty
    intro txid kept hkept hspends
    refine upToDate_insert hlinked hcoherent hextends ?_ (fun spend hmem => .inl hmem)
      (fun spend hmem => hmem) ?_ hkept hspends
    · intro hnone
      cases hnone.symm.trans hlookup
    · intro spend hmem hhash
      obtain ⟨spender, hspender, hprevout⟩ := hlinked.spends spend hmem
      rw [hhash, hlookup] at hspender
      rw [← hinputs, Option.some.inj hspender]
      exact hprevout

/-- The steps of a wallet that takes transactions in order, whose blocks count the same spends. -/
inductive Orderly (env : WalletEnv 𝔾) : CWallet hash160 → CWallet hash160 → Prop where
  | sync {w w' : CWallet hash160} (tx : CTransaction) (state : TxState) (update_tx : Bool) :
      InOrder env w tx → NoAlias w → syncTransaction env w tx state update_tx = .ok w' →
        Orderly env w w'
  | update (w : CWallet hash160) (txid : Uint256) (state : TxState) :
      Orderly env w (updateTxState w txid state)
  | tip (w : CWallet hash160) (height : Nat) :
      (∀ txid wtx, w.mapWallet.lookup txid = some wtx →
        CWallet.countsAsSpend { w with m_last_block_processed_height := height } wtx =
          w.countsAsSpend wtx) →
      Orderly env w { w with m_last_block_processed_height := height }
  | ask {w w' : CWallet hash160} : Step env w w' → Asked env w w' → Orderly env w w'

theorem remembers_of_lookup_insert (hlookup : w.mapWallet.lookup txid = some wtx)
    (h : Remembers env w wtx wtx') {t : Uint256} {a' : CWalletTx}
    (ha' : Finmap.lookup t (w.mapWallet.insert txid wtx') = some a') :
    ∃ a, w.mapWallet.lookup t = some a ∧ Remembers env w a a' := by
  by_cases ht : t = txid
  · rw [ht, Finmap.lookup_insert] at ha'
    exact ⟨wtx, ht ▸ hlookup, Option.some.inj ha' ▸ h⟩
  · rw [Finmap.lookup_insert_of_ne _ ht] at ha'
    exact ⟨a', ha', .refl env w a'⟩

theorem linked_coherent_asked (hlinked : Linked env w) (hcoherent : Coherent env w)
    (h : Asked env w w') : Linked env w' ∧ Coherent env w' := by
  obtain ⟨txid, wtx, wtx', hlookup, hremembers, rfl⟩ := h
  have hsame := SameTxs.of_remembers hlookup hremembers
  refine ⟨⟨?_, ?_, ?_⟩, ?_⟩
  · intro t a' ha'
    obtain ⟨a, ha, hafter⟩ := remembers_of_lookup_insert hlookup hremembers ha'
    rw [hafter.tx]
    exact hlinked.ids t a ha
  · intro spend hmem
    obtain ⟨a, ha, hprevout⟩ := hlinked.spends spend hmem
    obtain ⟨a', ha', htx, -⟩ := hsame.exists_tx ha
    exact ⟨a', ha', htx ▸ hprevout⟩
  · intro t a' ha' hempty type filter
    obtain ⟨a, ha, hafter⟩ := remembers_of_lookup_insert hlookup hremembers ha'
    obtain ⟨hbefore, hamounts⟩ := hafter.empty hempty
    rw [hamounts]
    exact hlinked.empty t a ha hbefore type filter
  · intro t a' ha' type htype filter value hcached
    obtain ⟨a, ha, hafter⟩ := remembers_of_lookup_insert hlookup hremembers ha'
    rw [hsame.amountOf hafter.tx hafter.records]
    rcases hafter.amounts type filter with hkept | ⟨computed, hcomputed, -, hnow⟩
    · exact hcoherent t a ha type htype filter value (hkept ▸ hcached)
    · rw [hcomputed, Option.some.inj (hnow.symm.trans hcached)]

/-- **A step in order keeps the cached amounts up to date.** -/
theorem Orderly.linked_coherent (h : Orderly env w w') (hlinked : Linked env w)
    (hcoherent : Coherent env w) : Linked env w' ∧ Coherent env w' := by
  cases h with
  | sync tx state update_tx horder halias h =>
    rcases syncTransaction_cases h with rfl | ⟨added, hadded, rfl⟩
    · exact ⟨hlinked, hcoherent⟩
    · obtain ⟨used, hused, ⟨hnone, hadded⟩ | ⟨wtx, m_state, hsome, hadded⟩⟩ :=
        addToWallet_cases hadded
      · exact coherent_insert_new (linked_markUsed hlinked hused)
          (coherent_markUsed hlinked hcoherent halias hused) (horder.markUsed hused) hnone hadded
      · exact coherent_insert_state (linked_markUsed hlinked hused)
          (coherent_markUsed hlinked hcoherent halias hused) hsome
          ((horder.markUsed hused).same wtx hsome) hadded
  | update txid state =>
    unfold updateTxState
    cases hlookup : w.mapWallet.lookup txid with
    | none => exact ⟨hlinked, hcoherent⟩
    | some wtx => exact coherent_insert_state hlinked hcoherent hlookup rfl rfl
  | tip height hcounts =>
    refine ⟨⟨hlinked.ids, hlinked.spends, hlinked.empty⟩, ?_⟩
    intro txid wtx hlookup type htype filter value hcached
    have hextends := extends_tip w height
    rw [← hcoherent txid wtx hlookup type htype filter value hcached]
    refine hextends.amountOf (fun filter txin _ => hextends.getDebitIn id)
      (fun n => isSpent_kept (fun _ _ => Iff.rfl) ?_) (fun _ _ => rfl) type filter
    intro spend hmem _
    obtain ⟨spender, hspender, -⟩ := hlinked.spends spend hmem
    dsimp only
    rw [hspender, Option.any_some, Option.any_some]
    exact hcounts spend.2 spender hspender
  | ask _ hasked => exact linked_coherent_asked hlinked hcoherent hasked

/-- **Orderly runs**, by induction on the steps. -/
theorem coherent_of_orderly (hrun : Relation.ReflTransGen (Orderly env) w w')
    (hlinked : Linked env w) (hcoherent : Coherent env w) : Linked env w' ∧ Coherent env w' := by
  induction hrun with
  | refl => exact ⟨hlinked, hcoherent⟩
  | tail _ hstep ih => exact hstep.linked_coherent ih.1 ih.2

end Rcpu.WalletCache
