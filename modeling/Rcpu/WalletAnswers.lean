import Rcpu.ExceptRel
import Rcpu.WalletRecords

/-!
# Balances of wallets that read alike

Two wallets that read the same debits and available credits for the same transactions trust the same
transactions and report the same balances, whatever keys they have.  Of a single wallet,
`CachedTxIsTrusted` decides an inductive notion of trust, and the address balances are the sums of
what the trusted transactions pay to each address.
-/

namespace Rcpu.WalletCache

open Checks ExceptRel ByteStream Transaction WeightedMap Solver

/-! ### Wallets that read alike -/

section Reads

variable {𝔾 : Type} {hash160 : Bytes → Bytes} {env : WalletEnv 𝔾} {w w' w'' : CWallet hash160}
  {wtx wtx' : CWalletTx} {filter : isminefilter}

theorem SameChain.symm (h : SameChain w w') : SameChain w' w :=
  ⟨h.isMine.symm, h.spends.symm, h.height.symm, h.zeroConf.symm, h.avoidReuse.symm,
    h.previouslySpent.symm, h.affected.symm, fun txid => (h.txs txid).symm⟩

theorem SameChain.trans (h : SameChain w w') (h' : SameChain w' w'') : SameChain w w'' :=
  ⟨h'.isMine.trans h.isMine, h'.spends.trans h.spends, h'.height.trans h.height,
    h'.zeroConf.trans h.zeroConf, h'.avoidReuse.trans h.avoidReuse,
    h'.previouslySpent.trans h.previouslySpent, h'.affected.trans h.affected,
    fun txid => (h'.txs txid).trans (h.txs txid)⟩

structure SameReads (env : WalletEnv 𝔾) (w w' : CWallet hash160) (wtx wtx' : CWalletTx) : Prop where
  debit : ∀ filter, readAmount env w' wtx' .DEBIT filter = readAmount env w wtx .DEBIT filter
  available : ∀ filter,
    readAmount env w' wtx' .AVAILABLE_CREDIT filter = readAmount env w wtx .AVAILABLE_CREDIT filter
  computed : ∀ filter, availableOf env w' wtx' filter = availableOf env w wtx filter
  immature : wtx.tx.IsCoinBase → ∀ filter,
    readAmount env w' wtx' .IMMATURE_CREDIT filter = readAmount env w wtx .IMMATURE_CREDIT filter

structure Alike (env : WalletEnv 𝔾) (w w' : CWallet hash160) : Prop extends SameChain w w' where
  reads : ∀ txid wtx wtx', w.mapWallet.lookup txid = some wtx → w'.mapWallet.lookup txid = some wtx' →
    SameReads env w w' wtx wtx'

theorem Alike.symm (h : Alike env w w') : Alike env w' w := by
  refine ⟨h.toSameChain.symm, ?_⟩
  intro txid wtx' wtx hlookup' hlookup
  have hreads := h.reads txid wtx wtx' hlookup hlookup'
  obtain ⟨_, hfound, htx, -⟩ := h.exists_tx hlookup
  rw [hlookup'] at hfound
  obtain rfl := Option.some.inj hfound
  refine ⟨fun f => (hreads.debit f).symm, fun f => (hreads.available f).symm,
    fun f => (hreads.computed f).symm, ?_⟩
  intro hcoinbase f
  exact (hreads.immature (htx ▸ hcoinbase) f).symm

theorem Alike.trans (h : Alike env w w') (h' : Alike env w' w'') : Alike env w w'' := by
  refine ⟨h.toSameChain.trans h'.toSameChain, ?_⟩
  intro txid wtx wtx'' hlookup hlookup''
  obtain ⟨wtx', hlookup', htx, -⟩ := h.exists_tx hlookup
  have hreads := h.reads txid wtx wtx' hlookup hlookup'
  have hreads' := h'.reads txid wtx' wtx'' hlookup' hlookup''
  refine ⟨fun f => (hreads'.debit f).trans (hreads.debit f),
    fun f => (hreads'.available f).trans (hreads.available f),
    fun f => (hreads'.computed f).trans (hreads.computed f), ?_⟩
  intro hcoinbase f
  exact (hreads'.immature (htx ▸ hcoinbase) f).trans (hreads.immature hcoinbase f)

theorem Alike.of_remembers {txid : Uint256} (hlookup : w.mapWallet.lookup txid = some wtx)
    (h : Remembers env w wtx wtx') :
    Alike env w { w with mapWallet := w.mapWallet.insert txid wtx' } := by
  have hsame := SameTxs.of_remembers hlookup h
  refine ⟨hsame.toSameChain, ?_⟩
  intro t a a' ha ha'
  have hremembers : Remembers env w a a' := by
    dsimp only at ha'
    by_cases ht : t = txid
    · rw [ht, Finmap.lookup_insert] at ha'
      rw [ht, hlookup] at ha
      obtain rfl := Option.some.inj ha
      obtain rfl := Option.some.inj ha'
      exact h
    · rw [Finmap.lookup_insert_of_ne _ ht, ha] at ha'
      obtain rfl := Option.some.inj ha'
      exact .refl env w a
  exact ⟨fun f => hremembers.readAmount hsame _ f, fun f => hremembers.readAmount hsame _ f,
    fun f => hsame.amountOf hremembers.tx hremembers.records .AVAILABLE_CREDIT f,
    fun _ f => hremembers.readAmount hsame _ f⟩

end Reads

/-! ### Wallets that answer alike -/

section Answers

variable {𝔾 : Type} {hash160 : Bytes → Bytes} {env : WalletEnv 𝔾} {w w' : CWallet hash160}
  {wtx wtx' : CWalletTx} {filter : isminefilter}

def Answers {α : Type} (env : WalletEnv 𝔾) (r r' : α × CWallet hash160) : Prop :=
  r.1 = r'.1 ∧ Alike env r.2 r'.2

theorem relates_withTx {α : Type} (h : Alike env w w') (txid : Uint256)
    {call call' : CWalletTx → Except String (α × CWalletTx)}
    (hcall : ∀ wtx wtx', wtx'.tx = wtx.tx → wtx'.m_state = wtx.m_state → SameReads env w w' wtx wtx' →
      (call wtx).map Prod.fst = (call' wtx').map Prod.fst)
    (hremembers : ∀ wtx r, call wtx = .ok r → Remembers env w wtx r.2)
    (hremembers' : ∀ wtx r, call' wtx = .ok r → Remembers env w' wtx r.2) :
    Relates (Answers env) (withTx w txid call) (withTx w' txid call') := by
  unfold withTx
  cases hlookup : w.mapWallet.lookup txid with
  | none =>
    rw [h.lookup_eq_none hlookup]
    exact .error _
  | some wtx =>
    obtain ⟨wtx', hlookup', htx, hstate⟩ := h.exists_tx hlookup
    rw [hlookup']
    have hsame := hcall wtx wtx' htx hstate (h.reads txid wtx wtx' hlookup hlookup')
    refine (relates_of_map_fst hsame (hremembers wtx) (hremembers' wtx')).bind ?_
    rintro ⟨a, after⟩ ⟨a', after'⟩ ⟨ha, hafter, hafter'⟩
    refine .ok ⟨ha, ?_⟩
    exact ((Alike.of_remembers hlookup hafter).symm.trans h).trans (Alike.of_remembers hlookup' hafter')

theorem SameReads.cachedTxGetDebit (h : SameReads env w w' wtx wtx') (htx : wtx'.tx = wtx.tx)
    (filter : isminefilter) :
    (cachedTxGetDebit env w wtx filter).map Prod.fst =
      (cachedTxGetDebit env w' wtx' filter).map Prod.fst := by
  unfold WalletCache.cachedTxGetDebit
  dsimp only
  rw [htx]
  split_ifs
  · rfl
  · exact (map_fst_cachable .DEBIT _).trans ((h.debit _).symm.trans (map_fst_cachable .DEBIT _).symm)
  · rfl

theorem relates_cachedTxGetDebit (h : Alike env w w') (txid : Uint256) (filter : isminefilter) :
    Relates (Answers env) (withTx w txid fun wtx => cachedTxGetDebit env w wtx filter)
      (withTx w' txid fun wtx => cachedTxGetDebit env w' wtx filter) := by
  refine relates_withTx h txid ?_ (fun _ _ => remembers_cachedTxGetDebit)
    (fun _ _ => remembers_cachedTxGetDebit)
  intro wtx wtx' htx _ hreads
  exact hreads.cachedTxGetDebit htx filter

theorem relates_cachedTxGetAvailableCredit (h : Alike env w w') (txid : Uint256)
    (filter : isminefilter) :
    Relates (Answers env) (withTx w txid fun wtx => cachedTxGetAvailableCredit env w wtx filter)
      (withTx w' txid fun wtx => cachedTxGetAvailableCredit env w' wtx filter) := by
  refine relates_withTx h txid ?_ (fun _ _ => remembers_cachedTxGetAvailableCredit)
    (fun _ _ => remembers_cachedTxGetAvailableCredit)
  intro wtx wtx' htx hstate hreads
  unfold cachedTxGetAvailableCredit
  dsimp only
  rw [h.isTxImmatureCoinBase htx hstate]
  cases w.isTxImmatureCoinBase wtx with
  | error e => rfl
  | ok immature =>
    dsimp only [bind, Except.bind]
    split_ifs
    · rfl
    · exact (map_fst_cachable .AVAILABLE_CREDIT _).trans
        ((hreads.available _).symm.trans (map_fst_cachable .AVAILABLE_CREDIT _).symm)
    · rw [hreads.computed]
      cases availableOf env w wtx filter <;> rfl

theorem isCoinBase_of_immature (h : w.isTxImmatureCoinBase wtx = .ok true) : wtx.tx.IsCoinBase := by
  by_contra hnot
  unfold CWallet.isTxImmatureCoinBase CWallet.getTxBlocksToMaturity at h
  rw [if_pos hnot] at h
  cases Except.ok.inj h

theorem relates_cachedTxGetImmatureCredit (h : Alike env w w') (txid : Uint256)
    (filter : isminefilter) :
    Relates (Answers env) (withTx w txid fun wtx => cachedTxGetImmatureCredit env w wtx filter)
      (withTx w' txid fun wtx => cachedTxGetImmatureCredit env w' wtx filter) := by
  refine relates_withTx h txid ?_ (fun _ _ => remembers_cachedTxGetImmatureCredit)
    (fun _ _ => remembers_cachedTxGetImmatureCredit)
  intro wtx wtx' htx hstate hreads
  unfold cachedTxGetImmatureCredit CWallet.isTxInMainChain
  rw [h.isTxImmatureCoinBase htx hstate, h.depth hstate]
  cases himmature : w.isTxImmatureCoinBase wtx with
  | error e => rfl
  | ok immature =>
    dsimp only [bind, Except.bind]
    split_ifs with hcounts
    · obtain ⟨hflag, -⟩ := Bool.and_eq_true_iff.mp hcounts
      have hcoinbase := isCoinBase_of_immature (himmature.trans (congrArg _ hflag))
      exact (map_fst_cachable .IMMATURE_CREDIT _).trans
        ((hreads.immature hcoinbase _).symm.trans (map_fst_cachable .IMMATURE_CREDIT _).symm)
    · rfl

theorem relates_inputsTrusted
    {f g : CWallet hash160 → List Uint256 → Uint256 →
      Except String ((Bool × List Uint256) × CWallet hash160)}
    (hfg : ∀ w w' trusted_parents txid, Alike env w w' →
      Relates (Answers env) (f w trusted_parents txid) (g w' trusted_parents txid))
    (h : Alike env w w') (trusted_parents : List Uint256) (vin : List CTxIn) :
    Relates (Answers env) (inputsTrusted f w trusted_parents vin)
      (inputsTrusted g w' trusted_parents vin) := by
  induction vin generalizing w w' trusted_parents with
  | nil => exact .ok ⟨rfl, h⟩
  | cons txin vin ih =>
    rw [inputsTrusted, inputsTrusted]
    cases hlookup : w.mapWallet.lookup txin.prevout.hash with
    | none =>
      rw [h.lookup_eq_none hlookup]
      exact .ok ⟨rfl, h⟩
    | some parent =>
      obtain ⟨parent', hlookup', htx, -⟩ := h.exists_tx hlookup
      rw [hlookup']
      dsimp only
      rw [htx]
      cases parent.tx.vout[txin.prevout.n.toNat]? with
      | none => exact .error _
      | some parentOut =>
        dsimp only
        rw [h.isMine]
        split_ifs
        · exact .ok ⟨rfl, h⟩
        · exact ih h trusted_parents
        · refine (hfg w w' trusted_parents txin.prevout.hash h).bind ?_
          rintro ⟨⟨trusted, memo⟩, w₁⟩ ⟨⟨trusted', memo'⟩, w₁'⟩ ⟨hsame, h₁⟩
          obtain ⟨rfl, rfl⟩ := Prod.mk.inj hsame
          dsimp only
          split_ifs
          · exact .ok ⟨rfl, h₁⟩
          · exact ih h₁ _

theorem inMempool_congr (hstate : wtx'.m_state = wtx.m_state) : wtx'.inMempool = wtx.inMempool := by
  rw [CWalletTx.inMempool, hstate, CWalletTx.inMempool]

theorem SameChain.lookTx {α : Type} (h : SameChain w w') (txid : Uint256)
    {look look' : CWalletTx → Except String α}
    (hlook : ∀ wtx wtx', wtx'.tx = wtx.tx → wtx'.m_state = wtx.m_state → look' wtx' = look wtx) :
    lookTx w' txid look' = lookTx w txid look := by
  unfold WalletCache.lookTx
  cases hlookup : w.mapWallet.lookup txid with
  | none => rw [h.lookup_eq_none hlookup]
  | some wtx =>
    obtain ⟨wtx', hlookup', htx, hstate⟩ := h.exists_tx hlookup
    rw [hlookup']
    exact hlook wtx wtx' htx hstate

theorem relates_cachedTxIsTrusted (n : Nat) (h : Alike env w w') (trusted_parents : List Uint256)
    (txid : Uint256) :
    Relates (Answers env) (cachedTxIsTrusted env n w trusted_parents txid)
      (cachedTxIsTrusted env n w' trusted_parents txid) := by
  induction n generalizing w w' trusted_parents txid with
  | zero => exact .error _
  | succ n ih =>
    rw [cachedTxIsTrusted, cachedTxIsTrusted]
    cases hlookup : w.mapWallet.lookup txid with
    | none =>
      rw [h.lookup_eq_none hlookup]
      exact .error _
    | some wtx =>
      obtain ⟨wtx', hlookup', htx, hstate⟩ := h.exists_tx hlookup
      rw [hlookup']
      dsimp only
      rw [h.depth hstate, h.zeroConf]
      split_ifs
      · exact .ok ⟨rfl, h⟩
      · exact .ok ⟨rfl, h⟩
      · exact .ok ⟨rfl, h⟩
      · refine (relates_cachedTxGetDebit h txid ISMINE_ALL).bind ?_
        rintro ⟨debit, w₁⟩ ⟨debit', w₁'⟩ ⟨hdebit, h₁⟩
        obtain rfl : debit = debit' := hdebit
        dsimp only
        rw [inMempool_congr hstate, htx]
        split_ifs
        · exact .ok ⟨rfl, h₁⟩
        · exact relates_inputsTrusted (fun _ _ memo t h => ih h memo t) h₁ trusted_parents _

theorem SameChain.trustDepth (h : SameChain w w') : w'.trustDepth = w.trustDepth := by
  unfold CWallet.trustDepth
  congr 2
  ext txid
  rw [Finmap.mem_keys, Finmap.mem_keys, ← Finmap.lookup_isSome, ← Finmap.lookup_isSome,
    ← Option.isSome_map, h.txs, Option.isSome_map]

theorem relates_addTxBalance (min_depth : Int) (reuse_filter : isminefilter)
    (acc acc' : (Balance × List Uint256) × CWallet hash160) (txid : Uint256)
    (h : Answers env acc acc') :
    Relates (Answers env) (addTxBalance env min_depth reuse_filter acc txid)
      (addTxBalance env min_depth reuse_filter acc' txid) := by
  obtain ⟨⟨ret, memo⟩, w⟩ := acc
  obtain ⟨⟨ret', memo'⟩, w'⟩ := acc'
  obtain ⟨hsame, h⟩ := h
  obtain ⟨rfl, rfl⟩ := Prod.mk.inj hsame
  unfold addTxBalance
  dsimp only at h ⊢
  rw [h.trustDepth]
  refine (relates_cachedTxIsTrusted _ h _ txid).bind ?_
  rintro ⟨⟨is_trusted, memo₁⟩, w₁⟩ ⟨⟨_, _⟩, w₁'⟩ ⟨htrusted, h₁⟩
  obtain ⟨rfl, rfl⟩ := Prod.mk.inj htrusted
  refine (relates_cachedTxGetAvailableCredit h₁ txid _).bind ?_
  rintro ⟨mine, w₂⟩ ⟨_, w₂'⟩ ⟨rfl, h₂⟩
  refine (relates_cachedTxGetAvailableCredit h₂ txid _).bind ?_
  rintro ⟨watchonly, w₃⟩ ⟨_, w₃'⟩ ⟨rfl, h₃⟩
  refine (relates_cachedTxGetImmatureCredit h₃ txid _).bind ?_
  rintro ⟨immature, w₄⟩ ⟨_, w₄'⟩ ⟨rfl, h₄⟩
  refine (relates_cachedTxGetImmatureCredit h₄ txid _).bind ?_
  rintro ⟨watchonly_immature, w₅⟩ ⟨_, w₅'⟩ ⟨rfl, h₅⟩
  have hlook : lookTx w₅' txid (fun wtx => .ok (w₅'.getTxDepthInMainChain wtx, wtx.inMempool)) =
      lookTx w₅ txid fun wtx => .ok (w₅.getTxDepthInMainChain wtx, wtx.inMempool) := by
    refine h₅.lookTx txid ?_
    intro wtx wtx' _ hstate
    rw [inMempool_congr hstate, show _ = w₅.getTxDepthInMainChain wtx from h₅.depth hstate]
  dsimp only
  rw [hlook]
  refine relates_bind_self fun _ => .ok ⟨rfl, h₅⟩

/-- **Wallets that read alike report the same balance.** -/
theorem relates_getBalance (h : Alike env w w') (order : List Uint256) (min_depth : Int)
    (avoid_reuse : Bool) :
    Relates (Answers env) (getBalance env w order min_depth avoid_reuse)
      (getBalance env w' order min_depth avoid_reuse) := by
  unfold getBalance
  dsimp only
  have hstart : Answers env ((({}, []), w) : (Balance × List Uint256) × CWallet hash160)
      (({}, []), w') := ⟨rfl, h⟩
  refine (Relates.foldlM (fun acc acc' txid => relates_addTxBalance min_depth _ acc acc' txid)
    hstart order).bind ?_
  rintro ⟨⟨ret, memo⟩, w₁⟩ ⟨⟨_, _⟩, w₁'⟩ ⟨hsame, h₁⟩
  obtain ⟨rfl, rfl⟩ := Prod.mk.inj hsame
  exact .ok ⟨rfl, h₁⟩

theorem relates_countsForAddresses (h : Alike env w w') (trusted_parents : List Uint256)
    (txid : Uint256) :
    Relates (Answers env) (countsForAddresses env w trusted_parents txid)
      (countsForAddresses env w' trusted_parents txid) := by
  unfold countsForAddresses
  rw [h.trustDepth]
  refine (relates_cachedTxIsTrusted _ h _ txid).bind ?_
  rintro ⟨⟨is_trusted, memo₁⟩, w₁⟩ ⟨⟨_, _⟩, w₁'⟩ ⟨htrusted, h₁⟩
  obtain ⟨rfl, rfl⟩ := Prod.mk.inj htrusted
  dsimp only
  split_ifs
  · exact .ok ⟨rfl, h₁⟩
  · have hlook : (lookTx w₁' txid fun wtx => do
          return (← w₁'.isTxImmatureCoinBase wtx, w₁'.getTxDepthInMainChain wtx)) =
        lookTx w₁ txid fun wtx => do
          return (← w₁.isTxImmatureCoinBase wtx, w₁.getTxDepthInMainChain wtx) := by
      refine h₁.lookTx txid ?_
      intro wtx wtx' htx hstate
      rw [show _ = w₁.isTxImmatureCoinBase wtx from h₁.isTxImmatureCoinBase htx hstate,
        show _ = w₁.getTxDepthInMainChain wtx from h₁.depth hstate]
    rw [hlook]
    refine relates_bind_self fun chain => ?_
    split_ifs
    · exact .ok ⟨rfl, h₁⟩
    · refine (relates_cachedTxGetDebit h₁ txid ISMINE_ALL).bind ?_
      rintro ⟨debit, w₂⟩ ⟨_, w₂'⟩ ⟨rfl, h₂⟩
      exact .ok ⟨rfl, h₂⟩

/-- The loop of `GetAddressBalances` counts the same transactions. -/
theorem relates_addTxAddresses (h : Alike env w w') (order : List Uint256)
    (trusted_parents : List Uint256) (balances balances' : Map CTxDestination Int) :
    Relates (fun (r r' : (Map CTxDestination Int × List Uint256) × CWallet hash160) =>
        r.1.2 = r'.1.2 ∧ Alike env r.2 r'.2)
      (order.foldlM (addTxAddresses env) ((balances, trusted_parents), w))
      (order.foldlM (addTxAddresses env) ((balances', trusted_parents), w')) := by
  refine Relates.foldlM (fun acc acc' txid hacc => ?_) ⟨rfl, h⟩ order
  obtain ⟨⟨b, memo⟩, w⟩ := acc
  obtain ⟨⟨b', memo'⟩, w'⟩ := acc'
  obtain ⟨hmemo, h⟩ := hacc
  obtain rfl : memo = memo' := hmemo
  unfold addTxAddresses
  refine (relates_countsForAddresses h memo txid).bind ?_
  rintro ⟨⟨counted, memo₁⟩, w₁⟩ ⟨⟨_, _⟩, w₁'⟩ ⟨hcounted, h₁⟩
  obtain ⟨rfl, rfl⟩ := Prod.mk.inj hcounted
  dsimp only
  split_ifs
  · exact .ok ⟨rfl, h₁⟩
  · exact .ok ⟨rfl, h₁⟩

end Answers

/-! ### Trust -/

section Trust

variable {𝔾 : Type} {hash160 : Bytes → Bytes} {env : WalletEnv 𝔾} {w w' w'' : CWallet hash160}
  {wtx wtx' : CWalletTx} {txid : Uint256}

structure Queried (env : WalletEnv 𝔾) (w w' : CWallet hash160) : Prop
  extends Alike env w w', SameTxs w w'

theorem Queried.refl (env : WalletEnv 𝔾) (w : CWallet hash160) : Queried env w w := by
  refine ⟨⟨⟨rfl, rfl, rfl, rfl, rfl, rfl, rfl, fun _ => rfl⟩, ?_⟩, rfl, rfl, rfl, rfl, fun _ => rfl⟩
  intro txid wtx wtx' hlookup hlookup'
  rw [hlookup] at hlookup'
  obtain rfl := Option.some.inj hlookup'
  exact ⟨fun _ => rfl, fun _ => rfl, fun _ => rfl, fun _ _ => rfl⟩

theorem Queried.trans (h : Queried env w w') (h' : Queried env w' w'') : Queried env w w'' :=
  ⟨h.toAlike.trans h'.toAlike, h'.keys.trans h.keys, h'.crypted.trans h.crypted,
    h'.masterKey.trans h.masterKey, h'.addressBook.trans h.addressBook,
    fun txid => (h'.records txid).trans (h.records txid)⟩

theorem queried_withTx {α : Type} {call : CWalletTx → Except String (α × CWalletTx)}
    {r : α × CWallet hash160} (hremembers : ∀ wtx r, call wtx = .ok r → Remembers env w wtx r.2)
    (h : withTx w txid call = .ok r) :
    ∃ wtx, w.mapWallet.lookup txid = some wtx ∧ (call wtx).map Prod.fst = .ok r.1 ∧
      Queried env w r.2 := by
  unfold withTx at h
  cases hlookup : w.mapWallet.lookup txid with
  | none =>
    rw [hlookup] at h
    cases h
  | some wtx =>
    rw [hlookup] at h
    obtain ⟨⟨a, wtx'⟩, hcall, hr⟩ := bind_eq_ok.mp h
    obtain rfl := Except.ok.inj hr
    have hafter := hremembers wtx _ hcall
    have hsame := SameTxs.of_remembers hlookup hafter
    refine ⟨wtx, rfl, by rw [hcall]; rfl, ?_⟩
    exact ⟨Alike.of_remembers hlookup hafter, hsame.keys, hsame.crypted, hsame.masterKey,
      hsame.addressBook, hsame.records⟩

def FromMe (env : WalletEnv 𝔾) (w : CWallet hash160) (wtx : CWalletTx) : Prop :=
  ∃ debit > 0, (cachedTxGetDebit env w wtx ISMINE_ALL).map Prod.fst = .ok debit

def SpendsMine (w : CWallet hash160) (txin : CTxIn) : Prop :=
  ∃ parent parentOut, w.mapWallet.lookup txin.prevout.hash = some parent ∧
    parent.tx.vout[txin.prevout.n.toNat]? = some parentOut ∧
    w.isMine parentOut.scriptPubKey = ISMINE_SPENDABLE

/-- A trusted transaction is confirmed, or it is in the mempool and spends the wallet's own outputs of
trusted transactions. -/
inductive Trusted (env : WalletEnv 𝔾) (w : CWallet hash160) : Uint256 → Prop
  | confirmed {txid : Uint256} {wtx : CWalletTx} (hlookup : w.mapWallet.lookup txid = some wtx)
      (hdepth : w.getTxDepthInMainChain wtx ≥ 1) : Trusted env w txid
  | unconfirmed {txid : Uint256} {wtx : CWalletTx} (hlookup : w.mapWallet.lookup txid = some wtx)
      (hdepth : w.getTxDepthInMainChain wtx = 0) (hzeroConf : w.m_spend_zero_conf_change = true)
      (hmempool : wtx.inMempool = true) (hfrom : FromMe env w wtx)
      (hmine : ∀ txin ∈ wtx.tx.vin, SpendsMine w txin)
      (hparents : ∀ txin ∈ wtx.tx.vin, Trusted env w txin.prevout.hash) : Trusted env w txid

theorem trusted_iff (hlookup : w.mapWallet.lookup txid = some wtx) :
    Trusted env w txid ↔ w.getTxDepthInMainChain wtx ≥ 1 ∨
      w.getTxDepthInMainChain wtx = 0 ∧ w.m_spend_zero_conf_change = true ∧ wtx.inMempool = true ∧
        FromMe env w wtx ∧
        ∀ txin ∈ wtx.tx.vin, SpendsMine w txin ∧ Trusted env w txin.prevout.hash := by
  constructor
  · intro htrusted
    cases htrusted with
    | confirmed hfound hdepth =>
      rw [hlookup] at hfound
      obtain rfl := Option.some.inj hfound
      exact .inl hdepth
    | unconfirmed hfound hdepth hzeroConf hmempool hfrom hmine hparents =>
      rw [hlookup] at hfound
      obtain rfl := Option.some.inj hfound
      exact .inr ⟨hdepth, hzeroConf, hmempool, hfrom,
        fun txin htxin => ⟨hmine txin htxin, hparents txin htxin⟩⟩
  · rintro (hdepth | ⟨hdepth, hzeroConf, hmempool, hfrom, hinputs⟩)
    · exact .confirmed hlookup hdepth
    · exact .unconfirmed hlookup hdepth hzeroConf hmempool hfrom
        (fun txin htxin => (hinputs txin htxin).1) fun txin htxin => (hinputs txin htxin).2

theorem SpendsMine.of_sameChain (h : SameChain w w') {txin : CTxIn} (hmine : SpendsMine w txin) :
    SpendsMine w' txin := by
  obtain ⟨parent, parentOut, hlookup, hout, hspendable⟩ := hmine
  obtain ⟨parent', hlookup', htx, -⟩ := h.exists_tx hlookup
  exact ⟨parent', parentOut, hlookup', htx ▸ hout, h.isMine ▸ hspendable⟩

theorem FromMe.of_sameReads (h : SameReads env w w' wtx wtx') (htx : wtx'.tx = wtx.tx)
    (hfrom : FromMe env w wtx) : FromMe env w' wtx' := by
  obtain ⟨debit, hpos, hdebit⟩ := hfrom
  exact ⟨debit, hpos, (h.cachedTxGetDebit htx ISMINE_ALL).symm.trans hdebit⟩

theorem Trusted.of_alike (h : Alike env w w') (htrusted : Trusted env w txid) :
    Trusted env w' txid := by
  induction htrusted with
  | confirmed hlookup hdepth =>
    obtain ⟨wtx', hlookup', -, hstate⟩ := h.exists_tx hlookup
    exact .confirmed hlookup' ((h.depth hstate).symm ▸ hdepth)
  | @unconfirmed txid wtx hlookup hdepth hzeroConf hmempool hfrom hmine _ ih =>
    obtain ⟨wtx', hlookup', htx, hstate⟩ := h.exists_tx hlookup
    have hreads := h.reads _ _ _ hlookup hlookup'
    refine .unconfirmed hlookup' ((h.depth hstate).trans hdepth) (h.zeroConf.trans hzeroConf)
      ((inMempool_congr hstate).trans hmempool) (hfrom.of_sameReads hreads htx) ?_ ?_
    · intro txin htxin
      exact (hmine txin (htx ▸ htxin)).of_sameChain h.toSameChain
    · intro txin htxin
      exact ih txin (htx ▸ htxin)

/-- The answer is whether `P` holds, and all parents that are remembered are trusted. -/
structure Tells (env : WalletEnv 𝔾) (w : CWallet hash160) (P : Prop)
    (r : (Bool × List Uint256) × CWallet hash160) : Prop where
  answer : r.1.1 = true ↔ P
  parents : ∀ txid ∈ r.1.2, Trusted env w txid
  queried : Queried env w r.2

theorem Tells.of_queried {P P' : Prop} {r : (Bool × List Uint256) × CWallet hash160}
    (h : Queried env w w') (hP : P' ↔ P) (htells : Tells env w' P' r) : Tells env w P r :=
  ⟨htells.answer.trans hP, fun txid hmem => (htells.parents txid hmem).of_alike h.toAlike.symm,
    h.trans htells.queried⟩

theorem tells_inputsTrusted
    {f : CWallet hash160 → List Uint256 → Uint256 →
      Except String ((Bool × List Uint256) × CWallet hash160)}
    (hf : ∀ w trusted_parents txid r, (∀ t ∈ trusted_parents, Trusted env w t) →
      f w trusted_parents txid = .ok r → Tells env w (Trusted env w txid) r)
    {trusted_parents : List Uint256} (hparents : ∀ t ∈ trusted_parents, Trusted env w t)
    {vin : List CTxIn} {r : (Bool × List Uint256) × CWallet hash160}
    (h : inputsTrusted f w trusted_parents vin = .ok r) :
    Tells env w (∀ txin ∈ vin, SpendsMine w txin ∧ Trusted env w txin.prevout.hash) r := by
  induction vin generalizing w trusted_parents with
  | nil =>
    obtain rfl := Except.ok.inj h
    exact ⟨by simp, hparents, .refl env w⟩
  | cons txin vin ih =>
    rw [inputsTrusted] at h
    rw [List.forall_mem_cons]
    cases hlookup : w.mapWallet.lookup txin.prevout.hash with
    | none =>
      rw [hlookup] at h
      obtain rfl := Except.ok.inj h
      refine ⟨⟨Bool.noConfusion, ?_⟩, hparents, .refl env w⟩
      rintro ⟨⟨⟨parent, _, hparent, _⟩, -⟩, -⟩
      rw [hlookup] at hparent
      cases hparent
    | some parent =>
      rw [hlookup] at h
      dsimp only at h
      cases hout : parent.tx.vout[txin.prevout.n.toNat]? with
      | none =>
        rw [hout] at h
        cases h
      | some parentOut =>
        rw [hout] at h
        dsimp only at h
        split_ifs at h with hmine hmem
        · obtain rfl := Except.ok.inj h
          refine ⟨⟨Bool.noConfusion, ?_⟩, hparents, .refl env w⟩
          rintro ⟨⟨⟨_, _, hparent, hparentOut, hspendable⟩, -⟩, -⟩
          rw [hlookup] at hparent
          obtain rfl := Option.some.inj hparent
          rw [hout] at hparentOut
          obtain rfl := Option.some.inj hparentOut
          exact absurd hspendable hmine
        · have hspends : SpendsMine w txin := ⟨parent, parentOut, hlookup, hout, not_not.mp hmine⟩
          refine (ih hparents h).of_queried (.refl env w) ?_
          exact ⟨fun hrest => ⟨⟨hspends, hparents _ hmem⟩, hrest⟩, And.right⟩
        · have hspends : SpendsMine w txin := ⟨parent, parentOut, hlookup, hout, not_not.mp hmine⟩
          obtain ⟨⟨⟨trusted, memo⟩, w₁⟩, hcall, h⟩ := bind_eq_ok.mp h
          have htells := hf w trusted_parents txin.prevout.hash _ hparents hcall
          dsimp only at h
          split_ifs at h with htrusted
          · obtain rfl := Except.ok.inj h
            refine ⟨⟨Bool.noConfusion, ?_⟩, htells.parents, htells.queried⟩
            rintro ⟨⟨-, hparent⟩, -⟩
            have hanswer : trusted = true := htells.answer.mpr hparent
            rw [hanswer] at htrusted
            cases htrusted
          · have hparent : Trusted env w txin.prevout.hash := htells.answer.mp (by simpa using htrusted)
            have hmemo : ∀ t ∈ memo.insert txin.prevout.hash, Trusted env w₁ t := by
              intro t ht
              rcases List.mem_insert_iff.mp ht with rfl | ht
              · exact hparent.of_alike htells.queried.toAlike
              · exact (htells.parents t ht).of_alike htells.queried.toAlike
            refine (ih hmemo h).of_queried htells.queried ?_
            have hback := htells.queried.toAlike.symm
            constructor
            · intro hrest
              refine ⟨⟨hspends, hparent⟩, ?_⟩
              intro input hinput
              obtain ⟨hmine, htrusted⟩ := hrest input hinput
              exact ⟨hmine.of_sameChain hback.toSameChain, htrusted.of_alike hback⟩
            · rintro ⟨-, hrest⟩ input hinput
              obtain ⟨hmine, htrusted⟩ := hrest input hinput
              exact ⟨hmine.of_sameChain htells.queried.toSameChain,
                htrusted.of_alike htells.queried.toAlike⟩

/-- **`CachedTxIsTrusted` decides trust.** -/
theorem tells_cachedTxIsTrusted (n : Nat) {trusted_parents : List Uint256}
    (hparents : ∀ t ∈ trusted_parents, Trusted env w t)
    {r : (Bool × List Uint256) × CWallet hash160}
    (h : cachedTxIsTrusted env n w trusted_parents txid = .ok r) :
    Tells env w (Trusted env w txid) r := by
  induction n generalizing w trusted_parents txid r with
  | zero => cases h
  | succ n ih =>
    rw [cachedTxIsTrusted] at h
    cases hlookup : w.mapWallet.lookup txid with
    | none =>
      rw [hlookup] at h
      cases h
    | some wtx =>
      rw [hlookup] at h
      dsimp only at h
      rw [trusted_iff hlookup]
      split_ifs at h with hconfirmed hconflicted hzeroConf
      · obtain rfl := Except.ok.inj h
        exact ⟨by simp [hconfirmed], hparents, .refl env w⟩
      · obtain rfl := Except.ok.inj h
        refine ⟨⟨Bool.noConfusion, ?_⟩, hparents, .refl env w⟩
        rintro (hdepth | ⟨hdepth, -⟩) <;> omega
      · obtain rfl := Except.ok.inj h
        refine ⟨⟨Bool.noConfusion, ?_⟩, hparents, .refl env w⟩
        rintro (hdepth | ⟨-, hallowed, -⟩)
        · exact absurd hdepth hconfirmed
        · rw [hallowed] at hzeroConf
          cases hzeroConf
      · have hdepth : w.getTxDepthInMainChain wtx = 0 := by omega
        obtain ⟨⟨debit, w₁⟩, hdebit, h⟩ := bind_eq_ok.mp h
        obtain ⟨_, hfound, hanswer, hqueried⟩ :=
          queried_withTx (fun _ _ => remembers_cachedTxGetDebit) hdebit
        rw [hlookup] at hfound
        obtain rfl := Option.some.inj hfound
        have hfrom : FromMe env w wtx ↔ debit > 0 := by
          constructor
          · rintro ⟨debit', hpos, hdebit'⟩
            rw [hanswer] at hdebit'
            have hsame : debit = debit' := Except.ok.inj hdebit'
            exact hsame ▸ hpos
          · intro hpos
            exact ⟨debit, hpos, hanswer⟩
        dsimp only at h
        split_ifs at h with hnot
        · obtain rfl := Except.ok.inj h
          refine ⟨⟨Bool.noConfusion, ?_⟩, fun t ht => hparents t ht, hqueried⟩
          rintro (hdepth | ⟨-, -, hmempool, hme, -⟩)
          · exact absurd hdepth hconfirmed
          · rcases hnot with hdebit | hout
            · exact absurd (hfrom.mp hme) (by omega)
            · rw [hmempool] at hout
              cases hout
        · push Not at hnot
          have hmemo : ∀ t ∈ trusted_parents, Trusted env w₁ t := fun t ht =>
            (hparents t ht).of_alike hqueried.toAlike
          refine (tells_inputsTrusted (fun _ _ _ _ hparents h => ih hparents h) hmemo h).of_queried
            hqueried ?_
          have hback := hqueried.toAlike.symm
          constructor
          · intro hinputs
            refine .inr ⟨hdepth, by simpa using hzeroConf, by simpa using hnot.2, hfrom.mpr hnot.1, ?_⟩
            intro txin htxin
            obtain ⟨hmine, htrusted⟩ := hinputs txin htxin
            exact ⟨hmine.of_sameChain hback.toSameChain, htrusted.of_alike hback⟩
          · rintro (hdepth | ⟨-, -, -, -, hinputs⟩) txin htxin
            · exact absurd hdepth hconfirmed
            · obtain ⟨hmine, htrusted⟩ := hinputs txin htxin
              exact ⟨hmine.of_sameChain hqueried.toSameChain, htrusted.of_alike hqueried.toAlike⟩

def Counted (env : WalletEnv 𝔾) (w : CWallet hash160) (txid : Uint256) : Prop :=
  Trusted env w txid ∧
    ∃ wtx, w.mapWallet.lookup txid = some wtx ∧ w.isTxImmatureCoinBase wtx = .ok false

theorem Counted.of_alike (h : Alike env w w') (hcounted : Counted env w txid) :
    Counted env w' txid := by
  obtain ⟨htrusted, wtx, hlookup, hmature⟩ := hcounted
  obtain ⟨wtx', hlookup', htx, hstate⟩ := h.exists_tx hlookup
  exact ⟨htrusted.of_alike h, wtx', hlookup', (h.isTxImmatureCoinBase htx hstate).trans hmature⟩

/-- The depth that is asked for in addition follows from trust. -/
theorem Trusted.depth_ge (htrusted : Trusted env w txid)
    (hlookup : w.mapWallet.lookup txid = some wtx) {debit : Int}
    (hdebit : (cachedTxGetDebit env w wtx ISMINE_ALL).map Prod.fst = .ok debit) :
    w.getTxDepthInMainChain wtx ≥ if debit > 0 then 0 else 1 := by
  rcases (trusted_iff hlookup).mp htrusted with hdepth | ⟨hdepth, -, -, ⟨debit', hpos, hdebit'⟩, -⟩
  · split_ifs
    · omega
    · exact hdepth
  · have hsame : debit = debit' := Except.ok.inj (hdebit.symm.trans hdebit')
    rw [if_pos (hsame ▸ hpos), hdepth]

theorem tells_countsForAddresses {trusted_parents : List Uint256}
    (hparents : ∀ t ∈ trusted_parents, Trusted env w t)
    {r : (Bool × List Uint256) × CWallet hash160}
    (h : countsForAddresses env w trusted_parents txid = .ok r) :
    Tells env w (Counted env w txid) r := by
  obtain ⟨⟨⟨is_trusted, memo⟩, w₁⟩, htrust, h⟩ := bind_eq_ok.mp h
  have htells := tells_cachedTxIsTrusted _ hparents htrust
  refine Tells.of_queried htells.queried
    ⟨fun hcounted => hcounted.of_alike htells.queried.toAlike.symm,
      fun hcounted => hcounted.of_alike htells.queried.toAlike⟩ ?_
  have hmemo : ∀ t ∈ memo, Trusted env w₁ t := fun t ht =>
    (htells.parents t ht).of_alike htells.queried.toAlike
  have hanswer : is_trusted = true ↔ Trusted env w₁ txid := htells.answer.trans
    ⟨fun htrusted => htrusted.of_alike htells.queried.toAlike,
      fun htrusted => htrusted.of_alike htells.queried.toAlike.symm⟩
  dsimp only at h
  split_ifs at h with hnot
  · obtain rfl := Except.ok.inj h
    refine ⟨⟨Bool.noConfusion, ?_⟩, hmemo, .refl env w₁⟩
    rintro ⟨htrusted, -⟩
    rw [hanswer.mpr htrusted] at hnot
    cases hnot
  · have htrusted : Trusted env w₁ txid := hanswer.mp (by simpa using hnot)
    obtain ⟨⟨immature, nDepth⟩, hlook, h⟩ := bind_eq_ok.mp h
    unfold lookTx at hlook
    cases hlookup : w₁.mapWallet.lookup txid with
    | none =>
      rw [hlookup] at hlook
      cases hlook
    | some wtx =>
      rw [hlookup] at hlook
      obtain ⟨flag, hflag, hpair⟩ := bind_eq_ok.mp hlook
      obtain ⟨rfl, rfl⟩ := Prod.mk.inj (Except.ok.inj hpair)
      have hcounted : Counted env w₁ txid ↔ flag = false := by
        constructor
        · rintro ⟨-, _, hfound, hmature⟩
          rw [hlookup] at hfound
          obtain rfl := Option.some.inj hfound
          exact Except.ok.inj (hflag.symm.trans hmature)
        · intro hfalse
          exact ⟨htrusted, wtx, hlookup, hfalse ▸ hflag⟩
      rw [hcounted]
      dsimp only at h
      split_ifs at h with himmature
      · obtain rfl := Except.ok.inj h
        exact ⟨by simp [himmature], hmemo, .refl env w₁⟩
      · obtain ⟨⟨debit, w₂⟩, hdebit, h⟩ := bind_eq_ok.mp h
        obtain rfl := Except.ok.inj h
        obtain ⟨_, hfound, hvalue, hqueried⟩ :=
          queried_withTx (fun _ _ => remembers_cachedTxGetDebit) hdebit
        rw [hlookup] at hfound
        obtain rfl := Option.some.inj hfound
        refine ⟨?_, hmemo, hqueried⟩
        have hdepth := htrusted.depth_ge hlookup hvalue
        dsimp only at hdepth ⊢
        rw [decide_eq_true_iff]
        exact ⟨fun _ => by simpa using himmature, fun _ => hdepth⟩

end Trust

/-! ### Address balances -/

section Addresses

variable {𝔾 : Type} {hash160 : Bytes → Bytes} {env : WalletEnv 𝔾} {w w' : CWallet hash160}

theorem SameTxs.addressEntries (h : SameTxs w w') (txid : Uint256) :
    addressEntries env w' txid = addressEntries env w txid := by
  unfold WalletCache.addressEntries
  cases hlookup : w.mapWallet.lookup txid with
  | none => rw [h.lookup_eq_none hlookup]
  | some wtx =>
    obtain ⟨wtx', hlookup', htx, -⟩ := h.exists_tx hlookup
    rw [hlookup']
    dsimp only
    rw [htx]
    congr 1
    funext output
    unfold addressEntry
    rw [h.isMine, h.unblinded, h.isSpent]

open Classical in
noncomputable def paid (env : WalletEnv 𝔾) (w : CWallet hash160) (order : List Uint256) :
    List (CTxDestination × Int) :=
  (order.filter fun txid => Counted env w txid).flatMap (addressEntries env w)

theorem Queried.paid (h : Queried env w w') (order : List Uint256) :
    paid env w' order = paid env w order := by
  classical
  unfold WalletCache.paid
  have hentries : addressEntries env w' = addressEntries env w := funext fun txid =>
    h.toSameTxs.addressEntries txid
  have hcounted : ∀ txid, Counted env w' txid ↔ Counted env w txid := fun txid =>
    ⟨fun hcounted => hcounted.of_alike h.toAlike.symm, fun hcounted => hcounted.of_alike h.toAlike⟩
  rw [hentries]
  simp only [hcounted]

theorem foldlM_addTxAddresses {order : List Uint256}
    {acc r : (Map CTxDestination Int × List Uint256) × CWallet hash160}
    (hparents : ∀ t ∈ acc.1.2, Trusted env acc.2 t)
    (h : order.foldlM (addTxAddresses env) acc = .ok r) :
    r.1.1 = (paid env acc.2 order).foldl addAt acc.1.1 := by
  induction order generalizing acc with
  | nil =>
    obtain rfl := Except.ok.inj h
    rfl
  | cons txid order ih =>
    obtain ⟨⟨balances, trusted_parents⟩, w⟩ := acc
    rw [List.foldlM_cons] at h
    obtain ⟨acc₁, hstep, h⟩ := bind_eq_ok.mp h
    obtain ⟨⟨⟨counted, memo⟩, w₁⟩, hcall, hstep⟩ := bind_eq_ok.mp hstep
    have htells := tells_countsForAddresses hparents hcall
    have hmemo : ∀ t ∈ memo, Trusted env w₁ t := fun t ht =>
      (htells.parents t ht).of_alike htells.queried.toAlike
    have hanswer : counted = true ↔ Counted env w txid := htells.answer
    have hpaid := htells.queried.paid order
    dsimp only at hstep hpaid
    split_ifs at hstep with hcounted
    · obtain rfl := Except.ok.inj hstep
      rw [ih hmemo h]
      dsimp only
      rw [hpaid, paid, paid, List.filter_cons_of_pos (by simpa using hanswer.mp hcounted),
        List.flatMap_cons, List.foldl_append,
        show addressEntries env w₁ txid = _ from htells.queried.toSameTxs.addressEntries txid]
    · obtain rfl := Except.ok.inj hstep
      rw [ih hmemo h]
      dsimp only
      rw [hpaid, paid, paid, List.filter_cons_of_neg (by simpa using mt hanswer.mpr hcounted)]

/-- **The balance of an address is the sum of what is paid to it.** -/
theorem getAddressBalances_eq {order : List Uint256} {balances : Map CTxDestination Int}
    (h : getAddressBalances env w order = .ok (balances, w')) :
    balances = (paid env w order).foldl addAt ∅ := by
  obtain ⟨⟨⟨balances', memo⟩, w₁⟩, hloop, h⟩ := bind_eq_ok.mp h
  obtain ⟨rfl, rfl⟩ := Prod.mk.inj (Except.ok.inj h)
  exact foldlM_addTxAddresses (by simp) hloop

end Addresses

end Rcpu.WalletCache
