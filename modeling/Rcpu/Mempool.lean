import Rcpu.AncestorClosure
import Rcpu.Supply

/-!
# The mempool's view of the coins

`CCoinsViewMemPool` of `txmempool.cpp` answers from the raw outputs of mempool transactions before
it asks the confirmed view.  It neither hides coins that mempool transactions spend nor the
outputs that `AddCoin` drops, so it can offer a coin that no block could spend.  The results below
say exactly when a transaction accepted on this view is also accepted on the UTXO set a block
builds: the confirmed set with the mempool ancestors of the transaction applied to it.
-/

namespace Rcpu.Mempool

open Checks AncestorClosure Confidential Transaction TxCheck ConfidentialValidation Script Coins
  TxVerify Validation

/-- The height that stands for unconfirmed coins. -/
def MEMPOOL_HEIGHT : Nat := 0x7FFFFFFF

/-! ### The view -/

structure CTxMemPool (getHash : CTransaction → Uint256) where
  txs : List CTransaction
  txid_nodup : (txs.map getHash).Nodup

namespace CTxMemPool

variable {getHash : CTransaction → Uint256}

def get (mempool : CTxMemPool getHash) (txid : Uint256) : Option CTransaction :=
  mempool.txs.find? fun tx => getHash tx = txid

theorem get_eq_some {mempool : CTxMemPool getHash} {txid : Uint256} {tx : CTransaction} :
    mempool.get txid = some tx ↔ tx ∈ mempool.txs ∧ getHash tx = txid := by
  constructor
  · intro h
    exact ⟨List.mem_of_find?_eq_some h, by simpa using List.find?_some h⟩
  · rintro ⟨hmem, rfl⟩
    cases hget : mempool.get (getHash tx) with
    | none => simpa using List.find?_eq_none.mp hget tx hmem
    | some tx' =>
      have hhash : getHash tx' = getHash tx := by simpa using List.find?_some hget
      rw [List.inj_on_of_nodup_map mempool.txid_nodup (List.mem_of_find?_eq_some hget) hmem hhash]

end CTxMemPool

structure CCoinsViewMemPool (getHash : CTransaction → Uint256) where
  base : COutPoint → Option Coin
  mempool : CTxMemPool getHash
  /-- `m_temp_added`: coins of transactions under package validation. -/
  tempAdded : COutPoint → Option Coin

namespace CCoinsViewMemPool

variable {getHash : CTransaction → Uint256}

def getCoin (view : CCoinsViewMemPool getHash) (outpoint : COutPoint) : Option Coin :=
  match view.tempAdded outpoint with
  | some coin => some coin
  | none =>
    match view.mempool.get outpoint.hash with
    | some ptx => (ptx.vout[outpoint.n.toNat]?).map fun out => .ofOut out MEMPOOL_HEIGHT false
    | none => view.base outpoint

end CCoinsViewMemPool

/-- The cache that validation puts on top of a view: a null coin counts as spent. -/
def cached (getCoin : COutPoint → Option Coin) (outpoint : COutPoint) : Option Coin :=
  (getCoin outpoint).filter fun coin => !decide coin.IsSpent

/-- `CCoinsViewMemPool(U, M)` under the cache that `CheckTxInputs` reads. -/
def mempoolCoin {getHash : CTransaction → Uint256} (view : CCoinsView)
    (mempool : CTxMemPool getHash) : COutPoint → Option Coin :=
  cached (CCoinsViewMemPool.getCoin ⟨view.getCoin, mempool, fun _ => none⟩)

/-! ### Applying transactions -/

section Apply

variable (getHash : CTransaction → Uint256) (nHeight : Nat)

def applyAll (view : CCoinsView) (txs : List CTransaction) :
    Except (Failure TxValidationResult) CCoinsView :=
  txs.foldlM (fun view tx => (updateCoins getHash view tx nHeight).map Prod.fst) view

/-- The child has an input that names the parent, the relation `GetParents` follows. -/
def IsParent (parent child : CTransaction) : Prop :=
  ∃ txin ∈ child.vin, txin.prevout.hash = getHash parent

instance : DecidableRel (IsParent getHash) :=
  fun _ child => inferInstanceAs (Decidable (∃ txin ∈ child.vin, _))

def Spends (txs : List CTransaction) (o : COutPoint) : Prop :=
  ∃ tx ∈ txs, ∃ txin ∈ tx.vin, txin.prevout = o

instance (txs : List CTransaction) (o : COutPoint) : Decidable (Spends txs o) :=
  inferInstanceAs (Decidable (∃ tx ∈ txs, ∃ txin ∈ tx.vin, _))

def Creates (txs : List CTransaction) (o : COutPoint) (out : CTxOut) : Prop :=
  ∃ tx ∈ txs, getHash tx = o.hash ∧ tx.vout[o.n.toNat]? = some out

/-- Transactions a block may carry on top of a view: each checked, with distinct hashes, parents
first, and with no output that the view already holds. -/
structure Fresh (view : CCoinsView) (txs : List CTransaction) : Prop where
  checked : ∀ tx ∈ txs, Checked tx
  not_coinbase : ∀ tx ∈ txs, ¬ tx.IsCoinBase
  txid_nodup : (txs.map getHash).Nodup
  topological : Topological (IsParent getHash) txs
  bip30 : ∀ tx ∈ txs, ∀ o < tx.vout.length,
    view.haveCoin ⟨getHash tx, UInt32.ofNat o⟩ = false

variable {getHash nHeight}

theorem Fresh.sublist {view : CCoinsView} {txs txs' : List CTransaction}
    (h : Fresh getHash view txs) (hsub : txs'.Sublist txs) : Fresh getHash view txs' where
  checked tx hmem := h.checked tx (hsub.subset hmem)
  not_coinbase tx hmem := h.not_coinbase tx (hsub.subset hmem)
  txid_nodup := h.txid_nodup.sublist (hsub.map getHash)
  topological := h.topological.sublist hsub
  bip30 tx hmem := h.bip30 tx (hsub.subset hmem)

theorem Fresh.getCoin_eq_none {view : CCoinsView} {txs : List CTransaction}
    (h : Fresh getHash view txs) {o : COutPoint} {out : CTxOut} (hc : Creates getHash txs o out) :
    view.getCoin o = none := by
  obtain ⟨tx, hmem, hhash, hout⟩ := hc
  exact getCoin_eq_none_of_bip30 (h.bip30 tx hmem) hhash.symm (List.getElem?_eq_some_iff.mp hout).1

theorem Fresh.hash_ne_last {view : CCoinsView} {txs : List CTransaction} {tx : CTransaction}
    (h : Fresh getHash view (txs ++ [tx])) {tx' : CTransaction} (hmem : tx' ∈ txs) :
    getHash tx' ≠ getHash tx := by
  have hnodup := h.txid_nodup
  rw [List.map_append, List.map_singleton, List.nodup_append] at hnodup
  exact hnodup.2.2 _ (List.mem_map_of_mem hmem) _ (List.mem_singleton.mpr rfl)

theorem applyAll_concat_eq_ok {view view' : CCoinsView} {txs : List CTransaction}
    {tx : CTransaction} :
    applyAll getHash nHeight view (txs ++ [tx]) = .ok view' ↔
      ∃ mid, applyAll getHash nHeight view txs = .ok mid ∧
        ∃ undo, updateCoins getHash mid tx nHeight =
          (.ok (view', undo) : Except (Failure TxValidationResult) _) := by
  simp only [applyAll, foldlM_concat_eq_ok, map_eq_ok, Prod.exists]
  refine exists_congr fun mid => and_congr_right fun _ => ⟨?_, ?_⟩
  · rintro ⟨_, undo, h, rfl⟩
    exact ⟨undo, h⟩
  · rintro ⟨undo, h⟩
    exact ⟨view', undo, h, rfl⟩

variable (getHash nHeight) in
/-- The coins after a list of transactions: created or confirmed, and spent by none of them. -/
def IsUnspent (view : CCoinsView) (txs : List CTransaction) (o : COutPoint) (c : Coin) : Prop :=
  ¬ Spends txs o ∧
    ((∃ out, Creates getHash txs o out ∧ ¬ Coin.IsDropped out ∧ .ofOut out nHeight false = c) ∨
      ((∀ out, ¬ Creates getHash txs o out) ∧ view.getCoin o = some c))

theorem spends_concat {txs : List CTransaction} {tx : CTransaction} {o : COutPoint} :
    Spends (txs ++ [tx]) o ↔ Spends txs o ∨ o ∈ tx.vin.map CTxIn.prevout := by
  simp [Spends, or_and_right, exists_or]

theorem creates_concat {txs : List CTransaction} {tx : CTransaction} {o : COutPoint}
    {out : CTxOut} :
    Creates getHash (txs ++ [tx]) o out ↔
      Creates getHash txs o out ∨ (getHash tx = o.hash ∧ tx.vout[o.n.toNat]? = some out) := by
  simp [Creates, or_and_right, exists_or]

theorem createdCoin_eq_some_iff {tx : CTransaction} (hchecked : Checked tx) (hcb : ¬ tx.IsCoinBase)
    {o : COutPoint} {c : Coin} :
    CCoinsView.createdCoin (getHash tx) tx nHeight o = some c ↔
      ∃ out, (getHash tx = o.hash ∧ tx.vout[o.n.toNat]? = some out) ∧ ¬ Coin.IsDropped out ∧
        .ofOut out nHeight false = c := by
  rw [CCoinsView.createdCoin_eq_some]
  simp only [hcb, decide_false]
  constructor
  · rintro ⟨hhash, out, hout, hstored, hc⟩
    exact ⟨out, ⟨hhash.symm, hout⟩, hstored.2, hc⟩
  · rintro ⟨out, ⟨hhash, hout⟩, hdrop, hc⟩
    exact ⟨hhash.symm, out, hout,
      (CCoinsView.isStored_iff hchecked (List.mem_of_getElem? hout)).mpr hdrop, hc⟩

/-- One `UpdateCoins` carries the description of the view from a list to its extension. -/
theorem getCoin_step {view mid view' : CCoinsView} {txs : List CTransaction} {tx : CTransaction}
    {undo : CTxUndo} (hfresh : Fresh getHash view (txs ++ [tx]))
    (hmid : ∀ o c, mid.getCoin o = some c ↔ IsUnspent getHash nHeight view txs o c)
    (hstep : updateCoins getHash mid tx nHeight =
      (.ok (view', undo) : Except (Failure TxValidationResult) _)) (o : COutPoint) (c : Coin) :
    view'.getCoin o = some c ↔ IsUnspent getHash nHeight view (txs ++ [tx]) o c := by
  have hlast : tx ∈ txs ++ [tx] := List.mem_append_right txs (List.mem_singleton.mpr rfl)
  have hchecked := hfresh.checked tx hlast
  have hcb := hfresh.not_coinbase tx hlast
  obtain ⟨-, hview'⟩ := getCoin_updateCoins hchecked hcb hstep
  -- nothing in the extended list names an output of its last transaction
  have hnotspent : getHash tx = o.hash → ¬ Spends (txs ++ [tx]) o := by
    rintro hhash ⟨tx', hmem, txin, htxin, rfl⟩
    exact hfresh.topological.not_parent_last hmem ⟨txin, htxin, hhash.symm⟩
  have hnotcreated : getHash tx = o.hash → ∀ out, ¬ Creates getHash txs o out := by
    rintro hhash out ⟨tx', hmem, hhash', -⟩
    exact hfresh.hash_ne_last hmem (hhash'.trans hhash.symm)
  rw [hview', Option.or_eq_some_iff]
  simp only [createdCoin_eq_some_iff hchecked hcb, Option.ite_none_left_eq_some, hmid, IsUnspent]
  constructor
  · rintro (⟨out, hout, hdrop, hc⟩ | ⟨hnone, hnotin, hspent, hcase⟩)
    · exact ⟨hnotspent hout.1, .inl ⟨out, creates_concat.mpr (.inr hout), hdrop, hc⟩⟩
    · refine ⟨fun hs => (spends_concat.mp hs).elim hspent hnotin, ?_⟩
      rcases hcase with ⟨out, hout, hdrop, hc⟩ | ⟨hno, hc⟩
      · exact .inl ⟨out, creates_concat.mpr (.inl hout), hdrop, hc⟩
      · refine .inr ⟨fun out hout => ?_, hc⟩
        rw [hfresh.getCoin_eq_none hout] at hc
        simp at hc
  · rintro ⟨hspent, hcase⟩
    rw [spends_concat, not_or] at hspent
    have hnone : (∀ out, ¬ (getHash tx = o.hash ∧ tx.vout[o.n.toNat]? = some out)) →
        CCoinsView.createdCoin (getHash tx) tx nHeight o = none := by
      intro hno
      refine Option.eq_none_iff_forall_ne_some.mpr fun c' hc' => ?_
      obtain ⟨out, hout, -⟩ := (createdCoin_eq_some_iff hchecked hcb).mp hc'
      exact hno out hout
    rcases hcase with ⟨out, hout, hdrop, hc⟩ | ⟨hno, hc⟩
    · rcases creates_concat.mp hout with hout | hout
      · refine .inr ⟨hnone fun out' hout' => hnotcreated hout'.1 out hout, hspent.2, hspent.1, ?_⟩
        exact .inl ⟨out, hout, hdrop, hc⟩
      · exact .inl ⟨out, hout, hdrop, hc⟩
    · refine .inr ⟨hnone fun out hout => hno out (creates_concat.mpr (.inr hout)), hspent.2,
        hspent.1, .inr ⟨fun out hout => hno out (creates_concat.mpr (.inl hout)), hc⟩⟩

/-- **The view after a list of fresh transactions**, by induction on the list from its end. -/
theorem getCoin_applyAll {view view' : CCoinsView} {txs : List CTransaction}
    (hfresh : Fresh getHash view txs) (h : applyAll getHash nHeight view txs = .ok view')
    (o : COutPoint) (c : Coin) :
    view'.getCoin o = some c ↔ IsUnspent getHash nHeight view txs o c := by
  induction txs using List.reverseRecOn generalizing view' o c with
  | nil =>
    obtain rfl := pure_eq_ok.mp h
    simp [IsUnspent, Spends, Creates]
  | append_singleton txs tx ih =>
    obtain ⟨mid, hmid, undo, hstep⟩ := applyAll_concat_eq_ok.mp h
    have hsub := hfresh.sublist (List.sublist_append_left txs [tx])
    exact getCoin_step hfresh (fun o c => ih hsub hmid o c) hstep o c

/-- A step that succeeds after a list also succeeds after a part of it that keeps the parents. -/
theorem exists_updateCoins_of_sublist {view mid view' part : CCoinsView}
    {txs kept : List CTransaction} {tx : CTransaction} {undo : CTxUndo}
    (hfresh : Fresh getHash view (txs ++ [tx])) (hsub : kept.Sublist txs)
    (hparents : ∀ tx' ∈ txs, IsParent getHash tx' tx → tx' ∈ kept)
    (hmid : applyAll getHash nHeight view txs = .ok mid)
    (hpart : applyAll getHash nHeight view kept = .ok part)
    (hstep : updateCoins getHash mid tx nHeight =
      (.ok (view', undo) : Except (Failure TxValidationResult) _)) :
    ∃ part' undo', updateCoins getHash part tx nHeight =
      (.ok (part', undo') : Except (Failure TxValidationResult) _) := by
  have hlast : tx ∈ txs ++ [tx] := List.mem_append_right txs (List.mem_singleton.mpr rfl)
  have hchecked := hfresh.checked tx hlast
  have hcb := hfresh.not_coinbase tx hlast
  have hfreshTxs := hfresh.sublist (List.sublist_append_left txs [tx])
  have hgetPart := getCoin_applyAll (hfreshTxs.sublist hsub) hpart
  apply exists_updateCoins_eq_ok hchecked hcb
  · intro txin htxin
    have hin : (mid.getCoin txin.prevout).isSome := by
      have hmap := (getCoin_updateCoins hchecked hcb hstep).1
      have hmem := List.mem_map_of_mem (f := fun txin => mid.getCoin txin.prevout) htxin
      rw [hmap] at hmem
      obtain ⟨coin, -, hcoin⟩ := List.mem_map.mp hmem
      simp [← hcoin]
    obtain ⟨c, hc⟩ := Option.isSome_iff_exists.mp hin
    obtain ⟨hspent, hcase⟩ := (getCoin_applyAll hfreshTxs hmid _ _).mp hc
    refine Option.isSome_iff_exists.mpr ⟨c, (hgetPart _ _).mpr ⟨?_, ?_⟩⟩
    · rintro ⟨tx', hmem, hspends⟩
      exact hspent ⟨tx', hsub.subset hmem, hspends⟩
    · rcases hcase with ⟨out, ⟨tx', hmem, hhash, hout⟩, hdrop, hc⟩ | ⟨hno, hc⟩
      · have hkept : tx' ∈ kept := hparents tx' hmem ⟨txin, htxin, hhash.symm⟩
        exact .inl ⟨out, ⟨tx', hkept, hhash, hout⟩, hdrop, hc⟩
      · refine .inr ⟨?_, hc⟩
        rintro out ⟨tx', hmem, hout⟩
        exact hno out ⟨tx', hsub.subset hmem, hout⟩
  · intro o ho
    obtain ⟨c, hc⟩ := Option.isSome_iff_exists.mp ho
    obtain ⟨out, hout, -⟩ := (createdCoin_eq_some_iff hchecked hcb).mp hc
    refine Option.eq_none_iff_forall_ne_some.mpr fun c' hc' => ?_
    rcases ((hgetPart o c').mp hc').2 with ⟨_, ⟨tx', hmem, hhash, -⟩, -⟩ | ⟨-, hview⟩
    · exact hfresh.hash_ne_last (hsub.subset hmem) (hhash.trans hout.1.symm)
    · rw [hfresh.getCoin_eq_none (creates_concat.mpr (.inr hout))] at hview
      simp at hview

/-- **A part that keeps the parents can be applied alone**, by induction on the whole list. -/
theorem exists_applyAll_of_sublist {view view' : CCoinsView} {txs kept : List CTransaction}
    (hfresh : Fresh getHash view txs) (hsub : kept.Sublist txs)
    (hparents : ∀ tx ∈ kept, ∀ tx' ∈ txs, IsParent getHash tx' tx → tx' ∈ kept)
    (h : applyAll getHash nHeight view txs = .ok view') :
    ∃ part, applyAll getHash nHeight view kept = .ok part := by
  induction txs using List.reverseRecOn generalizing view' kept with
  | nil =>
    obtain rfl := List.sublist_nil.mp hsub
    exact ⟨view, rfl⟩
  | append_singleton txs tx ih =>
    obtain ⟨mid, hmid, undo, hstep⟩ := applyAll_concat_eq_ok.mp h
    obtain ⟨kept, last, rfl, hkept, hlast⟩ := List.sublist_append_iff.mp hsub
    have hfreshTxs := hfresh.sublist (List.sublist_append_left txs [tx])
    have hmem_kept : ∀ tx' ∈ txs, tx' ∈ kept ++ last → tx' ∈ kept := by
      intro tx' hmem hmem'
      rcases List.mem_append.mp hmem' with hk | hl
      · exact hk
      · have heq := List.mem_singleton.mp (hlast.subset hl)
        exact absurd (congrArg getHash heq) (hfresh.hash_ne_last hmem)
    have hclosed : ∀ tx₁ ∈ kept ++ last, ∀ tx₂ ∈ txs, IsParent getHash tx₂ tx₁ → tx₂ ∈ kept :=
      fun tx₁ h₁ tx₂ h₂ hp =>
        hmem_kept tx₂ h₂ (hparents tx₁ h₁ tx₂ (List.mem_append_left [tx] h₂) hp)
    obtain ⟨part, hpart⟩ := ih hfreshTxs hkept
      (fun tx₁ h₁ => hclosed tx₁ (List.mem_append_left last h₁)) hmid
    rcases List.sublist_singleton.mp hlast with rfl | rfl
    · exact ⟨part, by rwa [List.append_nil]⟩
    · obtain ⟨part', undo', hpart'⟩ := exists_updateCoins_of_sublist hfresh hkept
        (hclosed tx (List.mem_append_right kept (List.mem_singleton.mpr rfl))) hmid hpart hstep
      exact ⟨part', applyAll_concat_eq_ok.mpr ⟨part, hpart, undo', hpart'⟩⟩

end Apply

/-! ### The mempool view against the view of a block -/

section View

variable {getHash : CTransaction → Uint256} {mempool : CTxMemPool getHash} {view : CCoinsView}
  {nSpendHeight : Nat} {tx : CTransaction}

theorem mempoolCoin_eq_some {o : COutPoint} {c : Coin} (h : mempoolCoin view mempool o = some c) :
    (∃ out, Creates getHash mempool.txs o out ∧ .ofOut out MEMPOOL_HEIGHT false = c) ∨
      ((∀ out, ¬ Creates getHash mempool.txs o out) ∧ view.getCoin o = some c) := by
  obtain ⟨hc, -⟩ := Option.filter_eq_some_iff.mp h
  simp only [CCoinsViewMemPool.getCoin] at hc
  cases hget : mempool.get o.hash with
  | none =>
    rw [hget] at hc
    refine .inr ⟨?_, hc⟩
    rintro out ⟨tx, hmem, hhash, -⟩
    simp [CTxMemPool.get_eq_some.mpr ⟨hmem, hhash⟩] at hget
  | some ptx =>
    rw [hget] at hc
    obtain ⟨out, hout, hc⟩ := Option.map_eq_some_iff.mp hc
    obtain ⟨hmem, hhash⟩ := CTxMemPool.get_eq_some.mp hget
    exact .inl ⟨out, ⟨ptx, hmem, hhash, hout⟩, hc⟩

def memPoolAncestors (mempool : CTxMemPool getHash) (tx : CTransaction) : List CTransaction :=
  ancestors (IsParent getHash) mempool.txs tx

theorem memPoolAncestors_sublist (mempool : CTxMemPool getHash) (tx : CTransaction) :
    (memPoolAncestors mempool tx).Sublist mempool.txs := ancestors_sublist mempool.txs tx

theorem creates_memPoolAncestors (htopo : Topological (IsParent getHash) mempool.txs)
    {txin : CTxIn} (hmem : txin ∈ tx.vin) {out : CTxOut} :
    Creates getHash (memPoolAncestors mempool tx) txin.prevout out ↔
      Creates getHash mempool.txs txin.prevout out := by
  constructor
  · rintro ⟨tx', hmem', hout⟩
    exact ⟨tx', (memPoolAncestors_sublist mempool tx).subset hmem', hout⟩
  · rintro ⟨tx', hmem', hhash, hout⟩
    exact ⟨tx', (mem_ancestors htopo).mpr (.parent hmem' ⟨txin, hmem, hhash.symm⟩), hhash, hout⟩

theorem exists_applyAll_memPoolAncestors {full : CCoinsView} (tx : CTransaction)
    (hfresh : Fresh getHash view mempool.txs)
    (hfull : applyAll getHash nSpendHeight view mempool.txs = .ok full) :
    ∃ part, applyAll getHash nSpendHeight view (memPoolAncestors mempool tx) = .ok part := by
  refine exists_applyAll_of_sublist hfresh (memPoolAncestors_sublist mempool tx) ?_ hfull
  intro tx₁ h₁ tx₂ h₂ hp
  rw [memPoolAncestors, mem_ancestors hfresh.topological] at *
  exact .step h₁ h₂ hp

/-- No mempool ancestor spends the outpoint, and if it is a mempool output then `AddCoin` keeps
it. -/
def Minable (mempool : CTxMemPool getHash) (tx : CTransaction) (o : COutPoint) : Prop :=
  ¬ Spends (memPoolAncestors mempool tx) o ∧
    ∀ out, Creates getHash mempool.txs o out → ¬ Coin.IsDropped out

theorem creates_unique {o : COutPoint} {out out' : CTxOut}
    (h : Creates getHash mempool.txs o out) (h' : Creates getHash mempool.txs o out') :
    out = out' := by
  obtain ⟨tx, hmem, hhash, hout⟩ := h
  obtain ⟨tx', hmem', hhash', hout'⟩ := h'
  obtain rfl := List.inj_on_of_nodup_map mempool.txid_nodup hmem hmem' (hhash.trans hhash'.symm)
  simpa [hout] using hout'

section Input

variable {part : CCoinsView} {txin : CTxIn} {out : CTxOut}

theorem spentOutput_of_minable (hfresh : Fresh getHash view mempool.txs)
    (hpart : applyAll getHash nSpendHeight view (memPoolAncestors mempool tx) = .ok part)
    (hmem : txin ∈ tx.vin) (hmin : Minable mempool tx txin.prevout)
    (hspent : spentOutput (mempoolCoin view mempool) nSpendHeight txin = .ok out) :
    spentOutput part.getCoin nSpendHeight txin = .ok out := by
  obtain ⟨coin, hcoin, hmature, rfl⟩ := spentOutput_eq_ok.mp hspent
  have hget := getCoin_applyAll (hfresh.sublist (memPoolAncestors_sublist mempool tx)) hpart
  rcases mempoolCoin_eq_some hcoin with ⟨out, hcreates, rfl⟩ | ⟨hno, hbase⟩
  · refine spentOutput_eq_ok.mpr ⟨.ofOut out nSpendHeight false, ?_, by simp [Coin.ofOut], rfl⟩
    refine (hget _ _).mpr ⟨hmin.1, .inl ⟨out, ?_, hmin.2 out hcreates, rfl⟩⟩
    exact (creates_memPoolAncestors hfresh.topological hmem).mpr hcreates
  · refine spentOutput_eq_ok.mpr ⟨coin, (hget _ _).mpr ⟨hmin.1, .inr ⟨?_, hbase⟩⟩, hmature, rfl⟩
    exact fun out hout => hno out ((creates_memPoolAncestors hfresh.topological hmem).mp hout)

theorem minable_of_spentOutput (hfresh : Fresh getHash view mempool.txs)
    (hpart : applyAll getHash nSpendHeight view (memPoolAncestors mempool tx) = .ok part)
    (hmem : txin ∈ tx.vin) (hspent : spentOutput part.getCoin nSpendHeight txin = .ok out) :
    Minable mempool tx txin.prevout := by
  obtain ⟨coin, hcoin, -, -⟩ := spentOutput_eq_ok.mp hspent
  have hget := getCoin_applyAll (hfresh.sublist (memPoolAncestors_sublist mempool tx)) hpart
  obtain ⟨hnot, hcase⟩ := (hget _ _).mp hcoin
  refine ⟨hnot, fun out' hout' => ?_⟩
  rcases hcase with ⟨out, hout, hdrop, -⟩ | ⟨hno, -⟩
  · rw [creates_memPoolAncestors hfresh.topological hmem] at hout
    rwa [creates_unique hout' hout]
  · exact absurd ((creates_memPoolAncestors hfresh.topological hmem).mpr hout') (hno out')

end Input

section Accepted

variable {𝔾 : Type} [AddCommGroup 𝔾] [Module Scalar 𝔾] [DecidableEq 𝔾] {secp : Secp256k1 𝔾}
  {elementsMode : Bool} {params : ConsensusParams} {part : CCoinsView} {fee : Int}

/-- `CheckTxInputs` sees a view only through the outputs it finds for the inputs. -/
theorem checkTxInputs_of_spentOutput {getCoin getCoin' : COutPoint → Option Coin}
    (heq : ∀ txin ∈ tx.vin, ∀ out, spentOutput getCoin nSpendHeight txin = .ok out →
      spentOutput getCoin' nSpendHeight txin = .ok out)
    (h : checkTxInputs secp elementsMode params getCoin nSpendHeight tx = .ok fee) :
    checkTxInputs secp elementsMode params getCoin' nSpendHeight tx = .ok fee := by
  obtain ⟨hversion, hactive, -, prevouts, hprevouts, hbranch⟩ := checkTxInputs_eq_ok.mp h
  have hprevouts' : List.Forall₂ (fun txin out => spentOutput getCoin' nSpendHeight txin = .ok out)
      tx.vin prevouts :=
    ((List.forall₂_and_left _ _).mpr ⟨fun _ hmem => hmem, hprevouts⟩).imp
      fun txin out ⟨hmem, hout⟩ => heq txin hmem out hout
  refine checkTxInputs_eq_ok.mpr ⟨hversion, hactive, fun _ txin hmem => ?_, prevouts, hprevouts',
    hbranch⟩
  obtain ⟨out, hout⟩ := exists_of_forall₂ hprevouts' hmem
  obtain ⟨coin, hcoin, -⟩ := spentOutput_eq_ok.mp hout
  exact Option.isSome_iff_exists.mpr ⟨coin, hcoin⟩

/-- **When a block can carry what the mempool view accepts**: exactly when every input is
minable. -/
theorem checkTxInputs_memPoolAncestors_iff (hfresh : Fresh getHash view mempool.txs)
    (hpart : applyAll getHash nSpendHeight view (memPoolAncestors mempool tx) = .ok part)
    (haccept : checkTxInputs secp elementsMode params (mempoolCoin view mempool) nSpendHeight tx =
      .ok fee) :
    checkTxInputs secp elementsMode params part.getCoin nSpendHeight tx = .ok fee ↔
      ∀ txin ∈ tx.vin, Minable mempool tx txin.prevout := by
  constructor
  · intro h txin hmem
    obtain ⟨-, -, -, prevouts, hprevouts, -⟩ := checkTxInputs_eq_ok.mp h
    obtain ⟨out, hout⟩ := exists_of_forall₂ hprevouts hmem
    exact minable_of_spentOutput hfresh hpart hmem hout
  · intro hmin
    refine checkTxInputs_of_spentOutput (fun txin hmem out hout => ?_) haccept
    exact spentOutput_of_minable hfresh hpart hmem (hmin txin hmem) hout

end Accepted

end View

/-- **The mempool view is sound for transactions that do not conflict with their ancestors** and
name no dropped output: the ancestors can be applied to the confirmed coins, and `CheckTxInputs`
finds the same fee there. -/
theorem checkTxInputs_on_ancestors {𝔾 : Type} [AddCommGroup 𝔾] [Module Scalar 𝔾] [DecidableEq 𝔾]
    (secp : Secp256k1 𝔾) (elementsMode : Bool) (params : ConsensusParams)
    (getHash : CTransaction → Uint256) (view full : CCoinsView) (mempool : CTxMemPool getHash)
    (nSpendHeight : Nat) (tx : CTransaction) (fee : Int)
    (hfresh : Fresh getHash view mempool.txs)
    (hfull : applyAll getHash nSpendHeight view mempool.txs = .ok full)
    (haccept : checkTxInputs secp elementsMode params (mempoolCoin view mempool) nSpendHeight tx =
      .ok fee)
    (hspent : ∀ txin ∈ tx.vin, ¬ Spends (memPoolAncestors mempool tx) txin.prevout)
    (hkept : ∀ txin ∈ tx.vin, ∀ out, Creates getHash mempool.txs txin.prevout out →
      ¬ Coin.IsDropped out) :
    ∃ part, applyAll getHash nSpendHeight view (memPoolAncestors mempool tx) = .ok part ∧
      checkTxInputs secp elementsMode params part.getCoin nSpendHeight tx = .ok fee := by
  obtain ⟨part, hpart⟩ := exists_applyAll_memPoolAncestors tx hfresh hfull
  refine ⟨part, hpart, (checkTxInputs_memPoolAncestors_iff hfresh hpart haccept).mpr ?_⟩
  exact fun txin hmem => ⟨hspent txin hmem, hkept txin hmem⟩

/-! ### A parent and its children -/

def sampleHash (tx : CTransaction) : Uint256 := uint256S tx.nLockTime.toNat

def sampleTx (prevouts : List COutPoint) (out : CTxOut) (nLockTime : UInt32) : CTransaction where
  vin := prevouts.map fun prevout => ⟨prevout, [], CTxIn.SEQUENCE_FINAL, [], .null⟩
  vout := [out]
  nVersion := 2
  nLockTime := nLockTime

def sampleCoinOut : CTxOut := .ofAmount COIN [OP_TRUE]

def confirmedOutpoint : COutPoint := ⟨uint256S 10, 0⟩

def parentOutpoint : COutPoint := ⟨uint256S 1, 0⟩

def sampleConfirmed : CCoinsView :=
  CCoinsView.empty.insert confirmedOutpoint (Coin.ofOut sampleCoinOut 1 false) (by decide)

def mempoolOf (out : CTxOut) : CTxMemPool sampleHash :=
  ⟨[sampleTx [confirmedOutpoint] out 1], List.nodup_singleton _⟩

def sampleFull : CCoinsView :=
  (sampleConfirmed.erase confirmedOutpoint).insert parentOutpoint
    (Coin.ofOut sampleCoinOut 200 false) (by decide)

def sampleChild : CTransaction := sampleTx [parentOutpoint] sampleCoinOut 2

def conflictingChild : CTransaction := sampleTx [parentOutpoint, confirmedOutpoint] sampleCoinOut 3

def sampleParams : ConsensusParams := ⟨210000, 0, 0, uint256S 0, 1, uint256S 0⟩

theorem fresh_mempoolOf {out : CTxOut}
    (h : checkTransaction (sampleTx [confirmedOutpoint] out 1) = .ok ()) :
    Fresh sampleHash sampleConfirmed (mempoolOf out).txs where
  checked tx hmem := by
    obtain rfl := List.mem_singleton.mp hmem
    exact checked_of_checkTransaction h
  not_coinbase tx hmem := by
    obtain rfl := List.mem_singleton.mp hmem
    have hnull : ¬ confirmedOutpoint.IsNull := by decide
    rintro ⟨-, hall⟩
    exact hnull (hall _ List.mem_cons_self)
  txid_nodup := (mempoolOf out).txid_nodup
  topological := by
    refine ⟨List.pairwise_singleton _ _, fun tx hmem => ?_⟩
    obtain rfl := List.mem_singleton.mp hmem
    rintro ⟨txin, htxin, hhash⟩
    obtain rfl := List.mem_singleton.mp htxin
    exact absurd hhash (by decide : confirmedOutpoint.hash ≠ uint256S 1)
  bip30 tx hmem o ho := by
    obtain rfl := List.mem_singleton.mp hmem
    obtain rfl : o = 0 := Nat.lt_one_iff.mp ho
    rfl

theorem sampleChild_on_ancestors :
    ∃ part, applyAll sampleHash 200 sampleConfirmed
        (memPoolAncestors (mempoolOf sampleCoinOut) sampleChild) = .ok part ∧
      checkTxInputs Supply.idealSecp true sampleParams part.getCoin 200 sampleChild = .ok 0 := by
  refine checkTxInputs_on_ancestors Supply.idealSecp true sampleParams sampleHash sampleConfirmed
    sampleFull (mempoolOf sampleCoinOut) 200 sampleChild 0 (fresh_mempoolOf rfl) rfl rfl
    (by decide) ?_
  rintro txin htxin out ⟨tx, htx, -, hout⟩
  obtain rfl := List.mem_singleton.mp htxin
  obtain rfl := List.mem_singleton.mp htx
  obtain rfl : sampleCoinOut = out := Option.some.inj hout
  decide

/-- The mempool view accepts the transaction and a block has no coins for it. -/
def OfferedInVain (mempool : CTxMemPool sampleHash) (tx : CTransaction) : Prop :=
  Fresh sampleHash sampleConfirmed mempool.txs ∧
    (∃ full, applyAll sampleHash 200 sampleConfirmed mempool.txs = .ok full) ∧
    (∃ fee, checkTxInputs Supply.idealSecp true sampleParams
      (mempoolCoin sampleConfirmed mempool) 200 tx = .ok fee) ∧
    ∃ part, applyAll sampleHash 200 sampleConfirmed (memPoolAncestors mempool tx) = .ok part ∧
      checkTxInputs Supply.idealSecp true sampleParams part.getCoin 200 tx =
        .error (.invalid ⟨.TX_MISSING_INPUTS, "bad-txns-inputs-missingorspent",
          "CheckTxInputs: inputs missing/spent"⟩)

/-- A child that spends a coin again which its own parent spends, and a child that spends a
fee-shaped output of its parent. -/
theorem offeredInVain_conflicting_and_fee :
    OfferedInVain (mempoolOf sampleCoinOut) conflictingChild ∧
      OfferedInVain (mempoolOf (.ofAmount COIN [])) sampleChild :=
  ⟨⟨fresh_mempoolOf rfl, ⟨_, rfl⟩, ⟨_, rfl⟩, _, rfl, rfl⟩,
    ⟨fresh_mempoolOf rfl, ⟨_, rfl⟩, ⟨_, rfl⟩, _, rfl, rfl⟩⟩

end Rcpu.Mempool
