import Rcpu.Supply
import Rcpu.Undo

/-!
# Disconnecting blocks

`ApplyTxInUndo` and `Chainstate::DisconnectBlock` of `validation.cpp`.  Connecting goes through the
transactions forwards, spending inputs and then adding outputs; disconnecting goes through them
backwards, removing outputs and then restoring inputs from the undo data.  Each of the four loops
is the exact inverse of its counterpart on the views that connecting produces, and the results
below follow that structure: outputs, inputs, one transaction, all transactions, the block.
-/

namespace Rcpu.Disconnect

open Checks ByteStream Serialize Confidential Transaction TxCheck ConfidentialValidation Script
  Coins Validation Compressor Undo

/-! ### The code -/

inductive DisconnectResult where
  | DISCONNECT_OK
  | DISCONNECT_UNCLEAN
  | DISCONNECT_FAILED
deriving DecidableEq, Repr

/-- Returning `DISCONNECT_FAILED` with a message in the log; the view is then indeterminate. -/
def disconnectFailed (message : String) : Failure DisconnectResult :=
  .invalid ⟨.DISCONNECT_FAILED, message, ""⟩

structure DisconnectState where
  view : CCoinsView
  fClean : Bool

def MIN_TRANSACTION_OUTPUT_WEIGHT : Nat :=
  WITNESS_SCALE_FACTOR * (CTxOut.null.serialize false).length

def MAX_OUTPUTS_PER_BLOCK : Nat := MAX_BLOCK_WEIGHT / MIN_TRANSACTION_OUTPUT_WEIGHT

/-- `AccessByTxid`: the first unspent output of a transaction. -/
def accessByTxid (view : CCoinsView) (txid : Uint256) : Option Coin :=
  (List.range MAX_OUTPUTS_PER_BLOCK).findSome? fun n => view.getCoin ⟨txid, UInt32.ofNat n⟩

/-- Records without a height take it, and the coinbase flag, from another output. -/
def withMetadata (view : CCoinsView) (out : COutPoint) (undo : Coin) : Option Coin :=
  if undo.nHeight.val = 0 then
    (accessByTxid view out.hash).map fun alternate =>
      { undo with nHeight := alternate.nHeight, fCoinBase := alternate.fCoinBase }
  else some undo

/-- `ApplyTxInUndo`, on the state of the loop that calls it. -/
def applyTxInUndo (st : DisconnectState) (entry : CTxIn × Coin) :
    Except (Failure DisconnectResult) DisconnectState :=
  let out := entry.1.prevout
  let fClean := !st.view.haveCoin out
  match withMetadata st.view out entry.2 with
  | none => .error (disconnectFailed "")
  | some undo => do
    let view ← st.view.addCoin out undo (!fClean)
    return ⟨view, st.fClean && fClean⟩

def disconnectOutput (txid : Uint256) (tx : CTransaction) (nHeight : Nat) (isBIP30Exception : Bool)
    (st : DisconnectState) (entry : CTxOut × Nat) : DisconnectState :=
  let (out, o) := entry
  if IsUnspendable out.scriptPubKey ∨ out.IsFee then st
  else
    match st.view.spendCoin ⟨txid, UInt32.ofNat o⟩ with
    | none => ⟨st.view, st.fClean && isBIP30Exception⟩
    | some (coin, view) =>
      if out ≠ coin.out ∨ nHeight ≠ coin.nHeight.val ∨
          decide tx.IsCoinBase ≠ coin.fCoinBase then
        ⟨view, st.fClean && isBIP30Exception⟩
      else ⟨view, st.fClean⟩

def disconnectOutputs (txid : Uint256) (tx : CTransaction) (nHeight : Nat)
    (isBIP30Exception : Bool) (st : DisconnectState) : DisconnectState :=
  tx.vout.zipIdx.foldl (disconnectOutput txid tx nHeight isBIP30Exception) st

def restoreInputs (tx : CTransaction) (txundo : CTxUndo) (st : DisconnectState) :
    Except (Failure DisconnectResult) DisconnectState := do
  require (txundo.vprevout.length = tx.vin.length)
    (disconnectFailed "DisconnectBlock(): transaction and undo data inconsistent")
  (tx.vin.zip txundo.vprevout).reverse.foldlM applyTxInUndo st

/-- The two blocks whose coinbase a later block repeated. -/
def isBIP30Unspendable (pindex : CBlockIndex) : Bool :=
  (pindex.nHeight = 91722 ∧ pindex.hash =
    uint256S 0x00000000000271a2dc26e7667f8419f2e15416dc6955e5a6c6cdf3f2574dd08e) ∨
  (pindex.nHeight = 91812 ∧ pindex.hash =
    uint256S 0x00000000000af0aed4792b1acee3d966af36cf5def14935db8de83d6f9306f2f)

/-- One round of the transaction loop, for the transaction at index `i`. -/
def disconnectTx (getHash : CTransaction → Uint256) (pindex : CBlockIndex) (vtxundo : List CTxUndo)
    (st : DisconnectState) (entry : CTransaction × Nat) :
    Except (Failure DisconnectResult) DisconnectState :=
  let (tx, i) := entry
  let st := disconnectOutputs (getHash tx) tx pindex.nHeight
    (tx.IsCoinBase && isBIP30Unspendable pindex) st
  if i = 0 then .ok st
  else
    match vtxundo[i - 1]? with
    | none => .error (.assertion "blockUndo.vtxundo[i-1]")
    | some txundo => restoreInputs tx txundo st

/-- `Chainstate::DisconnectBlock`, with the bytes from the undo position of the block on. -/
def disconnectBlock (env : UndoEnv) (getHash : CTransaction → Uint256) (block : CBlock)
    (pindex : CBlockIndex) (file : Bytes) (view : CCoinsView) :
    Except (Failure DisconnectResult) (DisconnectResult × CCoinsView) := do
  let blockUndo ← (undoReadFromDisk env pindex file).mapError fun _ =>
    disconnectFailed "DisconnectBlock(): failure reading undo data"
  require (blockUndo.vtxundo.length + 1 = block.vtx.length)
    (disconnectFailed "DisconnectBlock(): block and undo data inconsistent")
  let st ← block.vtx.zipIdx.reverse.foldlM (disconnectTx getHash pindex blockUndo.vtxundo)
    ⟨view, true⟩
  return (if st.fClean then .DISCONNECT_OK else .DISCONNECT_UNCLEAN, st.view)

/-! ### Outputs -/

section Outputs

variable {txid : Uint256} {tx : CTransaction} {nHeight : Nat} {exception : Bool}

/-- One round removes the coin that `AddCoins` created from the output, and finds it unchanged. -/
theorem disconnectOutput_created {view : CCoinsView} {fClean : Bool} {out : CTxOut} {n : Nat}
    (hheight : nHeight < 2 ^ 31) (hdrop : ¬ Coin.IsDropped out)
    (hcoin : view.getCoin ⟨txid, UInt32.ofNat n⟩ = some (.ofOut out nHeight tx.IsCoinBase)) :
    disconnectOutput txid tx nHeight exception ⟨view, fClean⟩ (out, n) =
      ⟨view.erase ⟨txid, UInt32.ofNat n⟩, fClean⟩ := by
  have hspend := CCoinsView.spendCoin_eq_some.mpr ⟨hcoin, rfl⟩
  have hmatch : ¬ (out ≠ (Coin.ofOut out nHeight tx.IsCoinBase).out ∨
      nHeight ≠ (Coin.ofOut out nHeight tx.IsCoinBase).nHeight.val ∨
      decide tx.IsCoinBase ≠ (Coin.ofOut out nHeight tx.IsCoinBase).fCoinBase) := by
    rw [Coin.nHeight_ofOut hheight]
    simp [Coin.ofOut]
  have hkeep : ¬ (IsUnspendable out.scriptPubKey ∨ out.IsFee) := hdrop
  simp only [disconnectOutput, if_neg hkeep, hspend, if_neg hmatch]

/-- **The output loop takes out just the created coins**, by induction on the outputs from `n`
on. -/
theorem foldl_disconnectOutput (exception : Bool) (vout : List CTxOut) (n : Nat)
    (view : CCoinsView) (fClean : Bool)
    (hheight : nHeight < 2 ^ 31) (hlen : n + vout.length ≤ 2 ^ 32)
    (hstored : ∀ out ∈ vout, CCoinsView.IsStored tx out ↔ ¬ Coin.IsDropped out)
    (hthere : ∀ o c, CCoinsView.createdFrom txid tx nHeight vout n o = some c →
      view.getCoin o = some c) :
    ∃ view', (vout.zipIdx n).foldl (disconnectOutput txid tx nHeight exception) ⟨view, fClean⟩ =
        ⟨view', fClean⟩ ∧
      ∀ o, view'.getCoin o =
        if (CCoinsView.createdFrom txid tx nHeight vout n o).isSome then none
        else view.getCoin o := by
  induction vout generalizing n view with
  | nil => exact ⟨view, rfl, fun o => by simp [CCoinsView.createdFrom]⟩
  | cons out vout ih =>
    rw [List.forall_mem_cons] at hstored
    rw [List.length_cons] at hlen
    rw [List.zipIdx_cons, List.foldl_cons]
    have hslot : ∀ o : COutPoint, o = ⟨txid, UInt32.ofNat n⟩ ↔ o.hash = txid ∧ o.n.toNat = n :=
      fun o => CCoinsView.outpoint_eq_iff (by omega)
    have hlater : CCoinsView.createdFrom txid tx nHeight vout (n + 1) ⟨txid, UInt32.ofNat n⟩ =
        none := by
      simp [CCoinsView.createdFrom, ((hslot _).mp rfl).2]
    by_cases hdrop : Coin.IsDropped out
    · -- dropped outputs are skipped on both sides
      have hstep : disconnectOutput txid tx nHeight exception ⟨view, fClean⟩ (out, n) =
          ⟨view, fClean⟩ := if_pos hdrop
      have hnot : ¬ CCoinsView.IsStored tx out := fun hs => hs.2 hdrop
      have hcreated : ∀ o, CCoinsView.createdFrom txid tx nHeight (out :: vout) n o =
          CCoinsView.createdFrom txid tx nHeight vout (n + 1) o := by
        intro o
        rw [CCoinsView.createdFrom_cons, if_neg hnot]
        split_ifs with ho
        · rw [(hslot o).mpr ho, hlater]
        · rfl
      simp only [hcreated] at hthere ⊢
      rw [hstep]
      exact ih (n + 1) view (by omega) hstored.2 hthere
    · have hcreated : ∀ o, CCoinsView.createdFrom txid tx nHeight (out :: vout) n o =
          if o = ⟨txid, UInt32.ofNat n⟩ then some (.ofOut out nHeight tx.IsCoinBase)
          else CCoinsView.createdFrom txid tx nHeight vout (n + 1) o := by
        intro o
        rw [CCoinsView.createdFrom_cons, if_pos (hstored.1.mpr hdrop)]
        simp only [hslot o]
      have hcoin := hthere ⟨txid, UInt32.ofNat n⟩ _ (by rw [hcreated, if_pos rfl])
      rw [disconnectOutput_created hheight hdrop hcoin]
      obtain ⟨view', hfold, hget⟩ := ih (n + 1) (view.erase ⟨txid, UInt32.ofNat n⟩) (by omega)
        hstored.2 (by
          intro o c hc
          have hne : o ≠ ⟨txid, UInt32.ofNat n⟩ := by
            rintro rfl
            simp [hlater] at hc
          rw [CCoinsView.getCoin_erase_of_ne hne]
          exact hthere o c (by rw [hcreated, if_neg hne, hc]))
      refine ⟨view', hfold, fun o => ?_⟩
      rw [hget, hcreated]
      by_cases ho : o = ⟨txid, UInt32.ofNat n⟩
      · simp [ho]
      · rw [if_neg ho, CCoinsView.getCoin_erase_of_ne ho]

/-- Removing the outputs of a transaction undoes `AddCoins`, if that overwrote nothing. -/
theorem disconnectOutputs_addCoins {Result : Type} {mid view : CCoinsView} (fClean : Bool)
    (hchecked : Checked tx) (hheight : nHeight < 2 ^ 31)
    (hfree : ∀ o, (CCoinsView.createdCoin txid tx nHeight o).isSome → mid.getCoin o = none)
    (hadd : mid.addCoins txid tx nHeight false = (.ok view : Except (Failure Result) _)) :
    disconnectOutputs txid tx nHeight exception ⟨view, fClean⟩ = ⟨mid, fClean⟩ := by
  have hlen := (lengths_le_of_checked hchecked).2
  have hget := CCoinsView.getCoin_addCoins (by omega) hadd
  obtain ⟨view', hfold, hget'⟩ := foldl_disconnectOutput exception tx.vout 0 view
    fClean hheight (by omega) (fun out hmem => CCoinsView.isStored_iff hchecked hmem) (by
      intro o c hc
      rw [hget o, CCoinsView.createdCoin, hc, Option.some_or])
  have hview : view' = mid := by
    ext1 o
    change view'.getCoin o = mid.getCoin o
    rw [hget' o, hget o, CCoinsView.createdCoin]
    cases hc : CCoinsView.createdFrom txid tx nHeight tx.vout 0 o with
    | none => simp
    | some c =>
      have hnone := hfree o (by rw [CCoinsView.createdCoin, hc]; rfl)
      simp [hnone]
  rw [disconnectOutputs, hfold, hview]

end Outputs

/-! ### Inputs -/

theorem applyTxInUndo_erase {view : CCoinsView} {txin : CTxIn} {coin : Coin} (fClean : Bool)
    (hcoin : view.getCoin txin.prevout = some coin) (hpos : 0 < coin.nHeight.val) :
    applyTxInUndo ⟨view.erase txin.prevout, fClean⟩ (txin, coin) = .ok ⟨view, fClean⟩ := by
  have hstorable := CCoinsView.getCoin_storable hcoin
  have hmeta : withMetadata (view.erase txin.prevout) txin.prevout coin = some coin :=
    if_neg (by omega)
  have hadd : (view.erase txin.prevout).addCoin txin.prevout coin false =
      (.ok view : Except (Failure DisconnectResult) _) := by
    rw [CCoinsView.addCoin_of_free hstorable (CCoinsView.getCoin_erase_self _ _),
      CCoinsView.insert_erase_self hcoin]
  have hclean : (!(view.erase txin.prevout).haveCoin txin.prevout) = true := by
    simp [CCoinsView.haveCoin]
  simp only [applyTxInUndo, hmeta, hclean, Bool.not_true, hadd, Bool.and_true]
  rfl

/-- **The input loop puts back what `SpendCoin` took**, by induction on the inputs: the last coin
restored is the first that was spent. -/
theorem foldlM_applyTxInUndo {Result : Type} {view mid : CCoinsView} {vin : List CTxIn}
    {coins : List Coin} (fClean : Bool)
    (hspend : spendInputs view vin = (.ok (mid, coins) : Except (Failure Result) _))
    (hpos : ∀ coin ∈ coins, 0 < coin.nHeight.val) :
    (vin.zip coins).reverse.foldlM applyTxInUndo ⟨mid, fClean⟩ = .ok ⟨view, fClean⟩ := by
  induction vin generalizing view coins with
  | nil =>
    simp only [spendInputs, Except.ok.injEq, Prod.mk.injEq] at hspend
    obtain ⟨rfl, rfl⟩ := hspend
    rfl
  | cons txin vin ih =>
    rw [spendInputs] at hspend
    cases hcoin : view.getCoin txin.prevout with
    | none => simp [CCoinsView.spendCoin, hcoin] at hspend
    | some coin =>
      rw [CCoinsView.spendCoin_eq_some.mpr ⟨hcoin, rfl⟩] at hspend
      obtain ⟨⟨mid', rest⟩, hrest, hspend⟩ := bind_eq_ok.mp hspend
      simp only [pure_eq_ok, Prod.mk.injEq] at hspend
      obtain ⟨rfl, rfl⟩ := hspend
      rw [List.forall_mem_cons] at hpos
      rw [List.zip_cons_cons, List.reverse_cons]
      exact foldlM_concat_eq_ok.mpr ⟨_, ih hrest hpos.2, applyTxInUndo_erase fClean hcoin hpos.1⟩

/-! ### One transaction -/

/-- The coins of a view have a height and vectors of readable size, so that their undo records
carry all of them. -/
def Traceable (view : CCoinsView) : Prop :=
  ∀ o c, view.getCoin o = some c → 0 < c.nHeight.val ∧ Sized c.out

section Transaction

variable {Result : Type} {getHash : CTransaction → Uint256} {pindex : CBlockIndex}
  {view view' : CCoinsView} {tx : CTransaction} {txundo : CTxUndo}

theorem recordable_of_traceable (h : Traceable view) {o : COutPoint} {c : Coin}
    (hc : view.getCoin o = some c) : Recordable c := by
  have hdrop := (CCoinsView.getCoin_storable hc).2
  refine ⟨(h o c hc).2, ?_⟩
  by_contra hlong
  exact hdrop (.inl (.inr (Nat.lt_of_not_le hlong)))

theorem Traceable.updateCoins (h : Traceable view) (hchecked : Checked tx)
    (hsized : ∀ out ∈ tx.vout, Sized out) (hpos : 0 < pindex.nHeight)
    (hheight : pindex.nHeight < 2 ^ 31)
    (hupdate : updateCoins getHash view tx pindex.nHeight =
      (.ok (view', txundo) : Except (Failure Result) _)) : Traceable view' := by
  obtain ⟨mid, hspend, hadd⟩ := updateCoins_eq_ok.mp hupdate
  have hlen := (lengths_le_of_checked hchecked).2
  intro o c hc
  rw [CCoinsView.getCoin_addCoins (by omega) hadd, Option.or_eq_some_iff] at hc
  rcases hc with hc | ⟨-, hc⟩
  · obtain ⟨-, out, hout, -, rfl⟩ := CCoinsView.createdCoin_eq_some.mp hc
    rw [Coin.nHeight_ofOut hheight]
    exact ⟨hpos, hsized out (List.mem_of_getElem? hout)⟩
  · exact h o c ((getCoin_spendTx hspend).1 o c hc)

/-- **Disconnecting a transaction undoes connecting it.** -/
theorem disconnectTx_updateCoins {vtxundo : List CTxUndo} {i : Nat} (fClean : Bool)
    (htrace : Traceable view) (hchecked : Checked tx) (hheight : pindex.nHeight < 2 ^ 31)
    (hfirst : tx.IsCoinBase ↔ i = 0) (hundo : i ≠ 0 → vtxundo[i - 1]? = some txundo)
    (hfree : tx.IsCoinBase → ∀ o,
      (CCoinsView.createdCoin (getHash tx) tx pindex.nHeight o).isSome → view.getCoin o = none)
    (hupdate : updateCoins getHash view tx pindex.nHeight =
      (.ok (view', txundo) : Except (Failure Result) _)) :
    disconnectTx getHash pindex vtxundo ⟨view', fClean⟩ (tx, i) = .ok ⟨view, fClean⟩ := by
  obtain ⟨mid, hspend, hadd⟩ := updateCoins_eq_ok.mp hupdate
  have hlen := (lengths_le_of_checked hchecked).2
  simp only [disconnectTx]
  by_cases hcb : tx.IsCoinBase
  · -- a coinbase spends nothing, and BIP30 kept its slots free
    obtain ⟨rfl, -⟩ := (getCoin_spendTx hspend).2.2 hcb
    rw [disconnectOutputs_addCoins fClean hchecked hheight (hfree hcb) hadd, if_pos (hfirst.mp hcb)]
  · have hi : i ≠ 0 := fun hi => hcb (hfirst.mpr hi)
    have hfree' : ∀ o, (CCoinsView.createdCoin (getHash tx) tx pindex.nHeight o).isSome →
        mid.getCoin o = none :=
      fun o ho => CCoinsView.getCoin_eq_none_of_addCoins (by omega) hcb hadd ho
    rw [disconnectOutputs_addCoins fClean hchecked hheight hfree' hadd, if_neg hi, hundo hi]
    have hcoins : ∀ coin ∈ txundo.vprevout, 0 < coin.nHeight.val := by
      intro coin hmem
      obtain ⟨o, ho⟩ := (getCoin_spendTx hspend).2.1 coin hmem
      exact (htrace o coin ho).1
    have hlength := length_spendTx hcb hspend
    rw [spendTx, if_neg hcb] at hspend
    exact bind_unit_eq_ok.mpr
      ⟨require_eq_ok.mpr hlength, foldlM_applyTxInUndo fClean hspend hcoins⟩

end Transaction

/-! ### Blocks -/

section Block

variable {𝔾 : Type} [AddCommGroup 𝔾] [Module Scalar 𝔾] [DecidableEq 𝔾] {env : ChainEnv 𝔾}
  {pindex : CBlockIndex} {view : CCoinsView}

/-- After connecting `txs` on `view` the undo records can be stored, and whatever follows them,
disconnecting `txs` leads back to `view`. -/
structure Undoable (env : ChainEnv 𝔾) (pindex : CBlockIndex) (view : CCoinsView)
    (txs : List CTransaction) (st : ConnectState) : Prop where
  traceable : Traceable st.view
  length_eq : st.vtxundo.length = txs.length - 1
  recordable : ∀ txundo ∈ st.vtxundo, txundo.vprevout.length ≤ MAX_SIZE ∧
    ∀ coin ∈ txundo.vprevout, Recordable coin
  disconnects : ∀ more, txs.zipIdx.reverse.foldlM
    (disconnectTx env.getHash pindex (st.vtxundo ++ more)) ⟨st.view, true⟩ = .ok ⟨view, true⟩

/-- The transactions that `ConnectBlock` can meet at the end of `txs`. -/
structure Admissible (env : ChainEnv 𝔾) (pindex : CBlockIndex) (view : CCoinsView)
    (txs : List CTransaction) (tx : CTransaction) : Prop where
  checked : Checked tx
  sized : ∀ out ∈ tx.vout, Sized out
  coinbase_iff : tx.IsCoinBase ↔ txs.length = 0
  free : tx.IsCoinBase → ∀ o,
    (CCoinsView.createdCoin (env.getHash tx) tx pindex.nHeight o).isSome → view.getCoin o = none

omit [AddCommGroup 𝔾] [Module Scalar 𝔾] [DecidableEq 𝔾] in
theorem undoable_nil (htrace : Traceable view) : Undoable env pindex view [] ⟨view, 0, 0, []⟩ where
  traceable := htrace
  length_eq := rfl
  recordable := by simp
  disconnects _ := rfl

/-- **Step lemma**: connecting one more transaction keeps the block undoable. -/
theorem Undoable.connectTx {txs : List CTransaction} {tx : CTransaction} {st st' : ConnectState}
    (h : Undoable env pindex view txs st) (hpos : 0 < pindex.nHeight)
    (hheight : pindex.nHeight < 2 ^ 31) (hadm : Admissible env pindex st.view txs tx)
    (hstep : connectTx env pindex st (tx, txs.length) = .ok st') :
    Undoable env pindex view (txs ++ [tx]) st' := by
  obtain ⟨txfee, txundo, -, hupdate, -, hvtxundo⟩ := connectTx_eq_ok hstep
  obtain ⟨mid, hspend, -⟩ := updateCoins_eq_ok.mp hupdate
  have hlength : st'.vtxundo.length = txs.length := by
    have hlen := h.length_eq
    rw [hvtxundo]
    split_ifs with hzero
    · omega
    · rw [List.length_append, List.length_singleton]
      omega
  refine ⟨h.traceable.updateCoins hadm.checked hadm.sized hpos hheight hupdate, ?_, ?_, ?_⟩
  · rw [hlength, List.length_append, List.length_singleton, Nat.add_sub_cancel]
  · rw [hvtxundo]
    split_ifs with hzero
    · exact h.recordable
    · intro txundo' hmem
      rcases List.mem_append.mp hmem with hmem | hmem
      · exact h.recordable txundo' hmem
      · obtain rfl := List.mem_singleton.mp hmem
        have hlen := length_spendTx (fun hcb => hzero (hadm.coinbase_iff.mp hcb)) hspend
        have hvin := (lengths_le_of_checked hadm.checked).1
        refine ⟨by unfold MAX_SIZE; omega, fun coin hcoin => ?_⟩
        obtain ⟨o, ho⟩ := (getCoin_spendTx hspend).2.1 coin hcoin
        exact recordable_of_traceable h.traceable ho
  · intro more
    have hreverse : (txs ++ [tx]).zipIdx.reverse = (tx, txs.length) :: txs.zipIdx.reverse := by
      simp [List.zipIdx_append]
    -- the records up to the last one are those the earlier transactions need
    obtain ⟨more', hmore⟩ : ∃ more', st'.vtxundo ++ more = st.vtxundo ++ more' := by
      rw [hvtxundo]
      split_ifs
      · exact ⟨more, rfl⟩
      · exact ⟨[txundo] ++ more, List.append_assoc _ _ _⟩
    have hundo : txs.length ≠ 0 → (st'.vtxundo ++ more)[txs.length - 1]? = some txundo := by
      intro hne
      rw [hvtxundo, if_neg hne, List.append_assoc,
        List.getElem?_append_right (by rw [h.length_eq]), h.length_eq, Nat.sub_self]
      rfl
    have hlast := disconnectTx_updateCoins true h.traceable hadm.checked hheight hadm.coinbase_iff
      hundo hadm.free hupdate
    rw [hreverse, foldlM_cons_eq_ok]
    refine ⟨_, hlast, ?_⟩
    rw [hmore]
    exact h.disconnects more'

/-- **Run lemma**: the whole transaction loop leaves an undoable block. -/
theorem undoable_foldlM {done todo : List CTransaction} {st st' : ConnectState}
    (h : Undoable env pindex view done st) (hpos : 0 < pindex.nHeight)
    (hheight : pindex.nHeight < 2 ^ 31)
    (hadm : ∀ st txs tx rest, done ++ todo = txs ++ tx :: rest →
      Undoable env pindex view txs st → Admissible env pindex st.view txs tx)
    (hloop : (todo.zipIdx done.length).foldlM (connectTx env pindex) st = .ok st') :
    Undoable env pindex view (done ++ todo) st' := by
  induction todo generalizing done st with
  | nil =>
    obtain rfl := pure_eq_ok.mp hloop
    rwa [List.append_nil]
  | cons tx todo ih =>
    rw [List.zipIdx_cons, foldlM_cons_eq_ok] at hloop
    obtain ⟨mid, hstep, hloop⟩ := hloop
    have hmid := h.connectTx hpos hheight (hadm st done tx todo rfl h) hstep
    have hsplit : done ++ tx :: todo = (done ++ [tx]) ++ todo := by simp
    rw [hsplit] at hadm ⊢
    refine ih hmid hadm ?_
    rwa [List.length_append, List.length_singleton]

omit [AddCommGroup 𝔾] [Module Scalar 𝔾] [DecidableEq 𝔾] in
theorem admissible_of_checkedBlock {block : CBlock} {cb : CTransaction} {txs : List CTransaction}
    (hblock : CheckedBlock block cb txs)
    (hsized : ∀ tx ∈ block.vtx, ∀ out ∈ tx.vout, Sized out)
    (hbip30 : ∀ tx ∈ block.vtx, ∀ o < tx.vout.length,
      view.haveCoin ⟨env.getHash tx, UInt32.ofNat o⟩ = false)
    {st : ConnectState} {done rest : List CTransaction} {tx : CTransaction}
    (hsplit : block.vtx = done ++ tx :: rest) (hundo : Undoable env pindex view done st) :
    Admissible env pindex st.view done tx := by
  have hmem : tx ∈ block.vtx := by
    rw [hsplit]
    exact List.mem_append_right done List.mem_cons_self
  refine ⟨hblock.checked tx (hblock.vtx_eq ▸ hmem), hsized tx hmem, ?_, ?_⟩
  · -- only the first transaction of the block is a coinbase
    rw [hblock.vtx_eq] at hsplit
    cases done with
    | nil =>
      obtain ⟨rfl, -⟩ := List.cons.inj hsplit
      simpa using hblock.coinbase
    | cons cb' done =>
      obtain ⟨-, rfl⟩ := List.cons.inj hsplit
      simpa using hblock.not_coinbase tx (List.mem_append_right done List.mem_cons_self)
  · intro hcb o ho
    have hview : st.view = view := by
      cases done with
      | nil => simpa using hundo.disconnects []
      | cons cb' done =>
        rw [hblock.vtx_eq] at hsplit
        obtain ⟨-, rfl⟩ := List.cons.inj hsplit
        exact absurd hcb
          (hblock.not_coinbase tx (List.mem_append_right done List.mem_cons_self))
    rw [hview]
    exact getCoin_created_eq_none (hbip30 tx hmem) ho

end Block

/-- **Disconnecting exactly undoes connecting** a block other than the genesis block, if the height
fits its type and all vectors have sizes that serialization accepts. -/
theorem disconnectBlock_connectBlock {𝔾 : Type} [AddCommGroup 𝔾] [Module Scalar 𝔾]
    [DecidableEq 𝔾] (env : ChainEnv 𝔾) (undoEnv : UndoEnv) (block : CBlock) (pindex : CBlockIndex)
    (view view' : CCoinsView) (undo : CBlockUndo) (rest : Bytes)
    (hpos : 1 ≤ pindex.nHeight) (hheight : pindex.nHeight < 2 ^ 31)
    (hgenesis : block.hash ≠ env.params.hashGenesisBlock)
    (hcoins : ∀ o c, view.getCoin o = some c → 1 ≤ c.nHeight.val ∧ Sized c.out)
    (hsized : ∀ tx ∈ block.vtx, ∀ out ∈ tx.vout, Sized out)
    (hbip30 : ∀ tx ∈ block.vtx, ∀ o < tx.vout.length,
      view.haveCoin ⟨env.getHash tx, UInt32.ofNat o⟩ = false)
    (hconnect : connectBlock env block pindex view = .ok (view', undo)) :
    disconnectBlock undoEnv env.getHash block pindex
      (undoWriteToDisk undoEnv undo pindex.prevHash ++ rest) view' = .ok (.DISCONNECT_OK, view) := by
  obtain ⟨⟨cb, txs, hblock⟩, -, ⟨hskip, -⟩ | ⟨-, hconnect⟩⟩ := connectBlock_eq_ok hconnect
  · rcases hskip with hzero | hhash
    · omega
    · exact absurd hhash hgenesis
  obtain ⟨st, hloop, rfl, rfl⟩ : ∃ st, block.vtx.zipIdx.foldlM (connectTx env pindex)
      ⟨view, 0, 0, []⟩ = .ok st ∧ st.view = view' ∧ ⟨st.vtxundo⟩ = undo := by
    simp only [connectTransactions, bind_eq_ok, pure_eq_ok, Prod.mk.injEq] at hconnect
    obtain ⟨-, -, st, hloop, -, -, hview, hundo⟩ := hconnect
    exact ⟨st, hloop, hview, hundo⟩
  have hundoable : Undoable env pindex view block.vtx st := by
    have hnil : Undoable env pindex view [] ⟨view, 0, 0, []⟩ := undoable_nil hcoins
    refine undoable_foldlM hnil hpos hheight ?_ hloop
    intro st done tx rest hsplit hundo
    exact admissible_of_checkedBlock hblock hsized hbip30 hsplit hundo
  have hlength : st.vtxundo.length + 1 = block.vtx.length := by
    rw [hundoable.length_eq, hblock.vtx_eq, List.length_cons, Nat.add_sub_cancel]
  have hreads : Reads (unserBlockUndo undoEnv.keys) (serBlockUndo undoEnv.keys ⟨st.vtxundo⟩)
      ⟨st.vtxundo⟩ := by
    have hle := hblock.length_le
    unfold WITNESS_SCALE_FACTOR MAX_BLOCK_WEIGHT at hle
    have hmax : st.vtxundo.length ≤ MAX_SIZE := by
      unfold MAX_SIZE
      omega
    exact reads_serBlockUndo hmax hundoable.recordable
  have hfold := hundoable.disconnects []
  rw [List.append_nil] at hfold
  unfold disconnectBlock
  refine bind_eq_ok.mpr ⟨_, mapError_eq_ok.mpr (undoReadFromDisk_undoWriteToDisk hreads rest), ?_⟩
  refine bind_unit_eq_ok.mpr ⟨require_eq_ok.mpr hlength, ?_⟩
  exact bind_eq_ok.mpr ⟨_, hfold, rfl⟩

/-! ### A block with a spend inside -/

/-- External checks accept everything; transactions are told apart by their lock time. -/
def sampleEnv : ChainEnv (Scalar × Scalar) :=
  { Supply.sampleEnv with getHash := fun tx => uint256S tx.nLockTime.toNat }

/-- No uncompressed key counts as valid here, and none occurs in the block. -/
def sampleUndoEnv : UndoEnv where
  keys := noKeys
  getHash _ := uint256S 0

def sampleTxIn (prevout : COutPoint) (scriptSig : CScript) : CTxIn :=
  ⟨prevout, scriptSig, CTxIn.SEQUENCE_FINAL, [], .null⟩

/-- A coinbase, a transaction with an ordinary, a fee-shaped and an unspendable output, and one
that spends the ordinary output. -/
def sampleBlock : CBlock where
  hash := uint256S 7
  vtx := [
    { vin := [sampleTxIn ⟨Uint256.null, COutPoint.NULL_INDEX⟩ [1, 1]]
      vout := [.ofAmount COIN [OP_TRUE]], nVersion := 2, nLockTime := 1 },
    { vin := [sampleTxIn ⟨uint256S 10, 0⟩ []]
      vout := [.ofAmount 1000 [OP_TRUE], .ofAmount 10 [], .ofAmount 0 [OP_RETURN]]
      nVersion := 2, nLockTime := 2 },
    { vin := [sampleTxIn ⟨uint256S 2, 0⟩ []]
      vout := [.ofAmount 900 [OP_TRUE]], nVersion := 2, nLockTime := 3 }]

def sampleIndex : CBlockIndex := ⟨5, uint256S 7, uint256S 6, fun _ => none⟩

def sampleView : CCoinsView :=
  CCoinsView.empty.insert ⟨uint256S 10, 0⟩ (Coin.ofOut (.ofAmount 1010 [OP_TRUE]) 1 false)
    (by decide)

set_option maxRecDepth 2000 in
theorem disconnectBlock_sampleBlock :
    ∃ view' undo, connectBlock sampleEnv sampleBlock sampleIndex sampleView = .ok (view', undo) ∧
      disconnectBlock sampleUndoEnv sampleEnv.getHash sampleBlock sampleIndex
        (undoWriteToDisk sampleUndoEnv undo sampleIndex.prevHash ++ []) view' =
        .ok (.DISCONNECT_OK, sampleView) := by
  obtain ⟨view', undo, hconnect⟩ : ∃ view' undo,
      connectBlock sampleEnv sampleBlock sampleIndex sampleView = .ok (view', undo) := ⟨_, _, rfl⟩
  refine ⟨view', undo, hconnect, ?_⟩
  refine disconnectBlock_connectBlock sampleEnv sampleUndoEnv sampleBlock sampleIndex sampleView
    view' undo [] (by decide) (by decide) (by decide) ?_ (by decide) (by decide) hconnect
  intro o c hc
  by_cases ho : o = ⟨uint256S 10, 0⟩
  · rw [ho, sampleView, CCoinsView.getCoin_insert_self, Option.some.injEq] at hc
    subst hc
    decide
  · rw [sampleView, CCoinsView.getCoin_insert_of_ne ho, CCoinsView.getCoin_empty] at hc
    simp at hc

end Rcpu.Disconnect
