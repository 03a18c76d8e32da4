import Rcpu.Validation

/-!
# Sums over the coins view

How connecting a block changes a sum over the coins of a view, for any measure of coins: the measures
of the created coins come in, those of the spent coins, as the undo data lists them, go out.
-/

namespace Rcpu.CoinSums

open Checks WeightedMap Transaction TxCheck ConfidentialValidation Coins TxVerify Validation

variable {M : Type} [AddCommMonoid M] (v : COutPoint → Coin → M)

def coinSum (view : CCoinsView) : M := sumOver v view.coins

def createdSum (txid : Uint256) (nHeight : Nat) (tx : CTransaction) : M :=
  (tx.vout.zipIdx.map fun entry =>
    if Coin.IsDropped entry.1 then 0
    else v ⟨txid, UInt32.ofNat entry.2⟩ (.ofOut entry.1 nHeight tx.IsCoinBase)).sum

/-- The measure of the coin that an output at an index overwrites. -/
def overwritten (view : CCoinsView) (txid : Uint256) (entry : CTxOut × Nat) : M :=
  if Coin.IsDropped entry.1 then 0
  else (view.getCoin ⟨txid, UInt32.ofNat entry.2⟩).elim 0 (v ⟨txid, UInt32.ofNat entry.2⟩)

def overwrittenSum (view : CCoinsView) (txid : Uint256) (tx : CTransaction) : M :=
  (tx.vout.zipIdx.map (overwritten v view txid)).sum

def spentSum (spent : List (CTxIn × Coin)) : M :=
  (spent.map fun entry => v entry.1.prevout entry.2).sum

/-- `vtxundo.at(i - 1)` -/
def undoAt (vtxundo : List CTxUndo) : Nat → Option CTxUndo
  | 0 => none
  | i + 1 => vtxundo[i]?

def spentCoins (vtxundo : List CTxUndo) (entry : CTransaction × Nat) : List (CTxIn × Coin) :=
  if entry.1.IsCoinBase then []
  else entry.1.vin.zip ((undoAt vtxundo entry.2).elim [] CTxUndo.vprevout)

variable {v}

/-! ### One transaction -/

section Transaction

variable {Result : Type} {view view' mid : CCoinsView} {tx : CTransaction} {txid : Uint256}
  {nHeight : Nat} {vout : List CTxOut}

/-- Putting a coin into a view: what lay at the outpoint goes out. -/
theorem coinSum_insert {o : COutPoint} {c : Coin} {hc : c.Storable} :
    coinSum v (view.insert o c hc) + (view.getCoin o).elim 0 (v o) = v o c + coinSum v view := by
  cases h : view.getCoin o with
  | none => exact (add_zero _).trans (sumOver_insert h)
  | some old => exact (add_comm _ _).trans (sumOver_insert_of_some h)

theorem coinSum_erase {o : COutPoint} {c : Coin} (h : view.getCoin o = some c) :
    v o c + coinSum v (view.erase o) = coinSum v view := sumOver_erase h

theorem coinSum_spendInputs {vin : List CTxIn} {coins : List Coin}
    (h : spendInputs view vin = (.ok (mid, coins) : Except (Failure Result) _)) :
    coinSum v mid + spentSum v (vin.zip coins) = coinSum v view := by
  induction vin generalizing view coins with
  | nil =>
    simp only [spendInputs, Except.ok.injEq, Prod.mk.injEq] at h
    obtain ⟨rfl, rfl⟩ := h
    simp [spentSum]
  | cons txin vin ih =>
    rw [spendInputs] at h
    cases hcoin : view.getCoin txin.prevout with
    | none => simp [CCoinsView.spendCoin, hcoin] at h
    | some coin =>
      rw [CCoinsView.spendCoin_eq_some.mpr ⟨hcoin, rfl⟩] at h
      obtain ⟨⟨mid', rest⟩, hrest, h⟩ := bind_eq_ok.mp h
      simp only [pure_eq_ok, Prod.mk.injEq] at h
      obtain ⟨rfl, rfl⟩ := h
      have htail := ih hrest
      rw [← coinSum_erase hcoin, ← htail, spentSum, List.zip_cons_cons, List.map_cons,
        List.sum_cons, spentSum, add_left_comm]

/-- A round of `AddCoins` leaves the slots of the later outputs alone. -/
theorem overwritten_addOutput {out : CTxOut} {n : Nat} (hlen : n + 1 + vout.length ≤ 2 ^ 32)
    (h : CCoinsView.addOutput txid tx nHeight false view (out, n) =
      (.ok mid : Except (Failure Result) _)) :
    (vout.zipIdx (n + 1)).map (overwritten v mid txid) =
      (vout.zipIdx (n + 1)).map (overwritten v view txid) := by
  rcases CCoinsView.addOutput_eq_ok h with ⟨-, rfl⟩ | ⟨-, hc, rfl, -⟩
  · rfl
  · apply List.map_congr_left
    rintro ⟨out', i⟩ hmem
    obtain ⟨hi, hout'⟩ := List.mk_mem_zipIdx_iff_le_and_getElem?_sub.mp hmem
    have hlt := (List.getElem?_eq_some_iff.mp hout').1
    have hne : (⟨txid, UInt32.ofNat i⟩ : COutPoint) ≠ ⟨txid, UInt32.ofNat n⟩ := by
      intro heq
      have hn := ((CCoinsView.outpoint_eq_iff (by omega)).mp heq).2
      rw [UInt32.toNat_ofNat', Nat.mod_eq_of_lt (by omega)] at hn
      omega
    simp only [overwritten, CCoinsView.getCoin_insert_of_ne hne]

/-- The loop of `AddCoins` from index `n` on, by induction on the outputs. -/
theorem coinSum_foldlM_addOutput {n : Nat}
    (hstored : ∀ out ∈ vout, CCoinsView.IsStored tx out ↔ ¬ Coin.IsDropped out)
    (hlen : n + vout.length ≤ 2 ^ 32)
    (h : (vout.zipIdx n).foldlM (CCoinsView.addOutput txid tx nHeight false) view =
      (.ok view' : Except (Failure Result) _)) :
    coinSum v view' + ((vout.zipIdx n).map (overwritten v view txid)).sum =
      coinSum v view + ((vout.zipIdx n).map fun entry =>
        if Coin.IsDropped entry.1 then 0
        else v ⟨txid, UInt32.ofNat entry.2⟩ (.ofOut entry.1 nHeight tx.IsCoinBase)).sum := by
  induction vout generalizing n view with
  | nil =>
    obtain rfl := pure_eq_ok.mp h
    simp
  | cons out vout ih =>
    rw [List.zipIdx_cons, foldlM_cons_eq_ok] at h
    obtain ⟨mid, hstep, h⟩ := h
    rw [List.forall_mem_cons] at hstored
    rw [List.length_cons] at hlen
    have hrest := ih hstored.2 (by omega) h
    rw [overwritten_addOutput (by omega) hstep] at hrest
    rw [List.zipIdx_cons, List.map_cons, List.sum_cons, List.map_cons, List.sum_cons, add_left_comm,
      hrest]
    rcases CCoinsView.addOutput_eq_ok hstep with ⟨hnot, rfl⟩ | ⟨his, hc, rfl, -⟩
    · rw [hstored.1, not_not] at hnot
      rw [overwritten, if_pos hnot, if_pos hnot, zero_add, zero_add]
    · have hdrop := hstored.1.mp his
      rw [overwritten, if_neg hdrop, if_neg hdrop, ← add_assoc, add_comm (Option.elim _ _ _),
        coinSum_insert, add_assoc, add_left_comm]

theorem overwrittenSum_eq_zero (hchecked : Checked tx) (nHeight : Nat)
    (hfree : ∀ o, (CCoinsView.createdCoin txid tx nHeight o).isSome → view.getCoin o = none) :
    overwrittenSum v view txid tx = 0 := by
  have hlen := (lengths_le_of_checked hchecked).2
  apply List.sum_eq_zero
  rw [List.forall_mem_map]
  rintro ⟨out, i⟩ hmem
  have hout : tx.vout[i]? = some out := List.mk_mem_zipIdx_iff_getElem?.mp hmem
  have hlt := (List.getElem?_eq_some_iff.mp hout).1
  rw [overwritten]
  split_ifs with hdrop
  · rfl
  · have hslot : (⟨txid, UInt32.ofNat i⟩ : COutPoint).n.toNat = i :=
      ((CCoinsView.outpoint_eq_iff (by omega)).mp rfl).2
    have hstored := (CCoinsView.isStored_iff hchecked (List.mem_of_getElem? hout)).mpr hdrop
    have hsome : CCoinsView.createdCoin txid tx nHeight ⟨txid, UInt32.ofNat i⟩ =
        some (.ofOut out nHeight tx.IsCoinBase) :=
      CCoinsView.createdCoin_eq_some.mpr ⟨rfl, out, by rw [hslot, hout], hstored, rfl⟩
    rw [hfree _ (by rw [hsome, Option.isSome_some]), Option.elim_none]

/-- **What `UpdateCoins` does to a sum.**  Only a coinbase overwrites coins. -/
theorem coinSum_updateCoins {getHash : CTransaction → Uint256} {undo : CTxUndo}
    (hchecked : Checked tx)
    (h : updateCoins getHash view tx nHeight = (.ok (view', undo) : Except (Failure Result) _)) :
    coinSum v view' + (if tx.IsCoinBase then overwrittenSum v view (getHash tx) tx
        else spentSum v (tx.vin.zip undo.vprevout)) =
      coinSum v view + createdSum v (getHash tx) nHeight tx := by
  obtain ⟨mid, hspend, hadd⟩ := updateCoins_eq_ok.mp h
  have hlen := (lengths_le_of_checked hchecked).2
  have hstored : ∀ out ∈ tx.vout, CCoinsView.IsStored tx out ↔ ¬ Coin.IsDropped out :=
    fun out hmem => CCoinsView.isStored_iff hchecked hmem
  have hcreated := coinSum_foldlM_addOutput (v := v) hstored (by omega) hadd
  by_cases hcb : tx.IsCoinBase
  · obtain ⟨rfl, -⟩ := (getCoin_spendTx hspend).2.2 hcb
    rw [if_pos hcb]
    exact hcreated
  · have hnone : overwrittenSum v mid (getHash tx) tx = 0 := overwrittenSum_eq_zero hchecked nHeight
      fun o ho => CCoinsView.getCoin_eq_none_of_addCoins (by omega) hcb hadd ho
    rw [overwrittenSum] at hnone
    rw [hnone, add_zero] at hcreated
    rw [spendTx, if_neg hcb] at hspend
    rw [if_neg hcb, hcreated, ← coinSum_spendInputs hspend]
    exact add_right_comm _ _ _

end Transaction

/-! ### Blocks -/

section Block

variable {𝔾 : Type} [AddCommGroup 𝔾] [Module Scalar 𝔾] [DecidableEq 𝔾] {env : ChainEnv 𝔾}
  {pindex : CBlockIndex} {block : CBlock} {cb : CTransaction} {txs : List CTransaction}
  {view view' : CCoinsView} {undo : CBlockUndo}

/-- A quantity that every round after the coinbase changes by amounts read off the transaction and
its undo record changes by their sums. -/
theorem sum_foldlM_connectTx {φ : ConnectState → M} {a b : CTransaction → CTxUndo → M}
    {n : Nat} {st st' : ConnectState}
    (hround : ∀ st st' tx i txundo, tx ∈ txs → connectTx env pindex st (tx, i) = .ok st' →
      updateCoins env.getHash st.view tx pindex.nHeight =
        (.ok (st'.view, txundo) : Except BlockFailure _) →
      φ st' + a tx txundo = φ st + b tx txundo)
    (h : (txs.zipIdx (n + 1)).foldlM (connectTx env pindex) st = .ok st') :
    ∃ undos, st'.vtxundo = st.vtxundo ++ undos ∧ undos.length = txs.length ∧
      φ st' + ((txs.zip undos).map fun e => a e.1 e.2).sum =
        φ st + ((txs.zip undos).map fun e => b e.1 e.2).sum := by
  induction txs generalizing n st with
  | nil =>
    obtain rfl := pure_eq_ok.mp h
    exact ⟨[], by simp, rfl, by simp⟩
  | cons tx txs ih =>
    rw [List.zipIdx_cons, foldlM_cons_eq_ok] at h
    obtain ⟨mid, hstep, h⟩ := h
    obtain ⟨txfee, txundo, -, hupdate, -, hvtxundo⟩ := connectTx_eq_ok hstep
    have hlater := fun st st' tx i txundo hmem => hround st st' tx i txundo (.tail _ hmem)
    obtain ⟨undos, hundos, hlength, hrest⟩ := ih hlater h
    have hfirst := hround st mid tx (n + 1) txundo List.mem_cons_self hstep hupdate
    rw [if_neg (Nat.succ_ne_zero n)] at hvtxundo
    refine ⟨txundo :: undos, by rw [hundos, hvtxundo, List.append_assoc]; rfl, by simp [hlength], ?_⟩
    simp only [List.zip_cons_cons, List.map_cons, List.sum_cons]
    rw [add_left_comm, hrest, ← add_assoc, add_comm (a tx txundo), hfirst, add_assoc]

theorem coinSum_foldlM_connectTx {n : Nat} {st st' : ConnectState}
    (hchecked : ∀ tx ∈ txs, Checked tx) (hcb : ∀ tx ∈ txs, ¬ tx.IsCoinBase)
    (h : (txs.zipIdx (n + 1)).foldlM (connectTx env pindex) st = .ok st') :
    ∃ undos, st'.vtxundo = st.vtxundo ++ undos ∧ undos.length = txs.length ∧
      coinSum v st'.view +
          ((txs.zip undos).map fun e => spentSum v (e.1.vin.zip e.2.vprevout)).sum =
        coinSum v st.view +
          (txs.map fun tx => createdSum v (env.getHash tx) pindex.nHeight tx).sum := by
  have hround : ∀ st st' tx i txundo, tx ∈ txs → connectTx env pindex st (tx, i) = .ok st' →
      updateCoins env.getHash st.view tx pindex.nHeight =
        (.ok (st'.view, txundo) : Except BlockFailure _) →
      coinSum v st'.view + spentSum v (tx.vin.zip txundo.vprevout) =
        coinSum v st.view + createdSum v (env.getHash tx) pindex.nHeight tx := by
    intro st st' tx i txundo hmem _ hupdate
    have hsum := coinSum_updateCoins (v := v) (hchecked tx hmem) hupdate
    rwa [if_neg (hcb tx hmem)] at hsum
  obtain ⟨undos, hundos, hlength, hsum⟩ := sum_foldlM_connectTx (φ := fun st => coinSum v st.view)
    (a := fun tx undo => spentSum v (tx.vin.zip undo.vprevout))
    (b := fun tx _ => createdSum v (env.getHash tx) pindex.nHeight tx) hround h
  refine ⟨undos, hundos, hlength, ?_⟩
  have hfst : (txs.zip undos).map Prod.fst = txs := List.map_fst_zip (by omega)
  have hcreated := congrArg (List.map fun tx => createdSum v (env.getHash tx) pindex.nHeight tx) hfst
  rw [List.map_map] at hcreated
  rw [← hcreated]
  exact hsum

theorem map_spentCoins {undos : List CTxUndo} (hcb : ∀ tx ∈ txs, ¬ tx.IsCoinBase)
    (hlength : undos.length = txs.length) :
    (txs.zipIdx 1).map (fun e => spentSum v (spentCoins undos e)) =
      (txs.zip undos).map fun e => spentSum v (e.1.vin.zip e.2.vprevout) := by
  apply List.ext_getElem
  · simp [hlength]
  · intro i hi hi'
    have htx : i < txs.length := by simpa using hi
    have hundo : i < undos.length := by omega
    have hnot := hcb txs[i] (List.getElem_mem htx)
    simp [spentCoins, hnot, Nat.add_comm 1 i, undoAt, List.getElem?_eq_getElem hundo]

omit [AddCommGroup 𝔾] [Module Scalar 𝔾] [DecidableEq 𝔾] in
/-- The coinbase of a connected block finds its slots free: by the BIP30 check, or where that is
skipped by assumption. -/
theorem coinbase_slots_free (hblock : CheckedBlock block cb txs)
    (hskip : enforceBIP30 env.params pindex = false → ∀ o,
      (CCoinsView.createdCoin (env.getHash cb) cb pindex.nHeight o).isSome → view.getCoin o = none)
    (hbip30 : checkBIP30 env pindex view block = .ok ()) {o : COutPoint}
    (ho : (CCoinsView.createdCoin (env.getHash cb) cb pindex.nHeight o).isSome) :
    view.getCoin o = none := by
  cases henforce : enforceBIP30 env.params pindex with
  | false => exact hskip henforce o ho
  | true =>
    have hmem : cb ∈ block.vtx := hblock.vtx_eq ▸ List.mem_cons_self
    exact getCoin_created_eq_none (checkBIP30_eq_ok hbip30 henforce cb hmem) ho

/-- **What connecting a block does to a sum over the coins.** -/
theorem coinSum_connectTransactions_overwritten (hblock : CheckedBlock block cb txs)
    (h : connectTransactions env block pindex view = .ok (view', undo)) :
    undo.vtxundo.length = txs.length ∧
      coinSum v view' + overwrittenSum v view (env.getHash cb) cb +
          (block.vtx.zipIdx.map fun e => spentSum v (spentCoins undo.vtxundo e)).sum =
        coinSum v view +
          (block.vtx.map fun tx => createdSum v (env.getHash tx) pindex.nHeight tx).sum := by
  simp only [connectTransactions, bind_eq_ok, pure_eq_ok, Prod.mk.injEq] at h
  obtain ⟨_, -, st, hloop, -, -, rfl, rfl⟩ := h
  have hchecked := hblock.checked
  rw [List.forall_mem_cons] at hchecked
  rw [hblock.vtx_eq, List.zipIdx_cons, foldlM_cons_eq_ok] at hloop
  obtain ⟨mid, hfirst, hloop⟩ := hloop
  obtain ⟨txfee, txundo, -, hupdate, -, hvtxundo⟩ := connectTx_eq_ok hfirst
  have hcoinbase := coinSum_updateCoins (v := v) hchecked.1 hupdate
  obtain ⟨undos, hundos, hlength, hrest⟩ := coinSum_foldlM_connectTx (v := v) hchecked.2
    hblock.not_coinbase hloop
  rw [if_pos rfl] at hvtxundo
  rw [hvtxundo, List.nil_append] at hundos
  rw [hundos]
  refine ⟨hlength, ?_⟩
  rw [if_pos hblock.coinbase] at hcoinbase
  have hnone : spentCoins undos (cb, 0) = [] := if_pos hblock.coinbase
  rw [hblock.vtx_eq, List.zipIdx_cons, List.map_cons, List.sum_cons, hnone,
    map_spentCoins hblock.not_coinbase hlength, spentSum, List.map_nil, List.sum_nil, zero_add,
    add_right_comm, hrest, add_right_comm, hcoinbase, List.map_cons, List.sum_cons, add_assoc]

theorem coinSum_connectTransactions (hblock : CheckedBlock block cb txs)
    (hskip : enforceBIP30 env.params pindex = false → ∀ o,
      (CCoinsView.createdCoin (env.getHash cb) cb pindex.nHeight o).isSome → view.getCoin o = none)
    (h : connectTransactions env block pindex view = .ok (view', undo)) :
    undo.vtxundo.length = txs.length ∧
      coinSum v view' + (block.vtx.zipIdx.map fun e => spentSum v (spentCoins undo.vtxundo e)).sum =
        coinSum v view +
          (block.vtx.map fun tx => createdSum v (env.getHash tx) pindex.nHeight tx).sum := by
  obtain ⟨hlength, hsum⟩ := coinSum_connectTransactions_overwritten (v := v) hblock h
  simp only [connectTransactions, bind_eq_ok] at h
  obtain ⟨_, hbip30, -⟩ := h
  have hnone : overwrittenSum v view (env.getHash cb) cb = 0 :=
    overwrittenSum_eq_zero (hblock.checked cb List.mem_cons_self) pindex.nHeight
      fun _ ho => coinbase_slots_free hblock hskip hbip30 ho
  rw [hnone, add_zero] at hsum
  exact ⟨hlength, hsum⟩

/-! ### Where coins come from -/

theorem getCoin_connectTx {tx : CTransaction} {i : Nat} {st st' : ConnectState}
    (hchecked : Checked tx) (h : connectTx env pindex st (tx, i) = .ok st') {o : COutPoint}
    {c : Coin} (hc : st'.view.getCoin o = some c) :
    CCoinsView.createdCoin (env.getHash tx) tx pindex.nHeight o = some c ∨
      st.view.getCoin o = some c := by
  obtain ⟨txfee, txundo, -, hupdate, -⟩ := connectTx_eq_ok h
  obtain ⟨mid, hspend, hadd⟩ := updateCoins_eq_ok.mp hupdate
  have hlen := (lengths_le_of_checked hchecked).2
  rw [CCoinsView.getCoin_addCoins (by omega) hadd, Option.or_eq_some_iff] at hc
  rcases hc with hc | ⟨-, hc⟩
  · exact .inl hc
  · exact .inr ((getCoin_spendTx hspend).1 o c hc)

theorem getCoin_foldlM_connectTx {entries : List (CTransaction × Nat)} {st st' : ConnectState}
    (hchecked : ∀ e ∈ entries, Checked e.1)
    (h : entries.foldlM (connectTx env pindex) st = .ok st') {o : COutPoint} {c : Coin}
    (hc : st'.view.getCoin o = some c) :
    (∃ e ∈ entries, CCoinsView.createdCoin (env.getHash e.1) e.1 pindex.nHeight o = some c) ∨
      st.view.getCoin o = some c := by
  refine foldlM_invariant (P := fun acc => acc.view.getCoin o = some c →
    (∃ e ∈ entries, CCoinsView.createdCoin (env.getHash e.1) e.1 pindex.nHeight o = some c) ∨
      st.view.getCoin o = some c) ?_ .inr h hc
  rintro acc ⟨tx, i⟩ acc' hmem hacc hstep hcoin
  rcases getCoin_connectTx (hchecked _ hmem) hstep hcoin with hcreated | hold
  · exact .inl ⟨(tx, i), hmem, hcreated⟩
  · exact hacc hold

/-! ### Values of coins -/

def Valued (view : CCoinsView) : Prop :=
  ∀ o c, view.getCoin o = some c → c.out.nValue.IsExplicit ∨ c.out.nValue.IsCommitment

theorem valued_empty : Valued CCoinsView.empty := by
  intro o c hc
  simp at hc

/-- The outputs of a transaction of an accepted block have an amount or a commitment. -/
theorem valued_connectTx (hblock : CheckedBlock block cb txs) {tx : CTransaction} {i : Nat}
    {st st' : ConnectState} (hmem : tx ∈ block.vtx) (hst : Valued st.view)
    (h : connectTx env pindex st (tx, i) = .ok st') : Valued st'.view := by
  obtain ⟨txfee, txundo, hfee, -⟩ := connectTx_eq_ok h
  have hmem' : tx ∈ cb :: txs := hblock.vtx_eq ▸ hmem
  have houts : ∀ out ∈ tx.vout, out.nValue.IsExplicit ∨ out.nValue.IsCommitment := by
    by_cases hcb : tx.IsCoinBase
    · rcases List.mem_cons.mp hmem' with rfl | hlater
      · exact fun out hout => .inl (hblock.coinbase_out out hout).1
      · exact absurd hcb (hblock.not_coinbase tx hlater)
    · rw [connectFee, if_neg hcb] at hfee
      simp only [connectInputs, bind_eq_ok, mapError_eq_ok] at hfee
      obtain ⟨fee, haccept, -⟩ := hfee
      exact isExplicit_or_isCommitment haccept
  intro o c hc
  rcases getCoin_connectTx (hblock.checked tx hmem') h hc with hcreated | hold
  · obtain ⟨-, out, hout, -, rfl⟩ := CCoinsView.createdCoin_eq_some.mp hcreated
    exact houts out (List.mem_of_getElem? hout)
  · exact hst o c hold

theorem valued_foldlM_connectTx (hblock : CheckedBlock block cb txs)
    {entries : List (CTransaction × Nat)} {st st' : ConnectState}
    (hentries : ∀ e ∈ entries, e.1 ∈ block.vtx) (hst : Valued st.view)
    (h : entries.foldlM (connectTx env pindex) st = .ok st') : Valued st'.view := by
  refine foldlM_invariant (P := fun st => Valued st.view) ?_ hst h
  rintro st ⟨tx, i⟩ st' hmem hst hstep
  exact valued_connectTx hblock (hentries _ hmem) hst hstep

theorem valued_connectTransactions (hblock : CheckedBlock block cb txs) (hview : Valued view)
    (h : connectTransactions env block pindex view = .ok (view', undo)) : Valued view' := by
  simp only [connectTransactions, bind_eq_ok, pure_eq_ok, Prod.mk.injEq] at h
  obtain ⟨-, -, st, hloop, -, -, rfl, -⟩ := h
  exact valued_foldlM_connectTx hblock (fun _ he => List.fst_mem_of_mem_zipIdx he) hview hloop

end Block

end Rcpu.CoinSums
