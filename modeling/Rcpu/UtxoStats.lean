import Rcpu.BlockStats

/-!
# Block statistics and the coins of a chain

What `getblockstats` says of the number and the size of the coins, added up along a chain, against the
coins that `ConnectBlock` leaves.  The loop decides for itself which outputs become coins and how
large they are; `AddCoin` decides otherwise about fee outputs, and the size of a coin depends on the
mode of the transaction that is asked.
-/

namespace Rcpu.UtxoStats

open Serialize Checks Json Script WeightedMap Tally Confidential Transaction TxCheck
  ConfidentialValidation Coins TxVerify Validation CoinSums TxFees CoinIndex IndexedChain
  CoinIndexRuns BlockStats

/-! ### What the loop adds up -/

def Counted (pindex : CBlockIndex) (tx : CTransaction) (out : CTxOut) : Prop :=
  ¬ (pindex.nHeight = 0 ∨ (isBIP30Repeat pindex ∧ tx.IsCoinBase)) ∧ ¬ IsUnspendable out.scriptPubKey

instance (pindex : CBlockIndex) (tx : CTransaction) (out : CTxOut) :
    Decidable (Counted pindex tx out) := inferInstanceAs (Decidable (_ ∧ _))

def utxoSize (tx : CTransaction) (out : CTxOut) : Nat :=
  (out.serialize tx.fCT).length + PER_UTXO_OVERHEAD

/-- What an output puts on `utxo_size_inc_actual`. -/
def createdSize (pindex : CBlockIndex) (tx : CTransaction) (out : CTxOut) : Int :=
  if Counted pindex tx out then utxoSize tx out else 0

/-- What an input takes off `utxo_size_inc_actual`. -/
def spentSize (tx : CTransaction) (coin : Coin) : Int := utxoSize tx coin.out

def countedOutputs (stored : StoredBlock) : Nat :=
  (stored.block.vtx.map fun tx => tx.vout.countP fun out => Counted stored.pindex tx out).sum

def countedInputs (stored : StoredBlock) : Nat :=
  (stored.block.vtx.map fun tx => if tx.IsCoinBase then 0 else tx.vin.length).sum

def utxoIncreaseActual (stored : StoredBlock) : Int := countedOutputs stored - countedInputs stored

def sizeIncActual (pindex : CBlockIndex) (vtxundo : List CTxUndo) (entry : CTransaction × Nat) : Int :=
  (entry.1.vout.map (createdSize pindex entry.1)).sum -
    if entry.1.IsCoinBase then 0
    else (((undoAt vtxundo entry.2).elim [] CTxUndo.vprevout).map (spentSize entry.1)).sum

def utxoSizeIncActual (stored : StoredBlock) : Int :=
  (stored.block.vtx.zipIdx.map (sizeIncActual stored.pindex stored.undo.vtxundo)).sum

/-! ### The loop -/

section Loop

variable {want : Wanted} {pindex : CBlockIndex} {vtxundo : List CTxUndo} {tx : CTransaction}

theorem natCast_countP {α R : Type} [AddCommMonoidWithOne R] (p : α → Prop) [DecidablePred p]
    (l : List α) : ((l.countP fun x => p x : Nat) : R) = (l.map fun x => if p x then 1 else 0).sum := by
  induction l with
  | nil => simp
  | cons x l ih =>
    rw [List.countP_cons, List.map_cons, List.sum_cons, ← ih]
    by_cases hx : p x
    · simp [hx, add_comm]
    · simp [hx]

theorem statsOutput_eq (pindex : CBlockIndex) (tx : CTransaction) (st : StatsState) (out : CTxOut) :
    (statsOutput pindex tx st out).utxos = st.utxos + (if Counted pindex tx out then 1 else 0) ∧
      (statsOutput pindex tx st out).inputs = st.inputs ∧
      (statsOutput pindex tx st out).utxoSizeIncActual =
        st.utxoSizeIncActual + createdSize pindex tx out := by
  unfold statsOutput createdSize Counted utxoSize
  dsimp only
  split_ifs with hskip hscript <;> simp_all

theorem statsOutputs_eq (hloop : want.loopOutputs = true) (pindex : CBlockIndex) (tx : CTransaction)
    (st : StatsState) :
    (statsOutputs want pindex tx st).utxos =
        st.utxos + ((tx.vout.countP fun out => Counted pindex tx out : Nat) : Int) ∧
      (statsOutputs want pindex tx st).inputs = st.inputs ∧
      (statsOutputs want pindex tx st).utxoSizeIncActual =
        st.utxoSizeIncActual + (tx.vout.map (createdSize pindex tx)).sum := by
  unfold statsOutputs
  rw [if_pos hloop, natCast_countP]
  have hinputs := content_foldl (c := StatsState.inputs) (w := fun _ => 0)
    (fun st out => (statsOutput_eq pindex tx st out).2.1.trans (add_zero _).symm)
  refine ⟨content_foldl (fun st out => (statsOutput_eq pindex tx st out).1) _ _, ?_,
    content_foldl (fun st out => (statsOutput_eq pindex tx st out).2.2) _ _⟩
  rw [hinputs]
  simp

theorem statsPrevouts_eq (tx : CTransaction) (st : StatsState) (coins : List Coin) :
    (coins.foldl (statsPrevout tx) st).utxos = st.utxos ∧
      (coins.foldl (statsPrevout tx) st).inputs = st.inputs ∧
      (coins.foldl (statsPrevout tx) st).utxoSizeIncActual =
        st.utxoSizeIncActual - (coins.map (spentSize tx)).sum := by
  induction coins generalizing st with
  | nil => simp
  | cons coin coins ih =>
    obtain ⟨hutxos, hinputs, hsize⟩ := ih (statsPrevout tx st coin)
    refine ⟨hutxos, hinputs, ?_⟩
    rw [List.foldl_cons, hsize, List.map_cons, List.sum_cons, ← sub_sub]
    rfl

theorem statsTx_eq {st st' : StatsState} {entry : CTransaction × Nat} (hin : want.loopInputs = true)
    (hout : want.loopOutputs = true) (h : statsTx want pindex vtxundo st entry = .ok st') :
    st'.utxos = st.utxos +
        ((entry.1.vout.countP fun out => Counted pindex entry.1 out : Nat) : Int) ∧
      st'.inputs = st.inputs + ((if entry.1.IsCoinBase then 0 else entry.1.vin.length : Nat) : Int) ∧
      st'.utxoSizeIncActual = st.utxoSizeIncActual + sizeIncActual pindex vtxundo entry := by
  obtain ⟨tx, i⟩ := entry
  obtain ⟨hutxos, hinputs, hsize⟩ := statsOutputs_eq hout pindex tx st
  unfold statsTx at h
  unfold sizeIncActual
  dsimp only at h ⊢
  by_cases hcb : tx.IsCoinBase
  · rw [if_pos hcb, Except.ok.injEq] at h
    subst h
    simp [hutxos, hinputs, hsize, hcb]
  · rw [if_neg hcb, if_pos hin] at h
    cases hundo : undoAt vtxundo i with
    | none =>
      rw [hundo] at h
      cases h
    | some txundo =>
      rw [hundo] at h
      simp only [statsInputs, bind_unit_eq_ok, pure_eq_ok] at h
      obtain ⟨-, rfl⟩ := h
      obtain ⟨hutxos', hinputs', hsize'⟩ := statsPrevouts_eq tx
        (statsSizes want tx (statsOutputs want pindex tx st)) txundo.vprevout
      refine ⟨hutxos'.trans hutxos, ?_, ?_⟩
      · rw [if_neg hcb, ← hinputs]
        exact hinputs'
      · rw [if_neg hcb, Option.elim_some, ← add_sub_assoc, ← hsize]
        exact hsize'

/-- A sum over numbered elements that does not look at the numbers. -/
theorem sum_zipIdx {α : Type} (f : α → Nat) (l : List α) :
    (l.zipIdx.map fun e => (f e.1 : Int)).sum = ((l.map f).sum : Nat) := by
  rw [map_zipIdx_fst fun x => (f x : Int), Nat.cast_list_sum, List.map_map]
  rfl

/-- **What the loop has added up** when it is through. -/
theorem statsLoop_eq {stored : StoredBlock} {st : StatsState} (hin : want.loopInputs = true)
    (hout : want.loopOutputs = true)
    (h : stored.block.vtx.zipIdx.foldlM (statsTx want stored.pindex stored.undo.vtxundo) .start =
      .ok st) :
    st.utxos - st.inputs = utxoIncreaseActual stored ∧
      st.utxoSizeIncActual = utxoSizeIncActual stored := by
  have hround : ∀ st entry st', entry ∈ stored.block.vtx.zipIdx →
      statsTx want stored.pindex stored.undo.vtxundo st entry = .ok st' → _ :=
    fun _ _ _ _ hstep => statsTx_eq hin hout hstep
  have hutxos := foldlM_sum (fun st e st' he hstep => (hround st e st' he hstep).1) h
  have hinputs := foldlM_sum (fun st e st' he hstep => (hround st e st' he hstep).2.1) h
  have hsize := foldlM_sum (fun st e st' he hstep => (hround st e st' he hstep).2.2) h
  rw [sum_zipIdx fun tx : CTransaction => tx.vout.countP fun out => Counted stored.pindex tx out]
    at hutxos
  rw [sum_zipIdx fun tx : CTransaction => if tx.IsCoinBase then 0 else tx.vin.length] at hinputs
  have hzero : StatsState.start.utxos = 0 ∧ StatsState.start.inputs = 0 ∧
      StatsState.start.utxoSizeIncActual = 0 := ⟨rfl, rfl, rfl⟩
  rw [hzero.1, zero_add] at hutxos
  rw [hzero.2.1, zero_add] at hinputs
  rw [hzero.2.2, zero_add] at hsize
  exact ⟨by rw [hutxos, hinputs, utxoIncreaseActual, countedOutputs, countedInputs], hsize⟩

/-- The loop over the requested statistics: a requested key has the value that was computed. -/
theorem get_foldlM_selectStat {all ret entries : Entries} {stats : List String} (key : String)
    (h : stats.foldlM (selectStat all) ret = .ok entries) :
    get entries key = if key ∈ stats then get all key else get ret key := by
  induction stats generalizing ret with
  | nil =>
    obtain rfl := pure_eq_ok.mp h
    simp
  | cons stat stats ih =>
    obtain ⟨mid, hmid, h⟩ := foldlM_cons_eq_ok.mp h
    have hpush : mid = pushKV ret stat (get all stat) := by
      unfold selectStat at hmid
      split at hmid
      · cases hmid
      · exact (Except.ok.inj hmid).symm
    rw [ih h, hpush]
    by_cases hkey : key = stat
    · subst hkey
      simp
    · simp [hkey, get_pushKV_of_ne hkey]

theorem get_getblockstats {params : ConsensusParams} {times : BlockTimes} {block : CBlock}
    {undo : CBlockUndo} {stats : List String} {entries : Entries} {key : String}
    (h : getblockstats params pindex times block undo stats = .ok entries)
    (hkey : get entries key ≠ .null) :
    (stats = [] ∨ key ∈ stats) ∧
      ∃ st, block.vtx.zipIdx.foldlM (statsTx (wanted stats) pindex undo.vtxundo) .start = .ok st ∧
        get entries key = get (retAll params pindex times block st) key := by
  obtain ⟨st, hloop, h⟩ := bind_eq_ok.mp h
  cases hall : (wanted stats).doAll with
  | true =>
    rw [hall, if_pos rfl, pure_eq_ok] at h
    exact ⟨.inl (List.isEmpty_iff.mp hall), st, hloop, by rw [h]⟩
  | false =>
    rw [hall, if_neg Bool.false_ne_true] at h
    rw [get_foldlM_selectStat key h] at hkey ⊢
    by_cases hmem : key ∈ stats
    · exact ⟨.inr hmem, st, hloop, if_pos hmem⟩
    · exact absurd (if_neg hmem) hkey

theorem loopInputs_of_key {stats : List String} {key : String}
    (hkey : key ∈ ["utxo_increase_actual", "utxo_size_inc_actual"])
    (h : stats = [] ∨ key ∈ stats) : (wanted stats).loopInputs = true := by
  rcases h with rfl | hmem
  · rfl
  · have hkeys : setHasKeys stats ["utxo_increase", "utxo_increase_actual", "utxo_size_inc",
        "utxo_size_inc_actual", "totalfee", "avgfee", "avgfeerate", "minfee", "maxfee", "minfeerate",
        "maxfeerate"] = true := by
      refine List.any_eq_true.mpr ⟨key, ?_, List.contains_iff_mem.mpr hmem⟩
      simp only [List.mem_cons, List.not_mem_nil, or_false] at hkey ⊢
      tauto
    simp only [wanted, hkeys, Bool.or_true]

/-- **What the call reports** of the number and the size of coins, where it reports them. -/
theorem getblockstats_actual {params : ConsensusParams} {times : BlockTimes} {stored : StoredBlock}
    {stats : List String} {entries : Entries}
    (h : getblockstats params stored.pindex times stored.block stored.undo stats = .ok entries) :
    (get entries "utxo_increase_actual" ≠ .null →
        get entries "utxo_increase_actual" = .ofInt (utxoIncreaseActual stored)) ∧
      (get entries "utxo_size_inc_actual" ≠ .null →
        get entries "utxo_size_inc_actual" = .ofInt (utxoSizeIncActual stored)) := by
  constructor
  · intro hkey
    obtain ⟨hstats, st, hloop, hvalue⟩ := get_getblockstats h hkey
    have hin := loopInputs_of_key (by simp) hstats
    rw [hvalue, ← (statsLoop_eq hin (loopOutputs_of_loopInputs hin) hloop).1]
    rfl
  · intro hkey
    obtain ⟨hstats, st, hloop, hvalue⟩ := get_getblockstats h hkey
    have hin := loopInputs_of_key (by simp) hstats
    rw [hvalue, ← (statsLoop_eq hin (loopOutputs_of_loopInputs hin) hloop).2]
    rfl

end Loop

/-! ### The number of coins -/

/-- Outputs that are counted although `AddCoin` drops them: fee outputs. -/
def phantomOutputs (stored : StoredBlock) : Nat :=
  (stored.block.vtx.map fun tx =>
    tx.vout.countP fun out => Counted stored.pindex tx out ∧ out.IsFee).sum

def hiddenCoins (stored : StoredBlock) : Nat :=
  if stored.pindex.nHeight = 0 then 0
  else (stored.block.vtx.map fun tx =>
    tx.vout.countP fun out => ¬ Counted stored.pindex tx out ∧ ¬ Coin.IsDropped out).sum

def overwrittenCoins {𝔾 : Type} (env : ChainEnv 𝔾) : List Node → Nat
  | [] => 0
  | node :: chain => overwrittenCoins env chain +
      ((node.stored.block.vtx.filter fun tx => tx.IsCoinBase).map fun tx =>
        overwrittenSum (fun _ _ => 1) (tipView chain) (env.getHash tx) tx).sum

theorem outputCount_eq (view : CCoinsView) : outputCount view = coinSum (fun _ _ => 1) view := by
  rw [coinSum, sumOver, outputCount]
  simp

theorem createdSum_one (txid : Uint256) (nHeight : Nat) (tx : CTransaction) :
    createdSum (fun _ _ => 1) txid nHeight tx = tx.vout.countP fun out => ¬ Coin.IsDropped out := by
  have hcount := natCast_countP (R := Nat) (fun out => ¬ Coin.IsDropped out) tx.vout
  rw [Nat.cast_id] at hcount
  rw [hcount]
  rw [← map_zipIdx_fst]
  simp only [createdSum, ite_not]

/-- Where the loop and `AddCoin` differ about the outputs of a transaction. -/
theorem countP_counted {pindex : CBlockIndex} (vout : List CTxOut) (tx : CTransaction) :
    (vout.countP fun out => Counted pindex tx out) +
        (vout.countP fun out => ¬ Counted pindex tx out ∧ ¬ Coin.IsDropped out) =
      (vout.countP fun out => ¬ Coin.IsDropped out) +
        vout.countP fun out => Counted pindex tx out ∧ out.IsFee := by
  induction vout with
  | nil => rfl
  | cons out vout ih =>
    have hhead : (if Counted pindex tx out then 1 else 0) +
          (if ¬ Counted pindex tx out ∧ ¬ Coin.IsDropped out then 1 else 0) =
        (if ¬ Coin.IsDropped out then 1 else 0) +
          if Counted pindex tx out ∧ out.IsFee then 1 else 0 := by
      unfold Counted Coin.IsDropped
      by_cases hscript : IsUnspendable out.scriptPubKey <;> by_cases hfee : out.IsFee <;>
        by_cases hskip : pindex.nHeight = 0 ∨ (isBIP30Repeat pindex ∧ tx.IsCoinBase) <;> simp_all
    simp only [List.countP_cons, decide_eq_true_eq]
    omega

section Count

variable {𝔾 : Type} [AddCommGroup 𝔾] [Module Scalar 𝔾] [DecidableEq 𝔾] {env : ChainEnv 𝔾}
  {blockman : BlockManager} {chain : List Node} {node : Node}

theorem sum_spentCoins {view view' : CCoinsView} {undo : CBlockUndo} {block : CBlock}
    {pindex : CBlockIndex} {cb : CTransaction} {txs : List CTransaction}
    (hblock : CheckedBlock block cb txs)
    (h : connectTransactions env block pindex view = .ok (view', undo)) :
    (block.vtx.zipIdx.map fun e => spentSum (fun _ _ => 1) (spentCoins undo.vtxundo e)).sum =
      (block.vtx.map fun tx => if tx.IsCoinBase then 0 else tx.vin.length).sum := by
  have hround : ∀ e ∈ block.vtx.zipIdx, spentSum (fun _ _ => 1) (spentCoins undo.vtxundo e) =
      if e.1.IsCoinBase then 0 else e.1.vin.length := by
    rintro ⟨tx, i⟩ hmem
    rw [spentCoins]
    split_ifs with hcb
    · rfl
    · rw [hblock.vtx_eq, List.zipIdx_cons, List.mem_cons, Prod.mk.injEq] at hmem
      obtain ⟨rfl, -⟩ | hmem := hmem
      · exact absurd hblock.coinbase hcb
      · obtain ⟨hi, htx⟩ := List.mk_mem_zipIdx_iff_le_and_getElem?_sub.mp hmem
        obtain ⟨i, rfl⟩ : ∃ j, i = j + 1 := ⟨i - 1, by omega⟩
        have hat : block.vtx[i + 1]? = some tx := by
          rw [hblock.vtx_eq, List.getElem?_cons_succ]
          simpa using htx
        obtain ⟨_, _, coins, -, -, hcoins, hmap⟩ := exists_connectBefore h hat hcb
        have hlength : tx.vin.length = coins.length := by simpa using congrArg List.length hmap
        simp [spentSum, undoAt, hcoins, hlength]
  rw [List.map_congr_left hround,
    map_zipIdx_fst fun tx : CTransaction => if tx.IsCoinBase then 0 else tx.vin.length]

/-- The genesis block has one transaction; it is built so by `CreateGenesisBlock`. -/
def OneGenesisTx (env : ChainEnv 𝔾) (chain : List Node) : Prop :=
  ∀ node ∈ chain, node.hash = env.params.hashGenesisBlock → node.stored.block.vtx.length = 1

theorem genesis_counts {stored : StoredBlock} {cb : CTransaction} (hzero : stored.pindex.nHeight = 0)
    (hvtx : stored.block.vtx = [cb]) (hcb : cb.IsCoinBase) :
    utxoIncreaseActual stored = 0 ∧ hiddenCoins stored = 0 ∧ phantomOutputs stored = 0 := by
  refine ⟨?_, if_pos hzero, ?_⟩
  · simp [utxoIncreaseActual, countedOutputs, countedInputs, hvtx, hcb, Counted, hzero]
  · simp [phantomOutputs, hvtx, Counted, hzero]

omit [AddCommGroup 𝔾] [Module Scalar 𝔾] [DecidableEq 𝔾] in
theorem overwrittenCoins_cons {cb : CTransaction} {txs : List CTransaction}
    (hblock : CheckedBlock node.stored.block cb txs) :
    overwrittenCoins env (node :: chain) = overwrittenCoins env chain +
      overwrittenSum (fun _ _ => 1) (tipView chain) (env.getHash cb) cb := by
  have hnone : txs.filter (fun tx => tx.IsCoinBase) = [] :=
    List.filter_eq_nil_iff.mpr fun tx htx => by simpa using hblock.not_coinbase tx htx
  rw [overwrittenCoins, hblock.vtx_eq, List.filter_cons_of_pos (by simpa using hblock.coinbase), hnone]
  simp

/-- The sums over a block of what `countP_counted` says of its transactions. -/
theorem countedOutputs_add_hiddenCoins (stored : StoredBlock) (hheight : stored.pindex.nHeight ≠ 0) :
    countedOutputs stored + hiddenCoins stored =
      (stored.block.vtx.map fun tx => tx.vout.countP fun out => ¬ Coin.IsDropped out).sum +
        phantomOutputs stored := by
  rw [countedOutputs, hiddenCoins, if_neg hheight, phantomOutputs, ← List.sum_map_add,
    ← List.sum_map_add]
  simp only [countP_counted]

/-- **How one block changes the number of coins**, against what the call says. -/
theorem outputCount_connected (h : ConnectedChain env blockman (node :: chain))
    (hgenesis : OneGenesisTx env (node :: chain)) :
    utxoIncreaseActual node.stored + outputCount (tipView chain) + hiddenCoins node.stored +
        overwrittenCoins env chain =
      outputCount node.view + phantomOutputs node.stored + overwrittenCoins env (node :: chain) := by
  obtain ⟨cb, txs, hblock, ⟨hzero, rfl, hview⟩ | ⟨hheight, hconnect⟩⟩ := h.cases_connected
  · have hone := hgenesis node List.mem_cons_self (h.connects.genesis rfl)
    rw [hblock.vtx_eq, List.length_cons, Nat.add_eq_right, List.length_eq_zero_iff] at hone
    obtain ⟨hincrease, hhidden, hphantom⟩ :=
      genesis_counts hzero (hone ▸ hblock.vtx_eq) hblock.coinbase
    have hnone : overwrittenSum (fun _ _ => 1) (tipView []) (env.getHash cb) cb = 0 :=
      overwrittenSum_eq_zero (hblock.checked cb List.mem_cons_self) 0
        fun o _ => CCoinsView.getCoin_empty o
    rw [hincrease, hhidden, hphantom, overwrittenCoins_cons hblock, hnone, hview, tipView]
    omega
  · have hsum := (coinSum_connectTransactions_overwritten (v := fun _ _ => 1) hblock hconnect).2
    rw [sum_spentCoins hblock hconnect, ← outputCount_eq, ← outputCount_eq] at hsum
    simp only [createdSum_one] at hsum
    have hcounted := countedOutputs_add_hiddenCoins node.stored hheight.ne'
    rw [overwrittenCoins_cons hblock, utxoIncreaseActual, countedInputs]
    omega

/-- **The statistic added up along a chain**: the coins at the tip, counted fee outputs and
overwritten coins, less the coins not counted. -/
theorem sum_utxoIncreaseActual (h : ConnectedChain env blockman chain)
    (hgenesis : OneGenesisTx env chain) :
    (chain.map fun node => utxoIncreaseActual node.stored).sum +
        ((chain.map fun node => hiddenCoins node.stored).sum : Nat) =
      outputCount (tipView chain) + ((chain.map fun node => phantomOutputs node.stored).sum : Nat) +
        overwrittenCoins env chain := by
  induction chain with
  | nil => rfl
  | cons node chain ih =>
    have hrest := ih h.tail fun node' hmem => hgenesis node' (List.mem_cons_of_mem node hmem)
    have hnode := outputCount_connected h hgenesis
    simp only [List.map_cons, List.sum_cons, tipView, Nat.cast_add] at hrest hnode ⊢
    omega

end Count

/-! ### Sizes of coins -/

theorem length_serialize_lt {out : CTxOut} (h : out.nValue.IsExplicit ∨ out.nValue.IsCommitment) :
    (out.serialize false).length < (out.serialize true).length := by
  have hvalue : 9 ≤ out.nValue.vchCommitment.length := by
    rcases h with ⟨hlength, -⟩ | ⟨hlength, -⟩
    · exact hlength.ge
    · exact hlength.ge.trans' (by decide)
  simp only [CTxOut.serialize, if_true, Bool.false_eq_true, if_false, List.length_append,
    length_serInt64, CConfidentialCommitment.length_serialize]
  omega

theorem utxoSize_eq_iff (tx tx' : CTransaction) {out : CTxOut}
    (h : out.nValue.IsExplicit ∨ out.nValue.IsCommitment) :
    utxoSize tx out = utxoSize tx' out ↔ tx.fCT = tx'.fCT := by
  have hlt := length_serialize_lt h
  unfold utxoSize
  cases tx.fCT <;> cases tx'.fCT <;> simp only [reduceCtorEq, iff_false] <;> omega

section Origin

variable {𝔾 : Type} [AddCommGroup 𝔾] [Module Scalar 𝔾] [DecidableEq 𝔾] {env : ChainEnv 𝔾}
  {blockman : BlockManager} {chain : List Node} {node : Node} {o : COutPoint} {coin : Coin}

/-- A transaction of a block above the genesis block made the coin at an outpoint. -/
def Creates {𝔾 : Type} (env : ChainEnv 𝔾) (maker : Node) (tx : CTransaction) (o : COutPoint)
    (coin : Coin) : Prop :=
  0 < maker.stored.pindex.nHeight ∧ tx ∈ maker.stored.block.vtx ∧
    CCoinsView.createdCoin (env.getHash tx) tx maker.stored.pindex.nHeight o = some coin

omit [AddCommGroup 𝔾] [Module Scalar 𝔾] [DecidableEq 𝔾] in
theorem checked_zipIdx {block : CBlock} {cb : CTransaction} {txs : List CTransaction}
    (hblock : CheckedBlock block cb txs) : ∀ e ∈ block.vtx.zipIdx, Checked e.1 :=
  fun _ he => hblock.checked _ (hblock.vtx_eq ▸ List.fst_mem_of_mem_zipIdx he)

theorem exists_creates (h : ConnectedChain env blockman chain)
    (hcoin : (tipView chain).getCoin o = some coin) :
    ∃ maker ∈ chain, ∃ tx, Creates env maker tx o coin := by
  induction chain with
  | nil => simp [tipView] at hcoin
  | cons node chain ih =>
    obtain ⟨cb, txs, hblock, ⟨-, -, hview⟩ | ⟨hheight, hconnect⟩⟩ := h.cases_connected
    · simp [tipView, hview] at hcoin
    · simp only [connectTransactions, bind_eq_ok, pure_eq_ok, Prod.mk.injEq] at hconnect
      obtain ⟨-, -, st, hloop, -, -, hview, -⟩ := hconnect
      rw [tipView, ← hview] at hcoin
      rcases getCoin_foldlM_connectTx (checked_zipIdx hblock) hloop hcoin with ⟨e, he, hcreated⟩ | hold
      · exact ⟨node, List.mem_cons_self, e.1, hheight, List.fst_mem_of_mem_zipIdx he, hcreated⟩
      · obtain ⟨maker, hmaker, hcreates⟩ := ih h.tail hold
        exact ⟨maker, List.mem_cons_of_mem node hmaker, hcreates⟩

/-- A coin that a transaction of the last block spends has a value and was made in the chain. -/
theorem exists_creates_spent_tip (h : ConnectedChain env blockman (node :: chain)) {i : Nat}
    {tx : CTransaction} {txundo : CTxUndo} (hi : node.stored.block.vtx[i + 1]? = some tx)
    (hundo : node.stored.undo.vtxundo[i]? = some txundo) {e : CTxIn × Coin}
    (he : e ∈ tx.vin.zip txundo.vprevout) :
    (e.2.out.nValue.IsExplicit ∨ e.2.out.nValue.IsCommitment) ∧
      ∃ maker ∈ node :: chain, ∃ tx, Creates env maker tx e.1.prevout e.2 := by
  have hne : node.stored.undo.vtxundo ≠ [] := by
    intro hnil
    simp [hnil] at hundo
  obtain ⟨hheight, ⟨cb, txs, hblock⟩, hconnect⟩ :=
    connectTransactions_of_vtxundo h.connects.connected hne
  have hmem : tx ∈ txs := by
    rw [hblock.vtx_eq, List.getElem?_cons_succ] at hi
    exact List.mem_of_getElem? hi
  obtain ⟨st, -, coins, hbefore, -, hcoins, hmap⟩ := exists_connectBefore hconnect hi
    (hblock.not_coinbase tx hmem)
  obtain rfl : txundo = ⟨coins⟩ := Option.some.inj (hundo.symm.trans hcoins)
  have hcoin : st.view.getCoin e.1.prevout = some e.2 := by
    obtain ⟨j, hj⟩ := List.mem_iff_getElem?.mp he
    rw [List.getElem?_zip_eq_some] at hj
    have hat := congrArg (fun l => l[j]?) hmap
    simpa [hj.1, hj.2] using hat
  have htake : ∀ e ∈ node.stored.block.vtx.zipIdx.take (i + 1), e ∈ node.stored.block.vtx.zipIdx :=
    fun _ hmem => List.mem_of_mem_take hmem
  refine ⟨valued_foldlM_connectTx hblock (fun e he => List.fst_mem_of_mem_zipIdx (htake e he))
    h.tail.valued hbefore _ _ hcoin, ?_⟩
  rcases getCoin_foldlM_connectTx (fun e he => checked_zipIdx hblock e (htake e he)) hbefore hcoin
    with ⟨e', he', hcreated⟩ | hold
  · exact ⟨node, List.mem_cons_self, e'.1, Nat.pos_of_ne_zero hheight,
      List.fst_mem_of_mem_zipIdx (htake e' he'), hcreated⟩
  · obtain ⟨maker, hmaker, hcreates⟩ := exists_creates h.tail hold
    exact ⟨maker, List.mem_cons_of_mem node hmaker, hcreates⟩

/-- A coin that a transaction of a chain spends has a value and was made in the chain. -/
theorem exists_creates_spent (h : ConnectedChain env blockman chain) (hnode : node ∈ chain) {i : Nat}
    {tx : CTransaction} {txundo : CTxUndo} (hi : node.stored.block.vtx[i + 1]? = some tx)
    (hundo : node.stored.undo.vtxundo[i]? = some txundo) {e : CTxIn × Coin}
    (he : e ∈ tx.vin.zip txundo.vprevout) :
    (e.2.out.nValue.IsExplicit ∨ e.2.out.nValue.IsCommitment) ∧
      ∃ maker ∈ chain, ∃ tx, Creates env maker tx e.1.prevout e.2 := by
  induction chain with
  | nil => cases hnode
  | cons tip chain ih =>
    rcases List.mem_cons.mp hnode with rfl | hbelow
    · exact exists_creates_spent_tip h hi hundo he
    · obtain ⟨hvalue, maker, hmaker, hcreates⟩ := ih h.tail hbelow
      exact ⟨hvalue, maker, List.mem_cons_of_mem tip hmaker, hcreates⟩

omit [AddCommGroup 𝔾] [Module Scalar 𝔾] [DecidableEq 𝔾] in
/-- What is put on for a coin is what is taken off for it exactly if the coinbase is not passed over
and both transactions have the same mode. -/
theorem createdSize_eq_spentSize_iff {maker : Node} {tx spender : CTransaction}
    (hvalue : coin.out.nValue.IsExplicit ∨ coin.out.nValue.IsCommitment)
    (h : Creates env maker tx o coin) :
    createdSize maker.stored.pindex tx coin.out = spentSize spender coin ↔
      ¬ (isBIP30Repeat maker.stored.pindex ∧ tx.IsCoinBase) ∧ tx.fCT = spender.fCT := by
  obtain ⟨hheight, -, hcreated⟩ := h
  obtain ⟨-, out, -, hstored, rfl⟩ := CCoinsView.createdCoin_eq_some.mp hcreated
  have hscript : ¬ IsUnspendable out.scriptPubKey := fun hscript => hstored.2 (.inl hscript)
  have hsize := utxoSize_eq_iff tx spender hvalue
  have hcounted : Counted maker.stored.pindex tx out ↔
      ¬ (isBIP30Repeat maker.stored.pindex ∧ tx.IsCoinBase) := by
    simp [Counted, hheight.ne', hscript]
  rw [← hcounted, createdSize, spentSize]
  split_ifs with hcount
  · rw [Int.natCast_inj, hsize]
    exact ⟨fun hmode => ⟨hcount, hmode⟩, And.right⟩
  · refine ⟨fun hzero => ?_, fun hboth => absurd hboth.1 hcount⟩
    unfold utxoSize PER_UTXO_OVERHEAD at hzero
    omega

end Origin

/-- **The statistics of the blocks against the coins of a chain**: the first sum is the number of
coins exactly if as many outputs are counted too often as coins are not counted; the two
contributions of a spent coin cancel exactly if it was counted and both its transactions have the
same mode. -/
theorem getblockstats_utxos_iff {𝔾 : Type} [AddCommGroup 𝔾] [Module Scalar 𝔾] [DecidableEq 𝔾]
    (env : ChainEnv 𝔾) (blockman : BlockManager) (chain : List Node)
    (h : ConnectedChain env blockman chain) (hgenesis : OneGenesisTx env chain) :
    (∀ node ∈ chain, ∀ times stats entries,
      getblockstats env.params node.stored.pindex times node.stored.block node.stored.undo stats =
          .ok entries →
        (get entries "utxo_increase_actual" ≠ .null →
          get entries "utxo_increase_actual" = .ofInt (utxoIncreaseActual node.stored)) ∧
        (get entries "utxo_size_inc_actual" ≠ .null →
          get entries "utxo_size_inc_actual" = .ofInt (utxoSizeIncActual node.stored))) ∧
      ((chain.map fun node => utxoIncreaseActual node.stored).sum = outputCount (tipView chain) ↔
        (chain.map fun node => phantomOutputs node.stored).sum + overwrittenCoins env chain =
          (chain.map fun node => hiddenCoins node.stored).sum) ∧
      ∀ node ∈ chain, ∀ i spender txundo, node.stored.block.vtx[i + 1]? = some spender →
        node.stored.undo.vtxundo[i]? = some txundo → ∀ e ∈ spender.vin.zip txundo.vprevout,
          (∃ maker ∈ chain, ∃ tx, Creates env maker tx e.1.prevout e.2) ∧
          ∀ maker ∈ chain, ∀ tx, Creates env maker tx e.1.prevout e.2 →
            (createdSize maker.stored.pindex tx e.2.out - spentSize spender e.2 = 0 ↔
              ¬ (isBIP30Repeat maker.stored.pindex ∧ tx.IsCoinBase) ∧ tx.fCT = spender.fCT) := by
  refine ⟨fun node _ times stats entries hcall => getblockstats_actual hcall, ?_, ?_⟩
  · have hsum := sum_utxoIncreaseActual h hgenesis
    omega
  · intro node hnode i spender txundo hi hundo e he
    obtain ⟨hvalue, hmade⟩ := exists_creates_spent h hnode hi hundo he
    refine ⟨hmade, fun maker _ tx hcreates => ?_⟩
    rw [sub_eq_zero]
    exact createdSize_eq_spentSize_iff hvalue hcreates

theorem oneGenesisTx_sampleChain {n : Nat} (hn : n ≤ 102) :
    OneGenesisTx sampleEnv (sampleChain n) := by
  induction n with
  | zero => exact fun _ hmem => nomatch hmem
  | succ n ih =>
    intro node hmem hhash
    rcases List.mem_cons.mp hmem with rfl | hmem
    · rw [Node.hash, pindex_sampleNode] at hhash
      obtain rfl : n = 0 := by
        have hone := uint256S_inj (m := n + 1) (n := 1) (by omega) (by decide) hhash
        omega
      rfl
    · exact ih (by omega) node hmem hhash

theorem getblockstats_utxos_funding :
    ConnectedChain sampleEnv sampleBlocks (sampleChain 2) ∧
      ((sampleChain 2).map fun node => utxoIncreaseActual node.stored).sum =
        outputCount (tipView (sampleChain 2)) := by
  have hchain := (validChain_sampleChain (n := 2) (by decide)).connectedChain
  refine ⟨hchain, ?_⟩
  exact (getblockstats_utxos_iff sampleEnv sampleBlocks _ hchain
    (oneGenesisTx_sampleChain (by decide))).2.1.mpr (by decide +kernel)

/-- The block that blinds the coin: one coin is left and the calls add up to two, since the fee
output is counted; three bytes more are taken off than were put on. -/
theorem getblockstats_utxos_blinding :
    ConnectedChain sampleEnv sampleBlocks (sampleChain 102) ∧
      OneGenesisTx sampleEnv (sampleChain 102) ∧
      ((sampleChain 102).map fun node => utxoIncreaseActual node.stored).sum = 2 ∧
      outputCount (tipView (sampleChain 102)) = 1 ∧
      getblockstats sampleEnv.params (sampleIndex 101) ⟨0, 0⟩ (sampleNode 101).stored.block
          (sampleNode 101).stored.undo ["utxo_increase_actual"] =
        .ok [("utxo_increase_actual", .ofInt 1)] ∧
      Creates sampleEnv (sampleNode 1) (sampleCoinbase 1 fundingOut) ⟨uint256S 1, 0⟩ fundingCoin ∧
      (sampleNode 101).stored.block.vtx[1]? = some blindingTx ∧
      (sampleNode 101).stored.undo.vtxundo[0]? = some ⟨[fundingCoin]⟩ ∧
      blindingTx.vin.map CTxIn.prevout = [⟨uint256S 1, 0⟩] ∧
      createdSize (sampleIndex 1) (sampleCoinbase 1 fundingOut) fundingOut = 51 ∧
      spentSize blindingTx fundingCoin = 54 := by
  have hcreates : Creates sampleEnv (sampleNode 1) (sampleCoinbase 1 fundingOut) ⟨uint256S 1, 0⟩
      fundingCoin := ⟨by decide, List.mem_singleton.mpr rfl, by decide⟩
  refine ⟨(validChain_sampleChain (Nat.le_refl 102)).connectedChain,
    oneGenesisTx_sampleChain (Nat.le_refl 102), by decide +kernel, by decide +kernel, rfl, hcreates,
    rfl, rfl, rfl, by decide, by decide⟩

end Rcpu.UtxoStats
