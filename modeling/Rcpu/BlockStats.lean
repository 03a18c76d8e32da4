import Mathlib.Data.List.Sort
import Rcpu.CoreWrite

/-!
# Statistics of a block

The call `getblockstats` of `rpc/blockchain.cpp`.  One loop over the transactions collects whatever the
requested statistics need; the fee of a transaction is summed up anew from the amounts in the block
and in its undo data, where a commitment counts as zero.
-/

namespace Rcpu.BlockStats

open Checks Json Script Confidential Transaction TxCheck ConfidentialValidation Coins TxVerify
  Validation CoinSums TxFees CoreWrite IndexedChain CoinIndexRuns

/-! ### Medians and percentiles -/

def calculateTruncatedMedian (scores : List Int) : Int :=
  let size := scores.length
  let sorted := scores.insertionSort (· ≤ ·)
  if size = 0 then 0
  else if size % 2 = 0 then (sorted.getD (size / 2 - 1) 0 + sorted.getD (size / 2) 0).tdiv 2
  else sorted.getD (size / 2) 0

/-- The order of `std::pair`. -/
def PairLE (a b : Int × Int) : Prop := a.1 < b.1 ∨ a.1 = b.1 ∧ a.2 ≤ b.2

instance : DecidableRel PairLE := fun _ _ => inferInstanceAs (Decidable (_ ∨ _))

/-- The 10th, 25th, 50th, 75th and 90th percentile weight units, as fractions of the total weight. -/
def percentileFractions : List (Int × Int) := [(1, 10), (1, 4), (1, 2), (3, 4), (9, 10)]

/-- The loop over the sorted scores: each percentile takes the first score at which its weight is
reached, and those that remain take the last score. -/
def percentileLoop (totalWeight : Int) : List (Int × Int) → Int → Int → List (Int × Int) → List Int
  | [], last, _, fractions => fractions.map fun _ => last
  | (score, weight) :: scores, _, cumulativeWeight, fractions =>
    let cumulativeWeight := cumulativeWeight + weight
    let reached := fractions.takeWhile fun fraction =>
      decide (totalWeight * fraction.1 ≤ cumulativeWeight * fraction.2)
    reached.map (fun _ => score) ++
      percentileLoop totalWeight scores score cumulativeWeight (fractions.drop reached.length)

def calculatePercentilesByWeight (scores : List (Int × Int)) (totalWeight : Int) : List Int :=
  if scores = [] then percentileFractions.map fun _ => 0
  else percentileLoop totalWeight (scores.insertionSort PairLE) 0 0 percentileFractions

/-! ### What is computed -/

structure Wanted where
  doAll : Bool
  doMediantxsize : Bool
  doMedianfee : Bool
  doFeeratePercentiles : Bool
  loopInputs : Bool
  loopOutputs : Bool
  doCalculateSize : Bool
  doCalculateWeight : Bool
  doCalculateSw : Bool

def setHasKeys (stats keys : List String) : Bool := keys.any fun key => stats.contains key

def wanted (stats : List String) : Wanted :=
  let doAll := stats.isEmpty
  let doMediantxsize := doAll || stats.contains "mediantxsize"
  let doMedianfee := doAll || stats.contains "medianfee"
  let doFeeratePercentiles := doAll || stats.contains "feerate_percentiles"
  let loopInputs := doAll || doMedianfee || doFeeratePercentiles ||
    setHasKeys stats ["utxo_increase", "utxo_increase_actual", "utxo_size_inc",
      "utxo_size_inc_actual", "totalfee", "avgfee", "avgfeerate", "minfee", "maxfee", "minfeerate",
      "maxfeerate"]
  { doAll := doAll
    doMediantxsize := doMediantxsize
    doMedianfee := doMedianfee
    doFeeratePercentiles := doFeeratePercentiles
    loopInputs := loopInputs
    loopOutputs := doAll || loopInputs || stats.contains "total_out"
    doCalculateSize := doMediantxsize ||
      setHasKeys stats ["total_size", "avgtxsize", "mintxsize", "maxtxsize", "swtotal_size"]
    doCalculateWeight := doAll || setHasKeys stats ["total_weight", "avgfeerate", "swtotal_weight",
      "avgfeerate", "feerate_percentiles", "minfeerate", "maxfeerate"]
    doCalculateSw := doAll || setHasKeys stats ["swtxs", "swtotal_size", "swtotal_weight"] }

inductive RpcFailure where
  | internalBug (text : String)
  | outOfRange (text : String)
  | invalidParameter (text : String)
deriving DecidableEq, Repr

structure StatsState where
  maxfee : Int
  maxfeerate : Int
  minfee : Int
  minfeerate : Int
  totalOut : Int
  totalfee : Int
  inputs : Int
  maxtxsize : Int
  mintxsize : Int
  outputs : Int
  swtotalSize : Int
  swtotalWeight : Int
  swtxs : Int
  totalSize : Int
  totalWeight : Int
  utxos : Int
  utxoSizeInc : Int
  utxoSizeIncActual : Int
  feeArray : List Int
  feerateArray : List (Int × Int)
  txsizeArray : List Int

def MAX_BLOCK_SERIALIZED_SIZE : Int := 4000000

def StatsState.start : StatsState :=
  ⟨0, 0, MAX_MONEY, MAX_MONEY, 0, 0, 0, 0, MAX_BLOCK_SERIALIZED_SIZE, 0, 0, 0, 0, 0, 0, 0, 0, 0, [], [],
    []⟩

def PER_UTXO_OVERHEAD : Nat := 36 + 4 + 1

/-! ### The loop -/

section Loop

variable (want : Wanted) (pindex : CBlockIndex) (tx : CTransaction)

def statsOutput (st : StatsState) (out : CTxOut) : StatsState :=
  let outSize := (out.serialize tx.fCT).length + PER_UTXO_OVERHEAD
  let st := { st with utxoSizeInc := st.utxoSizeInc + outSize }
  -- the coinbases of the genesis block and of the BIP30 repeats change no count
  if pindex.nHeight = 0 ∨ (isBIP30Repeat pindex ∧ tx.IsCoinBase) then st
  else if IsUnspendable out.scriptPubKey then st
  else
    { st with
      utxos := st.utxos + 1
      utxoSizeIncActual := st.utxoSizeIncActual + outSize }

def statsOutputs (st : StatsState) : StatsState :=
  let st := { st with outputs := st.outputs + tx.vout.length }
  if want.loopOutputs then tx.vout.foldl (statsOutput pindex tx) st else st

def txTotalOut : Int := if want.loopOutputs then outAmount tx else 0

def txSize : Int := if want.doCalculateSize then getTotalSize tx else 0

def txWeight : Int := if want.doCalculateWeight then getTransactionWeight tx else 0

/-- The inputs, the outputs and the sizes of a transaction that is not a coinbase. -/
def statsSizes (st : StatsState) : StatsState :=
  let txSize := txSize want tx
  let weight := txWeight want tx
  let sw : Bool := want.doCalculateSw && CTransaction.hasWitness tx.vin
  { st with
    inputs := st.inputs + tx.vin.length
    totalOut := st.totalOut + txTotalOut want tx
    txsizeArray := if want.doMediantxsize then st.txsizeArray ++ [txSize] else st.txsizeArray
    maxtxsize := if want.doCalculateSize then max st.maxtxsize txSize else st.maxtxsize
    mintxsize := if want.doCalculateSize then min st.mintxsize txSize else st.mintxsize
    totalSize := st.totalSize + txSize
    totalWeight := st.totalWeight + weight
    swtxs := if sw then st.swtxs + 1 else st.swtxs
    swtotalSize := if sw then st.swtotalSize + txSize else st.swtotalSize
    swtotalWeight := if sw then st.swtotalWeight + weight else st.swtotalWeight }

/-- The mode of the spending transaction is taken for that of the prevout. -/
def statsPrevout (st : StatsState) (coin : Coin) : StatsState :=
  let prevoutSize := (coin.out.serialize tx.fCT).length + PER_UTXO_OVERHEAD
  { st with
    utxoSizeInc := st.utxoSizeInc - prevoutSize
    utxoSizeIncActual := st.utxoSizeIncActual - prevoutSize }

def addFee (txfee : Int) (st : StatsState) : StatsState :=
  let weight := txWeight want tx
  let feerate := if weight = 0 then 0 else (txfee * WITNESS_SCALE_FACTOR).tdiv weight
  { st with
    feeArray := if want.doMedianfee then st.feeArray ++ [txfee] else st.feeArray
    maxfee := max st.maxfee txfee
    minfee := min st.minfee txfee
    totalfee := st.totalfee + txfee
    feerateArray := if want.doFeeratePercentiles then st.feerateArray ++ [(feerate, weight)]
      else st.feerateArray
    maxfeerate := max st.maxfeerate feerate
    minfeerate := min st.minfeerate feerate }

def statsInputs (st : StatsState) (txundo : CTxUndo) : Except RpcFailure StatsState := do
  let txTotalIn := spentAmount txundo.vprevout
  let st := txundo.vprevout.foldl (statsPrevout tx) st
  let txfee := txTotalIn - txTotalOut want tx
  require (MoneyRange txfee) (.internalBug "MoneyRange(txfee)")
  return addFee want tx txfee st

end Loop

/-- One round, for the transaction at index `i`. -/
def statsTx (want : Wanted) (pindex : CBlockIndex) (vtxundo : List CTxUndo) (st : StatsState)
    (entry : CTransaction × Nat) : Except RpcFailure StatsState :=
  let (tx, i) := entry
  let st := statsOutputs want pindex tx st
  if tx.IsCoinBase then .ok st
  else
    let st := statsSizes want tx st
    if want.loopInputs then
      match undoAt vtxundo i with
      | none => .error (.outOfRange "blockUndo.vtxundo.at(i - 1)")
      | some txundo => statsInputs want tx st txundo
    else .ok st

/-! ### The answer -/

structure BlockTimes where
  medianTimePast : Int
  blockTime : Int

/-- No output of the block is a commitment or has no value. -/
def amountsComplete (block : CBlock) : Bool :=
  block.vtx.all fun tx => tx.vout.all fun out => decide out.nValue.IsExplicit

def retAll (params : ConsensusParams) (pindex : CBlockIndex) (times : BlockTimes) (block : CBlock)
    (st : StatsState) : Entries :=
  let txs := block.vtx.length
  let feerates := calculatePercentilesByWeight st.feerateArray st.totalWeight
  [("avgfee", .ofInt (if txs > 1 then st.totalfee.tdiv (txs - 1) else 0)),
    ("avgfeerate", .ofInt (if st.totalWeight = 0 then 0
      else (st.totalfee * WITNESS_SCALE_FACTOR).tdiv st.totalWeight)),
    ("avgtxsize", .ofInt (if txs > 1 then st.totalSize.tdiv (txs - 1) else 0)),
    ("blockhash", .str (getHex pindex.hash)),
    ("feerate_percentiles", .arr (feerates.map .ofInt)),
    ("height", .ofInt pindex.nHeight),
    ("ins", .ofInt st.inputs),
    ("maxfee", .ofInt st.maxfee),
    ("maxfeerate", .ofInt st.maxfeerate),
    ("maxtxsize", .ofInt st.maxtxsize),
    ("medianfee", .ofInt (calculateTruncatedMedian st.feeArray)),
    ("mediantime", .ofInt times.medianTimePast),
    ("mediantxsize", .ofInt (calculateTruncatedMedian st.txsizeArray)),
    ("minfee", .ofInt (if st.minfee = MAX_MONEY then 0 else st.minfee)),
    ("minfeerate", .ofInt (if st.minfeerate = MAX_MONEY then 0 else st.minfeerate)),
    ("mintxsize", .ofInt (if st.mintxsize = MAX_BLOCK_SERIALIZED_SIZE then 0 else st.mintxsize)),
    ("outs", .ofInt st.outputs),
    ("subsidy", .ofInt (getBlockSubsidy params pindex.nHeight)),
    ("swtotal_size", .ofInt st.swtotalSize),
    ("swtotal_weight", .ofInt st.swtotalWeight),
    ("swtxs", .ofInt st.swtxs),
    ("time", .ofInt times.blockTime),
    ("total_out", .ofInt st.totalOut),
    ("amounts_complete", .bool (amountsComplete block)),
    ("total_size", .ofInt st.totalSize),
    ("total_weight", .ofInt st.totalWeight),
    ("totalfee", .ofInt st.totalfee),
    ("txs", .ofInt txs),
    ("utxo_increase", .ofInt (st.outputs - st.inputs)),
    ("utxo_size_inc", .ofInt st.utxoSizeInc),
    ("utxo_increase_actual", .ofInt (st.utxos - st.inputs)),
    ("utxo_size_inc_actual", .ofInt st.utxoSizeIncActual)]

def selectStat (all : Entries) (ret : Entries) (stat : String) : Except RpcFailure Entries :=
  match get all stat with
  | .null => .error (.invalidParameter s!"Invalid selected statistic '{stat}'")
  | value => .ok (pushKV ret stat value)

/-- `getblockstats` on a block, its undo data and the set of requested statistics in its order. -/
def getblockstats (params : ConsensusParams) (pindex : CBlockIndex) (times : BlockTimes)
    (block : CBlock) (blockUndo : CBlockUndo) (stats : List String) : Except RpcFailure Entries := do
  let want := wanted stats
  let st ← block.vtx.zipIdx.foldlM (statsTx want pindex blockUndo.vtxundo) .start
  let all := retAll params pindex times block st
  if want.doAll then return all
  else stats.foldlM (selectStat all) []

/-! ### When the call answers -/

/-- The call returns, or refuses the request for what is requested. -/
def Answered (r : Except RpcFailure Entries) : Prop :=
  ∀ e, r = .error e → ∃ text, e = .invalidParameter text

section Answer

variable {want : Wanted} {pindex : CBlockIndex} {vtxundo : List CTxUndo}

theorem exists_statsTx_eq_ok (st : StatsState) (tx : CTransaction) (i : Nat) :
    (∃ st', statsTx want pindex vtxundo st (tx, i) = .ok st') ↔
      (¬ tx.IsCoinBase → want.loopInputs = true → ∃ txundo, undoAt vtxundo i = some txundo ∧
        MoneyRange (spentAmount txundo.vprevout - txTotalOut want tx)) := by
  unfold statsTx
  dsimp only
  by_cases hcb : tx.IsCoinBase
  · simp [hcb]
  · cases hloop : want.loopInputs with
    | false => simp [hcb]
    | true =>
      cases hundo : undoAt vtxundo i with
      | none => simp [hcb]
      | some txundo =>
        simp only [hcb, statsInputs, bind_unit_eq_ok, require_eq_ok, pure_eq_ok, if_true, if_false,
          not_false_eq_true, true_imp_iff, exists_and_left, exists_eq', and_true, Option.some.injEq,
          exists_eq_left']

theorem statsTx_eq_error {st : StatsState} {entry : CTransaction × Nat} {e : RpcFailure}
    (h : statsTx want pindex vtxundo st entry = .error e) (text : String) :
    e ≠ .invalidParameter text := by
  obtain ⟨tx, i⟩ := entry
  unfold statsTx at h
  dsimp only at h
  split_ifs at h
  cases hundo : undoAt vtxundo i with
  | none =>
    rw [hundo] at h
    rw [← Except.error.inj h]
    exact RpcFailure.noConfusion
  | some txundo =>
    rw [hundo] at h
    simp only [statsInputs, bind_eq_error, require_eq_error] at h
    rcases h with ⟨-, rfl⟩ | ⟨-, -, h⟩
    · exact RpcFailure.noConfusion
    · cases h

theorem foldlM_selectStat_eq_error {all ret : Entries} {stats : List String} {e : RpcFailure}
    (h : stats.foldlM (selectStat all) ret = .error e) : ∃ text, e = .invalidParameter text := by
  obtain ⟨acc, stat, -, hstat⟩ := foldlM_eq_error h
  unfold selectStat at hstat
  split at hstat
  · exact ⟨_, (Except.error.inj hstat).symm⟩
  · cases hstat

/-- Only the loop over the transactions can stop the call. -/
theorem answered_iff (params : ConsensusParams) (pindex : CBlockIndex) (times : BlockTimes)
    (block : CBlock) (undo : CBlockUndo) (stats : List String) :
    Answered (getblockstats params pindex times block undo stats) ↔
      ∃ st, block.vtx.zipIdx.foldlM (statsTx (wanted stats) pindex undo.vtxundo) .start = .ok st := by
  constructor
  · intro hanswered
    cases hloop : block.vtx.zipIdx.foldlM (statsTx (wanted stats) pindex undo.vtxundo) .start with
    | ok st => exact ⟨st, rfl⟩
    | error e =>
      obtain ⟨text, rfl⟩ := hanswered e (bind_eq_error.mpr (.inl hloop))
      obtain ⟨acc, entry, -, hentry⟩ := foldlM_eq_error hloop
      exact absurd rfl (statsTx_eq_error hentry text)
  · rintro ⟨st, hst⟩ e herror
    rw [getblockstats, hst, bind_eq_error] at herror
    rcases herror with herror | ⟨st', -, herror⟩
    · cases herror
    · split_ifs at herror
      · cases herror
      · exact foldlM_selectStat_eq_error herror

theorem loopOutputs_of_loopInputs {stats : List String} (h : (wanted stats).loopInputs = true) :
    (wanted stats).loopOutputs = true := by
  simp only [wanted] at h ⊢
  simp only [h, Bool.or_true, Bool.true_or]

theorem exists_statsLoop_eq_ok {block : CBlock} {undo : CBlockUndo} {cb : CTransaction}
    {txs : List CTransaction} (hblock : CheckedBlock block cb txs)
    (hlength : undo.vtxundo.length = txs.length) (stats : List String) :
    (∃ st, block.vtx.zipIdx.foldlM (statsTx (wanted stats) pindex undo.vtxundo) .start = .ok st) ↔
      ((wanted stats).loopInputs = true → ∀ e ∈ txs.zip undo.vtxundo,
        MoneyRange (spentAmount e.2.vprevout - outAmount e.1)) := by
  rw [exists_foldlM_eq_ok fun st x _ => exists_statsTx_eq_ok st x.1 x.2, hblock.vtx_eq,
    List.zipIdx_cons, List.forall_mem_cons]
  have hout : ∀ tx, (wanted stats).loopInputs = true → txTotalOut (wanted stats) tx = outAmount tx :=
    fun tx hloop => if_pos (loopOutputs_of_loopInputs hloop)
  constructor
  · rintro ⟨-, hall⟩ hloop ⟨tx, txundo⟩ he
    obtain ⟨i, hi⟩ := List.mem_iff_getElem?.mp he
    rw [List.getElem?_zip_eq_some] at hi
    have hmem : (tx, i + 1) ∈ txs.zipIdx 1 :=
      List.mk_mem_zipIdx_iff_le_and_getElem?_sub.mpr ⟨by omega, hi.1⟩
    obtain ⟨txundo', hundo, hrange⟩ :=
      hall _ hmem (hblock.not_coinbase tx (List.mem_of_getElem? hi.1)) hloop
    obtain rfl := Option.some.inj (hi.2.symm.trans hundo)
    rwa [hout tx hloop] at hrange
  · intro hall
    refine ⟨fun hcb => absurd hblock.coinbase hcb, ?_⟩
    rintro ⟨tx, j⟩ hmem - hloop
    obtain ⟨hj, htx⟩ := List.mk_mem_zipIdx_iff_le_and_getElem?_sub.mp hmem
    obtain ⟨i, rfl⟩ : ∃ i, j = i + 1 := ⟨j - 1, by omega⟩
    have hi : i < undo.vtxundo.length := by
      have := (List.getElem?_eq_some_iff.mp htx).1
      omega
    have hundo : undo.vtxundo[i]? = some undo.vtxundo[i] := List.getElem?_eq_getElem hi
    have he : (tx, undo.vtxundo[i]) ∈ txs.zip undo.vtxundo :=
      List.mem_iff_getElem?.mpr ⟨i, List.getElem?_zip_eq_some.mpr ⟨htx, hundo⟩⟩
    refine ⟨undo.vtxundo[i], hundo, ?_⟩
    rw [hout tx hloop]
    exact hall hloop _ he

end Answer

/-! ### A block that spends a commitment -/

def unblindingTx : CTransaction where
  nVersion := CT_VERSION
  vin := [⟨⟨uint256S 1000, 0⟩, [], CTxIn.SEQUENCE_FINAL, [], .null⟩]
  vout := [.ofAmount 980 [OP_TRUE], .ofAmount 10 []]
  nLockTime := 1001

def blindedCoin : Coin :=
  .ofOut ⟨⟨Blind.scalarEnv.commitmentSerialize (990 : Nat)⟩, .null, [10], [OP_TRUE]⟩ 101 false

def unblindingBlock : CBlock := sampleBlock 102 [idleCoinbase 102, unblindingTx]

set_option maxRecDepth 3000 in
theorem exists_connectBlock_unblindingBlock :
    ∃ view', connectBlock sampleEnv unblindingBlock (sampleIndex 102) blindedView =
      .ok (view', ⟨[⟨[blindedCoin]⟩]⟩) := ⟨_, rfl⟩

end Rcpu.BlockStats
