import Rcpu.CoinStats
import Rcpu.CoinSums
import Rcpu.Disconnect
import Rcpu.ForkedLog
import Rcpu.Tally

/-!
# The coin statistics index

`index/coinstatsindex.cpp`: running statistics of the coins, carried forward block by block, taken
back in a reorganisation, and recorded for every block.

`CustomAppend` and `ReverseBlock` go through a block in the same order with all signs reversed.  The
effect of a block is therefore one element of a commutative group that the one adds and the other
subtracts.  Only the unclaimed rewards are not such a sum: they are what settles the account of the
issued amounts, and settling again after the block has been taken back leads to the state before.
-/

namespace Rcpu.CoinIndex

open Checks ByteStream Tally ForkedLog Transaction ConfidentialValidation Script Coins Validation
  Disconnect CoinStats CoinSums

/-! ### Data -/

/-- The numbers in a database record.  Counts are integers: a `uint64_t` that passes zero on the way
holds their residue. -/
inductive Counter where
  | transactionOutputCount
  | bogoSize
  | totalAmount
  | totalSubsidy
  | totalUnspendableAmount
  | totalPrevoutSpentAmount
  | totalNewOutputsExCoinbaseAmount
  | totalCoinbaseAmount
  | totalUnspendablesGenesisBlock
  | totalUnspendablesBip30
  | totalUnspendablesScripts
  | totalUnspendablesUnclaimedRewards
deriving DecidableEq, Repr

open Counter

def Counter.name : Counter → String
  | transactionOutputCount => "transaction_output_count"
  | bogoSize => "bogo_size"
  | totalAmount => "total_amount"
  | totalSubsidy => "total_subsidy"
  | totalUnspendableAmount => "total_unspendable_amount"
  | totalPrevoutSpentAmount => "total_prevout_spent_amount"
  | totalNewOutputsExCoinbaseAmount => "total_new_outputs_ex_coinbase_amount"
  | totalCoinbaseAmount => "total_coinbase_amount"
  | totalUnspendablesGenesisBlock => "total_unspendables_genesis_block"
  | totalUnspendablesBip30 => "total_unspendables_bip30"
  | totalUnspendablesScripts => "total_unspendables_scripts"
  | totalUnspendablesUnclaimedRewards => "total_unspendables_unclaimed_rewards"

abbrev Totals := Counter → Int

def Totals.add (totals : Totals) (counter : Counter) (n : Int) : Totals :=
  Function.update totals counter (totals counter + n)

structure DBVal where
  muhash : MuHash3072
  totals : Totals

structure Tallies where
  totals : Totals
  confidentialOutputs : Int
  muhash : MuHash3072

def Tallies.empty : Tallies := ⟨0, 0, MuHash3072.empty⟩

def Tallies.dbVal (st : Tallies) : DBVal := ⟨st.muhash.finalize, st.totals⟩

structure BlockKey where
  hash : Uint256
  height : Nat
deriving DecidableEq, Repr

/-- The database: records by height (`DB_BLOCK_HEIGHT`) and by hash (`DB_BLOCK_HASH`), and what was
last committed with the best block. -/
structure Database where
  log : Log Uint256 DBVal
  muhash : Option MuHash3072
  confidentialOutputs : Option Int
  bestBlock : Option BlockKey

def Database.empty : Database := ⟨Log.empty, none, none, none⟩

structure CoinStatsIndex where
  tallies : Tallies
  confidentialOutputsKnown : Bool
  db : Database

/-- A block with its index entry and its undo data, as the block manager finds them by hash. -/
structure StoredBlock where
  block : CBlock
  pindex : CBlockIndex
  undo : CBlockUndo

def StoredBlock.key (stored : StoredBlock) : BlockKey := ⟨stored.pindex.hash, stored.pindex.nHeight⟩

/-! ### Going through a block

`entering` tells whether coins enter or leave the set: outputs enter in `CustomAppend` and leave in
`ReverseBlock`, spent coins the other way round. -/

def sign (entering : Bool) : Int := if entering then 1 else -1

def tallyCoin (entering : Bool) (st : Tallies) (outpoint : COutPoint) (coin : Coin) : Tallies where
  muhash := if entering then applyCoinHash st.muhash outpoint coin
    else removeCoinHash st.muhash outpoint coin
  totals := ((st.totals.add transactionOutputCount (sign entering)).add totalAmount
    (sign entering * coin.out.nValue.getAmount)).add bogoSize
      (sign entering * getBogoSize coin.out.scriptPubKey)
  confidentialOutputs := if ¬ coin.out.nValue.IsExplicit then st.confidentialOutputs + sign entering
    else st.confidentialOutputs

def tallyOutput (entering : Bool) (txid : Uint256) (tx : CTransaction) (nHeight : Nat) (st : Tallies)
    (entry : CTxOut × Nat) : Tallies :=
  let (out, j) := entry
  let amount := out.nValue.getAmount
  if IsUnspendable out.scriptPubKey then
    { st with
      totals := (st.totals.add totalUnspendableAmount (sign entering * amount)).add
        totalUnspendablesScripts (sign entering * amount) }
  -- fee outputs never enter the set
  else if out.IsFee then st
  else
    let st := tallyCoin entering st ⟨txid, UInt32.ofNat j⟩ (.ofOut out nHeight tx.IsCoinBase)
    { st with
      totals := st.totals.add
        (if tx.IsCoinBase then totalCoinbaseAmount else totalNewOutputsExCoinbaseAmount)
        (sign entering * amount) }

def tallyPrevout (entering : Bool) (st : Tallies) (entry : CTxIn × Coin) : Tallies :=
  let st := tallyCoin entering st entry.1.prevout entry.2
  { st with
    totals := st.totals.add totalPrevoutSpentAmount
      (-sign entering * entry.2.out.nValue.getAmount) }

/-- One round of the transaction loop, forwards or in reverse. -/
def tallyTx (forward : Bool) (getHash : CTransaction → Uint256) (nHeight : Nat)
    (vtxundo : List CTxUndo) (st : Tallies) (entry : CTransaction × Nat) : Except String Tallies :=
  let (tx, i) := entry
  let st := tx.vout.zipIdx.foldl (tallyOutput forward (getHash tx) tx nHeight) st
  if tx.IsCoinBase then .ok st
  else
    match undoAt vtxundo i with
    | none => .error "vtxundo.at(i - 1)"
    | some txundo => .ok ((tx.vin.zip txundo.vprevout).foldl (tallyPrevout !forward) st)

/-! ### `CustomAppend` -/

/-- The transaction loop of `CustomAppend` passes over the coinbases that BIP30 made unspendable. -/
def appendTx (getHash : CTransaction → Uint256) (pindex : CBlockIndex) (blockSubsidy : Int)
    (vtxundo : List CTxUndo) (st : Tallies) (entry : CTransaction × Nat) : Except String Tallies :=
  if isBIP30Unspendable pindex ∧ entry.1.IsCoinBase then
    .ok { st with
      totals := (st.totals.add totalUnspendableAmount blockSubsidy).add totalUnspendablesBip30
        blockSubsidy }
  else tallyTx true getHash pindex.nHeight vtxundo st entry

/-- The record of the previous block.  Where another block's stands at its height, the record by
hash is read in the wrong format, which fails. -/
def readPrevious (func : String) (log : Log Uint256 DBVal) (pindex : CBlockIndex) :
    Except String DBVal :=
  match log.byHeight (pindex.nHeight - 1) with
  | none => .error ""
  | some entry =>
    if entry.1 = pindex.prevHash then .ok entry.2
    else .error (func ++ ": previous block header not found; expected " ++ toHex pindex.prevHash)

def unclaimedRewards (totals : Totals) : Int :=
  (totals totalPrevoutSpentAmount + totals totalSubsidy) -
    (totals totalNewOutputsExCoinbaseAmount + totals totalCoinbaseAmount +
      totals totalUnspendableAmount)

variable {𝔾 : Type}

def appendTransactions (env : ChainEnv 𝔾) (log : Log Uint256 DBVal) (stored : StoredBlock)
    (blockSubsidy : Int) (st : Tallies) : Except String Tallies :=
  if stored.pindex.nHeight > 0 then do
    let _ ← readPrevious "CustomAppend" log stored.pindex
    stored.block.vtx.zipIdx.foldlM
      (appendTx env.getHash stored.pindex blockSubsidy stored.undo.vtxundo) st
  else
    .ok { st with
      totals := (st.totals.add totalUnspendableAmount blockSubsidy).add
        totalUnspendablesGenesisBlock blockSubsidy }

def customAppend (env : ChainEnv 𝔾) (index : CoinStatsIndex) (stored : StoredBlock) :
    Except String CoinStatsIndex := do
  let blockSubsidy := getBlockSubsidy env.params stored.pindex.nHeight
  let st ← appendTransactions env index.db.log stored blockSubsidy
    { index.tallies with totals := index.tallies.totals.add totalSubsidy blockSubsidy }
  let unclaimed := unclaimedRewards st.totals
  let st := { st with
    totals := (st.totals.add totalUnspendableAmount unclaimed).add
      totalUnspendablesUnclaimedRewards unclaimed }
  return { index with
    tallies := st
    db := { index.db with
      log := index.db.log.record stored.pindex.nHeight stored.pindex.hash st.dbVal } }

/-! ### `CustomRewind` -/

/-- The counters in the order `ReverseBlock` compares them in. -/
def asserted : List Counter :=
  [transactionOutputCount, totalAmount, bogoSize, totalSubsidy, totalUnspendableAmount,
    totalPrevoutSpentAmount, totalNewOutputsExCoinbaseAmount, totalCoinbaseAmount,
    totalUnspendablesGenesisBlock, totalUnspendablesBip30, totalUnspendablesScripts,
    totalUnspendablesUnclaimedRewards]

def assertReversed (readOut : DBVal) (st : Tallies) : Except String Unit := do
  require (readOut.muhash = st.muhash.finalize) "read_out.second.muhash == out"
  asserted.forM fun counter => require (st.totals counter = readOut.totals counter)
    ("m_" ++ counter.name ++ " == read_out.second." ++ counter.name)

/-- `ReverseBlock`; the genesis block, which has no record to compare with, is never reversed. -/
def reverseBlock (env : ChainEnv 𝔾) (index : CoinStatsIndex) (stored : StoredBlock) :
    Except String CoinStatsIndex := do
  require (stored.pindex.nHeight > 0) "read_out.second.muhash == out"
  let blockSubsidy := getBlockSubsidy env.params stored.pindex.nHeight
  let readOut ← readPrevious "ReverseBlock" index.db.log stored.pindex
  let st ← stored.block.vtx.zipIdx.foldlM
    (tallyTx false env.getHash stored.pindex.nHeight stored.undo.vtxundo)
    { index.tallies with totals := index.tallies.totals.add totalSubsidy (-blockSubsidy) }
  let unclaimed := (st.totals totalNewOutputsExCoinbaseAmount + st.totals totalCoinbaseAmount +
    st.totals totalUnspendableAmount) - (st.totals totalPrevoutSpentAmount + st.totals totalSubsidy)
  let st := { st with
    totals := (st.totals.add totalUnspendableAmount (-unclaimed)).add
      totalUnspendablesUnclaimedRewards (-unclaimed) }
  assertReversed readOut st
  return { index with tallies := st }

abbrev BlockManager := Uint256 → Option StoredBlock

/-- The loop of `CustomRewind`, which goes to the parent until it is the new tip; the height of the
current tip bounds the number of rounds. -/
def reverseTo (env : ChainEnv 𝔾) (blockman : BlockManager) (newTip : Uint256) :
    Nat → CoinStatsIndex → StoredBlock → Except String CoinStatsIndex
  | 0, _, _ => .error "iter_tip->GetAncestor"
  | rounds + 1, index, iterTip => do
    let index ← reverseBlock env index iterTip
    match blockman iterTip.pindex.prevHash with
    | none => .error "iter_tip->GetAncestor"
    | some parent =>
      if parent.pindex.hash = newTip then .ok index
      else reverseTo env blockman newTip rounds index parent

def unexpectedKey (height : Nat) : String :=
  s!"CopyHeightIndexToHashIndex: unexpected key in coinstatsindex: expected (t, {height})"

def customRewind (env : ChainEnv 𝔾) (blockman : BlockManager) (index : CoinStatsIndex)
    (currentTip newTip : BlockKey) : Except String CoinStatsIndex := do
  let log ← index.db.log.archiveAll unexpectedKey
    (List.range' newTip.height (currentTip.height + 1 - newTip.height))
  let index := { index with db := { index.db with log := log } }
  match blockman currentTip.hash with
  | none => .error "CustomRewind: Failed to read block from disk"
  | some iterTip => reverseTo env blockman newTip.hash currentTip.height index iterTip

/-! ### Queries, commits and restarts -/

def lookUpOne (db : Database) (block : BlockKey) : Option DBVal :=
  db.log.lookup block.height block.hash

structure IndexStats where
  block : BlockKey
  entry : DBVal
  confidentialOutputs : Option Int
  amountsComplete : Bool

def lookUpStats (index : CoinStatsIndex) (block : BlockKey) : Option IndexStats :=
  (lookUpOne index.db block).map fun entry =>
    if index.confidentialOutputsKnown then
      ⟨block, entry, some index.tallies.confidentialOutputs,
        index.tallies.confidentialOutputs = 0⟩
    else ⟨block, entry, none, false⟩

def indexCorrupted : String :=
  "CustomInit: Cannot read current coinstatsindex state; index may be corrupted"

/-- `CustomInit` of a new index object on an existing database. -/
def customInit (db : Database) (block : Option BlockKey) : Except String CoinStatsIndex := do
  let muhash := db.muhash.getD MuHash3072.empty
  require (db.confidentialOutputs.isSome ∨ db.muhash = none)
    ("CustomInit: coinstatsindex was built by an older version and is not CT-aware; " ++
      "delete the index directory (or -reindex) so it is rebuilt")
  let start : CoinStatsIndex := ⟨⟨0, db.confidentialOutputs.getD 0, muhash⟩,
    db.confidentialOutputs.isSome, db⟩
  match block with
  | none => return start
  | some block =>
    match lookUpOne db block with
    | none => .error indexCorrupted
    | some entry => do
      require (entry.muhash = muhash.finalize) indexCorrupted
      return { start with tallies := { start.tallies with totals := entry.totals } }

/-- `CustomCommit`, in one batch with the best block. -/
def customCommit (index : CoinStatsIndex) (bestBlock : BlockKey) : CoinStatsIndex :=
  { index with
    confidentialOutputsKnown := true
    db := { index.db with
      muhash := some index.tallies.muhash
      confidentialOutputs := some index.tallies.confidentialOutputs
      bestBlock := some bestBlock } }

theorem customInit_eq_ok {db : Database} {block : Option BlockKey} {index' : CoinStatsIndex}
    (h : customInit db block = .ok index') :
    ∃ totals, index' = ⟨⟨totals, db.confidentialOutputs.getD 0, db.muhash.getD MuHash3072.empty⟩,
        db.confidentialOutputs.isSome, db⟩ ∧
      (block = none → totals = 0) ∧
      ∀ key, block = some key → ∃ entry, lookUpOne db key = some entry ∧ totals = entry.totals := by
  rw [customInit, bind_unit_eq_ok] at h
  obtain ⟨-, h⟩ := h
  cases block with
  | none =>
    obtain rfl := pure_eq_ok.mp h
    exact ⟨0, rfl, fun _ => rfl, nofun⟩
  | some key =>
    dsimp only at h
    cases hentry : lookUpOne db key with
    | none =>
      rw [hentry] at h
      cases h
    | some entry =>
      rw [hentry, bind_unit_eq_ok, pure_eq_ok] at h
      refine ⟨entry.totals, h.2.symm, nofun, ?_⟩
      intro key' hkey
      obtain rfl := Option.some.inj hkey
      exact ⟨entry, hentry, rfl⟩

/-! ### The statistics as an element of a group -/

/-- How often a byte string was multiplied in, less how often it was divided out. -/
def net (muhash : MuHash3072) (element : Bytes) : Int :=
  (muhash.numerator.count element : Int) - muhash.denominator.count element

theorem net_insert (muhash : MuHash3072) (element : Bytes) :
    net (muhash.insert element) = net muhash + Pi.single element 1 := by
  funext b
  by_cases hb : b = element
  · simp [net, MuHash3072.insert, hb]
    omega
  · simp [net, MuHash3072.insert, hb]

theorem net_remove (muhash : MuHash3072) (element : Bytes) :
    net (muhash.remove element) = net muhash - Pi.single element 1 := by
  funext b
  by_cases hb : b = element
  · simp [net, MuHash3072.remove, hb]
    omega
  · simp [net, MuHash3072.remove, hb]

theorem finalize_eq_of_net_eq {muhash muhash' : MuHash3072} (h : net muhash = net muhash') :
    muhash.finalize = muhash'.finalize := by
  have hcount : ∀ b, (muhash.numerator.count b : Int) - muhash.denominator.count b =
      muhash'.numerator.count b - muhash'.denominator.count b := congrFun h
  unfold MuHash3072.finalize
  rw [MuHash3072.mk.injEq]
  constructor
  · ext b
    have := hcount b
    rw [Multiset.count_sub, Multiset.count_sub]
    omega
  · ext b
    have := hcount b
    rw [Multiset.count_sub, Multiset.count_sub]
    omega

theorem finalize_of_net {muhash : MuHash3072} {elements : Multiset Bytes}
    (h : ∀ b, net muhash b = elements.count b) : muhash.finalize = ⟨elements, 0⟩ := by
  have hnet : net muhash = net ⟨elements, 0⟩ := by
    funext b
    rw [h b]
    simp [net]
  rw [finalize_eq_of_net_eq hnet]
  simp [MuHash3072.finalize]

theorem Totals.add_eq (totals : Totals) (counter : Counter) (n : Int) :
    totals.add counter n = totals + Pi.single counter n := by
  funext c
  by_cases hc : c = counter
  · simp [Totals.add, hc]
  · simp [Totals.add, hc]

/-- Counters, confidential outputs and the hash. -/
abbrev Content := Totals × Int × (Bytes → Int)

def content (st : Tallies) : Content := (st.totals, st.confidentialOutputs, net st.muhash)

theorem content_empty : content Tallies.empty = 0 := rfl

def inCounter (counter : Counter) (n : Int) : Content := (Pi.single counter n, 0, 0)

@[simp] theorem content_add (st : Tallies) (counter : Counter) (n : Int) :
    content { st with totals := st.totals.add counter n } = content st + inCounter counter n := by
  simp [content, inCounter, Totals.add_eq]

theorem content_add_add (st : Tallies) (counter counter' : Counter) (n : Int) :
    content { st with totals := (st.totals.add counter n).add counter' n } =
      content st + (inCounter counter n + inCounter counter' n) := by
  simp [content, inCounter, Totals.add_eq, add_assoc]

theorem smul_inCounter (m : Int) (counter : Counter) (n : Int) :
    m • inCounter counter n = inCounter counter (m * n) := by
  refine Prod.ext ?_ (by simp [inCounter])
  funext c
  by_cases hc : c = counter
  · simp [inCounter, hc]
  · simp [inCounter, hc]

def coinWeight (outpoint : COutPoint) (coin : Coin) : Content :=
  inCounter transactionOutputCount 1 + inCounter totalAmount coin.out.nValue.getAmount +
    inCounter bogoSize (getBogoSize coin.out.scriptPubKey) +
    (0, if coin.out.nValue.IsExplicit then 0 else 1, Pi.single (txOutSer outpoint coin) 1)

theorem content_tallyCoin (entering : Bool) (st : Tallies) (outpoint : COutPoint) (coin : Coin) :
    content (tallyCoin entering st outpoint coin) =
      content st + sign entering • coinWeight outpoint coin := by
  simp only [coinWeight, smul_add, smul_inCounter, mul_one]
  refine Prod.ext ?_ (Prod.ext ?_ ?_)
  · simp [content, tallyCoin, inCounter, Totals.add_eq, add_assoc]
  · by_cases hexplicit : coin.out.nValue.IsExplicit <;>
      simp [content, tallyCoin, inCounter, hexplicit]
  · cases entering with
    | false => simp [content, tallyCoin, inCounter, sign, removeCoinHash, net_remove, sub_eq_add_neg]
    | true => simp [content, tallyCoin, inCounter, sign, applyCoinHash, net_insert]

/-! ### What a block counts for -/

section Weights

variable (getHash : CTransaction → Uint256) (nHeight : Nat) (vtxundo : List CTxUndo)

def outputWeight (txid : Uint256) (tx : CTransaction) (entry : CTxOut × Nat) : Content :=
  if IsUnspendable entry.1.scriptPubKey then
    inCounter totalUnspendableAmount entry.1.nValue.getAmount +
      inCounter totalUnspendablesScripts entry.1.nValue.getAmount
  else if entry.1.IsFee then 0
  else
    coinWeight ⟨txid, UInt32.ofNat entry.2⟩ (.ofOut entry.1 nHeight tx.IsCoinBase) +
      inCounter (if tx.IsCoinBase then totalCoinbaseAmount else totalNewOutputsExCoinbaseAmount)
        entry.1.nValue.getAmount

def prevoutWeight (entry : CTxIn × Coin) : Content :=
  inCounter totalPrevoutSpentAmount entry.2.out.nValue.getAmount -
    coinWeight entry.1.prevout entry.2

def txWeight (entry : CTransaction × Nat) : Content :=
  (entry.1.vout.zipIdx.map (outputWeight nHeight (getHash entry.1) entry.1)).sum +
    ((spentCoins vtxundo entry).map prevoutWeight).sum

theorem content_tallyOutput (entering : Bool) (txid : Uint256) (tx : CTransaction) (st : Tallies)
    (entry : CTxOut × Nat) :
    content (tallyOutput entering txid tx nHeight st entry) =
      content st + sign entering • outputWeight nHeight txid tx entry := by
  unfold tallyOutput outputWeight
  dsimp only
  split_ifs
  · rw [smul_add, smul_inCounter, smul_inCounter, content_add_add]
  · rw [smul_zero, add_zero]
  all_goals
    rw [content_add, content_tallyCoin, smul_add, smul_inCounter, add_assoc]

theorem content_tallyPrevout (forward : Bool) (st : Tallies) (entry : CTxIn × Coin) :
    content (tallyPrevout (!forward) st entry) =
      content st + sign forward • prevoutWeight entry := by
  have hsign : sign (!forward) = -sign forward := by cases forward <;> rfl
  unfold tallyPrevout prevoutWeight
  dsimp only
  rw [content_add, content_tallyCoin, smul_sub, smul_inCounter, hsign, neg_neg, neg_smul]
  abel

/-- A transaction adds its weight forwards and takes it off in reverse. -/
theorem exists_tallyTx (forward : Bool) {entry : CTransaction × Nat}
    (hundo : ¬ entry.1.IsCoinBase → (undoAt vtxundo entry.2).isSome) (st : Tallies) :
    ∃ st', tallyTx forward getHash nHeight vtxundo st entry = .ok st' ∧
      content st' = content st + sign forward • txWeight getHash nHeight vtxundo entry := by
  obtain ⟨tx, i⟩ := entry
  have houts := content_foldl (content_tallyOutput nHeight forward (getHash tx) tx) st
    tx.vout.zipIdx
  rw [sum_map_zsmul] at houts
  unfold tallyTx txWeight spentCoins
  dsimp only
  by_cases hcb : tx.IsCoinBase
  · exact ⟨_, if_pos hcb, by simp [houts, hcb]⟩
  · obtain ⟨txundo, htxundo⟩ := Option.isSome_iff_exists.mp (hundo hcb)
    dsimp only at htxundo
    rw [if_neg hcb, if_neg hcb, htxundo]
    refine ⟨_, rfl, ?_⟩
    rw [content_foldl (content_tallyPrevout forward), sum_map_zsmul, houts, smul_add, add_assoc]
    rfl

end Weights

def bodyWeight (env : ChainEnv 𝔾) (stored : StoredBlock) : Content :=
  let blockSubsidy := getBlockSubsidy env.params stored.pindex.nHeight
  if stored.pindex.nHeight > 0 then
    (stored.block.vtx.zipIdx.map
      (txWeight env.getHash stored.pindex.nHeight stored.undo.vtxundo)).sum
  else
    inCounter totalUnspendableAmount blockSubsidy +
      inCounter totalUnspendablesGenesisBlock blockSubsidy

def blockWeight (env : ChainEnv 𝔾) (stored : StoredBlock) : Content :=
  inCounter totalSubsidy (getBlockSubsidy env.params stored.pindex.nHeight) + bodyWeight env stored

/-- What `CustomAppend` counts a transaction for, the coinbases that BIP30 made unspendable included. -/
def appendWeight (env : ChainEnv 𝔾) (stored : StoredBlock) (entry : CTransaction × Nat) : Content :=
  let blockSubsidy := getBlockSubsidy env.params stored.pindex.nHeight
  if isBIP30Unspendable stored.pindex ∧ entry.1.IsCoinBase then
    inCounter totalUnspendableAmount blockSubsidy + inCounter totalUnspendablesBip30 blockSubsidy
  else txWeight env.getHash stored.pindex.nHeight stored.undo.vtxundo entry

def appendedBody (env : ChainEnv 𝔾) (stored : StoredBlock) : Content :=
  if stored.pindex.nHeight > 0 then
    (stored.block.vtx.zipIdx.map (appendWeight env stored)).sum
  else bodyWeight env stored

/-- The undo data has an entry for every transaction that spends coins. -/
def StoredBlock.HasUndo (stored : StoredBlock) : Prop :=
  ∀ entry ∈ stored.block.vtx.zipIdx, ¬ entry.1.IsCoinBase →
    (undoAt stored.undo.vtxundo entry.2).isSome

/-! ### Unclaimed rewards -/

def rewardsBalance : Content →+ Int where
  toFun x := unclaimedRewards x.1
  map_zero' := by simp [unclaimedRewards]
  map_add' x y := by
    simp only [unclaimedRewards, Prod.fst_add, Pi.add_apply]
    omega

def rewardsAccount : Content :=
  inCounter totalUnspendableAmount 1 + inCounter totalUnspendablesUnclaimedRewards 1

theorem rewardsBalance_rewardsAccount : rewardsBalance rewardsAccount = -1 := by
  simp [rewardsBalance, unclaimedRewards, rewardsAccount, inCounter]

abbrev settleRewards : Content → Content := settle rewardsBalance rewardsAccount

theorem content_settle (st : Tallies) {n : Int} (hn : n = unclaimedRewards st.totals) :
    content { st with
      totals := (st.totals.add totalUnspendableAmount n).add
        totalUnspendablesUnclaimedRewards n } = settleRewards (content st) := by
  have hbalance : rewardsBalance (content st) = n := hn.symm
  rw [content_add_add, settleRewards, settle, hbalance, rewardsAccount, smul_add, smul_inCounter,
    smul_inCounter, mul_one]

/-! ### What `CustomAppend` and `ReverseBlock` do -/

section Blocks

variable (env : ChainEnv 𝔾) {stored : StoredBlock}

theorem exists_appendTx {entry : CTransaction × Nat}
    (hundo : ¬ entry.1.IsCoinBase → (undoAt stored.undo.vtxundo entry.2).isSome) (st : Tallies) :
    ∃ st', appendTx env.getHash stored.pindex (getBlockSubsidy env.params stored.pindex.nHeight)
        stored.undo.vtxundo st entry = .ok st' ∧
      content st' = content st + appendWeight env stored entry := by
  unfold appendTx appendWeight
  dsimp only
  split_ifs with hskip
  · exact ⟨_, rfl, content_add_add st _ _ _⟩
  · obtain ⟨st', hst', hcontent⟩ := exists_tallyTx env.getHash stored.pindex.nHeight
      stored.undo.vtxundo true hundo st
    refine ⟨st', hst', ?_⟩
    rw [hcontent, sign, if_pos rfl, one_smul]

theorem exists_appendTransactions (hundo : stored.pindex.nHeight > 0 → stored.HasUndo)
    (log : Log Uint256 DBVal) (st : Tallies) :
    ∃ st', content st' = content st + appendedBody env stored ∧
      ∀ r, appendTransactions env log stored (getBlockSubsidy env.params stored.pindex.nHeight) st =
        .ok r ↔ (stored.pindex.nHeight > 0 →
          ∃ entry, readPrevious "CustomAppend" log stored.pindex = .ok entry) ∧ st' = r := by
  unfold appendTransactions appendedBody
  split_ifs with hheight
  · obtain ⟨st', hst', hcontent⟩ := exists_content_foldlM
      (fun s entry hmem => exists_appendTx env (hundo hheight entry hmem) s) st
    refine ⟨st', hcontent, ?_⟩
    intro r
    rw [bind_eq_ok, hst']
    simp [hheight]
  · rw [bodyWeight, if_neg hheight]
    refine ⟨_, content_add_add st _ _ _, ?_⟩
    intro r
    simp [hheight]

def CoinStatsIndex.appended (index : CoinStatsIndex) (stored : StoredBlock) (st : Tallies) :
    CoinStatsIndex :=
  { index with
    tallies := st
    db := { index.db with
      log := index.db.log.record stored.pindex.nHeight stored.pindex.hash st.dbVal } }

/-- **`CustomAppend`** adds the subsidy and the transactions and settles the rewards. -/
theorem customAppend_settles (hundo : stored.pindex.nHeight > 0 → stored.HasUndo)
    (index : CoinStatsIndex) :
    ∃ st, content st = settleRewards (content index.tallies +
        (inCounter totalSubsidy (getBlockSubsidy env.params stored.pindex.nHeight) +
          appendedBody env stored)) ∧
      ∀ index', customAppend env index stored = .ok index' ↔ (stored.pindex.nHeight > 0 →
          ∃ entry, readPrevious "CustomAppend" index.db.log stored.pindex = .ok entry) ∧
        index.appended stored st = index' := by
  obtain ⟨st, hcontent, heq⟩ := exists_appendTransactions env hundo index.db.log
    { index.tallies with
      totals := index.tallies.totals.add totalSubsidy
        (getBlockSubsidy env.params stored.pindex.nHeight) }
  have hsettle := content_settle st rfl
  rw [hcontent, content_add, add_assoc] at hsettle
  refine ⟨_, hsettle, ?_⟩
  intro index'
  rw [customAppend, bind_eq_ok]
  simp only [heq, and_assoc, exists_and_left, exists_eq_left', pure_eq_ok]
  rfl

theorem appendedBody_eq (hbip30 : isBIP30Unspendable stored.pindex = false) :
    appendedBody env stored = bodyWeight env stored := by
  have hweight : appendWeight env stored =
      txWeight env.getHash stored.pindex.nHeight stored.undo.vtxundo := by
    funext entry
    simp [appendWeight, hbip30]
  rw [appendedBody, hweight, bodyWeight]
  split_ifs <;> rfl

theorem customAppend_iff (hbip30 : isBIP30Unspendable stored.pindex = false)
    (hundo : stored.pindex.nHeight > 0 → stored.HasUndo) (index : CoinStatsIndex) :
    ∃ st, content st = settleRewards (content index.tallies + blockWeight env stored) ∧
      ∀ index', customAppend env index stored = .ok index' ↔ (stored.pindex.nHeight > 0 →
          ∃ entry, readPrevious "CustomAppend" index.db.log stored.pindex = .ok entry) ∧
        index.appended stored st = index' := by
  have hsettles := customAppend_settles env hundo index
  rwa [appendedBody_eq env hbip30] at hsettles

/-- **`ReverseBlock`** takes the weight off and settles again. -/
theorem reverseBlock_iff (hheight : stored.pindex.nHeight > 0) (hundo : stored.HasUndo)
    (index : CoinStatsIndex) :
    ∃ st, content st = settleRewards (content index.tallies - blockWeight env stored) ∧
      ∀ index', reverseBlock env index stored = .ok index' ↔
        ∃ readOut, readPrevious "ReverseBlock" index.db.log stored.pindex = .ok readOut ∧
          assertReversed readOut st = .ok () ∧ { index with tallies := st } = index' := by
  have hstep : ∀ s, ∀ entry ∈ stored.block.vtx.zipIdx, ∃ s',
      tallyTx false env.getHash stored.pindex.nHeight stored.undo.vtxundo s entry = .ok s' ∧
      content s' = content s +
        sign false • txWeight env.getHash stored.pindex.nHeight stored.undo.vtxundo entry := by
    intro s entry hmem
    exact exists_tallyTx env.getHash stored.pindex.nHeight stored.undo.vtxundo false
      (hundo entry hmem) s
  obtain ⟨st, hst, hcontent⟩ := exists_content_foldlM hstep
    { index.tallies with
      totals := index.tallies.totals.add totalSubsidy
        (-getBlockSubsidy env.params stored.pindex.nHeight) }
  have hunclaimed : -((st.totals totalNewOutputsExCoinbaseAmount + st.totals totalCoinbaseAmount +
      st.totals totalUnspendableAmount) - (st.totals totalPrevoutSpentAmount +
        st.totals totalSubsidy)) = unclaimedRewards st.totals := by
    unfold unclaimedRewards
    omega
  have hweight : content st = content index.tallies - blockWeight env stored := by
    have hneg : inCounter totalSubsidy (-getBlockSubsidy env.params stored.pindex.nHeight) =
        -inCounter totalSubsidy (getBlockSubsidy env.params stored.pindex.nHeight) := by
      rw [← neg_one_mul, ← smul_inCounter, neg_one_smul]
    rw [hcontent, sum_map_zsmul, content_add, blockWeight, bodyWeight, if_pos hheight, hneg, sign,
      if_neg (by decide), neg_one_smul]
    abel
  have hsettle := content_settle st hunclaimed
  rw [hweight] at hsettle
  refine ⟨_, hsettle, ?_⟩
  intro index'
  rw [reverseBlock, bind_unit_eq_ok, require_eq_ok, bind_eq_ok, and_iff_right hheight]
  refine exists_congr fun readOut => and_congr_right fun _ => ?_
  rw [bind_eq_ok, hst]
  simp only [Except.ok.injEq, exists_eq_left', bind_unit_eq_ok, pure_eq_ok]

theorem dbVal_eq_of_content_eq {st st' : Tallies} (h : content st = content st') :
    st.dbVal = st'.dbVal := by
  simp only [content, Prod.mk.injEq] at h
  rw [Tallies.dbVal, Tallies.dbVal, h.1, finalize_eq_of_net_eq h.2.2]

theorem assertReversed_dbVal (st : Tallies) : assertReversed st.dbVal st = .ok () := by
  rw [assertReversed, bind_unit_eq_ok]
  refine ⟨require_eq_ok.mpr rfl, ?_⟩
  exact forM_eq_ok.mpr fun counter _ => require_eq_ok.mpr rfl

end Blocks

/-! ### The counters that describe the coins -/

/-- Number of outputs, bogo size, explicit total, confidential outputs, elements of the hash. -/
abbrev CoinTally := Int × Int × Int × Int × (Bytes → Int)

def coinPart : Content →+ CoinTally where
  toFun x := (x.1 transactionOutputCount, x.1 bogoSize, x.1 totalAmount, x.2)
  map_zero' := rfl
  map_add' _ _ := rfl

def coinMeasure (outpoint : COutPoint) (coin : Coin) : CoinTally :=
  (1, getBogoSize coin.out.scriptPubKey, coin.out.nValue.getAmount,
    if coin.out.nValue.IsExplicit then 0 else 1, Pi.single (txOutSer outpoint coin) 1)

theorem coinPart_coinWeight (outpoint : COutPoint) (coin : Coin) :
    coinPart (coinWeight outpoint coin) = coinMeasure outpoint coin := by
  simp [coinPart, coinWeight, coinMeasure, inCounter]

theorem coinPart_inCounter {counter : Counter} (n : Int) (hcount : counter ≠ transactionOutputCount)
    (hbogo : counter ≠ bogoSize) (hamount : counter ≠ totalAmount) :
    coinPart (inCounter counter n) = 0 := by
  simp [coinPart, inCounter, hcount.symm, hbogo.symm, hamount.symm]

theorem coinPart_settleRewards (x : Content) : coinPart (settleRewards x) = coinPart x := by
  have haccount : coinPart rewardsAccount = 0 := by
    rw [rewardsAccount, map_add, coinPart_inCounter 1 (by decide) (by decide) (by decide),
      coinPart_inCounter 1 (by decide) (by decide) (by decide), add_zero]
  rw [settleRewards, settle, map_add, map_zsmul, haccount, smul_zero, add_zero]

section CoinPart

variable (getHash : CTransaction → Uint256) (nHeight : Nat) (vtxundo : List CTxUndo)

theorem coinPart_outputWeight (txid : Uint256) (tx : CTransaction) (entry : CTxOut × Nat) :
    coinPart (outputWeight nHeight txid tx entry) =
      if Coin.IsDropped entry.1 then 0
      else coinMeasure ⟨txid, UInt32.ofNat entry.2⟩ (.ofOut entry.1 nHeight tx.IsCoinBase) := by
  unfold outputWeight
  by_cases hunspendable : IsUnspendable entry.1.scriptPubKey
  · rw [if_pos hunspendable, if_pos (show Coin.IsDropped entry.1 from .inl hunspendable), map_add,
      coinPart_inCounter _ (by decide) (by decide) (by decide),
      coinPart_inCounter _ (by decide) (by decide) (by decide), add_zero]
  by_cases hfee : entry.1.IsFee
  · rw [if_neg hunspendable, if_pos hfee, if_pos (show Coin.IsDropped entry.1 from .inr hfee), map_zero]
  · have hkept : ¬ Coin.IsDropped entry.1 := not_or.mpr ⟨hunspendable, hfee⟩
    rw [if_neg hunspendable, if_neg hfee, if_neg hkept, map_add, coinPart_coinWeight]
    split_ifs <;> rw [coinPart_inCounter _ (by decide) (by decide) (by decide), add_zero]

theorem coinPart_prevoutWeight (entry : CTxIn × Coin) :
    coinPart (prevoutWeight entry) = -coinMeasure entry.1.prevout entry.2 := by
  rw [prevoutWeight, map_sub, coinPart_coinWeight,
    coinPart_inCounter _ (by decide) (by decide) (by decide), zero_sub]

theorem coinPart_txWeight (entry : CTransaction × Nat) :
    coinPart (txWeight getHash nHeight vtxundo entry) =
      createdSum coinMeasure (getHash entry.1) nHeight entry.1 -
        spentSum coinMeasure (spentCoins vtxundo entry) := by
  rw [txWeight, map_add, map_list_sum, map_list_sum, List.map_map, List.map_map, sub_eq_add_neg,
    createdSum, spentSum, List.sum_neg, List.map_map]
  congr 3
  · exact funext fun e => coinPart_outputWeight nHeight _ _ e
  · exact funext fun e => coinPart_prevoutWeight e

end CoinPart

/-! ### Connected blocks -/

theorem hasUndo_of_length {stored : StoredBlock} {cb : CTransaction} {txs : List CTransaction}
    (hblock : CheckedBlock stored.block cb txs)
    (hlength : stored.undo.vtxundo.length = txs.length) : stored.HasUndo := by
  rintro ⟨tx, i⟩ hmem hcb
  rw [hblock.vtx_eq, List.mem_zipIdx_iff_getElem?] at hmem
  cases i with
  | zero =>
    obtain rfl : cb = tx := by simpa using hmem
    exact absurd hblock.coinbase hcb
  | succ i =>
    rw [List.getElem?_cons_succ] at hmem
    have hlt := (List.getElem?_eq_some_iff.mp hmem).1
    rw [← hlength] at hlt
    exact Option.isSome_iff_exists.mpr ⟨_, List.getElem?_eq_getElem hlt⟩

theorem coinPart_blockWeight_genesis {env : ChainEnv 𝔾} {stored : StoredBlock}
    (hheight : stored.pindex.nHeight = 0) : coinPart (blockWeight env stored) = 0 := by
  rw [blockWeight, bodyWeight, if_neg (by omega), map_add, map_add,
    coinPart_inCounter _ (by decide) (by decide) (by decide),
    coinPart_inCounter _ (by decide) (by decide) (by decide),
    coinPart_inCounter _ (by decide) (by decide) (by decide), add_zero, add_zero]

/-- A connected block counts for the change it makes to the coins. -/
theorem coinPart_blockWeight [AddCommGroup 𝔾] [Module Scalar 𝔾] [DecidableEq 𝔾] {env : ChainEnv 𝔾}
    {stored : StoredBlock} {view view' : CCoinsView} {cb : CTransaction} {txs : List CTransaction}
    (hheight : stored.pindex.nHeight > 0) (hblock : CheckedBlock stored.block cb txs)
    (hskip : enforceBIP30 env.params stored.pindex = false → ∀ o,
      (CCoinsView.createdCoin (env.getHash cb) cb stored.pindex.nHeight o).isSome →
        view.getCoin o = none)
    (h : connectTransactions env stored.block stored.pindex view = .ok (view', stored.undo)) :
    coinSum coinMeasure view + coinPart (blockWeight env stored) = coinSum coinMeasure view' := by
  have hsum := (coinSum_connectTransactions (v := coinMeasure) hblock hskip h).2
  have htxs : coinPart (blockWeight env stored) + (stored.block.vtx.zipIdx.map fun e =>
      spentSum coinMeasure (spentCoins stored.undo.vtxundo e)).sum = (stored.block.vtx.map fun tx =>
        createdSum coinMeasure (env.getHash tx) stored.pindex.nHeight tx).sum := by
    rw [blockWeight, bodyWeight, if_pos hheight, map_add,
      coinPart_inCounter _ (by decide) (by decide) (by decide), zero_add, map_list_sum,
      List.map_map, ← List.sum_map_add, ← map_zipIdx_fst fun tx : CTransaction =>
        createdSum coinMeasure (env.getHash tx) stored.pindex.nHeight tx]
    congr 2
    funext e
    rw [Function.comp_apply, coinPart_txWeight, sub_add_cancel]
  rw [← htxs, ← add_assoc] at hsum
  exact (add_right_cancel hsum).symm

end Rcpu.CoinIndex
