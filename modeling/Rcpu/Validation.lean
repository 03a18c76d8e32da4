import Mathlib.Tactic.Positivity
import Rcpu.TxVerify

/-!
# Connecting blocks

`UpdateCoins`, `GetBlockSubsidy`, `CheckBlock` and `Chainstate::ConnectBlock` of `validation.cpp`.
What these functions call outside the modelled code (proof of work, merkle root, script execution,
signature-operation counts, relative lock times) is a field of `ChainEnv`: an arbitrary function
that can only add rejections.
-/

namespace Rcpu.Validation

open Checks ByteStream Serialize Confidential Transaction TxCheck ConfidentialValidation Coins
  TxVerify

/-! ### Data -/

inductive BlockValidationResult where
  | BLOCK_CONSENSUS
  | BLOCK_INVALID_HEADER
  | BLOCK_MUTATED
deriving DecidableEq, Repr

structure CBlock where
  hash : Uint256
  vtx : List CTransaction

structure CBlockIndex where
  nHeight : Nat
  hash : Uint256
  /-- `pprev->GetBlockHash()`; no code reads it for the genesis block. -/
  prevHash : Uint256
  /-- Hash of the ancestor of the previous block at a height, `pprev->GetAncestor(height)`. -/
  ancestorHash : Nat → Option Uint256

structure CTxUndo where
  vprevout : List Coin
deriving DecidableEq, Repr

structure CBlockUndo where
  vtxundo : List CTxUndo
deriving DecidableEq, Repr

abbrev BlockFailure := Failure BlockValidationResult

structure ChainEnv (𝔾 : Type) where
  secp : Secp256k1 𝔾
  /-- `g_con_elementsmode` -/
  elementsMode : Bool
  params : ConsensusParams
  /-- `CTransaction::GetHash` -/
  getHash : CTransaction → Uint256
  /-- The header, signet and merkle-root parts of `CheckBlock`. -/
  checkBlockHeader : CBlock → CBlockIndex → Except BlockFailure Unit
  /-- Serialized size of the block header. -/
  headerSize : Nat
  /-- `GetLegacySigOpCount` -/
  getLegacySigOpCount : CTransaction → Nat
  /-- `GetTransactionSigOpCost` under the script flags of the block. -/
  getTransactionSigOpCost : CBlockIndex → CTransaction → (COutPoint → Option Coin) → Nat
  /-- `SequenceLocks` on the heights of the spent coins. -/
  sequenceLocks : CBlockIndex → CTransaction → List Nat → Bool
  /-- `CheckInputScripts`, or nothing below the assumed-valid block. -/
  checkInputScripts : CBlockIndex → CTransaction → (COutPoint → Option Coin) →
    Except (Invalid TxValidationResult) Unit

def MAX_BLOCK_SIGOPS_COST : Nat := 80000

def BIP34_IMPLIES_BIP30_LIMIT : Nat := 1983702

/-- A 256-bit number as stored, least significant byte first (`uint256S` of its hex digits). -/
def uint256S (n : Nat) : Uint256 := ⟨leBytes 32 n, length_leBytes 32 n⟩

theorem uint256S_inj {m n : Nat} (hm : m < 256 ^ 32) (hn : n < 256 ^ 32)
    (h : uint256S m = uint256S n) : m = n := by
  have hbytes : leBytes 32 m = leBytes 32 n := congrArg Uint256.bytes h
  rw [← ofLeBytes_leBytes_of_lt hm, hbytes, ofLeBytes_leBytes_of_lt hn]

/-- Hexadecimal form of a hash, most significant byte first. -/
def toHex (h : Uint256) : String := String.join (h.bytes.reverse.map hexByte)

def consensusBlockFailure (rejectReason debugMessage : String) : BlockFailure :=
  .invalid ⟨.BLOCK_CONSENSUS, rejectReason, debugMessage⟩

def blockFailureOfTx : Failure TxValidationResult → BlockFailure
  | .invalid state => consensusBlockFailure state.rejectReason state.debugMessage
  | .exception what => .exception what
  | .assertion expr => .assertion expr

/-! ### Coins of one transaction -/

def spendInputs {Result : Type} : CCoinsView → List CTxIn →
    Except (Failure Result) (CCoinsView × List Coin)
  | view, [] => .ok (view, [])
  | view, txin :: vin =>
    match view.spendCoin txin.prevout with
    | none => .error (.assertion "is_spent")
    | some (coin, view') => do
      let (view'', coins) ← spendInputs view' vin
      return (view'', coin :: coins)

def spendTx {Result : Type} (view : CCoinsView) (tx : CTransaction) :
    Except (Failure Result) (CCoinsView × List Coin) :=
  if tx.IsCoinBase then .ok (view, []) else spendInputs view tx.vin

/-- `UpdateCoins`: mark the inputs spent, then add the outputs. -/
def updateCoins {Result : Type} (getHash : CTransaction → Uint256) (view : CCoinsView)
    (tx : CTransaction) (nHeight : Nat) : Except (Failure Result) (CCoinsView × CTxUndo) := do
  let (view, vprevout) ← spendTx view tx
  let view ← view.addCoins (getHash tx) tx nHeight false
  return (view, ⟨vprevout⟩)

/-- Inputs that are all there once one coin has been taken are elsewhere and were there before. -/
private theorem map_getCoin_erase {view : CCoinsView} {o : COutPoint} {vin : List CTxIn}
    {coins : List Coin} :
    vin.map (fun txin => (view.erase o).getCoin txin.prevout) = coins.map some ↔
      o ∉ vin.map CTxIn.prevout ∧
        vin.map (fun txin => view.getCoin txin.prevout) = coins.map some := by
  have hcongr : o ∉ vin.map CTxIn.prevout →
      vin.map (fun txin => (view.erase o).getCoin txin.prevout) =
        vin.map fun txin => view.getCoin txin.prevout := by
    intro hnot
    apply List.map_congr_left
    intro txin hmem
    apply CCoinsView.getCoin_erase_of_ne
    rintro rfl
    exact hnot (List.mem_map_of_mem hmem)
  constructor
  · intro h
    have hnot : o ∉ vin.map CTxIn.prevout := by
      intro ho
      obtain ⟨txin, hmem, rfl⟩ := List.mem_map.mp ho
      have hnone : none ∈ coins.map some := by
        rw [← h, List.mem_map]
        exact ⟨txin, hmem, CCoinsView.getCoin_erase_self _ _⟩
      simp at hnone
    exact ⟨hnot, hcongr hnot ▸ h⟩
  · rintro ⟨hnot, h⟩
    rw [hcongr hnot, h]

/-- Spending the inputs succeeds when they are distinct and all there, and removes just them. -/
theorem spendInputs_eq_ok {Result : Type} {view view' : CCoinsView} {vin : List CTxIn}
    {coins : List Coin} :
    spendInputs view vin = (.ok (view', coins) : Except (Failure Result) _) ↔
      (vin.map CTxIn.prevout).Nodup ∧
      vin.map (fun txin => view.getCoin txin.prevout) = coins.map some ∧
      view' = view.eraseAll (vin.map CTxIn.prevout) := by
  induction vin generalizing view view' coins with
  | nil =>
    simp only [spendInputs, Except.ok.injEq, Prod.mk.injEq, List.map_nil, List.nodup_nil, true_and,
      CCoinsView.eraseAll_nil, List.nil_eq, List.map_eq_nil_iff]
    exact ⟨fun h => ⟨h.2, h.1.symm⟩, fun h => ⟨h.2.symm, h.1⟩⟩
  | cons txin vin ih =>
    rw [spendInputs]
    cases hcoin : view.getCoin txin.prevout with
    | none =>
      have hspend : view.spendCoin txin.prevout = none := by simp [CCoinsView.spendCoin, hcoin]
      cases coins <;> simp [hspend, hcoin]
    | some coin =>
      have hspend : view.spendCoin txin.prevout = some (coin, view.erase txin.prevout) :=
        CCoinsView.spendCoin_eq_some.mpr ⟨hcoin, rfl⟩
      simp only [hspend, bind_eq_ok, Prod.exists, ih, map_getCoin_erase, pure_eq_ok,
        Prod.mk.injEq, List.map_cons, List.nodup_cons, hcoin, CCoinsView.eraseAll_cons]
      constructor
      · rintro ⟨_, rest, ⟨hnodup, ⟨hnot, hmap⟩, rfl⟩, rfl, rfl⟩
        exact ⟨⟨hnot, hnodup⟩, by rw [hmap, List.map_cons], rfl⟩
      · rintro ⟨⟨hnot, hnodup⟩, hmap, rfl⟩
        cases coins with
        | nil => simp at hmap
        | cons c rest =>
          simp only [List.map_cons, List.cons.injEq, Option.some.injEq] at hmap
          obtain ⟨rfl, hmap⟩ := hmap
          exact ⟨_, rest, ⟨hnodup, ⟨hnot, hmap⟩, rfl⟩, rfl, rfl⟩

/-- **What `UpdateCoins` does**: the spent coins move to the undo record, then outputs are added. -/
theorem updateCoins_eq_ok {Result : Type} {getHash : CTransaction → Uint256}
    {view view' : CCoinsView} {tx : CTransaction} {nHeight : Nat} {undo : CTxUndo} :
    updateCoins getHash view tx nHeight = (.ok (view', undo) : Except (Failure Result) _) ↔
      ∃ mid, spendTx view tx = (.ok (mid, undo.vprevout) : Except (Failure Result) _) ∧
        mid.addCoins (getHash tx) tx nHeight false =
          (.ok view' : Except (Failure Result) _) := by
  simp only [updateCoins, bind_eq_ok, Prod.exists, pure_eq_ok, Prod.mk.injEq]
  constructor
  · rintro ⟨mid, coins, hspend, view'', hadd, rfl, rfl⟩
    exact ⟨mid, hspend, hadd⟩
  · rintro ⟨mid, hspend, hadd⟩
    exact ⟨mid, undo.vprevout, hspend, view', hadd, rfl, rfl⟩

theorem getCoin_spendTx {Result : Type} {view mid : CCoinsView} {tx : CTransaction}
    {coins : List Coin} (h : spendTx view tx = (.ok (mid, coins) : Except (Failure Result) _)) :
    (∀ o c, mid.getCoin o = some c → view.getCoin o = some c) ∧
      (∀ coin ∈ coins, ∃ o, view.getCoin o = some coin) ∧
      (tx.IsCoinBase → mid = view ∧ coins = []) := by
  by_cases hcb : tx.IsCoinBase
  · simp only [spendTx, if_pos hcb, Except.ok.injEq, Prod.mk.injEq] at h
    obtain ⟨rfl, rfl⟩ := h
    exact ⟨fun _ _ hc => hc, by simp, fun _ => ⟨rfl, rfl⟩⟩
  · rw [spendTx, if_neg hcb] at h
    obtain ⟨-, hcoins, rfl⟩ := spendInputs_eq_ok.mp h
    refine ⟨fun o c hc => ?_, fun coin hmem => ?_, fun h => absurd h hcb⟩
    · rw [CCoinsView.getCoin_eraseAll] at hc
      split_ifs at hc
      exact hc
    · have hmem' : some coin ∈ coins.map some := List.mem_map_of_mem hmem
      rw [← hcoins] at hmem'
      obtain ⟨txin, -, htxin⟩ := List.mem_map.mp hmem'
      exact ⟨txin.prevout, htxin⟩

theorem length_spendTx {Result : Type} {view mid : CCoinsView} {tx : CTransaction}
    {coins : List Coin} (hcb : ¬ tx.IsCoinBase)
    (h : spendTx view tx = (.ok (mid, coins) : Except (Failure Result) _)) :
    coins.length = tx.vin.length := by
  rw [spendTx, if_neg hcb] at h
  simpa using (congrArg List.length (spendInputs_eq_ok.mp h).2.1).symm

/-- `UpdateCoins` but for a coinbase: every input was there, and afterwards the created coins lie
over what was not spent. -/
theorem getCoin_updateCoins {Result : Type} {getHash : CTransaction → Uint256}
    {view view' : CCoinsView} {tx : CTransaction} {nHeight : Nat} {undo : CTxUndo}
    (hchecked : Checked tx) (hcb : ¬ tx.IsCoinBase)
    (h : updateCoins getHash view tx nHeight = (.ok (view', undo) : Except (Failure Result) _)) :
    tx.vin.map (fun txin => view.getCoin txin.prevout) = undo.vprevout.map some ∧
      ∀ o, view'.getCoin o = (CCoinsView.createdCoin (getHash tx) tx nHeight o).or
        (if o ∈ tx.vin.map CTxIn.prevout then none else view.getCoin o) := by
  obtain ⟨mid, hspend, hadd⟩ := updateCoins_eq_ok.mp h
  rw [spendTx, if_neg hcb] at hspend
  obtain ⟨-, hcoins, rfl⟩ := spendInputs_eq_ok.mp hspend
  have hlen := (lengths_le_of_checked hchecked).2
  refine ⟨hcoins, fun o => ?_⟩
  rw [CCoinsView.getCoin_addCoins (by omega) hadd, CCoinsView.getCoin_eraseAll]

/-- `UpdateCoins` succeeds when every input is there and the created coins find free slots. -/
theorem exists_updateCoins_eq_ok {Result : Type} {getHash : CTransaction → Uint256}
    {view : CCoinsView} {tx : CTransaction} {nHeight : Nat} (hchecked : Checked tx)
    (hcb : ¬ tx.IsCoinBase) (hinputs : ∀ txin ∈ tx.vin, (view.getCoin txin.prevout).isSome)
    (hfree : ∀ o, (CCoinsView.createdCoin (getHash tx) tx nHeight o).isSome →
      view.getCoin o = none) :
    ∃ view' undo, updateCoins getHash view tx nHeight =
      (.ok (view', undo) : Except (Failure Result) _) := by
  obtain ⟨coins, hcoins⟩ : ∃ coins : List Coin,
      coins.map some = tx.vin.map fun txin => view.getCoin txin.prevout := by
    apply (Set.ext_iff.mp (Set.range_list_map some) _).mpr
    intro found hmem
    obtain ⟨txin, htxin, rfl⟩ := List.mem_map.mp hmem
    exact ⟨_, Option.some_get (hinputs txin htxin)⟩
  have hspend : spendTx view tx =
      (.ok (view.eraseAll (tx.vin.map CTxIn.prevout), coins) : Except (Failure Result) _) := by
    rw [spendTx, if_neg hcb]
    exact spendInputs_eq_ok.mpr ⟨hchecked.prevouts_nodup, hcoins.symm, rfl⟩
  have hlen := (lengths_le_of_checked hchecked).2
  have hfree' : ∀ o, (CCoinsView.createdCoin (getHash tx) tx nHeight o).isSome →
      (view.eraseAll (tx.vin.map CTxIn.prevout)).getCoin o = none := by
    intro o ho
    rw [CCoinsView.getCoin_eraseAll, hfree o ho, ite_self]
  obtain ⟨view', hadd⟩ := CCoinsView.exists_addCoins_eq_ok (by omega)
    (fun out hmem => hchecked.out_ne_null hmem) hfree'
  exact ⟨view', ⟨coins⟩, updateCoins_eq_ok.mpr ⟨_, hspend, hadd⟩⟩

/-! ### Subsidy and block checks -/

def getBlockSubsidy (params : ConsensusParams) (nHeight : Nat) : Int :=
  if nHeight = 0 then 50 * COIN
  else
    let halvings := nHeight / params.nSubsidyHalvingInterval
    if halvings ≥ 10 then 1 * COIN else (5000 * COIN) >>> halvings

/-- Coinbase outputs must be explicit and must not be fee outputs. -/
def checkCoinbaseOutputsExplicit (cb : CTransaction) : Except BlockFailure Unit := do
  require cb.IsCoinBase (consensusBlockFailure "bad-cb-missing" "first tx is not coinbase")
  cb.vout.forM fun txout => do
    require txout.nValue.IsExplicit
      (consensusBlockFailure "bad-cb-confidential" "coinbase output is confidential")
    require (¬ txout.IsFee)
      (consensusBlockFailure "bad-cb-fee-output"
        "coinbase output is fee-shaped (empty scriptPubKey)")

/-- `GetSerializeSize(TX_NO_WITNESS(block))` -/
def blockSize (headerSize : Nat) (block : CBlock) : Nat :=
  headerSize + (serVector (CTransaction.serialize false) block.vtx).length

/-- `CheckBlock`, without the `fChecked` shortcut that remembers an earlier pass. -/
def checkBlock {𝔾 : Type} (env : ChainEnv 𝔾) (block : CBlock) (pindex : CBlockIndex) :
    Except BlockFailure Unit := do
  env.checkBlockHeader block pindex
  require (block.vtx ≠ [] ∧ block.vtx.length * WITNESS_SCALE_FACTOR ≤ MAX_BLOCK_WEIGHT ∧
      blockSize env.headerSize block * WITNESS_SCALE_FACTOR ≤ MAX_BLOCK_WEIGHT)
    (consensusBlockFailure "bad-blk-length" "size limits failed")
  match block.vtx with
  | [] => .error (consensusBlockFailure "bad-cb-missing" "first tx is not coinbase")
  | cb :: txs =>
    require cb.IsCoinBase (consensusBlockFailure "bad-cb-missing" "first tx is not coinbase")
    txs.forM fun tx => require (¬ tx.IsCoinBase)
      (consensusBlockFailure "bad-cb-multiple" "more than one coinbase")
    checkCoinbaseOutputsExplicit cb
    block.vtx.forM fun tx => (checkTransaction tx).mapError fun state =>
      consensusBlockFailure state.rejectReason
        ("Transaction check failed (tx hash " ++ toHex (env.getHash tx) ++ ") " ++
          state.debugMessage)
    require ((block.vtx.map env.getLegacySigOpCount).sum * WITNESS_SCALE_FACTOR ≤
        MAX_BLOCK_SIGOPS_COST)
      (consensusBlockFailure "bad-blk-sigops" "out-of-bounds SigOpCount")

theorem checkCoinbaseOutputsExplicit_eq_ok {cb : CTransaction}
    (h : checkCoinbaseOutputsExplicit cb = .ok ()) :
    cb.IsCoinBase ∧ ∀ out ∈ cb.vout, out.nValue.IsExplicit ∧ ¬ out.IsFee := by
  simpa only [checkCoinbaseOutputsExplicit, bind_unit_eq_ok, require_eq_ok, forM_eq_ok] using h

structure CheckedBlock (block : CBlock) (cb : CTransaction) (txs : List CTransaction) : Prop where
  vtx_eq : block.vtx = cb :: txs
  coinbase : cb.IsCoinBase
  not_coinbase : ∀ tx ∈ txs, ¬ tx.IsCoinBase
  coinbase_out : ∀ out ∈ cb.vout, out.nValue.IsExplicit ∧ ¬ out.IsFee
  length_le : block.vtx.length * WITNESS_SCALE_FACTOR ≤ MAX_BLOCK_WEIGHT
  checked : ∀ tx ∈ cb :: txs, Checked tx

theorem checkBlock_eq_ok {𝔾 : Type} {env : ChainEnv 𝔾} {block : CBlock} {pindex : CBlockIndex}
    (h : checkBlock env block pindex = .ok ()) : ∃ cb txs, CheckedBlock block cb txs := by
  unfold checkBlock at h
  simp only [bind_unit_eq_ok, require_eq_ok] at h
  obtain ⟨-, ⟨-, hlength, -⟩, h⟩ := h
  split at h
  · simp at h
  · next cb txs hvtx =>
    simp only [bind_unit_eq_ok, require_eq_ok, forM_eq_ok, mapError_eq_ok] at h
    obtain ⟨hcb, hmultiple, hexplicit, hchecked, -⟩ := h
    exact ⟨cb, txs, hvtx, hcb, hmultiple, (checkCoinbaseOutputsExplicit_eq_ok hexplicit).2,
      hlength, fun tx hmem => checked_of_checkTransaction (hchecked tx (hvtx ▸ hmem))⟩

theorem getBlockSubsidy_nonneg (params : ConsensusParams) (nHeight : Nat) :
    0 ≤ getBlockSubsidy params nHeight := by
  unfold getBlockSubsidy
  split_ifs with h0
  · decide
  · dsimp only
    split_ifs
    · decide
    · rw [Int.shiftRight_eq_div_pow]
      exact Int.ediv_nonneg (by decide) (by positivity)

/-! ### `ConnectBlock` -/

def isBIP30Repeat (pindex : CBlockIndex) : Bool :=
  (pindex.nHeight = 91842 ∧ pindex.hash =
    uint256S 0x00000000000a4d0a398161ffc163c503763b1f4360639393e0e4c8e300e0caec) ∨
  (pindex.nHeight = 91880 ∧ pindex.hash =
    uint256S 0x00000000000743f190a18c5577a3c2d2a1f610ae9601ac046a38084ccb7cd721)

/-- Whether the BIP30 check runs: not on the two historical repeats, and not past BIP34 on the
known chain up to the limit height. -/
def enforceBIP30 (params : ConsensusParams) (pindex : CBlockIndex) : Bool :=
  (!isBIP30Repeat pindex &&
      !decide (pindex.ancestorHash params.BIP34Height = some params.BIP34Hash)) ||
    decide (BIP34_IMPLIES_BIP30_LIMIT ≤ pindex.nHeight)

def checkBIP30 {𝔾 : Type} (env : ChainEnv 𝔾) (pindex : CBlockIndex) (view : CCoinsView)
    (block : CBlock) : Except BlockFailure Unit :=
  if enforceBIP30 env.params pindex then
    block.vtx.forM fun tx => (List.range tx.vout.length).forM fun o =>
      require (view.haveCoin ⟨env.getHash tx, UInt32.ofNat o⟩ = false)
        (consensusBlockFailure "bad-txns-BIP30" "")
  else .ok ()

theorem getCoin_eq_none_of_bip30 {txid : Uint256} {tx : CTransaction} {view : CCoinsView}
    (h : ∀ n < tx.vout.length, view.haveCoin ⟨txid, UInt32.ofNat n⟩ = false) {o : COutPoint}
    (hhash : o.hash = txid) (hlt : o.n.toNat < tx.vout.length) : view.getCoin o = none := by
  have hnone := h o.n.toNat hlt
  rw [← hhash, UInt32.ofNat_toNat] at hnone
  simpa [CCoinsView.haveCoin] using hnone

theorem getCoin_created_eq_none {txid : Uint256} {tx : CTransaction} {nHeight : Nat}
    {view : CCoinsView}
    (h : ∀ n < tx.vout.length, view.haveCoin ⟨txid, UInt32.ofNat n⟩ = false) {o : COutPoint}
    (ho : (CCoinsView.createdCoin txid tx nHeight o).isSome) : view.getCoin o = none := by
  obtain ⟨c, hc⟩ := Option.isSome_iff_exists.mp ho
  obtain ⟨hhash, out, hout, -⟩ := CCoinsView.createdCoin_eq_some.mp hc
  exact getCoin_eq_none_of_bip30 h hhash (List.getElem?_eq_some_iff.mp hout).1

theorem checkBIP30_eq_ok {𝔾 : Type} {env : ChainEnv 𝔾} {pindex : CBlockIndex} {view : CCoinsView}
    {block : CBlock} (h : checkBIP30 env pindex view block = .ok ())
    (henforce : enforceBIP30 env.params pindex = true) :
    ∀ tx ∈ block.vtx, ∀ n < tx.vout.length,
      view.haveCoin ⟨env.getHash tx, UInt32.ofNat n⟩ = false := by
  rw [checkBIP30, if_pos henforce, forM_eq_ok] at h
  intro tx hmem n hn
  have hloop := h tx hmem
  rw [forM_eq_ok] at hloop
  exact require_eq_ok.mp (hloop n (List.mem_range.mpr hn))

structure ConnectState where
  view : CCoinsView
  nFees : Int
  nSigOpsCost : Nat
  vtxundo : List CTxUndo

variable {𝔾 : Type} [AddCommGroup 𝔾] [Module Scalar 𝔾] [DecidableEq 𝔾]

/-- The value and lock-time checks of a transaction that is not a coinbase; returns its fee. -/
def connectInputs (env : ChainEnv 𝔾) (pindex : CBlockIndex) (view : CCoinsView) (nFees : Int)
    (tx : CTransaction) : Except BlockFailure Int := do
  let txfee ← (checkTxInputs env.secp env.elementsMode env.params view.getCoin pindex.nHeight
    tx).mapError blockFailureOfTx
  require (MoneyRange (nFees + txfee))
    (consensusBlockFailure "bad-txns-accumulated-fee-outofrange" "")
  let prevheights := tx.vin.map fun txin =>
    ((view.getCoin txin.prevout).map fun coin => coin.nHeight.val).getD 0
  require (env.sequenceLocks pindex tx prevheights = true)
    (consensusBlockFailure "bad-txns-nonfinal" "")
  return txfee

/-- The fee a transaction adds; a coinbase adds none and is not checked here. -/
def connectFee (env : ChainEnv 𝔾) (pindex : CBlockIndex) (view : CCoinsView) (nFees : Int)
    (tx : CTransaction) : Except BlockFailure Int :=
  if tx.IsCoinBase then .ok 0 else connectInputs env pindex view nFees tx

def connectScripts {𝔾 : Type} (env : ChainEnv 𝔾) (pindex : CBlockIndex) (view : CCoinsView)
    (tx : CTransaction) : Except BlockFailure Unit :=
  if tx.IsCoinBase then .ok ()
  else (env.checkInputScripts pindex tx view.getCoin).mapError (blockFailureOfTx ∘ .invalid)

/-- One round of the transaction loop, for the transaction at index `i`. -/
def connectTx (env : ChainEnv 𝔾) (pindex : CBlockIndex) (st : ConnectState)
    (entry : CTransaction × Nat) : Except BlockFailure ConnectState := do
  let (tx, i) := entry
  let txfee ← connectFee env pindex st.view st.nFees tx
  let nSigOpsCost := st.nSigOpsCost + env.getTransactionSigOpCost pindex tx st.view.getCoin
  require (nSigOpsCost ≤ MAX_BLOCK_SIGOPS_COST) (consensusBlockFailure "bad-blk-sigops" "")
  connectScripts env pindex st.view tx
  let (view, txundo) ← updateCoins env.getHash st.view tx pindex.nHeight
  return ⟨view, st.nFees + txfee, nSigOpsCost, if i = 0 then st.vtxundo else st.vtxundo ++ [txundo]⟩

theorem connectTx_eq_ok {env : ChainEnv 𝔾} {pindex : CBlockIndex} {st st' : ConnectState}
    {tx : CTransaction} {i : Nat} (h : connectTx env pindex st (tx, i) = .ok st') :
    ∃ txfee txundo, connectFee env pindex st.view st.nFees tx = .ok txfee ∧
      updateCoins env.getHash st.view tx pindex.nHeight =
        (.ok (st'.view, txundo) : Except BlockFailure _) ∧
      st'.nFees = st.nFees + txfee ∧
      st'.vtxundo = if i = 0 then st.vtxundo else st.vtxundo ++ [txundo] := by
  unfold connectTx at h
  simp only [bind_eq_ok, Prod.exists, pure_eq_ok] at h
  obtain ⟨txfee, hfee, -, -, -, -, view', txundo, hupdate, rfl⟩ := h
  exact ⟨txfee, txundo, hfee, hupdate, rfl, rfl⟩

/-- The subsidy check on the coinbase, after all transactions have been connected. -/
def checkReward (params : ConsensusParams) (pindex : CBlockIndex) (block : CBlock) (nFees : Int) :
    Except BlockFailure Unit :=
  match block.vtx with
  | [] => .error (.assertion "block.vtx[0]")
  | cb :: _ => do
    checkCoinbaseOutputsExplicit cb
    let valueOut ← cb.getValueOut.mapError .exception
    require (valueOut ≤ nFees + getBlockSubsidy params pindex.nHeight)
      (consensusBlockFailure "bad-cb-amount" "")

/-- The part of `ConnectBlock` past the genesis shortcut. -/
def connectTransactions (env : ChainEnv 𝔾) (block : CBlock) (pindex : CBlockIndex)
    (view : CCoinsView) : Except BlockFailure (CCoinsView × CBlockUndo) := do
  checkBIP30 env pindex view block
  let st ← block.vtx.zipIdx.foldlM (connectTx env pindex) ⟨view, 0, 0, []⟩
  checkReward env.params pindex block st.nFees
  return (st.view, ⟨st.vtxundo⟩)

/-- `Chainstate::ConnectBlock` with `fJustCheck` false: the new view and the undo data it writes. -/
def connectBlock (env : ChainEnv 𝔾) (block : CBlock) (pindex : CBlockIndex) (view : CCoinsView) :
    Except BlockFailure (CCoinsView × CBlockUndo) := do
  require (pindex.hash = block.hash) (.assertion "*pindex->phashBlock == block_hash")
  checkBlock env block pindex
  -- the genesis block is recognised and its coinbase is not connected
  if pindex.nHeight = 0 ∨ block.hash = env.params.hashGenesisBlock then .ok (view, ⟨[]⟩)
  else connectTransactions env block pindex view

/-- Inversion of `ConnectBlock`: the block was checked, and was connected unless it is genesis. -/
theorem connectBlock_eq_ok {env : ChainEnv 𝔾} {block : CBlock} {pindex : CBlockIndex}
    {view view' : CCoinsView} {undo : CBlockUndo}
    (h : connectBlock env block pindex view = .ok (view', undo)) :
    (∃ cb txs, CheckedBlock block cb txs) ∧ pindex.hash = block.hash ∧
      (((pindex.nHeight = 0 ∨ block.hash = env.params.hashGenesisBlock) ∧ view' = view) ∨
        (¬ (pindex.nHeight = 0 ∨ block.hash = env.params.hashGenesisBlock) ∧
          connectTransactions env block pindex view = .ok (view', undo))) := by
  simp only [connectBlock, bind_unit_eq_ok, require_eq_ok] at h
  obtain ⟨hhash, hcheck, h⟩ := h
  refine ⟨checkBlock_eq_ok hcheck, hhash, ?_⟩
  split_ifs at h with hgenesis
  · simp only [Except.ok.injEq, Prod.mk.injEq] at h
    exact .inl ⟨hgenesis, h.1.symm⟩
  · exact .inr ⟨hgenesis, h⟩

end Rcpu.Validation
