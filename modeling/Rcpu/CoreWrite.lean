import Rcpu.Json
import Rcpu.CoinIndexRuns
import Rcpu.TxFees

/-!
# Transactions as JSON

`TxToUniv` of `core_write.cpp`, the verbose form of a transaction that the block and raw transaction
calls return.  With undo data at hand it reports a fee, summed up anew from the amounts it shows.
-/

namespace Rcpu.CoreWrite

open Checks Tally Json Script Confidential Transaction TxCheck ConfidentialValidation Coins TxVerify
  Validation TxFees CoinIndexRuns

/-! ### Amounts -/

/-- `%08d` for a width of eight -/
def zeroPadded (width n : Nat) : List Char :=
  List.replicate (width - (Nat.toDigits 10 n).length) '0' ++ Nat.toDigits 10 n

def coinsText (n : Nat) : List Char :=
  let quotient := n / COIN.toNat
  let remainder := n % COIN.toNat
  Nat.toDigits 10 quotient ++ '.' :: zeroPadded 8 remainder

def valueFromAmount (amount : Int) : UniValue :=
  .num (.ofList (if amount < 0 then '-' :: coinsText amount.natAbs else coinsText amount.natAbs))

theorem ofDigitChars_zeroPadded (width n : Nat) : Nat.ofDigitChars 10 (zeroPadded width n) 0 = n := by
  rw [zeroPadded, Nat.ofDigitChars_append, Nat.ofDigitChars_replicate_zero, Nat.mul_zero,
    Nat.ofDigitChars_ten_toDigits]

theorem length_zeroPadded {width n : Nat} (hwidth : 0 < width) (h : n < 10 ^ width) :
    (zeroPadded width n).length = width := by
  have hle := (Nat.length_toDigits_le_iff (b := 10) (by decide) hwidth).mpr h
  rw [zeroPadded, List.length_append, List.length_replicate, Nat.sub_add_cancel hle]

theorem coinsText_inj {m n : Nat} (h : coinsText m = coinsText n) : m = n := by
  have hcoin : 0 < COIN.toNat := by decide
  have hlength : ∀ k : Nat, (zeroPadded 8 (k % COIN.toNat)).length = 8 :=
    fun k => length_zeroPadded (by decide) (Nat.mod_lt k hcoin)
  obtain ⟨hquotient, hrest⟩ := List.append_inj' h (by simp [hlength])
  have hdiv := congrArg (fun l => Nat.ofDigitChars 10 l 0) hquotient
  have hmod := congrArg (fun l => Nat.ofDigitChars 10 l 0) (List.cons.inj hrest).2
  simp only [Nat.ofDigitChars_ten_toDigits, ofDigitChars_zeroPadded] at hdiv hmod
  rw [← Nat.div_add_mod m COIN.toNat, hdiv, hmod, Nat.div_add_mod]

theorem coinsText_ne_minus (m n : Nat) : coinsText m ≠ '-' :: coinsText n := by
  intro h
  cases hdigits : Nat.toDigits 10 (m / COIN.toNat) with
  | nil => exact Nat.toDigits_ne_nil hdigits
  | cons c rest =>
    have hdigit : c.isDigit = true :=
      Nat.isDigit_of_mem_toDigits (by decide) (Nat.le_refl 10) (hdigits ▸ List.mem_cons_self)
    rw [coinsText, hdigits] at h
    rw [(List.cons.inj h).1] at hdigit
    exact absurd hdigit (by decide)

theorem valueFromAmount_inj {a b : Int} : valueFromAmount a = valueFromAmount b ↔ a = b := by
  refine ⟨?_, fun h => h ▸ rfl⟩
  intro h
  unfold valueFromAmount at h
  rw [UniValue.num.injEq, String.ofList_inj] at h
  split_ifs at h with ha hb hb
  · have := coinsText_inj (List.cons.inj h).2
    omega
  · exact absurd h.symm (coinsText_ne_minus _ _)
  · exact absurd h (coinsText_ne_minus _ _)
  · have := coinsText_inj h
    omega

/-! ### Transactions -/

inductive TxVerbosity where
  | showTxid
  | showDetails
  | showDetailsAndPrevout
deriving DecidableEq, Repr

structure TxWriter where
  getHash : CTransaction → Uint256
  getWitnessHash : CTransaction → Uint256
  /-- `ScriptToAsmStr`, with `fAttemptSighashDecode` -/
  scriptToAsmStr : CScript → Bool → String
  /-- `ScriptToUniv`, with the hex form and the address -/
  scriptToUniv : CScript → Entries

/-- `uint256::GetHex` shows the last byte first. -/
def getHex (hash : Uint256) : String := hexStr hash.bytes.reverse

def getTotalSize (tx : CTransaction) : Nat := (tx.serialize true).length

def getTransactionWeight (tx : CTransaction) : Nat :=
  (tx.serialize false).length * (WITNESS_SCALE_FACTOR - 1) + (tx.serialize true).length

def encodeHexTx (tx : CTransaction) : String := hexStr (tx.serialize true)

def shownValue (nValue : CConfidentialValue) : UniValue :=
  if nValue.IsExplicit then valueFromAmount nValue.getAmount else .str "confidential"

section Write

variable (w : TxWriter) (verbosity : TxVerbosity) (tx : CTransaction) (txundo : Option CTxUndo)

def headEntries : Entries :=
  [("txid", .str (getHex (w.getHash tx))),
    ("hash", .str (getHex (w.getWitnessHash tx))),
    -- the version is signed in memory only
    ("version", .ofInt tx.nVersion.toUInt32.toNat),
    ("size", .ofInt (getTotalSize tx)),
    ("vsize", .ofInt ((getTransactionWeight tx + WITNESS_SCALE_FACTOR - 1) / WITNESS_SCALE_FACTOR :
      Nat)),
    ("weight", .ofInt (getTransactionWeight tx)),
    ("locktime", .ofInt tx.nLockTime.toNat)]

def prevoutEntries (coin : Coin) : Entries :=
  [("generated", .bool coin.fCoinBase),
    ("height", .ofInt coin.nHeight.val),
    ("value", shownValue coin.out.nValue),
    ("scriptPubKey", .obj (w.scriptToUniv coin.out.scriptPubKey))]

def outpointEntries (txin : CTxIn) : Entries :=
  if tx.IsCoinBase then [("coinbase", .str (hexStr txin.scriptSig))]
  else
    [("txid", .str (getHex txin.prevout.hash)),
      ("vout", .ofInt txin.prevout.n.toNat),
      ("scriptSig", .obj [("asm", .str (w.scriptToAsmStr txin.scriptSig true)),
        ("hex", .str (hexStr txin.scriptSig))])]

def witnessEntries (txin : CTxIn) : Entries :=
  if txin.scriptWitness.isEmpty then []
  else [("txinwitness", .arr (txin.scriptWitness.map fun item => .str (hexStr item)))]

def coinEntries : Option Coin → Entries
  | some coin =>
    if verbosity = .showDetailsAndPrevout then [("prevout", .obj (prevoutEntries w coin))] else []
  | none => []

/-- The object of an input; the coin it spent is there if the fee is computed. -/
def inputEntries (txin : CTxIn) (coin : Option Coin) : Entries :=
  outpointEntries w tx txin ++ witnessEntries txin ++ coinEntries w verbosity coin ++
    [("sequence", .ofInt txin.nSequence.toNat)]

def outputEntries (txout : CTxOut) (i : Nat) : Entries :=
  [("value", shownValue txout.nValue),
    ("n", .ofInt i),
    ("scriptPubKey", .obj (w.scriptToUniv txout.scriptPubKey))]

/-- `txundo->vprevout[i]`, which is read for transactions without commitments only. -/
def prevCoin (i : Nat) : Except String (Option Coin) :=
  match txundo with
  | none => .ok none
  | some txundo =>
    if tx.nVersion = CT_VERSION then .ok none
    else match txundo.vprevout[i]? with
      | some coin => .ok (some coin)
      | none => .error "txundo->vprevout[i]"

def writeInput (acc : List UniValue × Int) (entry : CTxIn × Nat) :
    Except String (List UniValue × Int) := do
  let coin ← prevCoin tx txundo entry.2
  let amount := match coin with
    | some coin => if coin.out.nValue.IsExplicit then coin.out.nValue.getAmount else 0
    | none => 0
  return (acc.1 ++ [.obj (inputEntries w verbosity tx entry.1 coin)], acc.2 + amount)

def writeOutput (acc : List UniValue × Int) (entry : CTxOut × Nat) : List UniValue × Int :=
  (acc.1 ++ [.obj (outputEntries w entry.1 entry.2)],
    acc.2 + if txundo.isSome ∧ entry.1.nValue.IsExplicit then entry.1.nValue.getAmount else 0)

/-- The fee is reported if undo data is at hand and the transaction has no commitments. -/
def feeEntries (amtTotalIn amtTotalOut : Int) : Except String Entries :=
  if txundo.isSome ∧ tx.nVersion ≠ CT_VERSION then do
    let fee := amtTotalIn - amtTotalOut
    require (MoneyRange fee) "Internal bug detected: MoneyRange(fee)"
    return [("fee", valueFromAmount fee)]
  else .ok []

def tailEntries (blockHash : Uint256) (includeHex : Bool) : Entries :=
  (if blockHash = Uint256.null then [] else [("blockhash", .str (getHex blockHash))]) ++
    if includeHex then [("hex", .str (encodeHexTx tx))] else []

/-- `TxToUniv`: the object with the fields of the transaction pushed to it. -/
def txToUniv (blockHash : Uint256) (entry : Entries) (includeHex : Bool) : Except String Entries := do
  require (verbosity ≠ .showTxid)
    "Internal bug detected: verbosity >= TxVerbosity::SHOW_DETAILS"
  let (vin, amtTotalIn) ← tx.vin.zipIdx.foldlM (writeInput w verbosity tx txundo) ([], 0)
  let (vout, amtTotalOut) := tx.vout.zipIdx.foldl (writeOutput w txundo) ([], 0)
  let fee ← feeEntries tx txundo amtTotalIn amtTotalOut
  return pushKVs entry (headEntries w tx ++ [("vin", .arr vin), ("vout", .arr vout)] ++ fee ++
    tailEntries tx blockHash includeHex)

end Write

/-! ### The fee that is reported -/

section Fee

variable (w : TxWriter) (verbosity : TxVerbosity) {tx : CTransaction} {coins : List Coin}

theorem explicitAmount (nValue : CConfidentialValue) :
    (if nValue.IsExplicit then nValue.getAmount else 0) = nValue.getAmount := by
  split_ifs with hexplicit
  · rfl
  · exact (CConfidentialValue.getAmount_of_not_isExplicit hexplicit).symm

theorem sum_zipIdx_coins (h : tx.vin.length = coins.length) :
    (tx.vin.zipIdx.map fun e => (coins[e.2]?.map fun coin => coin.out.nValue.getAmount).getD 0).sum =
      spentAmount coins := by
  refine congrArg List.sum (List.ext_getElem (by simp [h]) ?_)
  intro i hi hi'
  have hcoin : i < coins.length := by simpa using hi'
  simp [hcoin]

theorem exists_writeInputs (hversion : tx.nVersion ≠ CT_VERSION)
    (hlength : tx.vin.length = coins.length) :
    ∃ vin, tx.vin.zipIdx.foldlM (writeInput w verbosity tx (some ⟨coins⟩)) ([], 0) =
      .ok (vin, spentAmount coins) := by
  have hstep : ∀ acc : List UniValue × Int, ∀ entry ∈ tx.vin.zipIdx, ∃ acc',
      writeInput w verbosity tx (some ⟨coins⟩) acc entry = .ok acc' ∧ acc'.2 = acc.2 +
        (coins[entry.2]?.map fun coin => coin.out.nValue.getAmount).getD 0 := by
    rintro acc ⟨txin, i⟩ hmem
    have hi : i < coins.length := by
      have := (List.mem_zipIdx hmem).2.1
      omega
    refine ⟨_, by rw [writeInput, prevCoin, if_neg hversion, List.getElem?_eq_getElem hi]; rfl, ?_⟩
    simp [explicitAmount, hi]
  obtain ⟨⟨vin, amount⟩, hfold, hsum⟩ := exists_content_foldlM (c := Prod.snd) hstep ([], 0)
  rw [sum_zipIdx_coins hlength, zero_add] at hsum
  exact ⟨vin, hsum ▸ hfold⟩

theorem exists_writeOutputs (txundo : CTxUndo) :
    ∃ vout, tx.vout.zipIdx.foldl (writeOutput w (some txundo)) ([], 0) = (vout, outAmount tx) := by
  have hstep : ∀ (acc : List UniValue × Int) (entry : CTxOut × Nat),
      (writeOutput w (some txundo) acc entry).2 = acc.2 + entry.1.nValue.getAmount := by
    intro acc entry
    simp [writeOutput, explicitAmount]
  have hsum := content_foldl (c := Prod.snd) hstep ([], 0) tx.vout.zipIdx
  refine ⟨_, Prod.ext rfl (hsum.trans ?_)⟩
  rw [zero_add, outAmount, map_zipIdx_fst fun out : CTxOut => out.nValue.getAmount]

/-- **The fee that `TxToUniv` reports** is what is spent openly less all that is paid openly; it fails
if that is not an amount. -/
theorem txToUniv_fee_spec (hverbosity : verbosity ≠ .showTxid) (hversion : tx.nVersion ≠ CT_VERSION)
    (hlength : tx.vin.length = coins.length) (blockHash : Uint256) (entry : Entries)
    (includeHex : Bool) (val : UniValue) :
    (∃ entry', txToUniv w verbosity tx (some ⟨coins⟩) blockHash entry includeHex = .ok entry' ∧
        get entry' "fee" = val) ↔
      MoneyRange (spentAmount coins - outAmount tx) ∧
        valueFromAmount (spentAmount coins - outAmount tx) = val := by
  obtain ⟨vin, hvin⟩ := exists_writeInputs w verbosity hversion hlength
  obtain ⟨vout, hvout⟩ := @exists_writeOutputs w tx ⟨coins⟩
  have htail : "fee" ∉ (tailEntries tx blockHash includeHex).map Prod.fst := by
    unfold tailEntries
    split_ifs <;> simp
  have hget : ∀ head : Entries, get (pushKVs entry (head ++ [("fee", valueFromAmount
      (spentAmount coins - outAmount tx))] ++ tailEntries tx blockHash includeHex)) "fee" =
      valueFromAmount (spentAmount coins - outAmount tx) := by
    intro head
    rw [pushKVs_append, get_pushKVs_of_notMem htail, pushKVs_append]
    exact get_pushKV_self
  have hrun : ∀ entry', txToUniv w verbosity tx (some ⟨coins⟩) blockHash entry includeHex =
      .ok entry' ↔ MoneyRange (spentAmount coins - outAmount tx) ∧
        pushKVs entry (headEntries w tx ++ [("vin", .arr vin), ("vout", .arr vout)] ++
          [("fee", valueFromAmount (spentAmount coins - outAmount tx))] ++
          tailEntries tx blockHash includeHex) = entry' := by
    intro entry'
    rw [txToUniv, bind_unit_eq_ok, require_eq_ok, and_iff_right hverbosity, hvin, hvout, bind_eq_ok]
    simp only [Except.ok.injEq, exists_eq_left']
    rw [feeEntries, if_pos ⟨rfl, hversion⟩, bind_assoc, bind_unit_eq_ok, require_eq_ok]
    exact and_congr_right fun _ => pure_eq_ok
  simp only [hrun]
  constructor
  · rintro ⟨entry', ⟨hrange, rfl⟩, hval⟩
    exact ⟨hrange, (hget _).symm.trans hval⟩
  · rintro ⟨hrange, hval⟩
    exact ⟨_, ⟨hrange, rfl⟩, (hget _).trans hval⟩

end Fee

/-! ### Sample blocks -/

def spendingTx (vout : List CTxOut) : CTransaction where
  nVersion := 2
  vin := [⟨⟨uint256S 1, 0⟩, [], CTxIn.SEQUENCE_FINAL, [], .null⟩]
  vout := vout
  nLockTime := 1000

def spendingBlock (tx : CTransaction) : CBlock := sampleBlock 101 [idleCoinbase 101, tx]

def paymentTx : CTransaction := spendingTx [.ofAmount 900 [OP_TRUE]]

/-- Pays 900 and has another 200 on an empty script. -/
def oddTx : CTransaction := spendingTx [.ofAmount 900 [OP_TRUE], .ofAmount 200 []]

set_option maxRecDepth 3000 in
theorem exists_connectBlock_spendingBlock :
    ∀ tx ∈ [paymentTx, oddTx], ∃ view', connectBlock sampleEnv (spendingBlock tx) (sampleIndex 101)
      fundedView = .ok (view', ⟨[⟨[fundingCoin]⟩]⟩) := by
  rw [List.forall_mem_cons, List.forall_mem_singleton]
  exact ⟨⟨_, rfl⟩, ⟨_, rfl⟩⟩

def sampleWriter : TxWriter where
  getHash := sampleEnv.getHash
  getWitnessHash := sampleEnv.getHash
  scriptToAsmStr _ _ := ""
  scriptToUniv script := [("hex", .str (hexStr script))]

/-- **The fee reported for a transaction of an accepted block is the one charged** exactly if its
outputs with an empty script, which `GetValueOut` skips, hold nothing. -/
theorem txToUniv_fee_charged_iff {𝔾 : Type} [AddCommGroup 𝔾] [Module Scalar 𝔾] [DecidableEq 𝔾]
    (env : ChainEnv 𝔾) (w : TxWriter) (block : CBlock) (pindex : CBlockIndex)
    (view view' : CCoinsView) (undo : CBlockUndo)
    (h : connectBlock env block pindex view = .ok (view', undo)) (i : Nat) (tx : CTransaction)
    (txundo : CTxUndo) (hi : block.vtx[i + 1]? = some tx) (hundo : undo.vtxundo[i]? = some txundo)
    (hversion : tx.nVersion ≠ CT_VERSION) (verbosity : TxVerbosity)
    (hverbosity : verbosity ≠ .showTxid) (blockHash : Uint256) (entry : Entries)
    (includeHex : Bool) :
    ∃ st txfee, connectBefore env pindex view block (i + 1) = .ok st ∧
      checkTxInputs env.secp env.elementsMode env.params st.view.getCoin pindex.nHeight tx =
        .ok txfee ∧
      ((∃ entry', txToUniv w verbosity tx (some txundo) blockHash entry includeHex = .ok entry' ∧
          get entry' "fee" = valueFromAmount txfee) ↔
        ∀ out ∈ tx.vout, out.IsFee → out.nValue.getAmount = 0) := by
  obtain ⟨st, txfee, hst, haccept, hfee, hrange, hchecked, hlength⟩ := exists_charged h hi hundo
  have hplain : tx.fCT = false := by simp [CTransaction.fCT, hversion]
  rw [chargedFee, if_neg (by simp [hplain])] at hfee
  refine ⟨st, txfee, hst, haccept, ?_⟩
  rw [txToUniv_fee_spec w verbosity hverbosity hversion hlength, valueFromAmount_inj,
    ← feeShaped_eq_zero hchecked]
  constructor
  · rintro ⟨-, hequal⟩
    omega
  · intro hzero
    have hequal : spentAmount txundo.vprevout - outAmount tx = txfee := by omega
    exact ⟨hequal ▸ hrange, hequal⟩

theorem txToUniv_fee_charged_payment :
    ∃ view' entry', connectBlock sampleEnv (spendingBlock paymentTx) (sampleIndex 101) fundedView =
        .ok (view', ⟨[⟨[fundingCoin]⟩]⟩) ∧
      txToUniv sampleWriter .showDetails paymentTx (some ⟨[fundingCoin]⟩) Uint256.null [] false =
        .ok entry' ∧
      get entry' "fee" = valueFromAmount 100 := by
  obtain ⟨view', hconnect⟩ := exists_connectBlock_spendingBlock paymentTx (by decide)
  obtain ⟨st, txfee, hst, haccept, hiff⟩ := txToUniv_fee_charged_iff sampleEnv sampleWriter _ _ _ _ _
    hconnect 0 paymentTx ⟨[fundingCoin]⟩ rfl rfl (by decide) .showDetails (by decide) Uint256.null []
    false
  obtain ⟨entry', hentry', hfee⟩ := hiff.mpr (by decide)
  obtain rfl := Except.ok.inj hst
  obtain rfl : (100 : Int) = txfee := Except.ok.inj haccept
  exact ⟨view', entry', hconnect, hentry', hfee⟩

/-- The charged fee is 100; `TxToUniv` finds -100 and fails its own check. -/
theorem txToUniv_fee_odd_fails :
    ∃ view' st, connectBlock sampleEnv (spendingBlock oddTx) (sampleIndex 101) fundedView =
        .ok (view', ⟨[⟨[fundingCoin]⟩]⟩) ∧
      connectBefore sampleEnv (sampleIndex 101) fundedView (spendingBlock oddTx) 1 = .ok st ∧
      checkTxInputs sampleEnv.secp sampleEnv.elementsMode sampleEnv.params st.view.getCoin 101 oddTx =
        .ok 100 ∧
      txToUniv sampleWriter .showDetails oddTx (some ⟨[fundingCoin]⟩) Uint256.null [] false =
        .error "Internal bug detected: MoneyRange(fee)" := by
  obtain ⟨view', hconnect⟩ := exists_connectBlock_spendingBlock oddTx (by decide)
  exact ⟨view', _, hconnect, rfl, rfl, rfl⟩

end Rcpu.CoreWrite
