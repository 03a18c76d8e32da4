import Rcpu.Compressor
import Rcpu.Validation

/-!
# Coins on disk and undo data

The record of a coin in the chainstate (`coins.h`), `undo.h` and the undo files of
`node/blockstorage.cpp`.  A coin is written as its height and coinbase flag in one code and the
compressed output; in undo data a dummy byte stands between them if the height is not zero.  The
records of a block are followed by a checksum that also covers the hash of the previous block.
-/

namespace Rcpu.Undo

open ByteStream Serialize Transaction Script Coins Validation Compressor

/-! ### Records -/

/-- `Coin::Serialize` -/
def serializeCoin (keys : PubKeyOps) (coin : Coin) : Except String Bytes :=
  if coin.IsSpent then .error "!IsSpent()"
  else .ok (writeVarInt (coin.nHeight.val * 2 + coin.fCoinBase.toNat) ++ serTxOut keys coin.out)

/-- `Coin::Unserialize` -/
def unserializeCoin (keys : PubKeyOps) : Reader Coin := do
  let code ← readVarInt UINT32_MAX
  let out ← unserTxOut keys
  return .ofOut out (code / 2) (code % 2 = 1)

/-- `TxInUndoFormatter::Ser` -/
def serCoin (keys : PubKeyOps) (coin : Coin) : Bytes :=
  writeVarInt (coin.nHeight.val * 2 + coin.fCoinBase.toNat) ++
    ((if 0 < coin.nHeight.val then [0] else []) ++ serTxOut keys coin.out)

/-- The version number that old records carry behind a height. -/
def unserVersionDummy (nHeight : Nat) : Reader Unit :=
  if 0 < nHeight then do
    let _ ← readVarInt UINT32_MAX
    return ()
  else return ()

/-- `TxInUndoFormatter::Unser` -/
def unserCoin (keys : PubKeyOps) : Reader Coin := do
  let nCode ← readVarInt UINT32_MAX
  unserVersionDummy (nCode / 2)
  let out ← unserTxOut keys
  return .ofOut out (nCode / 2) (nCode % 2 = 1)

def serTxUndo (keys : PubKeyOps) (txundo : CTxUndo) : Bytes :=
  serVector (serCoin keys) txundo.vprevout

def unserTxUndo (keys : PubKeyOps) : Reader CTxUndo := do
  let vprevout ← unserVector (unserCoin keys)
  return ⟨vprevout⟩

def serBlockUndo (keys : PubKeyOps) (blockundo : CBlockUndo) : Bytes :=
  serVector (serTxUndo keys) blockundo.vtxundo

def unserBlockUndo (keys : PubKeyOps) : Reader CBlockUndo := do
  let vtxundo ← unserVector (unserTxUndo keys)
  return ⟨vtxundo⟩

/-! ### Files -/

/-- What reading and writing undo files needs from outside: points and the hash of a stream. -/
structure UndoEnv where
  keys : PubKeyOps
  getHash : Bytes → Uint256

/-- The bytes `UndoWriteToDisk` writes at the undo position of a block. -/
def undoWriteToDisk (env : UndoEnv) (blockundo : CBlockUndo) (hashBlock : Uint256) : Bytes :=
  serBlockUndo env.keys blockundo ++
    (env.getHash (hashBlock.bytes ++ serBlockUndo env.keys blockundo)).bytes

/-- `UndoReadFromDisk` on the bytes from the undo position of the block on. -/
def undoReadFromDisk (env : UndoEnv) (index : CBlockIndex) (file : Bytes) :
    Except String CBlockUndo := do
  let (blockundo, rest) ← unserBlockUndo env.keys file
  let (hashChecksum, _) ← Uint256.unserialize rest
  -- the verifier hashes the bytes it passed on, not a new serialization
  let consumed := file.take (file.length - rest.length)
  if hashChecksum = env.getHash (index.prevHash.bytes ++ consumed) then return blockundo
  else throw "UndoReadFromDisk: Checksum mismatch"

/-! ### Reading back -/

/-- The coins whose records are read back as they were written. -/
structure Recordable (coin : Coin) : Prop where
  sized : Sized coin.out
  script : coin.out.scriptPubKey.length ≤ MAX_SCRIPT_SIZE

private theorem ofOut_code (coin : Coin) :
    Coin.ofOut coin.out ((coin.nHeight.val * 2 + coin.fCoinBase.toNat) / 2)
      ((coin.nHeight.val * 2 + coin.fCoinBase.toNat) % 2 = 1) = coin := by
  obtain ⟨out, fCoinBase, nHeight⟩ := coin
  have hheight : (nHeight.val * 2 + fCoinBase.toNat) / 2 = nHeight.val := by
    have := Bool.toNat_le fCoinBase
    omega
  have hflag : decide ((nHeight.val * 2 + fCoinBase.toNat) % 2 = 1) = fCoinBase := by
    cases fCoinBase
    · simp
    · simp [Nat.add_mod]
  rw [hheight, hflag]
  simp [Coin.ofOut]

private theorem reads_versionDummy (nHeight : Nat) :
    Reads (unserVersionDummy nHeight) (if 0 < nHeight then [0] else []) () := by
  unfold unserVersionDummy
  split_ifs
  · have hzero := reads_writeVarInt (Nat.zero_le UINT32_MAX)
    rw [writeVarInt_of_lt (by omega)] at hzero
    exact hzero.map fun _ => ()
  · exact Reads.pure ()

private theorem reads_code (coin : Coin) : Reads (readVarInt UINT32_MAX)
    (writeVarInt (coin.nHeight.val * 2 + coin.fCoinBase.toNat))
    (coin.nHeight.val * 2 + coin.fCoinBase.toNat) := by
  have hlt : coin.nHeight.val < 2 ^ 31 := coin.nHeight.isLt
  have hflag : coin.fCoinBase.toNat ≤ 1 := Bool.toNat_le _
  exact reads_writeVarInt (by unfold UINT32_MAX; omega)

private theorem reads_out {keys : PubKeyOps} {coin : Coin} (h : Recordable coin) :
    Reads (unserTxOut keys >>= fun out => pure (Coin.ofOut out
        ((coin.nHeight.val * 2 + coin.fCoinBase.toNat) / 2)
        ((coin.nHeight.val * 2 + coin.fCoinBase.toNat) % 2 = 1)))
      (serTxOut keys coin.out) coin := by
  have hout := (@reads_serTxOut keys _ h.sized h.script).map fun out =>
    Coin.ofOut out ((coin.nHeight.val * 2 + coin.fCoinBase.toNat) / 2)
      ((coin.nHeight.val * 2 + coin.fCoinBase.toNat) % 2 = 1)
  rwa [ofOut_code] at hout

/-- **A coin survives its undo record.** -/
theorem reads_serCoin {keys : PubKeyOps} {coin : Coin} (h : Recordable coin) :
    Reads (unserCoin keys) (serCoin keys coin) coin := by
  have hheight : (coin.nHeight.val * 2 + coin.fCoinBase.toNat) / 2 = coin.nHeight.val := by
    have := Bool.toNat_le coin.fCoinBase
    omega
  have hdummy : Reads (unserVersionDummy ((coin.nHeight.val * 2 + coin.fCoinBase.toNat) / 2))
      (if 0 < coin.nHeight.val then [0] else []) () := by
    rw [hheight]
    exact reads_versionDummy coin.nHeight.val
  exact (reads_code coin).bind (hdummy.bind (reads_out h))

/-- **A coin survives both of its records**, in the chainstate and in undo data, and each is read to
its last byte. -/
theorem coin_records_read_back (keys : PubKeyOps) (coin : Coin) (hunspent : ¬ coin.IsSpent)
    (hsized : Sized coin.out) (hscript : coin.out.scriptPubKey.length ≤ MAX_SCRIPT_SIZE) :
    (∃ bytes, serializeCoin keys coin = .ok bytes ∧ Reads (unserializeCoin keys) bytes coin) ∧
      Reads (unserCoin keys) (serCoin keys coin) coin := by
  have hrecordable : Recordable coin := ⟨hsized, hscript⟩
  refine ⟨⟨_, if_neg hunspent, ?_⟩, reads_serCoin hrecordable⟩
  exact (reads_code coin).bind (reads_out hrecordable)

def noKeys : PubKeyOps := ⟨fun _ => false, fun _ => none, fun _ _ _ h => by simp at h⟩

def committedCoin : Coin :=
  .ofOut ⟨⟨8 :: List.replicate 32 1⟩, ⟨2 :: List.replicate 32 3⟩, [1, 2, 3],
    [OP_DUP, OP_HASH160, 20] ++ List.replicate 20 7 ++ [OP_EQUALVERIFY, OP_CHECKSIG]⟩ 101 true

theorem coin_records_read_back_committed :
    ¬ committedCoin.IsSpent ∧ Sized committedCoin.out ∧
      (∃ bytes, serializeCoin noKeys committedCoin = .ok bytes ∧
        Reads (unserializeCoin noKeys) bytes committedCoin) ∧
      Reads (unserCoin noKeys) (serCoin noKeys committedCoin) committedCoin := by
  have hunspent : ¬ committedCoin.IsSpent := by decide
  have hsized : Sized committedCoin.out := by decide
  exact ⟨hunspent, hsized,
    coin_records_read_back noKeys committedCoin hunspent hsized (by decide)⟩

/-- **The undo data of a block survives serialization.** -/
theorem reads_serBlockUndo {keys : PubKeyOps} {blockundo : CBlockUndo}
    (hlen : blockundo.vtxundo.length ≤ MAX_SIZE)
    (htx : ∀ txundo ∈ blockundo.vtxundo, txundo.vprevout.length ≤ MAX_SIZE ∧
      ∀ coin ∈ txundo.vprevout, Recordable coin) :
    Reads (unserBlockUndo keys) (serBlockUndo keys blockundo) blockundo := by
  refine (reads_serVector hlen ?_).map CBlockUndo.mk
  intro txundo hmem
  refine (reads_serVector (htx txundo hmem).1 ?_).map CTxUndo.mk
  intro coin hcoin
  exact reads_serCoin ((htx txundo hmem).2 coin hcoin)

theorem reads_uint256 (h : Uint256) : Reads Uint256.unserialize h.bytes h := by
  intro rest
  have hsize := h.size_eq
  have hle : 32 ≤ (h.bytes ++ rest).length := by simp [hsize]
  rw [Uint256.unserialize, dif_pos hle]
  simp [← hsize]

/-- **`UndoReadFromDisk` returns what `UndoWriteToDisk` wrote**, whatever follows in the file. -/
theorem undoReadFromDisk_undoWriteToDisk {env : UndoEnv} {blockundo : CBlockUndo}
    {index : CBlockIndex} (hreads : Reads (unserBlockUndo env.keys)
      (serBlockUndo env.keys blockundo) blockundo) (rest : Bytes) :
    undoReadFromDisk env index (undoWriteToDisk env blockundo index.prevHash ++ rest) =
      .ok blockundo := by
  unfold undoReadFromDisk undoWriteToDisk
  rw [List.append_assoc, hreads]
  simp only [Except.bind, bind, reads_uint256 _ rest]
  simp

end Rcpu.Undo
