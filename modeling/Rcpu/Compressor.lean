import Rcpu.Coins

/-!
# Compressed outputs

`compressor.h` and `compressor.cpp`: the form in which spent outputs are written to the undo data
and coins to the database.  The four vectors of an output are written in full; only the script is
compressed, for six kinds of standard scripts.

Point decompression is the one thing taken from the curve library.  What the code needs of it is
a field of `PubKeyOps`: a fully valid uncompressed key is the decompression of its own compressed
form.
-/

namespace Rcpu.Compressor

open ByteStream Serialize Confidential Transaction Script

/-! ### Public keys -/

/-- The first bytes of the compressed key of an uncompressed one: parity, then the x coordinate. -/
def compressedKey (pubkey : Bytes) : Bytes :=
  (2 + (pubkey.getD 64 0 &&& 1)) :: (pubkey.drop 1).take 32

structure PubKeyOps where
  isFullyValid : Bytes → Bool
  decompress : Bytes → Option Bytes
  decompress_compressedKey : ∀ pubkey, pubkey.length = 65 → pubkey.head? = some 4 →
    isFullyValid pubkey = true → decompress (compressedKey pubkey) = some pubkey

/-! ### Scripts -/

def isToKeyID (script : CScript) : Option Bytes :=
  if script.length = 25 ∧ script[0]? = some OP_DUP ∧ script[1]? = some OP_HASH160 ∧
      script[2]? = some 20 ∧ script[23]? = some OP_EQUALVERIFY ∧ script[24]? = some OP_CHECKSIG then
    some ((script.drop 3).take 20)
  else none

def isToScriptID (script : CScript) : Option Bytes :=
  if script.length = 23 ∧ script[0]? = some OP_HASH160 ∧ script[1]? = some 20 ∧
      script[22]? = some OP_EQUAL then
    some ((script.drop 2).take 20)
  else none

/-- The key of a pay-to-pubkey script; an uncompressed key must be fully valid. -/
def isToPubKey (keys : PubKeyOps) (script : CScript) : Option Bytes :=
  if script.length = 35 ∧ script[0]? = some 33 ∧ script[34]? = some OP_CHECKSIG ∧
      (script[1]? = some 2 ∨ script[1]? = some 3) then
    some ((script.drop 1).take 33)
  else if script.length = 67 ∧ script[0]? = some 65 ∧ script[66]? = some OP_CHECKSIG ∧
      script[1]? = some 4 then
    let pubkey := (script.drop 1).take 65
    if keys.isFullyValid pubkey then some pubkey else none
  else none

def compressScript (keys : PubKeyOps) (script : CScript) : Option Bytes :=
  match isToKeyID script with
  | some keyID => some (0 :: keyID)
  | none =>
    match isToScriptID script with
    | some scriptID => some (1 :: scriptID)
    | none =>
      match isToPubKey keys script with
      | none => none
      | some pubkey =>
        let x := (pubkey.drop 1).take 32
        if pubkey.head? = some 2 ∨ pubkey.head? = some 3 then some (pubkey.headD 0 :: x)
        else if pubkey.head? = some 4 then some ((4 ||| (pubkey.getD 64 0 &&& 1)) :: x)
        else none

def getSpecialScriptSize (nSize : Nat) : Nat :=
  if nSize = 0 ∨ nSize = 1 then 20
  else if nSize = 2 ∨ nSize = 3 ∨ nSize = 4 ∨ nSize = 5 then 32
  else 0

def decompressScript (keys : PubKeyOps) (nSize : Nat) (vch : Bytes) : Option CScript :=
  match nSize with
  | 0 => some ([OP_DUP, OP_HASH160, 20] ++ vch ++ [OP_EQUALVERIFY, OP_CHECKSIG])
  | 1 => some ([OP_HASH160, 20] ++ vch ++ [OP_EQUAL])
  | 2 | 3 => some ([33, UInt8.ofNat nSize] ++ vch ++ [OP_CHECKSIG])
  | 4 | 5 => (keys.decompress (UInt8.ofNat (nSize - 2) :: vch)).map fun pubkey =>
      65 :: pubkey ++ [OP_CHECKSIG]
  | _ => none

def nSpecialScripts : Nat := 6

def serScript (keys : PubKeyOps) (script : CScript) : Bytes :=
  match compressScript keys script with
  | some compr => compr
  | none => writeVarInt ((script.length + nSpecialScripts) % 2 ^ 32) ++ script

def unserScriptBody (keys : PubKeyOps) (nSize : Nat) : Reader CScript :=
  if nSize < nSpecialScripts then do
    let vch ← Reader.readBytes (getSpecialScriptSize nSize)
    -- a point that does not decompress leaves the script empty
    return (decompressScript keys nSize vch).getD []
  else if nSize - nSpecialScripts > MAX_SCRIPT_SIZE then do
    let _ ← Reader.readBytes (nSize - nSpecialScripts)
    return [OP_RETURN]
  else Reader.readBytes (nSize - nSpecialScripts)

def unserScript (keys : PubKeyOps) : Reader CScript := do
  let nSize ← readVarInt UINT32_MAX
  unserScriptBody keys nSize

/-! ### Outputs -/

/-- `TxOutCompression` -/
def serTxOut (keys : PubKeyOps) (out : CTxOut) : Bytes :=
  serBytes out.nValue.vchCommitment ++ (serBytes out.nNonce.vchCommitment ++
    (serBytes out.vchRangeproof ++ serScript keys out.scriptPubKey))

def unserTxOut (keys : PubKeyOps) : Reader CTxOut := do
  let nValue ← unserBytes
  let nNonce ← unserBytes
  let vchRangeproof ← unserBytes
  let scriptPubKey ← unserScript keys
  return ⟨⟨nValue⟩, ⟨nNonce⟩, vchRangeproof, scriptPubKey⟩

/-! ### Reading back -/

private theorem eq_take_concat {l : Bytes} {n : Nat} {x : UInt8} (hlen : l.length = n + 1)
    (hx : l[n]? = some x) : l = l.take n ++ [x] := by
  obtain ⟨hn, hx⟩ := List.getElem?_eq_some_iff.mp hx
  have hdrop : l.drop n = [x] := by
    rw [List.drop_eq_getElem_cons hn, hx, List.drop_of_length_le (by omega)]
  rw [← hdrop, List.take_append_drop]

theorem isToKeyID_eq_some {script : CScript} {keyID : Bytes} (h : isToKeyID script = some keyID) :
    script = [OP_DUP, OP_HASH160, 20] ++ keyID ++ [OP_EQUALVERIFY, OP_CHECKSIG] ∧
      keyID.length = 20 := by
  unfold isToKeyID at h
  split_ifs at h with hshape
  obtain ⟨hlen, h0, h1, h2, h23, h24⟩ := hshape
  rcases script with _ | ⟨a, _ | ⟨b, _ | ⟨c, rest⟩⟩⟩
  · simp at hlen
  · simp at hlen
  · simp at hlen
  simp only [List.length_cons, Nat.reduceEqDiff] at hlen
  simp only [List.getElem?_cons_zero, List.getElem?_cons_succ, Option.some.injEq] at h0 h1 h2
  simp only [List.getElem?_cons_succ] at h23 h24
  have htail := eq_take_concat hlen h24
  have htail' := eq_take_concat (l := rest.take 21) (n := 20) (by simp [hlen])
    (by rwa [List.getElem?_take_of_lt (by omega)])
  simp only [List.drop_succ_cons, List.drop_zero, Option.some.injEq] at h
  subst h h0 h1 h2
  refine ⟨?_, by simp [hlen]⟩
  rw [List.take_take] at htail'
  conv_lhs => rw [htail, htail']
  simp

theorem isToScriptID_eq_some {script : CScript} {scriptID : Bytes}
    (h : isToScriptID script = some scriptID) :
    script = [OP_HASH160, 20] ++ scriptID ++ [OP_EQUAL] ∧ scriptID.length = 20 := by
  unfold isToScriptID at h
  split_ifs at h with hshape
  obtain ⟨hlen, h0, h1, h22⟩ := hshape
  rcases script with _ | ⟨a, _ | ⟨b, rest⟩⟩
  · simp at hlen
  · simp at hlen
  simp only [List.length_cons, Nat.reduceEqDiff] at hlen
  simp only [List.getElem?_cons_zero, List.getElem?_cons_succ, Option.some.injEq] at h0 h1
  simp only [List.getElem?_cons_succ] at h22
  have htail := eq_take_concat hlen h22
  simp only [List.drop_succ_cons, List.drop_zero, Option.some.injEq] at h
  subst h h0 h1
  refine ⟨?_, by simp [hlen]⟩
  conv_lhs => rw [htail]
  simp

/-- A script that pushes `n` bytes and then checks a signature, as both forms of
pay-to-pubkey do. -/
private theorem eq_push_checksig {script : CScript} {push : UInt8} {n : Nat}
    (hlen : script.length = n + 2) (h0 : script[0]? = some push)
    (hlast : script[n + 1]? = some OP_CHECKSIG) :
    script = push :: (script.drop 1).take n ++ [OP_CHECKSIG] := by
  rcases script with _ | ⟨a, rest⟩
  · simp at hlen
  simp only [List.length_cons, Nat.add_right_cancel_iff] at hlen
  simp only [List.getElem?_cons_zero, Option.some.injEq] at h0
  rw [List.getElem?_cons_succ] at hlast
  subst h0
  simp only [List.drop_succ_cons, List.drop_zero, List.cons_append, List.cons.injEq, true_and]
  exact eq_take_concat hlen hlast

theorem isToPubKey_eq_some {keys : PubKeyOps} {script : CScript} {pubkey : Bytes}
    (h : isToPubKey keys script = some pubkey) :
    (script = 33 :: pubkey ++ [OP_CHECKSIG] ∧ pubkey.length = 33 ∧
        (pubkey.head? = some 2 ∨ pubkey.head? = some 3)) ∨
      (script = 65 :: pubkey ++ [OP_CHECKSIG] ∧ pubkey.length = 65 ∧ pubkey.head? = some 4 ∧
        keys.isFullyValid pubkey = true) := by
  have hhead : ∀ n, 0 < n → ((script.drop 1).take n).head? = script[1]? := by
    intro n hn
    rw [List.head?_take, if_neg (by omega), List.head?_drop]
  unfold isToPubKey at h
  split_ifs at h with hshort hlong
  · obtain ⟨hlen, h0, h34, h1⟩ := hshort
    simp only [Option.some.injEq] at h
    subst h
    refine .inl ⟨eq_push_checksig hlen h0 h34, by simp [hlen], ?_⟩
    rwa [hhead 33 (by omega)]
  · obtain ⟨hlen, h0, h66, h1⟩ := hlong
    dsimp only at h
    split_ifs at h with hvalid
    simp only [Option.some.injEq] at h
    subst h
    refine .inr ⟨eq_push_checksig hlen h0 h66, by simp [hlen], ?_, hvalid⟩
    rwa [hhead 65 (by omega)]

private theorem and_one_cases (b : UInt8) : b &&& 1 = 0 ∨ b &&& 1 = 1 := by
  have hto : (b &&& 1).toNat = b.toNat % 2 := by
    rw [UInt8.toNat_and]
    exact Nat.and_one_is_mod b.toNat
  rcases Nat.mod_two_eq_zero_or_one b.toNat with h | h
  · exact .inl (UInt8.toNat_inj.mp (hto.trans h))
  · exact .inr (UInt8.toNat_inj.mp (hto.trans h))

private theorem compressKey_short {keys : PubKeyOps} {script : CScript} {pubkey compr : Bytes}
    (hscript : script = 33 :: pubkey ++ [OP_CHECKSIG]) (hlen : pubkey.length = 33)
    (hhead : pubkey.head? = some 2 ∨ pubkey.head? = some 3)
    (h : pubkey.headD 0 :: (pubkey.drop 1).take 32 = compr) :
    ∃ nSize vch, compr = UInt8.ofNat nSize :: vch ∧ nSize < nSpecialScripts ∧
      vch.length = getSpecialScriptSize nSize ∧ decompressScript keys nSize vch = some script := by
  rcases pubkey with _ | ⟨b, x⟩
  · simp at hlen
  simp only [List.length_cons, Nat.reduceEqDiff] at hlen
  rw [List.drop_succ_cons, List.drop_zero, List.take_of_length_le hlen.le] at h
  simp only [List.head?_cons, Option.some.injEq] at hhead
  subst h hscript
  rcases hhead with rfl | rfl
  · exact ⟨2, x, rfl, by decide, hlen, rfl⟩
  · exact ⟨3, x, rfl, by decide, hlen, rfl⟩

private theorem compressKey_long {keys : PubKeyOps} {script : CScript} {pubkey compr : Bytes}
    (hscript : script = 65 :: pubkey ++ [OP_CHECKSIG]) (hlen : pubkey.length = 65)
    (hhead : pubkey.head? = some 4) (hvalid : keys.isFullyValid pubkey = true)
    (h : (4 ||| (pubkey.getD 64 0 &&& 1)) :: (pubkey.drop 1).take 32 = compr) :
    ∃ nSize vch, compr = UInt8.ofNat nSize :: vch ∧ nSize < nSpecialScripts ∧
      vch.length = getSpecialScriptSize nSize ∧ decompressScript keys nSize vch = some script := by
  have hkey := keys.decompress_compressedKey pubkey hlen hhead hvalid
  have hx : ((pubkey.drop 1).take 32).length = 32 := by simp [hlen]
  unfold compressedKey at hkey
  subst h hscript
  -- the parity of the key is in the lowest bit of the size code
  rcases and_one_cases (pubkey.getD 64 0) with hbit | hbit
  · rw [hbit] at hkey ⊢
    exact ⟨4, _, rfl, by decide, hx, congrArg (Option.map fun key => 65 :: key ++ [OP_CHECKSIG]) hkey⟩
  · rw [hbit] at hkey ⊢
    exact ⟨5, _, rfl, by decide, hx, congrArg (Option.map fun key => 65 :: key ++ [OP_CHECKSIG]) hkey⟩

/-- **Every special form decompresses to its script.** -/
theorem compressScript_eq_some {keys : PubKeyOps} {script : CScript} {compr : Bytes}
    (h : compressScript keys script = some compr) :
    ∃ nSize vch, compr = UInt8.ofNat nSize :: vch ∧ nSize < nSpecialScripts ∧
      vch.length = getSpecialScriptSize nSize ∧ decompressScript keys nSize vch = some script := by
  unfold compressScript at h
  cases hkey : isToKeyID script with
  | some keyID =>
    simp only [hkey, Option.some.injEq] at h
    obtain ⟨hscript, hlen⟩ := isToKeyID_eq_some hkey
    exact ⟨0, keyID, h.symm, by decide, hlen, by rw [decompressScript, hscript]⟩
  | none =>
    cases hscriptID : isToScriptID script with
    | some scriptID =>
      simp only [hkey, hscriptID, Option.some.injEq] at h
      obtain ⟨hscript, hlen⟩ := isToScriptID_eq_some hscriptID
      exact ⟨1, scriptID, h.symm, by decide, hlen, by rw [decompressScript, hscript]⟩
    | none =>
      cases hpubkey : isToPubKey keys script with
      | none => simp [hkey, hscriptID, hpubkey] at h
      | some pubkey =>
        simp only [hkey, hscriptID, hpubkey] at h
        rcases isToPubKey_eq_some hpubkey with ⟨hscript, hlen, hhead⟩ | ⟨hscript, hlen, hhead, hvalid⟩
        · exact compressKey_short hscript hlen hhead (by rwa [if_pos hhead, Option.some.injEq] at h)
        · have hne : ¬ (pubkey.head? = some 2 ∨ pubkey.head? = some 3) := by simp [hhead]
          rw [if_neg hne, if_pos hhead, Option.some.injEq] at h
          exact compressKey_long hscript hlen hhead hvalid h

/-- The size code of a script and what follows it are read back. -/
theorem reads_serScript {keys : PubKeyOps} {script : CScript}
    (hlen : script.length ≤ MAX_SCRIPT_SIZE) :
    Reads (unserScript keys) (serScript keys script) script := by
  unfold serScript
  cases hcompr : compressScript keys script with
  | some compr =>
    obtain ⟨nSize, vch, rfl, hsize, hvch, hscript⟩ := compressScript_eq_some hcompr
    have hbound : nSize < 6 := hsize
    have hcode : Reads (readVarInt UINT32_MAX) [UInt8.ofNat nSize] nSize := by
      rw [← writeVarInt_of_lt (by omega)]
      exact reads_writeVarInt (by unfold UINT32_MAX; omega)
    refine hcode.bind (t := vch) ?_
    rw [unserScriptBody, if_pos hsize]
    have hread := (Reads.readBytes vch hvch).map fun vch => (decompressScript keys nSize vch).getD []
    rwa [hscript] at hread
  | none =>
    have hsmall : script.length ≤ 10000 := hlen
    have hcode : (script.length + nSpecialScripts) % 2 ^ 32 = script.length + 6 := by
      unfold nSpecialScripts
      omega
    rw [hcode]
    refine (reads_writeVarInt (by unfold UINT32_MAX; omega)).bind ?_
    rw [unserScriptBody, if_neg (by unfold nSpecialScripts; omega),
      if_neg (by unfold nSpecialScripts MAX_SCRIPT_SIZE; omega)]
    exact Reads.readBytes script (by unfold nSpecialScripts; omega)

/-- The vectors of an output fit the size that any reader accepts. -/
structure Sized (out : CTxOut) : Prop where
  value : out.nValue.vchCommitment.length ≤ MAX_SIZE
  nonce : out.nNonce.vchCommitment.length ≤ MAX_SIZE
  rangeproof : out.vchRangeproof.length ≤ MAX_SIZE

instance (out : CTxOut) : Decidable (Sized out) :=
  decidable_of_iff (out.nValue.vchCommitment.length ≤ MAX_SIZE ∧
      out.nNonce.vchCommitment.length ≤ MAX_SIZE ∧ out.vchRangeproof.length ≤ MAX_SIZE)
    ⟨fun ⟨value, nonce, rangeproof⟩ => ⟨value, nonce, rangeproof⟩,
      fun ⟨value, nonce, rangeproof⟩ => ⟨value, nonce, rangeproof⟩⟩

/-- **A compressed output is read back.** -/
theorem reads_serTxOut {keys : PubKeyOps} {out : CTxOut} (hsized : Sized out)
    (hscript : out.scriptPubKey.length ≤ MAX_SCRIPT_SIZE) :
    Reads (unserTxOut keys) (serTxOut keys out) out :=
  (reads_serBytes hsized.value).bind <| (reads_serBytes hsized.nonce).bind <|
    (reads_serBytes hsized.rangeproof).bind <| (reads_serScript hscript).map _

end Rcpu.Compressor
