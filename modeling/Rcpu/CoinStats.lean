import Mathlib.Data.Finset.Sort
import Mathlib.Data.List.Lex
import Mathlib.Data.Multiset.AddSub
import Rcpu.Coins

/-!
# Statistics of the coins view

`kernel/coinstats.cpp`: `ComputeUTXOStats` walks over the coins database in key order, collects the
outputs of one transaction at a time, and feeds every coin to a hash object and to the statistics.
The hash of a set of coins is what validates a snapshot of the chain state.

An output is written in the plain mode of the serializer, so the hash sees the amount of an
explicit value and nothing of a commitment, a nonce or a range proof.
-/

namespace Rcpu.CoinStats

open PrefixCode ByteStream Serialize Confidential Transaction Script Coins

/-! ### Coins as byte strings -/

/-- `GetBogoSize`: txid, output index, height and coinbase flag, amount, script length, script. -/
def getBogoSize (scriptPubKey : CScript) : Nat := 32 + 4 + 4 + 8 + 2 + scriptPubKey.length

def txOutSer (outpoint : COutPoint) (coin : Coin) : Bytes :=
  outpoint.serialize ++ serUint32 (UInt32.ofNat (coin.nHeight.val * 2 + coin.fCoinBase.toNat)) ++
    coin.out.serialize false

/-- `MuHash3072` as the multisets of the elements multiplied into its two halves. -/
structure MuHash3072 where
  numerator : Multiset Bytes
  denominator : Multiset Bytes
deriving DecidableEq

namespace MuHash3072

def empty : MuHash3072 := ⟨0, 0⟩

def insert (muhash : MuHash3072) (element : Bytes) : MuHash3072 :=
  { muhash with numerator := element ::ₘ muhash.numerator }

def remove (muhash : MuHash3072) (element : Bytes) : MuHash3072 :=
  { muhash with denominator := element ::ₘ muhash.denominator }

/-- `Finalize`: the quotient, with common factors cancelled. -/
def finalize (muhash : MuHash3072) : MuHash3072 :=
  ⟨muhash.numerator - muhash.denominator, muhash.denominator - muhash.numerator⟩

end MuHash3072

def writeCoin (ss : Bytes) (outpoint : COutPoint) (coin : Coin) : Bytes :=
  ss ++ txOutSer outpoint coin

/-- `ApplyCoinHash` for a `MuHash3072` -/
def applyCoinHash (muhash : MuHash3072) (outpoint : COutPoint) (coin : Coin) : MuHash3072 :=
  muhash.insert (txOutSer outpoint coin)

def removeCoinHash (muhash : MuHash3072) (outpoint : COutPoint) (coin : Coin) : MuHash3072 :=
  muhash.remove (txOutSer outpoint coin)

/-! ### The statistics -/

structure CCoinsStats where
  nTransactions : Nat := 0
  nTransactionOutputs : Nat := 0
  nBogoSize : Nat := 0
  /-- `none` after an overflow. -/
  totalAmount : Option Int := some 0
  coinsCount : Nat := 0
  confidentialOutputs : Option Nat := some 0
  amountsComplete : Bool := true
deriving DecidableEq, Repr

def checkedAdd (i j : Int) : Option Int := if IsInt64 (i + j) then some (i + j) else none

def applyOutput (stats : CCoinsStats) (coin : Coin) : CCoinsStats :=
  let stats := { stats with nTransactionOutputs := stats.nTransactionOutputs + 1 }
  let stats :=
    if coin.out.nValue.IsExplicit then
      { stats with
        totalAmount := stats.totalAmount.bind fun amount =>
          checkedAdd amount coin.out.nValue.getAmount }
    else
      { stats with
        amountsComplete := false
        confidentialOutputs := stats.confidentialOutputs.map (· + 1) }
  { stats with nBogoSize := stats.nBogoSize + getBogoSize coin.out.scriptPubKey }

/-- The outputs of one transaction, a `std::map<uint32_t, Coin>`: ascending indices. -/
abbrev Outputs := List (UInt32 × Coin)

def applyStats (stats : CCoinsStats) (outputs : Outputs) : CCoinsStats :=
  outputs.foldl (fun stats entry => applyOutput stats entry.2)
    { stats with nTransactions := stats.nTransactions + 1 }

/-- `outputs[n] = coin` -/
def setOutput (n : UInt32) (coin : Coin) : Outputs → Outputs
  | [] => [(n, coin)]
  | (m, c) :: rest =>
    if n < m then (n, coin) :: (m, c) :: rest
    else if n = m then (n, coin) :: rest
    else (m, c) :: setOutput n coin rest

/-! ### The walk over the database -/

section Walk

variable {H : Type} (apply : H → COutPoint → Coin → H)

def applyHash (hashObj : H) (hash : Uint256) (outputs : Outputs) : H :=
  outputs.foldl (fun hashObj entry => apply hashObj ⟨hash, entry.1⟩ entry.2) hashObj

structure Walk (H : Type) where
  stats : CCoinsStats
  hashObj : H
  prevkey : Uint256
  outputs : Outputs

def Walk.applyOutputs (walk : Walk H) : Walk H :=
  { walk with
    stats := applyStats walk.stats walk.outputs
    hashObj := applyHash apply walk.hashObj walk.prevkey walk.outputs
    outputs := [] }

def Walk.visit (walk : Walk H) (entry : COutPoint × Coin) : Walk H :=
  let (key, coin) := entry
  let walk := if walk.outputs ≠ [] ∧ key.hash ≠ walk.prevkey then walk.applyOutputs apply else walk
  { walk with
    stats := { walk.stats with coinsCount := walk.stats.coinsCount + 1 }
    prevkey := key.hash
    outputs := setOutput key.n coin walk.outputs }

/-- `ComputeUTXOStats` on the entries its cursor runs through, up to the final hash. -/
def walkCoins (hashObj : H) (cursor : List (COutPoint × Coin)) : CCoinsStats × H :=
  let walk := cursor.foldl (Walk.visit apply) ⟨{}, hashObj, Uint256.null, []⟩
  let walk := if walk.outputs ≠ [] then walk.applyOutputs apply else walk
  (walk.stats, walk.hashObj)

end Walk

def DB_COIN : UInt8 := 67

def coinKey (outpoint : COutPoint) : Bytes :=
  DB_COIN :: (outpoint.hash.bytes ++ writeVarInt outpoint.n.toNat)

theorem coinKey_injective : Function.Injective coinKey := by
  rintro ⟨hash, n⟩ ⟨hash', n'⟩ heq
  simp only [coinKey, List.cons.injEq, true_and] at heq
  obtain ⟨hhash, hn⟩ := List.append_inj heq (by rw [hash.size_eq, hash'.size_eq])
  obtain rfl := Uint256.bytes_injective hhash
  rw [UInt32.toNat.inj (prefixFree_writeVarInt.inj trivial trivial hn)]

/-- The database is ordered by the bytes of its keys. -/
instance : LinearOrder COutPoint :=
  LinearOrder.lift' (fun outpoint => (coinKey outpoint).map UInt8.toNat)
    fun _ _ h => coinKey_injective (List.map_injective_iff.mpr (fun _ _ => UInt8.toNat.inj) h)

/-- The entries a cursor over a coins database runs through. -/
def cursor (view : CCoinsView) : List (COutPoint × Coin) :=
  view.coins.keys.sort.filterMap fun outpoint =>
    (view.getCoin outpoint).map fun coin => (outpoint, coin)

/-- The statistics and the stream of bytes hashed for `CoinStatsHashType::HASH_SERIALIZED`. -/
def hashSerialized (view : CCoinsView) : CCoinsStats × Bytes :=
  walkCoins writeCoin [] (cursor view)

/-- The statistics and the set hash for `CoinStatsHashType::MUHASH`. -/
def muHash (view : CCoinsView) : CCoinsStats × MuHash3072 :=
  walkCoins applyCoinHash MuHash3072.empty (cursor view)

/-! ### What the walk visits -/

theorem mem_cursor {view : CCoinsView} {o : COutPoint} {c : Coin} :
    (o, c) ∈ cursor view ↔ view.getCoin o = some c := by
  simp only [cursor, List.mem_filterMap, Finset.mem_sort, Option.map_eq_some_iff, Prod.mk.injEq]
  constructor
  · rintro ⟨o', -, c', hget, rfl, rfl⟩
    exact hget
  · intro hget
    refine ⟨o, ?_, c, hget, rfl, rfl⟩
    rw [Finmap.mem_keys, ← Finmap.lookup_isSome]
    exact Option.isSome_of_eq_some hget

theorem nodup_cursor (view : CCoinsView) : (cursor view).Nodup := by
  refine List.Nodup.filterMap ?_ (Finset.sort_nodup _ _)
  intro o o' e he he'
  simp only [Option.mem_def, Option.map_eq_some_iff] at he he'
  obtain ⟨c, -, rfl⟩ := he
  obtain ⟨c', -, heq⟩ := he'
  exact (Prod.mk.inj heq).1.symm

theorem nodup_cursor_keys (view : CCoinsView) : ((cursor view).map Prod.fst).Nodup := by
  refine List.Nodup.map_on ?_ (nodup_cursor view)
  rintro ⟨o, c⟩ hmem ⟨o', c'⟩ hmem' heq
  obtain rfl : o = o' := heq
  have hget := (mem_cursor.mp hmem).symm.trans (mem_cursor.mp hmem')
  rw [Option.some.injEq] at hget
  rw [hget]

section Walk

variable {H : Type} (apply : H → COutPoint → Coin → H)

/-- A hash object that only lists what it is fed. -/
def listCoin (entries : List (COutPoint × Coin)) (outpoint : COutPoint) (coin : Coin) :
    List (COutPoint × Coin) := entries ++ [(outpoint, coin)]

/-- The order in which the walk feeds the entries to the hash object. -/
def ordered (cursor : List (COutPoint × Coin)) : List (COutPoint × Coin) :=
  (walkCoins listCoin [] cursor).2

def feed (hashObj : H) (entries : List (COutPoint × Coin)) : H :=
  entries.foldl (fun hashObj entry => apply hashObj entry.1 entry.2) hashObj

structure Follows (hashObj : H) (walk : Walk H) (list : Walk (List (COutPoint × Coin))) :
    Prop where
  stats : walk.stats = list.stats
  hashObj : walk.hashObj = feed apply hashObj list.hashObj
  prevkey : walk.prevkey = list.prevkey
  outputs : walk.outputs = list.outputs

def entriesOf (hash : Uint256) (outputs : Outputs) : List (COutPoint × Coin) :=
  outputs.map fun entry => (⟨hash, entry.1⟩, entry.2)

theorem applyHash_eq_feed (hashObj : H) (hash : Uint256) (outputs : Outputs) :
    applyHash apply hashObj hash outputs = feed apply hashObj (entriesOf hash outputs) := by
  rw [applyHash, feed, entriesOf, List.foldl_map]

theorem feed_append (hashObj : H) (entries entries' : List (COutPoint × Coin)) :
    feed apply hashObj (entries ++ entries') = feed apply (feed apply hashObj entries) entries' :=
  List.foldl_append

@[simp] theorem feed_list (list entries : List (COutPoint × Coin)) :
    feed listCoin list entries =
      list ++ entries := by
  induction entries generalizing list with
  | nil => simp [feed]
  | cons entry entries ih =>
    have hcons := ih (list ++ [entry])
    rw [List.append_assoc] at hcons
    exact hcons

variable {apply} {hashObj : H} {walk : Walk H} {list : Walk (List (COutPoint × Coin))}

theorem Follows.applyOutputs (h : Follows apply hashObj walk list) :
    Follows apply hashObj (walk.applyOutputs apply) (list.applyOutputs listCoin) := by
  refine ⟨?_, ?_, h.prevkey, rfl⟩
  · simp only [Walk.applyOutputs, h.stats, h.outputs]
  · simp only [Walk.applyOutputs, applyHash_eq_feed, feed_list, feed_append, h.hashObj, h.prevkey,
      h.outputs]

theorem Follows.visit (h : Follows apply hashObj walk list) (entry : COutPoint × Coin) :
    Follows apply hashObj (walk.visit apply entry) (list.visit listCoin entry) := by
  obtain ⟨key, coin⟩ := entry
  have hflush : Follows apply hashObj
      (if walk.outputs ≠ [] ∧ key.hash ≠ walk.prevkey then walk.applyOutputs apply else walk)
      (if list.outputs ≠ [] ∧ key.hash ≠ list.prevkey then list.applyOutputs listCoin else list) := by
    rw [h.outputs, h.prevkey]
    split
    · exact h.applyOutputs
    · exact h
  refine ⟨?_, hflush.hashObj, rfl, ?_⟩
  · simp only [Walk.visit, hflush.stats]
  · simp only [Walk.visit, hflush.outputs]

theorem Follows.foldl (h : Follows apply hashObj walk list) (cursor : List (COutPoint × Coin)) :
    Follows apply hashObj (cursor.foldl (Walk.visit apply) walk)
      (cursor.foldl (Walk.visit listCoin) list) := by
  induction cursor generalizing walk list with
  | nil => exact h
  | cons entry cursor ih => exact ih (h.visit entry)

/-- **The walk feeds one list of entries to whatever hash object it is given.** -/
theorem walkCoins_eq (cursor : List (COutPoint × Coin)) :
    walkCoins apply hashObj cursor =
      ((walkCoins listCoin [] cursor).1,
        feed apply hashObj (ordered cursor)) := by
  have hinit : Follows apply hashObj ⟨{}, hashObj, Uint256.null, []⟩
      ⟨{}, [], Uint256.null, []⟩ := ⟨rfl, rfl, rfl, rfl⟩
  have hend := hinit.foldl cursor
  unfold ordered walkCoins
  dsimp only
  rw [hend.outputs]
  split
  · exact Prod.ext hend.applyOutputs.stats hend.applyOutputs.hashObj
  · exact Prod.ext hend.stats hend.hashObj

theorem perm_setOutput {n : UInt32} {coin : Coin} {outputs : Outputs}
    (h : n ∉ outputs.map Prod.fst) : (setOutput n coin outputs).Perm ((n, coin) :: outputs) := by
  induction outputs with
  | nil => exact .refl _
  | cons entry rest ih =>
    obtain ⟨m, c⟩ := entry
    simp only [List.map_cons, List.mem_cons, not_or] at h
    unfold setOutput
    split
    · exact .refl _
    · rw [if_neg h.1]
      exact ((ih h.2).cons _).trans (.swap _ _ _)

def Visited (walk : Walk (List (COutPoint × Coin))) (seen : List (COutPoint × Coin)) : Prop :=
  (walk.hashObj ++ entriesOf walk.prevkey walk.outputs).Perm seen

variable {seen : List (COutPoint × Coin)}

theorem Visited.applyOutputs (h : Visited list seen) :
    Visited (list.applyOutputs listCoin) seen := by
  simpa only [Visited, Walk.applyOutputs, applyHash_eq_feed, feed_list, entriesOf, List.map_nil,
    List.append_nil] using h

theorem Visited.visit (h : Visited list seen) {key : COutPoint} (coin : Coin)
    (hfresh : key ∉ seen.map Prod.fst) :
    Visited (list.visit listCoin (key, coin)) ((key, coin) :: seen) := by
  -- the outputs collected when the entry is added are those of its own transaction
  obtain ⟨mid, hmid, hvisit, hown⟩ : ∃ mid, Visited mid seen ∧
      list.visit listCoin (key, coin) =
        { mid with
          stats := { mid.stats with coinsCount := mid.stats.coinsCount + 1 }
          prevkey := key.hash
          outputs := setOutput key.n coin mid.outputs } ∧
      (mid.outputs ≠ [] → mid.prevkey = key.hash) := by
    by_cases hflush : list.outputs ≠ [] ∧ key.hash ≠ list.prevkey
    · refine ⟨list.applyOutputs listCoin, h.applyOutputs, ?_, fun hne => absurd rfl hne⟩
      simp only [Walk.visit, if_pos hflush]
    · refine ⟨list, h, ?_, fun hne => ?_⟩
      · simp only [Walk.visit, if_neg hflush]
      · exact (not_not.mp fun hkey => hflush ⟨hne, Ne.symm hkey⟩)
  have hentries : entriesOf mid.prevkey mid.outputs = entriesOf key.hash mid.outputs := by
    by_cases hnil : mid.outputs = []
    · simp [entriesOf, hnil]
    · rw [hown hnil]
  have hn : key.n ∉ mid.outputs.map Prod.fst := by
    intro hmem
    obtain ⟨⟨n, c⟩, hmem, rfl⟩ := List.mem_map.mp hmem
    have hentry : (key, c) ∈ entriesOf key.hash mid.outputs :=
      List.mem_map.mpr ⟨_, hmem, rfl⟩
    have hseen := hmid.subset (List.mem_append_right _ (hentries ▸ hentry))
    exact hfresh (List.mem_map.mpr ⟨_, hseen, rfl⟩)
  have hperm : (entriesOf key.hash (setOutput key.n coin mid.outputs)).Perm
      ((key, coin) :: entriesOf key.hash mid.outputs) := (perm_setOutput hn).map _
  rw [Visited, hentries] at hmid
  rw [hvisit]
  exact ((hperm.append_left _).trans List.perm_middle).trans (hmid.cons _)

theorem Visited.foldl (h : Visited list seen) {cursor : List (COutPoint × Coin)}
    (hnodup : ((seen.reverse ++ cursor).map Prod.fst).Nodup) :
    Visited (cursor.foldl (Walk.visit listCoin) list) (seen.reverse ++ cursor) := by
  induction cursor generalizing list seen with
  | nil =>
    rw [List.append_nil]
    exact h.trans (List.reverse_perm seen).symm
  | cons entry cursor ih =>
    obtain ⟨key, coin⟩ := entry
    have hsplit : seen.reverse ++ (key, coin) :: cursor =
        ((key, coin) :: seen).reverse ++ cursor := by simp
    have hfresh : key ∉ seen.map Prod.fst := by
      intro hmem
      rw [List.map_append, List.nodup_append] at hnodup
      refine hnodup.2.2 key ?_ key ?_ rfl
      · rwa [List.map_reverse, List.mem_reverse]
      · simp
    rw [hsplit] at hnodup ⊢
    exact ih (h.visit coin hfresh) hnodup

/-- **Every entry is fed to the hash object once.** -/
theorem perm_ordered {cursor : List (COutPoint × Coin)} (hnodup : (cursor.map Prod.fst).Nodup) :
    (ordered cursor).Perm cursor := by
  have hinit : Visited ⟨{}, [], Uint256.null, []⟩ [] := .refl _
  have hend : Visited (cursor.foldl (Walk.visit listCoin) ⟨{}, [], Uint256.null, []⟩) cursor :=
    hinit.foldl hnodup
  unfold ordered walkCoins
  dsimp only
  split
  · simpa [Visited, Walk.applyOutputs, entriesOf] using hend.applyOutputs
  · next hnil =>
    rw [Visited, not_not.mp hnil] at hend
    simpa [entriesOf] using hend

end Walk

/-! ### What the hash sees of a coin -/

/-- What `TxOutSer` shows of a coin: a plain output of the explicit amount, or of 0. -/
def plain (coin : Coin) : Coin :=
  { coin with out := .ofAmount coin.out.nValue.getAmount coin.out.scriptPubKey }

theorem txOutSer_plain (o : COutPoint) (c : Coin) : txOutSer o (plain c) = txOutSer o c := by
  simp only [txOutSer, plain, CTxOut.serialize_false, CTxOut.ofAmount]
  rw [CConfidentialValue.getAmount_ofAmount (CConfidentialValue.isInt64_getAmount _)]

theorem Storable.script_lt {c : Coin} (h : c.Storable) : c.out.scriptPubKey.length < 2 ^ 64 := by
  have hle : ¬ c.out.scriptPubKey.length > MAX_SCRIPT_SIZE := fun hgt => h.2 (.inl (.inr hgt))
  unfold MAX_SCRIPT_SIZE at hle
  omega

theorem code_inj {c c' : Coin} (h : UInt32.ofNat (c.nHeight.val * 2 + c.fCoinBase.toNat) =
      UInt32.ofNat (c'.nHeight.val * 2 + c'.fCoinBase.toNat)) :
    c.nHeight = c'.nHeight ∧ c.fCoinBase = c'.fCoinBase := by
  have hnat := congrArg UInt32.toNat h
  simp only [UInt32.toNat_ofNat'] at hnat
  have hc := Bool.toNat_le c.fCoinBase
  have hc' := Bool.toNat_le c'.fCoinBase
  have hflag : c.fCoinBase.toNat = c'.fCoinBase.toNat := by omega
  refine ⟨Fin.ext (by omega), ?_⟩
  cases hb : c.fCoinBase <;> cases hb' : c'.fCoinBase <;> simp_all

/-- The byte string of a coin, followed by anything, determines the outpoint and what the hash
sees of the coin. -/
theorem txOutSer_append_inj {o o' : COutPoint} {c c' : Coin} {r s : Bytes} (hc : c.Storable)
    (hc' : c'.Storable) (h : txOutSer o c ++ r = txOutSer o' c' ++ s) :
    o = o' ∧ plain c = plain c' := by
  simp only [txOutSer, List.append_assoc] at h
  obtain ⟨ho, h⟩ := COutPoint.prefixFree_serialize.append_inj trivial trivial h
  obtain ⟨hcode, h⟩ := prefixFree_serUint32.append_inj trivial trivial h
  obtain ⟨hheight, hflag⟩ := code_inj hcode
  obtain ⟨hamount, hscript, -⟩ :=
    CTxOut.serialize_false_append_inj (Storable.script_lt hc) (Storable.script_lt hc') h
  refine ⟨ho, ?_⟩
  cases c
  cases c'
  simp_all [plain]

def IsCoinString (bs : Bytes) : Prop := ∃ o c, Coin.Storable c ∧ bs = txOutSer o c

theorem prefixFree_coinString : PrefixFreeOn IsCoinString fun bs : Bytes => bs := by
  apply PrefixFreeOn.of_append_inj
  rintro _ _ r s ⟨o, c, hc, rfl⟩ ⟨o', c', hc', rfl⟩ h
  obtain ⟨rfl, hplain⟩ := txOutSer_append_inj hc hc' h
  rw [← txOutSer_plain o c, hplain, txOutSer_plain]

def coinStrings (view : CCoinsView) : List Bytes :=
  (ordered (cursor view)).map fun entry => txOutSer entry.1 entry.2

theorem mem_coinStrings {view : CCoinsView} {bs : Bytes} :
    bs ∈ coinStrings view ↔ ∃ o c, view.getCoin o = some c ∧ bs = txOutSer o c := by
  simp only [coinStrings, List.mem_map, (perm_ordered (nodup_cursor_keys view)).mem_iff,
    Prod.exists, mem_cursor, eq_comm]

theorem isCoinString_of_mem {view : CCoinsView} {bs : Bytes} (h : bs ∈ coinStrings view) :
    IsCoinString bs := by
  obtain ⟨o, c, hget, rfl⟩ := mem_coinStrings.mp h
  exact ⟨o, c, CCoinsView.getCoin_storable hget, rfl⟩

theorem hashSerialized_snd (view : CCoinsView) :
    (hashSerialized view).2 = (coinStrings view).flatMap fun bs => bs := by
  rw [hashSerialized, walkCoins_eq, coinStrings]
  simp [feed, writeCoin]

theorem muHash_snd (view : CCoinsView) : (muHash view).2 = ⟨coinStrings view, 0⟩ := by
  have hfeed : ∀ (entries : List (COutPoint × Coin)) (m : MuHash3072),
      feed applyCoinHash m entries = { m with
        numerator := (entries.map fun entry => txOutSer entry.1 entry.2) + m.numerator } := by
    intro entries
    induction entries with
    | nil => simp [feed]
    | cons entry entries ih =>
      intro m
      have hcons := ih (applyCoinHash m entry.1 entry.2)
      rw [List.map_cons, ← Multiset.cons_coe, Multiset.cons_add, ← Multiset.add_cons]
      exact hcons
  rw [muHash, walkCoins_eq, hfeed, coinStrings]
  simp [MuHash3072.empty]

/-! ### What the hash identifies -/

def plainCoin (view : CCoinsView) (o : COutPoint) : Option Coin := (view.getCoin o).map plain

theorem plainCoin_subset {view view' : CCoinsView}
    (h : ∀ bs ∈ coinStrings view, bs ∈ coinStrings view') {o : COutPoint} {c : Coin}
    (hget : view.getCoin o = some c) : plainCoin view' o = some (plain c) := by
  obtain ⟨o', c', hget', heq⟩ := mem_coinStrings.mp (h _ (mem_coinStrings.mpr ⟨o, c, hget, rfl⟩))
  obtain ⟨rfl, hplain⟩ := txOutSer_append_inj (CCoinsView.getCoin_storable hget)
    (CCoinsView.getCoin_storable hget') (congrArg (· ++ []) heq)
  rw [plainCoin, hget', hplain]
  rfl

theorem plainCoin_eq_of_strings {view view' : CCoinsView}
    (h : ∀ bs, bs ∈ coinStrings view ↔ bs ∈ coinStrings view') :
    plainCoin view = plainCoin view' := by
  funext o
  cases hget : view.getCoin o with
  | some c =>
    rw [plainCoin_subset (fun bs => (h bs).mp) hget, plainCoin, hget]
    rfl
  | none =>
    cases hget' : view'.getCoin o with
    | none => rw [plainCoin, plainCoin, hget, hget']
    | some c' =>
      have hplain := plainCoin_subset (fun bs => (h bs).mpr) hget'
      rw [plainCoin, hget] at hplain
      simp at hplain

def plainEntry (entry : COutPoint × Coin) : COutPoint × Coin := (entry.1, plain entry.2)

def plainOutputs (outputs : Outputs) : Outputs := outputs.map fun entry => (entry.1, plain entry.2)

theorem setOutput_plainOutputs (n : UInt32) (c : Coin) (outputs : Outputs) :
    setOutput n (plain c) (plainOutputs outputs) = plainOutputs (setOutput n c outputs) := by
  induction outputs with
  | nil => rfl
  | cons entry rest ih =>
    obtain ⟨m, c'⟩ := entry
    simp only [plainOutputs, List.map_cons, setOutput] at ih ⊢
    split_ifs
    · rfl
    · rfl
    · rw [ih]
      rfl

structure Shows (walk walk' : Walk (List (COutPoint × Coin))) : Prop where
  hashObj : walk'.hashObj = walk.hashObj.map plainEntry
  prevkey : walk'.prevkey = walk.prevkey
  outputs : walk'.outputs = plainOutputs walk.outputs

section Shows

variable {walk walk' : Walk (List (COutPoint × Coin))}

theorem Shows.outputs_ne_nil (h : Shows walk walk') : walk'.outputs ≠ [] ↔ walk.outputs ≠ [] := by
  simp [h.outputs, plainOutputs]

theorem Shows.applyOutputs (h : Shows walk walk') :
    Shows (walk.applyOutputs listCoin) (walk'.applyOutputs listCoin) := by
  refine ⟨?_, h.prevkey, rfl⟩
  simp only [Walk.applyOutputs, applyHash_eq_feed, feed_list, List.map_append, h.hashObj, h.prevkey,
    h.outputs, entriesOf, plainOutputs, List.map_map]
  rfl

theorem Shows.visit (h : Shows walk walk') (entry : COutPoint × Coin) :
    Shows (walk.visit listCoin entry) (walk'.visit listCoin (plainEntry entry)) := by
  obtain ⟨key, coin⟩ := entry
  have hflush : Shows
      (if walk.outputs ≠ [] ∧ key.hash ≠ walk.prevkey then walk.applyOutputs listCoin else walk)
      (if walk'.outputs ≠ [] ∧ key.hash ≠ walk'.prevkey then walk'.applyOutputs listCoin
        else walk') := by
    simp only [h.outputs_ne_nil, h.prevkey]
    split
    · exact h.applyOutputs
    · exact h
  exact ⟨hflush.hashObj, rfl, (congrArg (setOutput key.n (plain coin)) hflush.outputs).trans
    (setOutput_plainOutputs key.n coin _)⟩

theorem Shows.foldl (h : Shows walk walk') (cursor : List (COutPoint × Coin)) :
    Shows (cursor.foldl (Walk.visit listCoin) walk)
      ((cursor.map plainEntry).foldl (Walk.visit listCoin) walk') := by
  induction cursor generalizing walk walk' with
  | nil => exact h
  | cons entry cursor ih => exact ih (h.visit entry)

theorem ordered_map_plainEntry (cursor : List (COutPoint × Coin)) :
    ordered (cursor.map plainEntry) = (ordered cursor).map plainEntry := by
  have hinit : Shows ⟨{}, [], Uint256.null, []⟩ ⟨{}, [], Uint256.null, []⟩ := ⟨rfl, rfl, rfl⟩
  have hend := hinit.foldl cursor
  unfold ordered walkCoins
  simp only [hend.outputs_ne_nil]
  split
  · exact hend.applyOutputs.hashObj
  · exact hend.hashObj

end Shows

theorem cursor_map_plainEntry (view : CCoinsView) :
    (cursor view).map plainEntry =
      view.coins.keys.sort.filterMap fun o => (plainCoin view o).map fun c => (o, c) := by
  rw [cursor, List.map_filterMap]
  congr 1
  funext o
  simp [plainCoin, Option.map_map, Function.comp_def, plainEntry]

theorem coinStrings_eq_of_plainCoin {view view' : CCoinsView}
    (h : plainCoin view = plainCoin view') : coinStrings view = coinStrings view' := by
  have hstrings : ∀ view, coinStrings view =
      (ordered ((cursor view).map plainEntry)).map fun entry => txOutSer entry.1 entry.2 := by
    intro view
    rw [ordered_map_plainEntry, List.map_map, coinStrings]
    exact List.map_congr_left fun entry _ => (txOutSer_plain entry.1 entry.2).symm
  have hkeys : view.coins.keys = view'.coins.keys := by
    ext o
    have ho := congrArg Option.isSome (congrFun h o)
    simp only [plainCoin, Option.isSome_map, CCoinsView.getCoin] at ho
    rw [Finmap.mem_keys, Finmap.mem_keys, ← Finmap.lookup_isSome, ← Finmap.lookup_isSome, ho]
  rw [hstrings, hstrings, cursor_map_plainEntry, cursor_map_plainEntry, h, hkeys]

def sampleHeight : Fin (2 ^ 31) := (Coin.ofOut .null 7 false).nHeight

def sampleCoin (value : CConfidentialValue) : Coin :=
  ⟨⟨value, .null, [], [OP_TRUE]⟩, false, sampleHeight⟩

theorem storable_sampleCoin {value : CConfidentialValue} (h : ¬ value.IsExplicit) :
    (sampleCoin value).Storable := by
  refine ⟨fun hspent => h hspent.1, ?_⟩
  rintro ((hreturn | hsize) | hfee)
  · simp [sampleCoin, OP_TRUE, OP_RETURN] at hreturn
  · simp [sampleCoin, MAX_SCRIPT_SIZE] at hsize
  · exact h hfee.1

def oneCoin (value : CConfidentialValue) (h : ¬ value.IsExplicit) : CCoinsView :=
  CCoinsView.empty.insert ⟨Uint256.null, 0⟩ (sampleCoin value) (storable_sampleCoin h)

end Rcpu.CoinStats
