import Rcpu.Etchash

/-!
# Etchash over unbounded integers

The algorithm of `Etchash` with numbers for row counts, offsets, indices and words, and reads that are
always defined.  Only the multiplication of FNV and the four bytes of a stored word are modulo `2 ^ 32`,
as the algorithm has them.  For the sizes of the first epochs the machine code computes the same.
-/

namespace Rcpu.Etchash

open ByteStream CheckedMemory Transaction

namespace Unbounded

/-! ### The algorithm -/

def fnv1a (a b : Nat) : Nat := a * 0x01000193 % 2 ^ 32 ^^^ b

def fnvHash (mix data : List Nat) : List Nat := List.zipWith fnv1a mix data

def load32 (mem : Bytes) (off : Nat) : Nat := ofLeBytes (slice mem off 4)

def store32 (v : Nat) : Bytes := leBytes 4 v

def loadWords (mem : Bytes) (n : Nat) : List Nat := (List.range n).map fun i => load32 mem (4 * i)

def fillRow (K : Keccak) (cache : Bytes) (offset : Nat) : Bytes :=
  splice cache offset (K.keccak512 (slice cache (offset - HASH_BYTES) HASH_BYTES))

def memoRow (K : Keccak) (rows : Nat) (cache : Bytes) (j : Nat) : Bytes :=
  let src_off := (((j : Int) - 1 + rows) % rows).toNat * HASH_BYTES
  let dst_off := j * HASH_BYTES
  let xor_off := load32 cache dst_off % rows * HASH_BYTES
  let temp := List.zipWith (· ^^^ ·) (slice cache src_off HASH_BYTES) (slice cache xor_off HASH_BYTES)
  splice cache dst_off (K.keccak512 temp)

def memoRound (K : Keccak) (rows : Nat) (cache : Bytes) : Bytes :=
  (List.range rows).foldl (memoRow K rows) cache

def generateCache (K : Keccak) (cache_size : Nat) (seed : Uint256) : List Nat :=
  let rows := cache_size / HASH_BYTES
  let cache := splice (List.replicate cache_size 0) 0 (K.keccak512 seed.bytes)
  -- The offsets of the rows but the first.
  let cache := (List.range' HASH_BYTES ((cache_size - 1) / HASH_BYTES) HASH_BYTES).foldl (fillRow K) cache
  let cache := (List.range CACHE_ROUNDS).foldl (fun cache _ => memoRound K rows cache) cache
  loadWords cache (cache_size / 4)

def parentRound (cache_words : List Nat) (rows index : Nat) (int_mix : List Nat) (i : Nat) : List Nat :=
  let parent := fnv1a (index ^^^ i) (int_mix.getD (i % 16) 0) % rows
  fnvHash int_mix (slice cache_words (parent * HASH_WORDS) HASH_WORDS)

def generateDatasetItem (K : Keccak) (cache_words : List Nat) (index : Nat) : Bytes :=
  let rows := cache_words.length / HASH_WORDS
  let head := cache_words.getD (index % rows * HASH_WORDS) 0
  let rest := (List.range' 1 15).map fun i => cache_words.getD (index % rows * HASH_WORDS + i) 0
  let mix := ((head ^^^ index) :: rest).flatMap store32
  let int_mix := loadWords (K.keccak512 mix) HASH_WORDS
  let int_mix := (List.range DATASET_PARENTS).foldl (parentRound cache_words rows index) int_mix
  K.keccak512 (int_mix.flatMap store32)

def accessRound (K : Keccak) (cache_words : List Nat) (rows seed_head : Nat) (mix : List Nat)
    (i : Nat) : List Nat :=
  let parent := fnv1a (i ^^^ seed_head) (mix.getD (i % MIX_WORDS) 0) % rows
  let first := loadWords (generateDatasetItem K cache_words (2 * parent)) HASH_WORDS
  let second := loadWords (generateDatasetItem K cache_words (2 * parent + 1)) HASH_WORDS
  fnvHash mix (first ++ second)

def compressRound (mix : List Nat) (k : Nat) : List Nat :=
  let i := 4 * k
  let word := fnv1a (fnv1a (fnv1a (mix.getD i 0) (mix.getD (i + 1) 0)) (mix.getD (i + 2) 0))
    (mix.getD (i + 3) 0)
  mix.set (i / 4) word

def hashimotoLight (K : Keccak) (dataset_size : Nat) (cache_words : List Nat) (header_hash : Uint256)
    (nonce : Nat) : Bytes × Bytes :=
  let rows := dataset_size / MIX_BYTES
  let seed := K.keccak512 (header_hash.bytes ++ leBytes 8 nonce)
  let seed_head := load32 seed 0
  let mix := (List.range MIX_WORDS).map fun i => load32 seed (4 * (i % HASH_WORDS))
  let mix := (List.range LOOP_ACCESSES).foldl (accessRound K cache_words rows seed_head) mix
  let mix := (List.range 8).foldl compressRound mix
  let digest := (slice mix 0 8).flatMap store32
  (digest, K.keccak256 (seed ++ digest))

end Unbounded

/-! ### Words -/

def numbers (words : List UInt32) : List Nat := words.map UInt32.toNat

theorem length_numbers (words : List UInt32) : (numbers words).length = words.length :=
  List.length_map ..

theorem toNat_fnv1a (a b : UInt32) : (fnv1a a b).toNat = Unbounded.fnv1a a.toNat b.toNat := by
  rw [fnv1a, UInt32.toNat_xor, UInt32.toNat_mul]
  rfl

theorem numbers_fnvHash (mix data : List UInt32) :
    numbers (fnvHash mix data) = Unbounded.fnvHash (numbers mix) (numbers data) := by
  rw [numbers, fnvHash, List.map_zipWith, Unbounded.fnvHash, numbers, numbers, List.zipWith_map]
  simp only [toNat_fnv1a]

theorem toNat_join (p0 p1 p2 p3 : UInt8) :
    (p0.toUInt32 ||| p1.toUInt32 <<< 8 ||| p2.toUInt32 <<< 16 ||| p3.toUInt32 <<< 24).toNat
      = ofLeBytes [p0, p1, p2, p3] := by
  have h0 := p0.toNat_lt
  have h1 := p1.toNat_lt
  have h2 := p2.toNat_lt
  have h3 := p3.toNat_lt
  have hor (x y i : Nat) (hx : x < 2 ^ i) : x ||| y <<< i = x + 2 ^ i * y := by
    rw [Nat.or_comm, ← Nat.shiftLeft_add_eq_or_of_lt hx, Nat.shiftLeft_eq, Nat.mul_comm, Nat.add_comm]
  have hshift (p : UInt8) (i : Nat) (hi : i ≤ 24) : p.toNat <<< i % 2 ^ 32 = p.toNat <<< i := by
    apply Nat.mod_eq_of_lt
    have := p.toNat_lt
    calc p.toNat <<< i ≤ p.toNat <<< 24 := by
          rw [Nat.shiftLeft_eq, Nat.shiftLeft_eq]
          exact Nat.mul_le_mul_left _ (Nat.pow_le_pow_right (by decide) hi)
      _ < 2 ^ 32 := by
          rw [Nat.shiftLeft_eq]
          omega
  simp only [UInt32.toNat_or, UInt32.toNat_shiftLeft, UInt8.toNat_toUInt32, UInt32.reduceToNat,
    Nat.reduceMod]
  rw [hshift _ 8 (by decide), hshift _ 16 (by decide), hshift _ 24 (by decide), hor _ _ 8 h0,
    hor _ _ 16 (by omega), hor _ _ 24 (by omega)]
  simp only [ofLeBytes]
  omega

theorem store32_eq (v : UInt32) : store32 v = Unbounded.store32 v.toNat := by
  have hlow : v.toUInt8 = UInt8.ofNat v.toNat := by
    apply UInt8.toNat_inj.mp
    rw [UInt32.toNat_toUInt8, UInt8.toNat_ofNat']
  have hbyte (i : UInt32) (hi : i.toNat < 32) :
      (v >>> i).toUInt8 = UInt8.ofNat (v.toNat / 2 ^ i.toNat) := by
    apply UInt8.toNat_inj.mp
    rw [UInt32.toNat_toUInt8, UInt32.toNat_shiftRight, Nat.mod_eq_of_lt hi, Nat.shiftRight_eq_div_pow,
      UInt8.toNat_ofNat']
  rw [store32, hlow, hbyte 8 (by decide), hbyte 16 (by decide), hbyte 24 (by decide)]
  simp only [Unbounded.store32, leBytes, Nat.div_div_eq_div_mul]
  rfl

theorem flatMap_store32 (words : List UInt32) :
    words.flatMap store32 = (numbers words).flatMap Unbounded.store32 := by
  rw [numbers, List.flatMap_map]
  exact congrArg (fun f => words.flatMap f) (funext store32_eq)

theorem store_nonce (nonce : UInt64) :
    store32 nonce.toUInt32 ++ store32 (nonce >>> 32).toUInt32 = leBytes 8 nonce.toNat := by
  have hpow : (2 : Nat) ^ 32 = 256 ^ 4 := by decide
  have hshift : nonce.toNat >>> (UInt64.toNat 32 % 64) = nonce.toNat / 256 ^ 4 := by
    rw [Nat.shiftRight_eq_div_pow, ← hpow]
    rfl
  rw [store32_eq, store32_eq, UInt64.toNat_toUInt32, UInt64.toNat_toUInt32, UInt64.toNat_shiftRight,
    hshift, hpow, Unbounded.store32, Unbounded.store32, leBytes_mod, leBytes_mod]
  exact leBytes_append 4 4 nonce.toNat

/-! ### Checked operations that succeed -/

theorem load32_of_le {mem : Bytes} {off : Nat} (h : off + 4 ≤ mem.length) :
    ∃ w, load32 mem off = some w ∧ w.toNat = Unbounded.load32 mem off := by
  have hlen : 4 ≤ (mem.drop off).length := by
    rw [List.length_drop]
    omega
  rw [load32, Unbounded.load32, slice]
  rcases hdrop : mem.drop off with _ | ⟨p0, _ | ⟨p1, _ | ⟨p2, _ | ⟨p3, tail⟩⟩⟩⟩
  case cons.cons.cons.cons => exact ⟨_, rfl, toNat_join p0 p1 p2 p3⟩
  all_goals simp [hdrop] at hlen

theorem loadWords_of_le {mem : Bytes} {n : Nat} (h : 4 * n ≤ mem.length) :
    ∃ words, loadWords mem n = some words ∧ numbers words = Unbounded.loadWords mem n := by
  apply mapM_simulates
  intro i hi
  rw [List.mem_range] at hi
  exact load32_of_le (by omega)

theorem length_loadWords (mem : Bytes) (n : Nat) : (Unbounded.loadWords mem n).length = n := by
  rw [Unbounded.loadWords, List.length_map, List.length_range]

theorem remainder_of_pos {a b : UInt32} (h : 0 < b.toNat) :
    ∃ r, remainder a b = some r ∧ r.toNat = a.toNat % b.toNat := by
  have hne : b ≠ 0 := by
    rintro rfl
    exact absurd h (by decide)
  exact ⟨a % b, if_neg hne, UInt32.toNat_mod a b⟩

theorem getElem_of_lt {words : List UInt32} {i : Nat} (h : i < words.length) :
    ∃ w, words[i]? = some w ∧ w.toNat = (numbers words).getD i 0 := by
  refine ⟨words[i], List.getElem?_eq_getElem h, ?_⟩
  rw [List.getD_eq_getElem?_getD, numbers, List.getElem?_map, List.getElem?_eq_getElem h]
  rfl

theorem toNat_ofNat_of_lt {n : Nat} (h : n < 2 ^ 32) : (UInt32.ofNat n).toNat = n := by
  rw [UInt32.toNat_ofNat', Nat.mod_eq_of_lt h]

theorem toNat_mul_words {a : UInt32} (h : a.toNat * 16 < 2 ^ 32) :
    (a * HASH_WORDS).toNat = a.toNat * HASH_WORDS := by
  rw [UInt32.toNat_mul]
  exact Nat.mod_eq_of_lt h

/-! ### The cache -/

section Cache

variable {K : Keccak} {cache : Bytes}

theorem length_fillRow {offset : Nat} (h : offset + 64 ≤ cache.length) :
    (Unbounded.fillRow K cache offset).length = cache.length :=
  length_splice (by rw [K.length_keccak512]; exact h)

theorem fillLoop_eq {cache_size : UInt64} (hlen : cache.length = cache_size.toNat) {m n : Nat}
    (hn : m < n) {offset : UInt64} (hfirst : 64 ≤ offset.toNat)
    (hlast : offset.toNat + 64 * m = cache_size.toNat) :
    fillLoop K cache_size n offset cache
        = some ((List.range' offset.toNat m HASH_BYTES).foldl (Unbounded.fillRow K) cache) ∧
      ((List.range' offset.toNat m HASH_BYTES).foldl (Unbounded.fillRow K) cache).length
        = cache_size.toNat := by
  induction m generalizing n offset cache with
  | zero =>
    obtain ⟨n, rfl⟩ := Nat.exists_eq_add_of_lt hn
    have hend : ¬ offset < cache_size := by
      rw [UInt64.lt_iff_toNat_lt]
      omega
    rw [fillLoop, if_neg hend]
    exact ⟨rfl, hlen⟩
  | succ m ih =>
    cases n with
    | zero => exact absurd hn (Nat.not_lt_zero _)
    | succ n =>
      have hsize := cache_size.toNat_lt
      have hmore : offset < cache_size := by
        rw [UInt64.lt_iff_toNat_lt]
        omega
      have hback : (offset - HASH_BYTES).toNat = offset.toNat - HASH_BYTES :=
        UInt64.toNat_sub_of_le _ _ (UInt64.le_iff_toNat_le.mpr hfirst)
      have hnext : (offset + HASH_BYTES).toNat = offset.toNat + HASH_BYTES := by
        rw [UInt64.toNat_add]
        exact Nat.mod_eq_of_lt (by simp only [HASH_BYTES, UInt64.reduceToNat]; omega)
      have hread : read cache (offset.toNat - HASH_BYTES) HASH_BYTES
          = some (slice cache (offset.toNat - HASH_BYTES) HASH_BYTES) :=
        read_of_le (by simp only [HASH_BYTES]; omega)
      have hwrite (row : Bytes) : write cache offset.toNat (K.keccak512 row)
          = some (splice cache offset.toNat (K.keccak512 row)) :=
        write_of_le (by rw [K.length_keccak512]; omega)
      have hrow : (Unbounded.fillRow K cache offset.toNat).length = cache_size.toNat := by
        rw [length_fillRow (by omega), hlen]
      simp only [fillLoop, if_pos hmore, hback, hread, hwrite, Option.bind_eq_bind, Option.bind_some,
        List.range'_succ, List.foldl_cons]
      rw [← hnext]
      exact ih hrow (Nat.lt_of_succ_lt_succ hn) (by rw [hnext]; omega)
        (by simp only [hnext, HASH_BYTES]; omega)

variable {rows : UInt64} (hpos : 0 < rows.toNat) (hbound : rows.toNat * 64 < 2 ^ 32)
include hpos hbound

theorem toNat_src_off {j : Nat} (hj : j < rows.toNat) :
    ((UInt64.ofNat j - 1 + rows) % rows * HASH_BYTES).toNat
      = (((j : Int) - 1 + rows.toNat) % rows.toNat).toNat * HASH_BYTES := by
  have hmod := Nat.mod_lt (j + rows.toNat - 1) hpos
  have hcast : (UInt64.ofNat j - 1 + rows).toNat = j + rows.toNat - 1 := by
    rw [UInt64.toNat_add, UInt64.toNat_sub, UInt64.toNat_ofNat']
    simp only [UInt64.reduceToNat]
    omega
  have hint : (j : Int) - 1 + rows.toNat = ((j + rows.toNat - 1 : Nat) : Int) := by omega
  rw [hint, ← Int.natCast_mod, Int.toNat_natCast, UInt64.toNat_mul, UInt64.toNat_mod, hcast]
  exact Nat.mod_eq_of_lt (by simp only [HASH_BYTES, UInt64.reduceToNat]; omega)

theorem toNat_dst_off {j : Nat} (hj : j < rows.toNat) :
    (UInt64.ofNat j * HASH_BYTES).toNat = j * HASH_BYTES := by
  rw [UInt64.toNat_mul, UInt64.toNat_ofNat']
  simp only [HASH_BYTES, UInt64.reduceToNat]
  omega

/-- The offset is computed with 32 bits, which is enough for the whole cache. -/
theorem toNat_xor_off (w : UInt32) :
    ∃ row, remainder w rows.toUInt32 = some row ∧
      (row * HASH_BYTES).toUInt64.toNat = w.toNat % rows.toNat * HASH_BYTES := by
  have hrows : rows.toUInt32.toNat = rows.toNat := by
    rw [UInt64.toNat_toUInt32]
    exact Nat.mod_eq_of_lt (by omega)
  obtain ⟨row, hrow, hmod⟩ := remainder_of_pos (a := w) (hrows ▸ hpos)
  have hlt := Nat.mod_lt w.toNat hpos
  refine ⟨row, hrow, ?_⟩
  rw [UInt32.toNat_toUInt64, UInt32.toNat_mul, hmod, hrows]
  exact Nat.mod_eq_of_lt (by simp only [HASH_BYTES, UInt32.reduceToNat]; omega)

variable (hlen : cache.length = rows.toNat * 64)
include hlen

theorem memoRow_eq {j : Nat} (hj : j < rows.toNat) :
    memoRow K rows cache (UInt64.ofNat j) = some (Unbounded.memoRow K rows.toNat cache j) ∧
      (Unbounded.memoRow K rows.toNat cache j).length = rows.toNat * 64 := by
  -- Every block of the cache starts at a row.
  have hblock {r : Nat} (hr : r < rows.toNat) : r * HASH_BYTES + HASH_BYTES ≤ cache.length := by
    simp only [HASH_BYTES]
    omega
  have hsrc : (((j : Int) - 1 + rows.toNat) % rows.toNat).toNat < rows.toNat := by
    have := Int.emod_lt_of_pos ((j : Int) - 1 + rows.toNat) (Int.natCast_pos.mpr hpos)
    omega
  have hhead : j * HASH_BYTES + 4 ≤ cache.length := by
    simp only [HASH_BYTES]
    omega
  obtain ⟨w, hload, hw⟩ := load32_of_le hhead
  obtain ⟨row, hrow, hxor⟩ := toNat_xor_off hpos hbound w
  have hwrite (temp : Bytes) : write cache (j * HASH_BYTES) (K.keccak512 temp)
      = some (splice cache (j * HASH_BYTES) (K.keccak512 temp)) :=
    write_of_le (by rw [K.length_keccak512]; exact hblock hj)
  constructor
  · simp only [memoRow, toNat_src_off hpos hbound hj, toNat_dst_off hpos hbound hj, hload, hrow, hxor,
      read_of_le (hblock hsrc), read_of_le (hblock (Nat.mod_lt _ hpos)), hwrite, hw,
      Option.bind_eq_bind, Option.bind_some, Unbounded.memoRow]
  · rw [← hlen]
    exact length_splice (by rw [K.length_keccak512]; exact hblock hj)

theorem memoRound_eq :
    memoRound K rows cache = some (Unbounded.memoRound K rows.toNat cache) ∧
      (Unbounded.memoRound K rows.toNat cache).length = rows.toNat * 64 := by
  apply foldlM_eq_some (P := fun cache : Bytes => cache.length = rows.toNat * 64) _ _ hlen
  intro cache hcache j hj
  exact memoRow_eq hpos hbound hcache (List.mem_range.mp hj)

theorem memoRounds_eq (l : List Nat) :
    l.foldlM (fun cache _ => memoRound K rows cache) cache
        = some (l.foldl (fun cache _ => Unbounded.memoRound K rows.toNat cache) cache) ∧
      (l.foldl (fun cache _ => Unbounded.memoRound K rows.toNat cache) cache).length
        = rows.toNat * 64 := by
  apply foldlM_eq_some (P := fun cache : Bytes => cache.length = rows.toNat * 64) _ _ hlen
  intro cache hcache _ _
  exact memoRound_eq hpos hbound hcache

end Cache

theorem generateCache_eq (K : Keccak) {cache_size : UInt64} {r : Nat}
    (hsize : cache_size.toNat = r * 64) (hpos : 0 < r) (hbound : r * 64 < 2 ^ 32) (seed : Uint256) :
    ∃ words, generateCache K cache_size seed = some words ∧
      numbers words = Unbounded.generateCache K cache_size.toNat seed := by
  have hrows : (cache_size / HASH_BYTES).toNat = r := by
    rw [UInt64.toNat_div, hsize]
    exact Nat.mul_div_cancel r (by decide)
  have hfit : 0 + (K.keccak512 seed.bytes).length
      ≤ (List.replicate cache_size.toNat (0 : UInt8)).length := by
    rw [K.length_keccak512, List.length_replicate]
    omega
  have hseeded : (splice (List.replicate cache_size.toNat 0) 0 (K.keccak512 seed.bytes)).length
      = cache_size.toNat := by
    rw [length_splice hfit, List.length_replicate]
  have hoffset : (HASH_BYTES : UInt64).toNat + 64 * (r - 1) = cache_size.toNat := by
    simp only [HASH_BYTES, UInt64.reduceToNat]
    omega
  obtain ⟨hfill, hfilled⟩ := fillLoop_eq (K := K) (n := 2 ^ 64) hseeded (by omega) (by decide) hoffset
  have hfull : cache_size.toNat = (cache_size / HASH_BYTES).toNat * 64 := by rw [hrows, hsize]
  obtain ⟨hmemo, hmixed⟩ := memoRounds_eq (K := K) (hrows ▸ hpos) (hrows ▸ hbound)
    (hfilled.trans hfull) (List.range CACHE_ROUNDS)
  have hwords : (cache_size / 4).toNat = cache_size.toNat / 4 := UInt64.toNat_div _ _
  have hcount : (cache_size.toNat - 1) / HASH_BYTES = r - 1 := by
    simp only [HASH_BYTES]
    omega
  obtain ⟨words, hload, hnumbers⟩ := loadWords_of_le (n := (cache_size / 4).toNat) (by
    rw [hmixed, hrows, hwords, hsize]
    omega)
  refine ⟨words, ?_, ?_⟩
  · simp only [generateCache, write_of_le hfit, hfill, hmemo, Option.bind_eq_bind, Option.bind_some]
    exact hload
  · rw [hnumbers, hwords, Unbounded.generateCache, hcount, UInt64.toNat_div]
    rfl

/-! ### Items of the dataset -/

def Represents (n : Nat) (mix : List UInt32) (mix' : List Nat) : Prop :=
  mix.length = n ∧ numbers mix = mix'

theorem Represents.fnvHash {n : Nat} {mix data : List UInt32} {mix' data' : List Nat}
    (hmix : Represents n mix mix') (hdata : Represents n data data') :
    Represents n (fnvHash mix data) (Unbounded.fnvHash mix' data') := by
  obtain ⟨hmix, rfl⟩ := hmix
  obtain ⟨hdata, rfl⟩ := hdata
  refine ⟨?_, numbers_fnvHash mix data⟩
  rw [Etchash.fnvHash, List.length_zipWith, hmix, hdata, Nat.min_self]

theorem Represents.append {m n : Nat} {mix data : List UInt32} {mix' data' : List Nat}
    (hmix : Represents m mix mix') (hdata : Represents n data data') :
    Represents (m + n) (mix ++ data) (mix' ++ data') := by
  obtain ⟨hmix, rfl⟩ := hmix
  obtain ⟨hdata, rfl⟩ := hdata
  exact ⟨by rw [List.length_append, hmix, hdata], List.map_append⟩

theorem Represents.getElem {n : Nat} {mix : List UInt32} {mix' : List Nat}
    (h : Represents n mix mix') {i : Nat} (hi : i < n) :
    ∃ w, mix[i]? = some w ∧ w.toNat = mix'.getD i 0 := by
  obtain ⟨hlen, rfl⟩ := h
  exact getElem_of_lt (hlen ▸ hi)

theorem represents_loadWords {mem : Bytes} {n : Nat} (h : 4 * n ≤ mem.length) :
    ∃ words, loadWords mem n = some words ∧ Represents n words (Unbounded.loadWords mem n) := by
  obtain ⟨words, hload, hnumbers⟩ := loadWords_of_le h
  refine ⟨words, hload, ?_, hnumbers⟩
  rw [← length_numbers, hnumbers, length_loadWords]

section Dataset

variable {K : Keccak} {cache_words : List UInt32} {r : Nat} (hpos : 0 < r) (hbound : r * 16 < 2 ^ 32)
  (hwords : cache_words.length = r * 16)
include hpos hbound hwords

theorem parentRound_simulates {rows index : UInt32} (hrows : rows.toNat = r) {mix : List UInt32}
    {mix' : List Nat} (hmix : Represents 16 mix mix') {i : Nat} (hi : i < DATASET_PARENTS) :
    ∃ next, parentRound cache_words rows index mix i = some next ∧
      Represents 16 next (Unbounded.parentRound (numbers cache_words) r index.toNat mix' i) := by
  obtain ⟨w, hget, hw⟩ := hmix.getElem (Nat.mod_lt i (by decide))
  obtain ⟨parent, hparent, hmod⟩ := remainder_of_pos
    (a := fnv1a (index ^^^ UInt32.ofNat i) w) (hrows ▸ hpos)
  have hindex : parent.toNat
      = Unbounded.fnv1a (index.toNat ^^^ i) (mix'.getD (i % 16) 0) % r := by
    have hnat : (UInt32.ofNat i).toNat = i := toNat_ofNat_of_lt (Nat.lt_trans hi (by decide))
    rw [hmod, toNat_fnv1a, UInt32.toNat_xor, hnat, hw, hrows]
  have hlt : parent.toNat < r := by
    rw [hindex]
    exact Nat.mod_lt _ hpos
  have hfit : parent.toNat * HASH_WORDS + HASH_WORDS ≤ cache_words.length := by
    simp only [HASH_WORDS]
    omega
  have hdata : Represents 16 (slice cache_words (parent.toNat * HASH_WORDS) HASH_WORDS)
      (slice (numbers cache_words) (parent.toNat * HASH_WORDS) HASH_WORDS) :=
    ⟨length_slice hfit, map_slice _⟩
  refine ⟨fnvHash mix (slice cache_words (parent.toNat * HASH_WORDS) HASH_WORDS), ?_, ?_⟩
  · simp only [parentRound, hget, hparent, Option.bind_eq_bind, Option.bind_some,
      toNat_mul_words (by omega : parent.toNat * 16 < 2 ^ 32), read_of_le hfit, pure]
  · rw [Unbounded.parentRound, ← hindex]
    exact hmix.fnvHash hdata

omit hpos in
theorem copyRow_eq {row : UInt32} (hlt : row.toNat < r) (index : UInt32) :
    ∃ head rest, cache_words[(row * HASH_WORDS).toNat]? = some head ∧
      ((List.range' 1 15).mapM fun i => cache_words[(row * HASH_WORDS + UInt32.ofNat i).toNat]?)
        = some rest ∧
      ((head ^^^ index) :: rest).flatMap store32
        = (((numbers cache_words).getD (row.toNat * HASH_WORDS) 0 ^^^ index.toNat) ::
          (List.range' 1 15).map fun i =>
            (numbers cache_words).getD (row.toNat * HASH_WORDS + i) 0).flatMap Unbounded.store32 := by
  have hstart : (row * HASH_WORDS).toNat = row.toNat * HASH_WORDS := toNat_mul_words (by omega)
  have hfit {i : Nat} (hi : i < 16) : row.toNat * HASH_WORDS + i < cache_words.length := by
    simp only [HASH_WORDS]
    omega
  have hword : ∀ i ∈ List.range' 1 15, ∃ w,
      cache_words[(row * HASH_WORDS + UInt32.ofNat i).toNat]? = some w ∧
        w.toNat = (numbers cache_words).getD (row.toNat * HASH_WORDS + i) 0 := by
    intro i hi
    rw [List.mem_range'_1] at hi
    have hsum : (row * HASH_WORDS + UInt32.ofNat i).toNat = row.toNat * HASH_WORDS + i := by
      rw [UInt32.toNat_add, hstart, toNat_ofNat_of_lt (by omega)]
      exact Nat.mod_eq_of_lt (by have := hfit hi.2; omega)
    rw [hsum]
    exact getElem_of_lt (hfit hi.2)
  obtain ⟨head, hhead, hheadNat⟩ := getElem_of_lt (hfit (by decide : 0 < 16))
  obtain ⟨rest, hrest, hrestNat⟩ := mapM_simulates _ hword
  refine ⟨head, rest, hstart ▸ hhead, hrest, ?_⟩
  rw [flatMap_store32, numbers, List.map_cons, hrestNat, UInt32.toNat_xor, hheadNat, Nat.add_zero]

theorem generateDatasetItem_eq (index : UInt32) :
    generateDatasetItem K cache_words index
      = some (Unbounded.generateDatasetItem K (numbers cache_words) index.toNat) := by
  have hdiv : cache_words.length / HASH_WORDS = r := by
    rw [hwords]
    exact Nat.mul_div_cancel r (by decide)
  have hrows : (UInt32.ofNat r).toNat = r := toNat_ofNat_of_lt (by omega)
  obtain ⟨row, hrow, hmod⟩ := remainder_of_pos (a := index) (hrows.symm ▸ hpos)
  rw [hrows] at hmod
  obtain ⟨head, rest, hhead, hrest, hfirst⟩ :=
    copyRow_eq hbound hwords (hmod ▸ Nat.mod_lt _ hpos : row.toNat < r) index
  have hdigest : 4 * HASH_WORDS ≤ (K.keccak512 (((head ^^^ index) :: rest).flatMap store32)).length :=
    (K.length_keccak512 _).symm ▸ Nat.le_refl 64
  obtain ⟨mix, hmix, hmixNat⟩ := represents_loadWords hdigest
  have hround : ∀ mix mix', Represents 16 mix mix' → ∀ i ∈ List.range DATASET_PARENTS, ∃ next,
      parentRound cache_words (UInt32.ofNat r) index mix i = some next ∧
        Represents 16 next (Unbounded.parentRound (numbers cache_words) r index.toNat mix' i) := by
    intro mix mix' hmix i hi
    exact parentRound_simulates hpos hbound hwords hrows hmix (List.mem_range.mp hi)
  obtain ⟨last, hlast, hlastNat⟩ := foldlM_simulates _ hround hmixNat
  simp only [generateDatasetItem, hdiv, hrow, hhead, hrest, hmix, hlast, Option.bind_eq_bind,
    Option.bind_some, pure]
  rw [Unbounded.generateDatasetItem, length_numbers, hdiv, ← hmod, ← hfirst, flatMap_store32,
    hlastNat.2]

/-! ### Hashimoto -/

theorem accessRound_simulates {rows seed_head : UInt32} (hrows : 0 < rows.toNat)
    (hdouble : 2 * rows.toNat ≤ 2 ^ 32) {mix : List UInt32} {mix' : List Nat}
    (hmix : Represents 32 mix mix') {i : Nat} (hi : i < LOOP_ACCESSES) :
    ∃ next, accessRound K cache_words rows seed_head mix i = some next ∧
      Represents 32 next
        (Unbounded.accessRound K (numbers cache_words) rows.toNat seed_head.toNat mix' i) := by
  obtain ⟨w, hget, hw⟩ := hmix.getElem (Nat.mod_lt i (by decide))
  obtain ⟨parent, hparent, hmod⟩ := remainder_of_pos (a := fnv1a (UInt32.ofNat i ^^^ seed_head) w) hrows
  have hindex : parent.toNat
      = Unbounded.fnv1a (i ^^^ seed_head.toNat) (mix'.getD (i % MIX_WORDS) 0) % rows.toNat := by
    have hnat : (UInt32.ofNat i).toNat = i := toNat_ofNat_of_lt (Nat.lt_trans hi (by decide))
    rw [hmod, toNat_fnv1a, UInt32.toNat_xor, hnat, hw]
  have hlt : parent.toNat < rows.toNat := hmod ▸ Nat.mod_lt _ hrows
  have heven : (2 * parent).toNat = 2 * parent.toNat := by
    rw [UInt32.toNat_mul]
    exact Nat.mod_eq_of_lt (by simp only [UInt32.reduceToNat]; omega)
  have hodd : (2 * parent + 1).toNat = 2 * parent.toNat + 1 := by
    rw [UInt32.toNat_add, heven]
    exact Nat.mod_eq_of_lt (by simp only [UInt32.reduceToNat]; omega)
  have hitem (index : Nat) : 4 * HASH_WORDS
      ≤ (Unbounded.generateDatasetItem K (numbers cache_words) index).length :=
    (K.length_keccak512 _).symm ▸ Nat.le_refl 64
  obtain ⟨first, hfirst, hfirstNat⟩ := represents_loadWords (hitem (2 * parent.toNat))
  obtain ⟨second, hsecond, hsecondNat⟩ := represents_loadWords (hitem (2 * parent.toNat + 1))
  refine ⟨fnvHash mix (first ++ second), ?_, ?_⟩
  · simp only [accessRound, hget, hparent, generateDatasetItem_eq hpos hbound hwords, heven, hodd, hfirst,
      hsecond, Option.bind_eq_bind, Option.bind_some, pure]
  · rw [Unbounded.accessRound, ← hindex]
    exact hmix.fnvHash (hfirstNat.append hsecondNat)

end Dataset

theorem compressRound_simulates {mix : List UInt32} {mix' : List Nat} (hmix : Represents 32 mix mix')
    {k : Nat} (hk : k < 8) :
    ∃ next, compressRound mix k = some next ∧ Represents 32 next (Unbounded.compressRound mix' k) := by
  obtain ⟨w0, hget0, hw0⟩ := hmix.getElem (by omega : 4 * k < 32)
  obtain ⟨w1, hget1, hw1⟩ := hmix.getElem (by omega : 4 * k + 1 < 32)
  obtain ⟨w2, hget2, hw2⟩ := hmix.getElem (by omega : 4 * k + 2 < 32)
  obtain ⟨w3, hget3, hw3⟩ := hmix.getElem (by omega : 4 * k + 3 < 32)
  obtain ⟨hlen, rfl⟩ := hmix
  refine ⟨mix.set (4 * k / 4) (fnv1a (fnv1a (fnv1a w0 w1) w2) w3), ?_, ?_, ?_⟩
  · simp only [compressRound, hget0, hget1, hget2, hget3, Option.bind_eq_bind, Option.bind_some, pure]
  · rw [List.length_set, hlen]
  · rw [Unbounded.compressRound, ← hw0, ← hw1, ← hw2, ← hw3, ← toNat_fnv1a, ← toNat_fnv1a,
      ← toNat_fnv1a, numbers, List.map_set, numbers]

theorem hashimotoLight_eq {K : Keccak} {cache_words : List UInt32} {r : Nat} (hpos : 0 < r)
    (hbound : r * 16 < 2 ^ 32) (hwords : cache_words.length = r * 16) {dataset_size : UInt64}
    (hrows : 0 < dataset_size.toNat / 128) (hdouble : 2 * (dataset_size.toNat / 128) ≤ 2 ^ 32)
    (header_hash : Uint256) (nonce : UInt64) :
    hashimotoLight K dataset_size cache_words header_hash nonce
      = some (Unbounded.hashimotoLight K dataset_size.toNat (numbers cache_words) header_hash
        nonce.toNat) := by
  have hrowsNat : (dataset_size / MIX_BYTES).toUInt32.toNat = dataset_size.toNat / MIX_BYTES := by
    rw [UInt64.toNat_toUInt32, UInt64.toNat_div]
    exact Nat.mod_eq_of_lt (by simp only [MIX_BYTES, UInt64.reduceToNat]; omega)
  have hseed : header_hash.bytes ++ store32 nonce.toUInt32 ++ store32 (nonce >>> 32).toUInt32
      = header_hash.bytes ++ leBytes 8 nonce.toNat := by
    rw [List.append_assoc, store_nonce]
  have hword {i : Nat} (hi : i < 16) :
      4 * i + 4 ≤ (K.keccak512 (header_hash.bytes ++ leBytes 8 nonce.toNat)).length := by
    rw [K.length_keccak512]
    omega
  obtain ⟨seed_head, hhead, hheadNat⟩ := load32_of_le (hword (by decide : 0 < 16))
  obtain ⟨mix, hmix, hmixNat⟩ := mapM_simulates (List.range MIX_WORDS) fun i _ =>
    load32_of_le (hword (Nat.mod_lt i (by decide : 0 < 16)))
  have hmixLen : mix.length = 32 := by
    rw [← length_numbers, numbers, hmixNat, List.length_map, List.length_range]
  have haccess : ∀ mix mix', Represents 32 mix mix' → ∀ i ∈ List.range LOOP_ACCESSES, ∃ next,
      accessRound K cache_words (dataset_size / MIX_BYTES).toUInt32 seed_head mix i = some next ∧
        Represents 32 next (Unbounded.accessRound K (numbers cache_words)
          (dataset_size.toNat / MIX_BYTES) seed_head.toNat mix' i) := by
    intro mix mix' hmix i hi
    rw [← hrowsNat]
    exact accessRound_simulates hpos hbound hwords (hrowsNat ▸ hrows) (hrowsNat ▸ hdouble) hmix
      (List.mem_range.mp hi)
  obtain ⟨mixed, hmixed, hmixedNat⟩ := foldlM_simulates _ haccess ⟨hmixLen, hmixNat⟩
  have hcompress : ∀ mix mix', Represents 32 mix mix' → ∀ k ∈ List.range 8, ∃ next,
      compressRound mix k = some next ∧ Represents 32 next (Unbounded.compressRound mix' k) := by
    intro mix mix' hmix k hk
    exact compressRound_simulates hmix (List.mem_range.mp hk)
  obtain ⟨last, hlast, hlastLen, hlastNat⟩ := foldlM_simulates _ hcompress hmixedNat
  have hfit : 0 + 8 ≤ last.length := by
    rw [hlastLen]
    decide
  simp only [hashimotoLight, hseed, hhead, hmix, hmixed, hlast, read_of_le hfit, Option.bind_eq_bind,
    Option.bind_some, pure]
  rw [flatMap_store32, numbers, map_slice, ← numbers, hlastNat, hheadNat]
  rfl

/-! ### Epochs -/

theorem exists_rows_of_mem {unit m size : Nat} (h : size ∈ PrimeSizes unit (unit * (2 * m + 3)))
    (hunit : 0 < unit) : ∃ r, size = r * unit ∧ 0 < r ∧ r ≤ 2 * m + 3 := by
  obtain ⟨⟨k, hk⟩, -⟩ := h
  have hle : 2 * k ≤ 2 * m + 3 := by
    apply Nat.le_of_mul_le_mul_left _ hunit
    rw [← hk, Nat.mul_left_comm, Nat.mul_assoc]
    exact Nat.le_add_left _ _
  refine ⟨2 * m + 3 - 2 * k, ?_, by omega, Nat.sub_le _ _⟩
  rw [Nat.sub_mul, Nat.mul_comm _ unit, ← hk, Nat.mul_right_comm 2 k unit]
  exact (Nat.add_sub_cancel _ _).symm

/-- The linear threshold does not wrap around as long as it fits. -/
theorem toNat_threshold {init growth epoch unit : UInt64}
    (hfit : init.toNat + growth.toNat * epoch.toNat < 2 ^ 64) (hunit : unit.toNat ≤ init.toNat) :
    (init + growth * epoch - unit).toNat = init.toNat + growth.toNat * epoch.toNat - unit.toNat := by
  have hmul : (growth * epoch).toNat = growth.toNat * epoch.toNat := by
    rw [UInt64.toNat_mul]
    exact Nat.mod_eq_of_lt (by omega)
  have hadd : (init + growth * epoch).toNat = init.toNat + growth.toNat * epoch.toNat := by
    rw [UInt64.toNat_add, hmul]
    exact Nat.mod_eq_of_lt hfit
  rw [UInt64.toNat_sub_of_le _ _ (UInt64.le_iff_toNat_le.mpr (by omega)), hadd]

section Epochs

variable {epoch : UInt64} (hepoch : epoch ≤ 32639)
include hepoch

theorem calcCacheSize_spec :
    ∃ size, calcCacheSize epoch = some size ∧
      IsGreatest
        (PrimeSizes HASH_BYTES (CACHE_INIT_BYTES + CACHE_GROWTH_BYTES * epoch.toNat - HASH_BYTES))
        size.toNat := by
  have he : epoch.toNat ≤ 32639 := UInt64.le_iff_toNat_le.mp hepoch
  have hstart : (CACHE_INIT_BYTES + CACHE_GROWTH_BYTES * epoch - HASH_BYTES : UInt64).toNat
      = CACHE_INIT_BYTES + CACHE_GROWTH_BYTES * epoch.toNat - HASH_BYTES := by
    apply toNat_threshold ?_ (by decide)
    simp only [CACHE_INIT_BYTES, CACHE_GROWTH_BYTES, UInt64.reduceToNat]
    omega
  rw [← hstart]
  apply searchSize_spec (m := 131070 + 1024 * epoch.toNat) (by decide) (by decide) (by omega)
  rw [hstart]
  simp only [CACHE_INIT_BYTES, CACHE_GROWTH_BYTES, HASH_BYTES, UInt64.reduceToNat]
  omega

theorem calcDatasetSize_spec :
    ∃ size, calcDatasetSize epoch = some size ∧
      IsGreatest
        (PrimeSizes MIX_BYTES (DATASET_INIT_BYTES + DATASET_GROWTH_BYTES * epoch.toNat - MIX_BYTES))
        size.toNat := by
  have he : epoch.toNat ≤ 32639 := UInt64.le_iff_toNat_le.mp hepoch
  have hstart : (DATASET_INIT_BYTES + DATASET_GROWTH_BYTES * epoch - MIX_BYTES : UInt64).toNat
      = DATASET_INIT_BYTES + DATASET_GROWTH_BYTES * epoch.toNat - MIX_BYTES := by
    apply toNat_threshold ?_ (by decide)
    simp only [DATASET_INIT_BYTES, DATASET_GROWTH_BYTES, UInt64.reduceToNat]
    omega
  rw [← hstart]
  apply searchSize_spec (m := 4194302 + 32768 * epoch.toNat) (by decide) (by decide) (by omega)
  rw [hstart]
  simp only [DATASET_INIT_BYTES, DATASET_GROWTH_BYTES, MIX_BYTES, UInt64.reduceToNat]
  omega

theorem cache_rows_of_mem {size : Nat}
    (h : size ∈ PrimeSizes HASH_BYTES
      (CACHE_INIT_BYTES + CACHE_GROWTH_BYTES * epoch.toNat - HASH_BYTES)) :
    ∃ r, size = r * 64 ∧ 0 < r ∧ r * 64 < 2 ^ 32 := by
  have he : epoch.toNat ≤ 32639 := UInt64.le_iff_toNat_le.mp hepoch
  have hstart : CACHE_INIT_BYTES + CACHE_GROWTH_BYTES * epoch.toNat - HASH_BYTES
      = HASH_BYTES * (2 * (131070 + 1024 * epoch.toNat) + 3) := by
    simp only [CACHE_INIT_BYTES, CACHE_GROWTH_BYTES, HASH_BYTES]
    omega
  rw [hstart] at h
  obtain ⟨r, hsize, hpos, hle⟩ := exists_rows_of_mem h (by decide)
  exact ⟨r, hsize, hpos, by omega⟩

theorem dataset_rows_of_mem {size : Nat}
    (h : size ∈ PrimeSizes MIX_BYTES
      (DATASET_INIT_BYTES + DATASET_GROWTH_BYTES * epoch.toNat - MIX_BYTES)) :
    0 < size / 128 ∧ 2 * (size / 128) ≤ 2 ^ 32 := by
  have he : epoch.toNat ≤ 32639 := UInt64.le_iff_toNat_le.mp hepoch
  have hstart : DATASET_INIT_BYTES + DATASET_GROWTH_BYTES * epoch.toNat - MIX_BYTES
      = MIX_BYTES * (2 * (4194302 + 32768 * epoch.toNat) + 3) := by
    simp only [DATASET_INIT_BYTES, DATASET_GROWTH_BYTES, MIX_BYTES]
    omega
  rw [hstart] at h
  obtain ⟨r, rfl, hpos, hle⟩ := exists_rows_of_mem h (by decide)
  rw [Nat.mul_div_cancel r (by decide)]
  exact ⟨hpos, by omega⟩

end Epochs

/-- Up to epoch 32639 both size searches end at the greatest size, and the machine code computes
what the algorithm over unbounded integers does, with no access out of range. -/
theorem light_verification_exact (epoch : UInt64) (hepoch : epoch ≤ 32639) :
    ∃ cache_size dataset_size,
      calcCacheSize epoch = some cache_size ∧
      IsGreatest
        (PrimeSizes HASH_BYTES (CACHE_INIT_BYTES + CACHE_GROWTH_BYTES * epoch.toNat - HASH_BYTES))
        cache_size.toNat ∧
      calcDatasetSize epoch = some dataset_size ∧
      IsGreatest
        (PrimeSizes MIX_BYTES (DATASET_INIT_BYTES + DATASET_GROWTH_BYTES * epoch.toNat - MIX_BYTES))
        dataset_size.toNat ∧
      ∀ (K : Keccak) (seed : Uint256), ∃ cache_words,
        generateCache K cache_size seed = some cache_words ∧
        numbers cache_words = Unbounded.generateCache K cache_size.toNat seed ∧
        (∀ index, generateDatasetItem K cache_words index
          = some (Unbounded.generateDatasetItem K (numbers cache_words) index.toNat)) ∧
        ∀ header_hash nonce, hashimotoLight K dataset_size cache_words header_hash nonce
          = some (Unbounded.hashimotoLight K dataset_size.toNat (numbers cache_words) header_hash
            nonce.toNat) := by
  obtain ⟨cache_size, hcache, hcacheGreatest⟩ := calcCacheSize_spec hepoch
  obtain ⟨dataset_size, hdataset, hdatasetGreatest⟩ := calcDatasetSize_spec hepoch
  obtain ⟨r, hsize, hpos, hbound⟩ := cache_rows_of_mem hepoch hcacheGreatest.1
  obtain ⟨hrows, hdouble⟩ := dataset_rows_of_mem hepoch hdatasetGreatest.1
  refine ⟨cache_size, dataset_size, hcache, hcacheGreatest, hdataset, hdatasetGreatest, ?_⟩
  intro K seed
  obtain ⟨cache_words, hgenerate, hnumbers⟩ := generateCache_eq K hsize hpos hbound seed
  have hwords : cache_words.length = r * 16 := by
    rw [← length_numbers, hnumbers, Unbounded.generateCache, length_loadWords, hsize]
    omega
  refine ⟨cache_words, hgenerate, hnumbers, ?_, ?_⟩
  · intro index
    exact generateDatasetItem_eq hpos (by omega) hwords index
  · intro header_hash nonce
    exact hashimotoLight_eq hpos (by omega) hwords hrows hdouble header_hash nonce

/-- The last epoch of the bound, with hash functions that return zeros. -/
theorem light_verification_exact_last :
    ∃ cache_size, calcCacheSize 32639 = some cache_size ∧ cache_size.toNat < 2 ^ 32 ∧
      ∃ cache_words, generateCache ⟨fun _ => List.replicate 32 0, fun _ => List.replicate 64 0,
        fun _ => rfl, fun _ => rfl⟩ cache_size Uint256.null = some cache_words := by
  obtain ⟨cache_size, _, hcache, ⟨⟨⟨k, hk⟩, -⟩, -⟩, -, -, hrun⟩ :=
    light_verification_exact 32639 (by decide)
  obtain ⟨cache_words, hgenerate, -⟩ := hrun
    ⟨fun _ => List.replicate 32 0, fun _ => List.replicate 64 0, fun _ => rfl, fun _ => rfl⟩ Uint256.null
  simp only [CACHE_INIT_BYTES, CACHE_GROWTH_BYTES, HASH_BYTES, UInt64.reduceToNat] at hk
  exact ⟨cache_size, hcache, by omega, cache_words, hgenerate⟩

end Rcpu.Etchash
