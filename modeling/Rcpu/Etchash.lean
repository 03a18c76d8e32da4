import Mathlib.Order.Bounds.Basic
import Rcpu.CheckedMemory
import Rcpu.EtchashPrime
import Rcpu.Transaction

/-!
# Etchash light verification

`etchash.cpp` above the primality test: the sizes of an epoch, the verification cache, the items of the
dataset and `HashimotoLight`.  Sizes and offsets are machine integers of 64 and 32 bits, and every
access is checked.  Beside it stands the same algorithm with numbers for all of them; up to epoch 32639
the two agree.
-/

namespace Rcpu.Etchash

open ByteStream CheckedMemory Transaction

/-! ### Constants -/

section Constants

variable {α : Type}

abbrev HASH_BYTES [OfNat α 64] : α := 64
abbrev HASH_WORDS [OfNat α 16] : α := 16
abbrev MIX_BYTES [OfNat α 128] : α := 128
abbrev MIX_WORDS : Nat := 32
abbrev DATASET_PARENTS : Nat := 256
abbrev CACHE_ROUNDS : Nat := 3
abbrev LOOP_ACCESSES : Nat := 64
abbrev CACHE_INIT_BYTES [OfNat α 16777216] : α := 16777216
abbrev CACHE_GROWTH_BYTES [OfNat α 131072] : α := 131072
abbrev DATASET_INIT_BYTES [OfNat α 1073741824] : α := 1073741824
abbrev DATASET_GROWTH_BYTES [OfNat α 8388608] : α := 8388608

end Constants

structure Keccak where
  keccak256 : Bytes → Bytes
  keccak512 : Bytes → Bytes
  length_keccak256 : ∀ data, (keccak256 data).length = 32
  length_keccak512 : ∀ data, (keccak512 data).length = 64

/-! ### Words -/

def fnv1a (a b : UInt32) : UInt32 := a * 0x01000193 ^^^ b

def fnvHash (mix data : List UInt32) : List UInt32 := List.zipWith fnv1a mix data

def load32 (mem : Bytes) (off : Nat) : Option UInt32 :=
  match mem.drop off with
  | p0 :: p1 :: p2 :: p3 :: _ =>
    some (p0.toUInt32 ||| p1.toUInt32 <<< 8 ||| p2.toUInt32 <<< 16 ||| p3.toUInt32 <<< 24)
  | _ => none

def store32 (v : UInt32) : Bytes :=
  [v.toUInt8, (v >>> 8).toUInt8, (v >>> 16).toUInt8, (v >>> 24).toUInt8]

def loadWords (mem : Bytes) (n : Nat) : Option (List UInt32) :=
  (List.range n).mapM fun i => load32 mem (4 * i)

def remainder (a b : UInt32) : Option UInt32 := if b = 0 then none else some (a % b)

/-! ### Sizes -/

/-- The loop that goes down in steps of two rows until the number of rows passes the test.  A search
that takes more rounds than there are sizes does not end. -/
def searchSize (unit : UInt64) : Nat → UInt64 → Option UInt64
  | 0, _ => none
  | n + 1, size => if isPrime (size / unit) then some size else searchSize unit n (size - 2 * unit)

def calcCacheSize (epoch : UInt64) : Option UInt64 :=
  searchSize HASH_BYTES (2 ^ 64) (CACHE_INIT_BYTES + CACHE_GROWTH_BYTES * epoch - HASH_BYTES)

def calcDatasetSize (epoch : UInt64) : Option UInt64 :=
  searchSize MIX_BYTES (2 ^ 64) (DATASET_INIT_BYTES + DATASET_GROWTH_BYTES * epoch - MIX_BYTES)

/-! ### The cache -/

def fillLoop (K : Keccak) (cache_size : UInt64) : Nat → UInt64 → Bytes → Option Bytes
  | 0, _, _ => none
  | n + 1, offset, cache =>
    if offset < cache_size then do
      let row ← read cache (offset - HASH_BYTES).toNat HASH_BYTES
      let cache ← write cache offset.toNat (K.keccak512 row)
      fillLoop K cache_size n (offset + HASH_BYTES) cache
    else some cache

def memoRow (K : Keccak) (rows : UInt64) (cache : Bytes) (j : UInt64) : Option Bytes := do
  let src_off := ((j - 1 + rows) % rows) * HASH_BYTES
  let dst_off := j * HASH_BYTES
  let row ← remainder (← load32 cache dst_off.toNat) rows.toUInt32
  let xor_off := (row * HASH_BYTES).toUInt64
  let src ← read cache src_off.toNat HASH_BYTES
  let other ← read cache xor_off.toNat HASH_BYTES
  write cache dst_off.toNat (K.keccak512 (List.zipWith (· ^^^ ·) src other))

def memoRound (K : Keccak) (rows : UInt64) (cache : Bytes) : Option Bytes :=
  (List.range rows.toNat).foldlM (fun cache j => memoRow K rows cache (UInt64.ofNat j)) cache

def generateCache (K : Keccak) (cache_size : UInt64) (seed : Uint256) : Option (List UInt32) := do
  let rows := cache_size / HASH_BYTES
  let cache ← write (List.replicate cache_size.toNat 0) 0 (K.keccak512 seed.bytes)
  let cache ← fillLoop K cache_size (2 ^ 64) HASH_BYTES cache
  let cache ← (List.range CACHE_ROUNDS).foldlM (fun cache _ => memoRound K rows cache) cache
  loadWords cache (cache_size / 4).toNat

/-! ### Items of the dataset -/

def parentRound (cache_words : List UInt32) (rows index : UInt32) (int_mix : List UInt32) (i : Nat) :
    Option (List UInt32) := do
  let parent ← remainder (fnv1a (index ^^^ UInt32.ofNat i) (← int_mix[i % 16]?)) rows
  let data ← read cache_words (parent * HASH_WORDS).toNat HASH_WORDS
  return fnvHash int_mix data

def generateDatasetItem (K : Keccak) (cache_words : List UInt32) (index : UInt32) : Option Bytes := do
  let rows := UInt32.ofNat (cache_words.length / HASH_WORDS)
  let row ← remainder index rows
  let head ← cache_words[(row * HASH_WORDS).toNat]?
  let rest ← (List.range' 1 15).mapM fun i => cache_words[(row * HASH_WORDS + UInt32.ofNat i).toNat]?
  let mix := ((head ^^^ index) :: rest).flatMap store32
  let int_mix ← loadWords (K.keccak512 mix) HASH_WORDS
  let int_mix ← (List.range DATASET_PARENTS).foldlM (parentRound cache_words rows index) int_mix
  return K.keccak512 (int_mix.flatMap store32)

/-! ### Hashimoto -/

def accessRound (K : Keccak) (cache_words : List UInt32) (rows seed_head : UInt32) (mix : List UInt32)
    (i : Nat) : Option (List UInt32) := do
  let parent ← remainder (fnv1a (UInt32.ofNat i ^^^ seed_head) (← mix[i % MIX_WORDS]?)) rows
  let first ← loadWords (← generateDatasetItem K cache_words (2 * parent)) HASH_WORDS
  let second ← loadWords (← generateDatasetItem K cache_words (2 * parent + 1)) HASH_WORDS
  return fnvHash mix (first ++ second)

/-- One step of the compression, which writes over the mix it reads. -/
def compressRound (mix : List UInt32) (k : Nat) : Option (List UInt32) := do
  let i := 4 * k
  let word := fnv1a (fnv1a (fnv1a (← mix[i]?) (← mix[i + 1]?)) (← mix[i + 2]?)) (← mix[i + 3]?)
  return mix.set (i / 4) word

def hashimotoLight (K : Keccak) (dataset_size : UInt64) (cache_words : List UInt32)
    (header_hash : Uint256) (nonce : UInt64) : Option (Bytes × Bytes) := do
  let rows := (dataset_size / MIX_BYTES).toUInt32
  let seed_in := header_hash.bytes ++ store32 nonce.toUInt32 ++ store32 (nonce >>> 32).toUInt32
  let seed := K.keccak512 seed_in
  let seed_head ← load32 seed 0
  let mix ← (List.range MIX_WORDS).mapM fun i => load32 seed (4 * (i % HASH_WORDS))
  let mix ← (List.range LOOP_ACCESSES).foldlM (accessRound K cache_words rows seed_head) mix
  let mix ← (List.range 8).foldlM compressRound mix
  let digest := (← read mix 0 8).flatMap store32
  return (digest, K.keccak256 (seed ++ digest))

/-! ### The size search -/

/-- The sizes in steps of two rows below `start` whose number of rows passes the test. -/
def PrimeSizes (unit start : Nat) : Set Nat :=
  {size | (∃ k, size + 2 * unit * k = start) ∧ isPrime (UInt64.ofNat (size / unit)) = true}

section Sizes

theorem primeSizes_sub {unit start : Nat} (hstart : 2 * unit ≤ start)
    (hfail : ¬ isPrime (UInt64.ofNat (start / unit)) = true) :
    PrimeSizes unit start = PrimeSizes unit (start - 2 * unit) := by
  ext size
  constructor
  · rintro ⟨⟨k, hk⟩, hprime⟩
    cases k with
    | zero =>
      rw [Nat.mul_zero, Nat.add_zero] at hk
      exact absurd (hk ▸ hprime) hfail
    | succ k =>
      refine ⟨⟨k, ?_⟩, hprime⟩
      rw [Nat.mul_succ] at hk
      omega
  · rintro ⟨⟨k, hk⟩, hprime⟩
    refine ⟨⟨k + 1, ?_⟩, hprime⟩
    rw [Nat.mul_succ]
    omega

theorem isGreatest_primeSizes {unit start : Nat}
    (hpass : isPrime (UInt64.ofNat (start / unit)) = true) :
    IsGreatest (PrimeSizes unit start) start := by
  refine ⟨⟨⟨0, rfl⟩, hpass⟩, ?_⟩
  rintro size ⟨⟨k, hk⟩, -⟩
  omega

variable {unit : UInt64}

theorem div_unit_eq (size : UInt64) : size / unit = UInt64.ofNat (size.toNat / unit.toNat) := by
  rw [← UInt64.toNat_div, UInt64.ofNat_toNat]

/-- The search from an odd number of rows ends at the first size that passes the test, at three rows at
the latest. -/
theorem searchSize_spec (hunit : 0 < unit.toNat) (hdouble : (2 * unit).toNat = 2 * unit.toNat)
    {m n : Nat} (hn : m < n) {start : UInt64} (hstart : start.toNat = unit.toNat * (2 * m + 3)) :
    ∃ size, searchSize unit n start = some size ∧
      IsGreatest (PrimeSizes unit.toNat start.toNat) size.toNat := by
  induction m generalizing n start with
  | zero =>
    obtain ⟨n, rfl⟩ := Nat.exists_eq_add_of_lt hn
    have hrows : start.toNat / unit.toNat = 3 := by
      rw [hstart, Nat.mul_div_cancel_left _ hunit]
    have hthree : isPrime (UInt64.ofNat (start.toNat / unit.toNat)) = true := by
      rw [hrows]
      decide
    refine ⟨start, ?_, isGreatest_primeSizes hthree⟩
    rw [searchSize, div_unit_eq, if_pos hthree]
  | succ m ih =>
    cases n with
    | zero => exact absurd hn (Nat.not_lt_zero _)
    | succ n =>
      rw [searchSize, div_unit_eq]
      by_cases hpass : isPrime (UInt64.ofNat (start.toNat / unit.toNat)) = true
      · rw [if_pos hpass]
        exact ⟨start, rfl, isGreatest_primeSizes hpass⟩
      · have hle : 2 * unit.toNat ≤ start.toNat := by
          rw [hstart, Nat.mul_comm 2]
          exact Nat.mul_le_mul_left _ (by omega)
        have hsub : (start - 2 * unit).toNat = start.toNat - 2 * unit.toNat := by
          rw [UInt64.toNat_sub_of_le _ _ (UInt64.le_iff_toNat_le.mpr (hdouble ▸ hle)), hdouble]
        have hnext : (start - 2 * unit).toNat = unit.toNat * (2 * m + 3) := by
          rw [hsub, hstart, Nat.mul_comm 2 unit.toNat, ← Nat.mul_sub]
          congr 1
        rw [if_neg hpass, primeSizes_sub hle hpass, ← hsub]
        exact ih (Nat.lt_of_succ_lt_succ hn) hnext

end Sizes

end Rcpu.Etchash
