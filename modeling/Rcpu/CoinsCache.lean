import Rcpu.Checks
import Rcpu.Coins
import Rcpu.WriteBack

/-!
# The coins cache

`CCoinsViewCache` of `coins.cpp`: a map of coins with `DIRTY` and `FRESH` flags on top of another view,
which may be such a cache itself.  Reads fill the caches below; `Flush` and `Sync` write a cache into
the view below.  The lookups of a stack of caches are those of one plain map that the same additions
and spends are applied to.
-/

namespace Rcpu.CoinsCache

open Checks WeightedMap Transaction Coins

/-! ### Entries and views -/

/-- A coin with its flags.  `memory` is what `coin.DynamicMemoryUsage()` reports; a copy of the coin
may report something else. -/
structure CCoinsCacheEntry where
  coin : Coin
  memory : Nat
  dirty : Bool
  fresh : Bool
deriving DecidableEq, Repr

abbrev CCoinsMap := Map COutPoint CCoinsCacheEntry

/-- The coin of the empty constructor, and what `Coin::Clear` leaves. -/
def coinEmpty : Coin := .ofOut .null 0 false

/-- The memory of a coin read from a database, and of one that was copied over an object that reported
some memory before. -/
structure Memory where
  loaded : Coin → Nat
  copied : Nat → Coin → Nat

/-- The virtual functions of `CCoinsView`.  `BatchWrite` visits the child's entries in some order
and returns what is left of them. -/
structure ViewOps (σ : Type) where
  getCoin : σ → COutPoint → σ × Option (Coin × Nat)
  batchWrite : σ → CCoinsMap → List (COutPoint × CCoinsCacheEntry) → Uint256 → Bool →
    Except String (σ × CCoinsMap)

def unvisited (erase : Bool) (mapCoins : CCoinsMap) (order : List (COutPoint × CCoinsCacheEntry)) :
    CCoinsMap :=
  if erase then order.foldl (fun m e => m.erase e.1) mapCoins else mapCoins

/-! ### The base -/

structure CoinsBase where
  bestBlock : Uint256
  coins : Map COutPoint Coin

def CoinsBase.writeEntry (coins : Map COutPoint Coin) (e : COutPoint × CCoinsCacheEntry) :
    Map COutPoint Coin :=
  if e.2.dirty then
    if e.2.coin.IsSpent then coins.erase e.1 else coins.insert e.1 e.2.coin
  else coins

def baseOps (mem : Memory) : ViewOps CoinsBase where
  getCoin base outpoint := (base, (base.coins.lookup outpoint).map fun coin => (coin, mem.loaded coin))
  batchWrite base mapCoins order hashBlock erase :=
    .ok (⟨hashBlock, order.foldl CoinsBase.writeEntry base.coins⟩, unvisited erase mapCoins order)

/-! ### The cache -/

structure CCoinsViewCache (σ : Type) where
  base : σ
  hashBlock : Uint256
  cacheCoins : CCoinsMap
  cachedCoinsUsage : Nat

def CCoinsViewCache.new {σ : Type} (base : σ) : CCoinsViewCache σ := ⟨base, Uint256.null, ∅, 0⟩

section Cache

variable {σ : Type} (mem : Memory) (ops : ViewOps σ)

/-- `FetchCoin`: the entry of an outpoint, brought in from the base if need be. -/
def fetchCoin (cache : CCoinsViewCache σ) (outpoint : COutPoint) :
    CCoinsViewCache σ × Option CCoinsCacheEntry :=
  match cache.cacheCoins.lookup outpoint with
  | some entry => (cache, some entry)
  | none =>
    match ops.getCoin cache.base outpoint with
    | (base, none) => ({ cache with base := base }, none)
    | (base, some (coin, memory)) =>
      -- a spent coin of the parent can be considered fresh
      let entry : CCoinsCacheEntry := ⟨coin, memory, false, coin.IsSpent⟩
      ({ cache with
          base := base
          cacheCoins := cache.cacheCoins.insert outpoint entry
          cachedCoinsUsage := cache.cachedCoinsUsage + memory }, some entry)

def getCoin (cache : CCoinsViewCache σ) (outpoint : COutPoint) :
    CCoinsViewCache σ × Option (Coin × Nat) :=
  match fetchCoin ops cache outpoint with
  | (cache, some entry) =>
    (cache, if entry.coin.IsSpent then none else some (entry.coin, mem.copied 0 entry.coin))
  | (cache, none) => (cache, none)

def haveCoin (cache : CCoinsViewCache σ) (outpoint : COutPoint) : CCoinsViewCache σ × Bool :=
  match fetchCoin ops cache outpoint with
  | (cache, some entry) => (cache, !decide entry.coin.IsSpent)
  | (cache, none) => (cache, false)

def accessCoin (cache : CCoinsViewCache σ) (outpoint : COutPoint) : CCoinsViewCache σ × Coin :=
  match fetchCoin ops cache outpoint with
  | (cache, some entry) => (cache, entry.coin)
  | (cache, none) => (cache, coinEmpty)

/-- `AddCoin`, with the memory that the given coin reports. -/
def addCoin (cache : CCoinsViewCache σ) (outpoint : COutPoint) (coin : Coin) (memory : Nat)
    (possibleOverwrite : Bool) : Except String (CCoinsViewCache σ) := do
  require (¬ coin.IsSpent) "!coin.IsSpent()"
  if Coin.IsDropped coin.out then return cache
  else
    let entry := (cache.cacheCoins.lookup outpoint).getD ⟨coinEmpty, 0, false, false⟩
    require (possibleOverwrite = true ∨ entry.coin.IsSpent)
      "Attempted to overwrite an unspent coin (when possible_overwrite is false)"
    -- spentness that has not been flushed yet keeps a coin from being fresh
    let fresh := !possibleOverwrite && !entry.dirty
    return { cache with
      cacheCoins := cache.cacheCoins.insert outpoint ⟨coin, memory, true, entry.fresh || fresh⟩
      cachedCoinsUsage := cache.cachedCoinsUsage - entry.memory + memory }

/-- `SpendCoin`: the coin that is moved out, if the call returns true. -/
def spendCoin (cache : CCoinsViewCache σ) (outpoint : COutPoint) : CCoinsViewCache σ × Option Coin :=
  match fetchCoin ops cache outpoint with
  | (cache, none) => (cache, none)
  | (cache, some entry) =>
    ({ cache with
        cacheCoins :=
          if entry.fresh then cache.cacheCoins.erase outpoint
          else cache.cacheCoins.insert outpoint
            { entry with coin := coinEmpty, memory := 0, dirty := true }
        cachedCoinsUsage := cache.cachedCoinsUsage - entry.memory }, some entry.coin)

def uncache (cache : CCoinsViewCache σ) (outpoint : COutPoint) : CCoinsViewCache σ :=
  match cache.cacheCoins.lookup outpoint with
  | none => cache
  | some entry =>
    if entry.dirty || entry.fresh then cache
    else
      { cache with
        cacheCoins := cache.cacheCoins.erase outpoint
        cachedCoinsUsage := cache.cachedCoinsUsage - entry.memory }

def Memory.written (erase : Bool) (before : Nat) (entry : CCoinsCacheEntry) : Nat :=
  if erase then entry.memory else mem.copied before entry.coin

/-- One round of `BatchWrite`. -/
def writeEntry (erase : Bool) (cache : CCoinsViewCache σ) (e : COutPoint × CCoinsCacheEntry) :
    Except String (CCoinsViewCache σ) :=
  let (outpoint, entry) := e
  if !entry.dirty then .ok cache
  else
    match cache.cacheCoins.lookup outpoint with
    | none =>
      if entry.fresh ∧ entry.coin.IsSpent then .ok cache
      else
        let memory := mem.written erase 0 entry
        .ok { cache with
          cacheCoins := cache.cacheCoins.insert outpoint ⟨entry.coin, memory, true, entry.fresh⟩
          cachedCoinsUsage := cache.cachedCoinsUsage + memory }
    | some itUs =>
      if entry.fresh ∧ ¬ itUs.coin.IsSpent then
        .error "FRESH flag misapplied to coin that exists in parent cache"
      else if itUs.fresh ∧ entry.coin.IsSpent then
        .ok { cache with
          cacheCoins := cache.cacheCoins.erase outpoint
          cachedCoinsUsage := cache.cachedCoinsUsage - itUs.memory }
      else
        let memory := mem.written erase itUs.memory entry
        .ok { cache with
          cacheCoins := cache.cacheCoins.insert outpoint
            { itUs with coin := entry.coin, memory := memory, dirty := true }
          cachedCoinsUsage := cache.cachedCoinsUsage - itUs.memory + memory }

def batchWrite (cache : CCoinsViewCache σ) (mapCoins : CCoinsMap)
    (order : List (COutPoint × CCoinsCacheEntry)) (hashBlock : Uint256) (erase : Bool) :
    Except String (CCoinsViewCache σ × CCoinsMap) := do
  let cache ← order.foldlM (writeEntry mem erase) cache
  return ({ cache with hashBlock := hashBlock }, unvisited erase mapCoins order)

def cacheOps : ViewOps (CCoinsViewCache σ) where
  getCoin := getCoin mem ops
  batchWrite := batchWrite mem

/-- `Flush`, with the order in which the entries are visited. -/
def flush (cache : CCoinsViewCache σ) (order : List (COutPoint × CCoinsCacheEntry)) :
    Except String (CCoinsViewCache σ) := do
  let (base, left) ← ops.batchWrite cache.base cache.cacheCoins order cache.hashBlock true
  require (left.keys = ∅) "Not all cached coins were erased"
  return { cache with base := base, cacheCoins := ∅, cachedCoinsUsage := 0 }

def settleEntry (cache : CCoinsViewCache σ) (e : COutPoint × CCoinsCacheEntry) : CCoinsViewCache σ :=
  if e.2.coin.IsSpent then
    { cache with
      cacheCoins := cache.cacheCoins.erase e.1
      cachedCoinsUsage := cache.cachedCoinsUsage - e.2.memory }
  else
    { cache with cacheCoins := cache.cacheCoins.insert e.1 { e.2 with dirty := false, fresh := false } }

def sync (cache : CCoinsViewCache σ) (order : List (COutPoint × CCoinsCacheEntry)) :
    Except String (CCoinsViewCache σ) := do
  let (base, _) ← ops.batchWrite cache.base cache.cacheCoins order cache.hashBlock false
  return order.foldl settleEntry { cache with base := base }

/-- The bits of `attr` in `SanityCheck`. -/
def attr (entry : CCoinsCacheEntry) : Nat :=
  (if entry.dirty then 1 else 0) + (if entry.fresh then 2 else 0) +
    if entry.coin.IsSpent then 4 else 0

/-- What `SanityCheck` asserts. -/
def SanityCheck (cache : CCoinsViewCache σ) : Prop :=
  (∀ e ∈ pairs cache.cacheCoins, attr e.2 ≠ 2 ∧ attr e.2 ≠ 4 ∧ attr e.2 ≠ 7) ∧
    sumOver (fun _ entry => entry.memory) cache.cacheCoins = cache.cachedCoinsUsage

end Cache

end Rcpu.CoinsCache
