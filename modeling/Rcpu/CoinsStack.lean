import Rcpu.CoinsCache

/-!
# Stacks of coins caches

A view is lawful if its `GetCoin` and `BatchWrite` are those of a map from outpoints to unspent coins.
A plain map of coins is lawful, and so is a cache on top of a lawful view, whatever the flags of its
entries came from; a stack of caches of any height is therefore lawful.  Two caches on a plain map are
then compared with a single map that the same additions and spends are applied to.
-/

namespace Rcpu.CoinsStack

open Checks WeightedMap Transaction Coins WriteBack CoinsCache

/-! ### Slots -/

def toEntry (entry : CCoinsCacheEntry) : Entry Coin :=
  ⟨if entry.coin.IsSpent then none else some entry.coin, entry.dirty, entry.fresh⟩

def slotOf (m : CCoinsMap) (outpoint : COutPoint) : Slot Coin := (m.lookup outpoint).map toEntry

theorem slotOf_eq_some {m : CCoinsMap} {o : COutPoint} {entry : CCoinsCacheEntry}
    (h : m.lookup o = some entry) : slotOf m o = some (toEntry entry) := by
  rw [slotOf, h, Option.map_some]

theorem slotOf_eq_none {m : CCoinsMap} {o : COutPoint} : slotOf m o = none ↔ m.lookup o = none :=
  Option.map_eq_none_iff

@[simp] theorem slotOf_insert_self (m : CCoinsMap) (o : COutPoint) (entry : CCoinsCacheEntry) :
    slotOf (m.insert o entry) o = some (toEntry entry) := slotOf_eq_some (Finmap.lookup_insert m)

theorem slotOf_insert_of_ne {m : CCoinsMap} {o j : COutPoint} {entry : CCoinsCacheEntry}
    (h : j ≠ o) : slotOf (m.insert o entry) j = slotOf m j := by
  rw [slotOf, Finmap.lookup_insert_of_ne _ h, slotOf]

@[simp] theorem slotOf_erase_self (m : CCoinsMap) (o : COutPoint) : slotOf (m.erase o) o = none :=
  slotOf_eq_none.mpr (Finmap.lookup_erase o m)

theorem slotOf_erase_of_ne {m : CCoinsMap} {o j : COutPoint} (h : j ≠ o) :
    slotOf (m.erase o) j = slotOf m j := by
  rw [slotOf, Finmap.lookup_erase_ne h, slotOf]

/-- The list has every entry of the map once. -/
def Lists (order : List (COutPoint × CCoinsCacheEntry)) (m : CCoinsMap) : Prop :=
  (order : Multiset (COutPoint × CCoinsCacheEntry)) = pairs m

section Lists

variable {order : List (COutPoint × CCoinsCacheEntry)} {m : CCoinsMap}

theorem Lists.nodup (h : Lists order m) : (order.map Prod.fst).Nodup := by
  have hkeys := nodup_keys_pairs m
  rwa [← h, Multiset.map_coe, Multiset.coe_nodup] at hkeys

theorem Lists.mem_iff (h : Lists order m) {o : COutPoint} {entry : CCoinsCacheEntry} :
    (o, entry) ∈ order ↔ m.lookup o = some entry := by
  rw [← mem_pairs, ← h, Multiset.mem_coe]

theorem Lists.notMem_iff (h : Lists order m) {o : COutPoint} :
    o ∉ order.map Prod.fst ↔ m.lookup o = none := by
  constructor
  · intro hnot
    cases hlookup : m.lookup o with
    | none => rfl
    | some entry => exact absurd (List.mem_map.mpr ⟨_, h.mem_iff.mpr hlookup, rfl⟩) hnot
  · rintro hnone hmem
    obtain ⟨⟨j, entry⟩, hentry, rfl⟩ := List.mem_map.mp hmem
    rw [h.mem_iff.mp hentry] at hnone
    cases hnone

theorem Lists.unvisited (h : Lists order m) : unvisited true m order = ∅ := by
  obtain ⟨-, hvisited, hother⟩ := foldl_keyed (l := order) (s := m)
    (g := fun (m : CCoinsMap) (e : COutPoint × CCoinsCacheEntry) => m.erase e.1)
    (v := fun (m : CCoinsMap) o => m.lookup o) (f := fun _ _ => none)
    (P := fun _ _ _ => True) (I := fun _ => True)
    (fun m o _ _ _ => ⟨trivial, Finmap.lookup_erase o m, fun _ hj => Finmap.lookup_erase_ne hj⟩)
    h.nodup trivial fun _ _ _ => trivial
  refine Finmap.ext_lookup fun o => ?_
  rw [CoinsCache.unvisited, if_pos rfl, Finmap.lookup_empty]
  cases hlookup : m.lookup o with
  | none => exact (hother o (h.notMem_iff.mpr hlookup)).trans hlookup
  | some entry => exact hvisited o entry (h.mem_iff.mpr hlookup)

end Lists

/-! ### Lawful views -/

/-- What a cache may write over what the view below holds. -/
def Writable (entry : CCoinsCacheEntry) (below : Option Coin) : Prop :=
  Sound (some (toEntry entry)) below ∧ (entry.coin.IsSpent → entry.coin = coinEmpty)

/-- The functions of a view are those of a map from outpoints to unspent coins. -/
structure Lawful {σ : Type} (ops : ViewOps σ) where
  view : σ → COutPoint → Option Coin
  Inv : σ → Prop
  unspent : ∀ {s o coin}, Inv s → view s o = some coin → ¬ coin.IsSpent
  getCoin_spec : ∀ {s} o, Inv s → Inv (ops.getCoin s o).1 ∧ view (ops.getCoin s o).1 = view s ∧
    (ops.getCoin s o).2.map Prod.fst = view s o
  batchWrite_spec : ∀ {s m order} hashBlock erase, Inv s → Lists order m →
    (∀ o entry, m.lookup o = some entry → Writable entry (view s o)) →
    ∃ s', ops.batchWrite s m order hashBlock erase = .ok (s', unvisited erase m order) ∧ Inv s' ∧
      ∀ o, view s' o = reading (slotOf m o) (view s o)

def AllUnspent (coins : Map COutPoint Coin) : Prop :=
  ∀ o coin, coins.lookup o = some coin → ¬ coin.IsSpent

theorem AllUnspent.writeEntry {coins : Map COutPoint Coin} (h : AllUnspent coins) (o : COutPoint)
    (entry : CCoinsCacheEntry) :
    AllUnspent (CoinsBase.writeEntry coins (o, entry)) ∧
      (CoinsBase.writeEntry coins (o, entry)).lookup o = store (toEntry entry) (coins.lookup o) ∧
      ∀ j, j ≠ o → (CoinsBase.writeEntry coins (o, entry)).lookup j = coins.lookup j := by
  unfold CoinsBase.writeEntry store toEntry
  dsimp only
  split_ifs with hdirty hspent
  · refine ⟨?_, Finmap.lookup_erase o coins, fun _ hj => Finmap.lookup_erase_ne hj⟩
    intro j coin hcoin
    by_cases hj : j = o
    · rw [hj, Finmap.lookup_erase] at hcoin
      cases hcoin
    · rw [Finmap.lookup_erase_ne hj] at hcoin
      exact h j coin hcoin
  · refine ⟨?_, Finmap.lookup_insert coins, fun _ hj => Finmap.lookup_insert_of_ne coins hj⟩
    intro j coin hcoin
    by_cases hj : j = o
    · rw [hj, Finmap.lookup_insert, Option.some.injEq] at hcoin
      exact hcoin ▸ hspent
    · rw [Finmap.lookup_insert_of_ne coins hj] at hcoin
      exact h j coin hcoin
  · exact ⟨h, rfl, fun _ _ => rfl⟩

/-- **A plain map of unspent coins is lawful.** -/
def baseLawful (mem : Memory) : Lawful (baseOps mem) where
  view base o := base.coins.lookup o
  Inv base := AllUnspent base.coins
  unspent h hcoin := h _ _ hcoin
  getCoin_spec {base} o h := by
    refine ⟨h, rfl, ?_⟩
    cases hcoin : base.coins.lookup o with
    | none => simp [baseOps, hcoin]
    | some coin => simp [baseOps, hcoin]
  batchWrite_spec {base m order} hashBlock erase h horder hwritable := by
    obtain ⟨hinv, hvisited, hother⟩ := foldl_keyed (l := order) (g := CoinsBase.writeEntry)
      (v := fun (coins : Map COutPoint Coin) o => coins.lookup o)
      (f := fun entry below => store (toEntry entry) below)
      (P := fun _ entry below => Writable entry below) (I := AllUnspent)
      (fun coins o entry hcoins _ => AllUnspent.writeEntry hcoins o entry) horder.nodup h
      fun o entry hmem => hwritable o entry (horder.mem_iff.mp hmem)
    refine ⟨_, rfl, hinv, ?_⟩
    intro o
    cases hlookup : m.lookup o with
    | none =>
      rw [slotOf_eq_none.mpr hlookup]
      exact hother o (horder.notMem_iff.mpr hlookup)
    | some entry =>
      rw [slotOf_eq_some hlookup]
      have hstore := hvisited o entry (horder.mem_iff.mpr hlookup)
      rw [(hwritable o entry hlookup).1.store_eq] at hstore
      exact hstore

/-! ### A cache on a lawful view -/

section Cache

variable {σ : Type} {ops : ViewOps σ} (L : Lawful ops)

def cacheView (cache : CCoinsViewCache σ) (o : COutPoint) : Option Coin :=
  reading (slotOf cache.cacheCoins o) (L.view cache.base o)

/-- The flags tell the truth about the view below, spent coins are cleared, and the memory of all
coins is accounted for. -/
structure CacheInv (cache : CCoinsViewCache σ) : Prop where
  base : L.Inv cache.base
  sound : ∀ o, Sound (slotOf cache.cacheCoins o) (L.view cache.base o)
  cleared : ∀ o entry, cache.cacheCoins.lookup o = some entry → entry.coin.IsSpent →
    entry.coin = coinEmpty
  usage : sumOver (fun _ entry => entry.memory) cache.cacheCoins = cache.cachedCoinsUsage

variable {L} {cache : CCoinsViewCache σ} {o : COutPoint} {entry : CCoinsCacheEntry}

theorem cacheInv_new {base : σ} (h : L.Inv base) : CacheInv L (.new base) where
  base := h
  sound _ := .absent _
  cleared o entry hentry := by simp [CCoinsViewCache.new] at hentry
  usage := sumOver_empty

theorem CacheInv.rebase (h : CacheInv L cache) {base : σ} (hbase : L.Inv base)
    (hview : L.view base = L.view cache.base) : CacheInv L { cache with base := base } where
  base := hbase
  sound o := by
    rw [hview]
    exact h.sound o
  cleared := h.cleared
  usage := h.usage

theorem CacheInv.rehash (h : CacheInv L cache) (hashBlock : Uint256) :
    CacheInv L { cache with hashBlock := hashBlock } := ⟨h.base, h.sound, h.cleared, h.usage⟩

theorem usage_insert {m : CCoinsMap} {usage : Nat}
    (h : sumOver (fun _ entry => entry.memory) m = usage) (o : COutPoint) (entry : CCoinsCacheEntry) :
    sumOver (fun _ entry => entry.memory) (m.insert o entry) =
      usage - ((m.lookup o).map CCoinsCacheEntry.memory).getD 0 + entry.memory := by
  cases hlookup : m.lookup o with
  | none =>
    rw [sumOver_insert hlookup, h, Option.map_none, Option.getD_none, Nat.sub_zero, Nat.add_comm]
  | some old =>
    have hinsert := sumOver_insert_of_some (v := fun _ entry => entry.memory) (a := entry) hlookup
    have herase := sumOver_erase (v := fun _ (entry : CCoinsCacheEntry) => entry.memory) hlookup
    rw [Option.map_some, Option.getD_some]
    omega

theorem usage_erase {m : CCoinsMap} {usage : Nat}
    (h : sumOver (fun _ entry => entry.memory) m = usage) (hentry : m.lookup o = some entry) :
    sumOver (fun _ entry => entry.memory) (m.erase o) = usage - entry.memory := by
  have herase := sumOver_erase (v := fun _ (entry : CCoinsCacheEntry) => entry.memory) hentry
  omega

theorem CacheInv.insert (h : CacheInv L cache) (o : COutPoint) (entry : CCoinsCacheEntry)
    (hwritable : Writable entry (L.view cache.base o)) {usage : Nat}
    (husage : usage = cache.cachedCoinsUsage -
      ((cache.cacheCoins.lookup o).map CCoinsCacheEntry.memory).getD 0 + entry.memory) :
    CacheInv L { cache with
      cacheCoins := cache.cacheCoins.insert o entry
      cachedCoinsUsage := usage } where
  base := h.base
  sound j := by
    by_cases hj : j = o
    · rw [hj, slotOf_insert_self]
      exact hwritable.1
    · rw [slotOf_insert_of_ne hj]
      exact h.sound j
  cleared j old hold := by
    by_cases hj : j = o
    · rw [hj, Finmap.lookup_insert, Option.some.injEq] at hold
      exact hold ▸ hwritable.2
    · rw [Finmap.lookup_insert_of_ne _ hj] at hold
      exact h.cleared j old hold
  usage := (usage_insert h.usage o entry).trans husage.symm

theorem CacheInv.erase (h : CacheInv L cache) (hentry : cache.cacheCoins.lookup o = some entry) :
    CacheInv L { cache with
      cacheCoins := cache.cacheCoins.erase o
      cachedCoinsUsage := cache.cachedCoinsUsage - entry.memory } where
  base := h.base
  sound j := by
    by_cases hj : j = o
    · rw [hj, slotOf_erase_self]
      exact .absent _
    · rw [slotOf_erase_of_ne hj]
      exact h.sound j
  cleared j old hold := by
    by_cases hj : j = o
    · rw [hj, Finmap.lookup_erase] at hold
      cases hold
    · rw [Finmap.lookup_erase_ne hj] at hold
      exact h.cleared j old hold
  usage := usage_erase h.usage hentry

/-! ### Operations at one outpoint -/

variable (L) in
structure Changes (cache cache' : CCoinsViewCache σ) (o : COutPoint) (slot : Slot Coin) : Prop where
  inv : CacheInv L cache'
  below : L.view cache'.base = L.view cache.base
  self : slotOf cache'.cacheCoins o = slot
  other : ∀ j, j ≠ o → slotOf cache'.cacheCoins j = slotOf cache.cacheCoins j

variable {cache' : CCoinsViewCache σ} {slot : Slot Coin}

theorem Changes.view_self (h : Changes L cache cache' o slot) :
    cacheView L cache' o = reading slot (L.view cache.base o) := by
  rw [cacheView, h.self, h.below]

theorem Changes.view_other (h : Changes L cache cache' o slot) {j : COutPoint} (hj : j ≠ o) :
    cacheView L cache' j = cacheView L cache j := by
  rw [cacheView, h.other j hj, h.below, cacheView]

/-- A change that leaves the reading at its outpoint alone leaves the view alone. -/
theorem Changes.view_eq (h : Changes L cache cache' o slot)
    (hread : reading slot (L.view cache.base o) = cacheView L cache o) :
    cacheView L cache' = cacheView L cache := by
  funext j
  by_cases hj : j = o
  · rw [hj, h.view_self, hread]
  · exact h.view_other hj

theorem fetchCoin_spec (h : CacheInv L cache) (o : COutPoint) :
    Changes L cache (fetchCoin ops cache o).1 o
        (fetch (slotOf cache.cacheCoins o) (L.view cache.base o)) ∧
      (fetchCoin ops cache o).2 = (fetchCoin ops cache o).1.cacheCoins.lookup o := by
  obtain ⟨hbase, hview, hfound⟩ := L.getCoin_spec o h.base
  unfold fetchCoin
  cases hlookup : cache.cacheCoins.lookup o with
  | some entry =>
    refine ⟨⟨h, rfl, ?_, fun _ _ => rfl⟩, hlookup.symm⟩
    rw [slotOf_eq_some hlookup]
    rfl
  | none =>
    rw [slotOf_eq_none.mpr hlookup]
    generalize hresult : ops.getCoin cache.base o = result at hbase hview hfound
    rcases result with ⟨base, _ | ⟨coin, memory⟩⟩
    · refine ⟨⟨h.rebase hbase hview, hview, ?_, fun _ _ => rfl⟩, hlookup.symm⟩
      rw [← hfound]
      exact slotOf_eq_none.mpr hlookup
    · -- the coin below is unspent, so the new entry has no flags
      have hcoin : L.view cache.base o = some coin := hfound.symm
      have hunspent : ¬ coin.IsSpent := L.unspent h.base hcoin
      have hentry : toEntry ⟨coin, memory, false, coin.IsSpent⟩ = ⟨some coin, false, false⟩ := by
        simp [toEntry, hunspent]
      have hwritable : Writable ⟨coin, memory, false, coin.IsSpent⟩ (L.view base o) := by
        refine ⟨?_, fun hspent => absurd hspent hunspent⟩
        rw [hentry, hview, hcoin]
        exact .clean coin
      have husage : cache.cachedCoinsUsage + memory = cache.cachedCoinsUsage -
          ((cache.cacheCoins.lookup o).map CCoinsCacheEntry.memory).getD 0 + memory := by
        rw [hlookup, Option.map_none, Option.getD_none, Nat.sub_zero]
      dsimp only
      refine ⟨⟨(h.rebase hbase hview).insert o _ hwritable husage, hview, ?_,
        fun j hj => slotOf_insert_of_ne hj⟩, (Finmap.lookup_insert cache.cacheCoins).symm⟩
      rw [slotOf_insert_self, hentry, hcoin]
      rfl

theorem cacheView_fetchCoin (h : CacheInv L cache) (o : COutPoint) :
    cacheView L (fetchCoin ops cache o).1 = cacheView L cache :=
  (fetchCoin_spec h o).1.view_eq (reading_fetch _ _)

theorem fetchCoin_entry (h : CacheInv L cache) (o : COutPoint) :
    ((fetchCoin ops cache o).2.map toEntry).bind Entry.value = cacheView L cache o := by
  obtain ⟨hchanges, hentry⟩ := fetchCoin_spec h o
  have hslot := hchanges.self
  rw [slotOf, ← hentry] at hslot
  rw [hslot, cacheView, ← reading_fetch]
  cases hfetch : fetch (slotOf cache.cacheCoins o) (L.view cache.base o) with
  | none => exact (fetch_eq_none.mp hfetch).2.symm
  | some e => rfl

theorem fetchCoin_keeps (h : CacheInv L cache) (o : COutPoint) :
    CacheInv L (fetchCoin ops cache o).1 ∧
      cacheView L (fetchCoin ops cache o).1 = cacheView L cache :=
  ⟨(fetchCoin_spec h o).1.inv, cacheView_fetchCoin h o⟩

theorem getCoin_spec (mem : Memory) (h : CacheInv L cache) (o : COutPoint) :
    (getCoin mem ops cache o).1 = (fetchCoin ops cache o).1 ∧
      (getCoin mem ops cache o).2.map Prod.fst = cacheView L cache o := by
  have hentry := fetchCoin_entry h o
  unfold getCoin
  generalize fetchCoin ops cache o = result at hentry ⊢
  rcases result with ⟨cache', _ | entry⟩
  · exact ⟨rfl, hentry⟩
  · refine ⟨rfl, ?_⟩
    rw [← hentry]
    by_cases hspent : entry.coin.IsSpent
    · simp [hspent, toEntry]
    · simp [hspent, toEntry]

theorem haveCoin_spec (h : CacheInv L cache) (o : COutPoint) :
    (haveCoin ops cache o).1 = (fetchCoin ops cache o).1 ∧
      (haveCoin ops cache o).2 = (cacheView L cache o).isSome := by
  have hentry := fetchCoin_entry h o
  unfold haveCoin
  generalize fetchCoin ops cache o = result at hentry ⊢
  rcases result with ⟨cache', _ | entry⟩
  · exact ⟨rfl, by rw [← hentry]; rfl⟩
  · refine ⟨rfl, ?_⟩
    rw [← hentry]
    by_cases hspent : entry.coin.IsSpent
    · simp [hspent, toEntry]
    · simp [hspent, toEntry]

/-- A spent coin has been cleared, so that `AccessCoin` returns an empty coin for it. -/
theorem coin_of_fetchCoin (h : CacheInv L cache) {o : COutPoint} {entry : CCoinsCacheEntry}
    (hentry : (fetchCoin ops cache o).2 = some entry) :
    entry.coin = (cacheView L cache o).getD coinEmpty := by
  obtain ⟨hchanges, hlookup⟩ := fetchCoin_spec h o
  rw [← fetchCoin_entry h o, hentry]
  by_cases hspent : entry.coin.IsSpent
  · have hcleared := hchanges.inv.cleared o entry (hlookup.symm.trans hentry) hspent
    simpa [hspent, toEntry] using hcleared
  · simp [hspent, toEntry]

theorem accessCoin_spec (h : CacheInv L cache) (o : COutPoint) :
    (accessCoin ops cache o).1 = (fetchCoin ops cache o).1 ∧
      (accessCoin ops cache o).2 = (cacheView L cache o).getD coinEmpty := by
  have hcoin := @coin_of_fetchCoin _ _ _ _ h o
  have hentry := fetchCoin_entry h o
  unfold accessCoin
  generalize fetchCoin ops cache o = result at hcoin hentry ⊢
  rcases result with ⟨cache', _ | entry⟩
  · exact ⟨rfl, by rw [← hentry]; rfl⟩
  · exact ⟨rfl, hcoin rfl⟩

theorem isSpent_coinEmpty : coinEmpty.IsSpent := by decide

theorem slotOf_getD (m : CCoinsMap) (o : COutPoint) :
    (slotOf m o).getD ⟨none, false, false⟩ =
      toEntry ((m.lookup o).getD ⟨coinEmpty, 0, false, false⟩) := by
  cases hlookup : m.lookup o with
  | none =>
    rw [slotOf_eq_none.mpr hlookup, Option.getD_none, Option.getD_none, toEntry,
      if_pos isSpent_coinEmpty]
  | some entry => rw [slotOf_eq_some hlookup, Option.getD_some, Option.getD_some]

theorem memory_getD (m : CCoinsMap) (o : COutPoint) :
    ((m.lookup o).map CCoinsCacheEntry.memory).getD 0 =
      ((m.lookup o).getD ⟨coinEmpty, 0, false, false⟩).memory := by
  cases m.lookup o <;> rfl

theorem addCoin_of_dropped {coin : Coin} {memory : Nat} {possibleOverwrite : Bool}
    (hunspent : ¬ coin.IsSpent) (hdropped : Coin.IsDropped coin.out) :
    addCoin cache o coin memory possibleOverwrite = .ok cache := by
  rw [addCoin, if_pos hdropped]
  exact bind_unit_eq_ok.mpr ⟨require_eq_ok.mpr hunspent, rfl⟩

/-- What `AddCoin` does: nothing with outputs that never enter the set, and else it puts the coin. -/
theorem addCoin_spec (h : CacheInv L cache) (o : COutPoint) {coin : Coin} (memory : Nat)
    {possibleOverwrite : Bool} (hunspent : ¬ coin.IsSpent)
    (hnew : possibleOverwrite = false → cacheView L cache o = none) :
    ∃ cache', addCoin cache o coin memory possibleOverwrite = .ok cache' ∧
      (Coin.IsDropped coin.out ∧ cache' = cache ∨ ¬ Coin.IsDropped coin.out ∧
        Changes L cache cache' o (put possibleOverwrite coin (slotOf cache.cacheCoins o))) := by
  by_cases hdropped : Coin.IsDropped coin.out
  · exact ⟨cache, addCoin_of_dropped hunspent hdropped, .inl ⟨hdropped, rfl⟩⟩
  · rw [addCoin, if_neg hdropped]
    have hslot := slotOf_getD cache.cacheCoins o
    have husage := memory_getD cache.cacheCoins o
    have hsound := (h.sound o).put (a := coin) hnew
    have hspent : possibleOverwrite = true ∨
        ((cache.cacheCoins.lookup o).getD ⟨coinEmpty, 0, false, false⟩).coin.IsSpent := by
      cases possibleOverwrite with
      | true => exact .inl rfl
      | false =>
        right
        have hnone := hnew rfl
        cases hlookup : cache.cacheCoins.lookup o with
        | none => exact isSpent_coinEmpty
        | some entry =>
          rw [cacheView, slotOf_eq_some hlookup] at hnone
          have hvalue : (toEntry entry).value = none := hnone
          rw [Option.getD_some]
          by_contra hnot
          rw [toEntry, if_neg hnot] at hvalue
          cases hvalue
    generalize (cache.cacheCoins.lookup o).getD ⟨coinEmpty, 0, false, false⟩ = entry at *
    have hput : toEntry ⟨coin, memory, true, entry.fresh || (!possibleOverwrite && !entry.dirty)⟩ =
        ⟨some coin, true, entry.fresh || (!possibleOverwrite && !entry.dirty)⟩ := by
      rw [toEntry, if_neg hunspent]
    have hself : put possibleOverwrite coin (slotOf cache.cacheCoins o) = some (toEntry
        ⟨coin, memory, true, entry.fresh || (!possibleOverwrite && !entry.dirty)⟩) := by
      rw [put, hslot, hput]
      rfl
    rw [hself] at hsound ⊢
    refine ⟨_, bind_unit_eq_ok.mpr ⟨require_eq_ok.mpr hunspent, bind_unit_eq_ok.mpr
      ⟨require_eq_ok.mpr hspent, rfl⟩⟩, .inr ⟨hdropped, ?_, rfl, slotOf_insert_self _ _ _,
      fun j hj => slotOf_insert_of_ne hj⟩⟩
    exact h.insert o _ ⟨hsound, fun hspent => absurd hspent hunspent⟩ (by rw [husage])

/-- What `SpendCoin` does; the coin it moves out is the one that was there, or an empty one. -/
theorem spendCoin_spec (h : CacheInv L cache) (o : COutPoint) :
    Changes L cache (spendCoin ops cache o).1 o
        (remove (fetch (slotOf cache.cacheCoins o) (L.view cache.base o))) ∧
      (spendCoin ops cache o).2.getD coinEmpty = (cacheView L cache o).getD coinEmpty := by
  obtain ⟨hchanges, hlookup⟩ := fetchCoin_spec h o
  have hcoin := @coin_of_fetchCoin _ _ _ _ h o
  have hview := fetchCoin_entry h o
  unfold spendCoin
  generalize fetchCoin ops cache o = result at hchanges hlookup hcoin hview ⊢
  rcases result with ⟨cache', _ | entry⟩
  · have hslot := hchanges.self
    rw [slotOf_eq_none.mpr hlookup.symm] at hslot
    refine ⟨⟨hchanges.inv, hchanges.below, ?_, hchanges.other⟩, by rw [← hview]; rfl⟩
    rw [← hslot]
    exact slotOf_eq_none.mpr hlookup.symm
  · refine ⟨?_, hcoin rfl⟩
    have hslot := hchanges.self
    rw [slotOf_eq_some hlookup.symm] at hslot
    rw [← hslot]
    dsimp only
    have hsound := hchanges.inv.sound o
    rw [slotOf_eq_some hlookup.symm] at hsound
    by_cases hfresh : entry.fresh
    · have hremove : remove (some (toEntry entry)) = none := if_pos hfresh
      rw [if_pos hfresh]
      refine ⟨hchanges.inv.erase hlookup.symm, hchanges.below, ?_, ?_⟩
      · rw [hremove, slotOf_erase_self]
      · exact fun j hj => (slotOf_erase_of_ne hj).trans (hchanges.other j hj)
    · have hremove : remove (some (toEntry entry)) =
          some (toEntry { entry with coin := coinEmpty, memory := 0, dirty := true }) := by
        rw [remove, if_neg (show ¬ (toEntry entry).fresh = true from hfresh)]
        simp [toEntry, isSpent_coinEmpty]
      rw [if_neg hfresh]
      refine ⟨hchanges.inv.insert o _ ⟨?_, fun _ => rfl⟩ ?_, hchanges.below, ?_, ?_⟩
      · rw [← hremove]
        exact hsound.remove
      · rw [← hlookup]
        rfl
      · rw [hremove, slotOf_insert_self]
      · exact fun j hj => (slotOf_insert_of_ne hj).trans (hchanges.other j hj)

theorem uncache_spec (h : CacheInv L cache) (o : COutPoint) :
    Changes L cache (uncache cache o) o (release (slotOf cache.cacheCoins o)) := by
  unfold uncache
  cases hlookup : cache.cacheCoins.lookup o with
  | none =>
    rw [slotOf_eq_none.mpr hlookup]
    exact ⟨h, rfl, slotOf_eq_none.mpr hlookup, fun _ _ => rfl⟩
  | some entry =>
    rw [slotOf_eq_some hlookup]
    dsimp only
    by_cases hflags : (entry.dirty || entry.fresh) = true
    · rw [if_pos hflags]
      exact ⟨h, rfl, (slotOf_eq_some hlookup).trans (if_pos hflags).symm, fun _ _ => rfl⟩
    · rw [if_neg hflags]
      exact ⟨h.erase hlookup, rfl, (slotOf_erase_self _ o).trans (if_neg hflags).symm,
        fun j hj => slotOf_erase_of_ne hj⟩

/-! ### Writing a cache -/

theorem isNone_value_toEntry (entry : CCoinsCacheEntry) :
    (toEntry entry).value.isNone = decide entry.coin.IsSpent := by
  unfold toEntry
  by_cases hspent : entry.coin.IsSpent
  · simp [hspent]
  · simp [hspent]

theorem CacheInv.writable (h : CacheInv L cache) (hentry : cache.cacheCoins.lookup o = some entry) :
    Writable entry (L.view cache.base o) := by
  refine ⟨?_, h.cleared o entry hentry⟩
  rw [← slotOf_eq_some hentry]
  exact h.sound o

theorem writeEntry_spec (mem : Memory) (erase : Bool) (h : CacheInv L cache) (o : COutPoint)
    {entry : CCoinsCacheEntry} (hwritable : Writable entry (cacheView L cache o)) :
    ∃ cache', writeEntry mem erase cache (o, entry) = .ok cache' ∧ cache'.base = cache.base ∧
      Changes L cache cache' o (merge (toEntry entry) (slotOf cache.cacheCoins o)) := by
  have hclash := hwritable.1.not_clash
  have hmerge := ((h.sound o).merge hwritable.1).1
  have hnone := isNone_value_toEntry entry
  unfold writeEntry
  dsimp only
  by_cases hdirty : entry.dirty = true
  · rw [if_neg (by simp [hdirty])]
    have hdirty' : (toEntry entry).dirty = true := hdirty
    cases hlookup : cache.cacheCoins.lookup o with
    | none =>
      rw [slotOf_eq_none.mpr hlookup, merge_none hdirty'] at hmerge ⊢
      dsimp only
      by_cases hskip : entry.fresh = true ∧ entry.coin.IsSpent
      · rw [if_pos hskip, if_pos (by simp [hskip, toEntry])]
        exact ⟨cache, rfl, rfl, h, rfl, slotOf_eq_none.mpr hlookup, fun _ _ => rfl⟩
      · have hflags : ¬ ((toEntry entry).fresh && (toEntry entry).value.isNone) = true := by
          simpa [hnone, toEntry] using hskip
        rw [if_neg hskip, if_neg hflags]
        rw [if_neg hflags] at hmerge
        refine ⟨_, rfl, rfl, h.insert o _ ?_ ?_, rfl, slotOf_insert_self _ _ _,
          fun j hj => slotOf_insert_of_ne hj⟩
        · exact ⟨hmerge, hwritable.2⟩
        · rw [hlookup, Option.map_none, Option.getD_none, Nat.sub_zero]
    | some itUs =>
      rw [slotOf_eq_some hlookup] at hclash
      rw [slotOf_eq_some hlookup, merge_some hdirty'] at hmerge ⊢
      dsimp only
      have hfresh : ¬ (entry.fresh = true ∧ ¬ itUs.coin.IsSpent) := by
        rintro ⟨hentry, hunspent⟩
        exact hclash ⟨hdirty, hentry, toEntry itUs, rfl, by simp [toEntry, hunspent]⟩
      rw [if_neg hfresh]
      by_cases hgone : itUs.fresh = true ∧ entry.coin.IsSpent
      · rw [if_pos hgone, if_pos (by simp [hgone, toEntry])]
        exact ⟨_, rfl, rfl, h.erase hlookup, rfl, slotOf_erase_self _ o,
          fun j hj => slotOf_erase_of_ne hj⟩
      · have hflags : ¬ ((toEntry itUs).fresh && (toEntry entry).value.isNone) = true := by
          simpa [hnone, toEntry] using hgone
        rw [if_neg hgone, if_neg hflags]
        rw [if_neg hflags] at hmerge
        refine ⟨_, rfl, rfl, h.insert o _ ?_ ?_, rfl, slotOf_insert_self _ _ _,
          fun j hj => slotOf_insert_of_ne hj⟩
        · exact ⟨hmerge, hwritable.2⟩
        · rw [hlookup, Option.map_some, Option.getD_some]
  · rw [if_pos (by simp [hdirty])]
    have hclean : (toEntry entry).dirty = false := Bool.eq_false_of_not_eq_true hdirty
    exact ⟨cache, rfl, rfl, h, rfl, (merge_of_clean hclean).symm, fun _ _ => rfl⟩

/-- **A cache on a lawful view is lawful.** -/
def cacheLawful (mem : Memory) (L : Lawful ops) : Lawful (cacheOps mem ops) where
  view := cacheView L
  Inv := CacheInv L
  unspent {cache o coin} h hcoin := by
    cases hlookup : cache.cacheCoins.lookup o with
    | none =>
      rw [cacheView, slotOf_eq_none.mpr hlookup] at hcoin
      exact L.unspent h.base hcoin
    | some entry =>
      rw [cacheView, slotOf_eq_some hlookup] at hcoin
      have hvalue : (toEntry entry).value = some coin := hcoin
      unfold toEntry at hvalue
      split_ifs at hvalue with hspent
      exact Option.some.inj hvalue ▸ hspent
  getCoin_spec {cache} o h := by
    obtain ⟨hcache, hfound⟩ := getCoin_spec mem h o
    obtain ⟨hinv, hview⟩ := fetchCoin_keeps h o
    rw [← hcache] at hinv hview
    exact ⟨hinv, hview, hfound⟩
  batchWrite_spec {cache m order} hashBlock erase h horder hwritable := by
    obtain ⟨cache', hloop, ⟨hinv, hbase⟩, hvisited, hother⟩ := foldlM_keyed (l := order)
      (g := writeEntry mem erase) (s := cache)
      (v := fun (cache : CCoinsViewCache σ) o => slotOf cache.cacheCoins o)
      (f := fun entry slot => WriteBack.merge (toEntry entry) slot)
      (P := fun o entry slot => Writable entry (reading slot (L.view cache.base o)))
      (I := fun c => CacheInv L c ∧ c.base = cache.base)
      (by
        rintro c o entry ⟨hc, hbase⟩ hentry
        rw [← hbase] at hentry
        obtain ⟨c', hc', hbase', hchanges⟩ := writeEntry_spec mem erase hc o hentry
        exact ⟨c', hc', ⟨hchanges.inv, hbase'.trans hbase⟩, hchanges.self, hchanges.other⟩)
      horder.nodup ⟨h, rfl⟩ fun o entry hmem => hwritable o entry (horder.mem_iff.mp hmem)
    refine ⟨{ cache' with hashBlock := hashBlock }, ?_, hinv.rehash hashBlock, ?_⟩
    · exact bind_eq_ok.mpr ⟨cache', hloop, rfl⟩
    · intro o
      show reading (slotOf cache'.cacheCoins o) (L.view cache'.base o) = _
      rw [hbase]
      cases hlookup : m.lookup o with
      | none =>
        rw [slotOf_eq_none.mpr hlookup, hother o (horder.notMem_iff.mpr hlookup)]
        rfl
      | some entry =>
        rw [slotOf_eq_some hlookup, hvisited o entry (horder.mem_iff.mpr hlookup)]
        exact ((h.sound o).merge (hwritable o entry hlookup).1).2

variable {order : List (COutPoint × CCoinsCacheEntry)}

/-- **`Flush`** hands everything to the view below and keeps nothing. -/
theorem flush_spec (h : CacheInv L cache) (horder : Lists order cache.cacheCoins) :
    ∃ cache', flush ops cache order = .ok cache' ∧ CacheInv L cache' ∧
      L.view cache'.base = cacheView L cache ∧ cacheView L cache' = cacheView L cache := by
  obtain ⟨base, hwrite, hbase, hview⟩ := L.batchWrite_spec cache.hashBlock true h.base horder
    fun o entry hentry => h.writable hentry
  rw [horder.unvisited] at hwrite
  have hview' : L.view base = cacheView L cache := funext hview
  refine ⟨{ cache with base := base, cacheCoins := ∅, cachedCoinsUsage := 0 }, ?_,
    cacheInv_new hbase |>.rehash cache.hashBlock, hview', ?_⟩
  · refine bind_eq_ok.mpr ⟨(base, ∅), hwrite, ?_⟩
    exact bind_unit_eq_ok.mpr ⟨require_eq_ok.mpr Finmap.keys_empty, rfl⟩
  · funext o
    exact congrFun hview' o

theorem foldl_settleEntry (husage : sumOver (fun _ entry => entry.memory) cache.cacheCoins =
      cache.cachedCoinsUsage) (horder : Lists order cache.cacheCoins) :
    (order.foldl settleEntry cache).base = cache.base ∧
      sumOver (fun _ entry => entry.memory) (order.foldl settleEntry cache).cacheCoins =
        (order.foldl settleEntry cache).cachedCoinsUsage ∧
      ∀ o, (order.foldl settleEntry cache).cacheCoins.lookup o = (cache.cacheCoins.lookup o).bind
        fun entry => if entry.coin.IsSpent then none
          else some { entry with dirty := false, fresh := false } := by
  obtain ⟨⟨hbase, hsum⟩, hvisited, hother⟩ := foldl_keyed (l := order) (g := settleEntry) (s := cache)
    (v := fun (c : CCoinsViewCache σ) o => c.cacheCoins.lookup o)
    (f := fun entry _ => if entry.coin.IsSpent then none
      else some { entry with dirty := false, fresh := false })
    (P := fun _ entry found => found = some entry)
    (I := fun c => c.base = cache.base ∧
      sumOver (fun _ entry => entry.memory) c.cacheCoins = c.cachedCoinsUsage)
    (by
      rintro c o entry ⟨hbase, hsum⟩ hlookup
      unfold settleEntry
      dsimp only
      split_ifs with hspent
      · exact ⟨⟨hbase, usage_erase hsum hlookup⟩, Finmap.lookup_erase o _,
          fun j hj => Finmap.lookup_erase_ne hj⟩
      · refine ⟨⟨hbase, ?_⟩, Finmap.lookup_insert _, fun j hj => Finmap.lookup_insert_of_ne _ hj⟩
        have herase := sumOver_erase (v := fun _ (entry : CCoinsCacheEntry) => entry.memory) hlookup
        have hinsert := usage_insert hsum o { entry with dirty := false, fresh := false }
        rw [hlookup, Option.map_some, Option.getD_some] at hinsert
        rw [hinsert]
        dsimp only
        omega)
    horder.nodup ⟨rfl, husage⟩ fun o entry hmem => horder.mem_iff.mp hmem
  refine ⟨hbase, hsum, ?_⟩
  intro o
  cases hlookup : cache.cacheCoins.lookup o with
  | none => exact (hother o (horder.notMem_iff.mpr hlookup)).trans hlookup
  | some entry => exact hvisited o entry (horder.mem_iff.mpr hlookup)

/-- **`Sync`** hands everything to the view below and keeps the unspent coins. -/
theorem sync_spec (h : CacheInv L cache) (horder : Lists order cache.cacheCoins) :
    ∃ cache', sync ops cache order = .ok cache' ∧ CacheInv L cache' ∧
      L.view cache'.base = cacheView L cache ∧ cacheView L cache' = cacheView L cache := by
  obtain ⟨base, hwrite, hbase, hview⟩ := L.batchWrite_spec cache.hashBlock false h.base horder
    fun o entry hentry => h.writable hentry
  obtain ⟨hbase', husage, hlookup⟩ :=
    @foldl_settleEntry σ { cache with base := base } order h.usage horder
  refine ⟨_, bind_eq_ok.mpr ⟨_, hwrite, rfl⟩, ?_⟩
  generalize order.foldl settleEntry { cache with base := base } = cache' at hbase' husage hlookup
  dsimp only at hbase' hlookup
  have hview' : L.view cache'.base = cacheView L cache := by
    rw [hbase']
    exact funext hview
  have hslot : ∀ o, slotOf cache'.cacheCoins o = settle (slotOf cache.cacheCoins o) := by
    intro o
    rw [slotOf, hlookup, slotOf]
    cases cache.cacheCoins.lookup o with
    | none => rfl
    | some entry =>
      by_cases hspent : entry.coin.IsSpent
      · simp [settle, toEntry, hspent]
      · simp [settle, toEntry, hspent]
  refine ⟨⟨hbase'.symm ▸ hbase, ?_, ?_, husage⟩, hview', ?_⟩
  · intro o
    rw [hslot, hview']
    exact Sound.settle _ _
  · intro o entry hentry hspent
    rw [hlookup, Option.bind_eq_some_iff] at hentry
    obtain ⟨old, -, hold⟩ := hentry
    split_ifs at hold with hold_spent
    rw [← Option.some.inj hold] at hspent
    exact absurd hspent hold_spent
  · funext o
    rw [cacheView, hslot, hview']
    exact reading_settle _ _

/-- The invariant is more than `SanityCheck` asserts. -/
theorem CacheInv.sanityCheck (h : CacheInv L cache) : SanityCheck cache := by
  refine ⟨?_, h.usage⟩
  rintro ⟨o, entry⟩ hmem
  have hsound := (h.writable (mem_pairs.mp hmem)).1
  have hvalue : (toEntry entry).value = if entry.coin.IsSpent then none else some entry.coin := rfl
  have hdirty : (toEntry entry).dirty = entry.dirty := rfl
  have hfresh : (toEntry entry).fresh = entry.fresh := rfl
  generalize toEntry entry = e at hsound hvalue hdirty hfresh
  generalize L.view cache.base o = below at hsound
  unfold attr
  dsimp only at hvalue hdirty hfresh ⊢
  cases hsound with
  | clean a =>
    split_ifs at hvalue with hspent
    simp [← hdirty, ← hfresh, hspent]
  | changed value below =>
    by_cases hspent : entry.coin.IsSpent <;> simp [← hdirty, ← hfresh, hspent]
  | added a =>
    split_ifs at hvalue with hspent
    simp [← hdirty, ← hfresh, hspent]

end Cache

/-! ### Two caches on a plain map -/

/-- A cache on a cache on a plain map. -/
abbrev Stack := CCoinsViewCache (CCoinsViewCache CoinsBase)

/-- Calls on the top cache, and `Flush` and `Sync` on either, with the order in which the entries are
visited. -/
inductive Op where
  | addCoin (outpoint : COutPoint) (coin : Coin) (memory : Nat) (possibleOverwrite : Bool)
  | spendCoin (outpoint : COutPoint)
  | getCoin (outpoint : COutPoint)
  | haveCoin (outpoint : COutPoint)
  | accessCoin (outpoint : COutPoint)
  | uncache (outpoint : COutPoint)
  | flushTop (order : List (COutPoint × CCoinsCacheEntry))
  | syncTop (order : List (COutPoint × CCoinsCacheEntry))
  | flushBottom (order : List (COutPoint × CCoinsCacheEntry))
  | syncBottom (order : List (COutPoint × CCoinsCacheEntry))

inductive Answer where
  | done
  | spent (moveout : Option Coin)
  | coin (found : Option Coin)
  | found (val : Bool)
  | access (coin : Coin)

section Stack

variable (mem : Memory)

abbrev lowerOps : ViewOps (CCoinsViewCache CoinsBase) := cacheOps mem (baseOps mem)

def exec (s : Stack) : Op → Except String (Stack × Answer)
  | .addCoin o coin memory possibleOverwrite =>
    (addCoin s o coin memory possibleOverwrite).map fun s => (s, .done)
  | .spendCoin o => .ok ((spendCoin (lowerOps mem) s o).1, .spent (spendCoin (lowerOps mem) s o).2)
  | .getCoin o =>
    .ok ((getCoin mem (lowerOps mem) s o).1, .coin ((getCoin mem (lowerOps mem) s o).2.map Prod.fst))
  | .haveCoin o => .ok ((haveCoin (lowerOps mem) s o).1, .found (haveCoin (lowerOps mem) s o).2)
  | .accessCoin o => .ok ((accessCoin (lowerOps mem) s o).1, .access (accessCoin (lowerOps mem) s o).2)
  | .uncache o => .ok (uncache s o, .done)
  | .flushTop order => (flush (lowerOps mem) s order).map fun s => (s, .done)
  | .syncTop order => (sync (lowerOps mem) s order).map fun s => (s, .done)
  | .flushBottom order =>
    (flush (baseOps mem) s.base order).map fun base => ({ s with base := base }, .done)
  | .syncBottom order =>
    (sync (baseOps mem) s.base order).map fun base => ({ s with base := base }, .done)

end Stack

def Op.apply (flat : Map COutPoint Coin) : Op → Map COutPoint Coin
  | .addCoin o coin _ _ => if Coin.IsDropped coin.out then flat else flat.insert o coin
  | .spendCoin o => flat.erase o
  | _ => flat

def Op.Answers (flat : Map COutPoint Coin) : Op → Answer → Prop
  | .getCoin o, a => a = .coin (flat.lookup o)
  | .haveCoin o, a => a = .found (flat.lookup o).isSome
  | .accessCoin o, a => a = .access ((flat.lookup o).getD coinEmpty)
  | .spendCoin o, a =>
    ∃ moveout, a = .spent moveout ∧ moveout.getD coinEmpty = (flat.lookup o).getD coinEmpty
  | _, a => a = .done

/-- Coins that are added are unspent, and new unless they may be overwritten; a cache is visited in
an order of its entries. -/
def Op.Allowed (s : Stack) (flat : Map COutPoint Coin) : Op → Prop
  | .addCoin o coin _ possibleOverwrite =>
    ¬ coin.IsSpent ∧ (possibleOverwrite = false → flat.lookup o = none)
  | .flushTop order | .syncTop order => Lists order s.cacheCoins
  | .flushBottom order | .syncBottom order => Lists order s.base.cacheCoins
  | _ => True

/-- The stack holds the invariants and reads like the plain map. -/
structure Represents (mem : Memory) (s : Stack) (flat : Map COutPoint Coin) : Prop where
  inv : CacheInv (cacheLawful mem (baseLawful mem)) s
  view : ∀ o, cacheView (cacheLawful mem (baseLawful mem)) s o = flat.lookup o

section Runs

variable {mem : Memory} {s s' : Stack} {flat : Map COutPoint Coin}

theorem represents_new {base : CoinsBase} (h : AllUnspent base.coins) :
    Represents mem (.new (.new base)) base.coins where
  inv := cacheInv_new (cacheInv_new h)
  view _ := rfl

theorem Represents.of_view_eq (h : Represents mem s flat)
    (hinv : CacheInv (cacheLawful mem (baseLawful mem)) s')
    (hview : cacheView (cacheLawful mem (baseLawful mem)) s' =
      cacheView (cacheLawful mem (baseLawful mem)) s) : Represents mem s' flat := by
  refine ⟨hinv, ?_⟩
  intro o
  rw [hview]
  exact h.view o

theorem Represents.rebase (h : Represents mem s flat) {base : CCoinsViewCache CoinsBase}
    (hbase : CacheInv (baseLawful mem) base)
    (hview : cacheView (baseLawful mem) base = cacheView (baseLawful mem) s.base) :
    Represents mem { s with base := base } flat := by
  have hview' : (cacheLawful mem (baseLawful mem)).view base =
      (cacheLawful mem (baseLawful mem)).view s.base := hview
  refine h.of_view_eq (h.inv.rebase hbase hview') ?_
  funext o
  show reading _ ((cacheLawful mem (baseLawful mem)).view base o) = _
  rw [hview']
  rfl

theorem Represents.addCoin (h : Represents mem s flat) {o : COutPoint} {coin : Coin} (memory : Nat)
    {possibleOverwrite : Bool} (hunspent : ¬ coin.IsSpent)
    (hnew : possibleOverwrite = false → flat.lookup o = none) :
    ∃ s', CoinsCache.addCoin s o coin memory possibleOverwrite = .ok s' ∧
      Represents mem s' (if Coin.IsDropped coin.out then flat else flat.insert o coin) := by
  obtain ⟨s', hadd, hcases⟩ := addCoin_spec h.inv o memory hunspent fun how =>
    (h.view o).trans (hnew how)
  refine ⟨s', hadd, ?_⟩
  rcases hcases with ⟨hdropped, rfl⟩ | ⟨hkept, hchanges⟩
  · rwa [if_pos hdropped]
  · rw [if_neg hkept]
    refine ⟨hchanges.inv, ?_⟩
    intro j
    by_cases hj : j = o
    · rw [hj, hchanges.view_self, Finmap.lookup_insert]
      rfl
    · rw [hchanges.view_other hj, Finmap.lookup_insert_of_ne _ hj]
      exact h.view j

theorem Represents.spendCoin (h : Represents mem s flat) (o : COutPoint) :
    Represents mem (CoinsCache.spendCoin (lowerOps mem) s o).1 (flat.erase o) ∧
      (CoinsCache.spendCoin (lowerOps mem) s o).2.getD coinEmpty = (flat.lookup o).getD coinEmpty := by
  obtain ⟨hchanges, hmoved⟩ := spendCoin_spec h.inv o
  refine ⟨⟨hchanges.inv, ?_⟩, ?_⟩
  · intro j
    by_cases hj : j = o
    · rw [hj, Finmap.lookup_erase]
      exact hchanges.view_self.trans (reading_remove_fetch (h.inv.sound o))
    · rw [Finmap.lookup_erase_ne hj]
      exact (hchanges.view_other hj).trans (h.view j)
  · rw [← h.view o]
    exact hmoved

theorem Represents.of_fetchCoin (h : Represents mem s flat) {o : COutPoint}
    (hs' : s' = (fetchCoin (lowerOps mem) s o).1) : Represents mem s' flat := by
  obtain ⟨hinv, hview⟩ := fetchCoin_keeps h.inv o
  rw [hs']
  exact h.of_view_eq hinv hview

theorem Represents.uncache (h : Represents mem s flat) (o : COutPoint) :
    Represents mem (CoinsCache.uncache s o) flat := by
  have hchanges := uncache_spec h.inv o
  exact h.of_view_eq hchanges.inv (hchanges.view_eq (reading_release (h.inv.sound o)))

/-- **Every call is that of the plain map**: it succeeds, answers the same and leaves a stack that reads
like the map after the call. -/
theorem Represents.exec (h : Represents mem s flat) (op : Op) (hop : op.Allowed s flat) :
    ∃ s' a, CoinsStack.exec mem s op = .ok (s', a) ∧ op.Answers flat a ∧
      Represents mem s' (op.apply flat) := by
  cases op with
  | addCoin o coin memory possibleOverwrite =>
    obtain ⟨s', hadd, hs'⟩ := h.addCoin memory hop.1 hop.2
    exact ⟨s', .done, by rw [CoinsStack.exec, hadd]; rfl, rfl, hs'⟩
  | spendCoin o =>
    obtain ⟨hs', hmoved⟩ := h.spendCoin o
    exact ⟨_, _, rfl, ⟨_, rfl, hmoved⟩, hs'⟩
  | getCoin o =>
    obtain ⟨hs', hfound⟩ := CoinsStack.getCoin_spec mem h.inv o
    exact ⟨_, _, rfl, congrArg Answer.coin (hfound.trans (h.view o)), h.of_fetchCoin hs'⟩
  | haveCoin o =>
    obtain ⟨hs', hfound⟩ := haveCoin_spec h.inv o
    rw [h.view o] at hfound
    exact ⟨_, _, rfl, congrArg Answer.found hfound, h.of_fetchCoin hs'⟩
  | accessCoin o =>
    obtain ⟨hs', hfound⟩ := accessCoin_spec h.inv o
    rw [h.view o] at hfound
    exact ⟨_, _, rfl, congrArg Answer.access hfound, h.of_fetchCoin hs'⟩
  | uncache o => exact ⟨_, .done, rfl, rfl, h.uncache o⟩
  | flushTop order =>
    obtain ⟨s', hflush, hinv, -, hview⟩ := flush_spec h.inv hop
    exact ⟨s', .done, by rw [CoinsStack.exec, hflush]; rfl, rfl, h.of_view_eq hinv hview⟩
  | syncTop order =>
    obtain ⟨s', hsync, hinv, -, hview⟩ := sync_spec h.inv hop
    exact ⟨s', .done, by rw [CoinsStack.exec, hsync]; rfl, rfl, h.of_view_eq hinv hview⟩
  | flushBottom order =>
    obtain ⟨base, hflush, hinv, -, hview⟩ := flush_spec h.inv.base hop
    exact ⟨_, .done, by rw [CoinsStack.exec, hflush]; rfl, rfl, h.rebase hinv hview⟩
  | syncBottom order =>
    obtain ⟨base, hsync, hinv, -, hview⟩ := sync_spec h.inv.base hop
    exact ⟨_, .done, by rw [CoinsStack.exec, hsync]; rfl, rfl, h.rebase hinv hview⟩

/-- Flushing the top cache and then the bottom one leaves the plain map in the base. -/
theorem Represents.flush_flush (h : Represents mem s flat)
    {order : List (COutPoint × CCoinsCacheEntry)} (horder : Lists order s.cacheCoins) :
    ∃ s', flush (lowerOps mem) s order = .ok s' ∧
      ∀ order', Lists order' s'.base.cacheCoins →
        ∃ cache, flush (baseOps mem) s'.base order' = .ok cache ∧ cache.base.coins = flat := by
  obtain ⟨s', hflush, hinv, hbelow, -⟩ := flush_spec h.inv horder
  refine ⟨s', hflush, ?_⟩
  intro order' horder'
  obtain ⟨cache, hflush', -, hbase, -⟩ := flush_spec hinv.base horder'
  refine ⟨cache, hflush', ?_⟩
  refine Finmap.ext_lookup fun o => ?_
  calc cache.base.coins.lookup o
      = cacheView (baseLawful mem) s'.base o := congrFun hbase o
    _ = cacheView (cacheLawful mem (baseLawful mem)) s o := congrFun hbelow o
    _ = flat.lookup o := h.view o

/-! ### The views of block validation -/

variable {Result : Type} {view view' : CCoinsView}

end Runs

/-! ### Runs -/

/-- The stacks that calls lead to from a base map with two empty caches, with the plain map after the
same calls. -/
inductive Reaches (mem : Memory) (base : CoinsBase) : Stack → Map COutPoint Coin → Prop
  | start : Reaches mem base (.new (.new base)) base.coins
  | step {s s' : Stack} {flat : Map COutPoint Coin} {a : Answer} (op : Op) :
    Reaches mem base s flat → op.Allowed s flat → exec mem s op = .ok (s', a) →
    Reaches mem base s' (op.apply flat)

theorem Reaches.represents {mem : Memory} {base : CoinsBase} (hbase : AllUnspent base.coins)
    {s : Stack} {flat : Map COutPoint Coin} (h : Reaches mem base s flat) : Represents mem s flat := by
  induction h with
  | start => exact represents_new hbase
  | step op hs hop hexec ih =>
    obtain ⟨s', a, hexec', -, hs'⟩ := ih.exec op hop
    rw [hexec] at hexec'
    cases hexec'
    exact hs'

/-- **A stack of two caches is a plain map**: after any calls the next one answers like the map,
both caches pass `SanityCheck`, and flushing both leaves the map in the base. -/
theorem stack_refines_map (mem : Memory) (base : CoinsBase) (hbase : AllUnspent base.coins)
    (s : Stack) (flat : Map COutPoint Coin) (h : Reaches mem base s flat) :
    (∀ op : Op, op.Allowed s flat → ∃ s' a, exec mem s op = .ok (s', a) ∧ op.Answers flat a) ∧
      SanityCheck s ∧ SanityCheck s.base ∧
      ∀ order, Lists order s.cacheCoins → ∃ s', flush (lowerOps mem) s order = .ok s' ∧
        ∀ order', Lists order' s'.base.cacheCoins →
          ∃ cache, flush (baseOps mem) s'.base order' = .ok cache ∧ cache.base.coins = flat := by
  have hrep := h.represents hbase
  refine ⟨?_, hrep.inv.sanityCheck, hrep.inv.base.sanityCheck, ?_⟩
  · intro op hop
    obtain ⟨s', a, hexec, hanswer, -⟩ := hrep.exec op hop
    exact ⟨s', a, hexec, hanswer⟩
  · intro order horder
    exact hrep.flush_flush horder

def sampleOutpoint : COutPoint := ⟨Uint256.null, 0⟩

def sampleCoin : Coin := .ofOut ⟨.ofAmount 5, .null, [], [0x51]⟩ 7 false

/-- A coin is added, written to the bottom cache and spent; the base never has it. -/
theorem stack_refines_map_added_synced_spent :
    AllUnspent ∅ ∧ ∃ s : Stack, Reaches ⟨fun _ => 0, fun _ _ => 0⟩ ⟨Uint256.null, ∅⟩ s
        (Op.apply (Op.apply (Op.apply ∅ (.addCoin sampleOutpoint sampleCoin 0 false)) (.syncTop
          [(sampleOutpoint, ⟨sampleCoin, 0, true, true⟩)])) (.spendCoin sampleOutpoint)) ∧
      SanityCheck s ∧ SanityCheck s.base := by
  have hbase : AllUnspent ∅ := by
    intro o coin hcoin
    cases hcoin
  have hadded := Reaches.step (.addCoin sampleOutpoint sampleCoin 0 false)
    (.start : Reaches ⟨fun _ => 0, fun _ _ => 0⟩ ⟨Uint256.null, ∅⟩ _ _) ⟨by decide, fun _ => rfl⟩ rfl
  have hsynced := hadded.step (.syncTop [(sampleOutpoint, ⟨sampleCoin, 0, true, true⟩)]) rfl rfl
  have hrun := hsynced.step (.spendCoin sampleOutpoint) trivial rfl
  have hmap := stack_refines_map _ _ hbase _ _ hrun
  exact ⟨hbase, _, hrun, hmap.2.1, hmap.2.2.1⟩

end Rcpu.CoinsStack
