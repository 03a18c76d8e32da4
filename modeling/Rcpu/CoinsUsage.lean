import Mathlib.Algebra.Order.BigOperators.Group.Multiset
import Rcpu.CoinsStack

/-!
# What the coins cache counts

`cachedCoinsUsage` is the sum of `Coin::DynamicMemoryUsage` over the entries of a cache, and that
function asks for the memory of `scriptPubKey` only.  A script is a `prevector<28, unsigned char>`: up
to 28 bytes live in the object itself, longer scripts on the heap.  The value, the nonce and the range
proof of an output are plain vectors, whose bytes are always on the heap and never counted.
-/

namespace Rcpu.CoinsUsage

open Checks WeightedMap Transaction Coins CoinsCache CoinsStack

/-! ### Buffers -/

/-- `memusage::MallocUsage` where pointers have eight bytes. -/
def MallocUsage (alloc : Nat) : Nat := if alloc = 0 then 0 else (alloc + 31) >>> 4 <<< 4

theorem mallocUsage_eq (alloc : Nat) :
    MallocUsage alloc = if alloc = 0 then 0 else (alloc + 31) / 16 * 16 := by
  rw [MallocUsage, Nat.shiftRight_eq_div_pow, Nat.shiftLeft_eq]

theorem add_sixteen_le_mallocUsage {alloc : Nat} (h : 0 < alloc) :
    alloc + 16 ≤ MallocUsage alloc := by
  rw [mallocUsage_eq, if_neg h.ne']
  omega

theorem mallocUsage_mono {alloc alloc' : Nat} (h : alloc ≤ alloc') :
    MallocUsage alloc ≤ MallocUsage alloc' := by
  rw [mallocUsage_eq, mallocUsage_eq]
  split_ifs with h0 h1
  · omega
  · omega
  · omega
  · exact Nat.mul_le_mul_right 16 (Nat.div_le_div_right (by omega))

/-- A `prevector<N, unsigned char>` without its contents: up to `N` bytes are in the object, `_size
- N - 1` in an allocated buffer otherwise. -/
inductive Prevector (N : Nat) where
  | direct (size : Nat) (fits : size ≤ N)
  | indirect (size capacity : Nat) (fits : size ≤ capacity) (large : N < capacity)

namespace Prevector

variable {N : Nat}

def size : Prevector N → Nat
  | direct size _ => size
  | indirect size _ _ _ => size

def capacity : Prevector N → Nat
  | direct _ _ => N
  | indirect _ capacity _ _ => capacity

def allocatedMemory : Prevector N → Nat
  | direct _ _ => 0
  | indirect _ capacity _ _ => capacity

/-- `memusage::DynamicUsage` of a prevector. -/
def dynamicUsage (v : Prevector N) : Nat := MallocUsage v.allocatedMemory

theorem le_capacity (v : Prevector N) : N ≤ v.capacity := by
  cases v with
  | direct size fits => exact le_rfl
  | indirect size capacity fits large => exact large.le

/-- `assign` of `n` bytes: a buffer that is large enough is kept. -/
def assign (v : Prevector N) (n : Nat) : Prevector N :=
  if h : v.capacity < n then indirect n n le_rfl (v.le_capacity.trans_lt h)
  else
    match v, Nat.not_lt.mp h with
    | direct _ _, hn => direct n hn
    | indirect _ capacity _ large, hn => indirect n capacity hn large

/-- The empty vector, and what `CScript::clear` leaves. -/
def empty : Prevector N := direct 0 N.zero_le

def ofSize (n : Nat) : Prevector N := empty.assign n

@[simp] theorem size_assign (v : Prevector N) (n : Nat) : (v.assign n).size = n := by
  unfold assign
  split_ifs with h
  · rfl
  · cases v with
    | direct size fits => rfl
    | indirect size capacity fits large => rfl

@[simp] theorem size_ofSize (n : Nat) : (ofSize n : Prevector N).size = n := size_assign empty n

theorem dynamicUsage_ofSize (n : Nat) :
    (ofSize n : Prevector N).dynamicUsage = if N < n then MallocUsage n else 0 := by
  unfold ofSize assign
  split_ifs with h h' h'
  · rfl
  · exact absurd h h'
  · exact absurd h' h
  · rfl

theorem dynamicUsage_assign (v : Prevector N) (n : Nat) :
    (v.assign n).dynamicUsage = max v.dynamicUsage (ofSize n : Prevector N).dynamicUsage := by
  rw [dynamicUsage_ofSize]
  unfold assign
  cases v with
  | direct size fits =>
    split_ifs with h h' h'
    · exact (Nat.zero_max _).symm
    · exact absurd h h'
    · exact absurd h' h
    · rfl
  | indirect size capacity fits large =>
    split_ifs with h h' h'
    · exact (max_eq_right (mallocUsage_mono (Nat.le_of_lt h))).symm
    · exact absurd (large.trans h) h'
    · exact (max_eq_left (mallocUsage_mono (Nat.not_lt.mp h))).symm
    · exact (Nat.max_zero _).symm

/-- Bytes that do not fit into the object are counted, with at least sixteen bytes of the allocator. -/
theorem size_add_sixteen_le {v : Prevector N} (h : N < v.size) : v.size + 16 ≤ v.dynamicUsage := by
  cases v with
  | direct size fits => exact absurd h (Nat.not_lt.mpr fits)
  | indirect size capacity fits large =>
    have hmalloc := add_sixteen_le_mallocUsage (Nat.zero_lt_of_lt large)
    exact (Nat.add_le_add_right fits 16).trans hmalloc

end Prevector

/-! ### Coins -/

abbrev CScriptBase := Prevector 28

/-- What `Coin::DynamicMemoryUsage` may return for a coin. -/
def Reports (coin : Coin) (memory : Nat) : Prop :=
  ∃ script : CScriptBase, script.size = coin.out.scriptPubKey.length ∧ memory = script.dynamicUsage

/-- A coin from a database is read into a new object; a copy is assigned to the object it replaces. -/
def scriptMemory : Memory where
  loaded coin := (Prevector.ofSize coin.out.scriptPubKey.length : CScriptBase).dynamicUsage
  copied before coin :=
    max before (Prevector.ofSize coin.out.scriptPubKey.length : CScriptBase).dynamicUsage

def scriptBytes (coin : Coin) : Nat :=
  if 28 < coin.out.scriptPubKey.length then coin.out.scriptPubKey.length else 0

/-- The bytes of the value, the nonce and the range proof. -/
def confidentialBytes (coin : Coin) : Nat :=
  coin.out.nValue.vchCommitment.length + coin.out.nNonce.vchCommitment.length +
    coin.out.vchRangeproof.length

def heapBytes (coin : Coin) : Nat := scriptBytes coin + confidentialBytes coin

theorem reports_coinEmpty : Reports coinEmpty 0 := ⟨Prevector.empty, rfl, rfl⟩

theorem reports_loaded (coin : Coin) : Reports coin (scriptMemory.loaded coin) :=
  ⟨_, Prevector.size_ofSize _, rfl⟩

theorem reports_copied {old : Coin} {before : Nat} (h : Reports old before) (coin : Coin) :
    Reports coin (scriptMemory.copied before coin) := by
  obtain ⟨script, -, rfl⟩ := h
  exact ⟨_, Prevector.size_assign script _, (Prevector.dynamicUsage_assign script _).symm⟩

/-- A buffer outside the object reports at least sixteen bytes more than the script has. -/
theorem Reports.add_sixteen_le {coin : Coin} {memory : Nat} (h : Reports coin memory)
    (hlong : 28 < coin.out.scriptPubKey.length) : scriptBytes coin + 16 ≤ memory := by
  obtain ⟨script, hsize, rfl⟩ := h
  rw [scriptBytes, if_pos hlong, ← hsize]
  exact Prevector.size_add_sixteen_le (hsize.symm ▸ hlong)

theorem Reports.scriptBytes_le {coin : Coin} {memory : Nat} (h : Reports coin memory) :
    scriptBytes coin ≤ memory := by
  by_cases hlong : 28 < coin.out.scriptPubKey.length
  · exact (Nat.le_add_right _ 16).trans (h.add_sixteen_le hlong)
  · rw [scriptBytes, if_neg hlong]
    exact Nat.zero_le _

/-! ### Caches -/

section Cache

variable {σ : Type} {cache cache' : CCoinsViewCache σ} {o : COutPoint} {entry : CCoinsCacheEntry}

structure Accounted (cache : CCoinsViewCache σ) : Prop where
  usage : sumOver (fun _ entry => entry.memory) cache.cacheCoins = cache.cachedCoinsUsage
  reports : ∀ o entry, cache.cacheCoins.lookup o = some entry → Reports entry.coin entry.memory

theorem accounted_new (base : σ) : Accounted (.new base) where
  usage := sumOver_empty
  reports o entry hentry := by simp [CCoinsViewCache.new] at hentry

theorem Accounted.insert (h : Accounted cache) (hentry : Reports entry.coin entry.memory) {usage : Nat}
    (husage : usage = cache.cachedCoinsUsage -
      ((cache.cacheCoins.lookup o).map CCoinsCacheEntry.memory).getD 0 + entry.memory) :
    Accounted { cache with
      cacheCoins := cache.cacheCoins.insert o entry
      cachedCoinsUsage := usage } where
  usage := (usage_insert h.usage o entry).trans husage.symm
  reports j old hold := by
    by_cases hj : j = o
    · rw [hj, Finmap.lookup_insert, Option.some.injEq] at hold
      exact hold ▸ hentry
    · rw [Finmap.lookup_insert_of_ne _ hj] at hold
      exact h.reports j old hold

theorem Accounted.erase (h : Accounted cache) (hentry : cache.cacheCoins.lookup o = some entry) :
    Accounted { cache with
      cacheCoins := cache.cacheCoins.erase o
      cachedCoinsUsage := cache.cachedCoinsUsage - entry.memory } where
  usage := usage_erase h.usage hentry
  reports j old hold := by
    by_cases hj : j = o
    · rw [hj, Finmap.lookup_erase] at hold
      cases hold
    · rw [Finmap.lookup_erase_ne hj] at hold
      exact h.reports j old hold

/-- The functions of a view keep a property of it, and the coins it hands out report what they may. -/
structure Keeps (ops : ViewOps σ) (R : σ → Prop) : Prop where
  getCoin : ∀ {s} o, R s → R (ops.getCoin s o).1 ∧
    ∀ coin memory, (ops.getCoin s o).2 = some (coin, memory) → Reports coin memory
  batchWrite : ∀ {s m order hashBlock erase s' left}, R s →
    (∀ e ∈ order, Reports e.2.coin e.2.memory) →
    ops.batchWrite s m order hashBlock erase = .ok (s', left) → R s'

theorem keeps_base : Keeps (baseOps scriptMemory) fun _ => True where
  getCoin {base} o _ := by
    refine ⟨trivial, ?_⟩
    intro coin memory hcoin
    obtain ⟨found, -, heq⟩ := Option.map_eq_some_iff.mp hcoin
    obtain ⟨rfl, rfl⟩ := Prod.mk.inj heq
    exact reports_loaded found
  batchWrite _ _ _ := trivial

structure Cached (R : σ → Prop) (cache : CCoinsViewCache σ) : Prop where
  own : Accounted cache
  below : R cache.base

variable {ops : ViewOps σ} {R : σ → Prop}

theorem Cached.fetchCoin (hops : Keeps ops R) (h : Cached R cache) (o : COutPoint) :
    Cached R (fetchCoin ops cache o).1 ∧ ∀ entry, (CoinsCache.fetchCoin ops cache o).2 = some entry →
      (CoinsCache.fetchCoin ops cache o).1.cacheCoins.lookup o = some entry := by
  unfold CoinsCache.fetchCoin
  cases hlookup : cache.cacheCoins.lookup o with
  | some entry =>
    refine ⟨h, ?_⟩
    rintro found ⟨⟩
    exact hlookup
  | none =>
    obtain ⟨hbase, hfound⟩ := hops.getCoin o h.below
    generalize ops.getCoin cache.base o = result at hbase hfound ⊢
    rcases result with ⟨base, _ | ⟨coin, memory⟩⟩
    · refine ⟨⟨⟨h.own.usage, h.own.reports⟩, hbase⟩, ?_⟩
      rintro found ⟨⟩
    · have hmoved : Accounted { cache with base := base } := ⟨h.own.usage, h.own.reports⟩
      refine ⟨⟨hmoved.insert (hfound coin memory rfl) ?_, hbase⟩, ?_⟩
      · rw [hlookup, Option.map_none, Option.getD_none, Nat.sub_zero]
      · rintro found ⟨⟩
        exact Finmap.lookup_insert cache.cacheCoins

theorem Cached.addCoin (h : Cached R cache) {coin : Coin} {memory : Nat} {possibleOverwrite : Bool}
    (hcoin : Reports coin memory)
    (hadd : CoinsCache.addCoin cache o coin memory possibleOverwrite = .ok cache') :
    Cached R cache' := by
  unfold CoinsCache.addCoin at hadd
  obtain ⟨-, hadd⟩ := bind_unit_eq_ok.mp hadd
  split_ifs at hadd with hdropped
  · cases hadd
    exact h
  · obtain ⟨-, hadd⟩ := bind_unit_eq_ok.mp hadd
    cases hadd
    refine ⟨h.own.insert hcoin ?_, h.below⟩
    rw [memory_getD]

theorem Cached.spendCoin (hops : Keeps ops R) (h : Cached R cache) (o : COutPoint) :
    Cached R (spendCoin ops cache o).1 := by
  obtain ⟨hfetched, hlookup⟩ := h.fetchCoin hops o
  unfold CoinsCache.spendCoin
  generalize CoinsCache.fetchCoin ops cache o = result at hfetched hlookup ⊢
  rcases result with ⟨fetched, _ | entry⟩
  · exact hfetched
  · dsimp only
    split_ifs with hfresh
    · exact ⟨hfetched.own.erase (hlookup entry rfl), hfetched.below⟩
    · refine ⟨hfetched.own.insert reports_coinEmpty ?_, hfetched.below⟩
      rw [hlookup entry rfl]
      rfl

theorem Cached.uncache (h : Cached R cache) (o : COutPoint) : Cached R (uncache cache o) := by
  unfold CoinsCache.uncache
  cases hlookup : cache.cacheCoins.lookup o with
  | none => exact h
  | some entry =>
    dsimp only
    split_ifs with hflags
    · exact h
    · exact ⟨h.own.erase hlookup, h.below⟩

theorem fst_getCoin (mem : Memory) (cache : CCoinsViewCache σ) (o : COutPoint) :
    (getCoin mem ops cache o).1 = (fetchCoin ops cache o).1 := by
  unfold getCoin
  split <;> simp_all

theorem fst_haveCoin (cache : CCoinsViewCache σ) (o : COutPoint) :
    (haveCoin ops cache o).1 = (fetchCoin ops cache o).1 := by
  unfold haveCoin
  split <;> simp_all

theorem fst_accessCoin (cache : CCoinsViewCache σ) (o : COutPoint) :
    (accessCoin ops cache o).1 = (fetchCoin ops cache o).1 := by
  unfold accessCoin
  split <;> simp_all

theorem reports_written {old : Coin} {before : Nat} (h : Reports old before) (erase : Bool)
    (hentry : Reports entry.coin entry.memory) :
    Reports entry.coin (scriptMemory.written erase before entry) := by
  unfold Memory.written
  split_ifs with herase
  · exact hentry
  · exact reports_copied h entry.coin

theorem Cached.writeEntry (h : Cached R cache) (erase : Bool)
    (hentry : Reports entry.coin entry.memory)
    (hwrite : writeEntry scriptMemory erase cache (o, entry) = .ok cache') : Cached R cache' := by
  unfold CoinsCache.writeEntry at hwrite
  dsimp only at hwrite
  by_cases hclean : (!entry.dirty) = true
  · rw [if_pos hclean] at hwrite
    cases hwrite
    exact h
  · rw [if_neg hclean] at hwrite
    cases hlookup : cache.cacheCoins.lookup o with
    | none =>
      rw [hlookup] at hwrite
      dsimp only at hwrite
      split_ifs at hwrite with hskip
      · cases hwrite
        exact h
      · cases hwrite
        refine ⟨h.own.insert (reports_written reports_coinEmpty erase hentry) ?_, h.below⟩
        rw [hlookup, Option.map_none, Option.getD_none, Nat.sub_zero]
    | some itUs =>
      rw [hlookup] at hwrite
      dsimp only at hwrite
      split_ifs at hwrite with hclash hgone
      · cases hwrite
        exact ⟨h.own.erase hlookup, h.below⟩
      · cases hwrite
        have hreports := reports_written (h.own.reports o itUs hlookup) erase hentry
        refine ⟨h.own.insert hreports ?_, h.below⟩
        rw [hlookup, Option.map_some, Option.getD_some]

theorem Cached.foldlM_writeEntry (h : Cached R cache) (erase : Bool)
    {order : List (COutPoint × CCoinsCacheEntry)} (horder : ∀ e ∈ order, Reports e.2.coin e.2.memory)
    (hwrite : order.foldlM (CoinsCache.writeEntry scriptMemory erase) cache = .ok cache') :
    Cached R cache' := by
  induction order generalizing cache with
  | nil =>
    cases hwrite
    exact h
  | cons e order ih =>
    rw [List.foldlM_cons] at hwrite
    obtain ⟨mid, hmid, hrest⟩ := bind_eq_ok.mp hwrite
    have hstep := h.writeEntry erase (horder e List.mem_cons_self) hmid
    exact ih hstep (fun e he => horder e (List.mem_cons_of_mem _ he)) hrest

/-- A cache keeps what the view below it keeps, and its own usage. -/
theorem Keeps.onCache (hops : Keeps ops R) : Keeps (cacheOps scriptMemory ops) (Cached R) where
  getCoin {cache} o h := by
    obtain ⟨hfetched, hlookup⟩ := h.fetchCoin hops o
    refine ⟨?_, ?_⟩
    · show Cached R (CoinsCache.getCoin scriptMemory ops cache o).1
      rw [fst_getCoin]
      exact hfetched
    · intro coin memory hcoin
      have hget : (CoinsCache.getCoin scriptMemory ops cache o).2 = some (coin, memory) := hcoin
      unfold CoinsCache.getCoin at hget
      generalize CoinsCache.fetchCoin ops cache o = result at hfetched hlookup hget
      rcases result with ⟨fetched, _ | entry⟩
      · cases hget
      · dsimp only at hget
        split_ifs at hget with hspent
        cases hget
        exact reports_copied reports_coinEmpty entry.coin
  batchWrite {cache m order hashBlock erase cache' left} h horder hwrite := by
    have hbatch : CoinsCache.batchWrite scriptMemory cache m order hashBlock erase =
        .ok (cache', left) := hwrite
    obtain ⟨written, hloop, hresult⟩ := bind_eq_ok.mp hbatch
    cases hresult
    have hwritten := h.foldlM_writeEntry erase horder hloop
    exact ⟨⟨hwritten.own.usage, hwritten.own.reports⟩, hwritten.below⟩

variable {order : List (COutPoint × CCoinsCacheEntry)}

theorem Accounted.listed (h : Accounted cache) (horder : Lists order cache.cacheCoins) :
    ∀ e ∈ order, Reports e.2.coin e.2.memory :=
  fun e he => h.reports e.1 e.2 (horder.mem_iff.mp he)

theorem Cached.flush (hops : Keeps ops R) (h : Cached R cache) (horder : Lists order cache.cacheCoins)
    (hflush : flush ops cache order = .ok cache') : Cached R cache' := by
  obtain ⟨⟨base, left⟩, hwrite, hrest⟩ := bind_eq_ok.mp hflush
  obtain ⟨-, hresult⟩ := bind_unit_eq_ok.mp hrest
  cases hresult
  have hnew := accounted_new base
  exact ⟨⟨hnew.usage, hnew.reports⟩, hops.batchWrite h.below (h.own.listed horder) hwrite⟩

theorem Cached.sync (hops : Keeps ops R) (h : Cached R cache) (horder : Lists order cache.cacheCoins)
    (hsync : sync ops cache order = .ok cache') : Cached R cache' := by
  obtain ⟨⟨base, left⟩, hwrite, hresult⟩ := bind_eq_ok.mp hsync
  cases hresult
  obtain ⟨hbase, husage, hlookup⟩ :=
    @foldl_settleEntry σ { cache with base := base } order h.own.usage horder
  refine ⟨⟨husage, ?_⟩, ?_⟩
  · intro o entry hentry
    rw [hlookup, Option.bind_eq_some_iff] at hentry
    obtain ⟨old, hold, hsettled⟩ := hentry
    split_ifs at hsettled with hspent
    cases hsettled
    exact h.own.reports o old hold
  · rw [hbase]
    exact hops.batchWrite h.below (h.own.listed horder) hwrite

end Cache

/-! ### Runs -/

/-- How the calls may be used: a coin that is added reports what it may, and a cache is visited in an
order of its entries. -/
def Admissible (s : Stack) : Op → Prop
  | .addCoin _ coin memory _ => Reports coin memory
  | .flushTop order | .syncTop order => Lists order s.cacheCoins
  | .flushBottom order | .syncBottom order => Lists order s.base.cacheCoins
  | _ => True

inductive Runs (base : CoinsBase) : Stack → Prop
  | start : Runs base (.new (.new base))
  | step {s s' : Stack} {a : Answer} (op : Op) : Runs base s → Admissible s op →
    exec scriptMemory s op = .ok (s', a) → Runs base s'

abbrev BothCached : Stack → Prop := Cached (Cached fun _ => True)

theorem map_done_eq_ok {α : Type} {x : Except String α} {f : α → Stack} {s' : Stack} {a : Answer}
    (h : x.map (fun r => (f r, Answer.done)) = .ok (s', a)) : ∃ r, x = .ok r ∧ s' = f r := by
  cases x with
  | error e => cases h
  | ok r =>
    cases h
    exact ⟨r, rfl, rfl⟩

theorem Cached.exec {s s' : Stack} {a : Answer} (h : BothCached s) (op : Op) (hop : Admissible s op)
    (hexec : exec scriptMemory s op = .ok (s', a)) : BothCached s' := by
  have hlower : Keeps (lowerOps scriptMemory) (Cached fun _ => True) := keeps_base.onCache
  cases op with
  | addCoin o coin memory possibleOverwrite =>
    obtain ⟨s'', hadd, rfl⟩ := map_done_eq_ok hexec
    exact h.addCoin hop hadd
  | spendCoin o =>
    cases hexec
    exact h.spendCoin hlower o
  | getCoin o =>
    cases hexec
    rw [fst_getCoin]
    exact (h.fetchCoin hlower o).1
  | haveCoin o =>
    cases hexec
    rw [fst_haveCoin]
    exact (h.fetchCoin hlower o).1
  | accessCoin o =>
    cases hexec
    rw [fst_accessCoin]
    exact (h.fetchCoin hlower o).1
  | uncache o =>
    cases hexec
    exact h.uncache o
  | flushTop order =>
    obtain ⟨s'', hflush, rfl⟩ := map_done_eq_ok hexec
    exact h.flush hlower hop hflush
  | syncTop order =>
    obtain ⟨s'', hsync, rfl⟩ := map_done_eq_ok hexec
    exact h.sync hlower hop hsync
  | flushBottom order =>
    obtain ⟨base, hflush, rfl⟩ := map_done_eq_ok (f := fun base => { s with base := base }) hexec
    exact ⟨⟨h.own.usage, h.own.reports⟩, h.below.flush keeps_base hop hflush⟩
  | syncBottom order =>
    obtain ⟨base, hsync, rfl⟩ := map_done_eq_ok (f := fun base => { s with base := base })
      (x := CoinsCache.sync (baseOps scriptMemory) s.base order) hexec
    exact ⟨⟨h.own.usage, h.own.reports⟩, h.below.sync keeps_base hop hsync⟩

theorem Runs.bothCached {base : CoinsBase} {s : Stack} (h : Runs base s) : BothCached s := by
  induction h with
  | start => exact ⟨accounted_new _, accounted_new _, trivial⟩
  | step op hs hop hexec ih => exact ih.exec op hop hexec

/-! ### The bound -/

def held (f : CCoinsCacheEntry → Nat) (m : CCoinsMap) : Nat := sumOver (fun _ entry => f entry) m

/-- What a coin reports beyond the bytes of its script: the rounding of the allocator, and the spare
capacity of the buffer. -/
def spare (entry : CCoinsCacheEntry) : Nat := entry.memory - scriptBytes entry.coin

theorem held_add (f g : CCoinsCacheEntry → Nat) (m : CCoinsMap) :
    held (fun entry => f entry + g entry) m = held f m + held g m :=
  Multiset.sum_map_add

theorem held_heapBytes (m : CCoinsMap) : held (fun entry => heapBytes entry.coin) m =
    held (fun entry => scriptBytes entry.coin) m + held (fun entry => confidentialBytes entry.coin) m :=
  held_add _ _ m

theorem Accounted.usage_eq {σ : Type} {cache : CCoinsViewCache σ} (h : Accounted cache) :
    cache.cachedCoinsUsage =
      held (fun entry => scriptBytes entry.coin) cache.cacheCoins + held spare cache.cacheCoins := by
  rw [← h.usage, ← held_add]
  refine congrArg Multiset.sum (Multiset.map_congr rfl ?_)
  rintro ⟨o, entry⟩ hentry
  have hreports := (h.reports o entry (mem_pairs.mp hentry)).scriptBytes_le
  exact (Nat.add_sub_cancel' hreports).symm

/-- The scripts are covered, and the other vectors as far as they fit into what is spare. -/
theorem Accounted.covers_iff {σ : Type} {cache : CCoinsViewCache σ} (h : Accounted cache) :
    held (fun entry => scriptBytes entry.coin) cache.cacheCoins ≤ cache.cachedCoinsUsage ∧
      (held (fun entry => heapBytes entry.coin) cache.cacheCoins ≤ cache.cachedCoinsUsage ↔
        held (fun entry => confidentialBytes entry.coin) cache.cacheCoins ≤
          held spare cache.cacheCoins) := by
  rw [h.usage_eq, held_heapBytes]
  exact ⟨Nat.le_add_right _ _, Nat.add_le_add_iff_left⟩

theorem Accounted.covers_of_long {σ : Type} {cache : CCoinsViewCache σ} (h : Accounted cache)
    (hlong : ∀ o entry, cache.cacheCoins.lookup o = some entry →
      28 < entry.coin.out.scriptPubKey.length ∧ confidentialBytes entry.coin ≤ 16) :
    held (fun entry => heapBytes entry.coin) cache.cacheCoins ≤ cache.cachedCoinsUsage := by
  rw [← h.usage]
  refine Multiset.sum_map_le_sum_map _ _ ?_
  rintro ⟨o, entry⟩ hentry
  have hlookup := mem_pairs.mp hentry
  obtain ⟨hscript, hrest⟩ := hlong o entry hlookup
  have hreports := (h.reports o entry hlookup).add_sixteen_le hscript
  show heapBytes entry.coin ≤ entry.memory
  unfold heapBytes
  omega

def caches (s : Stack) : List (CCoinsMap × Nat) :=
  [(s.cacheCoins, s.cachedCoinsUsage), (s.base.cacheCoins, s.base.cachedCoinsUsage)]

def taprootCoin : Coin :=
  .ofOut ⟨.ofAmount 5, .null, [], 0x51 :: 0x20 :: List.replicate 32 7⟩ 7 false

def oneAdded (coin : Coin) (memory : Nat) : Stack :=
  { CCoinsViewCache.new (CCoinsViewCache.new ⟨Uint256.null, ∅⟩) with
    cacheCoins := Finmap.insert sampleOutpoint ⟨coin, memory, true, true⟩ ∅
    cachedCoinsUsage := memory }

theorem runs_oneAdded {coin : Coin} {memory : Nat} (hcoin : coin.Storable)
    (hmemory : Reports coin memory) : Runs ⟨Uint256.null, ∅⟩ (oneAdded coin memory) := by
  refine .step (a := .done) (.addCoin sampleOutpoint coin memory false) .start hmemory ?_
  have hadd : addCoin (CCoinsViewCache.new (CCoinsViewCache.new (⟨Uint256.null, ∅⟩ : CoinsBase)))
      sampleOutpoint coin memory false = .ok (oneAdded coin memory) := by
    rw [addCoin, if_neg hcoin.2]
    refine bind_unit_eq_ok.mpr ⟨require_eq_ok.mpr hcoin.1, bind_unit_eq_ok.mpr ⟨?_, ?_⟩⟩
    · exact require_eq_ok.mpr (.inr isSpent_coinEmpty)
    · simp [oneAdded, CCoinsViewCache.new, pure, Except.pure]
  rw [exec, hadd]
  rfl

theorem held_oneAdded (f : CCoinsCacheEntry → Nat) (coin : Coin) (memory : Nat) :
    held f (oneAdded coin memory).cacheCoins = f ⟨coin, memory, true, true⟩ := by
  show sumOver (fun _ entry => f entry) (Finmap.insert _ _ _) = _
  rw [sumOver_insert (Finmap.lookup_empty sampleOutpoint), sumOver_empty, Nat.add_zero]

def confidentialCoin : Coin :=
  .ofOut ⟨⟨0x08 :: List.replicate 32 1⟩, ⟨0x02 :: List.replicate 32 1⟩,
    List.replicate MAX_RANGEPROOF_SIZE 0, 0x00 :: 0x14 :: List.replicate 20 7⟩ 7 false

end Rcpu.CoinsUsage
