import OpenWindows.Lib.Memory

/-!
# The block cache

`owcache64.c`: a table of slots, each with a block of data in a buffer.  A lookup
that hits and an insert stamp the slot with a clock, and when the table is full the
slot with the smallest stamp is given up.
-/

namespace Cache

open Memory

/-- `owcache_entry_t` -/
structure Entry where
  blockIndex : Nat
  valid : Bool
  dirty : Bool
  lastUsed : Nat
  data : Nat

/-- `owcache_t` -/
structure Owcache where
  entries : Nat → Entry
  capacity : Nat
  buffer : Nat
  blockSize : Nat
  clock : Nat
  hits : Nat
  misses : Nat
  evictions : Nat
  flushes : Nat
  initialized : Bool

/-- `x++` on a `uint64_t`. -/
def inc64 (x : Nat) : Nat := (x + 1) % 2 ^ 64

/-- Change one entry of the table. -/
def Owcache.setEntry (c : Owcache) (slot : Nat) (e : Entry) : Owcache :=
  { c with entries := fun i => if i = slot then e else c.entries i }

/-- `cache_find`; a slot of `-1` is `none`. -/
def cacheFind (c : Owcache) (blockIndex : Nat) : Option Nat :=
  (List.range c.capacity).find? fun i =>
    (c.entries i).valid && (c.entries i).blockIndex == blockIndex

/-- `cache_free_slot` -/
def cacheFreeSlot (c : Owcache) : Option Nat :=
  (List.range c.capacity).find? fun i => !(c.entries i).valid

/-- One turn of the loop of `cache_lru_slot`; `oldest` is the stamp of the victim. -/
def lruTurn (c : Owcache) (victim : Option Nat) (i : Nat) : Option Nat :=
  if (c.entries i).valid then
    match victim with
    | none => some i
    | some v => if (c.entries i).lastUsed < (c.entries v).lastUsed then some i else some v
  else victim

/-- `cache_lru_slot` -/
def cacheLruSlot (c : Owcache) : Option Nat := (List.range c.capacity).foldl (lruTurn c) none

/-- `cache_copy`; `src` are the caller's bytes. -/
def cacheCopy (m : Mem) (dst : Nat) (src : Nat → UInt8) (bytes : Nat) : Mem :=
  store m dst ((List.range bytes).map src)

/-- `owcache_init` -/
def owcacheInit (c : Owcache) (capacity buffer blockSize : Nat) : Owcache × Bool :=
  if buffer = 0 then (c, false)
  else if capacity = 0 ∨ blockSize = 0 then (c, false)
  else
    ({ entries := fun i =>
        if i < capacity then
          { blockIndex := 0, valid := false, dirty := false, lastUsed := 0
            data := buffer + i * blockSize }
        else c.entries i
       capacity := capacity, buffer := buffer, blockSize := blockSize, clock := 0, hits := 0
       misses := 0, evictions := 0, flushes := 0, initialized := true }, true)

/-- `owcache_lookup` -/
def owcacheLookup (c : Owcache) (blockIndex : Nat) : Owcache × Option Nat :=
  if c.initialized = false then (c, none)
  else
    match cacheFind c blockIndex with
    | none => ({ c with misses := inc64 c.misses }, none)
    | some slot =>
      let clock := inc64 c.clock
      ({ c.setEntry slot { c.entries slot with lastUsed := clock } with
          clock := clock, hits := inc64 c.hits }, some slot)

/-- `owcache_evict` -/
def owcacheEvict (c : Owcache) : Owcache × Option Nat :=
  if c.initialized = false then (c, none)
  else
    match cacheLruSlot c with
    | none => (c, none)
    | some slot =>
      ({ c.setEntry slot { c.entries slot with valid := false, dirty := false, lastUsed := 0 } with
          evictions := inc64 c.evictions }, some slot)

def insertSlot (c : Owcache) (blockIndex : Nat) : Owcache × Option Nat :=
  match cacheFind c blockIndex with
  | some slot => (c, some slot)
  | none =>
    match cacheFreeSlot c with
    | some slot => (c, some slot)
    | none => owcacheEvict c

/-- `owcache_insert`; `data` is `none` for a null pointer. -/
def owcacheInsert (m : Mem) (c : Owcache) (blockIndex : Nat) (data : Option (Nat → UInt8))
    (dirty : Bool) : Mem × Owcache × Option Nat :=
  match data with
  | none => (m, c, none)
  | some data =>
    if c.initialized = false then (m, c, none)
    else
      match insertSlot c blockIndex with
      | (c, none) => (m, c, none)
      | (c, some slot) =>
        let entry := c.entries slot
        let clock := inc64 c.clock
        (cacheCopy m entry.data data c.blockSize,
          { c.setEntry slot
              { entry with
                blockIndex := blockIndex, valid := true, dirty := dirty, lastUsed := clock } with
            clock := clock }, some slot)

/-! ## The searches -/

variable {c : Owcache} {b i j : Nat}

theorem cacheFind_some (h : cacheFind c b = some i) :
    i < c.capacity ∧ (c.entries i).valid = true ∧ (c.entries i).blockIndex = b := by
  have hmem := List.mem_of_find?_eq_some h
  have hp := List.find?_some h
  simp only [Bool.and_eq_true, beq_iff_eq] at hp
  exact ⟨List.mem_range.mp hmem, hp.1, hp.2⟩

theorem cacheFind_none (h : cacheFind c b = none) (hi : i < c.capacity)
    (hv : (c.entries i).valid = true) : (c.entries i).blockIndex ≠ b := by
  intro hb
  have hp := List.find?_eq_none.mp h i (List.mem_range.mpr hi)
  simp [hv, hb] at hp

theorem cacheFreeSlot_some (h : cacheFreeSlot c = some i) :
    i < c.capacity ∧ (c.entries i).valid = false := by
  have hmem := List.mem_of_find?_eq_some h
  have hp := List.find?_some h
  exact ⟨List.mem_range.mp hmem, by simpa using hp⟩

theorem cacheFreeSlot_none (h : cacheFreeSlot c = none) (hi : i < c.capacity) :
    (c.entries i).valid = true := by
  simpa using List.find?_eq_none.mp h i (List.mem_range.mpr hi)

/-- The victim among the first `n` slots has the smallest stamp of the valid ones. -/
def Oldest (c : Owcache) (n : Nat) : Option Nat → Prop
  | none => ∀ i < n, (c.entries i).valid = false
  | some v => v < n ∧ (c.entries v).valid = true ∧
      ∀ i < n, (c.entries i).valid = true → (c.entries v).lastUsed ≤ (c.entries i).lastUsed

theorem Oldest.turn {n : Nat} {victim : Option Nat} (h : Oldest c n victim) :
    Oldest c (n + 1) (lruTurn c victim n) := by
  unfold lruTurn
  cases hn : (c.entries n).valid with
  | false =>
    rw [if_neg (by decide)]
    cases victim with
    | none =>
      intro i hi
      rcases Nat.lt_succ_iff_lt_or_eq.mp hi with hi | rfl
      · exact h i hi
      · exact hn
    | some v =>
      obtain ⟨hlt, hvalid, hmin⟩ := h
      refine ⟨Nat.lt_succ_of_lt hlt, hvalid, fun i hi hvi => ?_⟩
      rcases Nat.lt_succ_iff_lt_or_eq.mp hi with hi | rfl
      · exact hmin i hi hvi
      · rw [hn] at hvi
        cases hvi
  | true =>
    rw [if_pos rfl]
    cases victim with
    | none =>
      refine ⟨Nat.lt_succ_self n, hn, fun i hi hvi => ?_⟩
      rcases Nat.lt_succ_iff_lt_or_eq.mp hi with hi | rfl
      · rw [h i hi] at hvi
        cases hvi
      · exact Nat.le_refl _
    | some v =>
      obtain ⟨hlt, hvalid, hmin⟩ := h
      dsimp only
      split
      next hless =>
        refine ⟨Nat.lt_succ_self n, hn, fun i hi hvi => ?_⟩
        rcases Nat.lt_succ_iff_lt_or_eq.mp hi with hi | rfl
        · exact Nat.le_trans (Nat.le_of_lt hless) (hmin i hi hvi)
        · exact Nat.le_refl _
      next hless =>
        refine ⟨Nat.lt_succ_of_lt hlt, hvalid, fun i hi hvi => ?_⟩
        rcases Nat.lt_succ_iff_lt_or_eq.mp hi with hi | rfl
        · exact hmin i hi hvi
        · exact Nat.le_of_not_lt hless

theorem oldest_cacheLruSlot (c : Owcache) : Oldest c c.capacity (cacheLruSlot c) := by
  unfold cacheLruSlot
  induction c.capacity with
  | zero => exact fun i hi => absurd hi (Nat.not_lt_zero i)
  | succ n ih =>
    rw [List.range_succ, List.foldl_concat]
    exact ih.turn

/-! ## The slot of an insert -/

/-- A cache that differs in one entry at most, whose data stays in place. -/
structure OneEntry (c c' : Owcache) (s : Nat) : Prop where
  initialized : c'.initialized = c.initialized
  capacity : c'.capacity = c.capacity
  buffer : c'.buffer = c.buffer
  blockSize : c'.blockSize = c.blockSize
  clock : c'.clock = c.clock
  other : ∀ {i}, i ≠ s → c'.entries i = c.entries i
  data : (c'.entries s).data = (c.entries s).data

theorem OneEntry.refl (c : Owcache) (s : Nat) : OneEntry c c s :=
  ⟨rfl, rfl, rfl, rfl, rfl, fun _ => rfl, rfl⟩

/-- The slot an insert takes, and the cache it finds there. -/
inductive Chosen (c : Owcache) (b : Nat) : Owcache → Nat → Prop where
  | found {s : Nat} : cacheFind c b = some s → Chosen c b c s
  | free {s : Nat} : cacheFind c b = none → cacheFreeSlot c = some s → Chosen c b c s
  | evicted {s : Nat} : cacheFind c b = none → cacheFreeSlot c = none →
      cacheLruSlot c = some s → Chosen c b (owcacheEvict c).1 s

theorem owcacheEvict_eq (hinit : c.initialized = true) {s : Nat} (h : cacheLruSlot c = some s) :
    owcacheEvict c =
      ({ c.setEntry s { c.entries s with valid := false, dirty := false, lastUsed := 0 } with
          evictions := inc64 c.evictions }, some s) := by
  rw [owcacheEvict, hinit, h]
  rfl

theorem insertSlot_chosen (hinit : c.initialized = true) (hpos : 0 < c.capacity) (b : Nat) :
    ∃ c' s, insertSlot c b = (c', some s) ∧ Chosen c b c' s := by
  unfold insertSlot
  cases hfind : cacheFind c b with
  | some s => exact ⟨c, s, rfl, .found hfind⟩
  | none =>
    cases hfree : cacheFreeSlot c with
    | some s => exact ⟨c, s, rfl, .free hfind hfree⟩
    | none =>
      have hold := oldest_cacheLruSlot c
      cases hlru : cacheLruSlot c with
      | none =>
        rw [hlru] at hold
        have := hold 0 hpos
        rw [cacheFreeSlot_none hfree hpos] at this
        cases this
      | some s =>
        have hevict : (owcacheEvict c).2 = some s :=
          congrArg Prod.snd (owcacheEvict_eq hinit hlru)
        exact ⟨(owcacheEvict c).1, s, Prod.ext rfl hevict, .evicted hfind hfree hlru⟩

theorem Chosen.lt {c' : Owcache} {s : Nat} (h : Chosen c b c' s) : s < c.capacity := by
  cases h with
  | found hfind => exact (cacheFind_some hfind).1
  | free _ hfree => exact (cacheFreeSlot_some hfree).1
  | evicted _ _ hlru =>
    have hold := oldest_cacheLruSlot c
    rw [hlru] at hold
    exact hold.1

theorem Chosen.oneEntry {c' : Owcache} {s : Nat} (hinit : c.initialized = true)
    (h : Chosen c b c' s) : OneEntry c c' s := by
  cases h with
  | found | free => exact .refl c s
  | evicted _ _ hlru =>
    rw [owcacheEvict_eq hinit hlru]
    refine ⟨rfl, rfl, rfl, rfl, rfl, fun his => if_neg his, ?_⟩
    simp [Owcache.setEntry]

end Cache
