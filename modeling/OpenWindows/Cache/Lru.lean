import Mathlib.Tactic.IntervalCases
import OpenWindows.Lib.Recency
import OpenWindows.Lib.StepSystem
import OpenWindows.Cache.Owcache

/-!
# The cache keeps the most recent blocks

A run of lookups and inserts is followed by the list of the blocks that were
inserted or hit, the most recent first, and by what was last stored for each of
them.  As long as the clock does not wrap, the slots of the table in the order of
their stamps are the first `capacity` blocks of this list.
-/

namespace Cache

open Memory Recency StepSystem

/-- A cache, the memory, the blocks that were inserted or hit, and the data last
inserted for each block. -/
structure CacheUse where
  mem : Mem
  cache : Owcache
  touched : List Nat
  stored : Nat → List UInt8

/-- The calls. -/
inductive CacheOp where
  | lookup (blockIndex : Nat)
  | insert (blockIndex : Nat) (data : Option (Nat → UInt8)) (dirty : Bool)

def CacheOp.block : CacheOp → Nat
  | .lookup b => b
  | .insert b _ _ => b

/-- One call. -/
def CacheUse.next (u : CacheUse) : CacheOp → CacheUse
  | .lookup b =>
    let r := owcacheLookup u.cache b
    { u with cache := r.1, touched := if r.2.isSome then touch u.touched b else u.touched }
  | .insert b data dirty =>
    let r := owcacheInsert u.mem u.cache b data dirty
    { mem := r.1
      cache := r.2.1
      touched := if r.2.2.isSome then touch u.touched b else u.touched
      stored := fun b' =>
        match data with
        | some data =>
          if r.2.2.isSome ∧ b' = b then (List.range u.cache.blockSize).map data
          else u.stored b'
        | none => u.stored b' }

def CacheUse.blockData (u : CacheUse) (i : Nat) : List UInt8 :=
  load u.mem (u.cache.entries i).data u.cache.blockSize

/-- The cache is the one that keeps the `capacity` most recent blocks. -/
structure CacheUse.KeepsRecent (u : CacheUse) : Prop where
  distinct : ∀ i < u.cache.capacity, ∀ j < u.cache.capacity, (u.cache.entries i).valid = true →
    (u.cache.entries j).valid = true →
    (u.cache.entries i).blockIndex = (u.cache.entries j).blockIndex → i = j
  present : ∀ b, (∃ i < u.cache.capacity, (u.cache.entries i).valid = true ∧
    (u.cache.entries i).blockIndex = b) ↔ b ∈ u.touched.take u.cache.capacity
  hit : ∀ b i, (owcacheLookup u.cache b).2 = some i → u.blockData i = u.stored b

/-- A call changes neither the entry nor the data of a block other than its own. -/
def CacheUse.KeepsOthers (u : CacheUse) (op : CacheOp) : Prop :=
  ∀ i < u.cache.capacity, ((u.next op).cache.entries i).valid = true →
    ((u.next op).cache.entries i).blockIndex ≠ op.block →
    (u.next op).cache.entries i = u.cache.entries i ∧ (u.next op).blockData i = u.blockData i

/-- The slots in use, the most recently stamped first. -/
structure Ranked (u : CacheUse) (order : List Nat) : Prop where
  initialized : u.cache.initialized = true
  pos : 0 < u.cache.capacity
  place : ∀ {i}, i < u.cache.capacity →
    (u.cache.entries i).data = u.cache.buffer + i * u.cache.blockSize
  slots : ∀ {i}, i ∈ order ↔ i < u.cache.capacity ∧ (u.cache.entries i).valid = true
  stamps : order.Pairwise fun i j => (u.cache.entries j).lastUsed < (u.cache.entries i).lastUsed
  clock : ∀ {i}, i ∈ order → (u.cache.entries i).lastUsed ≤ u.cache.clock
  blocks : order.map (fun i => (u.cache.entries i).blockIndex) = u.touched.take u.cache.capacity
  touched : u.touched.Nodup
  data : ∀ {i}, i ∈ order → u.blockData i = u.stored (u.cache.entries i).blockIndex

variable {u u' : CacheUse} {op : CacheOp} {order : List Nat} {s b : Nat}

theorem Ranked.nodup (h : Ranked u order) : order.Nodup := by
  refine h.stamps.imp ?_
  rintro i j hlt rfl
  exact Nat.lt_irrefl _ hlt

theorem Ranked.blocks_nodup (h : Ranked u order) :
    (order.map fun i => (u.cache.entries i).blockIndex).Nodup := by
  rw [h.blocks]
  exact h.touched.sublist (List.take_sublist ..)

theorem Ranked.length_le (h : Ranked u order) : order.length ≤ u.cache.capacity := by
  have hsub : order ⊆ List.range u.cache.capacity :=
    fun i hi => List.mem_range.mpr (h.slots.mp hi).1
  have := (h.nodup.subperm hsub).length_le
  rwa [List.length_range] at this

variable {c : Owcache} {i : Nat}

theorem place_apart
    (h : ∀ {i}, i < c.capacity → (c.entries i).data = c.buffer + i * c.blockSize) {j : Nat}
    (hi : i < c.capacity) (hj : j < c.capacity) (hij : i ≠ j) :
    (c.entries i).data + c.blockSize ≤ (c.entries j).data ∨
      (c.entries j).data + c.blockSize ≤ (c.entries i).data := by
  rw [h hi, h hj]
  have := mul_apart hij c.blockSize
  omega

/-- Slot `s` holds block `b` with the newest stamp. -/
structure Stamped (u u' : CacheUse) (s b : Nat) : Prop where
  initialized : u'.cache.initialized = u.cache.initialized
  capacity : u'.cache.capacity = u.cache.capacity
  buffer : u'.cache.buffer = u.cache.buffer
  blockSize : u'.cache.blockSize = u.cache.blockSize
  clock : u'.cache.clock = inc64 u.cache.clock
  other : ∀ {i}, i ≠ s → u'.cache.entries i = u.cache.entries i
  valid : (u'.cache.entries s).valid = true
  block : (u'.cache.entries s).blockIndex = b
  lastUsed : (u'.cache.entries s).lastUsed = inc64 u.cache.clock
  data : (u'.cache.entries s).data = (u.cache.entries s).data
  mem : SameOn (fun x => ¬ Span (u.cache.entries s).data
    ((u.cache.entries s).data + u.cache.blockSize) x) u.mem u'.mem
  touched : u'.touched = touch u.touched b
  stored : u'.blockData s = u'.stored b
  storedOther : ∀ {b'}, b' ≠ b → u'.stored b' = u.stored b'

theorem Stamped.blockData_eq (h : Stamped u u' s b)
    (hplace : ∀ {i}, i < u.cache.capacity →
      (u.cache.entries i).data = u.cache.buffer + i * u.cache.blockSize)
    (hi : i < u.cache.capacity) (hs : s < u.cache.capacity) (his : i ≠ s) :
    u'.blockData i = u.blockData i := by
  rw [CacheUse.blockData, CacheUse.blockData, h.other his, h.blockSize]
  refine h.mem.load_eq fun x hlo hhi hx => ?_
  have := place_apart hplace hi hs his
  have := hx.1
  have := hx.2
  omega

theorem Stamped.place (h : Stamped u u' s b)
    (hplace : ∀ {i}, i < u.cache.capacity →
      (u.cache.entries i).data = u.cache.buffer + i * u.cache.blockSize)
    (hs : s < u.cache.capacity) (hi : i < u'.cache.capacity) :
    (u'.cache.entries i).data = u'.cache.buffer + i * u'.cache.blockSize := by
  rw [h.capacity] at hi
  rw [h.buffer, h.blockSize]
  by_cases his : i = s
  · rw [his, h.data]
    exact hplace hs
  · rw [h.other his]
    exact hplace hi

theorem Ranked.stamp (hr : Ranked u order) (h : Stamped u u' s b) (hs : s < u.cache.capacity)
    (hclock : u.cache.clock + 1 < 2 ^ 64)
    (hblocks : b :: (order.erase s).map (fun i => (u.cache.entries i).blockIndex) =
      (touch u.touched b).take u.cache.capacity) :
    Ranked u' (s :: order.erase s) := by
  have hinc : inc64 u.cache.clock = u.cache.clock + 1 := Nat.mod_eq_of_lt hclock
  have hrest : ∀ {i}, i ∈ order.erase s → i ≠ s ∧ i ∈ order := fun {i} hi =>
    hr.nodup.mem_erase_iff.mp hi
  have hentry : ∀ {i}, i ∈ order.erase s → u'.cache.entries i = u.cache.entries i :=
    fun {i} hi => h.other (hrest hi).1
  refine ⟨h.initialized.trans hr.initialized, ?_, h.place hr.place hs, ?_, ?_, ?_, ?_, ?_, ?_⟩
  · rw [h.capacity]
    exact hr.pos
  · intro i
    rw [List.mem_cons, hr.nodup.mem_erase_iff, h.capacity]
    by_cases his : i = s
    · rw [his]
      simp [hs, h.valid]
    · rw [h.other his, hr.slots]
      simp [his]
  · refine List.pairwise_cons.mpr ⟨fun i hi => ?_, ?_⟩
    · rw [hentry hi, h.lastUsed, hinc]
      exact Nat.lt_succ_of_le (hr.clock (hrest hi).2)
    · refine (hr.stamps.sublist List.erase_sublist).imp_of_mem fun hi hj hlt => ?_
      rw [hentry hi, hentry hj]
      exact hlt
  · intro i hi
    rw [h.clock]
    rcases List.mem_cons.mp hi with rfl | hi
    · exact Nat.le_of_eq h.lastUsed
    · rw [hentry hi, hinc]
      exact Nat.le_succ_of_le (hr.clock (hrest hi).2)
  · rw [List.map_cons, h.block, h.touched, h.capacity, ← hblocks]
    congr 1
    exact List.map_congr_left fun i hi => by rw [hentry hi]
  · rw [h.touched]
    exact touch_nodup hr.touched
  · intro i hi
    rcases List.mem_cons.mp hi with rfl | hi
    · rw [h.block]
      exact h.stored
    · obtain ⟨his, hio⟩ := hrest hi
      rw [h.blockData_eq hr.place (hr.slots.mp hio).1 hs his, hr.data hio, hentry hi]
      refine (h.storedOther fun heq => ?_).symm
      -- the block is at the front now, and the blocks of the new list are distinct
      have hnd : (b :: (order.erase s).map fun i => (u.cache.entries i).blockIndex).Nodup := by
        rw [hblocks]
        exact (touch_nodup hr.touched).sublist (List.take_sublist ..)
      exact (List.nodup_cons.mp hnd).1 (heq ▸ List.mem_map_of_mem hi)

/-! ## Which slot is stamped -/

theorem Ranked.blocks_of_find (hr : Ranked u order) (h : cacheFind u.cache b = some s) :
    b :: (order.erase s).map (fun i => (u.cache.entries i).blockIndex) =
      (touch u.touched b).take u.cache.capacity := by
  obtain ⟨hs, hvalid, rfl⟩ := cacheFind_some h
  have hmem : s ∈ order := hr.slots.mpr ⟨hs, hvalid⟩
  have hblock := List.mem_map_of_mem (f := fun i => (u.cache.entries i).blockIndex) hmem
  obtain ⟨n, hn⟩ : ∃ n, u.cache.capacity = n + 1 := ⟨u.cache.capacity - 1, by have := hr.pos; omega⟩
  have hblocks := hr.blocks
  rw [hn] at hblocks ⊢
  rw [hblocks] at hblock
  rw [take_touch_of_mem hblock, touch, map_erase hr.blocks_nodup hmem, hblocks]

theorem Ranked.not_mem_take (hr : Ranked u order) (h : cacheFind u.cache b = none) :
    b ∉ u.touched.take u.cache.capacity := by
  rw [← hr.blocks]
  intro hb
  obtain ⟨i, hi, hib⟩ := List.mem_map.mp hb
  obtain ⟨hlt, hvalid⟩ := hr.slots.mp hi
  exact cacheFind_none h hlt hvalid hib

theorem Ranked.blocks_of_free (hr : Ranked u order) (h : cacheFind u.cache b = none)
    (hfree : cacheFreeSlot u.cache = some s) :
    b :: (order.erase s).map (fun i => (u.cache.entries i).blockIndex) =
      (touch u.touched b).take u.cache.capacity := by
  obtain ⟨hs, hinvalid⟩ := cacheFreeSlot_some hfree
  have hso : s ∉ order := by
    intro hmem
    have := (hr.slots.mp hmem).2
    rw [hinvalid] at this
    cases this
  -- a slot is left, so every block that was ever used is still there
  have hlen : order.length + 1 ≤ u.cache.capacity := by
    have hsub : s :: order ⊆ List.range u.cache.capacity := by
      intro i hi
      rcases List.mem_cons.mp hi with rfl | hi
      · exact List.mem_range.mpr hs
      · exact List.mem_range.mpr (hr.slots.mp hi).1
    have := ((List.nodup_cons.mpr ⟨hso, hr.nodup⟩).subperm hsub).length_le
    rwa [List.length_range, List.length_cons] at this
  obtain ⟨n, hn⟩ : ∃ n, u.cache.capacity = n + 1 := ⟨u.cache.capacity - 1, by omega⟩
  have hnot := hr.not_mem_take h
  have hblocks := hr.blocks
  have htake := congrArg List.length hblocks
  rw [List.length_map, List.length_take] at htake
  rw [hn] at hnot hblocks ⊢
  rw [take_touch_of_not_mem hnot, List.erase_of_not_mem hso, hblocks,
    List.take_of_length_le (by omega), List.take_of_length_le (by omega)]

theorem Ranked.eq_concat (hr : Ranked u order) (hlru : cacheLruSlot u.cache = some s) :
    ∃ init, order = init ++ [s] := by
  have hold := oldest_cacheLruSlot u.cache
  rw [hlru] at hold
  obtain ⟨hs, hvalid, hmin⟩ := hold
  have hmem : s ∈ order := hr.slots.mpr ⟨hs, hvalid⟩
  rcases List.eq_nil_or_concat order with rfl | ⟨init, x, heq⟩
  · cases hmem
  · rw [List.concat_eq_append] at heq
    subst heq
    rcases List.mem_append.mp hmem with hinit | hlast
    · -- an earlier slot has a larger stamp than the last one
      have hx := hr.slots.mp (List.mem_append_right init (List.mem_singleton_self x))
      have hlt := (List.pairwise_append.mp hr.stamps).2.2 s hinit x (List.mem_singleton_self x)
      exact absurd (hmin x hx.1 hx.2) (Nat.not_le_of_lt hlt)
    · rw [List.mem_singleton.mp hlast]
      exact ⟨init, rfl⟩

theorem Ranked.blocks_of_evict (hr : Ranked u order) (h : cacheFind u.cache b = none)
    (hfree : cacheFreeSlot u.cache = none) (hlru : cacheLruSlot u.cache = some s) :
    b :: (order.erase s).map (fun i => (u.cache.entries i).blockIndex) =
      (touch u.touched b).take u.cache.capacity := by
  obtain ⟨init, rfl⟩ := hr.eq_concat hlru
  have hnodup := hr.nodup
  have hsi : s ∉ init := fun hmem =>
    (List.nodup_append.mp hnodup).2.2 s hmem s (List.mem_singleton_self s) rfl
  have hfull : u.cache.capacity ≤ (init ++ [s]).length := by
    have hsub : List.range u.cache.capacity ⊆ init ++ [s] := fun i hi =>
      hr.slots.mpr ⟨List.mem_range.mp hi, cacheFreeSlot_none hfree (List.mem_range.mp hi)⟩
    have := (List.nodup_range.subperm hsub).length_le
    rwa [List.length_range] at this
  obtain ⟨n, hn⟩ : ∃ n, u.cache.capacity = n + 1 := ⟨u.cache.capacity - 1, by have := hr.pos; omega⟩
  have hnot := hr.not_mem_take h
  have hblocks := hr.blocks
  have hle := hr.length_le
  rw [List.length_append, List.length_singleton] at hfull hle
  rw [hn] at hnot hblocks ⊢
  have hinit : (init ++ [s]).erase s = init := by
    rw [List.erase_append_right _ hsi, List.erase_cons_head, List.append_nil]
  have hshort := congrArg (List.take n) hblocks
  rw [List.take_take, Nat.min_eq_left (Nat.le_succ n), List.map_append,
    List.take_append_of_le_length (by rw [List.length_map]; omega),
    List.take_of_length_le (by rw [List.length_map]; omega)] at hshort
  rw [take_touch_of_not_mem hnot, hinit, hshort]

theorem Ranked.blocks_of_chosen (hr : Ranked u order) (h : Chosen u.cache b c s) :
    b :: (order.erase s).map (fun i => (u.cache.entries i).blockIndex) =
      (touch u.touched b).take u.cache.capacity := by
  cases h with
  | found hfind => exact hr.blocks_of_find hfind
  | free hfind hfree => exact hr.blocks_of_free hfind hfree
  | evicted hfind hfree hlru => exact hr.blocks_of_evict hfind hfree hlru

/-! ## The calls -/

theorem stamped_lookup (hinit : u.cache.initialized = true) (b : Nat)
    (hdata : ∀ {s}, cacheFind u.cache b = some s → u.blockData s = u.stored b) :
    (cacheFind u.cache b = none ∧
        u.next (.lookup b) = { u with cache := { u.cache with misses := inc64 u.cache.misses } }) ∨
      ∃ s, cacheFind u.cache b = some s ∧ Stamped u (u.next (.lookup b)) s b ∧
        ((u.next (.lookup b)).cache.entries s).dirty = (u.cache.entries s).dirty := by
  have hlook : owcacheLookup u.cache b = _ := if_neg (by rw [hinit]; decide)
  cases hfind : cacheFind u.cache b with
  | none =>
    rw [hfind] at hlook
    refine .inl ⟨rfl, ?_⟩
    simp only [CacheUse.next, hlook, Option.isSome_none, Bool.false_eq_true, if_false]
  | some s =>
    rw [hfind] at hlook
    obtain ⟨hs, hvalid, hblock⟩ := cacheFind_some hfind
    refine .inr ⟨s, rfl, ?_, ?_⟩
    · simp only [CacheUse.next, hlook, Option.isSome_some, if_true]
      refine ⟨rfl, rfl, rfl, rfl, rfl, fun his => if_neg his, ?_, ?_, ?_, ?_, ?_, rfl, ?_,
        fun _ => rfl⟩
      · simpa [Owcache.setEntry] using hvalid
      · simpa [Owcache.setEntry] using hblock
      · simp [Owcache.setEntry]
      · simp [Owcache.setEntry]
      · exact SameOn.refl _ _
      · rw [← hdata hfind]
        simp [CacheUse.blockData, Owcache.setEntry]
    · simp [CacheUse.next, hlook, Owcache.setEntry]

theorem Ranked.lookup (hr : Ranked u order) (b : Nat) :
    (cacheFind u.cache b = none ∧
        u.next (.lookup b) = { u with cache := { u.cache with misses := inc64 u.cache.misses } }) ∨
      ∃ s, cacheFind u.cache b = some s ∧ Stamped u (u.next (.lookup b)) s b := by
  have hdata : ∀ {s}, cacheFind u.cache b = some s → u.blockData s = u.stored b := by
    intro s hfind
    obtain ⟨hs, hvalid, hblock⟩ := cacheFind_some hfind
    rw [hr.data (hr.slots.mpr ⟨hs, hvalid⟩), hblock]
  rcases stamped_lookup hr.initialized b hdata with h | ⟨s, hfind, hst, -⟩
  · exact .inl h
  · exact .inr ⟨s, hfind, hst⟩

theorem stamped_insert (hinit : u.cache.initialized = true) (hpos : 0 < u.cache.capacity)
    (b : Nat) (data : Nat → UInt8) (dirty : Bool) :
    ∃ c s, Chosen u.cache b c s ∧ Stamped u (u.next (.insert b (some data) dirty)) s b ∧
      (owcacheInsert u.mem u.cache b (some data) dirty).2.2 = some s ∧
      ((u.next (.insert b (some data) dirty)).cache.entries s).dirty = dirty := by
  obtain ⟨c, s, hslot, hchosen⟩ := insertSlot_chosen hinit hpos b
  have hc := hchosen.oneEntry hinit
  have hins : owcacheInsert u.mem u.cache b (some data) dirty = _ :=
    if_neg (by rw [hinit]; decide)
  rw [hslot] at hins
  refine ⟨c, s, hchosen, ?_, congrArg (·.2.2) hins, ?_⟩
  · simp only [CacheUse.next, hins, Option.isSome_some, if_true, true_and]
    refine ⟨hc.initialized, hc.capacity, hc.buffer, hc.blockSize, ?_, fun his => ?_, ?_, ?_, ?_,
      ?_, ?_, rfl, ?_, fun hb => if_neg hb⟩
    · show inc64 c.clock = _
      rw [hc.clock]
    · rw [← hc.other his]
      exact if_neg his
    · simp [Owcache.setEntry]
    · simp [Owcache.setEntry]
    · simp [Owcache.setEntry, hc.clock]
    · simpa [Owcache.setEntry] using hc.data
    · refine sameOn_store fun x hx => ?_
      rw [hc.data, hc.blockSize, List.length_map, List.length_range]
      by_contra hcon
      exact hx ⟨by omega, by omega⟩
    · have hself := load_store_self u.mem (c.entries s).data ((List.range c.blockSize).map data)
      rw [List.length_map, List.length_range] at hself
      simpa [CacheUse.blockData, Owcache.setEntry, cacheCopy, hc.blockSize] using hself
  · simp [CacheUse.next, hins, Owcache.setEntry]

theorem Ranked.insert (hr : Ranked u order) (b : Nat) (data : Nat → UInt8) (dirty : Bool) :
    ∃ s < u.cache.capacity, Stamped u (u.next (.insert b (some data) dirty)) s b ∧
      b :: (order.erase s).map (fun i => (u.cache.entries i).blockIndex) =
        (touch u.touched b).take u.cache.capacity := by
  obtain ⟨c, s, hchosen, hst, -⟩ := stamped_insert hr.initialized hr.pos b data dirty
  exact ⟨s, hchosen.lt, hst, hr.blocks_of_chosen hchosen⟩

/-- Before every call that stamps a slot the clock can still be raised. -/
def CacheUse.Unwrapped (u : CacheUse) : CacheOp → Prop
  | .lookup b => (cacheFind u.cache b).isSome → u.cache.clock + 1 < 2 ^ 64
  | .insert _ data _ => data.isSome → u.cache.clock + 1 < 2 ^ 64

theorem Ranked.next (hr : Ranked u order) (ha : u.Unwrapped op) :
    ∃ order', Ranked (u.next op) order' := by
  cases op with
  | lookup b =>
    rcases hr.lookup b with ⟨-, hmiss⟩ | ⟨s, hfind, hst⟩
    · rw [hmiss]
      exact ⟨order, hr.initialized, hr.pos, hr.place, hr.slots, hr.stamps, hr.clock, hr.blocks,
        hr.touched, hr.data⟩
    · exact ⟨_, hr.stamp hst (cacheFind_some hfind).1 (ha (by rw [hfind]; rfl))
        (hr.blocks_of_find hfind)⟩
  | insert b data dirty =>
    cases data with
    | none => exact ⟨order, hr⟩
    | some data =>
      obtain ⟨s, hs, hst, hblocks⟩ := hr.insert b data dirty
      exact ⟨_, hr.stamp hst hs (ha rfl) hblocks⟩

theorem Stamped.keepsOthers (hst : Stamped u (u.next op) s op.block) (hr : Ranked u order)
    (hs : s < u.cache.capacity) : u.KeepsOthers op := by
  intro i hi _ hne
  have his : i ≠ s := by
    rintro rfl
    exact hne hst.block
  exact ⟨hst.other his, hst.blockData_eq hr.place hi hs his⟩

theorem Ranked.keepsOthers (hr : Ranked u order) (op : CacheOp) : u.KeepsOthers op := by
  cases op with
  | lookup b =>
    rcases hr.lookup b with ⟨-, hmiss⟩ | ⟨s, hfind, hst⟩
    · intro i _ _ _
      rw [hmiss]
      exact ⟨rfl, rfl⟩
    · exact hst.keepsOthers hr (cacheFind_some hfind).1
  | insert b data dirty =>
    cases data with
    | none => exact fun i _ _ _ => ⟨rfl, rfl⟩
    | some data =>
      obtain ⟨s, hs, hst, -⟩ := hr.insert b data dirty
      exact hst.keepsOthers hr hs

theorem Ranked.keepsRecent (hr : Ranked u order) : u.KeepsRecent := by
  refine ⟨fun i hi j hj hvi hvj heq => ?_, fun b => ?_, fun b i hhit => ?_⟩
  · exact List.inj_on_of_nodup_map hr.blocks_nodup (hr.slots.mpr ⟨hi, hvi⟩)
      (hr.slots.mpr ⟨hj, hvj⟩) heq
  · rw [← hr.blocks, List.mem_map]
    constructor
    · rintro ⟨i, hi, hv, hb⟩
      exact ⟨i, hr.slots.mpr ⟨hi, hv⟩, hb⟩
    · rintro ⟨i, hi, hb⟩
      exact ⟨i, (hr.slots.mp hi).1, (hr.slots.mp hi).2, hb⟩
  · have hlook : owcacheLookup u.cache b = _ := if_neg (by rw [hr.initialized]; decide)
    cases hfind : cacheFind u.cache b with
    | none =>
      rw [hfind] at hlook
      rw [hlook] at hhit
      cases hhit
    | some s =>
      rw [hfind] at hlook
      rw [hlook] at hhit
      cases hhit
      obtain ⟨hs, hvalid, hblock⟩ := cacheFind_some hfind
      rw [hr.data (hr.slots.mpr ⟨hs, hvalid⟩), hblock]

theorem owcacheInit_ranked {m : Mem} {c' : Owcache} {capacity buffer blockSize : Nat}
    (h : owcacheInit c capacity buffer blockSize = (c', true)) :
    Ranked ⟨m, c', [], fun _ => []⟩ [] := by
  unfold owcacheInit at h
  split at h
  · simp at h
  · split at h
    · simp at h
    next hpos =>
      simp only [Prod.mk.injEq, and_true] at h
      subst h
      refine ⟨rfl, by show 0 < capacity; omega, ?_, ?_, List.Pairwise.nil, ?_, ?_, List.nodup_nil, ?_⟩
      · intro i hi
        exact congrArg Entry.data (if_pos hi)
      · intro i
        simp +contextual
      · simp
      · simp
      · simp

/-- In every run in which the clock does not wrap, the valid entries have distinct
blocks, the blocks present are the `capacity` most recently inserted or hit ones, a
hit has the data of the last insert, and no call touches the data of another
block. -/
theorem keeps_recent {m : Mem} {c c' : Owcache} {capacity buffer blockSize : Nat}
    {ops : List CacheOp} {u : CacheUse}
    (hinit : owcacheInit c capacity buffer blockSize = (c', true))
    (hrun : Calls CacheUse.Unwrapped CacheUse.next ⟨m, c', [], fun _ => []⟩ ops u) :
    u.KeepsRecent ∧ ∀ op, u.KeepsOthers op := by
  obtain ⟨order, hr⟩ : ∃ order, Ranked u order :=
    hrun.invariant (P := fun u => ∃ order, Ranked u order)
      (fun _ _ ⟨_, h⟩ ha => h.next ha) ⟨[], owcacheInit_ranked hinit⟩
  exact ⟨hr.keepsRecent, hr.keepsOthers⟩

/-! ## The clock wraps -/

/-- The data of the runs below. -/
def zeros : Nat → UInt8 := fun _ => 0

/-- A table of two slots before its initialisation. -/
def blankCache : Owcache :=
  { entries := fun _ => { blockIndex := 0, valid := false, dirty := false, lastUsed := 0, data := 0 }
    capacity := 0, buffer := 0, blockSize := 0, clock := 0, hits := 0, misses := 0, evictions := 0
    flushes := 0, initialized := false }

def twoSlots : CacheUse := ⟨fun _ => 0, (owcacheInit blankCache 2 4096 1).1, [], fun _ => []⟩

/-- Two blocks were inserted, and the second was looked up until the clock showed
`clock`. -/
def spun (clock hits : Nat) : CacheUse :=
  let u := (twoSlots.next (.insert 0 (some zeros) false)).next (.insert 1 (some zeros) false)
  { u with
    cache :=
      { u.cache.setEntry 1 { u.cache.entries 1 with lastUsed := clock } with
        clock := clock, hits := hits } }

theorem spun_next (clock hits : Nat) :
    (spun clock hits).next (.lookup 1) = spun (inc64 clock) (inc64 hits) := by
  have hfind : owcacheLookup (spun clock hits).cache 1 =
      ({ (spun clock hits).cache.setEntry 1
          { (spun clock hits).cache.entries 1 with lastUsed := inc64 clock } with
          clock := inc64 clock, hits := inc64 hits }, some 1) := rfl
  simp only [CacheUse.next, hfind]
  simp only [spun, Owcache.setEntry, CacheUse.mk.injEq, Owcache.mk.injEq, and_true, true_and,
    Option.isSome_some, if_true]
  refine ⟨?_, rfl⟩
  funext i
  by_cases hi : i = 1
  · simp [hi]
  · simp [hi]

theorem spun_replicate (n : Nat) :
    (List.replicate n (.lookup 1)).foldl CacheUse.next (spun 2 0) =
      spun ((2 + n) % 2 ^ 64) (n % 2 ^ 64) := by
  induction n with
  | zero => rfl
  | succ n ih =>
    rw [List.replicate_succ', List.foldl_concat, ih, spun_next]
    simp only [inc64, Nat.mod_add_mod, Nat.add_assoc]

/-- After `2 ^ 64 - 2` more hits of the block inserted last, its stamp is `0`, and
the next insert evicts it in place of the older one. -/
theorem evicts_recent :
    ∃ (ops : List CacheOp) (u : CacheUse),
      Calls (fun _ _ => True) CacheUse.next twoSlots ops u ∧ ¬ u.KeepsRecent := by
  have hspun : spun 2 0 =
      (twoSlots.next (.insert 0 (some zeros) false)).next (.insert 1 (some zeros) false) := by
    simp only [spun, Owcache.setEntry]
    congr 2
    funext i
    by_cases hi : i = 1
    · simp [hi]
      rfl
    · simp [hi]
      rfl
  have hwrap := spun_replicate (2 ^ 64 - 2)
  rw [show (2 + (2 ^ 64 - 2)) % 2 ^ 64 = 0 from by decide] at hwrap
  generalize (2 ^ 64 - 2) % 2 ^ 64 = hits at hwrap
  refine ⟨[.insert 0 (some zeros) false, .insert 1 (some zeros) false] ++
    List.replicate (2 ^ 64 - 2) (.lookup 1) ++ [.insert 2 (some zeros) false],
    (spun 0 hits).next (.insert 2 (some zeros) false), ?_, fun h => ?_⟩
  · rw [← hwrap, hspun]
    exact .snoc (Calls.append_foldl (.snoc (.snoc .nil trivial) trivial) (fun _ _ => trivial) _) trivial
  · have hmem : 1 ∈ ((spun 0 hits).next (.insert 2 (some zeros) false)).touched.take 2 := by
      show 1 ∈ [2, 1]
      decide
    obtain ⟨i, hi, -, hb⟩ := (h.present 1).mpr hmem
    have hi : i < 2 := hi
    interval_cases i
    · have hb : 0 = 1 := hb
      cases hb
    · have hb : 2 = 1 := hb
      cases hb

/-- One block after the other through two slots. -/
theorem keeps_recent_two :
    ∃ u : CacheUse,
      Calls CacheUse.Unwrapped CacheUse.next twoSlots
        [.insert 7 (some zeros) false, .insert 8 (some zeros) true, .lookup 7,
          .insert 9 (some zeros) false] u ∧
      u.touched = [9, 7, 8] ∧ u.KeepsRecent := by
  have hrun : Calls CacheUse.Unwrapped CacheUse.next twoSlots
      [.insert 7 (some zeros) false, .insert 8 (some zeros) true, .lookup 7,
        .insert 9 (some zeros) false] _ :=
    .snoc (.snoc (.snoc (.snoc .nil fun _ => by decide) fun _ => by decide) fun _ => by decide)
      fun _ => by decide
  have hinit : owcacheInit blankCache 2 4096 1 = (twoSlots.cache, true) := rfl
  exact ⟨_, hrun, rfl, (keeps_recent hinit hrun).1⟩

end Cache
