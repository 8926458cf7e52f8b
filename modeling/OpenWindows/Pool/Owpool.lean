import OpenWindows.Lib.StepSystem
import OpenWindows.Pool.Blocks

/-!
# The memory pool

`owpool64.c`: an arena of blocks of one size.  Its owners take blocks, give them
back, write to those they hold, and may take everything back at once.  In every
such run the free list is the list of the blocks nobody holds.
-/

namespace Pool

open Memory StepSystem

/-- `owpool_t` -/
structure Owpool extends Blocks where
  totalAllocs : Nat
  totalFrees : Nat
  initialized : Bool

/-- `owpool_init` -/
def owpoolInit (m : Mem) (pool : Owpool) (arena blockSize blockCount : Nat) : Mem × Owpool × Bool :=
  if arena = 0 then (m, pool, false)
  else if blockSize < 4 ∨ blockCount = 0 then (m, pool, false)
  else if 0x7FFFFFFF < blockCount then (m, pool, false)
  else
    let built := rebuild m
      { arena := arena, blockSize := blockSize, blockCount := blockCount, freeHead := -1
        freeCount := 0, inUse := 0, highWater := 0 }
    (built.1,
      { toBlocks := built.2, totalAllocs := 0, totalFrees := 0, initialized := true }, true)

/-- `owpool_alloc` -/
def owpoolAlloc (m : Mem) (pool : Owpool) : Owpool × Nat :=
  if pool.initialized = false ∨ pool.freeHead < 0 then (pool, 0)
  else
    let taken := takeBlock m pool.toBlocks
    ({ pool with toBlocks := taken.1, totalAllocs := (pool.totalAllocs + 1) % 2 ^ 64 }, taken.2)

/-- `owpool_free` -/
def owpoolFree (m : Mem) (pool : Owpool) (ptr : Nat) : Mem × Owpool × Bool :=
  if pool.initialized = false then (m, pool, false)
  else
    match giveBlock m pool.toBlocks ptr with
    | none => (m, pool, false)
    | some (m', blocks) =>
      (m', { pool with toBlocks := blocks, totalFrees := (pool.totalFrees + 1) % 2 ^ 64 }, true)

/-- `owpool_reset` -/
def owpoolReset (m : Mem) (pool : Owpool) : Mem × Owpool × Bool :=
  if pool.initialized = false then (m, pool, false)
  else
    let built := rebuild m pool.toBlocks
    (built.1, { pool with toBlocks := { built.2 with inUse := 0, highWater := 0 } }, true)

/-! ## A pool in use -/

/-- A pool, the memory, and the addresses its owners hold. -/
structure PoolUse where
  mem : Mem
  pool : Owpool
  held : List Nat

/-- The calls, and one byte written by an owner. -/
inductive PoolOp where
  | alloc
  | free (ptr : Nat)
  | reset
  | write (a : Nat) (v : UInt8)

/-- One call. -/
def PoolUse.next (u : PoolUse) : PoolOp → PoolUse
  | .alloc =>
    let r := owpoolAlloc u.mem u.pool
    { u with pool := r.1, held := if r.2 = 0 then u.held else r.2 :: u.held }
  | .free ptr =>
    let r := owpoolFree u.mem u.pool ptr
    { mem := r.1, pool := r.2.1, held := if r.2.2 then u.held.erase ptr else u.held }
  | .reset =>
    let r := owpoolReset u.mem u.pool
    { mem := r.1, pool := r.2.1, held := if r.2.2 then [] else u.held }
  | .write a v => { u with mem := store u.mem a [v] }

/-- Owners write only inside blocks they hold; memory outside the arena is not the
pool's. -/
def PoolUse.Allowed (u : PoolUse) : PoolOp → Prop
  | .write a _ => Writable u.pool.toBlocks u.held a
  | _ => True

def PoolUse.Sound (u : PoolUse) : Prop :=
  u.pool.initialized = true ∧ ∃ l, Custody u.mem u.pool.toBlocks u.held l

theorem PoolUse.Sound.alloc {u : PoolUse} (h : u.Sound) :
    HandedOut u.pool.toBlocks u.held (owpoolAlloc u.mem u.pool).2 ∧ (u.next .alloc).Sound := by
  obtain ⟨hinit, l, c⟩ := id h
  rcases c.take with ⟨hneg, hall⟩ | ⟨hhead, i, k, hi, hres, hne, hnot, c'⟩
  · have halloc : owpoolAlloc u.mem u.pool = (u.pool, 0) := if_pos (.inr hneg)
    simp only [PoolUse.next, halloc]
    exact ⟨⟨fun _ => hall, fun hne => absurd rfl hne⟩, h⟩
  · have halloc : owpoolAlloc u.mem u.pool = _ := if_neg (by rw [hinit]; simpa using hhead)
    simp only [PoolUse.next, halloc, hres, if_neg hne]
    exact ⟨⟨fun h0 => absurd h0 hne, fun _ => ⟨hnot, i, hi, rfl⟩⟩, hinit, k, c'⟩

theorem PoolUse.Sound.free {u : PoolUse} (h : u.Sound) (ptr : Nat) :
    ((owpoolFree u.mem u.pool ptr).2.2 = true ↔ ptr ∈ u.held) ∧
      (ptr ∉ u.held → owpoolFree u.mem u.pool ptr = (u.mem, u.pool, false)) ∧
      (u.next (.free ptr)).Sound := by
  obtain ⟨hinit, l, c⟩ := id h
  have hfree : owpoolFree u.mem u.pool ptr = _ := if_neg (by rw [hinit]; decide)
  rcases c.give ptr with ⟨hptr, hgive⟩ | ⟨m', p', k, hptr, hgive, -, c'⟩
  · rw [hgive] at hfree
    simp only [PoolUse.next, hfree]
    exact ⟨by simpa using hptr, fun _ => trivial, h⟩
  · rw [hgive] at hfree
    simp only [PoolUse.next, hfree]
    exact ⟨by simpa using hptr, fun hnot => absurd hptr hnot, hinit, k, c'⟩

theorem PoolUse.Sound.next {u : PoolUse} (h : u.Sound) {op : PoolOp} (ha : u.Allowed op) :
    (u.next op).Sound := by
  cases op with
  | alloc => exact h.alloc.2
  | free ptr => exact (h.free ptr).2.2
  | reset =>
    obtain ⟨hinit, l, c⟩ := h
    obtain ⟨m', p', hbuild, hsame, -, ht⟩ := rebuild_spec (m := u.mem) c.toSized
    have hreset : owpoolReset u.mem u.pool =
        (m', { u.pool with toBlocks := { p' with inUse := 0, highWater := 0 } }, true) := by
      rw [owpoolReset, if_neg (by rw [hinit]; decide), hbuild]
    simp only [PoolUse.next, hreset]
    rw [← hsame.blockCount] at ht
    refine ⟨hinit, _, custody_nil (c.toSized.congr ?_) ⟨ht.visits, ht.head, ht.bound, ht.count⟩ rfl⟩
    exact ⟨hsame.arena, hsame.blockSize, hsame.blockCount⟩
  | write a v =>
    obtain ⟨hinit, l, c⟩ := h
    exact ⟨hinit, l, c.write ha v⟩

theorem owpoolInit_sound {m m' : Mem} {pool pool' : Owpool} {arena blockSize blockCount : Nat}
    (h : owpoolInit m pool arena blockSize blockCount = (m', pool', true)) :
    PoolUse.Sound ⟨m', pool', []⟩ ∧ pool'.arena = arena ∧ pool'.blockSize = blockSize ∧
      pool'.blockCount = blockCount := by
  unfold owpoolInit at h
  split at h
  · simp at h
  next harena =>
    split at h
    · simp at h
    next hsize =>
      split at h
      · simp at h
      next hcount =>
        let p : Blocks :=
          { arena := arena, blockSize := blockSize, blockCount := blockCount, freeHead := -1
            freeCount := 0, inUse := 0, highWater := 0 }
        have hs : Sized p :=
          ⟨Nat.pos_of_ne_zero harena, by show 4 ≤ blockSize; omega, by show blockCount < _; omega⟩
        obtain ⟨m'', p', hbuild, hsame, huse, ht⟩ := rebuild_spec (m := m) hs
        rw [show rebuild m _ = (m'', p') from hbuild] at h
        simp only [Prod.mk.injEq, and_true] at h
        obtain ⟨rfl, rfl⟩ := h
        rw [← hsame.blockCount] at ht
        exact ⟨⟨rfl, _, custody_nil (hs.congr hsame) ht huse⟩, hsame.arena, hsame.blockSize,
          hsame.blockCount⟩

/-! ## The slab allocator

`owslab64.c`: a registry of caches, each an arena of objects of one size.  A cache
hands out its objects the way a pool hands out its blocks.
-/

section

/-- `owslab_cache_t`, without its name -/
structure OwslabCache extends Blocks where
  active : Bool

/-- `owslab_state_t` -/
structure OwslabState where
  caches : Nat → OwslabCache
  cacheCount : Nat
  initialized : Bool

/-- `owslab_create_cache`; the cache is returned as its slot. -/
def owslabCreateCache (m : Mem) (state : OwslabState) (arena objectSize objectCount : Nat) :
    Mem × OwslabState × Option Nat :=
  if state.initialized = false ∨ arena = 0 then (m, state, none)
  else if objectSize < 4 ∨ objectCount = 0 then (m, state, none)
  else if 0x7FFFFFFF < objectCount then (m, state, none)
  else
    match (List.range 16).find? fun slot => !(state.caches slot).active with
    | none => (m, state, none)
    | some slot =>
      let cache := state.caches slot
      let built := rebuild m
        { cache.toBlocks with
          arena := arena, blockSize := objectSize, blockCount := objectCount, inUse := 0
          highWater := 0 }
      (built.1,
        { state with
          caches := fun i =>
            if i = slot then { toBlocks := built.2, active := true } else state.caches i
          cacheCount := inc32 state.cacheCount }, some slot)

/-- `owslab_alloc` -/
def owslabAlloc (m : Mem) (cache : OwslabCache) : OwslabCache × Nat :=
  if cache.active = false ∨ cache.freeHead < 0 then (cache, 0)
  else
    let taken := takeBlock m cache.toBlocks
    ({ cache with toBlocks := taken.1 }, taken.2)

/-- `owslab_free` -/
def owslabFree (m : Mem) (cache : OwslabCache) (ptr : Nat) : Mem × OwslabCache × Bool :=
  if cache.active = false then (m, cache, false)
  else
    match giveBlock m cache.toBlocks ptr with
    | none => (m, cache, false)
    | some (m', blocks) => (m', { cache with toBlocks := blocks }, true)

/-! ### A cache in use -/

/-- A cache, the memory, and the objects its owners hold. -/
structure SlabUse where
  mem : Mem
  cache : OwslabCache
  held : List Nat

/-- The calls, and one byte written by an owner. -/
inductive SlabOp where
  | alloc
  | free (ptr : Nat)
  | write (a : Nat) (v : UInt8)

/-- One call. -/
def SlabUse.next (u : SlabUse) : SlabOp → SlabUse
  | .alloc =>
    let r := owslabAlloc u.mem u.cache
    { u with cache := r.1, held := if r.2 = 0 then u.held else r.2 :: u.held }
  | .free ptr =>
    let r := owslabFree u.mem u.cache ptr
    { mem := r.1, cache := r.2.1, held := if r.2.2 then u.held.erase ptr else u.held }
  | .write a v => { u with mem := store u.mem a [v] }

/-- Owners write only inside objects they hold. -/
def SlabUse.Allowed (u : SlabUse) : SlabOp → Prop
  | .write a _ => Writable u.cache.toBlocks u.held a
  | _ => True

def SlabUse.Sound (u : SlabUse) : Prop :=
  u.cache.active = true ∧ ∃ l, Custody u.mem u.cache.toBlocks u.held l

theorem SlabUse.Sound.alloc {u : SlabUse} (h : u.Sound) :
    HandedOut u.cache.toBlocks u.held (owslabAlloc u.mem u.cache).2 ∧ (u.next .alloc).Sound := by
  obtain ⟨hactive, l, c⟩ := id h
  rcases c.take with ⟨hneg, hall⟩ | ⟨hhead, i, k, hi, hres, hne, hnot, c'⟩
  · have halloc : owslabAlloc u.mem u.cache = (u.cache, 0) := if_pos (.inr hneg)
    simp only [SlabUse.next, halloc]
    exact ⟨⟨fun _ => hall, fun hne => absurd rfl hne⟩, h⟩
  · have halloc : owslabAlloc u.mem u.cache = _ := if_neg (by rw [hactive]; simpa using hhead)
    simp only [SlabUse.next, halloc, hres, if_neg hne]
    exact ⟨⟨fun h0 => absurd h0 hne, fun _ => ⟨hnot, i, hi, rfl⟩⟩, hactive, k, c'⟩

theorem SlabUse.Sound.free {u : SlabUse} (h : u.Sound) (ptr : Nat) :
    ((owslabFree u.mem u.cache ptr).2.2 = true ↔ ptr ∈ u.held) ∧
      (ptr ∉ u.held → owslabFree u.mem u.cache ptr = (u.mem, u.cache, false)) ∧
      (u.next (.free ptr)).Sound := by
  obtain ⟨hactive, l, c⟩ := id h
  have hfree : owslabFree u.mem u.cache ptr = _ := if_neg (by rw [hactive]; decide)
  rcases c.give ptr with ⟨hptr, hgive⟩ | ⟨m', p', k, hptr, hgive, -, c'⟩
  · rw [hgive] at hfree
    simp only [SlabUse.next, hfree]
    exact ⟨by simpa using hptr, fun _ => trivial, h⟩
  · rw [hgive] at hfree
    simp only [SlabUse.next, hfree]
    exact ⟨by simpa using hptr, fun hnot => absurd hptr hnot, hactive, k, c'⟩

theorem SlabUse.Sound.next {u : SlabUse} (h : u.Sound) {op : SlabOp} (ha : u.Allowed op) :
    (u.next op).Sound := by
  cases op with
  | alloc => exact h.alloc.2
  | free ptr => exact (h.free ptr).2.2
  | write a v =>
    obtain ⟨hactive, l, c⟩ := h
    exact ⟨hactive, l, c.write ha v⟩

theorem owslabCreateCache_sound {m m' : Mem} {state state' : OwslabState}
    {arena objectSize objectCount slot : Nat}
    (h : owslabCreateCache m state arena objectSize objectCount = (m', state', some slot)) :
    SlabUse.Sound ⟨m', state'.caches slot, []⟩ := by
  unfold owslabCreateCache at h
  split at h
  · simp at h
  next harena =>
    split at h
    · simp at h
    next hsize =>
      split at h
      · simp at h
      next hcount =>
        split at h
        · simp at h
        next slot' _ =>
          let p : Blocks :=
            { (state.caches slot').toBlocks with
              arena := arena, blockSize := objectSize, blockCount := objectCount, inUse := 0
              highWater := 0 }
          have hs : Sized p :=
            ⟨by show 0 < arena; omega, by show 4 ≤ objectSize; omega,
              by show objectCount < _; omega⟩
          obtain ⟨m'', p', hbuild, hsame, huse, ht⟩ := rebuild_spec (m := m) hs
          dsimp only at h
          rw [show rebuild m _ = (m'', p') from hbuild] at h
          cases h
          rw [← hsame.blockCount] at ht
          refine ⟨?_, List.range p'.blockCount, ?_⟩
          · simp
          · simpa using custody_nil (hs.congr hsame) ht huse

/-! ### Both allocators -/

/-- In every run of a pool, and of an active slab cache, whose owners write only
inside blocks they hold: the free list and the counters are in order, a block that
is handed out is held by nobody, and exactly the blocks that are held are taken
back, while other pointers change nothing. -/
theorem allocators_sound :
    (∀ (m m' : Mem) (pool pool' : Owpool) (arena blockSize blockCount : Nat) (ops : List PoolOp)
        (u : PoolUse), owpoolInit m pool arena blockSize blockCount = (m', pool', true) →
        Calls PoolUse.Allowed PoolUse.next ⟨m', pool', []⟩ ops u →
        InOrder u.mem u.pool.toBlocks u.held ∧
          HandedOut u.pool.toBlocks u.held (owpoolAlloc u.mem u.pool).2 ∧
          ∀ ptr, ((owpoolFree u.mem u.pool ptr).2.2 = true ↔ ptr ∈ u.held) ∧
            (ptr ∉ u.held → owpoolFree u.mem u.pool ptr = (u.mem, u.pool, false))) ∧
      ∀ (m m' : Mem) (state state' : OwslabState) (arena objectSize objectCount slot : Nat)
        (ops : List SlabOp) (u : SlabUse),
        owslabCreateCache m state arena objectSize objectCount = (m', state', some slot) →
        Calls SlabUse.Allowed SlabUse.next ⟨m', state'.caches slot, []⟩ ops u →
        InOrder u.mem u.cache.toBlocks u.held ∧
          HandedOut u.cache.toBlocks u.held (owslabAlloc u.mem u.cache).2 ∧
          ∀ ptr, ((owslabFree u.mem u.cache ptr).2.2 = true ↔ ptr ∈ u.held) ∧
            (ptr ∉ u.held → owslabFree u.mem u.cache ptr = (u.mem, u.cache, false)) := by
  constructor
  · intro m m' pool pool' arena blockSize blockCount ops u hinit hrun
    have hs : u.Sound :=
      hrun.invariant (fun u op h ha => PoolUse.Sound.next h ha) (owpoolInit_sound hinit).1
    obtain ⟨l, c⟩ := hs.2
    exact ⟨c.inOrder, hs.alloc.1, fun ptr => ⟨(hs.free ptr).1, (hs.free ptr).2.1⟩⟩
  · intro m m' state state' arena objectSize objectCount slot ops u hinit hrun
    have hs : u.Sound :=
      hrun.invariant (fun u op h ha => SlabUse.Sound.next h ha) (owslabCreateCache_sound hinit)
    obtain ⟨l, c⟩ := hs.2
    exact ⟨c.inOrder, hs.alloc.1, fun ptr => ⟨(hs.free ptr).1, (hs.free ptr).2.1⟩⟩

/-- Memory and records before anything is set up. -/
def blankBlocks : Blocks :=
  { arena := 0, blockSize := 0, blockCount := 0, freeHead := 0, freeCount := 0, inUse := 0
    highWater := 0 }

def blankPool : Owpool :=
  { toBlocks := blankBlocks, totalAllocs := 0, totalFrees := 0, initialized := false }

def blankSlabs : OwslabState :=
  { caches := fun _ => { toBlocks := blankBlocks, active := false }, cacheCount := 0
    initialized := true }

/-- Two blocks of eight bytes. -/
def twoBlocks : Mem × Owpool × Bool := owpoolInit (fun _ => 0) blankPool 4096 8 2

def twoObjects : Mem × OwslabState × Option Nat :=
  owslabCreateCache (fun _ => 0) blankSlabs 4096 8 2

theorem allocators_sound_two :
    (∃ u : PoolUse,
      Calls PoolUse.Allowed PoolUse.next ⟨twoBlocks.1, twoBlocks.2.1, []⟩
        [.alloc, .write 4099 255, .alloc, .free 4096, .free 4096] u ∧
      u.held = [4104] ∧ InOrder u.mem u.pool.toBlocks u.held ∧
      (owpoolFree u.mem u.pool 4104).2.2 = true ∧ (owpoolFree u.mem u.pool 4096).2.2 = false) ∧
    ∃ u : SlabUse,
      Calls SlabUse.Allowed SlabUse.next ⟨twoObjects.1, twoObjects.2.1.caches 0, []⟩
        [.alloc, .write 4103 255, .alloc, .free 4104, .free 4097] u ∧
      u.held = [4096] ∧ InOrder u.mem u.cache.toBlocks u.held ∧
      (owslabFree u.mem u.cache 4096).2.2 = true ∧ (owslabFree u.mem u.cache 4104).2.2 = false := by
  have hpool : Calls PoolUse.Allowed PoolUse.next ⟨twoBlocks.1, twoBlocks.2.1, []⟩
      [.alloc, .write 4099 255, .alloc, .free 4096, .free 4096] _ :=
    .snoc (.snoc (.snoc (.snoc (.snoc .nil trivial)
      (.inl ⟨4096, by decide, by decide, by decide⟩)) trivial) trivial) trivial
  have hslab : Calls SlabUse.Allowed SlabUse.next ⟨twoObjects.1, twoObjects.2.1.caches 0, []⟩
      [.alloc, .write 4103 255, .alloc, .free 4104, .free 4097] _ :=
    .snoc (.snoc (.snoc (.snoc (.snoc .nil trivial)
      (.inl ⟨4096, by decide, by decide, by decide⟩)) trivial) trivial) trivial
  have h := allocators_sound.1 (fun _ => 0) _ blankPool _ 4096 8 2 _ _ rfl hpool
  have h' := allocators_sound.2 (fun _ => 0) _ blankSlabs _ 4096 8 2 0 _ _ rfl hslab
  refine ⟨⟨_, hpool, rfl, h.1, (h.2.2 4104).1.mpr (by decide), ?_⟩,
    ⟨_, hslab, rfl, h'.1, (h'.2.2 4096).1.mpr (by decide), ?_⟩⟩
  · rw [(h.2.2 4096).2 (by decide)]
  · rw [(h'.2.2 4104).2 (by decide)]

end

end Pool
