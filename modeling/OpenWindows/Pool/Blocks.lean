import Mathlib.Data.List.Perm.Subperm
import OpenWindows.Lib.Linked
import OpenWindows.Lib.Memory

/-!
# Blocks of one size

`owpool64.c` and `owslab64.c` keep their free blocks the same way: an arena is cut
into blocks of one size, and a free block holds the index of the next free block
in its first four bytes, `-1` in the last one.  The two files repeat the functions
on this list word for word; here each of them stands once.
-/

namespace Pool

open Memory Linked

/-- The fields that `owpool_t` and `owslab_cache_t` share. -/
structure Blocks where
  arena : Nat
  blockSize : Nat
  blockCount : Nat
  freeHead : Int
  freeCount : Nat
  inUse : Nat
  highWater : Nat

/-- `x++` and `x--` on a `uint32_t`. -/
def inc32 (x : Nat) : Nat := (x + 1) % 2 ^ 32

def dec32 (x : Nat) : Nat := (x + (2 ^ 32 - 1)) % 2 ^ 32

/-- The conversions between `int32_t` and `uint32_t`. -/
def asUnsigned (x : Int) : Nat := (x % 2 ^ 32).toNat

def asSigned (v : Nat) : Int := if v < 2 ^ 31 then v else v - 2 ^ 32

/-- `pool_store_next`, `slab_store_next` -/
def storeNext (m : Mem) (block : Nat) (index : Int) : Mem := storeNum m block 4 (asUnsigned index)

/-- `pool_load_next`, `slab_load_next` -/
def loadNext (m : Mem) (block : Nat) : Int := asSigned (loadNum m block 4)

/-- `pool_block_at`, `slab_object_at` -/
def blockAt (p : Blocks) (index : Nat) : Nat := p.arena + index * p.blockSize

/-- The loop of `pool_block_is_free`, which gives up when `guard` passes `free_count`. -/
def isFreeLoop (m : Mem) (p : Blocks) (index : Nat) : Nat → Int → Bool
  | 0, _ => false
  | n + 1, current =>
    if 0 ≤ current then
      if current.toNat = index then true
      else isFreeLoop m p index n (loadNext m (blockAt p current.toNat))
    else false

/-- `pool_block_is_free`, `slab_object_is_free` -/
def blockIsFree (m : Mem) (p : Blocks) (index : Nat) : Bool :=
  isFreeLoop m p index (p.freeCount + 1) p.freeHead

/-- The loop of `pool_rebuild`, from the last block down. -/
def rebuildLoop : Nat → Mem → Blocks → Mem × Blocks
  | 0, m, p => (m, p)
  | i + 1, m, p =>
    rebuildLoop i (storeNext m (blockAt p i) p.freeHead)
      { p with freeHead := i, freeCount := inc32 p.freeCount }

/-- `pool_rebuild`, `slab_build_freelist` -/
def rebuild (m : Mem) (p : Blocks) : Mem × Blocks :=
  rebuildLoop p.blockCount m { p with freeHead := -1, freeCount := 0 }

/-- What `owpool_alloc` and `owslab_alloc` share: take the first free block. -/
def takeBlock (m : Mem) (p : Blocks) : Blocks × Nat :=
  if p.freeHead < 0 then (p, 0)
  else
    let block := blockAt p p.freeHead.toNat
    let inUse := inc32 p.inUse
    ({ p with
        freeHead := loadNext m block
        freeCount := dec32 p.freeCount
        inUse := inUse
        highWater := if p.highWater < inUse then inUse else p.highWater }, block)

/-- What `owpool_free` and `owslab_free` share: check the pointer, and put its
block in front of the list. -/
def giveBlock (m : Mem) (p : Blocks) (block : Nat) : Option (Mem × Blocks) :=
  if block = 0 then none
  else if block < p.arena then none
  else
    let offset := block - p.arena
    if offset % p.blockSize ≠ 0 then none
    else
      let index := offset / p.blockSize
      if p.blockCount ≤ index then none
      else if blockIsFree m p index then none
      else some (storeNext m block p.freeHead,
        { p with
          freeHead := index
          freeCount := inc32 p.freeCount
          inUse := if 0 < p.inUse then p.inUse - 1 else p.inUse })

/-! ## The free list -/

def nextFree (m : Mem) (p : Blocks) (index : Nat) : Option Nat :=
  (loadNext m (blockAt p index)).toNat?

/-- The list `l` of free blocks is the one threaded through the arena. -/
structure Threads (m : Mem) (p : Blocks) (l : List Nat) : Prop where
  visits : Visits (nextFree m p) p.freeHead.toNat? l
  head : -2 ^ 31 ≤ p.freeHead
  bound : ∀ {i}, i ∈ l → i < p.blockCount
  count : p.freeCount = l.length

/-- The link fits a block, an index fits `int32_t`, and no block has the null
address. -/
structure Sized (p : Blocks) : Prop where
  arena : 0 < p.arena
  size : 4 ≤ p.blockSize
  blocks : p.blockCount < 2 ^ 31

/-- The free list and the counters of an arena in use. -/
structure Coherent (m : Mem) (p : Blocks) (l : List Nat) : Prop extends Threads m p l, Sized p where
  used : p.inUse + l.length = p.blockCount

/-- The same blocks. -/
structure SameArena (p p' : Blocks) : Prop where
  arena : p'.arena = p.arena
  blockSize : p'.blockSize = p.blockSize
  blockCount : p'.blockCount = p.blockCount

variable {m m' : Mem} {p p' : Blocks} {l : List Nat} {i j : Nat}

variable {x : Int}

theorem toNat?_eq_some : x.toNat? = some i ↔ x = i := by
  cases x with
  | ofNat n | negSucc n => simp [Int.toNat?]

theorem toNat?_eq_none : x.toNat? = none ↔ x < 0 := by
  cases x with
  | ofNat n => simp [Int.toNat?]
  | negSucc n => simp [Int.toNat?, Int.negSucc_lt_zero]

theorem asSigned_asUnsigned (hlo : -2 ^ 31 ≤ x) (hhi : x < 2 ^ 31) :
    asSigned (asUnsigned x % 256 ^ 4) = x := by
  unfold asSigned asUnsigned
  split <;> omega

theorem le_loadNext (m : Mem) (block : Nat) : -2 ^ 31 ≤ loadNext m block := by
  unfold loadNext asSigned
  split <;> omega

theorem loadNext_storeNext (m : Mem) (block : Nat) (hlo : -2 ^ 31 ≤ x) (hhi : x < 2 ^ 31) :
    loadNext (storeNext m block x) block = x := by
  rw [loadNext, storeNext, loadNum_storeNum_self]
  exact asSigned_asUnsigned hlo hhi

theorem SameArena.refl (p : Blocks) : SameArena p p := ⟨rfl, rfl, rfl⟩

theorem SameArena.blockAt_eq (h : SameArena p p') (i : Nat) : blockAt p' i = blockAt p i := by
  rw [blockAt, blockAt, h.arena, h.blockSize]

theorem Sized.congr (hs : Sized p) (h : SameArena p p') : Sized p' := by
  refine ⟨?_, ?_, ?_⟩
  · rw [h.arena]
    exact hs.arena
  · rw [h.blockSize]
    exact hs.size
  · rw [h.blockCount]
    exact hs.blocks

theorem blockAt_apart (hij : i ≠ j) :
    blockAt p i + p.blockSize ≤ blockAt p j ∨ blockAt p j + p.blockSize ≤ blockAt p i := by
  unfold blockAt
  have := mul_apart hij p.blockSize
  omega

theorem blockAt_inj (hs : Sized p) (h : blockAt p i = blockAt p j) : i = j := by
  by_contra hij
  have := hs.size
  have := blockAt_apart (p := p) hij
  omega

theorem nextFree_congr (hs : Sized p) (h : SameArena p p')
    (hm : SameOn (Span (blockAt p i) (blockAt p i + p.blockSize)) m m') :
    nextFree m' p' i = nextFree m p i := by
  have hload : loadNum m' (blockAt p i) 4 = loadNum m (blockAt p i) 4 := by
    refine hm.loadNum_eq fun x hlo hhi => ⟨hlo, ?_⟩
    have := hs.size
    omega
  have hnext : loadNext m' (blockAt p i) = loadNext m (blockAt p i) := by
    rw [loadNext, loadNext, hload]
  rw [nextFree, nextFree, h.blockAt_eq, hnext]

theorem Threads.congr (h : Threads m p l) (hs : Sized p)
    (hm : ∀ i ∈ l, SameOn (Span (blockAt p i) (blockAt p i + p.blockSize)) m m') :
    Threads m' p l :=
  ⟨h.visits.congr fun i hi => nextFree_congr hs (.refl p) (hm i hi), h.head, h.bound, h.count⟩

theorem nextFree_storeNext (hs : Sized p) (hlo : -2 ^ 31 ≤ x) (hhi : x < p.blockCount) :
    nextFree (storeNext m (blockAt p i) x) p i = x.toNat? := by
  have := hs.blocks
  rw [nextFree, loadNext_storeNext m (blockAt p i) hlo (by omega)]

theorem sameOn_storeNext (hs : Sized p) (hij : i ≠ j) (x : Int) :
    SameOn (Span (blockAt p j) (blockAt p j + p.blockSize)) m (storeNext m (blockAt p i) x) := by
  refine sameOn_storeNum fun y hy => ?_
  have := hs.size
  have := blockAt_apart (p := p) hij
  have := hy.1
  have := hy.2
  omega

theorem Threads.length_le (h : Threads m p l) : l.length ≤ p.blockCount := by
  have hsub : l ⊆ List.range p.blockCount := fun i hi => List.mem_range.mpr (h.bound hi)
  have := (h.visits.nodup.subperm hsub).length_le
  rwa [List.length_range] at this

theorem Threads.head_cases (h : Threads m p l) :
    (p.freeHead < 0 ∧ l = []) ∨
      ∃ i k, p.freeHead = (i : Nat) ∧ l = i :: k ∧ Visits (nextFree m p) (nextFree m p i) k := by
  cases hh : p.freeHead.toNat? with
  | none =>
    have hv := h.visits
    rw [hh] at hv
    exact .inl ⟨toNat?_eq_none.mp hh, hv.start_none⟩
  | some i =>
    have hv := h.visits
    rw [hh] at hv
    obtain ⟨k, rfl, hk⟩ := hv.tail
    exact .inr ⟨i, k, toNat?_eq_some.mp hh, rfl, hk⟩

theorem Threads.push (h : Threads m p l) (hs : Sized p) (hi : i < p.blockCount) (hil : i ∉ l) :
    Threads (storeNext m (blockAt p i) p.freeHead)
      { p with freeHead := i, freeCount := inc32 p.freeCount } (i :: l) := by
  have hlt : p.freeHead < p.blockCount := by
    rcases h.head_cases with ⟨hneg, -⟩ | ⟨j, k, hj, rfl, -⟩
    · omega
    · have := h.bound (List.mem_cons_self (a := j) (l := k))
      omega
  have hmem : ∀ j ∈ l, SameOn (Span (blockAt p j) (blockAt p j + p.blockSize)) m
      (storeNext m (blockAt p i) p.freeHead) := by
    rintro j hj
    refine sameOn_storeNext hs ?_ _
    rintro rfl
    exact hil hj
  refine ⟨?_, ?_, ?_, ?_⟩
  · have hv := (h.congr hs hmem).visits
    rw [← nextFree_storeNext (m := m) (i := i) hs h.head hlt] at hv
    exact .cons hv
  · exact Int.le_trans (by decide) (Int.natCast_nonneg i)
  · intro j hj
    rcases List.mem_cons.mp hj with rfl | hj
    · exact hi
    · exact h.bound hj
  · have hlen := h.length_le
    have := hs.blocks
    rw [h.count, List.length_cons]
    exact Nat.mod_eq_of_lt (by omega)

/-! ## The operations -/

theorem isFreeLoop_eq (m : Mem) (p : Blocks) (index n : Nat) (current : Int) :
    isFreeLoop m p index n current = search (nextFree m p) index n current.toNat? := by
  induction n generalizing current with
  | zero => rfl
  | succ n ih =>
    rw [isFreeLoop]
    cases hc : current.toNat? with
    | none =>
      rw [if_neg (by rw [toNat?_eq_none] at hc; omega)]
      rfl
    | some i =>
      rw [toNat?_eq_some] at hc
      subst hc
      rw [if_pos (Int.natCast_nonneg i), Int.toNat_natCast, search, ih]
      rfl

theorem blockIsFree_iff (h : Threads m p l) : blockIsFree m p i = true ↔ i ∈ l := by
  rw [blockIsFree, isFreeLoop_eq]
  exact search_eq_true h.visits (by rw [h.count]; omega)

theorem takeBlock_spec (c : Coherent m p l) :
    (l = [] ∧ p.freeHead < 0) ∨
      ∃ i k p', l = i :: k ∧ 0 ≤ p.freeHead ∧ takeBlock m p = (p', blockAt p i) ∧
        SameArena p p' ∧ Coherent m p' k := by
  rcases c.head_cases with ⟨hneg, rfl⟩ | ⟨i, k, hi, rfl, hk⟩
  · exact .inl ⟨rfl, hneg⟩
  · let p' : Blocks :=
      { p with
        freeHead := loadNext m (blockAt p i)
        freeCount := dec32 p.freeCount
        inUse := inc32 p.inUse
        highWater := if p.highWater < inc32 p.inUse then inc32 p.inUse else p.highWater }
    have htake : takeBlock m p = (p', blockAt p i) := by
      rw [takeBlock, if_neg (by omega), hi, Int.toNat_natCast]
    have hlen := c.length_le
    have hcount := c.count
    have hused := c.used
    have hblocks := c.blocks
    rw [List.length_cons] at hlen hcount hused
    have hfree : dec32 p.freeCount = k.length := by
      unfold dec32
      omega
    have huse : inc32 p.inUse + k.length = p.blockCount := by
      unfold inc32
      omega
    exact .inr ⟨i, k, p', rfl, by omega, htake, ⟨rfl, rfl, rfl⟩,
      ⟨hk, le_loadNext .., fun hj => c.bound (List.mem_cons_of_mem _ hj), hfree⟩,
      ⟨c.arena, c.size, c.blocks⟩, huse⟩

theorem giveBlock_none (c : Coherent m p l) {b : Nat}
    (hb : ∀ i < p.blockCount, i ∉ l → b ≠ blockAt p i) : giveBlock m p b = none := by
  unfold giveBlock
  split
  · rfl
  · split
    · rfl
    next hlo =>
      dsimp only
      split
      · rfl
      next hmod =>
        split
        · rfl
        next hcount =>
          split
          · rfl
          next hfree =>
            rw [blockIsFree_iff c.toThreads] at hfree
            refine absurd ?_ (hb _ (by omega) hfree)
            have := Nat.div_add_mod' (b - p.arena) p.blockSize
            unfold blockAt
            omega

theorem giveBlock_some (c : Coherent m p l) (hi : i < p.blockCount) (hil : i ∉ l) :
    ∃ m' p', giveBlock m p (blockAt p i) = some (m', p') ∧ SameArena p p' ∧
      Coherent m' p' (i :: l) := by
  have hsize : 0 < p.blockSize := by have := c.size; omega
  have hoff : blockAt p i - p.arena = i * p.blockSize := Nat.add_sub_cancel_left ..
  have hpush := c.toThreads.push c.toSized hi hil
  have hlen := hpush.length_le
  have hused := c.used
  simp only [List.length_cons] at hlen
  refine ⟨storeNext m (blockAt p i) p.freeHead,
    { p with
      freeHead := i
      freeCount := inc32 p.freeCount
      inUse := if 0 < p.inUse then p.inUse - 1 else p.inUse }, ?_, ⟨rfl, rfl, rfl⟩, ?_⟩
  · have harena : 0 < p.arena := c.arena
    have hle : p.arena ≤ blockAt p i := Nat.le_add_right ..
    rw [giveBlock, if_neg (by omega), if_neg (by omega)]
    simp only [hoff, Nat.mul_mod_left, ne_eq, not_true_eq_false, if_false,
      Nat.mul_div_cancel i hsize]
    rw [if_neg (by omega), if_neg (by rwa [blockIsFree_iff c.toThreads])]
  · refine ⟨⟨hpush.visits, hpush.head, hpush.bound, hpush.count⟩, ⟨c.arena, c.size, c.blocks⟩, ?_⟩
    show (if 0 < p.inUse then p.inUse - 1 else p.inUse) + (i :: l).length = p.blockCount
    rw [List.length_cons]
    split <;> omega

theorem rebuildLoop_spec (hs : Sized p) {n : Nat} (hle : n ≤ p.blockCount)
    (h : Threads m p l) (hl : ∀ i ∈ l, n ≤ i) :
    ∃ m' p', rebuildLoop n m p = (m', p') ∧ SameArena p p' ∧ p'.inUse = p.inUse ∧
      Threads m' p' (List.range n ++ l) := by
  induction n generalizing m p l with
  | zero => exact ⟨m, p, rfl, .refl p, rfl, h⟩
  | succ n ih =>
    have hpush := h.push hs (i := n) (by omega) fun hn => by have := hl n hn; omega
    have hge : ∀ j ∈ n :: l, n ≤ j := by
      intro j hj
      rcases List.mem_cons.mp hj with rfl | hj
      · exact Nat.le_refl _
      · exact Nat.le_of_succ_le (hl j hj)
    obtain ⟨m', p', hrun, ha, hu, ht⟩ :=
      ih (p := { p with freeHead := n, freeCount := inc32 p.freeCount })
        (hs.congr ⟨rfl, rfl, rfl⟩) (Nat.le_of_succ_le hle) hpush hge
    refine ⟨m', p', hrun, ⟨ha.arena, ha.blockSize, ha.blockCount⟩, hu, ?_⟩
    rwa [List.range_succ, List.append_assoc]

theorem rebuild_spec (hs : Sized p) :
    ∃ m' p', rebuild m p = (m', p') ∧ SameArena p p' ∧ p'.inUse = p.inUse ∧
      Threads m' p' (List.range p.blockCount) := by
  obtain ⟨m', p', hrun, ha, hu, ht⟩ := rebuildLoop_spec (m := m) (l := [])
    (p := { p with freeHead := -1, freeCount := 0 }) (hs.congr ⟨rfl, rfl, rfl⟩) (Nat.le_refl _)
    ⟨.nil, by simp, fun h => (List.not_mem_nil h).elim, rfl⟩ (by simp)
  rw [List.append_nil] at ht
  exact ⟨m', p', hrun, ⟨ha.arena, ha.blockSize, ha.blockCount⟩, hu, ht⟩

/-! ## Who holds what -/

/-- The free list is the list of the blocks that nobody holds: following the links
visits each of them exactly once and ends. -/
def FreeListOf (m : Mem) (p : Blocks) (held : List Nat) : Prop :=
  ∃ l, Visits (nextFree m p) p.freeHead.toNat? l ∧ l.Nodup ∧ l.length = p.freeCount ∧
    ∀ i, i ∈ l ↔ i < p.blockCount ∧ blockAt p i ∉ held

/-- The addresses in `held` are the blocks that are not free, each of them once. -/
structure Custody (m : Mem) (p : Blocks) (held l : List Nat) : Prop extends Coherent m p l where
  nodup : held.Nodup
  held_iff : ∀ {a}, a ∈ held ↔ ∃ i < p.blockCount, i ∉ l ∧ a = blockAt p i

/-- An address owners may write to: in a block that is held, or outside the arena. -/
def Writable (p : Blocks) (held : List Nat) (a : Nat) : Prop :=
  (∃ b ∈ held, b ≤ a ∧ a < b + p.blockSize) ∨ a < p.arena ∨ blockAt p p.blockCount ≤ a

/-- What holds of an arena between two calls: the free list is the list of the
blocks nobody holds, and the counters add up. -/
def InOrder (m : Mem) (p : Blocks) (held : List Nat) : Prop :=
  FreeListOf m p held ∧ p.inUse + p.freeCount = p.blockCount

/-- A block that is handed out: null only when every block is held, and never one
that is held already. -/
def HandedOut (p : Blocks) (held : List Nat) (b : Nat) : Prop :=
  (b = 0 → ∀ i < p.blockCount, blockAt p i ∈ held) ∧
    (b ≠ 0 → b ∉ held ∧ ∃ i < p.blockCount, b = blockAt p i)

variable {held : List Nat}

theorem Custody.mem_held (c : Custody m p held l) (hi : i < p.blockCount) :
    blockAt p i ∈ held ↔ i ∉ l := by
  rw [c.held_iff]
  constructor
  · rintro ⟨j, -, hjl, heq⟩
    rwa [blockAt_inj c.toSized heq]
  · exact fun hil => ⟨i, hi, hil, rfl⟩

theorem Custody.freeListOf (c : Custody m p held l) : FreeListOf m p held := by
  refine ⟨l, c.visits, c.visits.nodup, c.count.symm, fun i => ⟨fun hi => ?_, ?_⟩⟩
  · refine ⟨c.bound hi, fun hh => ?_⟩
    exact (c.mem_held (c.bound hi)).mp hh hi
  · rintro ⟨hi, hh⟩
    by_contra hil
    exact hh ((c.mem_held hi).mpr hil)

theorem Custody.inOrder (c : Custody m p held l) :
    InOrder m p held := ⟨c.freeListOf, by rw [c.count]; exact c.used⟩

theorem Custody.write (c : Custody m p held l) {a : Nat} (ha : Writable p held a) (v : UInt8) :
    Custody (store m a [v]) p held l := by
  have hout : ∀ i ∈ l, a < blockAt p i ∨ blockAt p i + p.blockSize ≤ a := by
    intro i hi
    rcases ha with ⟨b, hb, hlo, hhi⟩ | hlow | hhigh
    · obtain ⟨j, -, hjl, rfl⟩ := c.held_iff.mp hb
      have hij : i ≠ j := by
        rintro rfl
        exact hjl hi
      have := blockAt_apart (p := p) hij
      omega
    · exact .inl (Nat.lt_of_lt_of_le hlow (Nat.le_add_right ..))
    · have := blockAt_apart (p := p) (Nat.ne_of_lt (c.bound hi))
      have hlt := Nat.mul_le_mul_right p.blockSize (Nat.le_of_lt (c.bound hi))
      unfold blockAt at *
      have := c.size
      omega
  refine ⟨⟨c.toThreads.congr c.toSized fun i hi => sameOn_store fun x hx => ?_, c.toSized, c.used⟩,
    c.nodup, c.held_iff⟩
  have := hout i hi
  have := hx.1
  have := hx.2
  rw [List.length_singleton]
  omega

theorem Custody.hold (c : Custody m p held (i :: l)) (ha : SameArena p p') (h : Coherent m p' l) :
    Custody m p' (blockAt p i :: held) l := by
  have hi : i < p.blockCount := c.bound List.mem_cons_self
  have hil : i ∉ l := (List.nodup_cons.mp c.visits.nodup).1
  refine ⟨h, ?_, ?_⟩
  · refine List.nodup_cons.mpr ⟨fun hh => ?_, c.nodup⟩
    exact (c.mem_held hi).mp hh List.mem_cons_self
  · intro a
    rw [List.mem_cons, c.held_iff, ha.blockCount]
    simp only [ha.blockAt_eq, List.mem_cons, not_or]
    constructor
    · rintro (rfl | ⟨j, hj, ⟨-, hjl⟩, rfl⟩)
      · exact ⟨i, hi, hil, rfl⟩
      · exact ⟨j, hj, hjl, rfl⟩
    · rintro ⟨j, hj, hjl, rfl⟩
      by_cases hji : j = i
      · exact .inl (by rw [hji])
      · exact .inr ⟨j, hj, ⟨hji, hjl⟩, rfl⟩

theorem Custody.drop (c : Custody m p held l) (ha : SameArena p p') (h : Coherent m' p' (i :: l)) :
    Custody m' p' (held.erase (blockAt p i)) (i :: l) := by
  refine ⟨h, c.nodup.erase _, ?_⟩
  intro a
  rw [c.nodup.mem_erase_iff, c.held_iff, ha.blockCount]
  simp only [ha.blockAt_eq, List.mem_cons, not_or]
  constructor
  · rintro ⟨hne, j, hj, hjl, rfl⟩
    refine ⟨j, hj, ⟨?_, hjl⟩, rfl⟩
    rintro rfl
    exact hne rfl
  · rintro ⟨j, hj, ⟨hji, hjl⟩, rfl⟩
    exact ⟨fun heq => hji (blockAt_inj c.toSized heq), j, hj, hjl, rfl⟩

/-- Nothing is held after a rebuild. -/
theorem custody_nil (hs : Sized p) (h : Threads m p (List.range p.blockCount))
    (hu : p.inUse = 0) : Custody m p [] (List.range p.blockCount) := by
  refine ⟨⟨h, hs, by rw [hu, List.length_range, Nat.zero_add]⟩, List.nodup_nil, ?_⟩
  intro a
  constructor
  · intro ha
    cases ha
  · rintro ⟨i, hi, hil, -⟩
    exact absurd (List.mem_range.mpr hi) hil

theorem Custody.take (c : Custody m p held l) :
    (p.freeHead < 0 ∧ ∀ i < p.blockCount, blockAt p i ∈ held) ∨
      0 ≤ p.freeHead ∧ ∃ i k, i < p.blockCount ∧ (takeBlock m p).2 = blockAt p i ∧
        blockAt p i ≠ 0 ∧ blockAt p i ∉ held ∧
        Custody m (takeBlock m p).1 (blockAt p i :: held) k := by
  rcases takeBlock_spec c.toCoherent with ⟨rfl, hneg⟩ | ⟨i, k, p', rfl, hhead, htake, ha, h⟩
  · exact .inl ⟨hneg, fun i hi => (c.mem_held hi).mpr List.not_mem_nil⟩
  · have hi : i < p.blockCount := c.bound List.mem_cons_self
    have harena : p.arena ≤ blockAt p i := Nat.le_add_right ..
    have hpos := c.arena
    rw [htake]
    refine .inr ⟨hhead, i, k, hi, rfl, by omega, fun hh => ?_, c.hold ha h⟩
    exact (c.mem_held hi).mp hh List.mem_cons_self

theorem Custody.give (c : Custody m p held l) (ptr : Nat) :
    (ptr ∉ held ∧ giveBlock m p ptr = none) ∨
      ∃ m' p' k, ptr ∈ held ∧ giveBlock m p ptr = some (m', p') ∧ SameArena p p' ∧
        Custody m' p' (held.erase ptr) k := by
  by_cases hptr : ptr ∈ held
  · obtain ⟨i, hi, hil, rfl⟩ := c.held_iff.mp hptr
    obtain ⟨m', p', hgive, ha, h⟩ := giveBlock_some c.toCoherent hi hil
    exact .inr ⟨m', p', i :: l, hptr, hgive, ha, c.drop ha h⟩
  · refine .inl ⟨hptr, giveBlock_none c.toCoherent fun i hi hil heq => hptr ?_⟩
    exact c.held_iff.mpr ⟨i, hi, hil, heq⟩

end Pool
