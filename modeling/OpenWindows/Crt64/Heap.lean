import OpenWindows.Lib.Memory

/-!
# The heap of `owcrt64`

A boundary-tag allocator over segments that the kernel hands out.  A block is a
header of 16 bytes, its payload, a canary and a footer of 8 bytes.  Header and
footer carry the size of the whole block and its flags.  Free blocks are kept in
a doubly linked list whose pointers stand in the first 16 bytes of the payload.
Allocations from `OWCRT64_LARGE_THRESHOLD` on get a segment of their own.

Everything but the segment table and the head of the list is in memory, byte by
byte.  Addresses and sizes are natural numbers.  They are reduced modulo `2 ^ 64`
where a size the caller chose is added to something.
-/

namespace Crt64

open Memory

/-! ## State -/

/-- `OWCRT_SEG_MAX`. -/
def segMax : Nat := 16

/-- `OWCRT_SEG_HDR`. -/
def segHdr : Nat := 32

/-- `OWCRT_BLK_HDR`. -/
def blkHdr : Nat := 16

/-- `OWCRT_BLK_CNARY`. -/
def blkCnary : Nat := 4

/-- `OWCRT_BLK_FTAR`. -/
def blkFtar : Nat := 8

/-- `OWCRT_MAGIC_BLK`. -/
def magicBlk : Nat := 0x4F574231

/-- `OWCRT_MAGIC_SEG`. -/
def magicSeg : Nat := 0x4F574353

/-- `OWCRT_MAGIC_END`. -/
def magicEnd : Nat := 0x4F57454E

/-- `OWCRT_FLAG_USED`. -/
def flagUsed : Nat := 1

/-- `OWCRT_FLAG_LARGE`. -/
def flagLarge : Nat := 2

/-- `OWCRT_MIN_FREE_USER`. -/
def minFreeUser : Nat := 16

/-- `OWCRT_MIN_FREE_TOTAL`. -/
def minFreeTotal : Nat := 44

/-- `OWCRT_END_BLOCK_SIZE`. -/
def endBlockSize : Nat := 24

/-- `OWCRT64_SEGMENT_DEFAULT`. -/
def segmentDefault : Nat := 0x40000

/-- `OWCRT64_SEGMENT_MIN`. -/
def segmentMin : Nat := 0x1000

/-- `OWCRT64_LARGE_THRESHOLD`. -/
def largeThreshold : Nat := 0x20000

/-- `OWCRT64_CANARY`. -/
def heapCanary : Nat := 0xEEEEEE00

/-- `SIZE_MAX`. -/
def sizeMax : Nat := 2 ^ 64 - 1

/-- `K64_MEM_FLAG_GUARD`. -/
def memFlagGuard : Nat := 4

/-- `owcrt_seg_t`. -/
structure Seg where
  base : Nat
  size : Nat
  flags : Nat
  active : Bool

/-- The counters `owcrt64_heap_stats` reports. -/
structure HeapStats where
  bytesAllocated : UInt64
  bytesSegmented : UInt64
  allocs : UInt64
  frees : UInt64
  guardFaults : UInt64

/-- The heap. -/
structure Heap where
  mem : Mem
  segs : Nat → Seg
  /-- `owcrt_free_head`, 0 for null. -/
  freeHead : Nat
  corrupt : Bool
  stats : HeapStats
  /-- Requests made of the kernel so far. -/
  requests : Nat

/-- A block the kernel hands out: its address and its bytes. -/
structure Grant where
  base : Nat
  fill : Nat → UInt8

/-- What `k64_request_memory_block` answers to a request for a number of bytes. -/
abbrev Kernel := Heap → Nat → Option Grant

/-- A segment entry that is not in use. -/
def Seg.empty : Seg := ⟨0, 0, 0, false⟩

/-- The heap at program start. -/
def Heap.init : Heap where
  mem _ := 0
  segs _ := .empty
  freeHead := 0
  corrupt := false
  stats := ⟨0, 0, 0, 0, 0⟩
  requests := 0

/-! ## Words -/

/-- `owcrt_load_u32`. -/
def loadU32 (m : Mem) (p : Nat) : Nat := loadNum m p 4

/-- `owcrt_store_u32`. -/
def storeU32 (m : Mem) (p v : Nat) : Mem := storeNum m p 4 v

/-- `owcrt_load_u64`. -/
def loadU64 (m : Mem) (p : Nat) : Nat := loadNum m p 8

/-- `owcrt_store_u64`. -/
def storeU64 (m : Mem) (p v : Nat) : Mem := storeNum m p 8 v

/-! ## Blocks -/

/-- `owcrt_blk_user`, a `uint32_t` difference. -/
def blkUser (m : Mem) (blk : Nat) : Nat :=
  (loadU32 m blk + (2 ^ 32 - (blkHdr + blkCnary + blkFtar))) % 2 ^ 32

/-- The canary of a payload of `user` bytes. -/
def canaryOf (user : Nat) : Nat := heapCanary ||| (user &&& 0xFF)

/-- `owcrt_blk_stamp`. -/
def blkStamp (m : Mem) (blk total flags : Nat) : Mem :=
  let m := storeU32 m blk total
  let m := storeU32 m (blk + 4) flags
  let m := storeU32 m (blk + 8) magicBlk
  let m := storeU32 m (blk + 12) 0
  let m := storeU32 m (blk + blkHdr + blkUser m blk) (canaryOf (blkUser m blk))
  let m := storeU32 m (blk + total - blkFtar) total
  storeU32 m (blk + total - blkFtar + 4) flags

/-- `owcrt_blk_free_link`. -/
def blkFreeLink (h : Heap) (blk : Nat) : Heap :=
  let m := storeU64 h.mem (blk + blkHdr) h.freeHead
  let m := storeU64 m (blk + blkHdr + 8) 0
  let m := if h.freeHead ≠ 0 then storeU64 m (h.freeHead + blkHdr + 8) blk else m
  { h with mem := m, freeHead := blk }

/-- `owcrt_blk_free_unlink`. -/
def blkFreeUnlink (h : Heap) (blk : Nat) : Heap :=
  let prev := loadU64 h.mem (blk + blkHdr + 8)
  let next := loadU64 h.mem (blk + blkHdr)
  let h :=
    if prev ≠ 0 then { h with mem := storeU64 h.mem (prev + blkHdr) next }
    else { h with freeHead := next }
  if next ≠ 0 then { h with mem := storeU64 h.mem (next + blkHdr + 8) prev } else h

/-- `owcrt_blk_split`: whether the block was split. -/
def blkSplit (h : Heap) (blk user : Nat) : Bool × Heap :=
  let take := blkHdr + user + blkCnary + blkFtar
  let total := loadU32 h.mem blk
  if total < take + minFreeTotal then (false, h)
  else
    let rest := blk + take
    let h := { h with mem := blkStamp h.mem rest (total - take) 0 }
    let h := blkFreeLink h rest
    (true, { h with mem := blkStamp h.mem blk take 0 })

def freeFlags (flags : Nat) : Bool := flags &&& flagUsed = 0 && flags &&& 0xFFFFFFFE = 0

/-- The first half of `owcrt_blk_free_core`: the block and its size, joined with
the block before it when that is free.  The address of that block is computed from
the size in the footer, with pointers that wrap around. -/
def joinPrev (h : Heap) (blk total : Nat) : Nat × Nat × Heap :=
  let prevFoot := blk - blkFtar
  if prevFoot ≥ 0x100 then
    let psz := loadU32 h.mem prevFoot
    let pflg := loadU32 h.mem (prevFoot + 4)
    if freeFlags pflg then
      let prev := (prevFoot + (2 ^ 64 - (psz - blkFtar))) % 2 ^ 64
      if psz ≥ minFreeTotal ∧ (prev + psz) % 2 ^ 64 = blk then
        (prev, total + psz, blkFreeUnlink h prev)
      else (blk, total, h)
    else (blk, total, h)
  else (blk, total, h)

/-- The second half of `owcrt_blk_free_core`: the size joined with the block
behind. -/
def joinNext (h : Heap) (blk total : Nat) : Nat × Heap :=
  let next := blk + total
  let nsz := loadU32 h.mem next
  let nflg := loadU32 h.mem (next + 4)
  if freeFlags nflg ∧ nsz ≥ minFreeTotal then (total + nsz, blkFreeUnlink h next) else (total, h)

/-- `owcrt_blk_free_core`. -/
def blkFreeCore (h : Heap) (blk : Nat) : Heap :=
  let total := loadU32 h.mem blk
  let (blk, total, h) := joinPrev h blk total
  let (total, h) := joinNext h blk total
  blkFreeLink { h with mem := blkStamp h.mem blk total 0 } blk

/-! ## Segments -/

/-- The bytes of a block the kernel hands out. -/
def granted (m : Mem) (g : Grant) (bytes : Nat) : Mem :=
  fun x => if g.base ≤ x ∧ x < g.base + bytes then g.fill (x - g.base) else m x

/-- The header of a new segment. -/
def segStamp (m : Mem) (p bytes i : Nat) : Mem :=
  let m := storeU32 m p magicSeg
  let m := storeU32 m (p + 4) bytes
  let m := storeU32 m (p + 8) i
  storeU32 m (p + 12) 0

/-- `owcrt_seg_new`, with the index of the segment, `none` for
`OWCRT64_BAN_OUT_OF_MEMORY`. -/
def segNew (k64 : Kernel) (h : Heap) (bytes : Nat) : Option Nat × Heap :=
  let bytes := if bytes < segmentMin then segmentMin else bytes
  let answer := k64 h bytes
  let h := { h with requests := h.requests + 1 }
  match answer with
  | none => (none, h)
  | some g =>
    if g.base = 0 then (none, h)
    else
      let h := { h with mem := granted h.mem g bytes }
      match (List.range segMax).find? fun i => !(h.segs i).active with
      -- the block goes back to the kernel
      | none => (none, h)
      | some i =>
        (some i,
          { h with
            mem := segStamp h.mem g.base bytes i
            segs := Function.update h.segs i ⟨g.base, bytes, memFlagGuard, true⟩
            stats.bytesSegmented := h.stats.bytesSegmented + UInt64.ofNat bytes })

/-- `owcrt_seg_destroy`. -/
def segDestroy (h : Heap) (i : Nat) : Heap :=
  { h with
    stats.bytesSegmented := h.stats.bytesSegmented - UInt64.ofNat (h.segs i).size
    segs := Function.update h.segs i .empty }

/-! ## Allocation -/

def Heap.countAlloc (h : Heap) (user : Nat) : Heap :=
  { h with
    stats.bytesAllocated := h.stats.bytesAllocated + UInt64.ofNat user
    stats.allocs := h.stats.allocs + 1 }

/-- The counters after a block was given back. -/
def Heap.countFree (h : Heap) (user : Nat) : Heap :=
  { h with
    stats.bytesAllocated := h.stats.bytesAllocated - UInt64.ofNat user
    stats.frees := h.stats.frees + 1 }

/-- A damaged header or canary. -/
def Heap.fault (h : Heap) : Heap :=
  { h with corrupt := true, stats.guardFaults := h.stats.guardFaults + 1 }

def largeBytes (user : Nat) : Nat :=
  let segbytes := (user + blkHdr + blkCnary) % 2 ^ 64
  (segbytes + 0xFFF) % 2 ^ 64 / 0x1000 * 0x1000

/-- The header and the canary of a large allocation. -/
def largeStamp (m : Mem) (base user i : Nat) : Mem :=
  let m := storeU32 m base user
  let m := storeU32 m (base + 4) flagLarge
  let m := storeU32 m (base + 8) magicBlk
  let m := storeU32 m (base + 12) i
  storeU32 m ((base + blkHdr + user) % 2 ^ 64) (canaryOf user)

/-- The large path of `ow_malloc`. -/
def mallocLarge (k64 : Kernel) (h : Heap) (user : Nat) : Nat × Heap :=
  match segNew k64 h (largeBytes user) with
  | (none, h) => (0, h)
  | (some i, h) =>
    let base := (h.segs i).base
    (base + blkHdr, Heap.countAlloc { h with mem := largeStamp h.mem base user i } user)

/-- The walk of `ow_malloc` along the free list: the first block of at least `need` bytes,
`some 0` when there is none, `none` when the count of turns runs out. -/
def findFit (m : Mem) (need : Nat) : Nat → Nat → Option Nat
  | _, 0 => some 0
  | 0, _ + 1 => none
  | n + 1, it + 1 =>
    let nxt := loadU64 m (it + 1 + blkHdr)
    let flg := loadU32 m (it + 1 + 4)
    let sz := loadU32 m (it + 1)
    if flg &&& flagUsed = 0 ∧ sz ≥ need then some (it + 1) else findFit m need n nxt

def takeBlock (h : Heap) (it user : Nat) : Nat × Heap :=
  let h := blkFreeUnlink h it
  let (_, h) := blkSplit h it user
  let take := blkHdr + user + blkCnary + blkFtar
  let real := loadU32 h.mem it
  let h := { h with mem := blkStamp h.mem it (if take < real then real else take) flagUsed }
  (it + blkHdr, h.countAlloc user)

/-- The marker that ends an arena. -/
def endStamp (m : Mem) (p : Nat) : Mem :=
  let m := storeU32 m p magicEnd
  let m := storeU32 m (p + 4) flagUsed
  let m := storeU32 m (p + 8) magicEnd
  let m := storeU32 m (p + 12) flagUsed
  let m := storeU32 m (p + 16) endBlockSize
  storeU32 m (p + 20) flagUsed

def freshArena (k64 : Kernel) (h : Heap) (user : Nat) : Nat × Heap :=
  match segNew k64 h segmentDefault with
  | (none, h) => (0, h)
  | (some i, h) =>
    let seg := h.segs i
    let usable := seg.size - segHdr - endBlockSize
    let m := endStamp h.mem (seg.base + segHdr + usable)
    let blk := seg.base + segHdr
    let h := { h with mem := blkStamp m blk usable 0 }
    let (_, h) := blkSplit h blk user
    let h := { h with mem := blkStamp h.mem blk (loadU32 h.mem blk) flagUsed }
    (blk + blkHdr, h.countAlloc user)

/-- The number of turns after which a walk through memory has come round. -/
def walkBound : Nat := 2 ^ 64

/-- `ow_malloc`, with the pointer it returns, 0 for null.  The answer is `none` when its walk
along the free list does not end. -/
def owMalloc (k64 : Kernel) (h : Heap) (size : Nat) : Option (Nat × Heap) :=
  if h.corrupt then some (0, h)
  else if size > sizeMax - 32 then some (0, h)
  else if size ≥ largeThreshold then some (mallocLarge k64 h size)
  else
    let user := if size < minFreeUser then minFreeUser else size
    match findFit h.mem (blkHdr + user + blkCnary + blkFtar) walkBound h.freeHead with
    | none => none
    | some 0 => some (freshArena k64 h user)
    | some (it + 1) => some (takeBlock h (it + 1) user)

/-! ## Memory primitives -/

/-- The word loop of `ow_memset`. -/
def setWords (m : Mem) (d v : Nat) : Nat → Mem
  | 0 => m
  | n + 1 => setWords (storeU64 m d v) (d + 8) v n

/-- The byte loop of `ow_memset`. -/
def setBytes (m : Mem) (d : Nat) (c : UInt8) : Nat → Mem
  | 0 => m
  | n + 1 => setBytes (store m d [c]) (d + 1) c n

/-- `ow_memset`. -/
def owMemset (m : Mem) (dst : Nat) (c : UInt8) (n : Nat) : Mem :=
  let v := c.toNat
  let v := v ||| (v <<< 8)
  let v := v ||| (v <<< 16)
  let v := v ||| (v <<< 32)
  setBytes (setWords m dst v (n / 8)) (dst + n / 8 * 8) c (n % 8)

/-- The word loop of `ow_memcpy`. -/
def copyWords (m : Mem) (d s : Nat) : Nat → Mem
  | 0 => m
  | n + 1 => copyWords (storeU64 m d (loadU64 m s)) (d + 8) (s + 8) n

/-- The byte loop of `ow_memcpy`. -/
def copyBytes (m : Mem) (d s : Nat) : Nat → Mem
  | 0 => m
  | n + 1 => copyBytes (store m d [m s]) (d + 1) (s + 1) n

/-- `ow_memcpy`. -/
def owMemcpy (m : Mem) (dst src n : Nat) : Mem :=
  copyBytes (copyWords m dst src (n / 8)) (dst + n / 8 * 8) (src + n / 8 * 8) (n % 8)

/-! ## The interface -/

/-- `ow_calloc`. -/
def owCalloc (k64 : Kernel) (h : Heap) (nmemb size : Nat) : Option (Nat × Heap) :=
  if nmemb ≠ 0 ∧ size > sizeMax / nmemb then some (0, h)
  else
    let total := nmemb * size % 2 ^ 64
    match owMalloc k64 h total with
    | none => none
    | some (p, h) => some (p, if p ≠ 0 then { h with mem := owMemset h.mem p 0 total } else h)

/-- `ow_free`. -/
def owFree (h : Heap) (ptr : Nat) : Heap :=
  if ptr = 0 then h
  else
    let blk := ptr - blkHdr
    if loadU32 h.mem (blk + 8) ≠ magicBlk then h.fault
    else
      let flags := loadU32 h.mem (blk + 4)
      let usz := loadU32 h.mem blk
      if flags &&& flagLarge ≠ 0 then
        let idx := loadU32 h.mem (blk + 12)
        if idx ≥ segMax ∨ loadU32 h.mem (blk + blkHdr + usz) ≠ canaryOf usz then h.fault
        else segDestroy (h.countFree usz) idx
      else if flags &&& 0xFFFFFFFE ≠ 0 ∨ usz < minFreeTotal then h.fault
      else
        let user := blkUser h.mem blk
        if loadU32 h.mem (blk + blkHdr + user) ≠ canaryOf user then h.fault
        else blkFreeCore (h.countFree user) blk

/-- `ow_realloc`. -/
def owRealloc (k64 : Kernel) (h : Heap) (ptr size : Nat) : Option (Nat × Heap) :=
  if ptr = 0 then owMalloc k64 h size
  else if size = 0 then some (0, owFree h ptr)
  else
    let blk := ptr - blkHdr
    let magic := loadU32 h.mem (blk + 8)
    let flags := loadU32 h.mem (blk + 4)
    if magic ≠ magicBlk ∨ flags &&& 0xFFFFFFFE ≠ 0 then some (0, h.fault)
    else
      let old := blkUser h.mem blk
      if size ≤ old then some (ptr, h)
      else
        match owMalloc k64 h size with
        | none => none
        | some (np, h) =>
          if np = 0 then some (0, h)
          else some (np, owFree { h with mem := owMemcpy h.mem np ptr old } ptr)

/-- `ow_malloc_usable_size`. -/
def owMallocUsableSize (h : Heap) (ptr : Nat) : Nat :=
  if ptr = 0 then 0
  else if loadU32 h.mem (ptr - blkHdr + 8) ≠ magicBlk then 0
  else blkUser h.mem (ptr - blkHdr)

end Crt64
