import OpenWindows.Lib.Memory

/-!
# The managed heap

The first-fit allocator of `owheap64.c`.  The blocks tile an arena that the caller provides,
each with a header of 32 bytes in front of its payload, and the headers are linked both ways
in address order.  Everything but the heap record is in memory, byte by byte.
-/

namespace Owheap

open Memory

/-- `OWHEAP_ALIGN`. -/
def heapUnit : Nat := 8

/-- `OWHEAP_MAGIC`. -/
def heapMagic : Nat := 0x4F57484F

/-- `OWHEAP_FLAG_FREE`. -/
def flagFree : Nat := 1

/-- `sizeof(owheap_block_t)`. -/
def blockSize : Nat := 32

/-- `owheap_t`. -/
structure Heap where
  mem : Mem
  arena : Nat
  arenaSize : Nat
  head : Nat
  allocCount : UInt64
  freeCount : UInt64
  bytesInUse : UInt64
  peakBytes : UInt64
  initialized : Bool

/-! ## Block headers -/

/-- The field `size` of the header at `b`. -/
def getSize (m : Mem) (b : Nat) : Nat := loadNum m b 4

/-- The field `flags`. -/
def getFlags (m : Mem) (b : Nat) : Nat := loadNum m (b + 4) 4

/-- The field `magic`. -/
def getMagic (m : Mem) (b : Nat) : Nat := loadNum m (b + 8) 4

/-- The field `next`. -/
def getNext (m : Mem) (b : Nat) : Nat := loadNum m (b + 16) 8

/-- The field `prev`. -/
def getPrev (m : Mem) (b : Nat) : Nat := loadNum m (b + 24) 8

def setSize (m : Mem) (b v : Nat) : Mem := storeNum m b 4 v

def setFlags (m : Mem) (b v : Nat) : Mem := storeNum m (b + 4) 4 v

def setMagic (m : Mem) (b v : Nat) : Mem := storeNum m (b + 8) 4 v

def setReserved (m : Mem) (b v : Nat) : Mem := storeNum m (b + 12) 4 v

def setNext (m : Mem) (b v : Nat) : Mem := storeNum m (b + 16) 8 v

def setPrev (m : Mem) (b v : Nat) : Mem := storeNum m (b + 24) 8 v

/-- Whether the header at `b` has `OWHEAP_FLAG_FREE`. -/
def isFree (m : Mem) (b : Nat) : Bool := getFlags m b &&& flagFree ≠ 0

/-! ## Block helpers -/

/-- `heap_payload`. -/
def heapPayload (block : Nat) : Nat := block + blockSize

/-- `heap_header`. -/
def heapHeader (ptr : Nat) : Nat := (ptr + (2 ^ 64 - blockSize)) % 2 ^ 64

/-- `heap_align`. -/
def heapAlign (size : UInt64) : Nat :=
  let aligned := (size.toNat + (heapUnit - 1)) % 2 ^ 64 / heapUnit * heapUnit
  if aligned < size.toNat then 0
  else if aligned > 0xFFFFFFFF then 0
  else aligned

/-- `p->prev = prev`, for a `p` that may be null. -/
def linkBack (m : Mem) (p prev : Nat) : Mem := if p ≠ 0 then setPrev m p prev else m

/-- `heap_split`. -/
def heapSplit (m : Mem) (block need : Nat) : Mem :=
  let remain := (getSize m block + (2 ^ 32 - need)) % 2 ^ 32
  if remain < blockSize + heapUnit then m
  else
    let rest := heapPayload block + need
    let m := setSize m rest (remain - blockSize)
    let m := setFlags m rest flagFree
    let m := setMagic m rest heapMagic
    let m := setReserved m rest 0
    let m := setNext m rest (getNext m block)
    let m := setPrev m rest block
    let m := linkBack m (getNext m block) rest
    let m := setNext m block rest
    setSize m block need

/-- The block behind `block` becomes part of it. -/
def absorb (m : Mem) (block nextBlock : Nat) : Mem :=
  let m := setSize m block (getSize m block + (blockSize + getSize m nextBlock))
  let m := setNext m block (getNext m nextBlock)
  linkBack m (getNext m nextBlock) block

/-- `heap_coalesce`. -/
def heapCoalesce (m : Mem) (block : Nat) : Mem :=
  let next := getNext m block
  let m := if next ≠ 0 ∧ isFree m next then absorb m block next else m
  let prev := getPrev m block
  if prev ≠ 0 ∧ isFree m prev then absorb m prev block else m

/-- `heap_account_grow`. -/
def heapAccountGrow (h : Heap) (amount : Nat) : Heap :=
  let inUse := h.bytesInUse + UInt64.ofNat amount
  { h with bytesInUse := inUse, peakBytes := if inUse > h.peakBytes then inUse else h.peakBytes }

/-- `heap_account_shrink`. -/
def heapAccountShrink (h : Heap) (amount : Nat) : Heap :=
  { h with bytesInUse :=
      if h.bytesInUse ≥ UInt64.ofNat amount then h.bytesInUse - UInt64.ofNat amount else 0 }

/-! ## The interface -/

/-- The header of the one block of a new arena. -/
def stampFirst (m : Mem) (block usable : Nat) : Mem :=
  let m := setSize m block (usable - blockSize)
  let m := setFlags m block flagFree
  let m := setMagic m block heapMagic
  let m := setReserved m block 0
  let m := setNext m block 0
  setPrev m block 0

/-- `owheap_init`, on a heap record that holds anything. -/
def owheapInit (h : Heap) (arena : Nat) (arenaSize : UInt64) : Bool × Heap :=
  if arena = 0 then (false, h)
  else
    let aligned := (arena + (heapUnit - 1)) % 2 ^ 64 / heapUnit * heapUnit
    let skip := (aligned + (2 ^ 64 - arena)) % 2 ^ 64
    if arenaSize.toNat ≤ skip then (false, h)
    else
      let usable := arenaSize.toNat - skip
      if usable ≤ blockSize + heapUnit then (false, h)
      else if usable > 0xFFFFFFFF then (false, h)
      else
        (true,
          { mem := stampFirst h.mem aligned usable
            arena := aligned
            arenaSize := usable
            head := aligned
            allocCount := 0
            freeCount := 0
            bytesInUse := 0
            peakBytes := 0
            initialized := true })

/-- The walk of `owheap_alloc`: the first free block of at least `need` bytes, 0 when there is
none, `none` when the count of turns runs out. -/
def findFit (m : Mem) (need : Nat) : Nat → Nat → Option Nat
  | _, 0 => some 0
  | 0, _ + 1 => none
  | n + 1, b + 1 =>
    if isFree m (b + 1) = false then findFit m need n (getNext m (b + 1))
    else if getSize m (b + 1) < need then findFit m need n (getNext m (b + 1))
    else some (b + 1)

/-- A free block is taken for `need` bytes. -/
def takeBlock (h : Heap) (block need : Nat) : Heap :=
  let m := heapSplit h.mem block need
  let m := setFlags m block (getFlags m block &&& (2 ^ 32 - 1 - flagFree))
  let h := { h with mem := m, allocCount := h.allocCount + 1 }
  heapAccountGrow h (getSize h.mem block)

/-- The number of turns after which a walk through memory has come round. -/
def walkBound : Nat := 2 ^ 64

/-- `owheap_alloc`, with the pointer it returns, 0 for null.  The answer is `none` when its walk
along the blocks does not end. -/
def owheapAlloc (h : Heap) (size : UInt64) : Option (Nat × Heap) :=
  if h.initialized = false ∨ size = 0 then some (0, h)
  else
    let need := heapAlign size
    if need = 0 then some (0, h)
    else
      match findFit h.mem need walkBound h.head with
      | none => none
      | some 0 => some (0, h)
      | some (b + 1) => some (heapPayload (b + 1), takeBlock h (b + 1) need)

/-- The checks that `owheap_free` and `owheap_realloc` make of a pointer. -/
def passes (h : Heap) (ptr : Nat) : Bool :=
  !(ptr < h.arena || ptr ≥ h.arena + h.arenaSize) &&
    getMagic h.mem (heapHeader ptr) = heapMagic && !isFree h.mem (heapHeader ptr)

/-- `owheap_free`. -/
def owheapFree (h : Heap) (ptr : Nat) : Bool × Heap :=
  if h.initialized = false ∨ ptr = 0 then (false, h)
  else if passes h ptr = false then (false, h)
  else
    let block := heapHeader ptr
    let h := heapAccountShrink h (getSize h.mem block)
    let m := setFlags h.mem block (getFlags h.mem block ||| flagFree)
    (true, { h with mem := heapCoalesce m block, freeCount := h.freeCount + 1 })

/-- The copying loop of `owheap_realloc`. -/
def copyLoop (m : Mem) (dst src : Nat) : Nat → Mem
  | 0 => m
  | n + 1 => copyLoop (store m dst [m src]) (dst + 1) (src + 1) n

/-- The last part of `owheap_realloc`: the bytes move to a fresh block. -/
def moveBlock (h : Heap) (ptr : Nat) (newSize : UInt64) (original need : Nat) :
    Option (Nat × Heap) :=
  match owheapAlloc h newSize with
  | none => none
  | some (0, h) => some (0, h)
  | some (fresh + 1, h) =>
    let copy := if original < need then original else need
    let h := { h with mem := copyLoop h.mem (fresh + 1) ptr copy }
    some (fresh + 1, (owheapFree h ptr).2)

/-- `owheap_realloc`. -/
def owheapRealloc (h : Heap) (ptr : Nat) (newSize : UInt64) : Option (Nat × Heap) :=
  if h.initialized = false then some (0, h)
  else if ptr = 0 then owheapAlloc h newSize
  else if newSize = 0 then some (0, (owheapFree h ptr).2)
  else if passes h ptr = false then some (0, h)
  else
    let block := heapHeader ptr
    let need := heapAlign newSize
    if need = 0 then some (0, h)
    else
      let original := getSize h.mem block
      let h := heapAccountShrink h original
      if need ≤ original then
        let h := { h with mem := heapSplit h.mem block need }
        some (ptr, heapAccountGrow h (getSize h.mem block))
      else
        let next := getNext h.mem block
        if next ≠ 0 ∧ isFree h.mem next ∧
            (original + blockSize + getSize h.mem next) % 2 ^ 32 ≥ need then
          let h := { h with mem := heapSplit (absorb h.mem block next) block need }
          some (ptr, heapAccountGrow h (getSize h.mem block))
        else moveBlock (heapAccountGrow h original) ptr newSize original need

end Owheap
