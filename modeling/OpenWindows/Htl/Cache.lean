import Mathlib.Algebra.Group.Int.Defs
import Mathlib.Algebra.Group.Nat.Defs
import Mathlib.Data.List.Basic

/-!
# The block cache of the hardware translation layer

`htl_read_cached` and `htl_write_cached` keep blocks of registered devices in an array of
entries that the caller provides, `htl_flush_device_cache` writes the dirty ones back, and
`htl_unregister_device` moves the devices behind the removed one down and renumbers their
entries.

A registered device has the blocks that its driver holds.  What the driver answers to a call is
a parameter: a call that answers `HTL_OK` reads or stores the block, every other call changes
nothing.
-/

namespace Htl

/-! ## Data -/

/-- `htl_status_t`. -/
abbrev HtlStatus : Type := UInt32

def htlOk : HtlStatus := 0
def htlErrIo : HtlStatus := 0x0011A000
def htlErrInvalidBlock : HtlStatus := 0x0011A001
def htlErrNotReady : HtlStatus := 0x0011A801
def htlErrWriteProtect : HtlStatus := 0x0011A802
def htlErrNoDevice : HtlStatus := 0x0011AE00
def htlErrInvalidParam : HtlStatus := 0x0011AE01

/-- `VIP_SECTOR_SIZE`. -/
def vipSectorSize : Nat := 512

/-- `HTL_CACHE_DATA_SIZE`. -/
def htlCacheDataSize : Nat := 4096

/-- `HTL_MAX_DEVICES`. -/
def htlMaxDevices : Nat := 8

/-- A block of `HTL_CACHE_DATA_SIZE` bytes. -/
structure Block where
  bytes : List UInt8
  full : bytes.length = htlCacheDataSize

/-- A block of one byte throughout. -/
def Block.fill (b : UInt8) : Block := ⟨List.replicate htlCacheDataSize b, List.length_replicate⟩

/-- `htl_stats_t`. -/
structure Stats where
  reads : Nat
  writes : Nat
  flushes : Nat
  errors : Nat
  bytesRead : Nat
  bytesWritten : Nat

def Stats.zero : Stats := ⟨0, 0, 0, 0, 0, 0⟩

/-- `htl_device_t`: the callbacks only as whether they are there, with what the driver holds
and the `stats` of the slot. -/
structure Device where
  readBlock : Bool
  writeBlock : Bool
  flushCache : Bool
  blockSize : Nat
  totalBlocks : Nat
  writeProtect : Bool
  store : Nat → Block
  stats : Stats

/-- `htl_cache_entry_t`. -/
structure CacheEntry where
  blockNum : Nat
  dirty : Bool
  valid : Bool
  deviceIdx : Nat
  accessOrder : Nat
  data : Block

/-- `htl_cache_t`.  The capacity is the length of `entries`. -/
structure Cache where
  entries : List CacheEntry
  count : Nat
  hits : Nat
  misses : Nat

/-- `htl_context_t`.  `device_count` is the length of `devices`. -/
structure Context where
  devices : List Device
  cache : Cache
  accessCounter : Nat

/-- `sat_add_u64`. -/
def satAddU64 (a b : Nat) : Nat :=
  let r := (a + b) % 2 ^ 64
  if r < a then 2 ^ 64 - 1 else r

/-- `device_valid`. -/
def deviceValid (dev : Device) : Bool :=
  dev.readBlock && dev.writeBlock && dev.blockSize != 0 && dev.totalBlocks != 0

/-- A `uint32_t` as an `int32_t`. -/
def asInt32 (i : Nat) : Int := (BitVec.ofNat 32 i).toInt

/-- `ctx->access_counter + 1`. -/
def nextOrder (n : Nat) : Nat := (n + 1) % 2 ^ 32

/-- An update of `stats[device_idx]`. -/
def Context.account (C : Context) (d : Nat) (f : Stats → Stats) : Context :=
  { C with devices := C.devices.modify d fun dev => { dev with stats := f dev.stats } }

def Stats.addError (s : Stats) : Stats := { s with errors := satAddU64 s.errors 1 }

def Stats.addFlush (s : Stats) : Stats := { s with flushes := satAddU64 s.flushes 1 }

def Stats.addRead (n : Nat) (s : Stats) : Stats :=
  { s with reads := satAddU64 s.reads 1, bytesRead := satAddU64 s.bytesRead n }

def Stats.addWrite (n : Nat) (s : Stats) : Stats :=
  { s with writes := satAddU64 s.writes 1, bytesWritten := satAddU64 s.bytesWritten n }

/-! ## The cache -/

def CacheEntry.Is (d b : Nat) (e : CacheEntry) : Bool :=
  e.valid && e.deviceIdx == d % 2 ^ 8 && e.blockNum == b

/-- `cache_find`: the index of the entry, or -1. -/
def cacheFind (c : Cache) (d b : Nat) : Int :=
  match (c.entries.take c.count).findIdx? (CacheEntry.Is d b) with
  | some i => asInt32 i
  | none => -1

/-- The oldest entry that is not dirty, from index `i` on. -/
def oldestClean : List CacheEntry → Nat → Option Nat → Nat → Option Nat
  | [], _, victim, _ => victim
  | e :: es, i, victim, oldest =>
    if !e.dirty ∧ e.accessOrder < oldest then oldestClean es (i + 1) (some i) e.accessOrder
    else oldestClean es (i + 1) victim oldest

/-- `cache_insert`. -/
def cacheInsert (c : Cache) (d b : Nat) (data : Block) (order : Nat) : HtlStatus × Cache :=
  let e : CacheEntry := ⟨b, false, true, d % 2 ^ 8, order, data⟩
  if c.entries.length = 0 then (htlErrInvalidParam, c)
  else
    match c.entries.findIdx? fun e => !e.valid with
    | some i =>
      (htlOk, { c with
        entries := c.entries.set i e
        count := if c.count < c.entries.length then c.count + 1 else c.count })
    | none =>
      match oldestClean c.entries 0 none (2 ^ 32 - 1) with
      | some i => (htlOk, { c with entries := c.entries.set i e })
      | none => (htlErrIo, c)

/-- `htl_init`, with `cap` entries. -/
def htlInit (cap : Nat) : Context where
  devices := []
  cache := ⟨List.replicate cap ⟨0, false, false, 0, 0, .fill 0⟩, 0, 0, 0⟩
  accessCounter := 0

/-! ## Devices -/

/-- The arguments of `htl_register_device`, with what the driver holds. -/
structure Registration where
  readFn : Bool
  writeFn : Bool
  flushFn : Bool
  blockSize : Nat
  totalBlocks : Nat
  store : Nat → Block

/-- `htl_register_device`. -/
def htlRegisterDevice (C : Context) (r : Registration) : HtlStatus × Context :=
  if !r.readFn || !r.writeFn then (htlErrInvalidParam, C)
  else if r.blockSize = 0 ∨ r.totalBlocks = 0 then (htlErrInvalidParam, C)
  else if C.devices.length ≥ htlMaxDevices then (htlErrInvalidParam, C)
  else
    (htlOk, { C with devices := C.devices ++
      [⟨r.readFn, r.writeFn, r.flushFn, r.blockSize, r.totalBlocks, false, r.store, .zero⟩] })

/-- The entry without its block, if it is one of device `d`. -/
def CacheEntry.invalidate (d : Nat) (e : CacheEntry) : CacheEntry :=
  if e.valid && e.deviceIdx == d % 2 ^ 8 then { e with valid := false, dirty := false } else e

/-- `htl_invalidate_cache`. -/
def htlInvalidateCache (C : Context) (d : Nat) : HtlStatus × Context :=
  if d ≥ C.devices.length then (htlErrNoDevice, C)
  else
    (htlOk, { C with cache := { C.cache with
      entries := C.cache.entries.map (CacheEntry.invalidate d) } })

/-- The entries of device `src` become entries of device `dst`. -/
def renumber (count src dst : Nat) (es : List CacheEntry) : List CacheEntry :=
  es.mapIdx fun i e =>
    if i < count ∧ e.valid ∧ e.deviceIdx = src % 2 ^ 8 then { e with deviceIdx := dst % 2 ^ 8 }
    else e

/-- The entries after `n` devices behind `d` moved down. -/
def renumbered (count d : Nat) : Nat → List CacheEntry → List CacheEntry
  | 0, es => es
  | n + 1, es => renumber count (d + 1 + n) (d + n) (renumbered count d n es)

/-- `htl_unregister_device`. -/
def htlUnregisterDevice (C : Context) (d : Nat) : HtlStatus × Context :=
  if d ≥ C.devices.length then (htlErrNoDevice, C)
  else
    let C := (htlInvalidateCache C d).2
    (htlOk, { C with
      devices := C.devices.eraseIdx d
      cache := { C.cache with
        entries := renumbered C.cache.count d (C.devices.length - d - 1) C.cache.entries } })

/-! ## Cached reads and writes -/

/-- `htl_read_cached`: `buf` tells whether there is a buffer, `drv` is the answer of the
driver.  The block is what the buffer then holds. -/
def htlReadCached (C : Context) (d b : Nat) (buf : Bool) (drv : HtlStatus) :
    HtlStatus × Option Block × Context :=
  match C.devices[d]? with
  | none => (htlErrNoDevice, none, C)
  | some dev =>
    if !buf then (htlErrInvalidParam, none, C)
    else if !deviceValid dev then (htlErrNotReady, none, C)
    else if b ≥ dev.totalBlocks then (htlErrInvalidBlock, none, C)
    else
      let idx := cacheFind C.cache d b
      if idx ≥ 0 then
        (htlOk, C.cache.entries[idx.toNat]?.map (·.data),
          { C with cache := { C.cache with hits := satAddU64 C.cache.hits 1 } })
      else
        let C := { C with cache := { C.cache with misses := satAddU64 C.cache.misses 1 } }
        if drv ≠ htlOk then (drv, none, C.account d .addError)
        else
          let order := nextOrder C.accessCounter
          let C := { C with
            accessCounter := order
            cache := (cacheInsert C.cache d b (dev.store b) order).2 }
          (htlOk, some (dev.store b), C.account d (.addRead dev.blockSize))

/-- `entries[idx].dirty = 1`, where the index is one. -/
def Cache.markDirty (c : Cache) (idx : Int) : Cache :=
  if idx ≥ 0 then
    { c with entries := c.entries.modify idx.toNat fun e => { e with dirty := true } }
  else c

/-- `htl_write_cached`. -/
def htlWriteCached (C : Context) (d b : Nat) (buf : Option Block) : HtlStatus × Context :=
  match C.devices[d]? with
  | none => (htlErrNoDevice, C)
  | some dev =>
    match buf with
    | none => (htlErrInvalidParam, C)
    | some data =>
      if !deviceValid dev then (htlErrNotReady, C)
      else if dev.writeProtect then (htlErrWriteProtect, C)
      else if b ≥ dev.totalBlocks then (htlErrInvalidBlock, C)
      else
        let idx := cacheFind C.cache d b
        if idx ≥ 0 then
          let C := { C with
            accessCounter := nextOrder C.accessCounter
            cache := { C.cache with
              entries := C.cache.entries.modify idx.toNat fun e =>
                { e with data := data, dirty := true, accessOrder := C.accessCounter } } }
          (htlOk, C.account d (.addWrite dev.blockSize))
        else
          let order := nextOrder C.accessCounter
          let C := { C with accessCounter := order }
          let (st, cache) := cacheInsert C.cache d b data order
          if st ≠ htlOk then (st, { C with cache := cache })
          else
            let C := { C with cache := cache.markDirty (cacheFind cache d b) }
            (htlOk, C.account d (.addWrite dev.blockSize))

/-! ## Flushing -/

/-- One turn of `htl_flush_device_cache`, with the context and `last_err` so far.  `drv i` is
the answer of the driver for entry `i`. -/
def flushEntry (drv : Nat → HtlStatus) (d : Nat) (acc : Context × HtlStatus) (i : Nat) :
    Context × HtlStatus :=
  match acc.1.cache.entries[i]? with
  | none => acc
  | some e =>
    if e.valid && e.dirty && e.deviceIdx == d % 2 ^ 8 then
      if drv i ≠ htlOk then (acc.1.account d .addError, drv i)
      else
        ({ acc.1 with
          devices := acc.1.devices.modify d fun dev =>
            { dev with store := Function.update dev.store e.blockNum e.data }
          cache := { acc.1.cache with
            entries := acc.1.cache.entries.set i { e with dirty := false } } }, acc.2)
    else acc

/-- `htl_flush_device_cache`.  `drvFlush` is the answer of `flush_cache`. -/
def htlFlushDeviceCache (C : Context) (d : Nat) (drv : Nat → HtlStatus) (drvFlush : HtlStatus) :
    HtlStatus × Context :=
  match C.devices[d]? with
  | none => (htlErrNoDevice, C)
  | some dev =>
    if !deviceValid dev then (htlErrNotReady, C)
    else
      let (C, lastErr) :=
        (List.range C.cache.entries.length).foldl (flushEntry drv d) (C, htlOk)
      let (C, lastErr) :=
        if dev.flushCache ∧ drvFlush ≠ htlOk then (C.account d .addError, drvFlush)
        else (C, lastErr)
      (lastErr, C.account d .addFlush)

/-! ## Reads past the cache -/

/-- The loop of `htl_read_sectors`, with the sectors that remain, the driver calls and the bytes
so far.  The count bounds its turns, each of which reads a sector. -/
def readSectorsLoop (dev : Device) (drv : Nat → HtlStatus) :
    Nat → Nat → Nat → Nat → List UInt8 → Except HtlStatus (List UInt8)
  | 0, _, _, _, out => .ok out
  | n + 1, remaining, calls, lba, out =>
    if remaining = 0 then .ok out
    else
      let sectorsPerBlock := dev.blockSize / vipSectorSize
      let blockNum := lba / sectorsPerBlock % 2 ^ 32
      let offsetInBlock := lba % sectorsPerBlock
      let toRead := min remaining (sectorsPerBlock - offsetInBlock)
      if drv calls ≠ htlOk then .error (drv calls)
      else
        let bytes := (dev.store blockNum).bytes
        let piece :=
          if offsetInBlock ≠ 0 ∨ toRead < sectorsPerBlock then
            (bytes.drop (offsetInBlock * vipSectorSize)).take (toRead * vipSectorSize)
          else bytes
        readSectorsLoop dev drv n (remaining - toRead) (calls + 1) ((lba + toRead) % 2 ^ 64)
          (out ++ piece)

/-- `htl_read_sectors`.  `drv k` is the answer of the driver to call `k`. -/
def htlReadSectors (C : Context) (d lba count : Nat) (buf : Bool) (drv : Nat → HtlStatus) :
    HtlStatus × Option (List UInt8) × Context :=
  match C.devices[d]? with
  | none => (htlErrNoDevice, none, C)
  | some dev =>
    if !buf ∨ count = 0 then (htlErrInvalidParam, none, C)
    else if !deviceValid dev then (htlErrNotReady, none, C)
    else if (lba + count) % 2 ^ 64 > dev.totalBlocks * (dev.blockSize / vipSectorSize) then
      (htlErrInvalidBlock, none, C)
    else
      match readSectorsLoop dev drv count count 0 lba [] with
      | .error st => (st, none, C.account d .addError)
      | .ok out => (htlOk, some out, C.account d (.addRead (count * vipSectorSize)))

end Htl
