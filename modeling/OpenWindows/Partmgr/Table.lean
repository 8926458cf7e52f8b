import OpenWindows.Lib.Crc
import OpenWindows.Lib.Logged

/-!
# Partition tables

`partmgr_read_mbr`, `partmgr_read_gpt` and `partmgr_scan` (`partmgr.c`).  The block
reader of the caller is any function with a state of its own; each call of it is
logged with the sector and the number of sectors.
-/

namespace Partmgr

open Bytes Memory Logged

/-- `partmgr_status_t`. -/
inductive Status where
  | ok
  | errInvalidParam
  | errNotInitialized
  | errIo
  | errNoTable
  | errCrc
  | errNoSpace
deriving DecidableEq

/-- `partmgr_style_t`. -/
inductive Style where
  | none
  | mbr
  | gpt
deriving DecidableEq

/-- `partmgr_entry_t`. -/
structure Entry where
  index : Nat
  bootable : Bool
  gpt : Bool
  mbrType : UInt8
  typeGuid : List UInt8
  uniqueGuid : List UInt8
  firstLba : UInt64
  lastLba : UInt64
  sectorCount : UInt64
  name : List UInt16

/-- `partmgr_table_t`; the list holds the `entry_count` entries that are filled. -/
structure Table where
  style : Style
  protectiveMbr : Bool
  diskGuid : List UInt8
  valid : Bool
  entries : List Entry

/-- A table after `ow_memset`. -/
def Table.zero : Table :=
  { style := .none, protectiveMbr := false, diskGuid := List.replicate 16 0, valid := false
    entries := [] }

/-- `PARTMGR_MAX_ENTRIES`. -/
def maxEntries : Nat := 16

/-- `PARTMGR_MAX_EBR_CHAIN`. -/
def maxEbrChain : Nat := 64

/-- `PARTMGR_GPT_MAX_BYTES`. -/
def gptMaxBytes : UInt32 := 128 * 128

/-- `partmgr_t` with the static buffer `g_partmgr_gpt`; `ctx` is what the reader keeps. -/
structure Pm (C : Type) where
  ctx : C
  table : Table
  staging : Mem
  initialized : Bool

/-- `partmgr_read_fn`: the sectors that were read, or none for a failure. -/
abbrev Reader (C : Type) := C → UInt64 → UInt32 → Option Mem × C

/-- A call on the partition manager. -/
abbrev Action (C α : Type) := Run Unit (Pm C) α

variable {C : Type} (reader : Reader C)

def readSectors (lba : UInt64) (count : UInt32) : Action C (Option Mem) := fun pm =>
  ((reader pm.ctx lba count).1, { pm with ctx := (reader pm.ctx lba count).2 },
    [{ region := (), isWrite := false, addr := lba.toNat, size := count.toNat }])

def changeTable (f : Table → Table) : Action C Unit :=
  Run.change fun pm => { pm with table := f pm.table }

/-- `pm_rd32le`. -/
def pmRd32le (p : Mem) (a : Nat) : UInt32 := UInt32.ofNat (loadNum p a 4)

/-- `pm_rd64le`. -/
def pmRd64le (p : Mem) (a : Nat) : UInt64 := UInt64.ofNat (loadNum p a 8)

/-- `pm_crc32`. -/
def pmCrc32 (data : List UInt8) : UInt32 :=
  Crc.maskedPass 0xEDB88320 0xFFFFFFFF data ^^^ 0xFFFFFFFF

/-- `pm_guid_is_zero`. -/
def pmGuidIsZero (p : Mem) (a : Nat) : Bool := (load p a 16).all fun b => b == 0

/-! ## MBR -/

/-- `pm_mbr_type_is_extended`. -/
def pmMbrTypeIsExtended (type : UInt8) : Bool := type == 0x05 || type == 0x0F || type == 0x85

/-- `pm_store_mbr_entry`, for the entry at an offset of a sector. -/
def pmStoreMbrEntry (sector : Mem) (entry : Nat) (absFirst : UInt64) (table : Table) : Table :=
  let type := sector (entry + 4)
  if type = 0 ∨ type = 0xEE then table
  else if table.entries.length ≥ maxEntries then table
  else
    let sectorCount := (pmRd32le sector (entry + 12)).toUInt64
    let dst : Entry :=
      { index := table.entries.length + 1, bootable := sector entry &&& 0x80 ≠ 0, gpt := false
        mbrType := type, typeGuid := List.replicate 16 0, uniqueGuid := List.replicate 16 0
        firstLba := absFirst
        lastLba := if sectorCount > 0 then absFirst + sectorCount - 1 else absFirst
        sectorCount, name := List.replicate 36 0 }
    { table with entries := table.entries ++ [dst] }

/-- `pm_follow_extended`, for the links that are left. -/
def pmFollowExtended (base : UInt64) : Nat → UInt64 → Action C Status
  | 0, _ => return .errNoTable
  | links + 1, current => do
      match ← readSectors reader current 1 with
      | none => return .errIo
      | some ebr =>
        if ebr 510 ≠ 0x55 ∨ ebr 511 ≠ 0xAA then return .errNoTable
        changeTable (pmStoreMbrEntry ebr 446 (current + (pmRd32le ebr (446 + 8)).toUInt64))
        if !pmMbrTypeIsExtended (ebr (462 + 4)) then return .ok
        pmFollowExtended base links (base + (pmRd32le ebr (462 + 8)).toUInt64)

/-- The four primary entries: the table, and the base of the last extended one. -/
def scanPrimary (sector : Mem) (acc : Table × Option UInt64) (i : Nat) : Table × Option UInt64 :=
  let entry := 446 + i * 16
  let type := sector (entry + 4)
  if type = 0xEE then ({ acc.1 with protectiveMbr := true }, acc.2)
  else if pmMbrTypeIsExtended type then (acc.1, some (pmRd32le sector (entry + 8)).toUInt64)
  else (pmStoreMbrEntry sector entry (pmRd32le sector (entry + 8)).toUInt64 acc.1, acc.2)

/-- `partmgr_read_mbr`. -/
def partmgrReadMbr (sector : Mem) : Action C Status := do
  if !(← Run.look fun pm => pm.initialized) then return .errInvalidParam
  changeTable fun _ => { Table.zero with style := .mbr }
  if ¬ (sector 510 = 0x55 ∧ sector 511 = 0xAA) then return .errNoTable
  changeTable fun table => { table with valid := true }
  let scanned := (List.range 4).foldl (scanPrimary sector) (← Run.look fun pm => pm.table, none)
  changeTable fun _ => scanned.1
  match scanned.2 with
  | none => return .ok
  | some base =>
    let _ ← pmFollowExtended reader base maxEbrChain base
    return .ok

/-! ## GPT -/

/-- The loop of `pm_read_gpt_entries`. -/
def readGptChunks (entriesLba : UInt64) (sectors off : Nat) : Action C Status :=
  if off < sectors then do
    let chunk := min (sectors - off) 32
    match ← readSectors reader (entriesLba + UInt64.ofNat off) (UInt32.ofNat chunk) with
    | none => return .errIo
    | some data =>
      Run.change fun pm =>
        { pm with staging := store pm.staging (off * 512) (load data 0 (chunk * 512)) }
      readGptChunks entriesLba sectors (off + chunk)
  else return .ok
termination_by sectors - off

/-- `pm_read_gpt_entries`. -/
def pmReadGptEntries (entriesLba : UInt64) (totalBytes : UInt32) : Action C Status := do
  let sectors := (totalBytes + (512 - 1)) / 512
  if totalBytes > gptMaxBytes then return .errNoSpace
  readGptChunks reader entriesLba sectors.toNat 0

/-- The entry for the slot at an offset of the entry array. -/
def gptEntry (gpt : Mem) (src : Nat) (index : Nat) : Entry :=
  let firstLba := pmRd64le gpt (src + 32)
  let lastLba := pmRd64le gpt (src + 40)
  { index, bootable := false, gpt := true, mbrType := 0, typeGuid := load gpt src 16
    uniqueGuid := load gpt (src + 16) 16, firstLba, lastLba
    sectorCount := if lastLba ≥ firstLba then lastLba - firstLba + 1 else 0
    name := (List.range 36).map fun c => UInt16.ofNat (loadNum gpt (src + 56 + c * 2) 2) }

/-- One round of the loop over the slots. -/
def storeGptSlot (gpt : Mem) (entrySize : Nat) (entries : List Entry) (i : Nat) : List Entry :=
  if pmGuidIsZero gpt (i * entrySize) then entries
  else entries ++ [gptEntry gpt (i * entrySize) (entries.length + 1)]

def checkGptHeader (header : Mem) : Option Status :=
  if load header 0 8 ≠ [0x45, 0x46, 0x49, 0x20, 0x50, 0x41, 0x52, 0x54] then some .errNoTable
  else
    let headerSize := pmRd32le header 12
    if headerSize < 92 ∨ headerSize > 512 then some .errCrc
    else if pmCrc32 (load (storeNum header 16 4 0) 0 headerSize.toNat) ≠ pmRd32le header 16 then
      some .errCrc
    else none

/-- `partmgr_read_gpt`. -/
def partmgrReadGpt : Action C Status := do
  if !(← Run.look fun pm => pm.initialized) then return .errInvalidParam
  match ← readSectors reader 1 1 with
  | none => return .errIo
  | some header =>
    match checkGptHeader header with
    | some status => return status
    | none =>
      let entryCount := pmRd32le header 80
      let entrySize := pmRd32le header 84
      let entriesCrc := pmRd32le header 88
      let entriesLba := pmRd64le header 72
      if entrySize < 128 ∨ entryCount = 0 then return .errNoTable
      if entryCount > gptMaxBytes / entrySize then return .errNoSpace
      let totalBytes := entryCount * entrySize
      let status ← pmReadGptEntries reader entriesLba totalBytes
      if status ≠ .ok then return status
      let gpt ← Run.look fun pm => pm.staging
      if pmCrc32 (load gpt 0 totalBytes.toNat) ≠ entriesCrc then return .errCrc
      changeTable fun _ =>
        { style := .gpt, valid := true, protectiveMbr := true, diskGuid := load header 56 16
          entries := (List.range (min entryCount.toNat maxEntries)).foldl
            (storeGptSlot gpt entrySize.toNat) [] }
      return .ok

/-! ## Scanning -/

/-- `partmgr_scan`. -/
def partmgrScan : Action C Status := do
  if !(← Run.look fun pm => pm.initialized) then return .errNotInitialized
  match ← readSectors reader 0 1 with
  | none => return .errIo
  | some sector =>
    let status ← partmgrReadMbr reader sector
    if status ≠ .ok then return status
    if ← Run.look fun pm => pm.table.protectiveMbr then
      let _ ← partmgrReadGpt reader
    return .ok

end Partmgr
