import OpenWindows.Lib.Crc
import OpenWindows.Lib.Logged

/-!
# Crash dumps

`bdmp_build` and `bdmp_validate` (`bdmp_core.h`) over the layout of `bdmp_format.h`.
A dump is a header of 256 bytes, the register frame, the trap records and a memory
image.  Machine words keep their width; what the validator reads is logged.
-/

namespace Bdmp

open Bytes Memory Logged

/-- `bdmp_cpu_frame_t`. -/
@[ext] structure CpuFrame where
  rax : UInt64
  rbx : UInt64
  rcx : UInt64
  rdx : UInt64
  rsi : UInt64
  rdi : UInt64
  rbp : UInt64
  rsp : UInt64
  r8 : UInt64
  r9 : UInt64
  r10 : UInt64
  r11 : UInt64
  r12 : UInt64
  r13 : UInt64
  r14 : UInt64
  r15 : UInt64
  rip : UInt64
  rflags : UInt64
  cr0 : UInt64
  cr2 : UInt64
  cr3 : UInt64
  cr4 : UInt64

/-- `bdmp_trap_record_t`. -/
@[ext] structure TrapRecord where
  bancode : UInt32
  trapSlot : UInt32
  timestamp : UInt64
  contextIp : UInt64

def wordBytes (w : UInt64) : List UInt8 := leBytes 8 w.toNat

namespace CpuFrame

/-- The registers in the order of the record. -/
def words (f : CpuFrame) : List UInt64 :=
  [f.rax, f.rbx, f.rcx, f.rdx, f.rsi, f.rdi, f.rbp, f.rsp, f.r8, f.r9, f.r10, f.r11,
   f.r12, f.r13, f.r14, f.r15, f.rip, f.rflags, f.cr0, f.cr2, f.cr3, f.cr4]

def bytes (f : CpuFrame) : List UInt8 := f.words.flatMap wordBytes

end CpuFrame

def TrapRecord.bytes (t : TrapRecord) : List UInt8 :=
  leBytes 4 t.bancode.toNat ++ (leBytes 4 t.trapSlot.toNat ++
    (wordBytes t.timestamp ++ wordBytes t.contextIp))

/-- `BDMP_MAGIC`. -/
def bdmpMagic : UInt32 := 0x42444D50

/-- `BDMP_HEADER_SIZE`. -/
def bdmpHeaderSize : UInt32 := 256

/-- `BDMP_FORMAT_VERSION`. -/
def bdmpFormatVersion : UInt16 := 1

/-- `BDMP_MAX_TRAPS`. -/
def bdmpMaxTraps : UInt32 := 64

/-- `BDMP_TRAP_RECORD_SIZE`. -/
def bdmpTrapRecordSize : UInt32 := 24

/-- `BDMP_TRAP_TABLE_OFFSET`: the header and 22 registers. -/
def bdmpTrapTableOffset : UInt32 := 432

/-! ## Checksums -/

/-- `bdmp_crc32c_pass`. -/
def bdmpCrc32cPass (crc : UInt32) (data : List UInt8) : UInt32 :=
  Crc.maskedPass 0x82F63B78 crc data

/-- `bdmp_crc32c`. -/
def bdmpCrc32c (data : List UInt8) : UInt32 := ~~~bdmpCrc32cPass 0xFFFFFFFF data

/-! ## Layout -/

/-- `bdmp_align8`. -/
def bdmpAlign8 (x : UInt32) : UInt32 := (x + 7) &&& ~~~7

/-- `bdmp_body_min_offset`. -/
def bdmpBodyMinOffset (trapCount : UInt32) : UInt32 :=
  bdmpAlign8 (bdmpTrapTableOffset + trapCount * bdmpTrapRecordSize)

/-- The values `bdmp_build` puts into the header. -/
structure HeaderValues where
  primaryBancode : UInt32
  cpuId : UInt32
  tsc : UInt64
  cr2 : UInt64

/-- The header fields, stored in the order of the code, with both checksums zero. -/
def writeHeader (m : Mem) (values : HeaderValues) (trapCount memOff memSize total : UInt32) : Mem :=
  let m := storeNum m 0x00 4 bdmpMagic.toNat
  let m := storeNum m 0x04 2 bdmpFormatVersion.toNat
  let m := storeNum m 0x06 2 bdmpHeaderSize.toNat
  let m := storeNum m 0x08 4 total.toNat
  let m := storeNum m 0x0C 4 0
  let m := storeNum m 0x10 4 values.primaryBancode.toNat
  let m := storeNum m 0x14 4 values.cpuId.toNat
  let m := storeNum m 0x18 8 values.tsc.toNat
  let m := storeNum m 0x20 8 values.cr2.toNat
  let m := storeNum m 0x28 4 trapCount.toNat
  let m := storeNum m 0x2C 4 0
  let m := storeNum m 0x30 4 0
  let m := storeNum m 0x34 4 memOff.toNat
  let m := storeNum m 0x38 8 memSize.toNat
  storeNum m 0x40 4 0

/-- The first `n` records of an array. -/
def trapBytes (traps : Option (Nat → TrapRecord)) (n : Nat) : List UInt8 :=
  match traps with
  | none => []
  | some ts => ((List.range n).map ts).flatMap TrapRecord.bytes

/-- The first `n` bytes of an array. -/
def memBytes (mem : Option (Nat → UInt8)) (n : Nat) : List UInt8 :=
  match mem with
  | none => []
  | some bs => (List.range n).map bs

/-- The buffer before the checksums: cleared, then header, frame, traps and memory. -/
def layOut (out : Mem) (values : HeaderValues) (frame : CpuFrame)
    (traps : Option (Nat → TrapRecord)) (trapCount : UInt32) (mem : Option (Nat → UInt8))
    (memSize memOff total : UInt32) : Mem :=
  let m := store out 0 (List.replicate total.toNat 0)
  let m := writeHeader m values trapCount memOff memSize total
  let m := store m 0x100 frame.bytes
  let m := store m bdmpTrapTableOffset.toNat (trapBytes traps trapCount.toNat)
  store m memOff.toNat (memBytes mem memSize.toNat)

/-- Store `dump_checksum`, then `header_checksum`. -/
def sealDump (m : Mem) (total : UInt32) : Mem :=
  let m := storeNum m 0x40 4 (bdmpCrc32c (load m 0 total.toNat)).toNat
  storeNum m 0x0C 4 (bdmpCrc32c (load m 0x10 0xF0)).toNat

/-- `bdmp_build`, for an `out` that is not null; null pointers are `none`.  Gives the
buffer and the size, zero for a refusal. -/
def bdmpBuild (out : Mem) (cap : UInt32) (frame : Option CpuFrame)
    (traps : Option (Nat → TrapRecord)) (trapCount : UInt32) (values : HeaderValues)
    (mem : Option (Nat → UInt8)) (memSize : UInt32) : Mem × UInt32 :=
  match frame with
  | none => (out, 0)
  | some frame =>
    if trapCount > bdmpMaxTraps then (out, 0)
    else if trapCount ≠ 0 ∧ traps.isNone then (out, 0)
    else if memSize ≠ 0 ∧ mem.isNone then (out, 0)
    else
      let memOff := bdmpBodyMinOffset trapCount
      let total := memOff + memSize
      if total < memOff then (out, 0)
      else if total > cap then (out, 0)
      else (sealDump (layOut out values frame traps trapCount mem memSize memOff total) total, total)

/-! ## Reading a dump -/

/-- `h->dump_size`. -/
def dumpSize (buf : Mem) : UInt32 := UInt32.ofNat (loadNum buf 0x08 4)

/-- `h->trap_count`. -/
def trapCountOf (buf : Mem) : UInt32 := UInt32.ofNat (loadNum buf 0x28 4)

/-- `h->memory_dump_offset`. -/
def memoryDumpOffset (buf : Mem) : UInt32 := UInt32.ofNat (loadNum buf 0x34 4)

/-- `h->memory_dump_size`. -/
def memoryDumpSize (buf : Mem) : UInt64 := UInt64.ofNat (loadNum buf 0x38 8)

/-- `bdmp_cpu_frame`: the record at its offset. -/
def bdmpCpuFrame (buf : Mem) : CpuFrame :=
  let reg (i : Nat) : UInt64 := UInt64.ofNat (loadNum buf (0x100 + 8 * i) 8)
  { rax := reg 0, rbx := reg 1, rcx := reg 2, rdx := reg 3, rsi := reg 4, rdi := reg 5,
    rbp := reg 6, rsp := reg 7, r8 := reg 8, r9 := reg 9, r10 := reg 10, r11 := reg 11,
    r12 := reg 12, r13 := reg 13, r14 := reg 14, r15 := reg 15, rip := reg 16,
    rflags := reg 17, cr0 := reg 18, cr2 := reg 19, cr3 := reg 20, cr4 := reg 21 }

/-- `bdmp_traps(h)[i]`. -/
def bdmpTraps (buf : Mem) (i : Nat) : TrapRecord :=
  let a := bdmpTrapTableOffset.toNat + 24 * i
  { bancode := UInt32.ofNat (loadNum buf a 4)
    trapSlot := UInt32.ofNat (loadNum buf (a + 4) 4)
    timestamp := UInt64.ofNat (loadNum buf (a + 8) 8)
    contextIp := UInt64.ofNat (loadNum buf (a + 16) 8) }

/-- `bdmp_memory(h)[i]`. -/
def bdmpMemory (buf : Mem) (i : Nat) : UInt8 := buf ((memoryDumpOffset buf).toNat + i)

/-- A computation that reads the buffer. -/
abbrev Reads (α : Type) := Run Unit Unit α

/-- Bytes of the buffer. -/
def fetch (buf : Mem) (a n : Nat) : Reads (List UInt8) := Run.read () a n fun _ => load buf a n

/-- A field of 16 bits. -/
def fetch16 (buf : Mem) (a : Nat) : Reads UInt16 := (fun bs => UInt16.ofNat (leNum bs)) <$> fetch buf a 2

/-- A field of 32 bits. -/
def fetch32 (buf : Mem) (a : Nat) : Reads UInt32 := (fun bs => UInt32.ofNat (leNum bs)) <$> fetch buf a 4

/-- A field of 64 bits. -/
def fetch64 (buf : Mem) (a : Nat) : Reads UInt64 := (fun bs => UInt64.ofNat (leNum bs)) <$> fetch buf a 8

/-- The tail of `bdmp_validate`: the whole dump with both checksum fields as zero. -/
def checkDump (buf : Mem) (total : UInt32) : Reads Bool := do
  let zero4 : List UInt8 := [0, 0, 0, 0]
  let crc := bdmpCrc32cPass 0xFFFFFFFF (← fetch buf 0 0x0C)
  let crc := bdmpCrc32cPass crc zero4
  let crc := bdmpCrc32cPass crc (← fetch buf 0x10 0x30)
  let crc := bdmpCrc32cPass crc zero4
  let crc := bdmpCrc32cPass crc (← fetch buf 0x44 (total - 0x44).toNat)
  if ~~~crc ≠ (← fetch32 buf 0x40) then return false
  return true

/-- `bdmp_validate`, for a `buf` that is not null. -/
def bdmpValidate (buf : Mem) (len : UInt32) : Reads Bool := do
  if len < bdmpHeaderSize then return false
  if (← fetch32 buf 0x00) ≠ bdmpMagic then return false
  if (← fetch16 buf 0x04) ≠ bdmpFormatVersion then return false
  if (← fetch16 buf 0x06) ≠ bdmpHeaderSize.toUInt16 then return false
  let total ← fetch32 buf 0x08
  if total < bdmpHeaderSize ∨ total > len then return false
  let trapCount ← fetch32 buf 0x28
  if trapCount > bdmpMaxTraps then return false
  let memOff ← fetch32 buf 0x34
  if memOff < bdmpBodyMinOffset trapCount then return false
  if memOff > total then return false
  let memSize ← fetch64 buf 0x38
  if memOff.toUInt64 + memSize > total.toUInt64 then return false
  if bdmpCrc32c (← fetch buf 0x10 0xF0) ≠ (← fetch32 buf 0x0C) then return false
  checkDump buf total

/-! ## What is accepted -/

/-- The checks of `bdmp_validate`, all passed. -/
structure Valid (buf : Mem) (len : UInt32) : Prop where
  lenLe : bdmpHeaderSize ≤ len
  magic : UInt32.ofNat (loadNum buf 0x00 4) = bdmpMagic
  version : UInt16.ofNat (loadNum buf 0x04 2) = bdmpFormatVersion
  headerSize : UInt16.ofNat (loadNum buf 0x06 2) = bdmpHeaderSize.toUInt16
  totalGe : bdmpHeaderSize ≤ dumpSize buf
  totalLe : dumpSize buf ≤ len
  traps : trapCountOf buf ≤ bdmpMaxTraps
  offsetGe : bdmpBodyMinOffset (trapCountOf buf) ≤ memoryDumpOffset buf
  offsetLe : memoryDumpOffset buf ≤ dumpSize buf
  inside : (memoryDumpOffset buf).toUInt64 + memoryDumpSize buf ≤ (dumpSize buf).toUInt64
  headerChecksum : bdmpCrc32c (load buf 0x10 0xF0) = UInt32.ofNat (loadNum buf 0x0C 4)
  dumpChecksum : bdmpCrc32c (load buf 0 0x0C ++ ([0, 0, 0, 0] ++ (load buf 0x10 0x30 ++
    ([0, 0, 0, 0] ++ load buf 0x44 (dumpSize buf - 0x44).toNat)))) =
      UInt32.ofNat (loadNum buf 0x40 4)

theorem bdmpCrc32cPass_append (crc : UInt32) (as bs : List UInt8) :
    bdmpCrc32cPass crc (as ++ bs) = bdmpCrc32cPass (bdmpCrc32cPass crc as) bs := List.foldl_append

@[simp] theorem value_fetch (buf : Mem) (a n : Nat) (s : Unit) :
    Run.value (fetch buf a n) s = load buf a n := rfl

@[simp] theorem value_fetch16 (buf : Mem) (a : Nat) (s : Unit) :
    Run.value (fetch16 buf a) s = UInt16.ofNat (loadNum buf a 2) := rfl

@[simp] theorem value_fetch32 (buf : Mem) (a : Nat) (s : Unit) :
    Run.value (fetch32 buf a) s = UInt32.ofNat (loadNum buf a 4) := rfl

@[simp] theorem value_fetch64 (buf : Mem) (a : Nat) (s : Unit) :
    Run.value (fetch64 buf a) s = UInt64.ofNat (loadNum buf a 8) := rfl

theorem value_checkDump {buf : Mem} {total : UInt32} :
    Run.value (checkDump buf total) () = true ↔
      bdmpCrc32c (load buf 0 0x0C ++ ([0, 0, 0, 0] ++ (load buf 0x10 0x30 ++
        ([0, 0, 0, 0] ++ load buf 0x44 (total - 0x44).toNat)))) = UInt32.ofNat (loadNum buf 0x40 4) := by
  unfold bdmpCrc32c
  rw [bdmpCrc32cPass_append, bdmpCrc32cPass_append, bdmpCrc32cPass_append, bdmpCrc32cPass_append]
  simp only [checkDump, Run.value_bind, Run.value_reject, Run.value_pure]
  simp

theorem value_bdmpValidate {buf : Mem} {len : UInt32} :
    Run.value (bdmpValidate buf len) () = true ↔ Valid buf len := by
  have hsplit : Run.value (bdmpValidate buf len) () = true ↔ bdmpHeaderSize ≤ len ∧
      UInt32.ofNat (loadNum buf 0x00 4) = bdmpMagic ∧
      UInt16.ofNat (loadNum buf 0x04 2) = bdmpFormatVersion ∧
      UInt16.ofNat (loadNum buf 0x06 2) = bdmpHeaderSize.toUInt16 ∧
      (bdmpHeaderSize ≤ dumpSize buf ∧ dumpSize buf ≤ len) ∧ trapCountOf buf ≤ bdmpMaxTraps ∧
      bdmpBodyMinOffset (trapCountOf buf) ≤ memoryDumpOffset buf ∧
      memoryDumpOffset buf ≤ dumpSize buf ∧
      (memoryDumpOffset buf).toUInt64 + memoryDumpSize buf ≤ (dumpSize buf).toUInt64 ∧
      bdmpCrc32c (load buf 0x10 0xF0) = UInt32.ofNat (loadNum buf 0x0C 4) ∧
      Run.value (checkDump buf (dumpSize buf)) () = true := by
    refine Run.value_reject.trans (and_congr UInt32.not_lt ?_)
    refine Run.value_bind_reject.trans (and_congr not_not ?_)
    refine Run.value_bind_reject.trans (and_congr not_not ?_)
    refine Run.value_bind_reject.trans (and_congr not_not ?_)
    refine Run.value_bind_reject.trans (and_congr ?_ ?_)
    · rw [not_or, UInt32.not_lt, gt_iff_lt, UInt32.not_lt]
      rfl
    refine Run.value_bind_reject.trans (and_congr UInt32.not_lt ?_)
    refine Run.value_bind_reject.trans (and_congr UInt32.not_lt ?_)
    refine Run.value_reject.trans (and_congr UInt32.not_lt ?_)
    refine Run.value_bind_reject.trans (and_congr UInt64.not_lt ?_)
    rw [Run.value_bind]
    exact Run.value_bind_reject.trans (and_congr not_not Iff.rfl)
  rw [hsplit, value_checkDump]
  constructor
  · rintro ⟨h1, h2, h3, h4, ⟨h5, h6⟩, h7, h8, h9, h10, h11, h12⟩
    exact ⟨h1, h2, h3, h4, h5, h6, h7, h8, h9, h10, h11, h12⟩
  · rintro ⟨h1, h2, h3, h4, h5, h6, h7, h8, h9, h10, h11, h12⟩
    exact ⟨h1, h2, h3, h4, ⟨h5, h6⟩, h7, h8, h9, h10, h11, h12⟩

end Bdmp
