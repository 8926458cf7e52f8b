import OpenWindows.Lib.Crc
import OpenWindows.Lib.Logged

/-!
# The loader for OWX images

`owelf_load`, `owelf_relocate` and `owelf_resolve_imports` (`owelf64.c`).  The file
does not change; the load buffer and the `owelf_image_t` are the state.  Every byte of
the file or of the buffer that is read or written is logged.  Pointers are not null.
-/

namespace Owelf

open Bytes Memory Logged

/-- `owelf_status_t`, without `OWELF_OK`. -/
inductive Status where
  | errArg
  | errMagic
  | errVersion
  | errHeader
  | errChecksum
  | errTruncated
  | errRange
  | errSection
  | errNotLoaded
  | errReloc
  | errImport
  | errResolve
deriving DecidableEq

/-- Why a call ends early: with a status, or out of the rounds a loop was given. -/
inductive Stop where
  | status (s : Status)
  | rounds
deriving DecidableEq

/-- `owelf_header_info_t`. -/
structure HeaderInfo where
  magic : UInt32
  version : UInt32
  flags : UInt32
  entryPoint : UInt32
  sectionCount : UInt32
  importCount : UInt32
  exportCount : UInt32
  imageSize : UInt64
  stackSize : UInt32
  heapSize : UInt32
  checksum : UInt32
  subsystem : UInt32

/-- `owelf_section_t`. -/
structure Section where
  type : UInt32
  flags : UInt32
  virtualAddr : UInt64
  fileOffset : UInt64
  size : UInt64
  checksum : UInt32
  reserved : UInt32

/-- `owelf_import_t`. -/
structure Import where
  moduleNameOff : UInt32
  symbolTableOff : UInt32
  iatOff : UInt32
  symbolCount : UInt32
  checksum : UInt32
  reserved : UInt32

/-- `owelf_image_t`, without its two pointers: they are those of the call that loaded. -/
structure Image where
  fileSize : UInt64
  capacity : UInt64
  header : HeaderInfo
  sectionTableOff : UInt32
  importTableOff : UInt32
  stringTableOff : UInt32
  delta : Int64
  loaded : Bool

/-- An image after `owelf_bzero`. -/
def Image.zero : Image :=
  { fileSize := 0, capacity := 0
    header :=
      { magic := 0, version := 0, flags := 0, entryPoint := 0, sectionCount := 0, importCount := 0
        exportCount := 0, imageSize := 0, stackSize := 0, heapSize := 0, checksum := 0
        subsystem := 0 }
    sectionTableOff := 0, importTableOff := 0, stringTableOff := 0, delta := 0, loaded := false }

/-- The two regions that a loader touches. -/
inductive Region where
  | file
  | buffer
deriving DecidableEq

/-- The load buffer, the image and what the resolver keeps. -/
structure State (U : Type) where
  buffer : Mem
  image : Image
  user : U

/-- A file and the capacity of a load buffer: separate objects of one address space. -/
structure Input where
  file : Mem
  size : UInt64
  capacity : UInt64
  fits : size.toNat + capacity.toNat ≤ 2 ^ 64

abbrev Loader (U α : Type) := ExceptT Stop (Run Region (State U)) α

variable {U : Type}

/-! ## Field access -/

def readFile (file : Mem) (a n : Nat) : Loader U (List UInt8) :=
  ExceptT.lift (Run.read .file a n fun _ => load file a n)

def readBuffer (a n : Nat) : Loader U (List UInt8) :=
  ExceptT.lift (Run.read .buffer a n fun s => load s.buffer a n)

def writeBuffer (a : Nat) (bs : List UInt8) : Loader U Unit :=
  ExceptT.lift (Run.write .buffer a bs.length fun s => { s with buffer := store s.buffer a bs })

def getImage : Loader U Image := ExceptT.lift (Run.look fun s => s.image)

def changeImage (f : Image → Image) : Loader U Unit :=
  ExceptT.lift (Run.change fun s => { s with image := f s.image })

/-- Return with a status. -/
def fail {α : Type} (s : Status) : Loader U α := throw (.status s)

/-- `owelf_rd_u32` on the file. -/
def rdU32 (file : Mem) (a : Nat) : Loader U UInt32 :=
  return UInt32.ofNat (leNum (← readFile file a 4))

/-- `owelf_rd_u64` on the file. -/
def rdU64 (file : Mem) (a : Nat) : Loader U UInt64 :=
  return UInt64.ofNat (leNum (← readFile file a 8))

/-! ## Header and section table -/

/-- `owelf_parse_header`. -/
def owelfParseHeader (file : Mem) (size : UInt64) : Loader U HeaderInfo := do
  if size < 256 then fail .errTruncated
  let magic ← rdU32 file 0x00
  if magic ≠ 0x4F575831 then fail .errMagic
  let version ← rdU32 file 0x04
  if version ≠ 1 then fail .errVersion
  let flags ← rdU32 file 0x08
  let entryPoint ← rdU32 file 0x0C
  let sectionCount ← rdU32 file 0x10
  let importCount ← rdU32 file 0x14
  let exportCount ← rdU32 file 0x18
  let imageSize ← rdU64 file 0x1C
  let stackSize ← rdU32 file 0x24
  let heapSize ← rdU32 file 0x28
  let checksum ← rdU32 file 0x2C
  let subsystem ← rdU32 file 0x30
  if sectionCount > 64 then fail .errHeader
  if importCount > 128 then fail .errHeader
  if imageSize = 0 then fail .errHeader
  if entryPoint.toUInt64 ≥ imageSize then fail .errHeader
  let tableEnd := 256 + sectionCount.toUInt64 * 40
  if tableEnd > size then fail .errTruncated
  let importEnd := tableEnd + importCount.toUInt64 * 24
  if importEnd > size then fail .errTruncated
  return { magic, version, flags, entryPoint, sectionCount, importCount, exportCount, imageSize
           stackSize, heapSize, checksum, subsystem }

/-- `owelf_decode_section`. -/
def owelfDecodeSection (file : Mem) (sectionTableOff : UInt32) (index : Nat) : Loader U Section := do
  let e := sectionTableOff.toNat + index * 40
  let type ← rdU32 file (e + 0)
  let flags ← rdU32 file (e + 4)
  let virtualAddr ← rdU64 file (e + 8)
  let fileOffset ← rdU64 file (e + 16)
  let size ← rdU64 file (e + 24)
  let checksum ← rdU32 file (e + 32)
  let reserved ← rdU32 file (e + 36)
  return { type, flags, virtualAddr, fileOffset, size, checksum, reserved }

/-- `owelf_compute_checksum`: the stored checksum reads as zero. -/
def owelfComputeChecksum (file : Mem) (size : UInt64) : Loader U UInt32 := do
  let bytes ← readFile file 0 size.toNat
  return UInt32.ofNat (Crc.crc32c (bytes.mapIdx fun i b => if 0x2C ≤ i ∧ i < 0x2C + 4 then 0 else b))

/-- `owelf_validate`. -/
def owelfValidate (file : Mem) (size : UInt64) : Loader U HeaderInfo := do
  let info ← owelfParseHeader file size
  let computed ← owelfComputeChecksum file size
  if computed ≠ info.checksum then fail .errChecksum
  return info

/-! ## Loading -/

/-- One round of the loop of `owelf_load`. -/
def loadSection (file : Mem) (size capacity imageSize : UInt64) (index : Nat) : Loader U Unit := do
  let sec ← owelfDecodeSection file 256 index
  let vaddrEnd := sec.virtualAddr + sec.size
  if vaddrEnd < sec.virtualAddr then fail .errSection
  if vaddrEnd > imageSize then fail .errSection
  if vaddrEnd > capacity then fail .errRange
  if sec.type = 0x04 then
    writeBuffer sec.virtualAddr.toNat (List.replicate sec.size.toNat 0)
  else
    let fileEnd := sec.fileOffset + sec.size
    if fileEnd < sec.fileOffset ∨ fileEnd > size then fail .errSection
    let bytes ← readFile file sec.fileOffset.toNat sec.size.toNat
    writeBuffer sec.virtualAddr.toNat bytes
    if sec.size > 0 then
      let copied ← readBuffer sec.virtualAddr.toNat sec.size.toNat
      if UInt32.ofNat (Crc.crc32c copied) ≠ sec.checksum then fail .errSection

/-- `owelf_load`. -/
def owelfLoad (file : Mem) (size capacity : UInt64) : Loader U Unit := do
  changeImage fun _ => Image.zero
  let info ← owelfValidate file size
  if info.imageSize > capacity then fail .errRange
  let importTableOff := (256 + info.sectionCount.toUInt64 * 40).toUInt32
  let stringTableOff := (importTableOff.toUInt64 + info.importCount.toUInt64 * 24).toUInt32
  changeImage fun _ =>
    { fileSize := size, capacity, header := info, sectionTableOff := 256, importTableOff
      stringTableOff, delta := 0, loaded := false }
  writeBuffer 0 (List.replicate info.imageSize.toNat 0)
  (List.range info.sectionCount.toNat).forM (loadSection file size capacity info.imageSize)
  changeImage fun image => { image with loaded := true }

/-! ## Base relocations -/

/-- `owelf_find_section` over the indices that are left. -/
def owelfFindSection (file : Mem) (sectionTableOff : UInt32) (type : UInt32) :
    List Nat → Loader U (Option Section)
  | [] => return none
  | i :: is => do
      let sec ← owelfDecodeSection file sectionTableOff i
      if sec.type = type then return some sec
      owelfFindSection file sectionTableOff type is

/-- The kinds of fixups. -/
inductive RelocType where
  | absolute
  | high
  | low
  | highlow
  | dir64

/-- The `switch` on the type. -/
def RelocType.ofNat : Nat → Option RelocType
  | 0 => some .absolute
  | 1 => some .high
  | 2 => some .low
  | 3 => some .highlow
  | 4 => some .dir64
  | _ => none

/-- The number of bytes that are patched. -/
def RelocType.width : RelocType → Nat
  | .absolute => 0
  | .high => 2
  | .low => 2
  | .highlow => 4
  | .dir64 => 8

def RelocType.patch (delta : Int64) (v : Nat) : RelocType → Nat
  | .absolute => v
  | .high => (UInt16.ofNat v + (delta.toUInt64 >>> 16).toUInt16).toNat
  | .low => (UInt16.ofNat v + (delta.toUInt64 &&& 0xFFFF).toUInt16).toNat
  | .highlow => (UInt32.ofNat v + (delta.toUInt64 &&& 0xFFFFFFFF).toUInt32).toNat
  | .dir64 => (UInt64.ofNat v + delta.toUInt64).toNat

/-- `owelf_apply_reloc`. -/
def owelfApplyReloc (target : UInt64) (type : Nat) (delta : Int64) : Loader U Unit := do
  match RelocType.ofNat type with
  | none => fail .errReloc
  | some .absolute => return
  | some t =>
    let image ← getImage
    let stop := target + UInt64.ofNat t.width
    if stop < target ∨ stop > image.header.imageSize ∨ stop > image.capacity then fail .errRange
    let v ← readBuffer target.toNat t.width
    writeBuffer target.toNat (leBytes t.width (t.patch delta (leNum v)))

def relocEntry (base : Nat) (page : UInt32) (delta : Int64) (k : Nat) : Loader U Unit := do
  let word ← readBuffer (base + 8 + k * 2) 2
  owelfApplyReloc (page.toUInt64 + UInt64.ofNat (leNum word % 2 ^ 12)) (leNum word / 2 ^ 12) delta

/-- The loop of `owelf_relocate`, over the payload at `payload`, for some rounds. -/
def relocBlocks (payload : Nat) (len : UInt64) (delta : Int64) : Nat → UInt64 → Loader U Unit
  | 0, _ => throw .rounds
  | rounds + 1, pos =>
    if pos + 8 ≤ len then do
      let page ← readBuffer (payload + pos.toNat) 4
      let bsize := UInt32.ofNat (leNum (← readBuffer (payload + pos.toNat + 4) 4))
      if bsize < 8 ∨ pos + bsize.toUInt64 > len then fail .errReloc
      (List.range ((bsize.toUInt64 - 8) / 2).toNat).forM
        (relocEntry (payload + pos.toNat) (UInt32.ofNat (leNum page)) delta)
      relocBlocks payload len delta rounds (pos + bsize.toUInt64)
    else if pos ≠ len then fail .errReloc
    else return

/-- `owelf_relocate`.  A block has at least eight bytes, which bounds the rounds. -/
def owelfRelocate (file : Mem) (delta : Int64) : Loader U Unit := do
  let image ← getImage
  if !image.loaded then fail .errNotLoaded
  match ← owelfFindSection file image.sectionTableOff 0x05
      (List.range image.header.sectionCount.toNat) with
  | none => changeImage fun image => { image with delta := image.delta + delta }
  | some sec =>
    relocBlocks sec.virtualAddr.toNat sec.size delta (sec.size.toNat / 8 + 1) 0
    changeImage fun image => { image with delta := image.delta + delta }

/-! ## Imports -/

/-- A resolver: from the places of the two names in the file, the address, or none
where it refuses. -/
abbrev Resolver (U : Type) := UInt64 → UInt64 → U → Option UInt64 × U

def callResolver (resolver : Resolver U) (moduleName symbol : UInt64) : Loader U (Option UInt64) :=
  ExceptT.lift fun s =>
    ((resolver moduleName symbol s.user).1, { s with user := (resolver moduleName symbol s.user).2 }, [])

def resolveSymbol (file : Mem) (image : Image) (resolver : Resolver U) (imp : Import)
    (modulePos : UInt64) (j : Nat) : Loader U Unit := do
  let nameSlot := imp.symbolTableOff.toUInt64 + UInt64.ofNat j * 4
  if nameSlot + 4 > image.fileSize then fail .errImport
  let nameOff ← rdU32 file nameSlot.toNat
  let namePos := image.stringTableOff.toUInt64 + nameOff.toUInt64
  if namePos ≥ image.fileSize then fail .errImport
  match ← callResolver resolver modulePos namePos with
  | none => fail .errResolve
  | some address =>
    let iatSlot := imp.iatOff.toUInt64 + UInt64.ofNat j * 8
    if iatSlot + 8 > image.header.imageSize ∨ iatSlot + 8 > image.capacity then fail .errImport
    writeBuffer iatSlot.toNat (leBytes 8 address.toNat)

def resolveImport (file : Mem) (image : Image) (resolver : Resolver U) (i : Nat) : Loader U Unit := do
  let entry := image.importTableOff.toNat + i * 24
  let moduleNameOff ← rdU32 file (entry + 0)
  let symbolTableOff ← rdU32 file (entry + 4)
  let iatOff ← rdU32 file (entry + 8)
  let symbolCount ← rdU32 file (entry + 12)
  let checksum ← rdU32 file (entry + 16)
  let reserved ← rdU32 file (entry + 20)
  let modulePos := image.stringTableOff.toUInt64 + moduleNameOff.toUInt64
  if modulePos ≥ image.fileSize then fail .errImport
  (List.range symbolCount.toNat).forM
    (resolveSymbol file image resolver
      { moduleNameOff, symbolTableOff, iatOff, symbolCount, checksum, reserved } modulePos)

/-- `owelf_resolve_imports`. -/
def owelfResolveImports (file : Mem) (resolver : Resolver U) : Loader U Unit := do
  let image ← getImage
  if !image.loaded then fail .errNotLoaded
  (List.range image.header.importCount.toNat).forM (resolveImport file image resolver)

/-! ## Sequences of calls -/

/-- The calls. -/
inductive Call (U : Type) where
  | load
  | relocate (delta : Int64)
  | resolveImports (resolver : Resolver U)

def Call.run (input : Input) : Call U → Loader U Unit
  | .load => owelfLoad input.file input.size input.capacity
  | .relocate delta => owelfRelocate input.file delta
  | .resolveImports resolver => owelfResolveImports input.file resolver

def runCalls (input : Input) : List (Call U) → Run Region (State U) (List (Except Stop Unit))
  | [] => return []
  | c :: cs => do
      let status ← (c.run input).run
      return status :: (← runCalls input cs)

end Owelf
