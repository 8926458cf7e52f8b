import OpenWindows.Lib.Crc

/-!
# The recovery context

`damage_control.c` runs the recovery script in a `.sentinel` image.  The image
starts with a header of 128 bytes that two checksums protect: one over the header
from `0x10` on, one over the whole file with its own field taken as zero.
`dc_context_init` checks the header and binds a context to the image.
-/

namespace Sentinel

open Memory Crc

/-! ## The header -/

/-- `sentinel_header_t`, the fields that are read -/
structure SentinelHeader where
  magic : Nat
  formatVersion : Nat
  headerSize : Nat
  imageSize : Nat
  headerChecksum : Nat
  triggerBancode : Nat
  triggerTrapIndex : Nat
  directiveCount : Nat
  checksumCount : Nat
  triggerCount : Nat
  directiveTableOffset : Nat
  checksumTableOffset : Nat
  triggerTableOffset : Nat
  stringTableOffset : Nat
  stringTableSize : Nat
  imageChecksum : Nat

def readHeader (image : Mem) : SentinelHeader where
  magic := loadNum image 0x00 4
  formatVersion := loadNum image 0x04 2
  headerSize := loadNum image 0x06 2
  imageSize := loadNum image 0x08 4
  headerChecksum := loadNum image 0x0C 4
  triggerBancode := loadNum image 0x10 4
  triggerTrapIndex := loadNum image 0x14 4
  directiveCount := loadNum image 0x18 4
  checksumCount := loadNum image 0x1C 4
  triggerCount := loadNum image 0x20 4
  directiveTableOffset := loadNum image 0x24 4
  checksumTableOffset := loadNum image 0x28 4
  triggerTableOffset := loadNum image 0x2C 4
  stringTableOffset := loadNum image 0x30 4
  stringTableSize := loadNum image 0x34 4
  imageChecksum := loadNum image 0x58 4

/-- `sentinel_header_valid` -/
def sentinelHeaderValid (h : SentinelHeader) : Bool :=
  if h.magic ≠ 0x534E544C then false
  else if h.headerSize ≠ 128 then false
  else if 64 < h.directiveCount then false
  else if 32 < h.checksumCount then false
  else if 16 < h.triggerCount then false
  else if h.triggerBancode < 0x0011A000 ∨ 0x0011A7FF < h.triggerBancode then false
  else if h.triggerTrapIndex < 0x7FFFFFF0 / 2 ^ 28 ∨ 0x7FFFFFFE / 2 ^ 28 < h.triggerTrapIndex then
    false
  else true

/-- The statuses that `dc_context_init` returns. -/
inductive SentinelStatus where
  | errInvalidMagic
  | errUnsupportedVer
  | errHeaderCrc
  | errBancodeOutRange
deriving DecidableEq

/-! ## The checksums of the image -/

/-- `dc_crc32c` -/
def dcCrc32c (image : Mem) (offset length : Nat) : Nat := crc32c (load image offset length)

/-- `dc_crc32c_skip` -/
def dcCrc32cSkip (image : Mem) (length skipOff skipLen : Nat) : Nat :=
  crc32c ((List.range length).map fun i =>
    if skipOff ≤ i ∧ i < skipOff + skipLen then 0 else image i)

/-- `dc_validate_header_checksum` -/
def dcValidateHeaderChecksum (h : SentinelHeader) (image : Mem) : Bool :=
  dcCrc32c image 0x10 0x70 == h.headerChecksum

/-- `dc_validate_image_checksum` -/
def dcValidateImageChecksum (h : SentinelHeader) (image : Mem) (imageSize : Nat) : Bool :=
  dcCrc32cSkip image imageSize 0x58 4 == h.imageChecksum

/-! ## The log -/

/-- `DC_LOG_TYPE_*` -/
inductive LogType where
  | info
  | warn
  | error
  | directive
  | checksum
  | bancode
  | recovery
deriving DecidableEq

/-- `dc_log_entry_t`, with its text -/
structure LogEntry where
  bancode : Nat
  type : LogType
  directiveIndex : Nat
  messageOffset : Nat
  message : String
  detail : Nat
deriving DecidableEq

/-- `dc_recovery_log_t` -/
structure RecoveryLog where
  entries : List LogEntry
  capacity : Nat
  stringTableUsed : Nat
deriving DecidableEq

/-- `dc_log_append` -/
def dcLogAppend (log : RecoveryLog) (type : LogType) (bancode directiveIndex : Nat)
    (message : String) (detail : Nat) : RecoveryLog :=
  if log.capacity ≤ log.entries.length then log
  else
    let needed := message.utf8ByteSize + 1
    let entryArea := log.capacity * 24 % 2 ^ 32
    let tableCapacity := if entryArea < 0xFFFFFFFF then 0xFFFFFFFF - entryArea else 0
    if tableCapacity < (log.stringTableUsed + needed) % 2 ^ 32 then log
    else
      { log with
        entries := log.entries ++
          [{ bancode := bancode, type := type, directiveIndex := directiveIndex % 2 ^ 8
             messageOffset := log.stringTableUsed % 2 ^ 16, message := message, detail := detail }]
        stringTableUsed := (log.stringTableUsed + needed) % 2 ^ 32 }

/-! ## The context -/

/-- `dc_config_t`, the fields that are read -/
structure DcConfig where
  maxRetryPerTrigger : Nat
  abortOnFirstFail : Bool
  verboseLogging : Bool

/-- `DC_RECOVERY_*` -/
inductive RecoveryResult where
  | success
  | partialFailure
  | failed
  | unrecoverable
deriving DecidableEq

/-- `dc_context_t`; the tables are read from the image. -/
structure DcContext where
  header : SentinelHeader
  image : Mem
  imageSize : Nat
  config : DcConfig
  log : RecoveryLog
  currentDirective : Nat
  totalDirectivesExecuted : Nat
  totalDirectivesFailed : Nat
  recoveryAborted : Bool
  finalResult : RecoveryResult

/-- The checks of `dc_context_init` up to the two checksums. -/
def checkHeader (h : SentinelHeader) (imageSize : Nat) : Except SentinelStatus Unit :=
  if imageSize < 128 then .error .errInvalidMagic
  else if sentinelHeaderValid h = false then .error .errInvalidMagic
  else if h.formatVersion ≠ 0x0001 then .error .errUnsupportedVer
  else if h.imageSize ≠ imageSize then .error .errInvalidMagic
  else .ok ()

/-- The checks of `dc_context_init` after the two checksums. -/
def checkTables (h : SentinelHeader) (imageSize : Nat) : Except SentinelStatus Unit :=
  if 64 < h.directiveCount then .error .errInvalidMagic
  else if 32 < h.checksumCount then .error .errInvalidMagic
  else if 16 < h.triggerCount then .error .errInvalidMagic
  else if h.triggerBancode < 0x0011A000 ∨ 0x0011A7FF < h.triggerBancode then
    .error .errBancodeOutRange
  else if h.directiveTableOffset < 128 then .error .errInvalidMagic
  else if imageSize < h.directiveTableOffset + h.directiveCount * 16 then .error .errInvalidMagic
  else if h.checksumTableOffset < 128 then .error .errInvalidMagic
  else if imageSize < h.checksumTableOffset + h.checksumCount * 24 then .error .errInvalidMagic
  else if h.triggerTableOffset < 128 then .error .errInvalidMagic
  else if imageSize < h.triggerTableOffset + h.triggerCount * 16 then .error .errInvalidMagic
  else if h.stringTableOffset < 128 then .error .errInvalidMagic
  else if imageSize < h.stringTableOffset + h.stringTableSize then .error .errInvalidMagic
  else .ok ()

def freshContext (image : Mem) (imageSize : Nat) (config : DcConfig) (log : RecoveryLog) :
    DcContext :=
  { header := readHeader image, image := image, imageSize := imageSize, config := config, log := log
    currentDirective := 0, totalDirectivesExecuted := 0, totalDirectivesFailed := 0
    recoveryAborted := false, finalResult := .success }

/-- `dc_context_init` -/
def dcContextInit (image : Mem) (imageSize : Nat) (config : DcConfig) (log : RecoveryLog) :
    Except SentinelStatus DcContext := do
  let h := readHeader image
  checkHeader h imageSize
  if dcValidateHeaderChecksum h image = false then throw .errHeaderCrc
  if dcValidateImageChecksum h image imageSize = false then throw .errHeaderCrc
  checkTables h imageSize
  return freshContext image imageSize config log

/-- The image passes the checks of `dc_context_init` other than the checksums. -/
def Structural (image : Mem) (imageSize : Nat) : Prop :=
  checkHeader (readHeader image) imageSize = .ok () ∧
    checkTables (readHeader image) imageSize = .ok ()

theorem dcContextInit_eq_ok {image : Mem} {imageSize : Nat} {config : DcConfig} {log : RecoveryLog}
    {ctx : DcContext} :
    dcContextInit image imageSize config log = .ok ctx ↔
      Structural image imageSize ∧ dcValidateHeaderChecksum (readHeader image) image = true ∧
        dcValidateImageChecksum (readHeader image) image imageSize = true ∧
        ctx = freshContext image imageSize config log := by
  unfold dcContextInit Structural
  cases hh : checkHeader (readHeader image) imageSize with
  | error e => simp [hh, bind, Except.bind]
  | ok _ =>
    cases hc : dcValidateHeaderChecksum (readHeader image) image with
    | false => simp [hh, hc, bind, Except.bind, throw, throwThe, MonadExceptOf.throw]
    | true =>
      cases hi : dcValidateImageChecksum (readHeader image) image imageSize with
      | false => simp [hh, hc, hi, bind, Except.bind, throw, throwThe, MonadExceptOf.throw]
      | true =>
        cases ht : checkTables (readHeader image) imageSize with
        | error e => simp [hh, hc, hi, ht, bind, Except.bind]
        | ok _ => simp [hh, hc, hi, ht, bind, Except.bind, pure, Except.pure, eq_comm]

end Sentinel
