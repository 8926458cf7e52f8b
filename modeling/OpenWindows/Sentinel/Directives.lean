import OpenWindows.Sentinel.Checksum

/-!
# Directives

A directive of the script has an opcode, conditions, and operands in the image.
The fifteen handlers check their operands and, when logging is verbose, leave an
entry in the log.
-/

namespace Sentinel

open Memory

/-- `DC_DIRECTIVE_*` -/
inductive DirectiveStatus where
  | ok
  | skipped
  | failed
  | criticalFail
deriving DecidableEq

/-- `sentinel_directive_header_t` -/
structure DirectiveHeader where
  opcode : Nat
  operandSize : Nat
  conditionFlags : Nat
  operandOffset : Nat
  checksumIndex : Nat

/-- The entries of the directive table, 16 bytes each. -/
def DcContext.directiveAt (ctx : DcContext) (index : Nat) : DirectiveHeader :=
  let base := ctx.header.directiveTableOffset + 16 * index
  { opcode := loadNum ctx.image base 1
    operandSize := loadNum ctx.image (base + 1) 1
    conditionFlags := loadNum ctx.image (base + 2) 2
    operandOffset := loadNum ctx.image (base + 4) 4
    checksumIndex := loadNum ctx.image (base + 8) 4 }

/-- A flag of `condition_flags`. -/
def DirectiveHeader.has (dir : DirectiveHeader) (flag : Nat) : Bool :=
  dir.conditionFlags &&& flag != 0

/-- `SENTINEL_COND_CHECKSUM_OK`, `_CHECKSUM_BAD`, `_RETRY`, `_CRITICAL` -/
def condChecksumOk : Nat := 0x0001

def condChecksumBad : Nat := 0x0002

def condCritical : Nat := 0x0008

/-- `dc_log_append` on the log of a context. -/
def DcContext.append (ctx : DcContext) (type : LogType) (bancode directiveIndex : Nat)
    (message : String) (detail : Nat) : DcContext :=
  { ctx with log := dcLogAppend ctx.log type bancode directiveIndex message detail }

/-- An entry that is only made when logging is verbose. -/
def DcContext.verbose (ctx : DcContext) (type : LogType) (bancode directiveIndex : Nat)
    (message : String) (detail : Nat) : DcContext :=
  if ctx.config.verboseLogging then ctx.append type bancode directiveIndex message detail else ctx

/-! ## The handlers -/

/-- The `k`-th 32-bit operand of a directive. -/
def operand (ctx : DcContext) (dir : DirectiveHeader) (k : Nat) : Nat :=
  loadNum ctx.image (dir.operandOffset + 4 * k) 4

/-- What most handlers do: the operands must be there and pass a check, and the
action is logged. -/
def handle (ctx : DcContext) (dir : DirectiveHeader) (size : Nat) (rejected : Bool)
    (type : LogType) (bancode : Nat) (message : String) (detail : Nat) :
    DcContext × DirectiveStatus :=
  if dir.operandSize < size then (ctx, .failed)
  else if rejected then (ctx, .failed)
  else (ctx.verbose type bancode ctx.currentDirective message detail, .ok)

/-- A region of the image, as the handlers compare it: the sum is a `uint32_t`. -/
def outside (ctx : DcContext) (offset size : Nat) : Bool :=
  decide (ctx.imageSize < (offset + size) % 2 ^ 32)

/-- `dc_handle_noop` -/
def dcHandleNoop (ctx : DcContext) : DcContext × DirectiveStatus := (ctx, .ok)

/-- `dc_handle_restore_shadow` -/
def dcHandleRestoreShadow (ctx : DcContext) (dir : DirectiveHeader) : DcContext × DirectiveStatus :=
  let sectors := operand ctx dir 2
  handle ctx dir 12 (sectors == 0 || decide (128 < sectors)) .directive ctx.header.triggerBancode
    "restore shadow FAT" (operand ctx dir 0)

/-- `dc_handle_isolate_bus` -/
def dcHandleIsolateBus (ctx : DcContext) (dir : DirectiveHeader) : DcContext × DirectiveStatus :=
  handle ctx dir 8 false .directive ctx.header.triggerBancode "isolate bus" (operand ctx dir 0)

/-- `dc_handle_log_state`, which logs nothing for an empty region -/
def dcHandleLogState (ctx : DcContext) (dir : DirectiveHeader) : DcContext × DirectiveStatus :=
  if dir.operandSize < 12 then (ctx, .failed)
  else if outside ctx (operand ctx dir 0) (operand ctx dir 1) then (ctx, .failed)
  else if operand ctx dir 1 = 0 then (ctx, .ok)
  else (ctx.verbose .directive ctx.header.triggerBancode ctx.currentDirective
    "log diagnostic state" (operand ctx dir 1), .ok)

/-- `dc_handle_reset_device` -/
def dcHandleResetDevice (ctx : DcContext) (dir : DirectiveHeader) : DcContext × DirectiveStatus :=
  handle ctx dir 8 false .directive ctx.header.triggerBancode "reset device" (operand ctx dir 0)

/-- `dc_handle_rebuild_fvip` -/
def dcHandleRebuildFvip (ctx : DcContext) (dir : DirectiveHeader) : DcContext × DirectiveStatus :=
  handle ctx dir 16
    (outside ctx (operand ctx dir 0) (operand ctx dir 1) ||
      outside ctx (operand ctx dir 2) (operand ctx dir 3) ||
      (operand ctx dir 1 == 0 || operand ctx dir 3 == 0))
    .directive ctx.header.triggerBancode "rebuild FVIP from UniVIP" (operand ctx dir 1)

/-- `dc_handle_flush_cache` -/
def dcHandleFlushCache (ctx : DcContext) (dir : DirectiveHeader) : DcContext × DirectiveStatus :=
  handle ctx dir 8 false .directive ctx.header.triggerBancode "flush OWFS cache" (operand ctx dir 1)

/-- `dc_handle_checkpoint` -/
def dcHandleCheckpoint (ctx : DcContext) (dir : DirectiveHeader) : DcContext × DirectiveStatus :=
  handle ctx dir 12 (outside ctx (operand ctx dir 1) (operand ctx dir 2)) .directive
    ctx.header.triggerBancode "write checkpoint" (operand ctx dir 0)

/-- `dc_handle_rollback` -/
def dcHandleRollback (ctx : DcContext) (dir : DirectiveHeader) : DcContext × DirectiveStatus :=
  handle ctx dir 4 false .directive ctx.header.triggerBancode "rollback to checkpoint"
    (operand ctx dir 0)

/-- `dc_handle_shutdown_fail` -/
def dcHandleShutdownFail (ctx : DcContext) (dir : DirectiveHeader) : DcContext × DirectiveStatus :=
  handle ctx dir 0 false .error ctx.header.triggerBancode "shutdown on unrecoverable failure" 0

/-- `dc_handle_relocate`, which logs nothing for no sectors -/
def dcHandleRelocate (ctx : DcContext) (dir : DirectiveHeader) : DcContext × DirectiveStatus :=
  if dir.operandSize < 12 then (ctx, .failed)
  else if operand ctx dir 2 = 0 then (ctx, .ok)
  else (ctx.verbose .directive ctx.header.triggerBancode ctx.currentDirective "relocate sectors"
    (operand ctx dir 2), .ok)

/-- `dc_handle_raise_bancode`, logged under the code it raises -/
def dcHandleRaiseBancode (ctx : DcContext) (dir : DirectiveHeader) : DcContext × DirectiveStatus :=
  let bancode := operand ctx dir 0
  handle ctx dir 4 (decide (bancode < 0x0011A000) || decide (0x0011A7FF < bancode)) .bancode bancode
    "raise BANcode" bancode

/-- `dc_handle_wait_event` -/
def dcHandleWaitEvent (ctx : DcContext) (dir : DirectiveHeader) : DcContext × DirectiveStatus :=
  handle ctx dir 8 false .directive ctx.header.triggerBancode "wait for hardware event"
    (operand ctx dir 0)

/-- `dc_handle_invoke_driver` -/
def dcHandleInvokeDriver (ctx : DcContext) (dir : DirectiveHeader) : DcContext × DirectiveStatus :=
  handle ctx dir 12
    (decide (ctx.imageSize ≤ operand ctx dir 0) ||
      outside ctx (operand ctx dir 1) (operand ctx dir 2))
    .directive ctx.header.triggerBancode "invoke .owc driver" (operand ctx dir 0)

/-- `dc_handle_invoke_dll` -/
def dcHandleInvokeDll (ctx : DcContext) (dir : DirectiveHeader) : DcContext × DirectiveStatus :=
  handle ctx dir 12
    (decide (ctx.imageSize ≤ operand ctx dir 0) ||
      outside ctx (operand ctx dir 1) (operand ctx dir 2))
    .directive ctx.header.triggerBancode "invoke .owd library" (operand ctx dir 0)

/-- The `switch` of `dc_execute_directive`. -/
def dispatch (ctx : DcContext) (dir : DirectiveHeader) : DcContext × DirectiveStatus :=
  match dir.opcode with
  | 0x00 => dcHandleNoop ctx
  | 0x01 => dcHandleRestoreShadow ctx dir
  | 0x02 => dcHandleIsolateBus ctx dir
  | 0x03 => dcHandleLogState ctx dir
  | 0x04 => dcHandleResetDevice ctx dir
  | 0x05 => dcHandleRebuildFvip ctx dir
  | 0x06 => dcHandleFlushCache ctx dir
  | 0x07 => dcHandleCheckpoint ctx dir
  | 0x08 => dcHandleRollback ctx dir
  | 0x09 => dcHandleShutdownFail ctx dir
  | 0x0A => dcHandleRelocate ctx dir
  | 0x0B => dcHandleRaiseBancode ctx dir
  | 0x0C => dcHandleWaitEvent ctx dir
  | 0x0D => dcHandleInvokeDriver ctx dir
  | 0x0E => dcHandleInvokeDll ctx dir
  | _ => (ctx, .failed)

/-- `dc_execute_directive` -/
def dcExecuteDirective (ctx : DcContext) (dir : DirectiveHeader) : DcContext × DirectiveStatus :=
  if 0 < dir.operandSize ∧ ctx.imageSize ≤ dir.operandOffset then (ctx, .failed)
  else if 0 < dir.operandSize ∧ ctx.imageSize - dir.operandOffset < dir.operandSize then
    (ctx, .failed)
  else
    let (ctx, status) := dispatch ctx dir
    let ctx :=
      { ctx with totalDirectivesExecuted := (ctx.totalDirectivesExecuted + 1) % 2 ^ 32 }
    if status = .ok ∨ status = .skipped then (ctx, status)
    else
      let ctx := { ctx with totalDirectivesFailed := (ctx.totalDirectivesFailed + 1) % 2 ^ 32 }
      (ctx.verbose .error ctx.header.triggerBancode ctx.currentDirective "directive failed"
        dir.opcode, status)

/-! ## What a directive leaves alone -/

/-- Two contexts of one script. -/
structure SameScript (ctx ctx' : DcContext) : Prop where
  header : ctx'.header = ctx.header
  image : ctx'.image = ctx.image
  imageSize : ctx'.imageSize = ctx.imageSize
  config : ctx'.config = ctx.config

/-- Two contexts that differ in the log and the counters only. -/
structure LogOnly (ctx ctx' : DcContext) : Prop extends SameScript ctx ctx' where
  currentDirective : ctx'.currentDirective = ctx.currentDirective
  recoveryAborted : ctx'.recoveryAborted = ctx.recoveryAborted
  finalResult : ctx'.finalResult = ctx.finalResult

variable {ctx ctx' ctx'' : DcContext} {dir : DirectiveHeader}

theorem SameScript.refl (ctx : DcContext) : SameScript ctx ctx := ⟨rfl, rfl, rfl, rfl⟩

theorem SameScript.trans (h : SameScript ctx ctx') (h' : SameScript ctx' ctx'') :
    SameScript ctx ctx'' :=
  ⟨h'.header.trans h.header, h'.image.trans h.image, h'.imageSize.trans h.imageSize,
    h'.config.trans h.config⟩

theorem LogOnly.refl (ctx : DcContext) : LogOnly ctx ctx := ⟨.refl ctx, rfl, rfl, rfl⟩

theorem LogOnly.trans (h : LogOnly ctx ctx') (h' : LogOnly ctx' ctx'') : LogOnly ctx ctx'' :=
  ⟨h.toSameScript.trans h'.toSameScript, h'.currentDirective.trans h.currentDirective,
    h'.recoveryAborted.trans h.recoveryAborted, h'.finalResult.trans h.finalResult⟩

/-- A handler succeeds or fails, and writes to the log only. -/
def Plain (ctx : DcContext) (r : DcContext × DirectiveStatus) : Prop :=
  LogOnly ctx r.1 ∧ (r.2 = .ok ∨ r.2 = .failed)

end Sentinel
