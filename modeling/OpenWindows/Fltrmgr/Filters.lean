import OpenWindows.Lib.StepSystem

/-!
# The filter manager

The request pool and the filter chain of `fltrmgr.c`.  Filter callbacks and completion
callbacks are code of other drivers: a `World` says what each of them does with the request
and with the memory that is not the manager's.  They do not call the manager back.
-/

namespace Fltrmgr

/-- `FLMGR_MAX_FILTERS`. -/
def maxFilters : Nat := 32

/-- `FLMGR_MAX_PENDING`. -/
def maxPending : Nat := 256

/-- `FLMGR_MAX_FILTER_NAME`. -/
def maxFilterName : Nat := 32

/-- `FLMGR_FLAG_NO_COMPLETE`. -/
def flagNoComplete : UInt32 := 0x00000004

/-- `OWC_TRAP_BASE`. -/
def owcTrapBase : UInt32 := 0x7FFFFFF0

/-- `fltrmgr_req_type_t`. -/
inductive ReqType
  | read | write | flush | devctl | pnp
deriving DecidableEq, Repr

/-- `fltrmgr_req_status_t`. -/
inductive ReqStatus
  | pending | inProgress | completed | failed | cancelled
deriving DecidableEq, Repr

/-- `fltrmgr_status_t`: the results of the manager's calls. -/
inductive Status
  | ok | errChainBroken | errRequestFull | errFilterFull | errAlreadyActive | errNotFound
  | errInvalidParam
deriving DecidableEq, Repr

/-- `fltrmgr_request_t`; a pointer is its address, and 0 is NULL. -/
structure Request where
  id : UInt32
  type : ReqType
  lba : UInt64
  sectorCount : UInt32
  buffer : UInt64
  status : ReqStatus
  flags : UInt32
  completionFn : UInt64
  completionCtx : UInt64
  next : UInt64
deriving DecidableEq, Repr

def Request.zero : Request := ⟨0, .read, 0, 0, 0, .pending, 0, 0, 0, 0⟩

/-- `fltrmgr_filter_t`; the name is its bytes before the NUL. -/
structure Filter where
  name : List UInt8
  priority : UInt32
  callback : UInt64
  context : UInt64
  active : Bool
deriving DecidableEq, Repr

/-- `fltrmgr_stats_t`. -/
structure Stats where
  totalSubmitted : UInt32
  totalCompleted : UInt32
  totalFailed : UInt32
  totalCancelled : UInt32
  activeFilters : UInt32
deriving DecidableEq, Repr

/-- `fltrmgr_context_t`; `filters` holds the first `filter_count` entries. -/
structure Context where
  filters : List Filter
  requests : Fin 256 → Request
  nextId : UInt32
  stats : Stats
  bancodeErrTrapBase : UInt32

/-- What the callbacks do: the function and its context, the rest of memory and the request.
A filter callback also gives a result, 0 for `FLMGR_OK`. -/
structure World (E : Type) where
  filter : UInt64 → UInt64 → E → Request → E × Request × UInt32
  complete : UInt64 → UInt64 → E → Request → E × Request

/-! ## Starting -/

/-- `fltrmgr_init`: only the slots below `req_cap` are marked as cancelled. -/
def fltrmgrInit (reqCap : UInt32) : Context :=
  let reqCap := if reqCap.toNat > maxPending then maxPending else reqCap.toNat
  { filters := []
    requests := fun i => if i.val < reqCap then { Request.zero with status := .cancelled } else .zero
    nextId := 1
    stats := ⟨0, 0, 0, 0, 0⟩
    bancodeErrTrapBase := owcTrapBase }

/-- `fltrmgr_reset`. -/
def fltrmgrReset (_ : Context) : Context where
  filters := []
  requests := fun _ => { Request.zero with status := .cancelled }
  nextId := 1
  stats := ⟨0, 0, 0, 0, 0⟩
  bancodeErrTrapBase := owcTrapBase

/-! ## Filters -/

/-- `str_equal` on strings that end in a NUL. -/
def strEqual : Nat → List UInt8 → List UInt8 → Bool
  | 0, _, _ => true
  | left + 1, a, b =>
    if a.headD 0 ≠ b.headD 0 then false
    else if a.headD 0 = 0 then true
    else strEqual left a.tail b.tail

/-- `find_filter_by_name`: the index, or none for `FLMGR_MAX_FILTERS`. -/
def findFilterByName (ctx : Context) (name : List UInt8) : Option Nat :=
  ctx.filters.findIdx? fun f => f.active && strEqual maxFilterName f.name name

/-- `fltrmgr_register_filter`. -/
def fltrmgrRegisterFilter (ctx : Context) (name : Option (List UInt8)) (priority : UInt32)
    (callback filterCtx : UInt64) : Status × Context :=
  match name with
  | none => (.errInvalidParam, ctx)
  | some name =>
    if callback = 0 then (.errInvalidParam, ctx)
    else if (findFilterByName ctx name).isSome then (.errAlreadyActive, ctx)
    else if ctx.filters.length ≥ maxFilters then (.errFilterFull, ctx)
    else
      let insertIdx := ctx.filters.findIdx fun f => decide (priority < f.priority)
      let f : Filter := ⟨name.take (maxFilterName - 1), priority, callback, filterCtx, true⟩
      let filters := ctx.filters.insertIdx insertIdx f
      (.ok, { ctx with
        filters := filters
        stats := { ctx.stats with activeFilters := UInt32.ofNat filters.length } })

/-- `fltrmgr_unregister_filter`. -/
def fltrmgrUnregisterFilter (ctx : Context) (name : Option (List UInt8)) : Status × Context :=
  match name with
  | none => (.errInvalidParam, ctx)
  | some name =>
    match findFilterByName ctx name with
    | none => (.errNotFound, ctx)
    | some idx =>
      let filters := ctx.filters.eraseIdx idx
      (.ok, { ctx with
        filters := filters
        stats := { ctx.stats with activeFilters := UInt32.ofNat filters.length } })

/-! ## Submitting -/

/-- The slots that the search takes. -/
def ReqStatus.isFree : ReqStatus → Bool
  | .cancelled | .completed => true
  | _ => false

/-- The search of `fltrmgr_submit_request`. -/
def findSlot (ctx : Context) : Option (Fin 256) :=
  (List.finRange 256).find? fun i => (ctx.requests i).status.isFree

/-- How the walk over the filters ends. -/
inductive ChainEnd
  | broken | completed | cancelled | through
deriving DecidableEq, Repr

/-- The walk of `fltrmgr_submit_request` over the filters. -/
def walkChain {E : Type} (w : World E) : List Filter → E → Request → E × Request × ChainEnd
  | [], e, r => (e, r, .through)
  | f :: fs, e, r =>
    if !f.active then walkChain w fs e r
    else if f.callback = 0 then walkChain w fs e r
    else
      let (e', r', result) := w.filter f.callback f.context e r
      if result ≠ 0 then (e', { r' with status := .failed }, .broken)
      else if r'.status = .completed then (e', r', .completed)
      else if r'.status = .cancelled then (e', r', .cancelled)
      else walkChain w fs e' r'

def invokeCompletion {E : Type} (w : World E) (e : E) (r : Request) : E × Request :=
  if r.completionFn ≠ 0 ∧ r.flags &&& flagNoComplete = 0 then
    w.complete r.completionFn r.completionCtx e r
  else (e, r)

def enter (ctx : Context) (req : Request) : Request :=
  { req with id := ctx.nextId, status := .pending, next := 0 }

/-- `fltrmgr_submit_request`: the result, the manager, the caller's request and the rest of
memory. -/
def fltrmgrSubmitRequest {E : Type} (w : World E) (ctx : Context) (req : Option Request) (e : E) :
    Status × Context × Option Request × E :=
  match req with
  | none => (.errInvalidParam, ctx, none, e)
  | some req =>
    if req.buffer = 0 then (.errInvalidParam, ctx, some req, e)
    else
      match findSlot ctx with
      | none => (.errRequestFull, ctx, some req, e)
      | some slot =>
        let r := enter ctx req
        let stats := { ctx.stats with totalSubmitted := ctx.stats.totalSubmitted + 1 }
        let done (r' : Request) (stats' : Stats) : Context :=
          { ctx with
            requests := Function.update ctx.requests slot r'
            nextId := ctx.nextId + 1
            stats := stats' }
        if ctx.filters.length = 0 then
          let (e', r') := invokeCompletion w e { r with status := .completed }
          (.ok, done r' { stats with totalCompleted := stats.totalCompleted + 1 }, some r', e')
        else
          match walkChain w ctx.filters e { r with status := .inProgress } with
          | (e', r', .broken) =>
            (.errChainBroken, done r' { stats with totalFailed := stats.totalFailed + 1 },
              some { r with status := .failed }, e')
          | (e', r', .cancelled) =>
            (.ok, done r' { stats with totalCancelled := stats.totalCancelled + 1 },
              some { r with status := .cancelled }, e')
          | (e', r', .completed) =>
            let (e'', r'') := invokeCompletion w e' r'
            (.ok, done r'' { stats with totalCompleted := stats.totalCompleted + 1 }, some r'',
              e'')
          | (e', r', .through) =>
            if r'.status = .inProgress then
              let (e'', r'') := invokeCompletion w e' { r' with status := .completed }
              (.ok, done r'' { stats with totalCompleted := stats.totalCompleted + 1 },
                some r'', e'')
            else
              let (e'', r'') := invokeCompletion w e' r'
              (.ok, done r'' stats, some r'', e'')

end Fltrmgr
