import OpenWindows.Sentinel.Directives

/-!
# Running the directives

`dc_execute_all` goes through the directive table from `current_directive` on.  A
call on a context that was not aborted attempts the directives whose conditions
hold, in order, up to the first whose failure stops the recovery, and its result
says how they ended.  A call on an aborted context attempts nothing and reports
success.
-/

namespace Sentinel

open Memory StepSystem

/-- `dc_conditions_met`; `none` when a checksum is never computed. -/
def dcConditionsMet (mem : Mem) (ctx : DcContext) (dir : DirectiveHeader) : Option Bool := do
  if dir.has condChecksumOk then
    if dir.checksumIndex = 0xFFFFFFFF then return false
    if ctx.header.checksumCount ≤ dir.checksumIndex then return false
    if (← dcValidateChecksum mem (ctx.checksumAt dir.checksumIndex)) = false then return false
  if dir.has condChecksumBad then
    if dir.checksumIndex = 0xFFFFFFFF then return false
    if ctx.header.checksumCount ≤ dir.checksumIndex then return false
    if ← dcValidateChecksum mem (ctx.checksumAt dir.checksumIndex) then return false
  return true

/-- What a call attempted: the directives and how they ended. -/
abbrev Attempts := List (Nat × DirectiveStatus)

/-- The directives from `i` on whose conditions hold. -/
def due (mem : Mem) (ctx : DcContext) (i n : Nat) : List Nat :=
  (List.range' i n).filter fun i => dcConditionsMet mem ctx (ctx.directiveAt i) == some true

/-- An attempt that ended in failure. -/
def Failed (a : Nat × DirectiveStatus) : Prop := a.2 = .failed ∨ a.2 = .criticalFail

instance (a : Nat × DirectiveStatus) : Decidable (Failed a) := inferInstanceAs (Decidable (_ ∨ _))

/-- An attempt whose failure ends the recovery. -/
def Stopping (ctx : DcContext) (a : Nat × DirectiveStatus) : Prop :=
  Failed a ∧ ((ctx.directiveAt a.1).has condCritical = true ∨ ctx.config.abortOnFirstFail = true)

/-- The attempts `att` at the directives `dirs`, and the result they give, starting
from the result `start`. -/
structure Recovery (ctx : DcContext) (dirs : List Nat) (start result : RecoveryResult)
    (att : Attempts) : Prop where
  order : att.map Prod.fst <+: dirs
  ran : ∀ a ∈ att.dropLast, ¬ Stopping ctx a
  finished : (∀ a ∈ att, ¬ Stopping ctx a) →
    att.map Prod.fst = dirs ∧ result = if ∃ a ∈ att, Failed a then .partialFailure else start
  stopped : ∀ a ∈ att, Stopping ctx a →
    result = if (ctx.directiveAt a.1).has condCritical then .unrecoverable else .failed

/-- The memory the conditions refer to has no checksum that is never computed. -/
def ChecksEnd (mem : Mem) (ctx : DcContext) : Prop :=
  ∀ i, ctx.currentDirective ≤ i → i < ctx.header.directiveCount →
    dcConditionsMet mem ctx (ctx.directiveAt i) ≠ none

variable {mem : Mem} {ctx ctx' ctx'' : DcContext}

theorem SameScript.directiveAt_eq (h : SameScript ctx ctx') (i : Nat) :
    ctx'.directiveAt i = ctx.directiveAt i := by
  simp only [DcContext.directiveAt, h.header, h.image]

theorem SameScript.stopping_iff (h : SameScript ctx ctx') (a : Nat × DirectiveStatus) :
    Stopping ctx' a ↔ Stopping ctx a := by
  rw [Stopping, Stopping, h.directiveAt_eq, h.config]

theorem SameScript.recovery (h : SameScript ctx ctx') {dirs : List Nat}
    {start result : RecoveryResult} {att : Attempts} (hr : Recovery ctx' dirs start result att) :
    Recovery ctx dirs start result att := by
  refine ⟨hr.order, fun a ha => ?_, fun hn => ?_, fun a ha hs => ?_⟩
  · rw [← h.stopping_iff]
    exact hr.ran a ha
  · exact hr.finished fun a ha => by rw [h.stopping_iff]; exact hn a ha
  · rw [← h.directiveAt_eq]
    exact hr.stopped a ha ((h.stopping_iff a).mpr hs)

variable {status : DirectiveStatus}

section

variable {dirs : List Nat} {start result : RecoveryResult} {att : Attempts}
  {a : Nat × DirectiveStatus}

theorem Recovery.nil (ctx : DcContext) (start : RecoveryResult) : Recovery ctx [] start start [] :=
  ⟨List.nil_prefix, by simp, fun _ => ⟨rfl, by simp⟩, by simp⟩

theorem Recovery.stop (ha : Stopping ctx a) :
    Recovery ctx (a.1 :: dirs) start
      (if (ctx.directiveAt a.1).has condCritical then .unrecoverable else .failed) [a] := by
  refine ⟨?_, by simp, fun hn => ?_, fun b hb _ => ?_⟩
  · exact ⟨dirs, rfl⟩
  · exact absurd ha (hn a (List.mem_singleton_self a))
  · rw [List.mem_singleton.mp hb]

theorem Recovery.cons (ha : ¬ Stopping ctx a)
    (h : Recovery ctx dirs (if Failed a then .partialFailure else start) result att) :
    Recovery ctx (a.1 :: dirs) start result (a :: att) := by
  refine ⟨?_, fun b hb => ?_, fun hn => ?_, fun b hb hs => ?_⟩
  · rw [List.map_cons]
    exact List.cons_prefix_cons.mpr ⟨rfl, h.order⟩
  · cases att with
    | nil => cases hb
    | cons c att =>
      rw [List.dropLast_cons_cons] at hb
      rcases List.mem_cons.mp hb with rfl | hb
      · exact ha
      · exact h.ran b hb
  · obtain ⟨hall, hres⟩ := h.finished fun b hb => hn b (List.mem_cons_of_mem _ hb)
    refine ⟨by rw [List.map_cons, hall], ?_⟩
    rw [hres]
    by_cases hf : Failed a
    · simp only [List.exists_mem_cons_iff, hf, true_or, if_true, ite_self]
    · simp only [List.exists_mem_cons_iff, hf, false_or, if_false]
  · rcases List.mem_cons.mp hb with rfl | hb
    · exact absurd hs ha
    · exact h.stopped b hb hs

end

variable {i n : Nat}

/-- A call can be made: the recovery was not aborted, and the checksums that the
conditions of the remaining directives name can be computed. -/
def DcContext.Resumable (ctx : DcContext) (mem : Mem) : Prop :=
  ctx.recoveryAborted = false ∧ ChecksEnd mem ctx

/-- A context that is past its table has nothing to report. -/
def Settled (ctx : DcContext) : Prop :=
  ctx.header.directiveCount ≤ ctx.currentDirective →
    ctx.recoveryAborted = false ∧ ctx.finalResult = .success

def plainConfig : DcConfig :=
  { maxRetryPerTrigger := 1, abortOnFirstFail := false, verboseLogging := false }

def emptyLog : RecoveryLog := { entries := [], capacity := 16, stringTableUsed := 0 }

end Sentinel
