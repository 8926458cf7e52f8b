import OpenWindows.Fltrmgr.Filters

/-!
# The slots of the request pool

A slot is taken again when its request is completed or cancelled, never when it has failed.
So the pool keeps its slots exactly while no submitted request fails.
-/

namespace Fltrmgr

open StepSystem

variable {E : Type} (w : World E)

/-- A request that has ended. -/
def ReqStatus.isFinished : ReqStatus → Bool
  | .completed | .failed | .cancelled => true
  | _ => false

/-- A request that `fltrmgr_flush_chain` would still cancel. -/
def ReqStatus.isLive : ReqStatus → Bool
  | .pending | .inProgress => true
  | _ => false

/-! ## Requests that do not fail -/

/-- The completion callback, if it is called, does not leave the request failed. -/
def Finishes (e : E) (r : Request) : Prop := (invokeCompletion w e r).2.status ≠ .failed

/-- The request after the last filter. -/
def Request.atEnd (r : Request) : Request :=
  if r.status = .inProgress then { r with status := .completed } else r

/-- No callback that the request reaches returns an error, and the last one that may write its
status does not leave it failed. -/
def Settles : List Filter → E → Request → Prop
  | [], e, r => Finishes w e r.atEnd
  | f :: fs, e, r =>
    if f.active = false ∨ f.callback = 0 then Settles fs e r
    else
      let (e', r', result) := w.filter f.callback f.context e r
      result = 0 ∧ (r'.status = .completed → Finishes w e' r') ∧
        (r'.status ≠ .completed → r'.status ≠ .cancelled → Settles fs e' r')

/-- What the end of the walk says about the request. -/
def EndSettles : E × Request × ChainEnd → Prop
  | (_, _, .broken) => False
  | (_, _, .cancelled) => True
  | (e, r, .completed) => Finishes w e r
  | (e, r, .through) => Finishes w e r.atEnd

theorem walkChain_settles (fs : List Filter) (e : E) (r : Request) :
    EndSettles w (walkChain w fs e r) ↔ Settles w fs e r := by
  induction fs generalizing e r with
  | nil => exact Iff.rfl
  | cons f fs ih =>
    cases hactive : f.active with
    | false => simpa [walkChain, Settles, hactive] using ih e r
    | true =>
      by_cases hcb : f.callback = 0
      · simpa [walkChain, Settles, hactive, hcb] using ih e r
      · generalize hcall : w.filter f.callback f.context e r = called
        obtain ⟨e', r', result⟩ := called
        by_cases hres : result = 0
        · cases hst : r'.status with
          | completed => simp [walkChain, Settles, hactive, hcb, hcall, hres, hst, EndSettles]
          | cancelled => simp [walkChain, Settles, hactive, hcb, hcall, hres, hst, EndSettles]
          | pending => simpa [walkChain, Settles, hactive, hcb, hcall, hres, hst] using ih e' r'
          | inProgress => simpa [walkChain, Settles, hactive, hcb, hcall, hres, hst] using ih e' r'
          | failed => simpa [walkChain, Settles, hactive, hcb, hcall, hres, hst] using ih e' r'
        · simp [walkChain, Settles, hactive, hcb, hcall, hres, EndSettles]

theorem walkChain_status {fs : List Filter} {e e' : E} {r r' : Request} :
    (walkChain w fs e r = (e', r', .broken) → r'.status = .failed) ∧
      (walkChain w fs e r = (e', r', .cancelled) → r'.status = .cancelled) := by
  induction fs generalizing e r with
  | nil => simp [walkChain]
  | cons f fs ih =>
    simp only [walkChain]
    split
    · exact ih
    · split
      · exact ih
      · generalize w.filter f.callback f.context e r = called
        obtain ⟨e₁, r₁, result⟩ := called
        split
        · constructor
          · rintro ⟨⟩
            rfl
          · rintro ⟨⟩
        · split
          · constructor <;> rintro ⟨⟩
          · split
            next hst =>
              constructor
              · rintro ⟨⟩
              · rintro ⟨⟩
                exact hst
            · exact ih

theorem submit_cases {ctx : Context} {req : Request} {slot : Fin 256} (e : E)
    (hb : req.buffer ≠ 0) (hs : findSlot ctx = some slot) :
    ∃ r, (fltrmgrSubmitRequest w ctx (some req) e).2.1.requests =
        Function.update ctx.requests slot r ∧
      (fltrmgrSubmitRequest w ctx (some req) e).1 ≠ .errRequestFull ∧
      (r.status ≠ .failed ↔
        Settles w ctx.filters e { enter ctx req with status := .inProgress }) := by
  simp only [fltrmgrSubmitRequest, hb, if_false, hs]
  cases hfs : ctx.filters with
  | nil => exact ⟨_, rfl, by simp, Iff.rfl⟩
  | cons f fs =>
    have hwalk := walkChain_settles w (f :: fs) e { enter ctx req with status := .inProgress }
    simp only [List.length_cons, Nat.add_eq_zero_iff, Nat.one_ne_zero, and_false, if_false]
    generalize hend : walkChain w (f :: fs) e { enter ctx req with status := .inProgress } = ended
    obtain ⟨e', r', ending⟩ := ended
    rw [hend] at hwalk
    cases ending with
    | broken => exact ⟨r', rfl, by simp, by simp [← hwalk, EndSettles, (walkChain_status w).1 hend]⟩
    | cancelled =>
      exact ⟨r', rfl, by simp, by simp [← hwalk, EndSettles, (walkChain_status w).2 hend]⟩
    | completed => exact ⟨_, rfl, by simp, hwalk⟩
    | through =>
      by_cases hst : r'.status = .inProgress
      · rw [EndSettles, Request.atEnd, if_pos hst] at hwalk
        dsimp only
        rw [if_pos hst]
        exact ⟨_, rfl, by simp, hwalk⟩
      · rw [EndSettles, Request.atEnd, if_neg hst] at hwalk
        dsimp only
        rw [if_neg hst]
        exact ⟨_, rfl, by simp, hwalk⟩

/-! ## Runs -/

/-- The manager and the memory of the callbacks. -/
structure Sys (E : Type) where
  ctx : Context
  env : E

/-- The calls of a run. -/
inductive Op
  | submit (req : Option Request)
  | register (name : Option (List UInt8)) (priority : UInt32) (callback context : UInt64)
  | unregister (name : Option (List UInt8))
  | reset

def call (s : Sys E) : Op → Status × Sys E
  | .submit req =>
    let (st, ctx, _, env) := fltrmgrSubmitRequest w s.ctx req s.env
    (st, ⟨ctx, env⟩)
  | .register name priority callback context =>
    let (st, ctx) := fltrmgrRegisterFilter s.ctx name priority callback context
    (st, { s with ctx := ctx })
  | .unregister name =>
    let (st, ctx) := fltrmgrUnregisterFilter s.ctx name
    (st, { s with ctx := ctx })
  | .reset => (.ok, { s with ctx := fltrmgrReset s.ctx })

/-- The state after a call. -/
def next (s : Sys E) (op : Op) : Sys E := (call w s op).2

/-- After a submit no slot is held by a request that has ended, and the pool is full only
while a slot that the manager was given holds a live request. -/
def SlotsFreed (reqCap : UInt32) (s : Sys E) : Op → Prop
  | .submit req =>
    (∀ i, ((next w s (.submit req)).ctx.requests i).status.isFinished = true →
      ((next w s (.submit req)).ctx.requests i).status.isFree = true) ∧
    ((call w s (.submit req)).1 = .errRequestFull →
      ∃ i : Fin 256, i.val < reqCap.toNat ∧ (s.ctx.requests i).status.isLive = true)
  | _ => True

def Settled (s : Sys E) : Op → Prop
  | .submit (some req) => req.buffer ≠ 0 → (findSlot s.ctx).isSome = true →
      Settles w s.ctx.filters s.env { enter s.ctx req with status := .inProgress }
  | _ => True

/-- No slot holds a failed request. -/
def NoneFailed (s : Sys E) : Prop := ∀ i, (s.ctx.requests i).status ≠ .failed

theorem freed_iff_ne_failed (st : ReqStatus) :
    (st.isFinished = true → st.isFree = true) ↔ st ≠ .failed := by
  cases st <;> simp [ReqStatus.isFinished, ReqStatus.isFree]

theorem register_requests (ctx : Context) (name : Option (List UInt8)) (priority : UInt32)
    (callback context : UInt64) :
    (fltrmgrRegisterFilter ctx name priority callback context).2.requests = ctx.requests := by
  unfold fltrmgrRegisterFilter
  repeat' first | rfl | split

theorem unregister_requests (ctx : Context) (name : Option (List UInt8)) :
    (fltrmgrUnregisterFilter ctx name).2.requests = ctx.requests := by
  unfold fltrmgrUnregisterFilter
  repeat' first | rfl | split

theorem findSlot_none {ctx : Context} (h : findSlot ctx = none) (i : Fin 256) :
    (ctx.requests i).status.isFree = false := by
  have := List.find?_eq_none.1 h i (List.mem_finRange i)
  simpa using this

theorem live_of_not_free {st : ReqStatus} (h : st ≠ .failed) (hf : st.isFree = false) :
    st.isLive = true := by
  cases st <;> simp_all [ReqStatus.isFree, ReqStatus.isLive]

variable {w}

theorem NoneFailed.next {s : Sys E} (h : NoneFailed s) {op : Op} (hop : Settled w s op) :
    NoneFailed (next w s op) := by
  intro i
  cases op with
  | submit req =>
    cases req with
    | none => exact h i
    | some req =>
      by_cases hb : req.buffer = 0
      · simpa [Fltrmgr.next, call, fltrmgrSubmitRequest, hb] using h i
      · cases hs : findSlot s.ctx with
        | none => simpa [Fltrmgr.next, call, fltrmgrSubmitRequest, hb, hs] using h i
        | some slot =>
          obtain ⟨r, hreqs, -, hr⟩ := submit_cases w s.env hb hs
          have hset := hr.2 (hop hb (by simp [hs]))
          simp only [Fltrmgr.next, call, hreqs]
          by_cases hi : i = slot
          · rw [hi, Function.update_self]
            exact hset
          · rw [Function.update_of_ne hi]
            exact h i
  | register name priority callback context =>
    simp only [Fltrmgr.next, call, register_requests]
    exact h i
  | unregister name =>
    simp only [Fltrmgr.next, call, unregister_requests]
    exact h i
  | reset => simp [Fltrmgr.next, call, fltrmgrReset]

theorem slotsFreed_iff {reqCap : UInt32} (hcap : 1 ≤ reqCap.toNat) {s : Sys E} (h : NoneFailed s)
    (op : Op) : SlotsFreed w reqCap s op ↔ Settled w s op := by
  constructor
  · intro hop
    cases op with
    | submit req =>
      cases req with
      | none => trivial
      | some req =>
        intro hb hsome
        obtain ⟨slot, hs⟩ := Option.isSome_iff_exists.1 hsome
        obtain ⟨r, hreqs, -, hr⟩ := submit_cases w s.env hb hs
        have hslot := (freed_iff_ne_failed _).1 (hop.1 slot)
        simp only [next, call, hreqs, Function.update_self] at hslot
        exact hr.1 hslot
    | register name priority callback context => trivial
    | unregister name => trivial
    | reset => trivial
  · intro hop
    cases op with
    | submit req =>
      refine ⟨fun i => (freed_iff_ne_failed _).2 (h.next hop i), ?_⟩
      intro hfull
      refine ⟨0, hcap, live_of_not_free (h 0) ?_⟩
      cases req with
      | none => simp [call, fltrmgrSubmitRequest] at hfull
      | some req =>
        by_cases hb : req.buffer = 0
        · simp [call, fltrmgrSubmitRequest, hb] at hfull
        · cases hs : findSlot s.ctx with
          | none => exact findSlot_none hs 0
          | some slot =>
            obtain ⟨-, -, hne, -⟩ := submit_cases w s.env hb hs
            exact absurd hfull hne
    | register name priority callback context => trivial
    | unregister name => trivial
    | reset => trivial

/-- The manager after `fltrmgr_init`. -/
def started (reqCap : UInt32) (e : E) : Sys E := ⟨fltrmgrInit reqCap, e⟩

theorem started_noneFailed (reqCap : UInt32) (e : E) : NoneFailed (started reqCap e) := by
  intro i
  simp only [started, fltrmgrInit, Request.zero]
  split_ifs <;> exact ReqStatus.noConfusion

variable (w)

/-- In every run the slots are freed by every submit exactly when every request that gets a
slot settles. -/
theorem slots_freed_iff_settled {reqCap : UInt32} (hcap : 1 ≤ reqCap.toNat) (e : E) (ops : List Op) :
    Along (next w) (SlotsFreed w reqCap) (started reqCap e) ops ↔
      Along (next w) (Settled w) (started reqCap e) ops := by
  have hiff : ∀ (s : Sys E) op, NoneFailed s → (SlotsFreed w reqCap s op ↔ Settled w s op) :=
    fun _ op h => slotsFreed_iff hcap h op
  have hstep : ∀ (s : Sys E) op, NoneFailed s → Settled w s op → NoneFailed (next w s op) :=
    fun _ _ h hop => h.next hop
  exact along_iff hiff hstep (started_noneFailed reqCap e) ops

/-- Callbacks that pass every request on. -/
def passing : World Unit where
  filter _ _ e r := (e, r, 0)
  complete _ _ e r := (e, r)

def readRequest : Request := { Request.zero with buffer := 4096, sectorCount := 1 }

/-- The calls that register a filter of the name `f` and submit a read. -/
def filteredOps : List Op := [.register (some [102]) 10 1 0, .submit (some readRequest)]

theorem slots_freed_iff_settled_passing :
    Along (next passing) (SlotsFreed passing 1) (started 1 ()) filteredOps :=
  (slots_freed_iff_settled passing (by decide) () filteredOps).2
    ⟨trivial, fun _ _ => ⟨rfl, nofun, fun _ _ => ReqStatus.noConfusion⟩, trivial⟩

/-- Callbacks that refuse every request. -/
def refusing : World Unit where
  filter _ _ e r := (e, r, 1)
  complete _ _ e r := (e, r)

/-- A request that a filter refuses keeps its slot, and no slot is left for the next one. -/
theorem refused_keeps_slot :
    ¬ Along (next refusing) (SlotsFreed refusing 1) (started 1 ()) filteredOps ∧
      (∀ i : Fin 256, i.val < 1 →
        ((filteredOps.foldl (next refusing) (started 1 ())).ctx.requests i).status.isLive = false) ∧
      (call refusing (filteredOps.foldl (next refusing) (started 1 ()))
        (.submit (some readRequest))).1 = .errRequestFull := by
  have hfailed : ((filteredOps.foldl (next refusing) (started 1 ())).ctx.requests 0).status =
      .failed := by decide
  refine ⟨?_, ?_, by decide⟩
  · intro h
    have hfree := h.2.1.1 0
    rw [freed_iff_ne_failed] at hfree
    exact hfree hfailed
  · intro i hi
    obtain rfl : i = 0 := Fin.ext (Nat.lt_one_iff.1 hi)
    rw [hfailed]
    rfl

end Fltrmgr
