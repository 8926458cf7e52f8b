import Mathlib.Data.List.Induction
import Mathlib.Data.List.ReduceOption
import Mathlib.Data.List.TakeWhile
import OpenWindows.Lib.StepSystem

/-!
# The exit registry of `owcrt64`

`__cxa_atexit` puts a handler into the first free slot of a table, and
`__cxa_finalize` walks the table from its end and runs the handlers that match.
Its comment asks for the reverse of the order of registration.  That is the
order of the slots until a selective finalisation leaves a free slot below a
used one, and the next registration goes there.

A handler is a function with its argument.  Handlers do not call back into the
registry.
-/

namespace Crt64

open StepSystem

/-! ## The table -/

/-- `OWCRT_ATEXIT_MAX`. -/
def atexitMax : Nat := 64

/-- `owcrt_exit_entry_t`, of a slot in use. -/
structure ExitEntry where
  fn : UInt64
  arg : UInt64
  dso : UInt64
  deriving DecidableEq, Repr

/-- What running a handler calls. -/
def ExitEntry.call (e : ExitEntry) : UInt64 × UInt64 := (e.fn, e.arg)

/-- `owcrt_exit_tab`, with `none` for a slot that is not used. -/
structure ExitTab where
  slots : List (Option ExitEntry)
  size : slots.length = atexitMax

/-- The table at program start. -/
def ExitTab.init : ExitTab := ⟨List.replicate atexitMax none, List.length_replicate ..⟩

/-- `__cxa_atexit`, with its return value. -/
def cxaAtexit (t : ExitTab) (fn arg dso : UInt64) : Nat × ExitTab :=
  if fn = 0 then (0, t)
  else
    match t.slots.findIdx? Option.isNone with
    | some i => (0, ⟨t.slots.set i (some ⟨fn, arg, dso⟩), by rw [List.length_set, t.size]⟩)
    | none => (1, t)

/-- `owcrt64_atexit`: whether it returns `OWCRT64_OK`, and not
`OWCRT64_ERR_NO_ATEXIT`. -/
def owcrt64Atexit (t : ExitTab) (fn : UInt64) : Bool × ExitTab :=
  let (r, t) := cxaAtexit t fn 0 0
  if r ≠ 0 then (false, t) else (true, t)

theorem owcrt64Atexit_snd (t : ExitTab) (fn : UInt64) :
    (owcrt64Atexit t fn).2 = (cxaAtexit t fn 0 0).2 := by
  simp only [owcrt64Atexit]
  split <;> rfl

/-- Whether `__cxa_finalize(dso)` runs an entry. -/
def runs (dso : UInt64) (e : ExitEntry) : Bool := dso = 0 || e.dso = dso

/-- The loop of `__cxa_finalize` over the slots below `i`: the handlers it calls,
in order, and the slots it leaves. -/
def finalizeLoop (dso : UInt64) : Nat → List (Option ExitEntry) →
    List (UInt64 × UInt64) × List (Option ExitEntry)
  | 0, slots => ([], slots)
  | i + 1, slots =>
    match slots[i]? with
    | some (some e) =>
      if runs dso e then
        let (calls, slots) := finalizeLoop dso i (slots.set i none)
        (e.call :: calls, slots)
      else finalizeLoop dso i slots
    | _ => finalizeLoop dso i slots

/-- `__cxa_finalize`: the handlers it calls, in order, and the table it leaves. -/
def cxaFinalize (t : ExitTab) (dso : UInt64) : List (UInt64 × UInt64) × List (Option ExitEntry) :=
  finalizeLoop dso atexitMax t.slots

/-! ## What finalisation does -/

/-- A slot after the loop. -/
def keep (dso : UInt64) : Option ExitEntry → Option ExitEntry
  | none => none
  | some e => if runs dso e then none else some e

theorem finalizeLoop_eq (dso : UInt64) (n : Nat) (slots : List (Option ExitEntry)) :
    finalizeLoop dso n slots =
      (((slots.take n).reduceOption.filter (runs dso)).reverse.map ExitEntry.call,
        (slots.take n).map (keep dso) ++ slots.drop n) := by
  induction n generalizing slots with
  | zero => simp [finalizeLoop]
  | succ n ih =>
    cases hn : slots[n]? with
    | none =>
      have hlen : slots.length ≤ n := List.getElem?_eq_none_iff.mp hn
      simp [finalizeLoop, hn, ih, List.take_of_length_le hlen,
        List.take_of_length_le (Nat.le_succ_of_le hlen), List.drop_eq_nil_of_le hlen,
        List.drop_eq_nil_of_le (Nat.le_succ_of_le hlen)]
    | some slot =>
      obtain ⟨hlt, hget⟩ := List.getElem?_eq_some_iff.mp hn
      have htake : slots.take (n + 1) = slots.take n ++ [slot] := by
        rw [List.take_add_one, hn]
        rfl
      have hdrop : slots.drop n = slot :: slots.drop (n + 1) := by
        rw [List.drop_eq_getElem_cons hlt, hget]
      cases slot with
      | none => simp [finalizeLoop, hn, ih, htake, hdrop, keep, List.reduceOption_append]
      | some e =>
        have hset : (slots.set n none).drop n = none :: slots.drop (n + 1) := by
          rw [List.drop_eq_getElem_cons (by simpa using hlt)]
          simp [List.drop_set_of_lt]
        by_cases he : runs dso e = true
        · simp [finalizeLoop, hn, he, ih, htake, hset, keep, List.reduceOption_append,
            List.take_set_of_le]
        · simp [finalizeLoop, hn, he, ih, htake, hdrop, keep, List.reduceOption_append]

/-- The entries in use, from the first slot on. -/
def ExitTab.entries (t : ExitTab) : List ExitEntry := t.slots.reduceOption

theorem cxaFinalize_calls (t : ExitTab) (dso : UInt64) :
    (cxaFinalize t dso).1 = (t.entries.filter (runs dso)).reverse.map ExitEntry.call := by
  rw [cxaFinalize, finalizeLoop_eq, ← t.size, List.take_length]
  rfl

theorem cxaFinalize_slots (t : ExitTab) (dso : UInt64) :
    (cxaFinalize t dso).2 = t.slots.map (keep dso) := by
  rw [cxaFinalize, finalizeLoop_eq, ← t.size, List.take_length, List.drop_length, List.append_nil]

theorem reduceOption_keep (dso : UInt64) (slots : List (Option ExitEntry)) :
    (slots.map (keep dso)).reduceOption = slots.reduceOption.filter fun e => !runs dso e := by
  induction slots with
  | nil => rfl
  | cons slot slots ih =>
    cases slot with
    | none => simpa [keep] using ih
    | some e =>
      by_cases he : runs dso e = true
      · simpa [keep, he] using ih
      · simpa [keep, he] using ih

/-- The table `__cxa_finalize` leaves. -/
def ExitTab.finalized (t : ExitTab) (dso : UInt64) : ExitTab where
  slots := (cxaFinalize t dso).2
  size := by rw [cxaFinalize_slots, List.length_map, t.size]

theorem ExitTab.entries_finalized (t : ExitTab) (dso : UInt64) :
    (t.finalized dso).entries = t.entries.filter fun e => !runs dso e := by
  simp only [ExitTab.entries, ExitTab.finalized, cxaFinalize_slots, reduceOption_keep]

/-! ## What a registration does -/

def ExitTab.above (t : ExitTab) : List ExitEntry := (t.slots.dropWhile Option.isSome).reduceOption

theorem split_of_findIdx? {slots : List (Option ExitEntry)} {i : Nat}
    (h : slots.findIdx? Option.isNone = some i) :
    ∃ (pre : List ExitEntry) (post : List (Option ExitEntry)),
      slots = pre.map some ++ none :: post ∧ pre.length = i := by
  induction slots generalizing i with
  | nil => cases h
  | cons slot slots ih =>
    cases slot with
    | none =>
      cases h
      exact ⟨[], slots, rfl, rfl⟩
    | some e =>
      rw [List.findIdx?_cons] at h
      obtain ⟨j, hj, rfl⟩ := Option.map_eq_some_iff.mp h
      obtain ⟨pre, post, rfl, rfl⟩ := ih hj
      exact ⟨e :: pre, post, rfl, rfl⟩

theorem reduceOption_map_some (l : List ExitEntry) : (l.map some).reduceOption = l := by
  simp [List.reduceOption]

variable {fn arg dso : UInt64}

theorem cxaAtexit_entries {t : ExitTab} (arg dso : UInt64) (hfn : fn ≠ 0)
    (hfree : t.entries.length < atexitMax) :
    ∃ pre, t.entries = pre ++ t.above ∧ (cxaAtexit t fn arg dso).1 = 0 ∧
      (cxaAtexit t fn arg dso).2.entries = pre ++ ⟨fn, arg, dso⟩ :: t.above := by
  cases hidx : t.slots.findIdx? Option.isNone with
  | none =>
    -- without a free slot all of them are used
    have hall : t.slots.reduceOption.length = t.slots.length := by
      rw [List.reduceOption_length_eq_iff]
      intro slot hslot
      have hsome := List.findIdx?_eq_none_iff.mp hidx slot hslot
      simpa using hsome
    rw [ExitTab.entries, hall, t.size] at hfree
    omega
  | some i =>
    obtain ⟨pre, post, hslots, rfl⟩ := split_of_findIdx? hidx
    have habove : t.above = post.reduceOption := by
      rw [ExitTab.above, hslots, List.dropWhile_append_of_pos (by simp)]
      rfl
    have hset : t.slots.set pre.length (some ⟨fn, arg, dso⟩) =
        pre.map some ++ some ⟨fn, arg, dso⟩ :: post := by
      rw [hslots, List.set_append_right _ _ (by simp)]
      simp
    refine ⟨pre, ?_, ?_, ?_⟩
    · rw [ExitTab.entries, hslots, List.reduceOption_append, reduceOption_map_some, habove]
      rfl
    · simp only [cxaAtexit, if_neg hfn, hidx]
    · simp only [cxaAtexit, if_neg hfn, hidx, ExitTab.entries, hset, List.reduceOption_append,
        reduceOption_map_some, habove]
      rfl

theorem cxaAtexit_full {t : ExitTab} (hfull : atexitMax ≤ t.entries.length) :
    (cxaAtexit t fn arg dso).2 = t := by
  have hidx : t.slots.findIdx? Option.isNone = none := by
    have hle := List.reduceOption_length_le t.slots
    have hsize := t.size
    have hall : t.slots.reduceOption.length = t.slots.length := by
      rw [ExitTab.entries] at hfull
      omega
    rw [List.findIdx?_eq_none_iff]
    intro slot hslot
    simpa using List.reduceOption_length_eq_iff.mp hall slot hslot
  unfold cxaAtexit
  split
  · rfl
  · rw [hidx]

/-! ## Runs -/

/-- The table, and the handlers pending in the order they were registered. -/
structure Registry where
  tab : ExitTab
  pending : List ExitEntry

/-- Calls of the registry. -/
inductive ExitOp where
  | cxaAtexit (fn arg dso : UInt64)
  | atexit (fn : UInt64)
  | finalize (dso : UInt64)

/-- A handler becomes pending when there is room for it. -/
def Registry.register (r : Registry) (e : ExitEntry) (tab : ExitTab) : Registry where
  tab := tab
  pending := if e.fn ≠ 0 ∧ r.pending.length < atexitMax then r.pending ++ [e] else r.pending

def Registry.next (r : Registry) : ExitOp → Registry
  | .cxaAtexit fn arg dso => r.register ⟨fn, arg, dso⟩ (cxaAtexit r.tab fn arg dso).2
  | .atexit fn => r.register ⟨fn, 0, 0⟩ (owcrt64Atexit r.tab fn).2
  | .finalize dso => ⟨r.tab.finalized dso, r.pending.filter fun e => !runs dso e⟩

/-- The registry at program start. -/
def Registry.init : Registry := ⟨.init, []⟩

/-- `__cxa_finalize(dso)` calls exactly the pending handlers that match, each
once, in the reverse of the order in which they were registered. -/
def Registry.Finalizes (r : Registry) (dso : UInt64) : Prop :=
  (cxaFinalize r.tab dso).1 = (r.pending.filter (runs dso)).reverse.map ExitEntry.call

instance (r : Registry) (dso : UInt64) : Decidable (r.Finalizes dso) :=
  inferInstanceAs (Decidable (_ = _))

/-- All entries above the first free slot call what the new one calls. -/
def ExitTab.Admits (t : ExitTab) (fn arg : UInt64) : Prop :=
  fn ≠ 0 → ∀ e ∈ t.above, e.call = (fn, arg)

/-- The condition on a call. -/
def Registry.Guard (r : Registry) : ExitOp → Prop
  | .cxaAtexit fn arg _ => r.tab.Admits fn arg
  | .atexit fn => r.tab.Admits fn 0
  | .finalize _ => True

/-- The slots and the pending handlers call the same, for every selection of
shared objects. -/
def Registry.Ordered (r : Registry) : Prop :=
  ∀ q : UInt64 → Bool, (r.tab.entries.filter fun e => q e.dso).map ExitEntry.call =
    (r.pending.filter fun e => q e.dso).map ExitEntry.call

theorem Registry.Ordered.all {r : Registry} (h : r.Ordered) :
    r.tab.entries.map ExitEntry.call = r.pending.map ExitEntry.call := by
  simpa using h fun _ => true

theorem Registry.Ordered.length_eq {r : Registry} (h : r.Ordered) :
    r.tab.entries.length = r.pending.length := by
  simpa using congrArg List.length h.all

theorem Registry.Ordered.finalizes {r : Registry} (h : r.Ordered) (dso : UInt64) :
    r.Finalizes dso := by
  rw [Registry.Finalizes, cxaFinalize_calls, List.map_reverse, List.map_reverse]
  exact congrArg List.reverse (h fun d => dso = 0 || d = dso)

theorem cons_eq_append_singleton {α : Type} {c : α} {l : List α} :
    c :: l = l ++ [c] ↔ ∀ x ∈ l, x = c := by
  induction l with
  | nil => simp
  | cons x l ih =>
    rw [List.cons_append, List.cons.injEq, List.forall_mem_cons, eq_comm]
    constructor
    · intro ⟨hx, hl⟩
      rw [hx] at hl
      exact ⟨hx, ih.mp hl⟩
    · intro ⟨hx, hl⟩
      rw [hx]
      exact ⟨rfl, ih.mpr hl⟩

variable {r : Registry}

theorem Registry.Ordered.register (h : r.Ordered) (hg : r.tab.Admits fn arg) :
    (r.register ⟨fn, arg, dso⟩ (cxaAtexit r.tab fn arg dso).2).Ordered := by
  have hlen := h.length_eq
  by_cases hreg : fn ≠ 0 ∧ r.pending.length < atexitMax
  · obtain ⟨pre, hpre, _, hins⟩ :=
      cxaAtexit_entries arg dso hreg.1 (hlen ▸ hreg.2)
    intro q
    have hq := h q
    simp only [Registry.register, if_pos hreg, hins]
    rw [hpre, List.filter_append, List.map_append] at hq
    rw [List.filter_append, List.filter_append, List.map_append, List.map_append, ← hq,
      List.append_assoc]
    congr 1
    -- the entries above that are selected
    have hsame : ∀ x ∈ (r.tab.above.filter fun e => q e.dso).map ExitEntry.call,
        x = (fn, arg) := by
      intro x hx
      obtain ⟨e, he, rfl⟩ := List.mem_map.mp hx
      exact hg hreg.1 e (List.mem_filter.mp he).1
    by_cases hdso : q dso = true
    · simpa [hdso, ExitEntry.call] using cons_eq_append_singleton.mpr hsame
    · simp [hdso]
  · have hsame : (cxaAtexit r.tab fn arg dso).2 = r.tab := by
      by_cases hfn : fn = 0
      · simp [cxaAtexit, hfn]
      · exact cxaAtexit_full (by rw [hlen]; exact Nat.le_of_not_lt fun hlt => hreg ⟨hfn, hlt⟩)
    intro q
    simp only [Registry.register, if_neg hreg, hsame]
    exact h q

theorem Registry.Ordered.admits (h : r.Ordered)
    (hf : (r.register ⟨fn, arg, dso⟩ (cxaAtexit r.tab fn arg dso).2).Finalizes 0) :
    r.tab.Admits fn arg := by
  intro hfn
  have hlen := h.length_eq
  by_cases hroom : r.pending.length < atexitMax
  · obtain ⟨pre, hpre, _, hins⟩ := cxaAtexit_entries arg dso hfn (hlen ▸ hroom)
    have hall := h.all
    have hruns : ∀ l : List ExitEntry, l.filter (runs 0) = l :=
      fun l => List.filter_eq_self.mpr fun e _ => by simp [runs]
    rw [Registry.Finalizes, cxaFinalize_calls, hruns, hruns, List.map_reverse, List.map_reverse,
      List.reverse_inj] at hf
    simp only [Registry.register, if_pos (And.intro hfn hroom), hins] at hf
    rw [List.map_append, List.map_append, ← hall, hpre, List.map_append, List.append_assoc,
      List.append_cancel_left_eq] at hf
    have hsame := cons_eq_append_singleton.mp hf
    intro e he
    exact hsame e.call (List.mem_map_of_mem he)
  · -- in a full table nothing is above a free slot
    have hfull : atexitMax ≤ r.tab.entries.length := by omega
    have habove : r.tab.above = [] := by
      have hle := List.reduceOption_length_le r.tab.slots
      have hsize := r.tab.size
      have hall : r.tab.slots.reduceOption.length = r.tab.slots.length := by
        rw [ExitTab.entries] at hfull
        omega
      rw [ExitTab.above, List.dropWhile_eq_nil_iff.mpr]
      · rfl
      · exact List.reduceOption_length_eq_iff.mp hall
    rw [habove]
    nofun

theorem ordered_init : Registry.init.Ordered := by
  intro q
  rfl

theorem Registry.Ordered.next (h : r.Ordered) {op : ExitOp} (hg : r.Guard op) :
    (r.next op).Ordered := by
  cases op with
  | cxaAtexit fn arg dso => exact h.register hg
  | atexit fn =>
    rw [Registry.next, owcrt64Atexit_snd]
    exact h.register hg
  | finalize dso =>
    intro q
    have hq := h fun d => q d && !(dso = 0 || d = dso)
    simp only [Registry.next, ExitTab.entries_finalized, List.filter_filter]
    exact hq

/-- In every state of a run every call of `__cxa_finalize` does what is asked of
it, exactly when each registration of the run finds no entry of another call
above the first free slot. -/
theorem cxaFinalize_iff (ops : List ExitOp) :
    (∀ pre, pre <+: ops → ∀ dso, (pre.foldl Registry.next .init).Finalizes dso) ↔
      Calls Registry.Guard Registry.next .init ops (ops.foldl Registry.next .init) := by
  constructor
  · intro hgood
    induction ops using List.reverseRecOn with
    | nil => exact .nil
    | append_singleton ops op ih =>
      have hfold : (ops ++ [op]).foldl Registry.next .init =
          (ops.foldl Registry.next .init).next op := List.foldl_concat ..
      have hcalls := ih fun pre hpre => hgood pre (hpre.trans (List.prefix_append _ _))
      have hord := hcalls.invariant (fun _ _ hs hg => Registry.Ordered.next hs hg) ordered_init
      have hlast := hgood (ops ++ [op]) (List.prefix_refl _) 0
      rw [hfold] at hlast ⊢
      refine .snoc hcalls ?_
      cases op with
      | cxaAtexit fn arg dso => exact hord.admits hlast
      | atexit fn =>
        rw [Registry.next, owcrt64Atexit_snd] at hlast
        exact hord.admits hlast
      | finalize dso => trivial
  · intro hcalls pre hpre dso
    have hord := (hcalls.of_prefix hpre).invariant
      (fun _ _ hs hg => Registry.Ordered.next hs hg) ordered_init
    exact hord.finalizes dso

/-- Handler 1 of object 1, handlers 2 and 3 of object 2, with object 1 finalised
in between. -/
theorem cxaFinalize_hole :
    ¬ (([.cxaAtexit 1 0 1, .cxaAtexit 2 0 2, .finalize 1, .cxaAtexit 3 0 2] : List ExitOp).foldl
        Registry.next .init).Finalizes 2 := by
  decide

end Crt64
