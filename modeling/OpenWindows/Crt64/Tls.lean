import OpenWindows.Crt64.HeapRun

/-!
# The TLS registry of `owcrt64`

`owcrt64_tls_get` gives each thread a block of its own for every slot.  A thread
that asks for the first time takes the row behind the last one in use, and
`owcrt64_tls_thread_exit` moves the last row into the row of the thread that
leaves.  The row it moved from keeps its pointers.  The next thread to take it
finds the blocks of another thread there.

Under the condition that a row is empty when a thread takes it, blocks are never
shared and never used after they were freed.

The heap is known by its calls.  `ow_malloc` is a function of the calls made so
far, and it returns no block that is still allocated, as `heapMalloc_allocates` shows of
the heap.
-/

namespace Crt64

open StepSystem

/-! ## Heap calls -/

/-- A call of the heap: `ow_malloc` with its size and result, or `ow_free`. -/
inductive HeapCall where
  | malloc (size p : UInt64)
  | free (p : UInt64)
  deriving DecidableEq, Repr

/-- The blocks allocated and not freed since, by the calls so far, latest first. -/
def allocated : List HeapCall → List UInt64
  | [] => []
  | .malloc _ p :: log => if p = 0 then allocated log else p :: allocated log
  | .free p :: log => (allocated log).filter (· ≠ p)

/-- Only allocated blocks were freed. -/
def Disciplined : List HeapCall → Prop
  | [] => True
  | .malloc _ _ :: log => Disciplined log
  | .free p :: log => p ∈ allocated log ∧ Disciplined log

/-- `ow_malloc` returns null or a block that is not allocated. -/
def Allocates (malloc : List HeapCall → UInt64 → UInt64) : Prop :=
  ∀ log size, Disciplined log → malloc log size ≠ 0 → malloc log size ∉ allocated log

/-! ## The registry -/

/-- `OWCRT64_TLS_SLOTS`. -/
def tlsSlots : Nat := 16

/-- `OWCRT64_TLS_THREADS`. -/
def tlsThreads : Nat := 64

/-- `owcrt_tls_slot_t`. -/
structure TlsSlot where
  size : UInt64
  used : Bool

/-- The registry. -/
structure Tls where
  slots : Nat → TlsSlot
  blocks : Nat → Nat → UInt64
  threads : Nat → UInt64
  threadCount : Nat
  log : List HeapCall
  /-- Not a variable of the program: the blocks that threads obtained, each with
  its thread and slot, less those of threads that exited and slots that were
  destroyed since. -/
  held : List (UInt64 × Nat × UInt64)

/-- The registry at program start. -/
def Tls.init : Tls where
  slots _ := ⟨0, false⟩
  blocks _ _ := 0
  threads _ := 0
  threadCount := 0
  log := []
  held := []

/-- `owcrt_tls_find_thread`. -/
def Tls.findThread (c : Tls) (thread : UInt64) : Option Nat :=
  (List.range c.threadCount).find? fun i => c.threads i == thread

/-- `owcrt64_tls_slot_create`, with the slot it returns, `none` for
`OWCRT64_ERR_NO_TLS_SLOT`. -/
def tlsSlotCreate (c : Tls) (size : UInt64) : Option Nat × Tls :=
  match (List.range tlsSlots).find? fun i => !(c.slots i).used with
  | some i => (some i, { c with slots := Function.update c.slots i ⟨size, true⟩ })
  | none => (none, c)

/-- The loop that frees the blocks `f 0`, `f 1`, up to `n`. -/
def freeEach (f : Nat → UInt64) : Nat → List HeapCall → List HeapCall
  | 0, log => log
  | n + 1, log =>
    let log := freeEach f n log
    if f n ≠ 0 then .free (f n) :: log else log

/-- `owcrt64_tls_slot_destroy`: whether it returns `OWCRT64_OK`. -/
def tlsSlotDestroy (c : Tls) (slot : Nat) : Bool × Tls :=
  if slot ≥ tlsSlots ∨ !(c.slots slot).used then (false, c)
  else
    (true,
      { c with
        log := freeEach (fun t => c.blocks t slot) c.threadCount c.log
        blocks := fun t s => if t < c.threadCount ∧ s = slot then 0 else c.blocks t s
        slots := Function.update c.slots slot ⟨0, false⟩
        held := c.held.filter fun e => e.2.1 ≠ slot })

/-- The row a new thread takes. -/
def Tls.register (c : Tls) (thread : UInt64) : Tls :=
  { c with
    threads := Function.update c.threads c.threadCount thread
    threadCount := c.threadCount + 1 }

/-- The block of a row for a slot, allocated if there is none. -/
def Tls.fetch (malloc : List HeapCall → UInt64 → UInt64) (c : Tls) (t slot : Nat) : UInt64 × Tls :=
  if c.blocks t slot = 0 then
    let p := malloc c.log (c.slots slot).size
    (p, { c with
      blocks := Function.update c.blocks t (Function.update (c.blocks t) slot p)
      log := .malloc (c.slots slot).size p :: c.log })
  else (c.blocks t slot, c)

def Tls.obtain (c : Tls) (thread : UInt64) (slot : Nat) (p : UInt64) : Tls :=
  if p = 0 then c else { c with held := (thread, slot, p) :: c.held }

/-- `owcrt64_tls_get`. -/
def tlsGet (malloc : List HeapCall → UInt64 → UInt64) (c : Tls) (slot : Nat) (thread : UInt64) :
    UInt64 × Tls :=
  if slot ≥ tlsSlots ∨ !(c.slots slot).used then (0, c)
  else
    match c.findThread thread with
    | some t =>
      let (p, c) := c.fetch malloc t slot
      (p, c.obtain thread slot p)
    | none =>
      if c.threadCount ≥ tlsThreads then (0, c)
      else
        let (p, c) := (c.register thread).fetch malloc c.threadCount slot
        (p, c.obtain thread slot p)

/-- `owcrt64_tls_thread_exit`, which always returns `OWCRT64_OK`. -/
def tlsThreadExit (c : Tls) (thread : UInt64) : Tls :=
  match c.findThread thread with
  | none => c
  | some t =>
    let c := { c with
      log := freeEach (c.blocks t) tlsSlots c.log
      blocks := Function.update c.blocks t fun _ => 0
      held := c.held.filter fun e => e.1 ≠ thread }
    let last := c.threadCount - 1
    let c :=
      if t + 1 < c.threadCount then
        { c with
          threads := Function.update c.threads t (c.threads last)
          blocks := Function.update c.blocks t (c.blocks last) }
      else c
    { c with threadCount := last }

/-- Calls of the registry. -/
inductive TlsOp where
  | slotCreate (size : UInt64)
  | slotDestroy (slot : Nat)
  | get (slot : Nat) (thread : UInt64)
  | threadExit (thread : UInt64)

/-- The registry after a call. -/
def Tls.next (malloc : List HeapCall → UInt64 → UInt64) (c : Tls) : TlsOp → Tls
  | .slotCreate size => (tlsSlotCreate c size).2
  | .slotDestroy slot => (tlsSlotDestroy c slot).2
  | .get slot thread => (tlsGet malloc c slot thread).2
  | .threadExit thread => tlsThreadExit c thread

/-- A row is empty when a thread takes it. -/
def Tls.Guard (c : Tls) : TlsOp → Prop
  | .get slot thread =>
    slot < tlsSlots → (c.slots slot).used = true → c.findThread thread = none →
      c.threadCount < tlsThreads → ∀ s, s < tlsSlots → c.blocks c.threadCount s = 0
  | _ => True

/-- Two threads hold different blocks for a slot, the blocks that are held are
allocated, and a thread that asks again gets the block it holds. -/
structure Tls.Isolated (malloc : List HeapCall → UInt64 → UInt64) (c : Tls) : Prop where
  distinct : ∀ {t t' s p p'}, (t, s, p) ∈ c.held → (t', s, p') ∈ c.held → t ≠ t' → p ≠ p'
  alive : ∀ {t s p}, (t, s, p) ∈ c.held → p ∈ allocated c.log
  again : ∀ {t s p}, (t, s, p) ∈ c.held → (tlsGet malloc c s t).1 = p

/-! ## Isolation of TLS blocks

The invariant speaks of the rows in use: no block stands in two places, every
block is allocated and belongs to a slot in use, and the blocks that threads
hold are the ones in their rows.  Each call of the registry keeps it, a call of
`owcrt64_tls_get` under the condition that a new thread takes an empty row.
-/

section

variable {c : Tls} {malloc : List HeapCall → UInt64 → UInt64}

/-! ### Freeing -/

variable {n t i : Nat}

theorem mem_allocated_freeEach {f : Nat → UInt64} {log : List HeapCall} {q : UInt64} :
    q ∈ allocated (freeEach f n log) ↔ q ∈ allocated log ∧ ∀ i, i < n → f i ≠ 0 → f i ≠ q := by
  induction n with
  | zero => simp [freeEach]
  | succ n ih =>
    have hlast : (∀ i, i < n + 1 → f i ≠ 0 → f i ≠ q) ↔
        (∀ i, i < n → f i ≠ 0 → f i ≠ q) ∧ (f n ≠ 0 → f n ≠ q) := by
      simp only [Nat.lt_succ_iff_lt_or_eq, or_imp, forall_and, forall_eq]
    simp only [freeEach]
    rw [hlast, ← and_assoc, ← ih]
    split
    next hne =>
      simp only [allocated, List.mem_filter, decide_eq_true_eq]
      exact and_congr_right fun _ => ⟨fun h _ => Ne.symm h, fun h => (h hne).symm⟩
    next hzero =>
      exact ⟨fun h => ⟨h, fun hne => absurd hne hzero⟩, fun h => h.1⟩

theorem disciplined_freeEach {f : Nat → UInt64} {log : List HeapCall}
    (hlog : Disciplined log) (hf : ∀ i, i < n → f i ≠ 0 → f i ∈ allocated log)
    (hinj : ∀ i j, i < n → j < n → f i ≠ 0 → f i = f j → i = j) :
    Disciplined (freeEach f n log) := by
  induction n with
  | zero => exact hlog
  | succ n ih =>
    have hrest := ih (fun i hi => hf i (by omega)) fun i j hi hj => hinj i j (by omega) (by omega)
    simp only [freeEach]
    split
    next hne =>
      refine ⟨mem_allocated_freeEach.mpr ⟨hf n (by omega) hne, ?_⟩, hrest⟩
      intro i hi hi0 heq
      exact absurd (hinj i n (by omega) (by omega) hi0 heq) (by omega)
    · exact hrest

/-! ### Rows -/

/-- A row in use has a block for a slot. -/
def Tls.Holds (c : Tls) (i s : Nat) (p : UInt64) : Prop :=
  i < c.threadCount ∧ s < tlsSlots ∧ c.blocks i s = p ∧ p ≠ 0

/-- The invariant of the registry. -/
structure Tls.Inv (c : Tls) : Prop where
  threads_inj : ∀ {i j}, i < c.threadCount → j < c.threadCount → c.threads i = c.threads j → i = j
  used : ∀ {i s p}, c.Holds i s p → (c.slots s).used = true
  blocks_inj : ∀ {i s j s' p}, c.Holds i s p → c.Holds j s' p → i = j ∧ s = s'
  alive : ∀ {i s p}, c.Holds i s p → p ∈ allocated c.log
  disciplined : Disciplined c.log
  held_iff : ∀ {t s p}, (t, s, p) ∈ c.held ↔ ∃ i, c.Holds i s p ∧ c.threads i = t

variable {thread : UInt64}

theorem Tls.findThread_some (h : c.findThread thread = some t) :
    t < c.threadCount ∧ c.threads t = thread := by
  have hmem := List.mem_of_find?_eq_some h
  have hpred := List.find?_some h
  exact ⟨List.mem_range.mp hmem, by simpa using hpred⟩

theorem Tls.findThread_none (h : c.findThread thread = none) :
    ∀ i, i < c.threadCount → c.threads i ≠ thread := by
  intro i hi
  simpa using List.find?_eq_none.mp h i (List.mem_range.mpr hi)

theorem Tls.Inv.findThread_eq (h : c.Inv) (hi : i < c.threadCount) :
    c.findThread (c.threads i) = some i := by
  cases hfind : c.findThread (c.threads i) with
  | none => exact absurd rfl (Tls.findThread_none hfind i hi)
  | some t =>
    obtain ⟨ht, heq⟩ := Tls.findThread_some hfind
    rw [h.threads_inj ht hi heq]

theorem Tls.Inv.isolated (h : c.Inv) (malloc : List HeapCall → UInt64 → UInt64) :
    c.Isolated malloc where
  distinct := by
    intro t t' s p p' hp hp' hne heq
    obtain ⟨i, hi, rfl⟩ := h.held_iff.mp hp
    obtain ⟨j, hj, rfl⟩ := h.held_iff.mp hp'
    rw [← heq] at hj
    obtain ⟨rfl, -⟩ := h.blocks_inj hi hj
    exact hne rfl
  alive := by
    intro t s p hp
    obtain ⟨i, hi, -⟩ := h.held_iff.mp hp
    exact h.alive hi
  again := by
    intro t s p hp
    obtain ⟨i, hi, rfl⟩ := h.held_iff.mp hp
    have hused := h.used hi
    have hfind := h.findThread_eq hi.1
    obtain ⟨-, hs, hblock, hp0⟩ := hi
    have hslot : ¬ (s ≥ tlsSlots ∨ (!(c.slots s).used) = true) := by
      rw [hused]
      simpa using hs
    have hne : ¬ c.blocks i s = 0 := by rwa [hblock]
    simp only [tlsGet, if_neg hslot, hfind, Tls.fetch, if_neg hne]
    exact hblock

theorem Tls.Inv.init : Tls.init.Inv where
  threads_inj hi := absurd hi (by simp [Tls.init])
  used h := absurd h.1 (by simp [Tls.init])
  blocks_inj h := absurd h.1 (by simp [Tls.init])
  alive h := absurd h.1 (by simp [Tls.init])
  disciplined := trivial
  held_iff := by
    intro t s p
    constructor
    · nofun
    · rintro ⟨i, hi, -⟩
      exact absurd hi.1 (by simp [Tls.init])

/-! ### Slots -/

theorem Tls.Inv.slotCreate (h : c.Inv) (size : UInt64) : (tlsSlotCreate c size).2.Inv := by
  unfold tlsSlotCreate
  split
  next i hi =>
    refine ⟨h.threads_inj, ?_, h.blocks_inj, h.alive, h.disciplined, h.held_iff⟩
    intro j s p hp
    show (Function.update c.slots i ⟨size, true⟩ s).used = true
    by_cases hs : s = i
    · rw [hs, Function.update_self]
    · rw [Function.update_of_ne hs]
      exact h.used hp
  · exact h

theorem Tls.Inv.slotDestroy (h : c.Inv) (slot : Nat) : (tlsSlotDestroy c slot).2.Inv := by
  unfold tlsSlotDestroy
  split
  · exact h
  next hslot =>
    obtain ⟨hlt, hused⟩ := not_or.mp hslot
    -- what is held afterwards was held before, for another slot
    have hholds : ∀ {i s p}, (tlsSlotDestroy c slot).2.Holds i s p ↔ c.Holds i s p ∧ s ≠ slot := by
      intro i s p
      simp only [tlsSlotDestroy, if_neg hslot, Tls.Holds]
      constructor
      · rintro ⟨hi, hs, hb, hp⟩
        split at hb
        · exact absurd hb.symm hp
        next hne => exact ⟨⟨hi, hs, hb, hp⟩, fun heq => hne ⟨hi, heq⟩⟩
      · rintro ⟨⟨hi, hs, hb, hp⟩, hne⟩
        rw [if_neg fun hc => hne hc.2]
        exact ⟨hi, hs, hb, hp⟩
    simp only [tlsSlotDestroy, if_neg hslot] at hholds ⊢
    have hlt : slot < tlsSlots := Nat.lt_of_not_le hlt
    refine ⟨h.threads_inj, ?_, ?_, ?_, ?_, ?_⟩
    · intro i s p hp
      obtain ⟨hp, hne⟩ := hholds.mp hp
      show (Function.update c.slots slot ⟨0, false⟩ s).used = true
      rw [Function.update_of_ne hne]
      exact h.used hp
    · intro i s j s' p hp hp'
      exact h.blocks_inj (hholds.mp hp).1 (hholds.mp hp').1
    · intro i s p hp
      obtain ⟨hp, hne⟩ := hholds.mp hp
      refine mem_allocated_freeEach.mpr ⟨h.alive hp, ?_⟩
      intro t ht ht0 heq
      exact hne (h.blocks_inj hp ⟨ht, hlt, heq, hp.2.2.2⟩).2
    · refine disciplined_freeEach h.disciplined ?_ ?_
      · intro t ht ht0
        exact h.alive ⟨ht, hlt, rfl, ht0⟩
      · intro t t' ht ht' ht0 heq
        exact (h.blocks_inj ⟨ht, hlt, rfl, ht0⟩ ⟨ht', hlt, heq.symm, ht0⟩).1
    · intro t s p
      simp only [List.mem_filter, h.held_iff, decide_eq_true_eq]
      constructor
      · rintro ⟨⟨i, hi, hthread⟩, hne⟩
        exact ⟨i, hholds.mpr ⟨hi, hne⟩, hthread⟩
      · rintro ⟨i, hi, hthread⟩
        exact ⟨⟨i, (hholds.mp hi).1, hthread⟩, (hholds.mp hi).2⟩

/-! ### Threads -/

theorem Tls.Inv.register (h : c.Inv) (hnew : c.findThread thread = none)
    (hrow : ∀ s, s < tlsSlots → c.blocks c.threadCount s = 0) : (c.register thread).Inv := by
  have hthreads : ∀ {i}, i < c.threadCount → (c.register thread).threads i = c.threads i := by
    intro i hi
    exact Function.update_of_ne (by omega) _ _
  have hholds : ∀ {i s p}, (c.register thread).Holds i s p ↔ c.Holds i s p := by
    intro i s p
    constructor
    · rintro ⟨hi, hs, hb, hp⟩
      rcases Nat.lt_succ_iff_lt_or_eq.mp hi with hi | rfl
      · exact ⟨hi, hs, hb, hp⟩
      · exact absurd ((hrow s hs).symm.trans hb).symm hp
    · rintro ⟨hi, hs, hb, hp⟩
      exact ⟨Nat.lt_succ_of_lt hi, hs, hb, hp⟩
  have hlast : (c.register thread).threads c.threadCount = thread := Function.update_self ..
  have hnone := Tls.findThread_none hnew
  refine ⟨?_, fun hp => h.used (hholds.mp hp),
    fun hp hp' => h.blocks_inj (hholds.mp hp) (hholds.mp hp'), fun hp => h.alive (hholds.mp hp),
    h.disciplined, ?_⟩
  · intro i j hi hj heq
    rcases Nat.lt_succ_iff_lt_or_eq.mp hi with hi | rfl <;>
      rcases Nat.lt_succ_iff_lt_or_eq.mp hj with hj | rfl
    · rw [hthreads hi, hthreads hj] at heq
      exact h.threads_inj hi hj heq
    · rw [hthreads hi, hlast] at heq
      exact absurd heq (hnone i hi)
    · rw [hthreads hj, hlast] at heq
      exact absurd heq.symm (hnone j hj)
    · rfl
  · intro t s p
    show (t, s, p) ∈ c.held ↔ _
    rw [h.held_iff]
    constructor
    · rintro ⟨i, hi, hthread⟩
      exact ⟨i, hholds.mpr hi, by rw [hthreads hi.1, hthread]⟩
    · rintro ⟨i, hi, hthread⟩
      have hi := hholds.mp hi
      exact ⟨i, hi, by rw [← hthreads hi.1, hthread]⟩

theorem Tls.Inv.fetch (h : c.Inv) (hm : Allocates malloc) {slot : Nat}
    (ht : t < c.threadCount) (hslot : slot < tlsSlots) (hused : (c.slots slot).used = true) :
    ((c.fetch malloc t slot).2.obtain (c.threads t) slot (c.fetch malloc t slot).1).Inv := by
  unfold Tls.fetch
  split
  next hzero =>
    set p := malloc c.log (c.slots slot).size with hp
    have hblock : ∀ i s, Function.update c.blocks t (Function.update (c.blocks t) slot p) i s =
        if i = t ∧ s = slot then p else c.blocks i s := by
      intro i s
      by_cases hi : i = t
      · subst hi
        by_cases hs : s = slot
        · simp [hs]
        · simp [hs]
      · simp [hi]
    by_cases hp0 : p = 0
    · -- nothing was allocated
      have hblocks : Function.update c.blocks t (Function.update (c.blocks t) slot p) = c.blocks := by
        funext i s
        rw [hblock]
        split
        next heq => rw [heq.1, heq.2, hp0, hzero]
        · rfl
      simp only [Tls.obtain, hblocks, if_pos hp0]
      refine ⟨h.threads_inj, h.used, h.blocks_inj, ?_, h.disciplined, h.held_iff⟩
      intro i s q hq
      simp only [allocated, if_pos hp0]
      exact h.alive hq
    · have hfresh : p ∉ allocated c.log := hm c.log _ h.disciplined hp0
      simp only [Tls.obtain, if_neg hp0]
      set c' : Tls := { c with
        blocks := Function.update c.blocks t (Function.update (c.blocks t) slot p)
        log := .malloc (c.slots slot).size p :: c.log
        held := (c.threads t, slot, p) :: c.held } with hc'
      have hholds : ∀ {i s q}, c'.Holds i s q ↔ c.Holds i s q ∨ (i = t ∧ s = slot ∧ q = p) := by
        intro i s q
        simp only [Tls.Holds, hc', hblock]
        constructor
        · rintro ⟨hi, hs, hb, hq⟩
          split at hb
          next heq => exact .inr ⟨heq.1, heq.2, hb.symm⟩
          · exact .inl ⟨hi, hs, hb, hq⟩
        · rintro (⟨hi, hs, hb, hq⟩ | ⟨rfl, rfl, rfl⟩)
          · refine ⟨hi, hs, ?_, hq⟩
            rw [if_neg]
            · exact hb
            · rintro ⟨rfl, rfl⟩
              exact hq (hb.symm.trans hzero)
          · exact ⟨ht, hslot, if_pos ⟨rfl, rfl⟩, hp0⟩
      refine ⟨h.threads_inj, ?_, ?_, ?_, h.disciplined, ?_⟩
      · intro i s q hq
        rcases hholds.mp hq with hq | ⟨-, rfl, -⟩
        · exact h.used hq
        · exact hused
      · intro i s j s' q hq hq'
        rcases hholds.mp hq with hold | ⟨rfl, rfl, rfl⟩ <;>
          rcases hholds.mp hq' with hold' | ⟨rfl, rfl, heq⟩
        · exact h.blocks_inj hold hold'
        · exact absurd (h.alive hold) (heq ▸ hfresh)
        · exact absurd (h.alive hold') hfresh
        · exact ⟨rfl, rfl⟩
      · intro i s q hq
        simp only [hc', allocated, if_neg hp0, List.mem_cons]
        rcases hholds.mp hq with hq | ⟨-, -, rfl⟩
        · exact .inr (h.alive hq)
        · exact .inl rfl
      · intro t' s q
        show (t', s, q) ∈ (c.threads t, slot, p) :: c.held ↔ _
        rw [List.mem_cons, h.held_iff]
        constructor
        · rintro (heq | ⟨i, hi, hthread⟩)
          · obtain ⟨rfl, rfl, rfl⟩ : t' = c.threads t ∧ s = slot ∧ q = p := by simpa using heq
            exact ⟨t, hholds.mpr (.inr ⟨rfl, rfl, rfl⟩), rfl⟩
          · exact ⟨i, hholds.mpr (.inl hi), hthread⟩
        · rintro ⟨i, hi, hthread⟩
          rcases hholds.mp hi with hi | ⟨rfl, rfl, rfl⟩
          · exact .inr ⟨i, hi, hthread⟩
          · exact .inl (by rw [← hthread])
  next hne =>
    simp only [Tls.obtain, if_neg hne]
    refine ⟨h.threads_inj, h.used, h.blocks_inj, h.alive, h.disciplined, ?_⟩
    intro t' s q
    show (t', s, q) ∈ (c.threads t, slot, c.blocks t slot) :: c.held ↔ _
    rw [List.mem_cons, h.held_iff]
    constructor
    · rintro (heq | hheld)
      · obtain ⟨rfl, rfl, rfl⟩ : t' = c.threads t ∧ s = slot ∧ q = c.blocks t slot := by
          simpa using heq
        exact ⟨t, ⟨ht, hslot, rfl, hne⟩, rfl⟩
      · exact hheld
    · exact .inr

theorem Tls.Inv.get (h : c.Inv) (hm : Allocates malloc) {slot : Nat}
    (hg : c.Guard (.get slot thread)) : (tlsGet malloc c slot thread).2.Inv := by
  unfold tlsGet
  split
  · exact h
  next hslot =>
    obtain ⟨hlt, hused⟩ := not_or.mp hslot
    have hlt : slot < tlsSlots := Nat.lt_of_not_le hlt
    have hused : (c.slots slot).used = true := by simpa using hused
    split
    next t hfind =>
      obtain ⟨ht, hthread⟩ := Tls.findThread_some hfind
      rw [← hthread]
      exact h.fetch hm ht hlt hused
    next hnone =>
      split
      · exact h
      next hroom =>
        have hreg := h.register hnone (hg hlt hused hnone (Nat.lt_of_not_le hroom))
        have hthread : (c.register thread).threads c.threadCount = thread :=
          Function.update_self ..
        have hfetch := hreg.fetch hm (Nat.lt_succ_self c.threadCount) hlt hused
        rw [hthread] at hfetch
        exact hfetch

/-- The row a row comes from when row `t` of `n` is filled from the last one. -/
def movedFrom (n t i : Nat) : Nat := if i = t then n - 1 else i

theorem movedFrom_spec (ht : t < n) (hi : i < n - 1) :
    movedFrom n t i < n ∧ movedFrom n t i ≠ t := by
  unfold movedFrom
  split <;> omega

theorem movedFrom_inj {j : Nat} (hi : i < n - 1) (hj : j < n - 1)
    (heq : movedFrom n t i = movedFrom n t j) : i = j := by
  unfold movedFrom at heq
  split at heq <;> split at heq <;> omega

theorem movedFrom_surj {k : Nat} (ht : t < n) (hk : k < n) (hne : k ≠ t) :
    ∃ i, i < n - 1 ∧ movedFrom n t i = k := by
  by_cases hlast : k = n - 1
  · exact ⟨t, by omega, by rw [movedFrom, if_pos rfl, hlast]⟩
  · exact ⟨k, by omega, by rw [movedFrom, if_neg hne]⟩

theorem tlsThreadExit_rows (hfind : c.findThread thread = some t) (hi : i < c.threadCount - 1) :
    (tlsThreadExit c thread).threads i = c.threads (movedFrom c.threadCount t i) ∧
      (tlsThreadExit c thread).blocks i = c.blocks (movedFrom c.threadCount t i) := by
  obtain ⟨ht, -⟩ := Tls.findThread_some hfind
  simp only [tlsThreadExit, hfind]
  unfold movedFrom
  by_cases hmove : t + 1 < c.threadCount
  · have hlast : c.threadCount - 1 ≠ t := by omega
    simp only [if_pos hmove, Function.update_of_ne hlast]
    by_cases hit : i = t
    · simp only [hit, Function.update_self, if_true, and_self]
    · simp only [Function.update_of_ne hit, if_neg hit, and_self]
  · have hit : i ≠ t := by omega
    simp only [if_neg hmove, Function.update_of_ne hit, if_neg hit, and_self]

theorem Tls.Inv.threadExit (h : c.Inv) (thread : UInt64) : (tlsThreadExit c thread).Inv := by
  cases hfind : c.findThread thread with
  | none =>
    simp only [tlsThreadExit, hfind]
    exact h
  | some t =>
    obtain ⟨ht, hthread⟩ := Tls.findThread_some hfind
    have hcount : (tlsThreadExit c thread).threadCount = c.threadCount - 1 := by
      simp only [tlsThreadExit, hfind]
    have hlog : (tlsThreadExit c thread).log = freeEach (c.blocks t) tlsSlots c.log := by
      simp only [tlsThreadExit, hfind]
      split <;> rfl
    have hslots : (tlsThreadExit c thread).slots = c.slots := by
      simp only [tlsThreadExit, hfind]
      split <;> rfl
    have hheld : (tlsThreadExit c thread).held = c.held.filter fun e => e.1 ≠ thread := by
      simp only [tlsThreadExit, hfind]
      split <;> rfl
    -- a row afterwards holds what the row it came from held
    have hholds : ∀ {i s p}, (tlsThreadExit c thread).Holds i s p ↔
        i < c.threadCount - 1 ∧ c.Holds (movedFrom c.threadCount t i) s p := by
      intro i s p
      unfold Tls.Holds
      rw [hcount]
      constructor
      · rintro ⟨hi, hs, hb, hp⟩
        rw [(tlsThreadExit_rows hfind hi).2] at hb
        exact ⟨hi, (movedFrom_spec ht hi).1, hs, hb, hp⟩
      · rintro ⟨hi, -, hs, hb, hp⟩
        rw [(tlsThreadExit_rows hfind hi).2]
        exact ⟨hi, hs, hb, hp⟩
    refine ⟨?_, ?_, ?_, ?_, ?_, ?_⟩
    · intro i j hi hj heq
      rw [hcount] at hi hj
      rw [(tlsThreadExit_rows hfind hi).1, (tlsThreadExit_rows hfind hj).1] at heq
      exact movedFrom_inj hi hj
        (h.threads_inj (movedFrom_spec ht hi).1 (movedFrom_spec ht hj).1 heq)
    · intro i s p hp
      rw [hslots]
      exact h.used (hholds.mp hp).2
    · intro i s j s' p hp hp'
      obtain ⟨hi, hp⟩ := hholds.mp hp
      obtain ⟨hj, hp'⟩ := hholds.mp hp'
      obtain ⟨heq, rfl⟩ := h.blocks_inj hp hp'
      exact ⟨movedFrom_inj hi hj heq, rfl⟩
    · intro i s p hp
      obtain ⟨hi, hp⟩ := hholds.mp hp
      rw [hlog]
      refine mem_allocated_freeEach.mpr ⟨h.alive hp, ?_⟩
      intro s' hs' hs0 heq
      exact (movedFrom_spec ht hi).2 (h.blocks_inj hp ⟨ht, hs', heq, hp.2.2.2⟩).1
    · rw [hlog]
      refine disciplined_freeEach h.disciplined ?_ ?_
      · intro s hs hs0
        exact h.alive ⟨ht, hs, rfl, hs0⟩
      · intro s s' hs hs' hs0 heq
        exact (h.blocks_inj ⟨ht, hs, rfl, hs0⟩ ⟨ht, hs', heq.symm, hs0⟩).2
    · intro t' s p
      rw [hheld, List.mem_filter, h.held_iff]
      simp only [ne_eq, decide_not, Bool.not_eq_true', decide_eq_false_iff_not]
      constructor
      · rintro ⟨⟨k, hk, hkt⟩, hne⟩
        have hkne : k ≠ t := by
          rintro rfl
          exact hne (hkt.symm.trans hthread)
        obtain ⟨i, hi, rfl⟩ := movedFrom_surj ht hk.1 hkne
        exact ⟨i, hholds.mpr ⟨hi, hk⟩, by rw [(tlsThreadExit_rows hfind hi).1, hkt]⟩
      · rintro ⟨i, hi, hit⟩
        obtain ⟨hi, hk⟩ := hholds.mp hi
        rw [(tlsThreadExit_rows hfind hi).1] at hit
        refine ⟨⟨_, hk, hit⟩, fun heq => (movedFrom_spec ht hi).2 ?_⟩
        exact h.threads_inj hk.1 ht (by rw [hit, heq, hthread])

/-! ### The result -/

theorem Tls.Inv.next (h : c.Inv) (hm : Allocates malloc) {op : TlsOp} (hg : c.Guard op) :
    (c.next malloc op).Inv := by
  cases op with
  | slotCreate size => exact h.slotCreate size
  | slotDestroy slot => exact h.slotDestroy slot
  | get slot thread => exact h.get hm hg
  | threadExit thread => exact h.threadExit thread

/-- In every state that a run reaches in which new threads take empty rows, the
blocks that threads hold are isolated. -/
theorem tls_isolated (malloc : List HeapCall → UInt64 → UInt64) (hm : Allocates malloc)
    (ops : List TlsOp) (c : Tls) (h : Calls Tls.Guard (Tls.next malloc) .init ops c) :
    c.Isolated malloc := by
  have hinv : c.Inv := h.invariant (fun _ _ hc hg => hc.next hm hg) .init
  exact hinv.isolated malloc

/-! ## The heap below the registry -/

variable {k64 : Kernel}

/-- The heap after the calls of a log, `none` when it answers otherwise than the log says or a
size wraps around. -/
def replay (k64 : Kernel) : List HeapCall → Option HeapUse
  | [] => some .init
  | .malloc size p :: log => (replay k64 log).bind fun s =>
    if wraps size.toNat ∨ s.answer k64 (.malloc size.toNat) ≠ p.toNat then none
    else s.next k64 (.malloc size.toNat)
  | .free p :: log => (replay k64 log).bind fun s => s.next k64 (.free p.toNat)

/-- What `ow_malloc` answers after the calls of a log, null for a size that wraps around. -/
def heapMalloc (k64 : Kernel) (log : List HeapCall) (size : UInt64) : UInt64 :=
  match replay k64 log with
  | none => 0
  | some s => if wraps size.toNat then 0 else UInt64.ofNat (s.answer k64 (.malloc size.toNat))

theorem next_malloc {s s' : HeapUse} {n : Nat} (h : s.next k64 (.malloc n) = some s') :
    s'.live = hold (s.answer k64 (.malloc n)) n s.live := by
  obtain ⟨r, hr, rfl⟩ := Option.map_eq_some_iff.mp h
  simp only [HeapUse.answer, hr, Option.map_some, Option.getD_some]

/-- The caller of the heap holds the blocks that the log says are allocated. -/
theorem replay_sound (hk : Honest k64) {log : List HeapCall} (hd : Disciplined log) {s : HeapUse}
    (h : replay k64 log = some s) : ∃ v fl, s.Sound v fl ∧ Clear s.heap v ∧
      ∀ p, p ∈ allocated log ↔ ∃ n, (p.toNat, n) ∈ s.live := by
  induction log generalizing s with
  | nil =>
    cases h
    exact ⟨_, _, .init, fun _ _ _ hv => (by cases hv), fun p => by simp [allocated, HeapUse.init]⟩
  | cons call log ih =>
    cases call with
    | malloc size p =>
      obtain ⟨t, ht, h⟩ := Option.bind_eq_some_iff.1 h
      obtain ⟨v, fl, hs, hclear, hlive⟩ := ih hd ht
      split at h
      · cases h
      next hc =>
        obtain ⟨hw, hp⟩ := not_or.1 hc
        obtain ⟨s', v', fl', hnext, hs', hclear'⟩ :=
          hs.nextClear hk hclear (.malloc size.toNat) trivial fun hc => hw hc.2
        cases hnext.symm.trans h
        refine ⟨v', fl', hs', hclear', fun q => ?_⟩
        rw [next_malloc h, not_not.1 hp, allocated, hold]
        by_cases hzero : p = 0
        · rw [if_pos hzero, if_pos (by rw [hzero]; rfl)]
          exact hlive q
        · have hne : p.toNat ≠ 0 := fun hz => hzero (UInt64.toNat_inj.1 hz)
          rw [if_neg hzero, if_neg hne, List.mem_cons, hlive q]
          simp [exists_or, UInt64.toNat_inj]
    | free p =>
      obtain ⟨t, ht, h⟩ := Option.bind_eq_some_iff.1 h
      obtain ⟨hmem, hd⟩ := hd
      obtain ⟨v, fl, hs, hclear, hlive⟩ := ih hd ht
      obtain ⟨s', v', fl', hnext, hs', hclear'⟩ :=
        hs.nextClear hk hclear (.free p.toNat) (.inr ((hlive p).1 hmem)) id
      cases hnext.symm.trans h
      cases hnext
      refine ⟨v', fl', hs', hclear', fun q => ?_⟩
      simp [allocated, hlive, mem_giveUp, UInt64.toNat_inj]

/-- The heap returns no block that is allocated. -/
theorem heapMalloc_allocates (hk : Honest k64) : Allocates (heapMalloc k64) := by
  intro log size hd hne hmem
  unfold heapMalloc at hne hmem
  cases hr : replay k64 log with
  | none =>
    rw [hr] at hne
    exact hne rfl
  | some s =>
    rw [hr] at hne hmem
    dsimp only at hne hmem
    split at hne
    · exact hne rfl
    next hw =>
      rw [if_neg hw] at hmem
      obtain ⟨v, fl, hs, hclear, hlive⟩ := replay_sound hk hd hr
      obtain ⟨n, hn⟩ := (hlive _).1 hmem
      obtain ⟨s', v', fl', hnext, hs', -⟩ :=
        hs.nextClear hk hclear (.malloc size.toNat) trivial fun hc => hw hc.2
      have hheld := next_malloc hnext
      have hpos : s.answer k64 (.malloc size.toNat) ≠ 0 := fun hz => hne (by rw [hz]; rfl)
      rw [hold, if_neg hpos] at hheld
      -- the new block lies below `2 ^ 64` and is not one of those held
      obtain ⟨j, hj, hact, hlo, hhi⟩ :=
        (hs'.owned (hheld ▸ List.mem_cons_self)).held hs'.coherent.shape
      have hfit := hs'.coherent.shape.fit hj hact
      have hdistinct := hs'.distinct
      rw [hheld, List.pairwise_cons] at hdistinct
      refine hdistinct.1 _ hn ?_
      rw [UInt64.toNat_ofNat', Nat.mod_eq_of_lt (by omega)]

theorem tls_isolated_two :
    ∃ c, Calls Tls.Guard (Tls.next (heapMalloc fallingKernel)) .init
        [.slotCreate 64, .get 0 1001, .get 0 1002] c ∧
      c.held = [(1002, 0, 0x40008c), (1001, 0, 0x400030)] ∧
        c.Isolated (heapMalloc fallingKernel) := by
  have h : Calls Tls.Guard (Tls.next (heapMalloc fallingKernel)) .init
      ([] ++ [.slotCreate 64] ++ [.get 0 1001] ++ [.get 0 1002]) _ :=
    .snoc (.snoc (.snoc .nil trivial) fun _ _ _ _ => by decide) fun _ _ _ _ => by decide
  exact ⟨_, h, by decide, tls_isolated _ (heapMalloc_allocates fallingKernel_honest) _ _ h⟩

/-- The first of two threads exits, and a third one takes the row of the second. -/
theorem tls_shared_row :
    ¬ (([.slotCreate 64, .get 0 1001, .get 0 1002, .threadExit 1001, .get 0 1003] :
        List TlsOp).foldl (Tls.next (heapMalloc fallingKernel)) .init).Isolated
          (heapMalloc fallingKernel) := by
  intro h
  have hheld : (([.slotCreate 64, .get 0 1001, .get 0 1002, .threadExit 1001, .get 0 1003] :
      List TlsOp).foldl (Tls.next (heapMalloc fallingKernel)) .init).held =
        [(1003, 0, 0x40008c), (1002, 0, 0x40008c)] := by decide
  exact h.distinct (hheld ▸ List.mem_cons_of_mem _ List.mem_cons_self)
    (hheld ▸ List.mem_cons_self) (by decide) rfl

end

end Crt64
