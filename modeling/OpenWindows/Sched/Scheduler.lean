import Mathlib.Data.Fintype.Card
import OpenWindows.Lib.StepSystem

/-!
# The thread scheduler

The table of thread control blocks of `sched64.c` and the four calls that change it.  Every
call keeps the invariant `Sound`, with two exceptions: a thread that is terminated twice is
counted twice, and a yield leaves the thread that was running in its state.  `sound_iff_orderly`
says that nothing else goes wrong in any run.
-/

namespace Sched

open StepSystem

/-- `SCHED_MAX_THREADS`. -/
abbrev maxThreads : Nat := 64

/-- `SCHED_DEFAULT_QUANTUM`. -/
def defaultQuantum : UInt32 := 10

/-- `thread_state_t`. -/
inductive ThreadState
  | unused | ready | running | blocked | frozen | terminated
deriving DecidableEq, Repr

/-- A slot that `sched_create_thread` takes. -/
def ThreadState.isFree (st : ThreadState) : Bool := st = .unused || st = .terminated

/-- A slot that `sched_yield` picks. -/
def ThreadState.isRunnable (st : ThreadState) : Bool := st = .ready || st = .running

/-- `sched_tcb_t`. -/
structure Tcb where
  threadId : UInt32
  processId : UInt32
  priority : UInt32
  state : ThreadState
  instructionPtr : UInt64
  stackPtr : UInt64
  quantumRemaining : UInt32
  totalCpuTime : UInt32
deriving DecidableEq, Repr

/-- `sched_scheduler_t`. -/
structure Scheduler where
  threads : Fin maxThreads → Tcb
  currentThreadIdx : UInt32
  activeThreadCount : UInt32

/-- The control block at `i` is replaced. -/
def Scheduler.put (s : Scheduler) (i : Fin maxThreads) (t : Tcb) : Scheduler :=
  { s with threads := Function.update s.threads i t }

/-- `sched_init`: the other fields of the control blocks keep what they held. -/
def schedInit (s : Scheduler) : Scheduler where
  threads i := { s.threads i with state := .unused, threadId := 0 }
  currentThreadIdx := 0
  activeThreadCount := 0

def Scheduler.firstSlot (s : Scheduler) (p : Tcb → Bool) : Option (Fin maxThreads) :=
  (List.finRange maxThreads).find? fun i => p (s.threads i)

/-- `sched_create_thread`. -/
def schedCreateThread (s : Scheduler) (pid : UInt32) (entry stack : UInt64) (prio : UInt32) :
    Int32 × Scheduler :=
  match s.firstSlot fun t => t.state.isFree with
  | none => (-1, s)
  | some i =>
    let tid := UInt32.ofNat (i.val + 1)
    let t : Tcb := ⟨tid, pid, prio, .ready, entry, stack, defaultQuantum, 0⟩
    (tid.toInt32, { s.put i t with activeThreadCount := s.activeThreadCount + 1 })

/-- `sched_terminate_thread`. -/
def schedTerminateThread (s : Scheduler) (tid : UInt32) : Bool × Scheduler :=
  if tid = 0 then (false, s)
  else
    match s.firstSlot fun t => t.threadId = tid && t.state ≠ .unused with
    | none => (false, s)
    | some i =>
      let count := s.activeThreadCount
      (true, { s.put i { s.threads i with state := .terminated } with
        activeThreadCount := if count > 0 then count - 1 else count })

/-- `sched_freeze_thread`. -/
def schedFreezeThread (s : Scheduler) (tid : UInt32) : Bool × Scheduler :=
  if tid = 0 then (false, s)
  else
    match s.firstSlot fun t => t.threadId = tid && t.state = .running with
    | none => (false, s)
    | some i => (true, s.put i { s.threads i with state := .frozen })

/-- The slot that the loop of `sched_yield` looks at in its turn `offset`, counted from 0. -/
def Scheduler.turn (s : Scheduler) (offset : Nat) : Fin maxThreads :=
  ⟨(s.currentThreadIdx.toNat + (offset + 1)) % maxThreads, Nat.mod_lt _ (by decide)⟩

/-- `sched_yield`. -/
def schedYield (s : Scheduler) : Int32 × Scheduler :=
  if s.activeThreadCount = 0 then (-1, s)
  else
    match (List.range maxThreads).find? fun o => (s.threads (s.turn o)).state.isRunnable with
    | none => (-1, s)
    | some o =>
      let i := s.turn o
      ((s.threads i).threadId.toInt32,
        { s.put i { s.threads i with state := .running } with
          currentThreadIdx := UInt32.ofNat i.val })

/-! ## Runs -/

/-- A call of the scheduler. -/
inductive Op
  | create (pid : UInt32) (entry stack : UInt64) (prio : UInt32)
  | terminate (tid : UInt32)
  | freeze (tid : UInt32)
  | yield

/-- The scheduler after a call. -/
def next (s : Scheduler) : Op → Scheduler
  | .create pid entry stack prio => (schedCreateThread s pid entry stack prio).2
  | .terminate tid => (schedTerminateThread s tid).2
  | .freeze tid => (schedFreezeThread s tid).2
  | .yield => (schedYield s).2

/-- The threads that are neither unused nor terminated. -/
def Scheduler.live (s : Scheduler) : Finset (Fin maxThreads) :=
  Finset.univ.filter fun i => (s.threads i).state.isFree = false

/-- Only the current thread runs, and the count is that of the live ones. -/
structure Sound (s : Scheduler) : Prop where
  running : ∀ i, (s.threads i).state = .running → s.currentThreadIdx.toNat = i.val
  counted : s.activeThreadCount.toNat = s.live.card

/-- What the result of a call promises. -/
def Honest (s : Scheduler) : Op → Prop
  | .terminate tid =>
    (schedTerminateThread s tid).1 = true → ∃ i ∈ s.live, (s.threads i).threadId = tid
  | .yield => (schedYield s).1 = -1 → ∀ i, (s.threads i).state.isRunnable = false
  | _ => True

def Orderly (s : Scheduler) : Op → Prop
  | .terminate tid => ∀ i, (s.threads i).threadId = tid → (s.threads i).state ≠ .terminated
  | .yield => ∀ i j, (s.threads i).state = .running → (s.threads j).state ≠ .ready
  | _ => True

/-! ## Slots -/

variable {s : Scheduler} {i j : Fin maxThreads} {t : Tcb}

theorem firstSlot_some {p : Tcb → Bool} (h : s.firstSlot p = some i) : p (s.threads i) = true := by
  unfold Scheduler.firstSlot at h
  exact List.find?_some (p := fun i => p (s.threads i)) h

theorem firstSlot_none {p : Tcb → Bool} (h : s.firstSlot p = none) (i : Fin maxThreads) :
    p (s.threads i) = false := by
  unfold Scheduler.firstSlot at h
  exact Bool.eq_false_iff.2 (List.find?_eq_none.1 h i (List.mem_finRange i))

theorem put_threads_self : (s.put i t).threads i = t := by
  exact Function.update_self i t s.threads

theorem put_threads : (s.put i t).threads j = if j = i then t else s.threads j := by
  by_cases h : j = i
  · rw [if_pos h, h]
    exact Function.update_self i t s.threads
  · rw [if_neg h]
    exact Function.update_of_ne h t s.threads

theorem mem_live : i ∈ s.live ↔ (s.threads i).state.isFree = false := by
  simp [Scheduler.live]

theorem live_put_insert (h : (s.threads i).state.isFree = true) (ht : t.state.isFree = false) :
    (s.put i t).live.card = s.live.card + 1 := by
  have heq : (s.put i t).live = insert i s.live := by
    ext j
    rw [mem_live, Finset.mem_insert, mem_live, put_threads]
    split
    next hj => simp [hj, ht]
    next hj => simp [hj]
  rw [heq, Finset.card_insert_of_notMem]
  rw [mem_live, h]
  exact Bool.noConfusion

theorem live_put_erase (h : i ∈ s.live) (ht : t.state.isFree = true) :
    (s.put i t).live.card = s.live.card - 1 := by
  have heq : (s.put i t).live = s.live.erase i := by
    ext j
    rw [mem_live, Finset.mem_erase, mem_live, put_threads]
    split
    next hj => simp [hj, ht]
    next hj => simp [hj]
  rw [heq, Finset.card_erase_of_mem h]

/-- A slot that changes within its kind leaves the count. -/
theorem live_put_same (h : t.state.isFree = (s.threads i).state.isFree) :
    (s.put i t).live = s.live := by
  ext j
  rw [mem_live, mem_live, put_threads]
  split
  next hj => rw [h, hj]
  · rfl

theorem live_card_le : s.live.card ≤ maxThreads :=
  (Finset.card_le_univ _).trans_eq (Fintype.card_fin _)

theorem turn_surj (s : Scheduler) (i : Fin maxThreads) :
    ∃ o < maxThreads, s.turn o = i := by
  have hi : i.val < 64 := i.isLt
  refine ⟨(i.val + 63 - s.currentThreadIdx.toNat % 64 + 64) % 64, Nat.mod_lt _ (by decide), ?_⟩
  apply Fin.ext
  simp only [Scheduler.turn, maxThreads]
  omega

theorem turn_eq_current {o : Nat} (ho : o < maxThreads) (h : s.currentThreadIdx.toNat = i.val)
    (ht : s.turn o = i) : o = 63 := by
  have hi : i.val < 64 := i.isLt
  have hv := congrArg Fin.val ht
  simp only [Scheduler.turn, maxThreads] at hv ho
  omega

/-! ## The invariant -/

/-- What every orderly call keeps: the invariant, and every used slot has its own id. -/
structure Inv (s : Scheduler) : Prop extends Sound s where
  ids : ∀ i, (s.threads i).state ≠ .unused → (s.threads i).threadId = UInt32.ofNat (i.val + 1)

theorem schedInit_inv (s : Scheduler) : Inv (schedInit s) where
  running i hi := ThreadState.noConfusion hi
  counted := by
    have hlive : (schedInit s).live = ∅ := by
      apply Finset.eq_empty_of_forall_notMem
      intro i hi
      exact absurd (mem_live.1 hi) Bool.noConfusion
    rw [hlive]
    rfl
  ids i hi := absurd rfl hi

theorem slotId_inj (h : UInt32.ofNat (i.val + 1) = UInt32.ofNat (j.val + 1)) : i = j := by
  have hi : i.val < 64 := i.isLt
  have hj : j.val < 64 := j.isLt
  have hv := congrArg UInt32.toNat h
  simp only [UInt32.toNat_ofNat'] at hv
  exact Fin.ext (by omega)

theorem slotId_ne_zero : UInt32.ofNat (i.val + 1) ≠ 0 := by
  have hi : i.val < 64 := i.isLt
  intro h
  have hv := congrArg UInt32.toNat h
  simp only [UInt32.toNat_ofNat', UInt32.toNat_zero] at hv
  omega

theorem slotId_ne_neg_one : (UInt32.ofNat (i.val + 1)).toInt32 ≠ -1 := by
  revert i
  decide

theorem Inv.eq_of_id (h : Inv s) (hi : (s.threads i).state ≠ .unused)
    (hj : (s.threads j).state ≠ .unused) (hid : (s.threads i).threadId = (s.threads j).threadId) :
    i = j := by
  rw [h.ids i hi, h.ids j hj] at hid
  exact slotId_inj hid

theorem Inv.put_running (h : Inv s) (ht : t.state ≠ .running)
    (hj : ((s.put i t).threads j).state = .running) : s.currentThreadIdx.toNat = j.val := by
  rw [put_threads] at hj
  split at hj
  · exact absurd hj ht
  · exact h.running j hj

theorem Inv.put_ids (h : Inv s) (ht : t.threadId = UInt32.ofNat (i.val + 1))
    (hj : ((s.put i t).threads j).state ≠ .unused) :
    ((s.put i t).threads j).threadId = UInt32.ofNat (j.val + 1) := by
  rw [put_threads] at hj ⊢
  split at hj
  next hji => rw [if_pos hji, ht, hji]
  next hji =>
    rw [if_neg hji]
    exact h.ids j hj

theorem Inv.create (h : Inv s) (pid : UInt32) (entry stack : UInt64) (prio : UInt32) :
    Inv (schedCreateThread s pid entry stack prio).2 := by
  unfold schedCreateThread
  split
  · exact h
  next i hfree =>
    have hcard := live_put_insert (t := ⟨UInt32.ofNat (i.val + 1), pid, prio, .ready, entry, stack,
      defaultQuantum, 0⟩) (firstSlot_some hfree) rfl
    refine { running := fun j => h.put_running ThreadState.noConfusion, counted := ?_,
             ids := fun j => h.put_ids rfl }
    have hle : s.live.card + 1 ≤ 64 := hcard ▸ live_card_le
    change (s.activeThreadCount + 1).toNat = (s.put i _).live.card
    rw [hcard, UInt32.toNat_add, h.counted, UInt32.toNat_one]
    omega

theorem terminate_slot {tid : UInt32}
    (h : s.firstSlot (fun t => t.threadId = tid && t.state ≠ .unused) = some i) :
    (s.threads i).threadId = tid ∧ (s.threads i).state ≠ .unused := by
  simpa using firstSlot_some h

theorem Orderly.live {tid : UInt32} (ho : Orderly s (.terminate tid))
    (h : s.firstSlot (fun t => t.threadId = tid && t.state ≠ .unused) = some i) : i ∈ s.live := by
  obtain ⟨hid, hused⟩ := terminate_slot h
  rw [mem_live]
  simp [ThreadState.isFree, hused, ho i hid]

theorem Inv.terminate (h : Inv s) {tid : UInt32}
    (ho : Orderly s (.terminate tid)) : Inv (schedTerminateThread s tid).2 := by
  unfold schedTerminateThread
  split
  · exact h
  · split
    · exact h
    next i hi =>
      have hlive := ho.live hi
      have hcard := live_put_erase (t := { s.threads i with state := .terminated }) hlive rfl
      have hpos : 1 ≤ s.activeThreadCount.toNat := by
        rw [h.counted]
        exact Finset.card_pos.2 ⟨i, hlive⟩
      refine { running := fun j => h.put_running ThreadState.noConfusion, counted := ?_,
               ids := fun j => h.put_ids (h.ids i (terminate_slot hi).2) }
      have hgt : s.activeThreadCount > 0 := UInt32.lt_iff_toNat_lt.2 hpos
      change (if s.activeThreadCount > 0 then s.activeThreadCount - 1
        else s.activeThreadCount).toNat = (s.put i _).live.card
      rw [if_pos hgt, hcard, ← h.counted]
      exact UInt32.toNat_sub_of_le _ _ (UInt32.le_iff_toNat_le.2 hpos)

theorem Inv.freeze (h : Inv s) (tid : UInt32) : Inv (schedFreezeThread s tid).2 := by
  unfold schedFreezeThread
  split
  · exact h
  · split
    · exact h
    next i hi =>
      have hrun : (s.threads i).state = .running := by
        have htest := firstSlot_some hi
        simp only [Bool.and_eq_true, decide_eq_true_eq] at htest
        exact htest.2
      have hused : (s.threads i).state ≠ .unused := by
        rw [hrun]
        exact ThreadState.noConfusion
      refine { running := fun j => h.put_running ThreadState.noConfusion, counted := ?_,
               ids := fun j => h.put_ids (h.ids i hused) }
      rw [live_put_same]
      · exact h.counted
      · rw [hrun]
        rfl

/-! ## Yielding -/

theorem yield_turn {o : Nat}
    (h : (List.range maxThreads).find? (fun o => (s.threads (s.turn o)).state.isRunnable) = some o) :
    o < maxThreads ∧ (s.threads (s.turn o)).state.isRunnable = true ∧
      ∀ o' < o, (s.threads (s.turn o')).state.isRunnable = false := by
  rw [List.find?_range_eq_some] at h
  exact ⟨List.mem_range.1 h.2.1, h.1, fun o' ho' => by simpa using h.2.2 o' ho'⟩

theorem yield_none
    (h : (List.range maxThreads).find? (fun o => (s.threads (s.turn o)).state.isRunnable) = none)
    (i : Fin maxThreads) : (s.threads i).state.isRunnable = false := by
  obtain ⟨o, ho, rfl⟩ := turn_surj s i
  exact Bool.eq_false_iff.2 (List.find?_eq_none.1 h o (List.mem_range.2 ho))

theorem isFree_of_isRunnable {st : ThreadState} (h : st.isRunnable = true) : st.isFree = false := by
  cases st <;> first | rfl | exact Bool.noConfusion h

theorem Sound.count_ne_zero (h : Sound s) (hi : (s.threads i).state.isRunnable = true) :
    s.activeThreadCount ≠ 0 := by
  intro hzero
  have hcount := h.counted
  rw [hzero, UInt32.toNat_zero] at hcount
  have hempty := Finset.card_eq_zero.1 hcount.symm
  have hmem : i ∈ s.live := mem_live.2 (isFree_of_isRunnable hi)
  rw [hempty] at hmem
  exact absurd hmem (Finset.notMem_empty i)

theorem Inv.yield (h : Inv s) (ho : Orderly s .yield) : Inv (schedYield s).2 := by
  unfold schedYield
  split
  · exact h
  · split
    · exact h
    next o hturn =>
      obtain ⟨-, hrun, -⟩ := yield_turn hturn
      generalize s.turn o = i at hrun
      have hfree := isFree_of_isRunnable hrun
      have hused : (s.threads i).state ≠ .unused := by
        intro hu
        rw [hu] at hrun
        exact Bool.noConfusion hrun
      refine { running := ?_, counted := ?_, ids := fun j => h.put_ids (h.ids i hused) }
      · intro j hj
        have hi : i.val < 64 := i.isLt
        suffices hji : j = i by
          subst hji
          change (UInt32.ofNat j.val).toNat = j.val
          rw [UInt32.toNat_ofNat']
          omega
        by_contra hji
        replace hj : ((s.put i { s.threads i with state := .running }).threads j).state = .running := hj
        rw [put_threads, if_neg hji] at hj
        cases hst : (s.threads i).state with
        | ready => exact ho j i hj hst
        | running => exact hji (Fin.ext ((h.running j hj).symm.trans (h.running i hst)))
        | _ => rw [hst] at hrun; exact Bool.noConfusion hrun
      · have hsame : (s.put i { s.threads i with state := .running }).live = s.live :=
          live_put_same hfree.symm
        change s.activeThreadCount.toNat = (s.put i _).live.card
        rw [hsame]
        exact h.counted

theorem Inv.next (h : Inv s) {op : Op} (ho : Orderly s op) : Inv (next s op) := by
  cases op with
  | create pid entry stack prio => exact h.create pid entry stack prio
  | terminate tid => exact h.terminate ho
  | freeze tid => exact h.freeze tid
  | yield => exact h.yield ho

/-! ## Honest results -/

theorem Inv.honest_terminate (h : Inv s) (tid : UInt32) :
    Honest s (.terminate tid) ↔ Orderly s (.terminate tid) := by
  constructor
  · intro hh i hid hterm
    have hused : (s.threads i).state ≠ .unused := by
      rw [hterm]
      exact ThreadState.noConfusion
    have htrue : (schedTerminateThread s tid).1 = true := by
      have hne : tid ≠ 0 := by
        rw [← hid, h.ids i hused]
        exact slotId_ne_zero
      unfold schedTerminateThread
      rw [if_neg hne]
      split
      next hnone => simpa [hid, hterm] using firstSlot_none hnone i
      · rfl
    obtain ⟨j, hj, hjid⟩ := hh htrue
    rw [mem_live] at hj
    have hjused : (s.threads j).state ≠ .unused := by
      intro hu
      rw [hu] at hj
      exact Bool.noConfusion hj
    obtain rfl := h.eq_of_id hused hjused (hid.trans hjid.symm)
    rw [hterm] at hj
    exact Bool.noConfusion hj
  · intro ho htrue
    unfold schedTerminateThread at htrue
    split at htrue
    · exact Bool.noConfusion htrue
    · split at htrue
      · exact Bool.noConfusion htrue
      next i hi => exact ⟨i, ho.live hi, (terminate_slot hi).1⟩

theorem Inv.honest_yield (h : Inv s) : Honest s .yield := by
  intro hres i
  by_contra hrun
  rw [Bool.not_eq_false] at hrun
  unfold schedYield at hres
  rw [if_neg (h.count_ne_zero hrun)] at hres
  split at hres
  next hnone => exact Bool.eq_false_iff.1 (yield_none hnone i) hrun
  next o hturn =>
    obtain ⟨-, ho, -⟩ := yield_turn hturn
    have hused : (s.threads (s.turn o)).state ≠ .unused := by
      intro hu
      rw [hu] at ho
      exact Bool.noConfusion ho
    replace hres : (s.threads (s.turn o)).threadId.toInt32 = -1 := hres
    rw [h.ids _ hused] at hres
    exact slotId_ne_neg_one hres

theorem Inv.orderly_of_yield_sound (h : Inv s) (hs : Sound (schedYield s).2) :
    Orderly s .yield := by
  intro i j hi hj
  have hirun : (s.threads i).state.isRunnable = true := by rw [hi]; rfl
  have hjrun : (s.threads j).state.isRunnable = true := by rw [hj]; rfl
  unfold schedYield at hs
  rw [if_neg (h.count_ne_zero hirun)] at hs
  split at hs
  next hnone => exact Bool.eq_false_iff.1 (yield_none hnone i) hirun
  next o hturn =>
    obtain ⟨-, -, hfirst⟩ := yield_turn hturn
    have hself := hs.running (s.turn o) (congrArg Tcb.state put_threads_self)
    by_cases hio : i = s.turn o
    · -- the running thread has the last turn, so the ready one is found before
      have hlast := turn_eq_current (yield_turn hturn).1 (h.running i hi) hio.symm
      obtain ⟨o', ho', hj'⟩ := turn_surj s j
      have hne : o' ≠ o := by
        rintro rfl
        rw [← hj', ← hio, hi] at hj
        exact ThreadState.noConfusion hj
      have hearly : o' < o := by
        simp only [maxThreads] at ho'
        omega
      have hskip := hfirst o' hearly
      rw [hj', hjrun] at hskip
      exact Bool.noConfusion hskip
    · have hother := hs.running i ((congrArg Tcb.state (put_threads.trans (if_neg hio))).trans hi)
      exact hio (Fin.ext (hother.symm.trans hself))

/-- What the scheduler promises of a call: an honest result and the invariant after it. -/
def Keeps (s : Scheduler) (op : Op) : Prop := Honest s op ∧ Sound (next s op)

theorem Inv.keeps_iff (h : Inv s) (op : Op) : Keeps s op ↔ Orderly s op := by
  constructor
  · intro hk
    cases op with
    | create pid entry stack prio => trivial
    | terminate tid => exact (h.honest_terminate tid).1 hk.1
    | freeze tid => trivial
    | yield => exact h.orderly_of_yield_sound hk.2
  · intro ho
    refine ⟨?_, (h.next ho).toSound⟩
    cases op with
    | create pid entry stack prio => trivial
    | terminate tid => exact (h.honest_terminate tid).2 ho
    | freeze tid => trivial
    | yield => exact h.honest_yield

/-- In every run after `sched_init` the scheduler keeps its promises exactly when the calls are
orderly. -/
theorem sound_iff_orderly (s : Scheduler) (ops : List Op) :
    Sound (schedInit s) ∧ Along next Keeps (schedInit s) ops ↔
      Along next Orderly (schedInit s) ops := by
  have halong : Along next Keeps (schedInit s) ops ↔ Along next Orderly (schedInit s) ops :=
    along_iff (fun _ op h => h.keeps_iff op) (fun _ _ h ho => h.next ho) (schedInit_inv s) ops
  rw [halong]
  exact and_iff_right (schedInit_inv s).toSound

def zeroed : Scheduler where
  threads _ := ⟨0, 0, 0, .unused, 0, 0, 0, 0⟩
  currentThreadIdx := 0
  activeThreadCount := 0

def terminatedTwice : List Op :=
  [.create 7 0 0 0, .create 7 0 0 0, .terminate 1, .terminate 1]

def yieldedTwice : List Op := [.create 7 0 0 0, .create 7 0 0 0, .yield, .yield]

/-- A second terminate succeeds, and a yield then refuses the thread that is ready; two yields
leave both threads running. -/
theorem counter_drifts :
    ¬ Along next Keeps (schedInit zeroed) terminatedTwice ∧
      (schedTerminateThread ((terminatedTwice.take 3).foldl next (schedInit zeroed)) 1).1 = true ∧
      (schedYield (terminatedTwice.foldl next (schedInit zeroed))).1 = -1 ∧
      ((terminatedTwice.foldl next (schedInit zeroed)).threads 1).state = .ready ∧
      ¬ Along next Keeps (schedInit zeroed) yieldedTwice ∧
      ((yieldedTwice.foldl next (schedInit zeroed)).threads 0).state = .running ∧
      ((yieldedTwice.foldl next (schedInit zeroed)).threads 1).state = .running := by
  refine ⟨?_, by decide, by decide, by decide, ?_, by decide,
    by decide⟩
  · intro h
    have hcount := h.2.2.2.1.2.counted
    exact absurd hcount (by decide)
  · intro h
    have hrun := h.2.2.2.1.2.running 1 (by decide)
    exact absurd hrun (by decide)

/-! ## Fairness -/

/-- The turns of the loop of `sched_yield` in front of a slot. -/
def Scheduler.ahead (s : Scheduler) (i : Fin maxThreads) : Nat :=
  (i.val + 127 - s.currentThreadIdx.toNat % 64) % 64

/-- A thread that can run, while the counter is not at zero. -/
def Waiting (i : Fin maxThreads) (s : Scheduler) : Prop :=
  (s.threads i).state.isRunnable = true ∧ s.activeThreadCount ≠ 0

/-- A yield gives the thread its turn. -/
def Picks (i : Fin maxThreads) (s : Scheduler) : Prop :=
  (schedYield s).1 = (s.threads i).threadId.toInt32 ∧
    (schedYield s).2.currentThreadIdx.toNat = i.val

def Op.isYield : Op → Bool
  | .yield => true
  | _ => false

theorem turn_ahead (s : Scheduler) (i : Fin maxThreads) : s.turn (s.ahead i) = i := by
  have hi : i.val < 64 := i.isLt
  apply Fin.ext
  simp only [Scheduler.turn, Scheduler.ahead, maxThreads]
  omega

theorem next_current {op : Op} (hop : op.isYield = false) :
    (next s op).currentThreadIdx = s.currentThreadIdx := by
  cases op with
  | create pid entry stack prio =>
    simp only [next, schedCreateThread]
    split <;> rfl
  | terminate tid =>
    simp only [next, schedTerminateThread]
    by_cases htid : tid = 0
    · rw [if_pos htid]
    · rw [if_neg htid]
      split <;> rfl
  | freeze tid =>
    simp only [next, schedFreezeThread]
    split_ifs
    · rfl
    · split <;> rfl
  | yield => cases hop

theorem Waiting.picks_or_nearer (h : Waiting i s) :
    Picks i s ∨ (schedYield s).2.ahead i < s.ahead i := by
  unfold Picks schedYield
  rw [if_neg h.2]
  split
  next hnone =>
    have hoff := yield_none hnone i
    rw [h.1] at hoff
    cases hoff
  next o ho =>
    obtain ⟨hlt, -, hfirst⟩ := yield_turn ho
    have hle : o ≤ s.ahead i := by
      by_contra hgt
      have hskip := hfirst _ (Nat.lt_of_not_le hgt)
      rw [turn_ahead, h.1] at hskip
      cases hskip
    have hcur : (UInt32.ofNat (s.turn o).val).toNat = (s.turn o).val := by
      rw [UInt32.toNat_ofNat']
      exact Nat.mod_eq_of_lt (Nat.lt_trans (s.turn o).isLt (by decide))
    rcases Nat.eq_or_lt_of_le hle with rfl | hnear
    · rw [turn_ahead] at hcur ⊢
      exact .inl ⟨rfl, hcur⟩
    · refine .inr ?_
      have hi : i.val < 64 := i.isLt
      show (i.val + 127 - (UInt32.ofNat (s.turn o).val).toNat % 64) % 64 < s.ahead i
      rw [hcur]
      simp only [Scheduler.ahead, Scheduler.turn, maxThreads] at hnear hlt ⊢
      omega

/-- A thread that waits gets its turn within `maxThreads` yields. -/
theorem yield_fair {ops : List Op} (hwait : Along next (fun s _ => Waiting i s) s ops)
    (hturns : maxThreads ≤ ops.countP Op.isYield) :
    ∃ pre, pre ++ [.yield] <+: ops ∧ Picks i (pre.foldl next s) := by
  have hroom : s.ahead i < ops.countP Op.isYield :=
    Nat.lt_of_lt_of_le (Nat.mod_lt _ (by decide)) hturns
  clear hturns
  induction ops generalizing s with
  | nil => cases hroom
  | cons op ops ih =>
    rw [List.countP_cons] at hroom
    have hlater (h : (next s op).ahead i < ops.countP Op.isYield) :
        ∃ pre, pre ++ [.yield] <+: op :: ops ∧ Picks i (pre.foldl next s) := by
      obtain ⟨pre, hpre, hpick⟩ := ih hwait.2 h
      exact ⟨op :: pre, List.cons_prefix_cons.mpr ⟨rfl, hpre⟩, hpick⟩
    cases hop : op.isYield with
    | false =>
      rw [hop, if_neg Bool.false_ne_true] at hroom
      refine hlater ?_
      rwa [Scheduler.ahead, next_current hop]
    | true =>
      rw [hop, if_pos rfl] at hroom
      obtain rfl : op = .yield := by cases op <;> first | rfl | cases hop
      rcases hwait.1.picks_or_nearer with hpick | hnear
      · exact ⟨[], ⟨ops, rfl⟩, hpick⟩
      · exact hlater (Nat.lt_of_lt_of_le hnear (Nat.le_of_lt_succ hroom))

theorem Waiting.yield (h : Waiting i s) : Waiting i (schedYield s).2 := by
  unfold schedYield
  rw [if_neg h.2]
  split
  · exact h
  · refine ⟨?_, h.2⟩
    dsimp only
    rw [put_threads]
    split
    · rfl
    · exact h.1

theorem Waiting.yields (h : Waiting i s) (n : Nat) :
    Along next (fun s _ => Waiting i s) s (List.replicate n .yield) := by
  induction n generalizing s with
  | zero => trivial
  | succ n ih => exact ⟨h, ih h.yield⟩

/-- Two threads, of which the second waits for its turn. -/
def twoThreads : Scheduler := [.create 1 0 0 0, .create 1 0 0 0].foldl next
  (schedInit ⟨fun _ => ⟨0, 0, 0, .unused, 0, 0, 0, 0⟩, 0, 0⟩)

theorem yield_fair_second :
    ∃ pre, pre ++ [.yield] <+: List.replicate 64 .yield ∧ Picks 1 (pre.foldl next twoThreads) :=
  yield_fair (Waiting.yields ⟨by decide +kernel, by decide +kernel⟩ 64) (by decide)

end Sched
