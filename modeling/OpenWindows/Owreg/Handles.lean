import OpenWindows.Owreg.Store

/-!
# Handles and the keys they were opened for

The calls of a run have a history: the value last written to each live key, the key that
each handle was opened for, and whether that key was deleted since.  The store agrees with
the history as long as no call goes through the handle of a deleted key.
-/

namespace Owreg

open StepSystem

/-! ## Calls -/

/-- A call; a handle is a variable of the caller. -/
inductive Op
  | openKey (v : Nat) (key : Option Text) (flags : UInt32)
  | close (v : Nat)
  | read (v : Nat) (out : Option Nat)
  | write (v : Nat) (value : Option Text)
  | delete (key : Option Text)

/-- What a call returns. -/
inductive Reply
  | opened (valid : Bool)
  | closed (done : Bool)
  | read (code : Int) (copied : Option Text)
  | wrote (code : Int)
  | deleted (done : Bool)
deriving DecidableEq

/-- What the calls so far say: the last value written to each live key since it was created,
the key that each handle was opened for, and the handles whose key was deleted since. -/
structure History where
  value : Text → Option Text
  openedFor : Nat → Option Text
  stale : Nat → Bool

/-- The store, the handle variables of the caller and the history. -/
structure Sys where
  store : Store
  handles : Nat → Handle
  history : History

def History.after (h : History) : Op → Reply → History
  | .openKey v (some key) _, .opened true =>
    { value := if h.value key = none then Function.update h.value key (some .empty) else h.value
      openedFor := Function.update h.openedFor v (some key)
      stale := Function.update h.stale v false }
  | .openKey v _ _, _ => { h with openedFor := Function.update h.openedFor v none }
  | .close v, .closed true => { h with openedFor := Function.update h.openedFor v none }
  | .write v (some value), .wrote 0 =>
    match h.openedFor v with
    | some key => { h with value := Function.update h.value key (some value) }
    | none => h
  | .delete (some key), .deleted true =>
    { h with
      value := Function.update h.value key none
      stale := fun v => h.stale v || h.openedFor v == some key }
  | _, _ => h

/-- A call on the store and the handles. -/
def perform (store : Store) (handles : Nat → Handle) : Op → Reply × Store × (Nat → Handle)
  | .openKey v key flags =>
    let (handle, store') := owregOpen store key flags
    (.opened handle.valid, store', Function.update handles v handle)
  | .close v =>
    let (done, handle) := owregClose (handles v)
    (.closed done, store, Function.update handles v handle)
  | .read v out =>
    let (code, copied) := owregRead store (handles v) out
    (.read code copied, store, handles)
  | .write v value =>
    let (code, store') := owregWrite store (handles v) value
    (.wrote code, store', handles)
  | .delete key =>
    let (done, store') := owregDelete store key
    (.deleted done, store', handles)

/-- What a call returns in a state. -/
def reply (s : Sys) (op : Op) : Reply := (perform s.store s.handles op).1

/-- The state after a call. -/
def next (s : Sys) (op : Op) : Sys :=
  let (r, store, handles) := perform s.store s.handles op
  ⟨store, handles, s.history.after op r⟩

/-! ## What a run promises -/

def Holds (store : Store) (key value : Text) : Prop :=
  ∃ i, Live store i ∧ (store.entries i).key = key ∧ (store.entries i).value = value

/-- The store holds each live key once, with its last value. -/
structure Sound (s : Sys) : Prop where
  distinct : ∀ i j, Live s.store i → Live s.store j →
    (s.store.entries i).key = (s.store.entries j).key → i = j
  count : s.store.count.toNat =
    ((List.range s.store.capacity.toNat).filter fun i => (s.store.entries i).inUse).length
  value : ∀ key value, Holds s.store key value ↔ s.history.value key = some value

/-- A read or a write that succeeds acts on the key that its handle was opened for, which was
not deleted since, and on no other. -/
def ActsOnKey (s : Sys) (op : Op) : Prop :=
  match op, reply s op with
  | .read v _, .read code copied => 0 ≤ code →
      ∃ key value, s.history.openedFor v = some key ∧ s.history.stale v = false ∧
        s.history.value key = some value ∧ copied = some value ∧ code = value.bytes.length
  | .write v (some value), .wrote 0 =>
    ∃ key, s.history.openedFor v = some key ∧ s.history.stale v = false ∧
      ∀ k w, Holds (next s op).store k w ↔ if k = key then w = value else Holds s.store k w
  | _, _ => True

/-- A read or a write that its other arguments let through does not go through the handle of a
deleted key. -/
def NotStale (s : Sys) : Op → Prop
  | .read v (some outCap) =>
    s.history.openedFor v ≠ none → s.history.stale v = true →
      outCap ≤ (s.store.entries (s.handles v).index.toNat).value.bytes.length
  | .write v (some value) =>
    s.history.openedFor v ≠ none → s.history.stale v = true →
      (s.handles v).writable = false ∨ value.bytes.length ≥ valueMax
  | _ => True

/-! ## Changing one entry -/

def Store.set (store : Store) (i : Nat) (e : Entry) (count : UInt32) : Store :=
  { store with entries := Function.update store.entries i e, count := count }

def Entry.setValue (e : Entry) (value : Text) : Entry := { e with value := value }

@[simp] theorem Entry.setValue_inUse (e : Entry) (value : Text) : (e.setValue value).inUse = e.inUse := rfl

@[simp] theorem Entry.setValue_key (e : Entry) (value : Text) : (e.setValue value).key = e.key := rfl

@[simp] theorem Entry.setValue_value (e : Entry) (value : Text) : (e.setValue value).value = value := rfl

/-- How many slots are in use. -/
def liveCount (entries : Nat → Entry) (n : Nat) : Nat :=
  ((List.range n).filter fun i => (entries i).inUse).length

theorem liveCount_le (entries : Nat → Entry) (n : Nat) : liveCount entries n ≤ n := by
  have := List.length_filter_le (fun i => (entries i).inUse) (List.range n)
  rwa [List.length_range] at this

theorem liveCount_succ (entries : Nat → Entry) (n : Nat) :
    liveCount entries (n + 1) = liveCount entries n + if (entries n).inUse then 1 else 0 := by
  rw [liveCount, List.range_succ, List.filter_append, List.length_append, liveCount]
  cases h : (entries n).inUse <;> simp [h]

theorem liveCount_update_of_le (entries : Nat → Entry) {n i : Nat} (h : n ≤ i) (e : Entry) :
    liveCount (Function.update entries i e) n = liveCount entries n := by
  induction n with
  | zero => rfl
  | succ n ih =>
    rw [liveCount_succ, liveCount_succ, ih (by omega), Function.update_of_ne (by omega)]

theorem liveCount_update (entries : Nat → Entry) {n i : Nat} (h : i < n) (e : Entry) :
    liveCount (Function.update entries i e) n + (if (entries i).inUse then 1 else 0) =
      liveCount entries n + if e.inUse then 1 else 0 := by
  induction n with
  | zero => omega
  | succ n ih =>
    rw [liveCount_succ, liveCount_succ]
    rcases Nat.lt_or_eq_of_le (Nat.le_of_lt_succ h) with hi | rfl
    · have := ih hi
      rw [Function.update_of_ne (by omega : n ≠ i)]
      omega
    · rw [liveCount_update_of_le entries (Nat.le_refl i), Function.update_self]
      omega

variable {store : Store} {i : Nat} {e : Entry} {count : UInt32}

theorem live_set (hi : i < store.capacity.toNat) (j : Nat) :
    Live (store.set i e count) j ↔ if j = i then e.inUse = true else Live store j := by
  by_cases h : j = i
  · subst h
    simp [Live, Store.set, hi]
  · simp [Live, Store.set, h]

theorem holds_set (hi : i < store.capacity.toNat) (key value : Text) :
    Holds (store.set i e count) key value ↔
      (e.inUse = true ∧ e.key = key ∧ e.value = value) ∨
        ∃ j, j ≠ i ∧ Live store j ∧ (store.entries j).key = key ∧
          (store.entries j).value = value := by
  constructor
  · rintro ⟨j, hj, hk, hv⟩
    rw [live_set hi] at hj
    by_cases h : j = i
    · subst h
      simp only [Store.set, Function.update_self] at hk hv
      exact .inl ⟨by simpa using hj, hk, hv⟩
    · simp only [Store.set, Function.update_of_ne h] at hk hv
      exact .inr ⟨j, h, by simpa [h] using hj, hk, hv⟩
  · rintro (⟨hu, hk, hv⟩ | ⟨j, h, hj, hk, hv⟩)
    · exact ⟨i, (live_set hi i).2 (by simpa using hu), by simpa [Store.set] using hk,
        by simpa [Store.set] using hv⟩
    · exact ⟨j, (live_set hi j).2 (by simpa [h] using hj), by simpa [Store.set, h] using hk,
        by simpa [Store.set, h] using hv⟩

/-! ## The invariant -/

/-- Between calls the store agrees with the history, and a handle whose key was not deleted
since it was opened still names the entry of that key. -/
structure Inv (s : Sys) : Prop extends Sound s where
  reach : InReach s.store
  closed : ∀ v, s.history.openedFor v = none → (s.handles v).valid = false
  entry : ∀ v, s.history.openedFor v ≠ none →
    handleEntry s.store (s.handles v) = some (s.handles v).index.toNat
  fresh : ∀ v key, s.history.openedFor v = some key → s.history.stale v = false →
    Live s.store (s.handles v).index.toNat ∧
      (s.store.entries (s.handles v).index.toNat).key = key

/-- Before the first call: a cleared store, no handle open. -/
def started (entries : Nat → Entry) (capacity : UInt32) : Sys where
  store := storeInit entries capacity
  handles := fun _ => badHandle
  history := ⟨fun _ => none, fun _ => none, fun _ => false⟩

theorem not_live_init (entries : Nat → Entry) (capacity : UInt32) (i : Nat) :
    ¬ Live (storeInit entries capacity) i := by
  rintro ⟨hi, hu⟩
  simp only [storeInit] at hi hu
  rw [if_pos hi] at hu
  cases hu

theorem started_inv (entries : Nat → Entry) (capacity : UInt32) : Inv (started entries capacity) where
  distinct i j hi := absurd hi (not_live_init entries capacity i)
  count := by
    have hnone : (List.range capacity.toNat).filter (fun i =>
        ((storeInit entries capacity).entries i).inUse) = [] := by
      rw [List.filter_eq_nil_iff]
      intro i hi hu
      exact not_live_init entries capacity i ⟨List.mem_range.1 hi, hu⟩
    simp only [started]
    rw [show (storeInit entries capacity).capacity = capacity by rfl, hnone]
    rfl
  value key value := by
    constructor
    · rintro ⟨i, hi, -⟩
      exact absurd hi (not_live_init entries capacity i)
    · simp [started]
  reach i hi := absurd hi (not_live_init entries capacity i)
  closed _ _ := rfl
  entry v hv := absurd rfl hv
  fresh v key hv := by cases hv

section

variable {s : Sys}

theorem Inv.count_eq (h : Inv s) : s.store.count.toNat = liveCount s.store.entries s.store.capacity.toNat :=
  h.count

variable {key : Text}

theorem Inv.holds_write (h : Inv s) (hi : Live s.store i)
    (hk : (s.store.entries i).key = key) (value k w : Text) :
    Holds (s.store.set i ((s.store.entries i).setValue value) s.store.count) k w ↔
      if k = key then w = value else Holds s.store k w := by
  rw [holds_set hi.1]
  split
  next hkk =>
    constructor
    · rintro (⟨-, -, hv⟩ | ⟨j, hj, hlive, hjk, -⟩)
      · exact hv.symm
      · exact absurd (h.distinct j i hlive hi (hjk.trans (hkk.trans hk.symm))) hj
    · intro hw
      exact .inl ⟨hi.2, hk.trans hkk.symm, hw.symm⟩
  next hkk =>
    constructor
    · rintro (⟨-, hk', -⟩ | ⟨j, -, hlive, hjk, hv⟩)
      · exact absurd (hk'.symm.trans hk) hkk
      · exact ⟨j, hlive, hjk, hv⟩
    · rintro ⟨j, hlive, hjk, hv⟩
      refine .inr ⟨j, ?_, hlive, hjk, hv⟩
      rintro rfl
      exact hkk (hjk.symm.trans hk)

/-! ## One call -/

theorem Inv.write_fresh (h : Inv s) {v : Nat} (hv : s.history.openedFor v = some key)
    (hs : s.history.stale v = false) (value : Text) :
    Inv
      { store := s.store.set (s.handles v).index.toNat
          ((s.store.entries (s.handles v).index.toNat).setValue value) s.store.count
        handles := s.handles
        history := { s.history with value := Function.update s.history.value key (some value) } } := by
  obtain ⟨hlive, hkey⟩ := h.fresh v key hv hs
  generalize (s.handles v).index.toNat = i at hlive hkey
  have hkeys : ∀ j, ((s.store.set i ((s.store.entries i).setValue value) s.store.count).entries j).key =
      (s.store.entries j).key := by
    intro j
    by_cases hj : j = i
    · subst hj
      simp [Store.set]
    · simp [Store.set, hj]
  have hlives : ∀ j, Live (s.store.set i ((s.store.entries i).setValue value) s.store.count) j ↔
      Live s.store j := by
    intro j
    rw [live_set hlive.1]
    split
    next hj => simp [hj, hlive, hlive.2]
    · exact Iff.rfl
  refine ⟨⟨?_, ?_, ?_⟩, ?_, h.closed, h.entry, ?_⟩
  · intro j k hj hk hjk
    simp only at hj hk hjk
    rw [hlives] at hj hk
    rw [hkeys, hkeys] at hjk
    exact h.distinct j k hj hk hjk
  · have hcount := liveCount_update s.store.entries hlive.1 ((s.store.entries i).setValue value)
    have := h.count_eq
    change s.store.count.toNat = liveCount _ s.store.capacity.toNat
    rw [Entry.setValue_inUse, if_pos hlive.2] at hcount
    simp only [Store.set]
    omega
  · intro k w
    rw [h.holds_write hlive hkey]
    split
    next hk => simp [hk, eq_comm]
    next hk => simpa [hk] using h.value k w
  · intro j hj
    exact h.reach j ((hlives j).1 hj)
  · intro u k hu hus
    simp only
    rw [hlives, hkeys]
    exact h.fresh u k hu hus

theorem Inv.setHandle (h : Inv s) (v : Nat) (handle : Handle) (opened : Option Text) (stale : Bool)
    (hclosed : opened = none → handle.valid = false)
    (hentry : opened ≠ none → handleEntry s.store handle = some handle.index.toNat)
    (hfresh : ∀ key, opened = some key → stale = false →
      Live s.store handle.index.toNat ∧ (s.store.entries handle.index.toNat).key = key) :
    Inv
      { store := s.store
        handles := Function.update s.handles v handle
        history :=
          { value := s.history.value
            openedFor := Function.update s.history.openedFor v opened
            stale := Function.update s.history.stale v stale } } := by
  refine ⟨⟨h.distinct, h.count, h.value⟩, h.reach, ?_, ?_, ?_⟩
  · intro u hu
    by_cases huv : u = v
    · subst huv
      simp only [Function.update_self] at hu ⊢
      exact hclosed hu
    · simp only [Function.update_of_ne huv] at hu ⊢
      exact h.closed u hu
  · intro u hu
    by_cases huv : u = v
    · subst huv
      simp only [Function.update_self] at hu ⊢
      exact hentry hu
    · simp only [Function.update_of_ne huv] at hu ⊢
      exact h.entry u hu
  · intro u key hu hs
    by_cases huv : u = v
    · subst huv
      simp only [Function.update_self] at hu hs ⊢
      exact hfresh key hu hs
    · simp only [Function.update_of_ne huv] at hu hs ⊢
      exact h.fresh u key hu hs

theorem Inv.create (h : Inv s) (hi : i < s.store.capacity.toNat) (hreach : i < 0x80000000)
    (hfree : (s.store.entries i).inUse = false)
    (hnew : ∀ j, Live s.store j → (s.store.entries j).key ≠ key) :
    Inv
      { store := s.store.set i ⟨true, key, .empty⟩ (s.store.count + 1)
        handles := s.handles
        history := { s.history with value := Function.update s.history.value key (some .empty) } } := by
  have hne : ∀ j, Live s.store j → j ≠ i := by
    rintro j hj rfl
    rw [hj.2] at hfree
    cases hfree
  have hlives : ∀ j, Live (s.store.set i ⟨true, key, .empty⟩ (s.store.count + 1)) j ↔
      j = i ∨ Live s.store j := by
    intro j
    rw [live_set hi]
    by_cases hj : j = i <;> simp [hj]
  have hkeys : ∀ j, Live s.store j →
      ((s.store.set i ⟨true, key, .empty⟩ (s.store.count + 1)).entries j).key =
        (s.store.entries j).key := by
    intro j hj
    simp [Store.set, hne j hj]
  have hself : ((s.store.set i ⟨true, key, .empty⟩ (s.store.count + 1)).entries i).key = key := by
    simp [Store.set]
  refine ⟨⟨?_, ?_, ?_⟩, ?_, h.closed, h.entry, ?_⟩
  · intro j k hj hk hjk
    simp only at hj hk hjk
    rw [hlives] at hj hk
    rcases hj with rfl | hj
    · rcases hk with rfl | hk
      · rfl
      · rw [hself, hkeys k hk] at hjk
        exact absurd hjk.symm (hnew k hk)
    · rcases hk with rfl | hk
      · rw [hself, hkeys j hj] at hjk
        exact absurd hjk (hnew j hj)
      · rw [hkeys j hj, hkeys k hk] at hjk
        exact h.distinct j k hj hk hjk
  · have hcount := liveCount_update s.store.entries hi ⟨true, key, .empty⟩
    have hle := liveCount_le (Function.update s.store.entries i ⟨true, key, .empty⟩)
      s.store.capacity.toNat
    have hcap := s.store.capacity.toNat_lt
    have := h.count_eq
    change (s.store.count + 1).toNat = liveCount _ s.store.capacity.toNat
    simp only [hfree, Bool.false_eq_true, if_false, if_true, Nat.add_zero] at hcount
    simp only [Store.set]
    rw [UInt32.toNat_add, Nat.mod_eq_of_lt]
    · rw [hcount, this]
      rfl
    · simp only [UInt32.toNat_one]
      omega
  · intro k w
    rw [holds_set hi]
    by_cases hk : k = key
    · subst hk
      simp only [Function.update_self, Option.some.injEq, true_and]
      constructor
      · rintro (hw | ⟨j, -, hj, hjk, -⟩)
        · exact hw
        · exact absurd hjk (hnew j hj)
      · exact .inl
    · simp only [Function.update_of_ne hk, ← h.value k w]
      constructor
      · rintro (⟨-, hk', -⟩ | ⟨j, -, hj, hjk, hv⟩)
        · exact absurd hk'.symm hk
        · exact ⟨j, hj, hjk, hv⟩
      · rintro ⟨j, hj, hjk, hv⟩
        exact .inr ⟨j, hne j hj, hj, hjk, hv⟩
  · intro j hj
    rcases (hlives j).1 hj with rfl | hj
    · exact hreach
    · exact h.reach j hj
  · intro u k hu hus
    obtain ⟨hlive, hkey⟩ := h.fresh u k hu hus
    exact ⟨(hlives _).2 (.inr hlive), (hkeys _ hlive).trans hkey⟩

theorem Inv.delete (h : Inv s) (hlive : Live s.store i) (hkey : (s.store.entries i).key = key) : Inv
      { store := s.store.set i ⟨false, .empty, .empty⟩
          (if s.store.count > 0 then s.store.count - 1 else s.store.count)
        handles := s.handles
        history :=
          { s.history with
            value := Function.update s.history.value key none
            stale := fun v => s.history.stale v || s.history.openedFor v == some key } } := by
  have hlives : ∀ j c, Live (s.store.set i ⟨false, .empty, .empty⟩ c) j ↔ j ≠ i ∧ Live s.store j := by
    intro j c
    rw [live_set hlive.1]
    by_cases hj : j = i <;> simp [hj]
  have hkeys : ∀ j c, j ≠ i → ((s.store.set i ⟨false, .empty, .empty⟩ c).entries j).key =
      (s.store.entries j).key := by
    intro j c hj
    simp [Store.set, hj]
  refine ⟨⟨?_, ?_, ?_⟩, ?_, h.closed, h.entry, ?_⟩
  · intro j k hj hk hjk
    simp only at hj hk hjk
    rw [hlives] at hj hk
    rw [hkeys j _ hj.1, hkeys k _ hk.1] at hjk
    exact h.distinct j k hj.2 hk.2 hjk
  · have hcount := liveCount_update s.store.entries hlive.1 ⟨false, .empty, .empty⟩
    have hlt := s.store.count.toNat_lt
    have heq := h.count_eq
    simp only [hlive.2, Bool.false_eq_true, if_false, if_true, Nat.add_zero] at hcount
    have hpos : s.store.count > 0 := by
      rw [gt_iff_lt, UInt32.lt_iff_toNat_lt, UInt32.toNat_zero]
      omega
    have hone : (1 : UInt32) ≤ s.store.count := by
      rw [UInt32.le_iff_toNat_le, UInt32.toNat_one]
      omega
    change (if s.store.count > 0 then s.store.count - 1 else s.store.count).toNat =
      liveCount _ s.store.capacity.toNat
    rw [if_pos hpos, UInt32.toNat_sub_of_le _ _ hone, UInt32.toNat_one]
    simp only [Store.set]
    omega
  · intro k w
    rw [holds_set hlive.1]
    by_cases hk : k = key
    · subst hk
      simp only [Bool.false_eq_true, false_and, false_or, Function.update_self, reduceCtorEq, iff_false]
      rintro ⟨j, hj, hjl, hjk, -⟩
      exact hj (h.distinct j i hjl hlive (hjk.trans hkey.symm))
    · simp only [Function.update_of_ne hk, ← h.value k w, Bool.false_eq_true, false_and, false_or]
      constructor
      · rintro ⟨j, -, hj, hjk, hv⟩
        exact ⟨j, hj, hjk, hv⟩
      · rintro ⟨j, hj, hjk, hv⟩
        refine ⟨j, ?_, hj, hjk, hv⟩
        rintro rfl
        exact hk (hjk.symm.trans hkey)
  · intro j hj
    exact h.reach j ((hlives j _).1 hj).2
  · intro u k hu hus
    simp only [Bool.or_eq_false_iff, beq_eq_false_iff_ne, ne_eq] at hu hus
    obtain ⟨hl, hk⟩ := h.fresh u k hu hus.1
    have hne : (s.handles u).index.toNat ≠ i := by
      intro hi
      rw [hi] at hk
      exact hus.2 (by rw [hu, ← hk, hkey])
    exact ⟨(hlives _ _).2 ⟨hne, hl⟩, (hkeys _ _ hne).trans hk⟩

/-! ### Opening and closing -/

theorem ofNat_toNat_of_lt (h : i < 0x80000000) : (UInt32.ofNat ((i : Int).toNat)).toNat = i := by
  rw [Int.toNat_natCast, UInt32.toNat_ofNat', Nat.mod_eq_of_lt (by omega)]

theorem handleEntry_open (hi : i < store.capacity.toNat) (hr : i < 0x80000000) (w : Bool) :
    handleEntry store ⟨true, UInt32.ofNat ((i : Int).toNat), w, true⟩ =
      some (UInt32.ofNat ((i : Int).toNat)).toNat := by
  have hlt : ¬ UInt32.ofNat ((i : Int).toNat) ≥ store.capacity := by
    rw [ge_iff_le, UInt32.le_iff_toNat_le, ofNat_toNat_of_lt hr]
    omega
  rw [handleEntry, if_neg (by simp), if_neg hlt]

theorem Inv.close (h : Inv s) (v : Nat) : Inv (next s (.close v)) := by
  simp only [next, perform, owregClose]
  cases hvalid : (s.handles v).valid with
  | false =>
    have hsame : Function.update s.handles v (s.handles v) = s.handles := Function.update_eq_self v s.handles
    simpa [History.after, hsame] using h
  | true =>
    have hset := h.setHandle v badHandle none (s.history.stale v)
      (fun _ => rfl) (fun hne => absurd rfl hne) (by simp)
    rw [Function.update_eq_self v s.history.stale] at hset
    simpa [History.after] using hset

theorem Inv.refuse (h : Inv s) (v : Nat) :
    Inv { s with
      handles := Function.update s.handles v badHandle
      history := { s.history with openedFor := Function.update s.history.openedFor v none } } := by
  have hset := h.setHandle v badHandle none (s.history.stale v)
    (fun _ => rfl) (fun hne => absurd rfl hne) (by simp)
  rwa [Function.update_eq_self v s.history.stale] at hset

theorem Inv.openKey (h : Inv s) (v : Nat) (key : Option Text) (flags : UInt32) :
    Inv (next s (.openKey v key flags)) := by
  cases key with
  | none => exact h.refuse v
  | some key =>
    simp only [next, perform, owregOpen]
    cases hvalid : keyValid key with
    | false => exact h.refuse v
    | true =>
      simp only [Bool.not_true, Bool.false_eq_true, if_false]
      rcases findIndex_cases h.reach key with ⟨i, hfind, hr, hlive, hkey⟩ | ⟨hfind, hnone⟩
      · have hnn : ¬ findIndex s.store key < 0 := by omega
        have hval : s.history.value key ≠ none := by
          rw [(h.value key _).1 ⟨i, hlive, hkey, rfl⟩]
          exact Option.some_ne_none _
        rw [if_neg hnn, hfind]
        have hset := h.setHandle v
          ⟨true, UInt32.ofNat ((i : Int).toNat), flags &&& openWrite != 0, true⟩
          (some key) false (by simp)
          (fun _ => handleEntry_open hlive.1 hr _) (by
            rintro k ⟨⟩ -
            rw [ofNat_toNat_of_lt hr]
            exact ⟨hlive, hkey⟩)
        simpa [History.after, hval] using hset
      · rw [if_pos hfind]
        split
        · exact h.refuse v
        · rcases freeIndex_cases s.store with ⟨i, hfree, hr, hi, huse⟩ | hfree
          · have hnn : ¬ freeIndex s.store < 0 := by omega
            have hval : s.history.value key = none := by
              cases hv : s.history.value key with
              | none => rfl
              | some w =>
                obtain ⟨j, hj, hjk, -⟩ := (h.value key w).2 hv
                exact absurd hjk (hnone j hj)
            rw [if_neg hnn, hfree, owStrncpy_key hvalid]
            have hnew := h.create hi hr huse hnone
            have hset := hnew.setHandle v
              ⟨true, UInt32.ofNat ((i : Int).toNat), flags &&& openWrite != 0, true⟩
              (some key) false (by simp)
              (fun _ => handleEntry_open hi hr _) (by
                rintro k ⟨⟩ -
                rw [ofNat_toNat_of_lt hr]
                exact ⟨(live_set hi i).2 (by simp), by simp [Store.set]⟩)
            simpa [History.after, hval, Store.set] using hset
          · rw [if_pos hfree]
            exact h.refuse v

/-! ### Reading, writing and deleting -/

theorem Inv.deleteKey (h : Inv s) (key : Option Text) : Inv (next s (.delete key)) := by
  cases key with
  | none => exact h
  | some key =>
    simp only [next, perform, owregDelete]
    rcases findIndex_cases h.reach key with ⟨i, hfind, hr, hlive, hkey⟩ | ⟨hfind, -⟩
    · have hnn : ¬ findIndex s.store key < 0 := by omega
      rw [if_neg hnn, hfind]
      simpa [History.after, Store.set] using h.delete hlive hkey
    · rw [if_pos hfind]
      exact h

variable {handle : Handle}

theorem handleEntry_closed (h : handle.valid = false) : handleEntry store handle = none := by
  simp [handleEntry, h]

theorem owregRead_eq (hi : handleEntry store handle = some i) (outCap : Nat) :
    owregRead store handle (some outCap) =
      if outCap ≤ (store.entries i).value.bytes.length then
        (if outCap = 0 then errParam else errTooBig, none)
      else ((store.entries i).value.bytes.length, some (store.entries i).value) := by
  simp only [owregRead, hi]
  split
  next h0 => simp [h0]
  next h0 =>
    split
    next hbig => rw [if_pos (by omega)]
    next hbig => rw [if_neg (by omega), owStrncpy_value (by omega)]

theorem owregWrite_eq (hi : handleEntry store handle = some i) (value : Text) :
    owregWrite store handle (some value) =
      if handle.writable = false ∨ value.bytes.length ≥ valueMax then
        (if handle.writable = false then errAccess else errTooBig, store)
      else (statusOk, store.set i ((store.entries i).setValue value) store.count) := by
  simp only [owregWrite, hi]
  cases hw : handle.writable with
  | false => simp
  | true =>
    simp only [Bool.not_true, Bool.false_eq_true, if_false, false_or, reduceCtorEq]
    split
    · rfl
    next hlen =>
      rw [owStrncpy_value (by simp only [valueMax] at hlen ⊢; omega)]
      rfl

theorem owregWrite_closed (store : Store) (h : handle.valid = false) (value : Option Text) :
    owregWrite store handle value = (errParam, store) := by
  simp [owregWrite, handleEntry_closed h]

theorem Inv.read (h : Inv s) (v : Nat) (out : Option Nat) : Inv (next s (.read v out)) := h

theorem after_refused (hist : History) (v : Nat) (value : Option Text) {code : Int} (h : code ≠ 0) :
    hist.after (.write v value) (.wrote code) = hist := by
  cases value with
  | none => rfl
  | some value =>
    simp only [History.after]
    split <;> simp_all

theorem Inv.write (h : Inv s) {v : Nat} {value : Option Text} (hn : NotStale s (.write v value)) :
    Inv (next s (.write v value)) := by
  cases hv : s.history.openedFor v with
  | none =>
    have hclosed := owregWrite_closed s.store (h.closed v hv) value
    simp only [next, perform, hclosed]
    rw [after_refused _ _ _ (by decide)]
    exact h
  | some key =>
    have hentry := h.entry v (by simp [hv])
    cases value with
    | none =>
      have : owregWrite s.store (s.handles v) none = (errParam, s.store) := by
        simp [owregWrite]
      simp only [next, perform, this]
      rw [after_refused _ _ _ (by decide)]
      exact h
    | some value =>
      have hwrite := owregWrite_eq hentry value
      by_cases hrefuse : (s.handles v).writable = false ∨ value.bytes.length ≥ valueMax
      · rw [if_pos hrefuse] at hwrite
        simp only [next, perform, hwrite]
        rw [after_refused _ _ _ (by split <;> decide)]
        exact h
      · rw [if_neg hrefuse] at hwrite
        have hs : s.history.stale v = false := by
          cases hs : s.history.stale v with
          | false => rfl
          | true => exact absurd (hn (by simp [hv]) hs) hrefuse
        simpa [next, perform, hwrite, History.after, statusOk, hv] using h.write_fresh hv hs value

/-- A call that meets its condition keeps the invariant. -/
theorem Inv.next (h : Inv s) {op : Op} (hn : NotStale s op) : Inv (next s op) := by
  cases op with
  | openKey v key flags => exact h.openKey v key flags
  | close v => exact h.close v
  | read v out => exact h.read v out
  | write v value => exact h.write hn
  | delete key => exact h.deleteKey key

theorem Inv.read_iff (h : Inv s) (v : Nat) (out : Option Nat) :
    ActsOnKey s (.read v out) ↔ NotStale s (.read v out) := by
  cases out with
  | none =>
    have : owregRead s.store (s.handles v) none = (errParam, none) := by simp [owregRead]
    simp [ActsOnKey, reply, perform, this, NotStale, errParam]
  | some outCap =>
    cases hv : s.history.openedFor v with
    | none =>
      have : owregRead s.store (s.handles v) (some outCap) = (errParam, none) := by
        simp [owregRead, handleEntry_closed (h.closed v hv)]
      simp [ActsOnKey, reply, perform, this, NotStale, errParam, hv]
    | some key =>
      have hread := owregRead_eq (h.entry v (by simp [hv])) outCap
      by_cases hbig : outCap ≤ (s.store.entries (s.handles v).index.toNat).value.bytes.length
      · rw [if_pos hbig] at hread
        have hneg : ¬ 0 ≤ (if outCap = 0 then errParam else errTooBig) := by split <;> decide
        simp [ActsOnKey, reply, perform, hread, NotStale, hneg, hbig]
      · rw [if_neg hbig] at hread
        simp only [ActsOnKey, reply, perform, hread, NotStale, hbig, imp_false, hv]
        constructor
        · intro hacts _ hs
          obtain ⟨_, _, -, hfresh, -⟩ := hacts (by omega)
          rw [hs] at hfresh
          cases hfresh
        · intro hs _
          have hs : s.history.stale v = false := by simpa using hs
          obtain ⟨hlive, hkey⟩ := h.fresh v key hv hs
          exact ⟨key, _, rfl, hs, (h.value key _).1 ⟨_, hlive, hkey, rfl⟩, rfl, rfl⟩

theorem Inv.write_iff (h : Inv s) (v : Nat) (value : Option Text) :
    ActsOnKey s (.write v value) ↔ NotStale s (.write v value) := by
  cases value with
  | none => exact Iff.rfl
  | some value =>
    cases hv : s.history.openedFor v with
    | none =>
      have := owregWrite_closed s.store (h.closed v hv) (some value)
      simp [ActsOnKey, reply, perform, this, NotStale, errParam, hv]
    | some key =>
      have hwrite := owregWrite_eq (h.entry v (by simp [hv])) value
      by_cases hrefuse : (s.handles v).writable = false ∨ value.bytes.length ≥ valueMax
      · rw [if_pos hrefuse] at hwrite
        have hne : (if (s.handles v).writable = false then errAccess else errTooBig) ≠ 0 := by
          split <;> decide
        simp only [ActsOnKey, reply, perform, hwrite, NotStale, hrefuse, implies_true, iff_true]
        split
        next heq => simp at heq
        next heq =>
          simp only [Reply.wrote.injEq] at heq
          exact absurd heq hne
        · trivial
      · rw [if_neg hrefuse] at hwrite
        have hnext : (Owreg.next s (.write v (some value))).store =
            s.store.set (s.handles v).index.toNat
              ((s.store.entries (s.handles v).index.toNat).setValue value) s.store.count := by
          simp only [Owreg.next, perform, hwrite]
        simp only [ActsOnKey, reply, perform, hwrite, NotStale, hrefuse, imp_false, hv, statusOk, hnext]
        constructor
        · rintro ⟨_, -, hfresh, -⟩ _ hs
          rw [hs] at hfresh
          cases hfresh
        · intro hs
          have hs : s.history.stale v = false := by simpa using hs
          obtain ⟨hlive, hkey⟩ := h.fresh v key hv hs
          exact ⟨key, rfl, hs, h.holds_write hlive hkey value⟩

theorem Inv.acts_iff (h : Inv s) (op : Op) : ActsOnKey s op ↔ NotStale s op := by
  cases op with
  | openKey v key flags | close v => exact Iff.rfl
  | read v out => exact h.read_iff v out
  | write v value => exact h.write_iff v value
  | delete key => exact Iff.rfl

end

/-! ## Runs -/

/-- In every run, each call acts on the key of its handle and leaves the store sound exactly when
no call goes through the handle of a deleted key. -/
theorem acts_iff_not_stale (entries : Nat → Entry) (capacity : UInt32) (ops : List Op) :
    Along next (fun s op => ActsOnKey s op ∧ Sound (next s op)) (started entries capacity) ops ↔
      Along next NotStale (started entries capacity) ops := by
  have hiff : ∀ s op, Inv s → ((ActsOnKey s op ∧ Sound (next s op)) ↔ NotStale s op) := by
    intro s op h
    rw [h.acts_iff op]
    exact ⟨And.left, fun hn => ⟨hn, (h.next hn).toSound⟩⟩
  exact along_iff hiff (fun _ _ h hn => h.next hn) (started_inv entries capacity) ops

/-! ## A reused slot -/

def letter (c : UInt8) (h : c ≠ 0) : Text := ⟨[c], by simpa using h.symm⟩

/-- A store of one slot that is not in use. -/
def oneSlot : Sys := started (fun _ => ⟨false, .empty, .empty⟩) 1

/-- Opens `a`, deletes it and creates `b` in its slot. -/
def reusedOps : List Op :=
  [.openKey 0 (some (letter 97 (by decide))) 6, .delete (some (letter 97 (by decide))),
    .openKey 1 (some (letter 98 (by decide))) 6]

/-- A write of `x` through the handle of `a`. -/
def staleWrite : Op := .write 0 (some (letter 120 (by decide)))

/-- The write through the handle of the deleted key is what a read of the other key gives. -/
theorem stale_write_reaches_other_key :
    ¬ Along next (fun s op => ActsOnKey s op ∧ Sound (next s op)) oneSlot (reusedOps ++ [staleWrite]) ∧
      reply ((reusedOps ++ [staleWrite]).foldl next oneSlot) (.read 1 (some 128)) =
        .read 1 (some (letter 120 (by decide))) := by
  have hreply : reply (reusedOps.foldl next oneSlot) staleWrite = .wrote 0 := by decide
  have hstale : (reusedOps.foldl next oneSlot).history.stale 0 = true := by decide
  refine ⟨?_, by decide⟩
  intro h
  have hacts : ActsOnKey (reusedOps.foldl next oneSlot) staleWrite := h.2.2.2.1.1
  simp only [ActsOnKey, hreply] at hacts
  obtain ⟨_, -, hfresh, -⟩ := hacts
  rw [hstale] at hfresh
  cases hfresh

end Owreg
