import OpenWindows.Fltrmgr.Filters

/-!
# The filter chain

`fltrmgr_register_filter` and `fltrmgr_unregister_filter` move whole records in an array.
In a run the array lists the filters that are registered, by priority and in the order of
their registration, as long as each name has room in its record.  A longer name is cut
when it is stored but compared in full, so its filter is never found again.
-/

namespace Fltrmgr

open StepSystem

/-! ## The array -/

/-- `filters` and `filter_count` of a `fltrmgr_context_t`. -/
structure FilterArray where
  filters : Nat → Filter
  filterCount : Nat
  le : filterCount ≤ maxFilters

/-- A record of zero bytes. -/
def Filter.zero : Filter := ⟨[], 0, 0, 0, false⟩

/-- The loop of `find_filter_by_name` from an index on. -/
def findFrom (filters : Nat → Filter) (name : List UInt8) (i : Nat) : Nat → Nat
  | 0 => maxFilters
  | left + 1 =>
    if (filters i).active && strEqual maxFilterName (filters i).name name then i
    else findFrom filters name (i + 1) left

/-- The search for the insertion point from an index on. -/
def insertFrom (filters : Nat → Filter) (priority : UInt32) (i : Nat) : Nat → Nat
  | 0 => i
  | left + 1 =>
    if priority < (filters i).priority then i else insertFrom filters priority (i + 1) left

def shiftRight (insertIdx : Nat) (filters : Nat → Filter) : Nat → Nat → Filter
  | 0 => filters
  | i + 1 =>
    if i + 1 > insertIdx then shiftRight insertIdx (Function.update filters (i + 1) (filters i)) i
    else filters

def shiftLeft (filters : Nat → Filter) (i : Nat) : Nat → Nat → Filter
  | 0 => filters
  | left + 1 => shiftLeft (Function.update filters i (filters (i + 1))) (i + 1) left

namespace FilterArray

/-- `filters[0..filter_count)` -/
def listed (a : FilterArray) : List Filter := (List.range a.filterCount).map a.filters

/-- `fltrmgr_register_filter` -/
def register (a : FilterArray) (name : Option (List UInt8)) (priority : UInt32)
    (callback filterCtx : UInt64) : Status × FilterArray :=
  match name with
  | none => (.errInvalidParam, a)
  | some name =>
    if callback = 0 then (.errInvalidParam, a)
    else if findFrom a.filters name 0 a.filterCount ≠ maxFilters then (.errAlreadyActive, a)
    else if hfull : a.filterCount ≥ maxFilters then (.errFilterFull, a)
    else
      let insertIdx := insertFrom a.filters priority 0 a.filterCount
      let shifted := shiftRight insertIdx a.filters a.filterCount
      let f : Filter := ⟨name.take (maxFilterName - 1), priority, callback, filterCtx, true⟩
      (.ok,
        { filters := Function.update shifted insertIdx f
          filterCount := a.filterCount + 1
          le := Nat.lt_of_not_le hfull })

/-- `fltrmgr_unregister_filter` -/
def unregister (a : FilterArray) (name : Option (List UInt8)) : Status × FilterArray :=
  match name with
  | none => (.errInvalidParam, a)
  | some name =>
    let idx := findFrom a.filters name 0 a.filterCount
    if idx = maxFilters then (.errNotFound, a)
    else
      let marked := Function.update a.filters idx { a.filters idx with active := false }
      let shifted := shiftLeft marked idx (a.filterCount - 1 - idx)
      (.ok,
        { filters := Function.update shifted (a.filterCount - 1) .zero
          filterCount := a.filterCount - 1
          le := Nat.le_trans (Nat.sub_le ..) a.le })

end FilterArray

/-! ## The array as a list -/

section Loops

variable {filters : Nat → Filter} {name : List UInt8} {priority : UInt32} {i j n : Nat}

/-- A filter that `find_filter_by_name` takes. -/
def Filter.named (name : List UInt8) (f : Filter) : Bool :=
  f.active && strEqual maxFilterName f.name name

theorem findFrom_eq :
    findFrom filters name i n =
      (((List.range' i n).map filters).findIdx? (Filter.named name)).elim maxFilters (i + ·) := by
  induction n generalizing i with
  | zero => rfl
  | succ n ih =>
    rw [findFrom, List.range'_succ, List.map_cons, List.findIdx?_cons]
    change (if (filters i).named name then _ else _) = _
    split
    · rfl
    · rw [ih]
      cases ((List.range' (i + 1) n).map filters).findIdx? (Filter.named name) with
      | none => rfl
      | some k => exact (Nat.add_right_comm i 1 k)

theorem insertFrom_eq :
    insertFrom filters priority i n =
      i + ((List.range' i n).map filters).findIdx fun f => decide (priority < f.priority) := by
  induction n generalizing i with
  | zero => rfl
  | succ n ih =>
    rw [insertFrom, List.range'_succ, List.map_cons, List.findIdx_cons, ih]
    by_cases hlt : priority < (filters i).priority
    · rw [if_pos hlt, decide_eq_true hlt]
      rfl
    · rw [if_neg hlt, decide_eq_false hlt]
      exact Nat.add_right_comm i 1 _

theorem shiftRight_apply (hj : i ≤ n) :
    shiftRight i filters n j = if i < j ∧ j ≤ n then filters (j - 1) else filters j := by
  induction n generalizing filters with
  | zero => rw [shiftRight, if_neg (by omega)]
  | succ n ih =>
    rw [shiftRight]
    by_cases hmore : n + 1 > i
    · rw [if_pos hmore, ih (Nat.le_of_lt_succ hmore)]
      rcases Nat.lt_trichotomy j (n + 1) with hlt | rfl | hgt
      · rw [Function.update_of_ne (by omega), Function.update_of_ne (by omega)]
        exact if_congr (by omega) rfl rfl
      · rw [if_neg (by omega), Function.update_self, if_pos ⟨hmore, Nat.le_refl _⟩]
        rfl
      · rw [if_neg (by omega), if_neg (by omega), Function.update_of_ne (by omega)]
    · rw [if_neg hmore, if_neg (by omega)]

theorem shiftLeft_apply :
    shiftLeft filters i n j = if i ≤ j ∧ j < i + n then filters (j + 1) else filters j := by
  induction n generalizing filters i with
  | zero => rw [shiftLeft, if_neg (by omega)]
  | succ n ih =>
    rw [shiftLeft, ih]
    rcases Nat.lt_trichotomy j i with hlt | rfl | hgt
    · rw [if_neg (by omega), if_neg (by omega), Function.update_of_ne (by omega)]
    · rw [if_neg (by omega), if_pos (by omega), Function.update_self]
    · rw [Function.update_of_ne (by omega), Function.update_of_ne (by omega)]
      exact if_congr (by omega) rfl rfl

end Loops

/-- A filter goes before the first one with a greater priority. -/
def insertByPriority (f : Filter) (fs : List Filter) : List Filter :=
  fs.insertIdx (fs.findIdx fun g => decide (f.priority < g.priority)) f

namespace FilterArray

variable {a : FilterArray} {ctx : Context}

theorem length_listed (a : FilterArray) : a.listed.length = a.filterCount := by
  rw [listed, List.length_map, List.length_range]

theorem findFrom_listed (a : FilterArray) (name : List UInt8) :
    findFrom a.filters name 0 a.filterCount =
      (a.listed.findIdx? (Filter.named name)).getD maxFilters := by
  rw [findFrom_eq, listed, List.range_eq_range']
  cases ((List.range' 0 a.filterCount).map a.filters).findIdx? (Filter.named name) with
  | none => rfl
  | some k => exact Nat.zero_add k

theorem findFrom_ne (a : FilterArray) (name : List UInt8) :
    findFrom a.filters name 0 a.filterCount ≠ maxFilters ↔
      (a.listed.findIdx? (Filter.named name)).isSome := by
  rw [findFrom_listed]
  cases hfind : a.listed.findIdx? (Filter.named name) with
  | none => simp
  | some k =>
    have hk := (List.findIdx?_eq_some_iff_getElem.mp hfind).1
    rw [length_listed] at hk
    have hle := a.le
    simp
    omega

theorem listed_insert {filters : Nat → Filter} {count i : Nat} (hi : i ≤ count) (f : Filter) :
    (List.range (count + 1)).map (Function.update (shiftRight i filters count) i f) =
      ((List.range count).map filters).insertIdx i f := by
  refine List.ext_getElem ?_ fun j h1 h2 => ?_
  · rw [List.length_insertIdx_of_le_length (by simpa using hi)]
    simp
  · rw [List.getElem_map, List.getElem_range, List.getElem_insertIdx]
    rw [List.length_map, List.length_range] at h1
    rcases Nat.lt_trichotomy j i with hlt | rfl | hgt
    · rw [Function.update_of_ne (by omega), shiftRight_apply hi, if_neg (by omega), dif_pos hlt]
      simp
    · rw [Function.update_self, dif_neg (Nat.lt_irrefl j), dif_pos rfl]
    · rw [Function.update_of_ne (by omega), shiftRight_apply hi, if_pos (by omega),
        dif_neg (by omega), dif_neg (by omega)]
      simp

theorem listed_erase {filters : Nat → Filter} {count i : Nat} (hi : i < count) (f g : Filter) :
    (List.range (count - 1)).map
        (Function.update (shiftLeft (Function.update filters i f) i (count - 1 - i)) (count - 1) g) =
      ((List.range count).map filters).eraseIdx i := by
  refine List.ext_getElem ?_ fun j h1 h2 => ?_
  · rw [List.length_eraseIdx_of_lt (by simpa using hi)]
    simp
  · rw [List.length_map, List.length_range] at h1
    rw [List.getElem_map, List.getElem_range, List.getElem_eraseIdx,
      Function.update_of_ne (by omega), shiftLeft_apply]
    rcases Nat.lt_or_ge j i with hlt | hge
    · rw [if_neg (by omega), Function.update_of_ne (by omega), dif_pos hlt]
      simp
    · rw [if_pos (by omega), Function.update_of_ne (by omega), dif_neg (by omega)]
      simp

theorem register_cases (a : FilterArray) (name : List UInt8) (priority : UInt32)
    (callback filterCtx : UInt64) :
    let r := a.register (some name) priority callback filterCtx
    let found := (a.listed.findIdx? (Filter.named name)).isSome = true
    (callback = 0 ∧ r = (.errInvalidParam, a)) ∨
      (callback ≠ 0 ∧ found ∧ r = (.errAlreadyActive, a)) ∨
      (callback ≠ 0 ∧ ¬ found ∧ a.filterCount ≥ maxFilters ∧ r = (.errFilterFull, a)) ∨
      (callback ≠ 0 ∧ ¬ found ∧ a.filterCount < maxFilters ∧ r.1 = .ok ∧
        r.2.listed = insertByPriority
          ⟨name.take (maxFilterName - 1), priority, callback, filterCtx, true⟩ a.listed) := by
  intro r found
  have hne := a.findFrom_ne name
  unfold r register
  dsimp only
  by_cases hcallback : callback = 0
  · rw [if_pos hcallback]
    exact .inl ⟨hcallback, rfl⟩
  rw [if_neg hcallback]
  by_cases hfound : found
  · rw [if_pos (hne.mpr hfound)]
    exact .inr (.inl ⟨hcallback, hfound, rfl⟩)
  rw [if_neg (mt hne.mp hfound)]
  by_cases hfull : a.filterCount ≥ maxFilters
  · rw [dif_pos hfull]
    exact .inr (.inr (.inl ⟨hcallback, hfound, hfull, rfl⟩))
  rw [dif_neg hfull]
  refine .inr (.inr (.inr ⟨hcallback, hfound, Nat.lt_of_not_le hfull, rfl, ?_⟩))
  have hindex : insertFrom a.filters priority 0 a.filterCount =
      a.listed.findIdx fun f => decide (priority < f.priority) := by
    rw [insertFrom_eq, Nat.zero_add, ← List.range_eq_range', listed]
  have hle : a.listed.findIdx (fun f => decide (priority < f.priority)) ≤ a.filterCount :=
    Nat.le_trans List.findIdx_le_length (Nat.le_of_eq a.length_listed)
  dsimp only
  rw [hindex]
  exact listed_insert hle _

theorem unregister_cases (a : FilterArray) (name : List UInt8) :
    let r := a.unregister (some name)
    (a.listed.findIdx? (Filter.named name) = none ∧ r = (.errNotFound, a)) ∨
      ∃ k, a.listed.findIdx? (Filter.named name) = some k ∧ r.1 = .ok ∧
        r.2.listed = a.listed.eraseIdx k := by
  intro r
  have hidx := findFrom_listed a name
  unfold r unregister
  dsimp only
  cases hcase : a.listed.findIdx? (Filter.named name) with
  | none =>
    rw [hcase, Option.getD_none] at hidx
    rw [if_pos hidx]
    exact .inl ⟨rfl, rfl⟩
  | some k =>
    rw [hcase, Option.getD_some] at hidx
    have hk := (List.findIdx?_eq_some_iff_getElem.mp hcase).1
    rw [length_listed] at hk
    have hle := a.le
    rw [hidx, if_neg (by omega)]
    exact .inr ⟨k, rfl, rfl, listed_erase hk _ _⟩

theorem findFilterByName_eq (hctx : ctx.filters = a.listed) (name : List UInt8) :
    findFilterByName ctx name = a.listed.findIdx? (Filter.named name) := by
  rw [findFilterByName, hctx]
  rfl

theorem register_listed (hctx : ctx.filters = a.listed) (name : Option (List UInt8))
    (priority : UInt32) (callback filterCtx : UInt64) :
    (a.register name priority callback filterCtx).1 =
        (fltrmgrRegisterFilter ctx name priority callback filterCtx).1 ∧
      (fltrmgrRegisterFilter ctx name priority callback filterCtx).2.filters =
        (a.register name priority callback filterCtx).2.listed := by
  cases name with
  | none => exact ⟨rfl, hctx⟩
  | some name =>
    have hlength : ctx.filters.length = a.filterCount := by rw [hctx, length_listed]
    unfold fltrmgrRegisterFilter
    dsimp only
    rw [findFilterByName_eq hctx, hlength]
    obtain ⟨hcallback, hr⟩ | ⟨hcallback, hfound, hr⟩ | ⟨hcallback, hfound, hfull, hr⟩ |
      ⟨hcallback, hfound, hroom, hok, hlisted⟩ :=
        a.register_cases name priority callback filterCtx
    · rw [hr, if_pos hcallback]
      exact ⟨rfl, hctx⟩
    · rw [hr, if_neg hcallback, if_pos hfound]
      exact ⟨rfl, hctx⟩
    · rw [hr, if_neg hcallback, if_neg hfound, if_pos hfull]
      exact ⟨rfl, hctx⟩
    · rw [hok, hlisted, if_neg hcallback, if_neg hfound, if_neg (Nat.not_le.mpr hroom), hctx]
      exact ⟨rfl, rfl⟩

theorem unregister_listed (hctx : ctx.filters = a.listed) (name : Option (List UInt8)) :
    (a.unregister name).1 = (fltrmgrUnregisterFilter ctx name).1 ∧
      (fltrmgrUnregisterFilter ctx name).2.filters = (a.unregister name).2.listed := by
  cases name with
  | none => exact ⟨rfl, hctx⟩
  | some name =>
    unfold fltrmgrUnregisterFilter
    dsimp only
    rw [findFilterByName_eq hctx]
    obtain ⟨hnone, hr⟩ | ⟨k, hsome, hok, hlisted⟩ := a.unregister_cases name
    · rw [hnone, hr]
      exact ⟨rfl, hctx⟩
    · rw [hsome, hok, hlisted, hctx]
      exact ⟨rfl, rfl⟩

end FilterArray

/-! ## Names -/

/-- A string of C. -/
structure CString where
  bytes : List UInt8
  noNul : 0 ∉ bytes

/-- Strings are compared to their end when one of them ends early enough. -/
theorem strEqual_iff {n : Nat} {xs ys : List UInt8} (hlen : xs.length < n) (hxs : 0 ∉ xs)
    (hys : 0 ∉ ys) : strEqual n xs ys = true ↔ xs = ys := by
  induction n generalizing xs ys with
  | zero => nomatch hlen
  | succ n ih =>
    rw [strEqual]
    cases xs with
    | nil =>
      cases ys with
      | nil => simp
      | cons y ys =>
        have hy : (0 : UInt8) ≠ y := fun h => hys (h ▸ List.mem_cons_self)
        simp [hy]
    | cons x xs =>
      have hx : x ≠ 0 := fun h => hxs (h ▸ List.mem_cons_self)
      cases ys with
      | nil => simp [hx]
      | cons y ys =>
        have ih' := ih (Nat.lt_of_succ_lt_succ hlen) (mt (List.mem_cons_of_mem x) hxs)
          (mt (List.mem_cons_of_mem y) hys)
        by_cases hxy : x = y
        · subst hxy
          simpa [hx] using ih'
        · simp [hxy]

/-! ## Runs -/

/-- The array, and the filters that were registered and not unregistered, in the order of
their registration. -/
structure Chain where
  array : FilterArray
  live : List Filter

/-- The calls. -/
inductive ChainCall
  | register (name : Option CString) (priority : UInt32) (callback filterCtx : UInt64)
  | unregister (name : Option CString)

def Chain.next (s : Chain) : ChainCall → Chain
  | .register name priority callback filterCtx =>
    let (status, array) := s.array.register (name.map CString.bytes) priority callback filterCtx
    { array
      live :=
        match status, name with
        | .ok, some name => s.live ++ [⟨name.bytes, priority, callback, filterCtx, true⟩]
        | _, _ => s.live }
  | .unregister name =>
    let (status, array) := s.array.unregister (name.map CString.bytes)
    { array
      live :=
        match status, name with
        | .ok, some name => s.live.filter fun f => f.name ≠ name.bytes
        | _, _ => s.live }

section Next

variable (s : Chain) (name : CString) {priority : UInt32} {callback filterCtx : UInt64}
  {status : Status}

theorem Chain.next_register_of_ne
    (hr : s.array.register (some name.bytes) priority callback filterCtx = (status, s.array))
    (hstatus : status ≠ .ok) : s.next (.register (some name) priority callback filterCtx) = s := by
  rw [Chain.next, Option.map_some, hr]
  cases status with
  | ok => exact absurd rfl hstatus
  | _ => rfl

theorem Chain.next_register_live
    (hok : (s.array.register (some name.bytes) priority callback filterCtx).1 = .ok) :
    (s.next (.register (some name) priority callback filterCtx)).live =
      s.live ++ [⟨name.bytes, priority, callback, filterCtx, true⟩] := by
  rw [Chain.next, Option.map_some]
  dsimp only
  rw [hok]

theorem Chain.next_unregister_of_ne
    (hr : s.array.unregister (some name.bytes) = (status, s.array)) (hstatus : status ≠ .ok) :
    s.next (.unregister (some name)) = s := by
  rw [Chain.next, Option.map_some, hr]
  cases status with
  | ok => exact absurd rfl hstatus
  | _ => rfl

theorem Chain.next_unregister_live (hok : (s.array.unregister (some name.bytes)).1 = .ok) :
    (s.next (.unregister (some name))).live = s.live.filter fun f => f.name ≠ name.bytes := by
  rw [Chain.next, Option.map_some]
  dsimp only
  rw [hok]

end Next

/-- The chain after `fltrmgr_init`. -/
def Chain.start : Chain := ⟨⟨fun _ => .zero, 0, Nat.zero_le _⟩, []⟩

/-- The chain holds the live filters, by priority and registration. -/
structure ChainRight (s : Chain) : Prop where
  sorted : s.array.listed.Pairwise fun f g => f.priority ≤ g.priority
  holds : ∀ p, s.array.listed.filter (fun f => f.priority = p) =
    s.live.filter fun f => f.priority = p
  unregisters : ∀ f ∈ s.live, (s.array.unregister (some f.name)).1 = .ok
  refuses : ∀ f ∈ s.live, ∀ priority callback filterCtx, callback ≠ 0 →
    (s.array.register (some f.name) priority callback filterCtx).1 = .errAlreadyActive

/-- A call that does not store a name without room for it. -/
def NameFits (s : Chain) : ChainCall → Prop
  | .register (some name) _ callback _ =>
    name.bytes.length < maxFilterName ∨ callback = 0 ∨ s.array.filterCount ≥ maxFilters
  | _ => True

/-- What holds as long as the names have room: they tell the filters apart. -/
structure ChainInv (s : Chain) : Prop where
  sorted : s.array.listed.Pairwise fun f g => f.priority ≤ g.priority
  holds : ∀ p, s.array.listed.filter (fun f => f.priority = p) =
    s.live.filter fun f => f.priority = p
  stored : ∀ f ∈ s.array.listed, f.active = true ∧ f.name.length < maxFilterName ∧ 0 ∉ f.name
  apart : (s.array.listed.map Filter.name).Nodup

section List

variable {fs live : List Filter} {f : Filter}

theorem insertByPriority_cons (f g : Filter) (fs : List Filter) :
    insertByPriority f (g :: fs) =
      if f.priority < g.priority then f :: g :: fs else g :: insertByPriority f fs := by
  rw [insertByPriority, List.findIdx_cons]
  by_cases hlt : f.priority < g.priority
  · rw [if_pos hlt, decide_eq_true hlt]
    rfl
  · rw [if_neg hlt, decide_eq_false hlt]
    rfl

theorem insertByPriority_perm (f : Filter) (fs : List Filter) :
    (insertByPriority f fs).Perm (f :: fs) := List.perm_insertIdx f fs List.findIdx_le_length

theorem insertByPriority_sorted (hfs : fs.Pairwise fun f g => f.priority ≤ g.priority) :
    (insertByPriority f fs).Pairwise fun f g => f.priority ≤ g.priority := by
  induction fs with
  | nil => exact List.pairwise_singleton _ _
  | cons g fs ih =>
    obtain ⟨hg, hrest⟩ := List.pairwise_cons.mp hfs
    rw [insertByPriority_cons]
    split
    next hlt =>
      refine List.pairwise_cons.mpr ⟨fun h hh => ?_, hfs⟩
      rcases List.mem_cons.mp hh with rfl | hh
      · exact UInt32.le_of_lt hlt
      · exact UInt32.le_trans (UInt32.le_of_lt hlt) (hg h hh)
    next hge =>
      refine List.pairwise_cons.mpr ⟨fun h hh => ?_, ih hrest⟩
      rcases List.mem_cons.mp ((insertByPriority_perm f fs).mem_iff.mp hh) with rfl | hh
      · exact UInt32.not_lt.mp hge
      · exact hg h hh

theorem insertByPriority_filter (hfs : fs.Pairwise fun f g => f.priority ≤ g.priority)
    (p : UInt32) :
    (insertByPriority f fs).filter (fun g => g.priority = p) =
      fs.filter (fun g => g.priority = p) ++ [f].filter fun g => g.priority = p := by
  induction fs with
  | nil => rfl
  | cons g fs ih =>
    obtain ⟨hg, hrest⟩ := List.pairwise_cons.mp hfs
    rw [insertByPriority_cons]
    split
    next hlt =>
      by_cases hp : f.priority = p
      · have hnone : (g :: fs).filter (fun g => g.priority = p) = [] := by
          refine List.filter_eq_nil_iff.mpr fun h hh hpr => ?_
          have hle : g.priority ≤ h.priority := by
            rcases List.mem_cons.mp hh with rfl | hh
            · exact UInt32.le_refl _
            · exact hg h hh
          have hlow := UInt32.lt_of_lt_of_le hlt hle
          rw [of_decide_eq_true hpr, hp] at hlow
          exact absurd hlow (UInt32.lt_irrefl p)
        rw [List.filter_cons_of_pos (by simpa using hp), hnone,
          List.filter_cons_of_pos (by simpa using hp)]
        rfl
      · have hskip : ∀ gs : List Filter, (f :: gs).filter (fun g => g.priority = p) =
            gs.filter fun g => g.priority = p := fun gs => List.filter_cons_of_neg (by simpa using hp)
        rw [hskip, hskip, List.filter_nil, List.append_nil]
    next hge =>
      rw [List.filter_cons, List.filter_cons, ih hrest]
      split
      · rfl
      · rfl

theorem perm_of_holds (h : ∀ p, fs.filter (fun f => f.priority = p) =
    live.filter fun f => f.priority = p) : fs.Perm live := by
  refine List.perm_iff_count.mpr fun f => ?_
  have hcount := congrArg (List.count f) (h f.priority)
  rwa [List.count_filter (by simp), List.count_filter (by simp)] at hcount

theorem eraseIdx_eq_filter {named : Filter → Bool} {name : List UInt8} {k : Nat}
    (hnamed : ∀ f ∈ fs, named f = true ↔ f.name = name) (hapart : (fs.map Filter.name).Nodup)
    (hk : fs.findIdx? named = some k) : fs.eraseIdx k = fs.filter fun f => f.name ≠ name := by
  induction fs generalizing k with
  | nil => nomatch hk
  | cons g fs ih =>
    obtain ⟨hg, hrest⟩ := List.nodup_cons.mp hapart
    rw [List.findIdx?_cons] at hk
    by_cases hname : g.name = name
    · rw [if_pos ((hnamed g List.mem_cons_self).mpr hname)] at hk
      obtain rfl := Option.some.inj hk
      have hkeep : ∀ f ∈ fs, decide (f.name ≠ name) = true := by
        intro f hf
        refine decide_eq_true fun hfname => hg ?_
        exact List.mem_map.mpr ⟨f, hf, hfname.trans hname.symm⟩
      rw [List.filter_cons_of_neg (by simpa using hname), List.filter_eq_self.mpr hkeep]
      rfl
    · rw [if_neg (mt (hnamed g List.mem_cons_self).mp hname)] at hk
      obtain ⟨j, hj, rfl⟩ := Option.map_eq_some_iff.mp hk
      rw [List.filter_cons_of_pos (by simpa using hname), List.eraseIdx_cons_succ,
        ih (fun f hf => hnamed f (List.mem_cons_of_mem g hf)) hrest hj]

theorem named_of_long {name : List UInt8} (hname : 0 ∉ name) (hlong : maxFilterName ≤ name.length)
    (hlen : f.name.length < maxFilterName) (hnul : 0 ∉ f.name) : f.named name = false := by
  have hne : strEqual maxFilterName f.name name = false := by
    refine Bool.eq_false_iff.mpr fun heq => ?_
    have hlength := congrArg List.length ((strEqual_iff hlen hnul hname).mp heq)
    omega
  rw [Filter.named, hne, Bool.and_false]

end List

/-! ## One call -/

section Calls

variable {s : Chain} (h : ChainInv s)
include h

theorem ChainInv.mem_live {f : Filter} : f ∈ s.array.listed ↔ f ∈ s.live :=
  (perm_of_holds h.holds).mem_iff

theorem ChainInv.named_iff {f : Filter} (hf : f ∈ s.array.listed) {name : List UInt8}
    (hname : 0 ∉ name) : f.named name = true ↔ f.name = name := by
  obtain ⟨hactive, hlen, hnul⟩ := h.stored f hf
  rw [Filter.named, hactive, Bool.true_and]
  exact strEqual_iff hlen hnul hname

theorem ChainInv.found_iff {name : List UInt8} (hname : 0 ∉ name) :
    (s.array.listed.findIdx? (Filter.named name)).isSome ↔
      name ∈ s.array.listed.map Filter.name := by
  rw [List.findIdx?_isSome, List.any_eq_true, List.mem_map]
  exact exists_congr fun f => and_congr_right fun hf => h.named_iff hf hname

theorem ChainInv.right : ChainRight s := by
  have hfound : ∀ f ∈ s.live,
      (s.array.listed.findIdx? (Filter.named f.name)).isSome := by
    intro f hf
    have hmem := h.mem_live.mpr hf
    exact (h.found_iff (h.stored f hmem).2.2).mpr (List.mem_map_of_mem hmem)
  refine ⟨h.sorted, h.holds, fun f hf => ?_, fun f hf priority callback filterCtx hcallback => ?_⟩
  · obtain ⟨hnone, -⟩ | ⟨k, -, hok, -⟩ := s.array.unregister_cases f.name
    · exact absurd (hfound f hf) (by simp [hnone])
    · exact hok
  · obtain ⟨hzero, -⟩ | ⟨-, -, hr⟩ | ⟨-, hnot, -⟩ | ⟨-, hnot, -⟩ :=
      s.array.register_cases f.name priority callback filterCtx
    · exact absurd hzero hcallback
    · rw [hr]
    · exact absurd (hfound f hf) hnot
    · exact absurd (hfound f hf) hnot

theorem ChainInv.insert {s' : Chain} {f : Filter}
    (hlisted : s'.array.listed = insertByPriority f s.array.listed)
    (hlive : s'.live = s.live ++ [f])
    (hf : f.active = true ∧ f.name.length < maxFilterName ∧ 0 ∉ f.name)
    (hnew : f.name ∉ s.array.listed.map Filter.name) : ChainInv s' := by
  have hperm := insertByPriority_perm f s.array.listed
  refine ⟨?_, fun p => ?_, fun g hg => ?_, ?_⟩
  · rw [hlisted]
    exact insertByPriority_sorted h.sorted
  · rw [hlisted, hlive, insertByPriority_filter h.sorted, List.filter_append, h.holds]
  · rw [hlisted] at hg
    rcases List.mem_cons.mp (hperm.mem_iff.mp hg) with rfl | hg
    · exact hf
    · exact h.stored g hg
  · rw [hlisted]
    exact (hperm.map Filter.name).nodup_iff.mpr (List.nodup_cons.mpr ⟨hnew, h.apart⟩)

theorem ChainInv.erase {s' : Chain} {name : List UInt8} {k : Nat} (hname : 0 ∉ name)
    (hk : s.array.listed.findIdx? (Filter.named name) = some k)
    (hlisted : s'.array.listed = s.array.listed.eraseIdx k)
    (hlive : s'.live = s.live.filter fun f => f.name ≠ name) : ChainInv s' := by
  have herase : s.array.listed.eraseIdx k = s.array.listed.filter fun f => f.name ≠ name :=
    eraseIdx_eq_filter (fun f hf => h.named_iff hf hname) h.apart hk
  rw [herase] at hlisted
  have hsub : s'.array.listed.Sublist s.array.listed := hlisted ▸ List.filter_sublist
  refine ⟨h.sorted.sublist hsub, fun p => ?_, fun g hg => h.stored g (hsub.subset hg),
    h.apart.sublist (hsub.map Filter.name)⟩
  rw [hlisted, hlive, List.filter_filter, List.filter_filter]
  have hcomm : ∀ fs : List Filter,
      fs.filter (fun f => decide (f.priority = p) && decide (f.name ≠ name)) =
        (fs.filter fun f => f.priority = p).filter fun f => f.name ≠ name := by
    intro fs
    rw [List.filter_filter]
    exact congrArg (fs.filter ·) (funext fun f => Bool.and_comm ..)
  rw [hcomm, hcomm, h.holds]

theorem ChainInv.next {c : ChainCall} (hc : NameFits s c) : ChainInv (s.next c) := by
  cases c with
  | register name priority callback filterCtx =>
    cases name with
    | none => exact h
    | some name =>
      obtain ⟨-, hr⟩ | ⟨-, -, hr⟩ | ⟨-, -, -, hr⟩ | ⟨hcallback, hfound, hroom, hok, hlisted⟩ :=
        s.array.register_cases name.bytes priority callback filterCtx
      · exact (s.next_register_of_ne name hr Status.noConfusion).symm ▸ h
      · exact (s.next_register_of_ne name hr Status.noConfusion).symm ▸ h
      · exact (s.next_register_of_ne name hr Status.noConfusion).symm ▸ h
      · have hlen : name.bytes.length < maxFilterName := by
          rcases hc with hlen | hzero | hfull
          · exact hlen
          · exact absurd hzero hcallback
          · exact absurd hroom (Nat.not_lt.mpr hfull)
        rw [List.take_of_length_le (Nat.le_sub_one_of_lt hlen)] at hlisted
        refine h.insert hlisted (s.next_register_live name hok) ⟨rfl, hlen, name.noNul⟩ ?_
        exact mt (h.found_iff name.noNul).mpr hfound
  | unregister name =>
    cases name with
    | none => exact h
    | some name =>
      obtain ⟨-, hr⟩ | ⟨k, hk, hok, hlisted⟩ := s.array.unregister_cases name.bytes
      · exact (s.next_unregister_of_ne name hr Status.noConfusion).symm ▸ h
      · exact h.erase name.noNul hk hlisted (s.next_unregister_live name hok)

theorem ChainInv.not_right {c : ChainCall} (hc : ¬ NameFits s c) : ¬ ChainRight (s.next c) := by
  match c, hc with
  | .unregister _, hc => exact absurd trivial hc
  | .register none _ _ _, hc => exact absurd trivial hc
  | .register (some name) priority callback filterCtx, hc =>
    obtain ⟨hlong, hcallback, hroom⟩ : ¬ name.bytes.length < maxFilterName ∧ callback ≠ 0 ∧
        ¬ s.array.filterCount ≥ maxFilters := by
      rwa [NameFits, not_or, not_or] at hc
    have hlong' := Nat.le_of_not_lt hlong
    have hnone : s.array.listed.findIdx? (Filter.named name.bytes) = none :=
      List.findIdx?_eq_none_iff.mpr fun f hf =>
        named_of_long name.noNul hlong' (h.stored f hf).2.1 (h.stored f hf).2.2
    obtain ⟨hzero, -⟩ | ⟨-, hfound, -⟩ | ⟨-, -, hfull, -⟩ | ⟨-, -, -, hok, hlisted⟩ :=
      s.array.register_cases name.bytes priority callback filterCtx
    · exact absurd hzero hcallback
    · exact absurd hfound (by simp [hnone])
    · exact absurd hfull hroom
    intro hright
    have hmem : (⟨name.bytes, priority, callback, filterCtx, true⟩ : Filter) ∈
        (s.next (.register (some name) priority callback filterCtx)).live := by
      rw [s.next_register_live name hok]
      exact List.mem_append_right _ List.mem_cons_self
    have hnone' : (s.array.register (some name.bytes) priority callback filterCtx).2.listed.findIdx?
        (Filter.named name.bytes) = none := by
      refine List.findIdx?_eq_none_iff.mpr fun f hf => ?_
      rw [hlisted] at hf
      rcases List.mem_cons.mp ((insertByPriority_perm _ _).mem_iff.mp hf) with rfl | hf
      · refine named_of_long name.noNul hlong' ?_ (mt List.mem_of_mem_take name.noNul)
        exact Nat.lt_of_le_of_lt (List.length_take_le ..) (by decide)
      · exact List.findIdx?_eq_none_iff.mp hnone f hf
    have hstatus := hright.unregisters _ hmem
    obtain ⟨-, hr⟩ | ⟨k, hk, -⟩ := (s.array.register (some name.bytes) priority callback
      filterCtx).2.unregister_cases name.bytes
    · exact Status.noConfusion (hstatus.symm.trans (congrArg Prod.fst hr))
    · exact nomatch hnone'.symm.trans hk

end Calls

/-- In every run the chain is right after each call exactly when no name without room for it
is stored. -/
theorem chain_right_iff (calls : List ChainCall) :
    (∀ pre, pre <+: calls → ChainRight (pre.foldl Chain.next .start)) ↔
      Along Chain.next NameFits .start calls := by
  have hstart : ChainInv .start := by
    refine ⟨List.Pairwise.nil, fun _ => rfl, fun f hf => ?_, List.nodup_nil⟩
    exact absurd hf List.not_mem_nil
  rw [reached_iff_along (fun s c _ => Iff.rfl) hstart.right]
  refine along_iff (fun s c hs => ?_) (fun s c hs hc => hs.next hc) hstart calls
  constructor
  · intro hright
    by_contra hnot
    exact hs.not_right hnot hright
  · exact fun hc => (hs.next hc).right

/-- A filter whose name has 32 bytes cannot be unregistered. -/
theorem long_name_stays :
    ¬ ChainRight (Chain.start.next
      (.register (some ⟨List.replicate 32 0x41, by decide⟩) 5 1 0)) := by
  intro h
  have hstatus := h.unregisters ⟨List.replicate 32 0x41, 5, 1, 0, true⟩ (by decide)
  exact absurd hstatus (by decide)

/-! ## The array and the list -/

def ChainCall.onList (ctx : Context) : ChainCall → Status × Context
  | .register name priority callback filterCtx =>
    fltrmgrRegisterFilter ctx (name.map CString.bytes) priority callback filterCtx
  | .unregister name => fltrmgrUnregisterFilter ctx (name.map CString.bytes)

def ChainCall.onArray (a : FilterArray) : ChainCall → Status × FilterArray
  | .register name priority callback filterCtx =>
    a.register (name.map CString.bytes) priority callback filterCtx
  | .unregister name => a.unregister (name.map CString.bytes)

def answers {σ : Type} (call : σ → ChainCall → Status × σ) (s : σ) :
    List ChainCall → List Status × σ
  | [] => ([], s)
  | c :: calls =>
    let r := answers call (call s c).2 calls
    ((call s c).1 :: r.1, r.2)

theorem answers_listed {ctx : Context} {a : FilterArray} (h : ctx.filters = a.listed)
    (calls : List ChainCall) :
    (answers ChainCall.onArray a calls).1 = (answers ChainCall.onList ctx calls).1 ∧
      (answers ChainCall.onList ctx calls).2.filters =
        (answers ChainCall.onArray a calls).2.listed := by
  induction calls generalizing ctx a with
  | nil => exact ⟨rfl, h⟩
  | cons c calls ih =>
    have hcall : (c.onArray a).1 = (c.onList ctx).1 ∧ (c.onList ctx).2.filters = (c.onArray a).2.listed := by
      cases c with
      | register name priority callback filterCtx =>
        exact FilterArray.register_listed h _ priority callback filterCtx
      | unregister name => exact FilterArray.unregister_listed h _
    obtain ⟨hstatus, hleft⟩ := ih hcall.2
    exact ⟨congrArg₂ List.cons hcall.1 hstatus, hleft⟩

/-- The shifting array gives the answers of the ordered list. -/
theorem array_refines (reqCap : UInt32) (calls : List ChainCall) :
    (answers ChainCall.onArray Chain.start.array calls).1 =
        (answers ChainCall.onList (fltrmgrInit reqCap) calls).1 ∧
      (answers ChainCall.onList (fltrmgrInit reqCap) calls).2.filters =
        (answers ChainCall.onArray Chain.start.array calls).2.listed :=
  answers_listed rfl calls

end Fltrmgr
