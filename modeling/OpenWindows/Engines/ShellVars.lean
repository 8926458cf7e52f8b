import OpenWindows.Engines.Shell
import Mathlib.Data.Finset.Card
import Mathlib.Data.List.TakeWhile

/-!
# Variables of the managedsh engine

`meng_sh_set_var` looks a name up as it is given and stores a new one cut to 15 characters.  A name
of at most 15 characters keeps its slot: once it is set, every command that names it acts on this
slot.  A longer name is never found again, so it cannot be read, and each `set` of it takes another
slot.

`Reached` follows a run of the engine beside the set of names it has set so far.
-/

namespace Engines

open StepSystem

variable {vars vars' : List ShVar} {n : List UInt8} {i : Nat} {x : ShVar}

/-! ## Slots -/

/-- The first variable of name `n` is `x`, in slot `i`. -/
def Slot (vars : List ShVar) (n : List UInt8) (i : Nat) (x : ShVar) : Prop :=
  ∃ pre post, vars = pre ++ x :: post ∧ pre.length = i ∧ x.name = n ∧ ∀ y ∈ pre, y.name ≠ n

@[simp] theorem store_name (x : ShVar) (val : BitVec 64 ⊕ List UInt8) :
    (x.store val).name = x.name := by
  cases val <;> rfl

theorem slot_of_find (h : mengShFindVar vars n = some x) : ∃ i, Slot vars n i x := by
  obtain ⟨hx, pre, post, hvars, hpre⟩ := List.find?_eq_some_iff_append.mp h
  refine ⟨pre.length, pre, post, hvars, rfl, by simpa using hx, fun y hy => ?_⟩
  simpa using hpre y hy

theorem Slot.find (h : Slot vars n i x) : mengShFindVar vars n = some x := by
  obtain ⟨pre, post, rfl, _, hx, hpre⟩ := h
  refine List.find?_eq_some_iff_append.mpr ⟨by simpa using hx, pre, post, rfl, fun y hy => ?_⟩
  simpa using hpre y hy

theorem Slot.name_eq (h : Slot vars n i x) : x.name = n := by
  obtain ⟨_, _, _, _, hx, _⟩ := h
  exact hx

theorem Slot.getElem? (h : Slot vars n i x) : vars[i]? = some x := by
  obtain ⟨pre, post, rfl, rfl, _, _⟩ := h
  simp

theorem Slot.setFirst (h : Slot vars n i x) (f : ShVar → ShVar) :
    setFirst f n vars = vars.set i (f x) := by
  obtain ⟨pre, post, rfl, rfl, hx, hpre⟩ := h
  induction pre with
  | nil => simp [Engines.setFirst, hx]
  | cons y pre ih =>
    rw [List.forall_mem_cons] at hpre
    simp [Engines.setFirst, hpre.1, ih hpre.2]

theorem Slot.update (h : Slot vars n i x) {y : ShVar} (hy : y.name = n) :
    Slot (vars.set i y) n i y := by
  obtain ⟨pre, post, rfl, rfl, _, hpre⟩ := h
  exact ⟨pre, post, by simp, rfl, hy, hpre⟩

theorem Slot.append (h : Slot vars n i x) (more : List ShVar) : Slot (vars ++ more) n i x := by
  obtain ⟨pre, post, rfl, hi, hx, hpre⟩ := h
  exact ⟨pre, post ++ more, by simp, hi, hx, hpre⟩

theorem Slot.other (h : Slot vars n i x) {n' : List UInt8} (hne : n' ≠ n) {f : ShVar → ShVar}
    (hf : ∀ y, (f y).name = y.name) : Slot (Engines.setFirst f n' vars) n i x := by
  obtain ⟨pre, post, rfl, hi, hx, hpre⟩ := h
  induction pre generalizing i with
  | nil =>
    refine ⟨[], Engines.setFirst f n' post, ?_, hi, hx, hpre⟩
    simp [Engines.setFirst, hx, Ne.symm hne]
  | cons y pre ih =>
    rw [List.forall_mem_cons] at hpre
    rw [List.cons_append, Engines.setFirst]
    split
    next hy =>
      exact ⟨f y :: pre, post, rfl, hi, hx, List.forall_mem_cons.mpr ⟨by rw [hf]; exact hpre.1,
        hpre.2⟩⟩
    · obtain ⟨pre', post', heq, hlen, hx', hpre'⟩ := ih rfl hpre.2
      refine ⟨y :: pre', post', by rw [heq]; rfl, ?_, hx',
        List.forall_mem_cons.mpr ⟨hpre.1, hpre'⟩⟩
      rw [← hi, List.length_cons, List.length_cons, hlen]

theorem Slot.set (h : Slot vars n i x) (val : BitVec 64 ⊕ List UInt8) :
    mengShSetVar vars n val = .ok (vars.set i (x.store val)) := by
  rw [mengShSetVar, h.find]
  exact congrArg _ (h.setFirst _)

variable {val : BitVec 64 ⊕ List UInt8} {l : Nat} {labels : List ShLabel} {m : Machine}
  {manifest : List UInt8}

theorem mengShSetVar_ok (h : mengShSetVar vars n val = .ok vars') :
    (∃ i x, Slot vars n i x ∧ vars' = vars.set i (x.store val)) ∨
      (mengShFindVar vars n = none ∧ vars.length < shMaxVars ∧
        vars' = vars ++ [ShVar.store ⟨n.take 15, false, 0, []⟩ val]) := by
  cases hfind : mengShFindVar vars n with
  | some x =>
    obtain ⟨i, hslot⟩ := slot_of_find hfind
    rw [hslot.set] at h
    exact .inl ⟨i, x, hslot, by cases h; rfl⟩
  | none =>
    simp only [mengShSetVar, hfind] at h
    split at h
    · cases h
    next hfree => exact .inr ⟨rfl, by omega, by cases h; rfl⟩

/-! ## Commands that name a variable -/

/-- The value `set` makes of its second word. -/
def setValue (v : List UInt8) : BitVec 64 ⊕ List UInt8 :=
  match parseI64 v with
  | .ok v => .inl v
  | .error _ => .inr v

/-- The commands that name `n` act on the variable `x` of slot `i` and on no other, and `set` and
`inc` of another name leave it alone. -/
structure ActsOn (vars : List ShVar) (n : List UInt8) (i : Nat) (x : ShVar) : Prop where
  slot : vars[i]? = some x
  set : ∀ val, mengShSetVar vars n val = .ok (vars.set i (x.store val))
  inc : ∀ labels lineno m rest,
    shCommand labels lineno vars m (ascii ['i', 'n', 'c']) (n :: rest) =
      if x.isStr then .inr (.errRuntime, m)
      else .inl (.execute (nextLine lineno) labels (vars.set i { x with v := x.v + 1 }) m)
  cond : mengShExpandInt vars (36 :: n) = if x.isStr then (0, .errRuntime) else (x.v, .ok)
  echo : n ≠ [] → (∀ c ∈ n, isNameChar c = true) →
    ∀ rest : List UInt8, (∀ c ∈ rest.head?, isNameChar c = false) → ∀ k m,
      mengShExpandWord vars (k + 1) (36 :: (n ++ rest)) m = mengShExpandWord vars k rest (x.print m)
  others : ∀ n', n' ≠ n →
    (∀ val vars', mengShSetVar vars n' val = .ok vars' → vars'[i]? = some x) ∧
    ∀ labels lineno m rest l' labels' vars' m',
      shCommand labels lineno vars m (ascii ['i', 'n', 'c']) (n' :: rest) =
        .inl (.execute l' labels' vars' m') → vars'[i]? = some x

theorem dollarName_append {rest : List UInt8} (hlen : n.length ≤ 15)
    (hn : ∀ c ∈ n, isNameChar c = true) (hrest : ∀ c ∈ rest.head?, isNameChar c = false) :
    dollarName (n ++ rest) = n := by
  have htake : rest.takeWhile isNameChar = [] := by
    cases rest with
    | nil => rfl
    | cons c cs => simpa using hrest c rfl
  rw [dollarName, List.takeWhile_append_of_pos hn, htake, List.append_nil,
    List.take_of_length_le hlen]

theorem shCommand_inc (labels : List ShLabel) (lineno : Nat) (vars : List ShVar) (m : Machine)
    (n : List UInt8) (rest : List (List UInt8)) :
    shCommand labels lineno vars m (ascii ['i', 'n', 'c']) (n :: rest) =
      match mengShFindVar vars n with
      | some x =>
        if x.isStr then .inr (.errRuntime, m)
        else .inl (.execute (nextLine lineno) labels
          (setFirst (fun x => { x with v := x.v + 1 }) n vars) m)
      | none => .inr (.errRuntime, m) := rfl

theorem Slot.of_set (h : Slot vars n i x) {n' : List UInt8} (hne : n' ≠ n)
    (hset : mengShSetVar vars n' val = .ok vars') :
    Slot vars' n i x := by
  rcases mengShSetVar_ok hset with ⟨j, y, hslot, rfl⟩ | ⟨_, _, rfl⟩
  · rw [← hslot.setFirst (·.store val)]
    exact h.other hne fun y => store_name y val
  · exact h.append _

theorem Slot.actsOn (h : Slot vars n i x) (hlen : n.length ≤ 15) : ActsOn vars n i x where
  slot := h.getElem?
  set := h.set
  inc labels lineno m rest := by
    rw [shCommand_inc, h.find]
    dsimp only
    rw [h.setFirst]
  cond := by
    rw [mengShExpandInt, h.find]
  echo hne hn rest hrest k m := by
    rw [mengShExpandWord, if_pos rfl, dollarName_append hlen hn hrest]
    dsimp only
    rw [List.drop_left, if_neg hne, h.find]
  others n' hne := by
    constructor
    · intro val vars' hset
      exact (h.of_set hne hset).getElem?
    · intro labels lineno m rest l' labels' vars' m' hinc
      rw [shCommand_inc] at hinc
      split at hinc
      · split at hinc
        · cases hinc
        · cases hinc
          exact (h.other (f := fun x => { x with v := x.v + 1 }) hne fun _ => rfl).getElem?
      · cases hinc

/-! ## Runs -/

/-- Line `l` of the script is `set n v`. -/
def SetLine (manifest : List UInt8) (l : Nat) (n v : List UInt8) : Prop :=
  ∃ line rest, mengShFindLine l manifest = some line ∧
    shWords line = ascii ['s', 'e', 't'] :: n :: v :: rest

variable {t s : ShState} {v : List UInt8}

theorem shStep_vars (h : shStep manifest (.execute l labels vars m) = .inl t) :
    ∃ l' vars' m', t = .execute l' labels vars' m' ∧
      ((∃ n v, SetLine manifest l n v ∧ mengShSetVar vars n (setValue v) = .ok vars') ∨
        (∀ n v, ¬ SetLine manifest l n v) ∧
          (vars' = vars ∨ ∃ n, vars' = setFirst (fun x => { x with v := x.v + 1 }) n vars)) := by
  unfold shStep at h
  dsimp only at h
  split at h
  · cases h
  next line hline =>
    have hset : ∀ {ws}, shWords line = ws → ∀ n v, SetLine manifest l n v →
        ∃ rest, ws = ascii ['s', 'e', 't'] :: n :: v :: rest := by
      rintro ws rfl n v ⟨line', rest, hline', hwords⟩
      rw [hline] at hline'
      cases hline'
      exact ⟨rest, hwords⟩
    split at h
    · cases h
    next m' _ =>
      split at h
      next hw =>
        cases h
        exact ⟨_, _, _, rfl, .inr ⟨fun n v hl => by simpa using hset hw n v hl, .inl rfl⟩⟩
      next w args hw =>
        unfold shCommand at h
        dsimp only at h
        split at h
        · cases h
        split at h
        next hcmd =>
          obtain ⟨rfl, hlen⟩ := hcmd
          obtain ⟨n, v, rest, rfl⟩ : ∃ n v rest, args = n :: v :: rest := by
            match args, hlen with
            | n :: v :: rest, _ => exact ⟨n, v, rest, rfl⟩
          split at h
          next vars' hvars =>
            cases h
            exact ⟨_, _, _, rfl, .inl ⟨n, v, ⟨line, rest, hline, hw⟩, hvars⟩⟩
          · cases h
        next hcmd =>
          have hno : ∀ n v, ¬ SetLine manifest l n v := by
            intro n v hl
            obtain ⟨rest, hws⟩ := hset hw n v hl
            cases hws
            exact hcmd ⟨rfl, by simp⟩
          split at h
          · split at h
            · split at h
              · cases h
              · cases h
                exact ⟨_, _, _, rfl, .inr ⟨hno, .inr ⟨_, rfl⟩⟩⟩
            · cases h
          split at h
          · split at h
            · cases h
              exact ⟨_, _, _, rfl, .inr ⟨hno, .inl rfl⟩⟩
            · cases h
          split at h
          · cases h
            exact ⟨_, _, _, rfl, .inr ⟨hno, .inl rfl⟩⟩
          split at h
          · cases h
            exact ⟨_, _, _, rfl, .inr ⟨hno, .inl rfl⟩⟩
          split at h
          · split at h
            · cases h
            · cases h
              exact ⟨_, _, _, rfl, .inr ⟨hno, .inl rfl⟩⟩
            · cases h
              exact ⟨_, _, _, rfl, .inr ⟨hno, .inl rfl⟩⟩
          · cases h

theorem SetLine.unique {n' v' : List UInt8}
    (h : SetLine manifest l n v) (h' : SetLine manifest l n' v') : n = n' := by
  obtain ⟨line, rest, hline, hwords⟩ := h
  obtain ⟨line', rest', hline', hwords'⟩ := h'
  rw [hline] at hline'
  cases hline'
  rw [hwords] at hwords'
  cases hwords'
  rfl

theorem granted_of_step (h : shStep manifest (.execute l labels vars m) = .inl t) :
    (mengMachineStep m).1 = true := by
  unfold shStep at h
  dsimp only at h
  split at h
  · cases h
  · split at h
    · cases h
    next hm => rw [hm]

def names (vars : List ShVar) : List (List UInt8) := vars.map (·.name)

theorem find_eq_none_iff : mengShFindVar vars n = none ↔ n ∉ names vars := by
  simp [mengShFindVar, names]

theorem names_setFirst {f : ShVar → ShVar} (hf : ∀ y, (f y).name = y.name) (n : List UInt8)
    (vars : List ShVar) : names (setFirst f n vars) = names vars := by
  induction vars with
  | nil => rfl
  | cons y vars ih =>
    rw [setFirst]
    split
    · simp [names, hf]
    · simpa [names] using ih

theorem names_set (h : mengShSetVar vars n val = .ok vars') :
    (n ∈ names vars ∧ names vars' = names vars) ∨
      (n ∉ names vars ∧ names vars' = names vars ++ [n.take 15]) := by
  rcases mengShSetVar_ok h with ⟨j, y, hslot, rfl⟩ | ⟨hnone, _, rfl⟩
  · refine .inl ⟨?_, ?_⟩
    · rw [← not_not (a := n ∈ names vars), ← find_eq_none_iff, hslot.find]
      simp
    · rw [← hslot.setFirst (·.store val)]
      exact names_setFirst (fun y => store_name y val) n vars
  · exact .inr ⟨find_eq_none_iff.mp hnone, by simp [names]⟩

/-- The variables of a state; there are none in the first pass. -/
def ShState.table : ShState → List ShVar
  | .collect .. => []
  | .execute _ _ vars _ => vars

/-- The next turn runs the line `set n v`. -/
def ShState.Sets (manifest : List UInt8) (n v : List UInt8) : ShState → Prop
  | .collect .. => False
  | .execute l _ _ _ => SetLine manifest l n v

/-- The state a run of the engine has come to, with the names it has set. -/
inductive Reached (manifest : List UInt8) (m : Machine) :
    Finset (List UInt8) → ShState → Prop where
  | start : Reached manifest m ∅ (.collect 0 [] m)
  | set {used : Finset (List UInt8)} {s t : ShState} {n v : List UInt8} :
      Reached manifest m used s → s.Sets manifest n v → shStep manifest s = .inl t →
      Reached manifest m (insert n used) t
  | other {used : Finset (List UInt8)} {s t : ShState} :
      Reached manifest m used s → (∀ n v, ¬ s.Sets manifest n v) → shStep manifest s = .inl t →
      Reached manifest m used t

theorem shStep_names (h : shStep manifest s = .inl t) :
    (∃ n v, s.Sets manifest n v ∧ ((n ∈ names s.table ∧ names t.table = names s.table) ∨
      (n ∉ names s.table ∧ names t.table = names s.table ++ [n.take 15]))) ∨
    ((∀ n v, ¬ s.Sets manifest n v) ∧ names t.table = names s.table) := by
  cases s with
  | collect l labels m =>
    refine .inr ⟨fun _ _ => id, ?_⟩
    simp only [shStep] at h
    split at h <;> cases h <;> rfl
  | execute l labels vars m =>
    obtain ⟨l', vars', m', rfl, ⟨n, v, hline, hset⟩ | ⟨hno, hvars⟩⟩ := shStep_vars h
    · exact .inl ⟨n, v, hline, names_set hset⟩
    · refine .inr ⟨hno, ?_⟩
      rcases hvars with rfl | ⟨n, rfl⟩
      · rfl
      · exact names_setFirst (f := fun x => { x with v := x.v + 1 }) (fun _ => rfl) n vars

variable {used : Finset (List UInt8)}

theorem Reached.cut
    (h : Reached manifest m used s) : ∀ n ∈ names s.table, n.length ≤ 15 := by
  have hstep : ∀ {s t : ShState}, shStep manifest s = .inl t →
      (∀ n ∈ names s.table, n.length ≤ 15) → ∀ n ∈ names t.table, n.length ≤ 15 := by
    intro s t hst hs
    rcases shStep_names hst with ⟨n, v, _, ⟨_, heq⟩ | ⟨_, heq⟩⟩ | ⟨_, heq⟩
    · rwa [heq]
    · rw [heq]
      intro x hx
      rcases List.mem_append.mp hx with hx | hx
      · exact hs x hx
      · rw [List.mem_singleton.mp hx]
        exact List.length_take_le 15 n
    · rwa [heq]
  induction h with
  | start => exact fun n hn => absurd hn List.not_mem_nil
  | set _ _ hst ih | other _ _ hst ih => exact hstep hst ih

theorem slot_steps {k l' : Nat} {labels' : List ShLabel} {m' : Machine} (h : ∃ x, Slot vars n i x)
    (hsteps : Steps (shStep manifest) k (.execute l labels vars m) (.execute l' labels' vars' m')) :
    ∃ x, Slot vars' n i x := by
  let P : ShState → Prop
    | .collect .. => False
    | .execute _ _ vars _ => ∃ x, Slot vars n i x
  refine Steps.invariant (P := P) ?_ hsteps h
  intro s t hs hst
  cases s with
  | collect => exact hs.elim
  | execute l labels vars m =>
    obtain ⟨x, hx⟩ := hs
    have hname := hx.name_eq
    obtain ⟨l', vars', m', rfl, ⟨n', v, _, hset⟩ | ⟨_, hvars⟩⟩ := shStep_vars hst
    · by_cases hn : n' = n
      · subst hn
        rw [hx.set] at hset
        cases hset
        exact ⟨_, hx.update (by rwa [store_name])⟩
      · exact ⟨x, hx.of_set hn hset⟩
    · rcases hvars with rfl | ⟨n', rfl⟩
      · exact ⟨x, hx⟩
      · by_cases hn : n' = n
        · subst hn
          rw [hx.setFirst]
          exact ⟨_, hx.update hname⟩
        · exact ⟨x, hx.other (f := fun x => { x with v := x.v + 1 }) hn fun _ => rfl⟩

/-- A run of the engine has come to the line `set n v`, which is granted its step, and with `n`
there are at most 16 distinct names in use. -/
structure Setting (manifest : List UInt8) (m : Machine) (n v : List UInt8) (l : Nat)
    (labels : List ShLabel) (vars : List ShVar) (m' : Machine) : Prop where
  line : SetLine manifest l n v
  granted : (mengMachineStep m').1 = true
  reached : ∃ used, Reached manifest m used (.execute l labels vars m') ∧
    (insert n used).card ≤ shMaxVars

/-- The line `set n v` stores its value in a slot and changes no other, and in every later state of
the run the commands that name `n` act on this slot. -/
def SetActs (manifest n v : List UInt8) (l : Nat) (labels : List ShLabel) (vars : List ShVar)
    (m : Machine) : Prop :=
  ∃ i vars' m', shStep manifest (.execute l labels vars m) =
      .inl (.execute (nextLine l) labels vars' m') ∧
    (∃ x : ShVar, x.name = n ∧ vars'[i]? = some (x.store (setValue v))) ∧
    (∀ j, j ≠ i → vars'[j]? = vars[j]?) ∧
    ∀ k l₂ labels₂ vars₂ m₂, Steps (shStep manifest) k (.execute (nextLine l) labels vars' m')
      (.execute l₂ labels₂ vars₂ m₂) → ∃ x, ActsOn vars₂ n i x

theorem shStep_set (hline : SetLine manifest l n v)
    (hm : (mengMachineStep m).1 = true) (labels : List ShLabel) (vars : List ShVar) :
    shStep manifest (.execute l labels vars m) =
      match mengShSetVar vars n (setValue v) with
      | .ok vars => .inl (.execute (nextLine l) labels vars (mengMachineStep m).2)
      | .error st => .inr (st, (mengMachineStep m).2) := by
  obtain ⟨line, rest, hline, hwords⟩ := hline
  unfold shStep
  dsimp only
  rw [hline]
  dsimp only
  rw [hwords]
  cases hstep : mengMachineStep m with
  | mk granted m' =>
    rw [hstep] at hm
    cases hm
    rfl

/-- The names of a table are the names set so far, each in a slot of its own. -/
structure TableOf (used : Finset (List UInt8)) (vars : List ShVar) : Prop where
  nodup : (names vars).Nodup
  mem : ∀ n, n ∈ names vars ↔ n ∈ used

theorem TableOf.length (h : TableOf used vars) : vars.length = used.card := by
  have hused : used = (names vars).toFinset := by
    ext n
    rw [List.mem_toFinset, h.mem]
  rw [hused, List.toFinset_card_of_nodup h.nodup, names, List.length_map]

theorem Reached.tableOf
    (hshort : ∀ n v l labels vars m', Setting manifest m n v l labels vars m' → n.length ≤ 15)
    (h : Reached manifest m used s)
    (hcard : used.card ≤ shMaxVars) : TableOf used s.table := by
  induction h with
  | start => exact ⟨List.nodup_nil, fun n => by simp [ShState.table, names]⟩
  | @set used s t n v hr hsets hst ih =>
    have ih := ih (le_trans (Finset.card_le_card (Finset.subset_insert n used)) hcard)
    have hlen : n.length ≤ 15 := by
      cases s with
      | collect => exact hsets.elim
      | execute l labels vars m' =>
        exact hshort n v l labels vars m' ⟨hsets, granted_of_step hst, used, hr, hcard⟩
    rcases shStep_names hst with ⟨n', v', hsets', hnames⟩ | ⟨hno, _⟩
    · obtain rfl : n = n' := by
        cases s with
        | collect => exact hsets.elim
        | execute => exact SetLine.unique hsets hsets'
      rw [List.take_of_length_le hlen] at hnames
      rcases hnames with ⟨hmem, heq⟩ | ⟨hmem, heq⟩
      · have hin : n ∈ used := (ih.mem n).mp hmem
        rw [Finset.insert_eq_of_mem hin]
        exact ⟨by rw [heq]; exact ih.nodup, fun x => by rw [heq]; exact ih.mem x⟩
      · refine ⟨?_, fun x => ?_⟩
        · rw [heq, List.nodup_append_comm]
          exact List.nodup_cons.mpr ⟨hmem, ih.nodup⟩
        · rw [heq, List.mem_append, List.mem_singleton, ih.mem, Finset.mem_insert, or_comm]
    · exact absurd hsets (hno n v)
  | @other used s t hr hno hst ih =>
    rcases shStep_names hst with ⟨n, v, hsets, _⟩ | ⟨_, heq⟩
    · exact absurd hsets (hno n v)
    · have ih := ih hcard
      exact ⟨by rw [heq]; exact ih.nodup, fun n => by rw [heq]; exact ih.mem n⟩

theorem SetActs.short {m' : Machine} (h : SetActs manifest n v l labels vars m')
    (hreach : Reached manifest m used (.execute l labels vars m'))
    (hline : SetLine manifest l n v) : n.length ≤ 15 := by
  obtain ⟨i, vars', m₁, hst, _, _, hlater⟩ := h
  obtain ⟨x, hacts⟩ := hlater 0 _ _ _ _ (.refl _)
  have hcut := (Reached.set hreach hline hst).cut
  by_contra hlong
  -- the name is not found again, so a second `set` cannot keep the number of slots
  have hnone : mengShFindVar vars' n = none := find_eq_none_iff.mpr fun hmem => hlong (hcut n hmem)
  have hset := hacts.set (setValue v)
  rcases mengShSetVar_ok hset with ⟨j, y, hslot, _⟩ | ⟨_, _, heq⟩
  · rw [hslot.find] at hnone
    cases hnone
  · have hlen := congrArg List.length heq
    simp at hlen

theorem setActs_of_short (htable : TableOf used vars)
    (hcard : (insert n used).card ≤ shMaxVars) (hline : SetLine manifest l n v)
    (hm : (mengMachineStep m).1 = true) (hlen : n.length ≤ 15) :
    SetActs manifest n v l labels vars m := by
  have hst := shStep_set hline hm labels vars
  cases hfind : mengShFindVar vars n with
  | some x =>
    obtain ⟨i, hslot⟩ := slot_of_find hfind
    rw [hslot.set] at hst
    have hnew := hslot.update (y := x.store (setValue v)) (by rw [store_name, hslot.name_eq])
    refine ⟨i, _, _, hst, ⟨x, hslot.name_eq, hnew.getElem?⟩, fun j hj => ?_, ?_⟩
    · exact List.getElem?_set_ne (Ne.symm hj)
    · intro k l₂ labels₂ vars₂ m₂ hsteps
      obtain ⟨y, hy⟩ := slot_steps ⟨_, hnew⟩ hsteps
      exact ⟨y, hy.actsOn hlen⟩
  | none =>
    have hmem : n ∉ used := fun h => find_eq_none_iff.mp hfind ((htable.mem n).mpr h)
    rw [Finset.card_insert_of_notMem hmem, ← htable.length] at hcard
    have hset : mengShSetVar vars n (setValue v) =
        .ok (vars ++ [ShVar.store ⟨n, false, 0, []⟩ (setValue v)]) := by
      rw [mengShSetVar, hfind]
      dsimp only
      rw [if_neg (by omega), List.take_of_length_le hlen]
    rw [hset] at hst
    have hnew : Slot (vars ++ [ShVar.store ⟨n, false, 0, []⟩ (setValue v)]) n vars.length
        (ShVar.store ⟨n, false, 0, []⟩ (setValue v)) := by
      refine ⟨vars, [], rfl, rfl, store_name _ _, fun y hy hyn => ?_⟩
      exact find_eq_none_iff.mp hfind (List.mem_map.mpr ⟨y, hy, hyn⟩)
    refine ⟨vars.length, _, _, hst, ⟨_, rfl, hnew.getElem?⟩, fun j hj => ?_, ?_⟩
    · rcases Nat.lt_or_gt_of_ne hj with hlt | hgt
      · exact List.getElem?_append_left hlt
      · rw [List.getElem?_eq_none (by simp; omega), List.getElem?_eq_none (by omega)]
    · intro k l₂ labels₂ vars₂ m₂ hsteps
      obtain ⟨y, hy⟩ := slot_steps ⟨_, hnew⟩ hsteps
      exact ⟨y, hy.actsOn hlen⟩

/-- In the runs of a script, every `set n v` with at most 16 names in use gives `n` a slot that the
commands naming `n` act on ever after, just when every such name has at most 15 characters. -/
theorem setActs_iff (manifest : List UInt8) (m : Machine) :
    (∀ n v l labels vars m', Setting manifest m n v l labels vars m' →
      SetActs manifest n v l labels vars m') ↔
    ∀ n v l labels vars m', Setting manifest m n v l labels vars m' → n.length ≤ 15 := by
  constructor
  · intro h n v l labels vars m' hs
    obtain ⟨used, hreach, _⟩ := hs.reached
    exact (h n v l labels vars m' hs).short hreach hs.line
  · intro hshort n v l labels vars m' hs
    obtain ⟨used, hreach, hcard⟩ := hs.reached
    have htable := hreach.tableOf hshort
      (le_trans (Finset.card_le_card (Finset.subset_insert n used)) hcard)
    exact setActs_of_short htable hcard hs.line hs.granted (hshort n v l labels vars m' hs)

def longName : List UInt8 :=
  ascii ['a', 'b', 'c', 'd', 'e', 'f', 'g', 'h', 'i', 'j', 'k', 'l', 'm', 'n', 'o', 'p']

def longNameScript : List UInt8 :=
  ascii ['s', 'e', 't', ' '] ++ longName ++ ascii [' ', '1', '\n', 'i', 'n', 'c', ' '] ++ longName

/-- The script fails at its second line, for a variable that was just set. -/
theorem longNameScript_fails :
    (∃ m, ShReturns default longNameScript (.errRuntime, m)) ∧
    ¬ ∀ n v l labels vars m', Setting longNameScript default n v l labels vars m' →
      SetActs longNameScript n v l labels vars m' := by
  have hline : SetLine longNameScript 0 longName (ascii ['1']) :=
    ⟨longNameScript.takeWhile (· ≠ 10), [], rfl, by decide⟩
  have hcollect : Steps (shStep longNameScript) 3 (.collect 0 [] default)
      (.execute 0 [] [] default) := .head rfl (.head rfl (.one rfl))
  have hset : shStep longNameScript (.execute 0 [] [] default) =
      .inl (.execute 1 [] [⟨longName.take 15, false, 1, []⟩] (mengMachineStep default).2) := rfl
  refine ⟨⟨_, 4, _, hcollect.tail hset, rfl⟩, fun h => ?_⟩
  have hreach : Reached longNameScript default ∅ (.execute 0 [] [] default) := by
    refine .other (s := .collect 2 [] default) (.other (s := .collect 1 [] default)
      (.other .start ?_ rfl) ?_ rfl) ?_ rfl
    all_goals exact fun _ _ hs => hs
  have hshort := (h _ _ _ _ _ _ ⟨hline, rfl, ∅, hreach, by decide⟩).short hreach hline
  exact absurd hshort (by decide)

end Engines
