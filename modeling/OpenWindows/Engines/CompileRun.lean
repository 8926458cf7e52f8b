import OpenWindows.Engines.KernelSafety
import OpenWindows.Engines.ExprRun
import OpenWindows.Engines.Blocks

/-!
# Running a compiled program

The core run of a program's code follows its direct evaluation.  Between two
statements the value stack is empty, the globals are the store, and the machine
has printed the texts of the evaluation (`At`).

An evaluation that ends is followed to its end.  An evaluation that is cut off
after `n` statements is followed through at least `n` turns of the kernel, so a
kernel run that ends belongs to an evaluation that ends.
-/

namespace Engines

open StepSystem

/-! ## Output -/

/-- The same output. -/
structure Machine.SameOutput (m m' : Machine) : Prop where
  out : m.out = m'.out
  outCap : m.outCap = m'.outCap
  outLen : m.outLen = m'.outLen
  outTotal : m.outTotal = m'.outTotal
  flags : m.flags = m'.flags

theorem Machine.SameOutput.emit {m m' : Machine} (h : m.SameOutput m') (p : List UInt8) :
    (m.emit p).SameOutput (m'.emit p) := by
  obtain ⟨out, cap, len, total, tick, budget, steps, flags, gen, scratch, slen, num⟩ := m
  obtain ⟨hout, hcap, hlen, htot, hflags⟩ := h
  dsimp only at hout hcap hlen htot hflags
  subst hout hcap hlen htot hflags
  unfold Machine.emit mengMachineOut
  dsimp only
  cases m'.out with
  | none => exact ⟨rfl, rfl, rfl, rfl, rfl⟩
  | some buf =>
    dsimp only
    split
    · exact ⟨rfl, rfl, rfl, rfl, rfl⟩
    · split
      · exact ⟨rfl, rfl, rfl, rfl, rfl⟩
      · exact ⟨rfl, rfl, rfl, rfl, rfl⟩

/-- The machine `m` has printed the texts `out` since it was `m₀`. -/
def Shows (m₀ : Machine) (out : List (List UInt8)) (m : Machine) : Prop :=
  m.SameOutput (out.foldl Machine.emit m₀)

variable {out : List (List UInt8)}

theorem Shows.emit {m₀ m : Machine} (h : Shows m₀ out m)
    (p : List UInt8) : Shows m₀ (out ++ [p]) (m.emit p) := by
  unfold Shows
  rw [List.foldl_append]
  exact Machine.SameOutput.emit h p

theorem Shows.emitInt {m₀ m : Machine} (h : Shows m₀ out m)
    (v : BitVec 64) : Shows m₀ (out ++ [decimal v.toInt]) (mengMachineOutInt m v).2 := by
  have hnum : Shows m₀ out { m with num := mengItoa v numBufSize } := ⟨h.1, h.2, h.3, h.4, h.5⟩
  rw [← mengItoa_eq_decimal]
  exact hnum.emit (mengItoa v numBufSize)

/-! ## Words -/

section

variable {E : KEnv} {words : List Word} {s : KState} {rest : List (BitVec 64)}

variable {v : BitVec 64}

theorem coreStep_gstore {i : Nat}
    (hw : words[s.pc]? = some (Word.mk' .gstore (BitVec.ofNat 64 i) 0)) (hi : i < 2 ^ 63)
    (hg : i < s.g.length) (hs : s.cells = tInt :: v :: rest) :
    coreStep E words s = .inl { s with g := s.g.set i v, cells := rest, pc := s.pc + 1 } := by
  rw [coreStep_word hw]
  simp only [exec, Word.mk', Op.ofCode?_code, ofNat_not_slt_zero hi, ofNat_toNat_of_lt hi]
  rw [if_neg (by simp; omega)]
  simp only [KState.popInt, hs, mengCellType_tInt, ne_eq, not_true_eq_false, if_false, if_pos hg]

theorem coreStep_printInt (hw : words[s.pc]? = some (Word.plain .print))
    (hs : s.cells = tInt :: v :: rest) :
    coreStep E words s =
      .inl { s with m := (mengMachineOutInt s.m v).2, cells := rest, pc := s.pc + 1 } := by
  rw [coreStep_word hw]
  simp only [exec, Word.mk', Op.ofCode?_code, hs, mengCellType_tInt, if_true]

theorem coreStep_pushs {so sl : Nat} (hso : so < 2 ^ 63) (hsl : sl < 2 ^ 63)
    (hw : words[s.pc]? = some (Word.mk' .pushs (BitVec.ofNat 64 so) (BitVec.ofNat 64 sl)))
    (hroom : s.cells.length + 2 ≤ stackCells) :
    coreStep E words s =
      if so + sl ≤ poolSize then
        .inl { s with
          cells := strMeta sl :: BitVec.ofNat 64 (E.poolAddr + so) :: s.cells, pc := s.pc + 1 }
      else .inr ⟨.status .errRuntime, s.m, s.g⟩ := by
  rw [coreStep_word hw]
  simp only [exec, Word.mk', Op.ofCode?_code, ofNat_not_slt_zero hso, ofNat_not_slt_zero hsl,
    ofNat_toNat_of_lt hso, ofNat_toNat_of_lt hsl]
  rw [if_neg (by simp)]
  by_cases hfit : so + sl ≤ poolSize
  · rw [if_pos hfit, if_neg (by omega)]
    exact push_of_room hroom
  · rw [if_neg hfit, if_pos (by omega)]
    rfl

theorem KEnv.loadBytes_pool (E : KEnv) (scratch : Nat → UInt8) {so n : Nat}
    (h : so + n ≤ poolSize) :
    E.loadBytes scratch (E.poolAddr + so) n = some (poolString E.pool so n) := by
  induction n generalizing so with
  | zero => rfl
  | succ n ih =>
    have hload : E.load scratch (E.poolAddr + so) = some (E.pool so) := by
      rw [KEnv.load, if_pos ⟨by omega, by omega⟩, Nat.add_sub_cancel_left]
    rw [KEnv.loadBytes, hload, Nat.add_assoc, ih (by omega)]
    simp only [poolString, List.range'_succ, List.map_cons]

theorem coreStep_printStr {so sl : Nat} (hfit : so + sl ≤ poolSize)
    (hw : words[s.pc]? = some (Word.plain .print))
    (hs : s.cells = strMeta sl :: BitVec.ofNat 64 (E.poolAddr + so) :: rest) :
    coreStep E words s =
      .inl { s with m := s.m.emit (poolString E.pool so sl), cells := rest, pc := s.pc + 1 } := by
  have hmax := E.pool_fits
  have haddr : (BitVec.ofNat 64 (E.poolAddr + so)).toNat = E.poolAddr + so := by
    rw [BitVec.toNat_ofNat, Nat.mod_eq_of_lt (by omega)]
  rw [coreStep_word hw]
  simp only [exec, Word.mk', Op.ofCode?_code, hs, mengCellType_strMeta (l := sl) (by omega)]
  rw [if_neg (by decide), if_pos trivial, haddr, mengCellStrlen_strMeta (by omega),
    E.loadBytes_pool _ hfit]
  rfl

theorem jump_of_le {nw target : Nat} (hnw : nw < 2 ^ 63) (h : target ≤ nw) :
    s.jump nw (BitVec.ofNat 64 target) = .inl { s with pc := target } := by
  unfold KState.jump
  rw [ofNat_not_slt_zero (by omega), ofNat_toNat_of_lt (by omega), if_neg (by simp; omega)]

theorem coreStep_jmp {target : Nat} (hnw : words.length < 2 ^ 63) (h : target ≤ words.length)
    (hw : words[s.pc]? = some (jmpTo target)) :
    coreStep E words s = .inl { s with pc := target } := by
  rw [coreStep_word hw]
  simp only [exec, Word.mk', Op.ofCode?_code]
  exact jump_of_le hnw h

theorem coreStep_jnz {target : Nat} (hnw : words.length < 2 ^ 63) (h : target ≤ words.length)
    (hw : words[s.pc]? = some (Word.mk' .jnz (BitVec.ofNat 64 target) 0))
    (hs : s.cells = tInt :: v :: rest) :
    coreStep E words s =
      .inl { s with cells := rest, pc := if v = 0 then s.pc + 1 else target } := by
  rw [coreStep_word hw]
  simp only [exec, Word.mk', Op.ofCode?_code, KState.popInt, hs, mengCellType_tInt, ne_eq,
    not_true_eq_false, if_false]
  by_cases hv : v = 0
  · simp only [hv, not_true_eq_false, if_false, if_true]
  · simp only [hv, not_false_eq_true, if_true, if_false]
    exact jump_of_le hnw h

end

/-! ## Following an evaluation -/

/-- Between two statements the kernel is where the evaluation is. -/
structure At (vars : List Ident) (m₀ : Machine) (π : Progress) (s : KState) : Prop where
  cells : s.cells = []
  store : storeOf vars s.g = π.store
  room : vars.length ≤ s.g.length
  globals : s.g.length ≤ kGlobals
  shows : Shows m₀ π.out s.m

/-- How the kernel ends for an evaluation that ends with an error. -/
def Finish.exit : Finish → Exit
  | .ok => .status .ok
  | .runtimeError => .status .errRuntime
  | .overflow => .fault .divOverflow

/-- A result of the kernel is the end of an evaluation. -/
structure Matches (vars : List Ident) (m₀ : Machine) (f : Finish) (π : Progress) (r : KResult) :
    Prop where
  exit : r.exit = f.exit
  store : storeOf vars r.g = π.store
  shows : Shows m₀ π.out r.m

/-- From `s` the core run follows an evaluation, to the word `stop` if the
evaluation ends well. -/
def Follows (E : KEnv) (words : List Word) (vars : List Ident) (m₀ : Machine) (stop n : Nat)
    (s : KState) (r : Option (Finish × Progress)) : Prop :=
  match r with
  | none => ∃ k t, n ≤ k ∧ Steps (coreStep E words) k s t
  | some (.ok, π) => ∃ k t, Steps (coreStep E words) k s t ∧ At vars m₀ π t ∧ t.pc = stop
  | some (f, π) => ∃ k r, Halts (coreStep E words) k s r ∧ Matches vars m₀ f π r

section

variable {E : KEnv} {words : List Word} {vars : List Ident} {m₀ : Machine} {π : Progress}
variable {s t : KState} {stop n k : Nat} {r : Option (Finish × Progress)}

theorem Follows.after {d : Nat} (hs : Steps (coreStep E words) k s t) (hd : d ≤ k)
    (h : Follows E words vars m₀ stop n t r) : Follows E words vars m₀ stop (n + d) s r := by
  match r, h with
  | none, h =>
    obtain ⟨j, u, hj, hu⟩ := h
    exact ⟨k + j, u, by omega, hs.trans hu⟩
  | some (.ok, π), h =>
    obtain ⟨j, u, hu, hat, hpc⟩ := h
    exact ⟨k + j, u, hs.trans hu, hat, hpc⟩
  | some (.runtimeError, π), h | some (.overflow, π), h =>
    obtain ⟨j, r, hh, hm⟩ := h
    exact ⟨k + j, r, .of_steps hs hh, hm⟩

theorem Follows.andThen (mid : Nat) {f : Progress → Option (Finish × Progress)}
    (h : Follows E words vars m₀ mid n s r)
    (hf : ∀ π t, At vars m₀ π t → t.pc = mid → Follows E words vars m₀ stop n t (f π)) :
    Follows E words vars m₀ stop n s (Engines.andThen r f) := by
  match r, h with
  | none, h => exact h
  | some (.ok, π), h =>
    obtain ⟨j, u, hu, hat, hpc⟩ := h
    have hnext := Follows.after hu (Nat.zero_le j) (hf π u hat hpc)
    exact hnext
  | some (.runtimeError, π), h => exact h
  | some (.overflow, π), h => exact h

variable {c : Cond} {f : BitVec 64 → Option (Finish × Progress)}

theorem Follows.withValue (hat : At vars m₀ π s) (hseg : Segment words s.pc (c.code vars.idxOf))
    (hneed : c.need ≤ pyMaxTok) (hdecl : ∀ x ∈ c.names, x ∈ vars)
    (hf : ∀ v, Follows E words vars m₀ stop n (s.pushed c.size v) (f v)) :
    Follows E words vars m₀ stop (n + 1) s (Engines.withValue (c.outcome π.store) π f) := by
  have hroom : s.cells.length + 2 * c.need ≤ stackCells := by
    rw [hat.cells]
    simp only [pyMaxTok] at hneed
    simp only [List.length_nil, stackCells]
    omega
  have hrun := c.runs (E := E) hseg hroom hdecl hat.room hat.globals
  rw [hat.store] at hrun
  cases hr : c.outcome π.store with
  | value v =>
    rw [hr] at hrun
    exact Follows.after hrun c.size_pos (hf v)
  | divZero | overflow =>
    rw [hr] at hrun
    obtain ⟨j, _, hh⟩ := hrun
    exact ⟨j, _, hh, rfl, hat.store, hat.shows⟩

theorem Follows.test (target : Nat) (hnw : words.length < 2 ^ 63) (htarget : target ≤ words.length)
    (hat : At vars m₀ π s) (hseg : Segment words s.pc (testCode vars.idxOf c target))
    (hneed : c.need ≤ pyMaxTok) (hdecl : ∀ x ∈ c.names, x ∈ vars)
    (hzero : ∀ t, At vars m₀ π t → t.pc = target → Follows E words vars m₀ stop n t (f 0))
    (hother : ∀ v t, v ≠ 0 → At vars m₀ π t → t.pc = s.pc + (c.size + 3) →
      Follows E words vars m₀ stop n t (f v)) :
    Follows E words vars m₀ stop (n + 1) s (Engines.withValue (c.outcome π.store) π f) := by
  refine .withValue hat hseg.left hneed hdecl fun v => ?_
  have htail := hseg.right
  rw [Cond.length_code] at htail
  have hcells := hat.cells
  -- the two words that compare with zero, and the jump
  have h1 : coreStep E words (s.pushed c.size v) = .inl _ :=
    coreStep_pushi htail.head (by simp [KState.pushed, hcells, stackCells])
  have h2 : coreStep E words _ = .inl _ := coreStep_compare (E := E)
    (s := { s.pushed c.size v with
      cells := tInt :: 0 :: (s.pushed c.size v).cells, pc := s.pc + c.size + 1 })
    (.inl rfl) htail.tail.head rfl
  have h3 : coreStep E words _ = .inl _ := coreStep_jnz (E := E)
    (s := { s.pushed c.size v with
      cells := tInt :: boolVal (compare .cmpeq v 0) :: s.cells, pc := s.pc + c.size + 1 + 1 })
    hnw htarget htail.tail.tail.head rfl
  have hsteps := (Steps.head h1 (Steps.head h2 (Steps.one h3)))
  refine Follows.after (d := 0) hsteps (Nat.zero_le _) ?_
  by_cases hv : v = 0
  · subst hv
    refine hzero _ ⟨hcells, hat.store, hat.room, hat.globals, hat.shows⟩ ?_
    rfl
  · refine hother v _ hv ⟨hcells, hat.store, hat.room, hat.globals, hat.shows⟩ ?_
    have hcmp : boolVal (compare .cmpeq v 0) = 0 := by
      simp only [compare, boolVal, beq_iff_eq, hv, if_false]
    simp only [hcmp, if_true, Nat.add_assoc]

/-! ## Statements -/

theorem storeOf_set {g : List (BitVec 64)} {x : Ident} {v : BitVec 64} (hx : x ∈ vars)
    (hg : vars.length ≤ g.length) :
    storeOf vars (g.set (vars.idxOf x) v) = Function.update (storeOf vars g) x v := by
  have hlt : vars.idxOf x < g.length := Nat.lt_of_lt_of_le (List.idxOf_lt_length_of_mem hx) hg
  funext y
  by_cases hy : y = x
  · subst hy
    simp [storeOf, List.getD_eq_getElem?_getD, hlt]
  · have hne : vars.idxOf x ≠ vars.idxOf y := by
      intro heq
      exact hy ((List.idxOf_inj hx).mp heq).symm
    simp [storeOf, List.getD_eq_getElem?_getD, hne, Function.update_of_ne hy]

/-- The code of `p` lies at the program counter of `s` and ends at `stop`, with slots for its
names and cells for its expressions. -/
structure Placed (words : List Word) (vars : List Ident) (m₀ : Machine) (p : Prog) (π : Progress)
    (s : KState) (stop : Nat) : Prop where
  here : At vars m₀ π s
  segment : Segment words s.pc (p.code vars.idxOf s.pc)
  declared : ∀ x ∈ p.names, x ∈ vars
  need : p.need ≤ pyMaxTok
  stop : stop = s.pc + p.size

/-- The core run follows every program for `n` statements. -/
def FollowsAll (E : KEnv) (words : List Word) (vars : List Ident) (m₀ : Machine) (n : Nat) : Prop :=
  ∀ {p π s stop}, Placed words vars m₀ p π s stop →
    Follows E words vars m₀ stop n s (p.eval E.pool n π)

theorem follows_assign (ih : FollowsAll E words vars m₀ n) {x : Ident} {rest : Prog}
    (hp : Placed words vars m₀ (.assign x c rest) π s stop) :
    Follows E words vars m₀ stop (n + 1) s ((Prog.assign x c rest).eval E.pool (n + 1) π) := by
  obtain ⟨hat, hseg, hdecl, hneed, hstop⟩ := hp
  have hx : x ∈ vars := hdecl x (by simp [Prog.names])
  have hlt := List.idxOf_lt_length_of_mem hx
  have hkg : kGlobals = 64 := rfl
  have hroom := hat.room
  have hglob := hat.globals
  obtain ⟨hnc, hnr⟩ := Nat.max_le.mp hneed
  refine .withValue hat hseg.left.left hnc (fun y hy => hdecl y (by simp [Prog.names, hy]))
    fun v => ?_
  have hw := hseg.left.right.head
  have hrest := hseg.right
  rw [Cond.length_code] at hw
  rw [List.length_append, Cond.length_code, List.length_singleton] at hrest
  have hstep : coreStep E words (s.pushed c.size v) = .inl _ :=
    coreStep_gstore (s := s.pushed c.size v) hw
      (show vars.idxOf x < 2 ^ 63 by omega) (show vars.idxOf x < s.g.length by omega) rfl
  refine Follows.after (d := 0) (.one hstep) (Nat.zero_le _) ?_
  refine ih ⟨⟨hat.cells, ?_, ?_, ?_, hat.shows⟩, hrest,
    fun y hy => hdecl y (by simp [Prog.names, hy]), hnr, ?_⟩
  · exact (storeOf_set hx hat.room).trans (by rw [hat.store])
  · simpa [KState.pushed] using hroom
  · simpa [KState.pushed] using hglob
  · rw [hstop]
    simp only [Prog.size, KState.pushed]
    omega

theorem follows_print (ih : FollowsAll E words vars m₀ n) {rest : Prog}
    (hp : Placed words vars m₀ (.print c rest) π s stop) :
    Follows E words vars m₀ stop (n + 1) s ((Prog.print c rest).eval E.pool (n + 1) π) := by
  obtain ⟨hat, hseg, hdecl, hneed, hstop⟩ := hp
  obtain ⟨hnc, hnr⟩ := Nat.max_le.mp hneed
  refine .withValue hat hseg.left.left hnc (fun y hy => hdecl y (by simp [Prog.names, hy]))
    fun v => ?_
  have hw := hseg.left.right.head
  have hrest := hseg.right
  rw [Cond.length_code] at hw
  rw [List.length_append, Cond.length_code, List.length_singleton] at hrest
  have hstep : coreStep E words (s.pushed c.size v) = .inl _ :=
    coreStep_printInt (s := s.pushed c.size v) hw rfl
  refine Follows.after (d := 0) (.one hstep) (Nat.zero_le _) ?_
  refine ih ⟨⟨hat.cells, hat.store, hat.room, hat.globals, hat.shows.emitInt v⟩, hrest,
    fun y hy => hdecl y (by simp [Prog.names, hy]), hnr, ?_⟩
  rw [hstop]
  simp only [Prog.size, KState.pushed]
  omega

theorem follows_printStr (ih : FollowsAll E words vars m₀ n) {so sl : UInt32} {rest : Prog}
    (hp : Placed words vars m₀ (.printStr so sl rest) π s stop) :
    Follows E words vars m₀ stop (n + 1) s ((Prog.printStr so sl rest).eval E.pool (n + 1) π) := by
  obtain ⟨hat, hseg, hdecl, hneed, hstop⟩ := hp
  have hso := so.toNat_lt
  have hsl := sl.toNat_lt
  have hseg2 : Segment words s.pc (printStrCode so sl) := hseg.left
  have hpush := coreStep_pushs (E := E) (s := s) (show so.toNat < 2 ^ 63 by omega)
    (show sl.toNat < 2 ^ 63 by omega) hseg2.head (by simp [hat.cells, stackCells])
  simp only [Prog.eval]
  by_cases hfit : so.toNat + sl.toNat ≤ poolSize
  · rw [if_pos hfit] at hpush ⊢
    have hprint : coreStep E words _ = .inl _ := coreStep_printStr (E := E) hfit
      (s := { s with
        cells := strMeta sl.toNat :: BitVec.ofNat 64 (E.poolAddr + so.toNat) :: s.cells,
        pc := s.pc + 1 }) hseg2.tail.head rfl
    refine Follows.after (d := 1) (.head hpush (.one hprint)) (by omega) ?_
    refine ih ⟨⟨hat.cells, hat.store, hat.room, hat.globals, hat.shows.emit _⟩, hseg.right,
      hdecl, hneed, ?_⟩
    rw [hstop]
    simp only [Prog.size]
    omega
  · rw [if_neg hfit] at hpush ⊢
    exact ⟨0, _, ⟨s, .refl s, hpush⟩, rfl, hat.store, hat.shows⟩

theorem follows_loop (ih : FollowsAll E words vars m₀ n) (hnw : words.length < 2 ^ 63)
    {body rest : Prog}
    (hp : Placed words vars m₀ (.loop c body rest) π s stop) :
    Follows E words vars m₀ stop (n + 1) s ((Prog.loop c body rest).eval E.pool (n + 1) π) := by
  obtain ⟨hat, hseg, hdecl, hneed, hstop⟩ := hp
  have hwhole := hseg
  simp only [Prog.code] at hseg
  obtain ⟨hnc, hn⟩ := Nat.max_le.mp hneed
  obtain ⟨hnb, hnr⟩ := Nat.max_le.mp hn
  have hjmp := hseg.left.right.head
  have hrest := hseg.right
  have hbody := hseg.left.left.right
  simp only [List.length_append, length_testCode, Prog.length_code, List.length_singleton]
    at hjmp hrest hbody
  have hend := hwhole.le
  rw [Prog.length_code] at hend
  simp only [Prog.size] at hstop hend
  refine .test (s.pc + (c.size + 3) + body.size + 1) hnw (by omega) hat hseg.left.left.left
    hnc (fun y hy => hdecl y (by simp [Prog.names, hy])) ?_ ?_
  · intro t hatt hpc
    rw [if_pos rfl]
    refine ih ⟨hatt, ?_, fun y hy => hdecl y (by simp [Prog.names, hy]), hnr, by omega⟩
    rw [hpc]
    simpa only [Nat.add_assoc] using hrest
  · intro v t hv hatt hpc
    rw [if_neg hv]
    refine .andThen (s.pc + (c.size + 3) + body.size)
      (ih ⟨hatt, by rw [hpc]; exact hbody, fun y hy => hdecl y (by simp [Prog.names, hy]),
        hnb, by omega⟩) ?_
    -- the jump back to the test
    intro π' u hatu hpcu
    have hback : coreStep E words u = .inl { u with pc := s.pc } :=
      coreStep_jmp hnw (by omega) (by rw [hpcu, Nat.add_assoc]; exact hjmp)
    refine Follows.after (d := 0) (.one hback) (Nat.zero_le _) ?_
    exact ih (s := { u with pc := s.pc }) ⟨⟨hatu.cells, hatu.store, hatu.room, hatu.globals,
      hatu.shows⟩, hwhole, hdecl, hneed, hstop⟩

theorem follows_when (ih : FollowsAll E words vars m₀ n) (hnw : words.length < 2 ^ 63)
    {body rest : Prog}
    (hp : Placed words vars m₀ (.when c body rest) π s stop) :
    Follows E words vars m₀ stop (n + 1) s ((Prog.when c body rest).eval E.pool (n + 1) π) := by
  obtain ⟨hat, hseg, hdecl, hneed, hstop⟩ := hp
  have hend := hseg.le
  rw [Prog.length_code] at hend
  simp only [Prog.code] at hseg
  obtain ⟨hnc, hn⟩ := Nat.max_le.mp hneed
  obtain ⟨hnb, hnr⟩ := Nat.max_le.mp hn
  have hrest := hseg.right
  have hbody := hseg.left.right
  simp only [List.length_append, length_testCode, Prog.length_code] at hrest hbody
  simp only [Prog.size] at hstop hend
  -- both branches come together behind the block
  have hjoin : ∀ π' t, At vars m₀ π' t → t.pc = s.pc + (c.size + 3) + body.size →
      Follows E words vars m₀ stop n t (rest.eval E.pool n π') := by
    intro π' t hatt hpc
    refine ih ⟨hatt, ?_, fun y hy => hdecl y (by simp [Prog.names, hy]), hnr, by omega⟩
    rw [hpc]
    simpa only [Nat.add_assoc] using hrest
  refine .test (s.pc + (c.size + 3) + body.size) hnw (by omega) hat hseg.left.left
    hnc (fun y hy => hdecl y (by simp [Prog.names, hy])) ?_ ?_
  · intro t hatt hpc
    rw [if_pos rfl]
    exact hjoin π t hatt hpc
  · intro v t hv hatt hpc
    rw [if_neg hv]
    exact .andThen _ (ih ⟨hatt, by rw [hpc]; exact hbody,
      fun y hy => hdecl y (by simp [Prog.names, hy]), hnb, by rw [hpc]⟩) hjoin

theorem follows_cond (ih : FollowsAll E words vars m₀ n) (hnw : words.length < 2 ^ 63)
    {body alt rest : Prog}
    (hp : Placed words vars m₀ (.cond c body alt rest) π s stop) :
    Follows E words vars m₀ stop (n + 1) s ((Prog.cond c body alt rest).eval E.pool (n + 1) π) := by
  obtain ⟨hat, hseg, hdecl, hneed, hstop⟩ := hp
  have hend := hseg.le
  rw [Prog.length_code] at hend
  simp only [Prog.code] at hseg
  obtain ⟨hnc, hn⟩ := Nat.max_le.mp hneed
  obtain ⟨hnb, hn⟩ := Nat.max_le.mp hn
  obtain ⟨hna, hnr⟩ := Nat.max_le.mp hn
  have hrest := hseg.right
  have halt := hseg.left.right
  have hjmp := hseg.left.left.right.head
  have hbody := hseg.left.left.left.right
  simp only [List.length_append, length_testCode, Prog.length_code, List.length_singleton]
    at hrest halt hjmp hbody
  simp only [Prog.size] at hstop hend
  have hjoin : ∀ π' t, At vars m₀ π' t →
      t.pc = s.pc + (c.size + 3) + body.size + 1 + alt.size →
      Follows E words vars m₀ stop n t (rest.eval E.pool n π') := by
    intro π' t hatt hpc
    refine ih ⟨hatt, ?_, fun y hy => hdecl y (by simp [Prog.names, hy]), hnr, by omega⟩
    rw [hpc]
    simpa only [Nat.add_assoc] using hrest
  refine .test (s.pc + (c.size + 3) + body.size + 1) hnw (by omega) hat
    hseg.left.left.left.left hnc (fun y hy => hdecl y (by simp [Prog.names, hy])) ?_ ?_
  · intro t hatt hpc
    rw [if_pos rfl]
    refine .andThen _ (ih ⟨hatt, ?_, fun y hy => hdecl y (by simp [Prog.names, hy]), hna,
      by rw [hpc]⟩) hjoin
    rw [hpc]
    simpa only [Nat.add_assoc] using halt
  · intro v t hv hatt hpc
    rw [if_neg hv]
    refine .andThen (s.pc + (c.size + 3) + body.size)
      (ih ⟨hatt, by rw [hpc]; exact hbody, fun y hy => hdecl y (by simp [Prog.names, hy]),
        hnb, by omega⟩) ?_
    -- the jump over the alternative
    intro π' u hatu hpcu
    rw [← Nat.add_assoc, ← hpcu] at hjmp
    have hover : coreStep E words u = .inl _ := coreStep_jmp hnw (by omega) hjmp
    refine Follows.after (d := 0) (.one hover) (Nat.zero_le _) ?_
    exact hjoin π' _ ⟨hatu.cells, hatu.store, hatu.room, hatu.globals, hatu.shows⟩ (by rw [hpcu])

theorem follows_all (hnw : words.length < 2 ^ 63) (n : Nat) : FollowsAll E words vars m₀ n := by
  induction n with
  | zero =>
    intro p π s stop _
    exact ⟨0, s, Nat.le_refl 0, .refl s⟩
  | succ n ih =>
    intro p π s stop hp
    cases p with
    | done => exact ⟨0, s, .refl s, hp.here, hp.stop.symm⟩
    | assign x c rest => exact follows_assign ih hp
    | print c rest => exact follows_print ih hp
    | printStr so sl rest => exact follows_printStr ih hp
    | loop c body rest => exact follows_loop ih hnw hp
    | when c body rest => exact follows_when ih hnw hp
    | cond c body alt rest => exact follows_cond ih hnw hp

/-! ## Whole programs -/

/-- Nothing is assigned and nothing is printed. -/
def Progress.start : Progress := ⟨fun _ => 0, []⟩

def zeroGlobals : List (BitVec 64) := List.replicate kGlobals 0

theorem at_init (hv : vars.length ≤ pyMaxVars) :
    At vars m₀ .start (KState.init m₀ zeroGlobals) := by
  refine ⟨rfl, ?_, ?_, ?_, ⟨rfl, rfl, rfl, rfl, rfl⟩⟩
  · funext x
    simp only [storeOf, KState.init, zeroGlobals, List.getD_eq_getElem?_getD, Progress.start,
      List.getElem?_replicate]
    split
    · rfl
    · rfl
  · simp only [KState.init, zeroGlobals, List.length_replicate, pyMaxVars, kGlobals] at *
    omega
  · simp [KState.init, zeroGlobals]

variable {p : Prog}

theorem core_of_eval (m₀ : Machine) {f : Finish} (hnw : (p.code vars.idxOf 0).length < 2 ^ 63)
    (hv : vars.length ≤ pyMaxVars) (hdecl : ∀ x ∈ p.names, x ∈ vars) (hneed : p.need ≤ pyMaxTok)
    (h : p.eval E.pool n .start = some (f, π)) :
    ∃ k r, Halts (coreStep E (p.code vars.idxOf 0)) k (KState.init m₀ zeroGlobals) r ∧
      Matches vars m₀ f π r := by
  have hf : Follows E _ vars m₀ _ n _ (p.eval E.pool n .start) :=
    follows_all hnw n ⟨at_init hv, Segment.self _, hdecl, hneed, rfl⟩
  rw [h] at hf
  cases f with
  | ok =>
    obtain ⟨k, t, ht, hat, hpc⟩ := hf
    refine ⟨k, ⟨.status .ok, t.m, t.g⟩, ⟨t, ht, ?_⟩, rfl, hat.store, hat.shows⟩
    have hend : (p.code vars.idxOf 0)[t.pc]? = none := by
      rw [hpc, List.getElem?_eq_none_iff, Prog.length_code]
      simp [KState.init]
    simp only [coreStep, hend]
    rfl
  | runtimeError => exact hf
  | overflow => exact hf

theorem eval_of_core {r : KResult} (hnw : (p.code vars.idxOf 0).length < 2 ^ 63)
    (hv : vars.length ≤ pyMaxVars) (hdecl : ∀ x ∈ p.names, x ∈ vars) (hneed : p.need ≤ pyMaxTok)
    (h : Halts (coreStep E (p.code vars.idxOf 0)) k (KState.init m₀ zeroGlobals) r) :
    ∃ n f π, p.eval E.pool n .start = some (f, π) ∧ Matches vars m₀ f π r := by
  cases he : p.eval E.pool (k + 1) .start with
  | none =>
    have hf : Follows E _ vars m₀ _ (k + 1) _ (p.eval E.pool (k + 1) .start) :=
      follows_all hnw (k + 1) ⟨at_init hv, Segment.self _, hdecl, hneed, rfl⟩
    rw [he] at hf
    obtain ⟨j, t, hj, ht⟩ := hf
    have hle := ht.le_of_halts h
    omega
  | some res =>
    obtain ⟨f, π⟩ := res
    obtain ⟨j, r', hr', hm⟩ := core_of_eval m₀ hnw hv hdecl hneed he
    obtain ⟨_, rfl⟩ := h.unique hr'
    exact ⟨k + 1, f, π, he, hm⟩

theorem Matches.addSteps {f : Finish} {r : KResult} (h : Matches vars m₀ f π r) (k : Nat) :
    Matches vars m₀ f π (r.addSteps k) :=
  ⟨h.exit, h.store, ⟨h.shows.1, h.shows.2, h.shows.3, h.shows.4, h.shows.5⟩⟩

end

/-- The compilers of `managedjs` and `managedlua` are correct.  A list of
statements that compiles has a structured reading.  For every such
reading the kernel, on zeroed globals and unless the watchdog stops it, returns
exactly when the evaluation of the reading ends, and with its status, its
variables and its output.  Nothing is said where the evaluation divides
`INT64_MIN` by `-1`. -/
theorem compileBlock_correct
    (compile : Nat → Nat → Int → CState → Except Stop CState)
    (hlang : compile = jsCompileBlock ∨ compile = luaCompileBlock)
    (cap : UInt32) (stmts : List Stmt) (hne : stmts ≠ []) (st : CState)
    (hc : compile cap.toNat 0 (-1) ⟨.empty, [], stmts⟩ = .ok st) :
    (∃ p, Denotes stmts p) ∧
    ∀ p, Denotes stmts p → ∀ (E : KEnv) (m : Machine),
      (∀ r, KernelReturns E m st.ws zeroGlobals r → r.exit ≠ .status .errTrap →
        ∃ n f π, p.eval E.pool n .start = some (f, π) ∧
          (f = .overflow ∨ Matches st.vars.names m f π r)) ∧
      (∀ n f π, p.eval E.pool n .start = some (f, π) → f ≠ .overflow →
        ∃ r, KernelReturns E m st.ws zeroGlobals r ∧
          (r.exit = .status .errTrap ∨ Matches st.vars.names m f π r)) := by
  have hjs : compileBlock jsFront cap.toNat 0 (-1) ⟨.empty, [], stmts⟩ = .ok st := by
    rcases hlang with rfl | rfl
    · exact hc
    · exact hc
  obtain ⟨q, hq⟩ := compileLoop_sound _ (atDepth_ok hjs)
  have hden := hq.nests.denotes
  dsimp only at hden
  rw [takeWhile_deeper_top] at hden
  refine ⟨⟨q, hden⟩, ?_⟩
  intro p hp E m
  obtain ⟨hnames, halike⟩ := hden.alike st.vars.names hp
  obtain ⟨hsize, hcode⟩ := halike hq.declared
  have hws : st.ws = p.code st.vars.names.idxOf 0 := by
    have hemit := hq.emitted st.vars.names.idxOf (fun x _ => rfl)
    rw [hemit, ← hcode 0]
    rfl
  have hdecl : ∀ x ∈ p.names, x ∈ st.vars.names := hnames ▸ hq.declared
  have hcap : st.ws.length ≤ cap.toNat := hq.fits (Nat.zero_le _)
  have hlt := cap.toNat_lt
  have hnw : (p.code st.vars.names.idxOf 0).length < 2 ^ 63 := by
    rw [← hws]
    omega
  have hwne : st.ws ≠ [] := by
    rw [hws]
    cases hp with
    | nil => exact absurd rfl hne
    | assign | print | printStr | loop | when | cond =>
      intro hnil
      have hlen := congrArg List.length hnil
      rw [Prog.length_code] at hlen
      simp [Prog.size] at hlen
  have hiff := fun r => kernelReturns_iff (E := E) (m := m) (r := r) hwne
    (show zeroGlobals.length ≤ kGlobals by simp [zeroGlobals])
  constructor
  · intro r hr htrap
    obtain ⟨n, hn⟩ := (hiff r).mp hr
    obtain ⟨r', k, hcore, rfl⟩ := uncharge_halts hn htrap
    rw [hws] at hcore
    obtain ⟨n', f, π, he, hm⟩ := eval_of_core hnw st.vars.fits hdecl hp.need_le hcore
    exact ⟨n', f, π, he, .inr (hm.addSteps k)⟩
  · intro n f π he _
    obtain ⟨k, r, hcore, hm⟩ := core_of_eval m hnw st.vars.fits hdecl hp.need_le he
    rw [← hws] at hcore
    obtain ⟨n', r', hk, hend⟩ := charge_halts hcore
    refine ⟨r', (hiff r').mpr ⟨n', hk⟩, ?_⟩
    rcases hend with htrap | ⟨j, rfl⟩
    · exact .inl htrap
    · exact .inr (hm.addSteps j)

/-- `x`. -/
def nameX : Ident := ⟨[120], by decide, by decide⟩

/-- `x = 2; while (x) x = x - 1; if (x) print(x); else print(7);`. -/
def countdown : List Stmt :=
  [⟨0, .sAssign, [.ident nameX, .num 2], by decide⟩, ⟨0, .sWhile, [.ident nameX], by decide⟩,
   ⟨1, .sAssign, [.ident nameX, .ident nameX, .op .sub, .num 1], by decide⟩,
   ⟨0, .sIf, [.ident nameX], by decide⟩, ⟨1, .sPrint, [.ident nameX], by decide⟩,
   ⟨0, .sElse, [], by decide⟩, ⟨1, .sPrint, [.num 7], by decide⟩]

theorem denotes_countdown : ∃ p π, Denotes countdown p ∧
    p.eval (default : KEnv).pool 9 .start = some (.ok, π) ∧ π.out = [decimal 7] := by
  let x : Tree .term := .factor (.name nameX)
  let value (v : BitVec 64) : Cond := .expr (.term (.factor (.num v)))
  have hloop : Denotes [⟨1, .sAssign, [.ident nameX, .ident nameX, .op .sub, .num 1], by decide⟩]
      (.assign nameX (.expr (.addop .sub (.term x) (.factor (.num 1)))) .done) :=
    .assign rfl rfl .nil
  have hbody : Denotes [⟨1, .sPrint, [.ident nameX], by decide⟩] (.print (.expr (.term x)) .done) :=
    .print rfl rfl .nil
  have halt : Denotes [⟨1, .sPrint, [.num 7], by decide⟩] (.print (value 7) .done) :=
    .print rfl rfl .nil
  refine ⟨_, _, .assign (c := value 2) rfl rfl (.loop (c := .expr (.term x)) rfl rfl hloop
    (.cond (c := .expr (.term x)) rfl rfl hbody rfl ⟨rfl, rfl⟩ halt .nil)), rfl, rfl⟩

/-- It compiles, and the kernel prints `7`. -/
theorem compileBlock_correct_countdown :
    ∃ st π r, jsCompileBlock 256 0 (-1) ⟨.empty, [], countdown⟩ = .ok st ∧
      KernelReturns default default st.ws zeroGlobals r ∧ π.out = [decimal 7] ∧
        (r.exit = .status .errTrap ∨ Matches st.vars.names default .ok π r) := by
  obtain ⟨p, π, hp, he, hout⟩ := denotes_countdown
  obtain ⟨st, hst⟩ : ∃ st, jsCompileBlock 256 0 (-1) ⟨.empty, [], countdown⟩ = .ok st := ⟨_, rfl⟩
  obtain ⟨-, hrun⟩ := compileBlock_correct jsCompileBlock (.inl rfl) 256 countdown (by decide) st hst
  obtain ⟨r, hr, hend⟩ := (hrun p hp default default).2 9 .ok π he (by decide)
  exact ⟨st, π, r, hst, hr, hout, hend⟩

/-- The empty list compiles to no words.  Its evaluation ends well, and the
kernel refuses to run it. -/
theorem compileBlock_nil :
    jsCompileBlock 256 0 (-1) ⟨.empty, [], []⟩ = .ok ⟨.empty, [], []⟩ ∧
    Denotes [] .done ∧
    (Prog.done).eval (default : KEnv).pool 1 .start = some (.ok, .start) ∧
    KernelReturns default default [] zeroGlobals ⟨.status .errBadArg, default, zeroGlobals⟩ ∧
    ¬ ∃ r, KernelReturns default default [] zeroGlobals r ∧
      (r.exit = .status .errTrap ∨ Matches [] default .ok .start r) := by
  refine ⟨rfl, .nil, rfl, ⟨0, rfl⟩, ?_⟩
  intro ⟨r, ⟨fuel, hr⟩, hend⟩
  have hbad : (⟨.status .errBadArg, default, zeroGlobals⟩ : KResult) = r := Option.some.inj hr
  subst hbad
  rcases hend with htrap | hm
  · cases htrap
  · cases hm.exit

end Engines
