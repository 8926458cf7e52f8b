import OpenWindows.Engines.KernelBudget
import OpenWindows.Engines.Shell
import Mathlib.Data.List.TakeWhile

/-!
# The step watchdog

Both `meng_kernel_run` and `engine_sh_run` rely on `meng_machine_step` alone to
stop a program that loops.  The step counter is a `uint32_t`, so a budget below
`0xFFFFFFFF` is exceeded by the call after it, and no budget of `0xFFFFFFFF` is
ever exceeded.  `Machine.Within` is the invariant: the budget is `b` and every
step so far was granted.  A turn of either loop that goes on has charged a step
and stays within, so the loops stop after at most `b + 1` calls.

The first pass of the shell charges no steps.  Its line number is a `uint32_t`
as well, and it never ends on a script of `2 ^ 32` lines or more.
-/

namespace Engines

open StepSystem

/-! ## Charging a step -/

/-- The budget is `b` and has not been exceeded. -/
structure Machine.Within (m : Machine) (b : Nat) : Prop where
  budget : m.stepBudget.toNat = b
  steps : m.steps ≤ b

variable {b : Nat} {m : Machine} {budget : UInt32}

theorem mengMachineStep_within (h : m.Within b) (h0 : b ≠ 0) (hb : b < 2 ^ 32 - 1) :
    (∃ m', mengMachineStep m = (true, m') ∧ m'.Within b ∧ m'.steps = m.steps + 1) ∨
    (∃ m', mengMachineStep m = (false, m') ∧ m'.steps = b + 1) := by
  have hmod : (m.steps + 1) % 2 ^ 32 = m.steps + 1 := by
    have := h.steps
    omega
  have hne : m.stepBudget ≠ 0 := by
    intro hz
    have := h.budget
    rw [hz] at this
    exact h0 this.symm
  unfold mengMachineStep
  dsimp only
  rw [hmod, h.budget]
  by_cases hlt : b < m.steps + 1
  · refine .inr ⟨_, if_pos ⟨hne, hlt⟩, ?_⟩
    have := h.steps
    dsimp only
    omega
  · exact .inl ⟨_, if_neg (fun hc => hlt hc.2), ⟨h.budget, by dsimp only; omega⟩, rfl⟩

theorem mengMachineStep_max (h : m.stepBudget = 0xFFFFFFFF) :
    mengMachineStep m = (true, { m with steps := m.steps + 1 }) := by
  unfold mengMachineStep
  dsimp only
  refine if_neg ?_
  rintro ⟨_, hlt⟩
  rw [h] at hlt
  have : (0xFFFFFFFF : UInt32).toNat = 2 ^ 32 - 1 := by decide
  omega

theorem Machine.Within.emit (h : m.Within b) (p : List UInt8) : (mengMachineOut m p).2.Within b :=
  ⟨by rw [← h.budget]; exact congrArg UInt32.toNat (m.emit_stepBudget p),
    by rw [show (mengMachineOut m p).2.steps = m.steps from m.emit_steps p]; exact h.steps⟩

theorem Machine.Within.emitInt (h : m.Within b) (v : BitVec 64) :
    (mengMachineOutInt m v).2.Within b :=
  ⟨by rw [mengMachineOutInt_stepBudget]; exact h.budget,
    by rw [mengMachineOutInt_steps]; exact h.steps⟩

/-! ## Stopping in time -/

/-- A result that came in time: at most `b + 1` steps were charged, and exactly
that many just when the watchdog fired. -/
def InTime (b : Nat) (m : Machine) (trapped : Prop) : Prop :=
  m.steps ≤ b + 1 ∧ (trapped ↔ m.steps = b + 1)

variable {s : KState}

theorem kernelStep_within (E : KEnv) (words : List Word) (h0 : b ≠ 0)
    (hb : b < 2 ^ 32 - 1) (h : s.m.Within b) :
    (∀ t, kernelStep E words s = .inl t → t.m.Within b ∧ s.m.steps < t.m.steps) ∧
    (∀ r, kernelStep E words s = .inr r → InTime b r.m (r.exit = .status .errTrap)) := by
  have hle := h.steps
  unfold kernelStep
  cases words[s.pc]? with
  | none =>
    refine ⟨fun t ht => (nomatch ht), fun r hr => ?_⟩
    cases hr
    refine ⟨by dsimp only; omega, ?_⟩
    simp only [Exit.status.injEq, reduceCtorEq, false_iff]
    omega
  | some w =>
    dsimp only
    rcases mengMachineStep_within h h0 hb with ⟨m', hm, hw, hs⟩ | ⟨m', hm, hs⟩
    · rw [hm]
      dsimp only
      have hun := exec_uncharged E words.length w { s with m := m', pc := s.pc + 1 }
      refine ⟨fun t ht => ?_, fun r hr => ?_⟩
      · rw [ht] at hun
        obtain ⟨hst, hbd⟩ := hun
        dsimp only at hst hbd
        exact ⟨⟨by rw [hbd]; exact hw.budget, by rw [hst]; exact hw.steps⟩, by omega⟩
      · rw [hr] at hun
        obtain ⟨hst, hne⟩ := hun
        have hws := hw.steps
        dsimp only at hst
        refine ⟨by omega, ?_⟩
        simp only [hne, false_iff]
        omega
    · rw [hm]
      dsimp only
      refine ⟨fun t ht => (nomatch ht), fun r hr => ?_⟩
      cases hr
      exact ⟨by dsimp only; omega, by simp [hs]⟩

/-- The watchdog's promise for `meng_kernel_run` under a budget: on every
machine reset with that budget and every program, the run returns in time. -/
def KernelWatched (budget : UInt32) : Prop :=
  ∀ (E : KEnv) (generation : UInt32) (m : Machine) (words : List Word) (g : List (BitVec 64)),
    m.stepBudget = budget →
    ∃ r, KernelReturns E (mengMachineReset generation m) words g r ∧
      InTime budget.toNat r.m (r.exit = .status .errTrap)

/-- The same promise for `engine_sh_run` on one script. -/
def ShWatched (budget : UInt32) (manifest : List UInt8) : Prop :=
  ∀ (generation : UInt32) (m : Machine), m.stepBudget = budget →
    ∃ r, ShReturns (mengMachineReset generation m) manifest r ∧
      InTime budget.toNat r.2 (r.1 = .errTrap)

theorem within_reset {generation : UInt32}
    (h : m.stepBudget = budget) : (mengMachineReset generation m).Within budget.toNat :=
  ⟨congrArg UInt32.toNat h, Nat.zero_le _⟩

theorem budget_bounds (h0 : budget ≠ 0) (hmax : budget ≠ 0xFFFFFFFF) :
    budget.toNat ≠ 0 ∧ budget.toNat < 2 ^ 32 - 1 := by
  have hlt := budget.toNat_lt
  refine ⟨fun hz => h0 (UInt32.toNat_inj.mp hz), ?_⟩
  have hne : budget.toNat ≠ 2 ^ 32 - 1 := fun hz => hmax (UInt32.toNat_inj.mp hz)
  omega

theorem kernelWatched_of_ne_max (h0 : budget ≠ 0)
    (hmax : budget ≠ 0xFFFFFFFF) : KernelWatched budget := by
  intro E generation m words g hm
  obtain ⟨hb0, hb⟩ := budget_bounds h0 hmax
  have hin : InTime budget.toNat (mengMachineReset generation m) False :=
    ⟨Nat.zero_le _, by simp [mengMachineReset]⟩
  by_cases hargs : words = [] ∨ kGlobals < g.length
  · -- the argument checks answer before any step
    refine ⟨⟨.status .errBadArg, mengMachineReset generation m, g⟩, ⟨0, ?_⟩, ?_⟩
    · rcases hargs with hw | hg
      · simp [mengKernelRun, hw]
      · by_cases hw : words.length = 0
        · simp [mengKernelRun, hw]
        · simp only [mengKernelRun, if_neg hw]
          rw [if_pos hg]
    · simpa using hin
  · rw [not_or, not_lt] at hargs
    obtain ⟨n, r, t, ht, hwt, hr⟩ := halts_of_bounded
      (P := fun s : KState => s.m.Within budget.toNat) (μ := fun s => s.m.steps)
      (fun s t hs => (kernelStep_within E words hb0 hb hs).1 t) (fun s hs => hs.steps)
      (s := KState.init (mengMachineReset generation m) g) (within_reset hm)
    exact ⟨r, (kernelReturns_iff hargs.1 hargs.2).mpr ⟨n, t, ht, hr⟩,
      (kernelStep_within E words hb0 hb hwt).2 r hr⟩

theorem jmp_zero_not_halts (hm : m.stepBudget = 0xFFFFFFFF) (n : Nat) (r : KResult) :
    ¬ Halts (kernelStep default [Word.mk' .jmp 0 0]) n (KState.init m []) r := by
  refine not_halts_of_invariant
    (P := fun s : KState => s.pc = 0 ∧ s.m.stepBudget = 0xFFFFFFFF) ?_ ⟨rfl, hm⟩ n r
  rintro s ⟨hpc, hbud⟩
  refine ⟨{ s with m := { s.m with steps := s.m.steps + 1 }, pc := 0 }, ?_, rfl, hbud⟩
  simp only [kernelStep, hpc, mengMachineStep_max hbud]
  rfl

theorem not_kernelWatched_max : ¬ KernelWatched 0xFFFFFFFF := by
  intro h
  obtain ⟨r, hr, _⟩ := h default 0 { (default : Machine) with stepBudget := 0xFFFFFFFF }
    [Word.mk' .jmp 0 0] [] rfl
  obtain ⟨n, hn⟩ := (kernelReturns_iff (by simp) (by decide)).mp hr
  exact jmp_zero_not_halts rfl n r hn

/-! ## Lines of a script -/

/-- The number of lines of a script: one for each newline, and one more for a
last line that does not end in one. -/
def lineCount (bs : List UInt8) : Nat :=
  bs.count 10 + if bs = [] ∨ bs.getLast? = some 10 then 0 else 1

theorem lineCount_skip (b : UInt8) (bs : List UInt8) :
    lineCount (b :: bs) = lineCount (((b :: bs).dropWhile (· ≠ 10)).drop 1) + 1 := by
  have hsplit := List.takeWhile_append_dropWhile (p := fun x : UInt8 => decide (x ≠ 10))
    (l := b :: bs)
  have hpre : ∀ x ∈ (b :: bs).takeWhile (fun x => decide (x ≠ 10)), x ≠ 10 := by
    intro x hx
    simpa using List.mem_takeWhile_imp hx
  generalize (b :: bs).takeWhile (fun x => decide (x ≠ 10)) = pre at hsplit hpre
  have hcount : pre.count 10 = 0 := List.count_eq_zero.mpr fun hm => hpre 10 hm rfl
  cases hd : (b :: bs).dropWhile (fun x => decide (x ≠ 10)) with
  | nil =>
    rw [hd, List.append_nil] at hsplit
    have hlast : (b :: bs).getLast? ≠ some 10 := by
      intro hl
      rw [← hsplit] at hl
      exact hpre 10 (List.mem_of_getLast? hl) rfl
    rw [lineCount, if_neg (by simpa using hlast), ← hsplit, hcount]
    simp [lineCount]
  | cons c tl =>
    have hc : c = 10 := by
      have := List.head?_dropWhile_not (fun x : UInt8 => decide (x ≠ 10)) (b :: bs)
      rw [hd] at this
      simpa using this
    subst hc
    rw [hd] at hsplit
    rw [← hsplit, List.drop_succ_cons, List.drop_zero, lineCount, lineCount, List.count_append,
      List.count_cons_self, hcount, List.getLast?_append]
    cases tl with
    | nil => simp
    | cons d ds =>
      rw [List.getLast?_cons_cons]
      cases hg : (d :: ds).getLast? with
      | none => simp at hg
      | some x =>
        simp
        omega

theorem mengShFindLine_eq_none_iff {n : Nat} {bs : List UInt8} :
    mengShFindLine n bs = none ↔ lineCount bs ≤ n := by
  induction n generalizing bs with
  | zero =>
    cases bs with
    | nil => simp [mengShFindLine, lineCount]
    | cons b bs =>
      rw [lineCount_skip]
      simp [mengShFindLine]
  | succ n ih =>
    cases bs with
    | nil => simp [mengShFindLine, lineCount]
    | cons b bs =>
      rw [lineCount_skip, mengShFindLine, ih]
      omega

/-! ## The shell -/

theorem mengShExpandWord_within (vars : List ShVar) {b : Nat} (h0 : b ≠ 0)
    (hb : b < 2 ^ 32 - 1) :
    ∀ (n : Nat) (w : List UInt8) (m : Machine), m.Within b →
      ((mengShExpandWord vars n w m).1 = .ok ∧ (mengShExpandWord vars n w m).2.Within b ∧
        m.steps ≤ (mengShExpandWord vars n w m).2.steps) ∨
      ((mengShExpandWord vars n w m).1 = .errTrap ∧
        (mengShExpandWord vars n w m).2.steps = b + 1)
  | 0, [], m, h => .inl ⟨rfl, h, Nat.le_refl _⟩
  | _ + 1, [], m, h => .inl ⟨rfl, h, Nat.le_refl _⟩
  | 0, _ :: _, m, h => .inl ⟨rfl, h, Nat.le_refl _⟩
  | n + 1, c :: cs, m, h => by
    have hstep : ∀ (rest : List UInt8) (m' : Machine), m'.Within b → m.steps ≤ m'.steps →
        ((mengShExpandWord vars n rest m').1 = .ok ∧
          (mengShExpandWord vars n rest m').2.Within b ∧
          m.steps ≤ (mengShExpandWord vars n rest m').2.steps) ∨
        ((mengShExpandWord vars n rest m').1 = .errTrap ∧
          (mengShExpandWord vars n rest m').2.steps = b + 1) := by
      intro rest m' hm' hle
      rcases mengShExpandWord_within vars h0 hb n rest m' hm' with ⟨h1, h2, h3⟩ | h1
      · exact .inl ⟨h1, h2, by omega⟩
      · exact .inr h1
    unfold mengShExpandWord
    split
    · dsimp only
      split
      · exact hstep _ _ (h.emit _) (m.emit_steps _).ge
      · split
        · next x _ =>
          refine hstep _ _ ?_ ?_
          · unfold ShVar.print
            split
            · exact h.emit _
            · exact h.emitInt _
          · unfold ShVar.print
            split
            · exact (m.emit_steps _).ge
            · exact (mengMachineOutInt_steps m _).ge
        · exact hstep _ _ h (Nat.le_refl _)
    · rcases mengMachineStep_within h h0 hb with ⟨m', hm, hw, hs⟩ | ⟨m', hm, hs⟩
      · rw [hm]
        refine hstep _ _ (hw.emit _) ?_
        rw [show (mengMachineOutChar m' c).2.steps = m'.steps from m'.emit_steps _]
        omega
      · rw [hm]
        exact .inr ⟨rfl, hs⟩

theorem shEcho_within (vars : List ShVar) {b : Nat} (h0 : b ≠ 0) (hb : b < 2 ^ 32 - 1) :
    ∀ (first : Bool) (ws : List (List UInt8)) (m : Machine), m.Within b →
      ((shEcho vars first ws m).1 = .ok ∧ (shEcho vars first ws m).2.Within b ∧
        m.steps ≤ (shEcho vars first ws m).2.steps) ∨
      ((shEcho vars first ws m).1 = .errTrap ∧ (shEcho vars first ws m).2.steps = b + 1)
  | _, [], m, h => .inl ⟨rfl, h, Nat.le_refl _⟩
  | first, w :: ws, m, h => by
    unfold shEcho
    dsimp only
    generalize hm1 : (if first then m else (mengMachineOutChar m 32).2) = m1
    have hw1 : m1.Within b ∧ m1.steps = m.steps := by
      subst hm1
      split
      · exact ⟨h, rfl⟩
      · exact ⟨h.emit _, m.emit_steps _⟩
    have hexp := mengShExpandWord_within vars h0 hb w.length w m1 hw1.1
    split
    · next m2 he =>
      rw [he] at hexp
      rcases hexp with ⟨_, h2, h3⟩ | ⟨h2, _⟩
      · dsimp only at h2 h3
        rcases shEcho_within vars h0 hb false ws m2 h2 with ⟨k1, k2, k3⟩ | k1
        · exact .inl ⟨k1, k2, by omega⟩
        · exact .inr k1
      · exact absurd h2 (by simp)
    · next st m2 hne he =>
      rw [he] at hexp
      rcases hexp with ⟨h2, _, _⟩ | h2
      · exact absurd h2 (by simpa using hne)
      · exact .inr h2

/-- The outcome of a command whose machine started within the budget. -/
def ShGood (b k : Nat) : ShState ⊕ (Status × Machine) → Prop
  | .inl (.collect ..) => False
  | .inl (.execute _ _ _ m) => m.Within b ∧ k ≤ m.steps
  | .inr (st, m) => InTime b m (st = .errTrap)

variable {st : Status} {manifest : List UInt8}

theorem shGood_stop (h : m.Within b) (hst : st ≠ .errTrap) : ShGood b m.steps (.inr (st, m)) := by
  have := h.steps
  refine ⟨by omega, ?_⟩
  simp only [hst, false_iff]
  omega

theorem mengShSetVar_error {vars : List ShVar} {name : List UInt8}
    {val : BitVec 64 ⊕ List UInt8} (h : mengShSetVar vars name val = .error st) :
    st ≠ .errTrap := by
  unfold mengShSetVar at h
  split at h
  · cases h
  · split at h
    · cases h
      decide
    · cases h

theorem parseDigits_error {u : BitVec 64} {cs : List UInt8}
    (h : parseDigits u cs = .error st) : st = .errSyntax := by
  induction cs generalizing u with
  | nil => cases h
  | cons c cs ih =>
    unfold parseDigits at h
    split at h
    · cases h
      rfl
    · exact ih h

theorem parseI64_error {cs : List UInt8} (h : parseI64 cs = .error st) : st = .errSyntax := by
  unfold parseI64 at h
  split at h
  · cases h
    rfl
  · split at h
    · cases h
    · next e he =>
      cases h
      exact parseDigits_error he
  · cases h
    rfl
  · exact parseDigits_error h

theorem mengShExpandInt_status (vars : List ShVar) (txt : List UInt8) :
    (mengShExpandInt vars txt).2 ≠ .errTrap := by
  unfold mengShExpandInt
  split
  · split
    · split <;> simp
    · simp
  · split
    · simp
    · next e he => simp [parseI64_error he]

theorem gotoTarget_error {labels : List ShLabel} {vars : List ShVar} {name : List UInt8}
    {args : List (List UInt8)}
    (h : gotoTarget labels vars name args = .error st) : st ≠ .errTrap := by
  have hcond : ∀ {a op b : List UInt8}, gotoCond vars a op b = .error st → st ≠ .errTrap := by
    intro a op b hc
    unfold gotoCond at hc
    dsimp only at hc
    split at hc
    · cases hc
      exact mengShExpandInt_status vars b
    · repeat (split at hc; · cases hc)
      cases hc
      decide
  unfold gotoTarget at h
  dsimp only at h
  split at h
  · next hst =>
    cases h
    split at hst
    · split at hst
      · exact hcond hst
      · cases hst
    · cases hst
  · split at h
    · cases h
      decide
    · cases h

theorem shCommand_good (labels : List ShLabel) (lineno : Nat) (vars : List ShVar)
    (w : List UInt8) (args : List (List UInt8)) (h0 : b ≠ 0) (hb : b < 2 ^ 32 - 1)
    (h : m.Within b) : ShGood b m.steps (shCommand labels lineno vars m w args) := by
  have hgo : m.Within b ∧ m.steps ≤ m.steps := ⟨h, Nat.le_refl _⟩
  unfold shCommand
  dsimp only
  split
  · exact shGood_stop h (by decide)
  split
  · split
    · exact hgo
    · next st he => exact shGood_stop h (mengShSetVar_error he)
  split
  · split
    · split
      · exact shGood_stop h (by decide)
      · exact hgo
    · exact shGood_stop h (by decide)
  split
  · have hecho := shEcho_within vars h0 hb true args m h
    split
    · next m2 he =>
      rw [he] at hecho
      rcases hecho with ⟨_, h2, h3⟩ | ⟨h2, _⟩
      · exact ⟨h2, h3⟩
      · exact absurd h2 (by simp)
    · next st m2 hne he =>
      rw [he] at hecho
      rcases hecho with ⟨h2, _, _⟩ | ⟨h2, h3⟩
      · exact absurd h2 (by simpa using hne)
      · dsimp only at h2 h3
        exact ⟨by omega, by simp [h2, h3]⟩
  split
  · exact hgo
  split
  · exact hgo
  split
  · split
    · next st he => exact shGood_stop h (gotoTarget_error he)
    · exact hgo
    · exact hgo
  · exact shGood_stop h (by decide)

theorem shStep_execute_good (manifest : List UInt8) (lineno : Nat) (labels : List ShLabel)
    (vars : List ShVar) (h0 : b ≠ 0) (hb : b < 2 ^ 32 - 1)
    (h : m.Within b) :
    ShGood b (m.steps + 1) (shStep manifest (.execute lineno labels vars m)) ∨
      shStep manifest (.execute lineno labels vars m) = .inr (.ok, m) := by
  unfold shStep
  dsimp only
  split
  · exact .inr rfl
  · refine .inl ?_
    rcases mengMachineStep_within h h0 hb with ⟨m', hm, hw, hs⟩ | ⟨m', hm, hs⟩
    · rw [hm]
      dsimp only
      split
      · exact ⟨hw, hs.ge⟩
      · next w args _ =>
        have hcmd := shCommand_good labels lineno vars w args h0 hb hw
        rwa [hs] at hcmd
    · rw [hm]
      exact ⟨by omega, by simp [hs]⟩

/-- The script runs, on a machine within the budget. -/
def ExecutesWithin (b : Nat) : ShState → Prop
  | .collect .. => False
  | .execute _ _ _ m => m.Within b

theorem shExecute_halts (manifest : List UInt8) (labels : List ShLabel)
    (h0 : b ≠ 0) (hb : b < 2 ^ 32 - 1) (h : m.Within b) :
    ∃ n r, Halts (shStep manifest) n (.execute 0 labels [] m) r ∧ InTime b r.2 (r.1 = .errTrap) := by
  have hstep : ∀ s t, ExecutesWithin b s → shStep manifest s = .inl t →
      ExecutesWithin b t ∧ s.machine.steps < t.machine.steps := by
    intro s t hs hst
    cases s with
    | collect l lbs m1 => exact hs.elim
    | execute l lbs vs m1 =>
      rcases shStep_execute_good manifest l lbs vs h0 hb hs with hg | hg
      · rw [hst] at hg
        cases t with
        | collect => exact hg.elim
        | execute => exact ⟨hg.1, hg.2⟩
      · rw [hst] at hg
        cases hg
  have hbound : ∀ s, ExecutesWithin b s → s.machine.steps ≤ b := by
    intro s hs
    cases s with
    | collect => exact hs.elim
    | execute => exact hs.steps
  obtain ⟨n, r, t, ht, hPt, hr⟩ := halts_of_bounded hstep hbound
    (s := .execute 0 labels [] m) h
  refine ⟨n, r, ⟨t, ht, hr⟩, ?_⟩
  cases t with
  | collect => exact hPt.elim
  | execute l lbs vs m1 =>
    rcases shStep_execute_good manifest l lbs vs h0 hb hPt with hg | hg
    · rw [hr] at hg
      exact hg
    · rw [hr] at hg
      cases hg
      have := hPt.steps
      refine ⟨by dsimp only; omega, ?_⟩
      simp only [reduceCtorEq, false_iff]
      omega

theorem shCollect_steps (hlines : lineCount manifest < 2 ^ 32)
    (m : Machine) (l : Nat) (hl : l ≤ lineCount manifest) (labels : List ShLabel) :
    ∃ n labels', Steps (shStep manifest) n (.collect l labels m) (.execute 0 labels' [] m) := by
  induction hd : lineCount manifest - l generalizing l labels with
  | zero =>
    have hnone := mengShFindLine_eq_none_iff.mpr (show lineCount manifest ≤ l by omega)
    exact ⟨1, labels, .one (by simp only [shStep, hnone])⟩
  | succ d ih =>
    have hsome : mengShFindLine l manifest ≠ none := by
      rw [Ne, mengShFindLine_eq_none_iff]
      omega
    obtain ⟨line, hline⟩ := Option.ne_none_iff_exists'.mp hsome
    have hnext : nextLine l = l + 1 := Nat.mod_eq_of_lt (by omega)
    obtain ⟨n, labels', hn⟩ := ih (l + 1) (by omega)
      (collectLabel (shWords line) l labels) (by omega)
    exact ⟨n + 1, labels', .head (by simp only [shStep, hline, hnext]) hn⟩

/-- The labels are collected, at a line of the range of the counter. -/
def CollectsInRange : ShState → Prop
  | .collect l _ _ => l < 2 ^ 32
  | .execute .. => False

theorem not_shReturns_of_lines (hlines : 2 ^ 32 ≤ lineCount manifest)
    (m : Machine) (r : Status × Machine) : ¬ ShReturns m manifest r := by
  rintro ⟨n, hn⟩
  refine not_halts_of_invariant (P := CollectsInRange) ?_ ?_ n r hn
  · intro s hs
    cases s with
    | execute => exact hs.elim
    | collect l labels m =>
      have hsome : mengShFindLine l manifest ≠ none := by
        rw [Ne, mengShFindLine_eq_none_iff]
        have : l < 2 ^ 32 := hs
        omega
      obtain ⟨line, hline⟩ := Option.ne_none_iff_exists'.mp hsome
      refine ⟨.collect (nextLine l) (collectLabel (shWords line) l labels) m, ?_, ?_⟩
      · simp only [shStep, hline]
      · exact Nat.mod_lt _ (by decide)
  · show (0 : Nat) < 2 ^ 32
    decide

theorem shWatched_of_ne_max (h0 : budget ≠ 0) (hmax : budget ≠ 0xFFFFFFFF)
    (hlines : lineCount manifest < 2 ^ 32) :
    ShWatched budget manifest := by
  intro generation m hm
  obtain ⟨hb0, hb⟩ := budget_bounds h0 hmax
  obtain ⟨n1, labels, hn1⟩ :=
    shCollect_steps hlines (mengMachineReset generation m) 0 (Nat.zero_le _) []
  obtain ⟨n2, r, hn2, hr⟩ := shExecute_halts manifest labels hb0 hb (within_reset hm)
  exact ⟨r, ⟨n1 + n2, .of_steps hn1 hn2⟩, hr⟩

/-- The script `a:` / `goto a`. -/
def loopScript : List UInt8 := ascii ['a', ':', '\n', 'g', 'o', 't', 'o', ' ', 'a']

def loopLabel : ShLabel := ⟨ascii ['a'], 0⟩

/-- The states of a run of `loopScript` on the largest budget. -/
def Looping : ShState → Prop
  | .collect l labels m =>
    m.stepBudget = 0xFFFFFFFF ∧ (l = 0 ∧ labels = [] ∨ (l = 1 ∨ l = 2) ∧ labels = [loopLabel])
  | .execute l labels vars m =>
    m.stepBudget = 0xFFFFFFFF ∧ (l = 0 ∨ l = 1) ∧ labels = [loopLabel] ∧ vars = []

theorem not_shWatched_loopScript : ¬ ShWatched 0xFFFFFFFF loopScript := by
  intro h
  obtain ⟨r, ⟨n, hn⟩, _⟩ := h 0 { (default : Machine) with stepBudget := 0xFFFFFFFF } rfl
  refine not_halts_of_invariant (P := Looping) ?_
    (show Looping (.collect 0 [] _) from ⟨rfl, .inl ⟨rfl, rfl⟩⟩) n r hn
  intro s hs
  cases s with
  | collect l labels m =>
    obtain ⟨hm, ⟨rfl, rfl⟩ | ⟨rfl | rfl, rfl⟩⟩ := hs
    · exact ⟨.collect 1 [loopLabel] m, rfl, hm, .inr ⟨.inl rfl, rfl⟩⟩
    · exact ⟨.collect 2 [loopLabel] m, rfl, hm, .inr ⟨.inr rfl, rfl⟩⟩
    · exact ⟨.execute 0 [loopLabel] [] m, rfl, hm, .inl rfl, rfl, rfl⟩
  | execute l labels vars m =>
    obtain ⟨hm, rfl | rfl, rfl, rfl⟩ := hs
    · refine ⟨.execute 1 [loopLabel] [] { m with steps := m.steps + 1 }, ?_, hm, .inr rfl, rfl, rfl⟩
      simp only [shStep, mengMachineStep_max hm]
      rfl
    · refine ⟨.execute 0 [loopLabel] [] { m with steps := m.steps + 1 }, ?_, hm, .inl rfl, rfl, rfl⟩
      simp only [shStep, mengMachineStep_max hm]
      rfl

/-! ## When the watchdog keeps its promise -/

/-- For a budget other than zero, every kernel run and every run of a script of
fewer than `2 ^ 32` lines stops in time just when the budget is not
`0xFFFFFFFF`; and no run of a longer script stops at all. -/
theorem watchdog_iff (budget : UInt32) (h0 : budget ≠ 0) :
    (KernelWatched budget ↔ budget ≠ 0xFFFFFFFF) ∧
    ((∀ manifest, lineCount manifest < 2 ^ 32 → ShWatched budget manifest) ↔
      budget ≠ 0xFFFFFFFF) ∧
    (∀ manifest, 2 ^ 32 ≤ lineCount manifest → ¬ ShWatched budget manifest) := by
  refine ⟨⟨?_, kernelWatched_of_ne_max h0⟩, ⟨?_, ?_⟩, ?_⟩
  · rintro h rfl
    exact not_kernelWatched_max h
  · rintro h rfl
    exact not_shWatched_loopScript (h loopScript (by decide))
  · exact fun hmax manifest hlines => shWatched_of_ne_max h0 hmax hlines
  · intro manifest hlines h
    obtain ⟨r, hr, _⟩ := h 0 { (default : Machine) with stepBudget := budget } rfl
    exact not_shReturns_of_lines hlines _ r hr

/-- The budget of the engine's own watchdog test. -/
theorem watchdog_iff_200 : (200 : UInt32) ≠ 0 ∧ (KernelWatched 200 ↔ (200 : UInt32) ≠ 0xFFFFFFFF) :=
  ⟨by decide, (watchdog_iff 200 (by decide)).1⟩

/-- `jmp 0` on a machine reset with budget `0xFFFFFFFF` has not returned after
any number of turns. -/
theorem watchdog_max_jmp :
    ∃ m : Machine, m.stepBudget = 0xFFFFFFFF ∧
      ∀ fuel, mengKernelRun default fuel (mengMachineReset 0 m) [Word.mk' .jmp 0 0] [] = none := by
  refine ⟨{ (default : Machine) with stepBudget := 0xFFFFFFFF }, rfl, fun fuel => ?_⟩
  cases hr : mengKernelRun default fuel
      (mengMachineReset 0 { (default : Machine) with stepBudget := 0xFFFFFFFF })
      [Word.mk' .jmp 0 0] [] with
  | none => rfl
  | some r =>
    exfalso
    obtain ⟨n, hn⟩ := (kernelReturns_iff (by simp) (by decide)).mp ⟨fuel, hr⟩
    exact jmp_zero_not_halts rfl n r hn

end Engines
