import OpenWindows.Engines.KernelSafety

/-!
# Division in the kernel

`IDIV` and `IMOD` are guarded against a divisor of zero.  The other pair without a quotient in 64
bits, `INT64_MIN` by `-1`, is not.  `divisions_defined_iff` says that nothing else is wrong: in
every run the results of all divisions are those of the integers, and zero divisors end the run,
exactly when that pair never meets a division.
-/

namespace Engines

open StepSystem

/-- The quotient of two 64-bit integers exists in 64 bits.  The remainder is defined with it. -/
def QuotientExists (a b : BitVec 64) : Prop :=
  b.toInt ≠ 0 ∧ -2 ^ 63 ≤ a.toInt.tdiv b.toInt ∧ a.toInt.tdiv b.toInt < 2 ^ 63

/-- The integer that a division has for its result. -/
def divResult (o : Op) (a b : BitVec 64) : Int :=
  if o = .idiv then a.toInt.tdiv b.toInt else a.toInt.tmod b.toInt

/-- The next turn of the loop divides `a` by `b`. -/
structure Divides (words : List Word) (s : KState) (o : Op) (a b : BitVec 64)
    (rest : List (BitVec 64)) : Prop where
  word : ∃ w, words[s.pc]? = some w ∧ Op.ofCode? w.op = some o
  isDiv : o = .idiv ∨ o = .imod
  charged : (mengMachineStep s.m).1 = true
  operands : ∃ ma mb, s.cells = mb :: b :: ma :: a :: rest ∧ mengCellType mb = tInt ∧
    mengCellType ma = tInt

/-- A division that the next turn makes has a defined result, or the run ends with
`MENG_ERR_RUNTIME`. -/
def DivisionOk (E : KEnv) (words : List Word) (s : KState) : Prop :=
  ∀ o a b rest, Divides words s o a b rest →
    (QuotientExists a b ∧ ∃ t v, kernelStep E words s = .inl t ∧ t.cells = tInt :: v :: rest ∧
      v.toInt = divResult o a b) ∨
    (¬ QuotientExists a b ∧ ∃ r, kernelStep E words s = .inr r ∧ r.exit = .status .errRuntime)

/-- The next turn divides `INT64_MIN` by `-1`. -/
def Overflows (words : List Word) (s : KState) : Prop :=
  ∃ o rest, Divides words s o int64Min (-1) rest

/-- A state that `meng_kernel_run` reaches. -/
def Reaches (E : KEnv) (m : Machine) (words : List Word) (g : List (BitVec 64)) (s : KState) :
    Prop :=
  words ≠ [] ∧ g.length ≤ kGlobals ∧ ∃ n, Steps (kernelStep E words) n (KState.init m g) s

variable {E : KEnv} {words : List Word} {s : KState} {o : Op} {a b : BitVec 64}
  {rest : List (BitVec 64)}

theorem not_quotientExists_min : ¬ QuotientExists int64Min (-1) := by
  unfold QuotientExists
  decide

theorem quotientExists_iff : QuotientExists a b ↔ b ≠ 0 ∧ ¬ (a = int64Min ∧ b = -1) := by
  constructor
  · intro h
    refine ⟨?_, ?_⟩
    · rintro rfl
      exact h.1 rfl
    · rintro ⟨rfl, rfl⟩
      exact not_quotientExists_min h
  · rintro ⟨hb, hmin⟩
    have hdiv : (a.sdiv b).toInt = a.toInt.tdiv b.toInt :=
      BitVec.toInt_sdiv_of_ne_or_ne a b (not_and_or.1 hmin)
    refine ⟨?_, ?_, ?_⟩
    · intro hzero
      exact hb (BitVec.eq_of_toInt_eq hzero)
    · rw [← hdiv]
      exact (a.sdiv b).le_toInt
    · rw [← hdiv]
      exact (a.sdiv b).toInt_lt

theorem arith_div (ho : o = .idiv ∨ o = .imod) :
    (arith o a b = .divZero ∧ b = 0) ∨ (arith o a b = .overflow ∧ a = int64Min ∧ b = -1) ∨
      (∃ v, arith o a b = .value v ∧ QuotientExists a b ∧ v.toInt = divResult o a b) := by
  by_cases hb : b = 0
  · refine .inl ⟨?_, hb⟩
    rcases ho with rfl | rfl <;> exact if_pos hb
  · by_cases hmin : a = int64Min ∧ b = -1
    · refine .inr (.inl ⟨?_, hmin⟩)
      rcases ho with rfl | rfl <;> exact (if_neg hb).trans (if_pos hmin)
    · refine .inr (.inr ?_)
      have hq : QuotientExists a b := quotientExists_iff.2 ⟨hb, hmin⟩
      rcases ho with rfl | rfl
      · refine ⟨a.sdiv b, (if_neg hb).trans (if_neg hmin), hq, ?_⟩
        exact BitVec.toInt_sdiv_of_ne_or_ne a b (not_and_or.1 hmin)
      · exact ⟨a.srem b, (if_neg hb).trans (if_neg hmin), hq, BitVec.toInt_srem a b⟩

theorem Divides.step (h : Divides words s o a b rest) :
    kernelStep E words s =
      match arith o a b with
      | .divZero => .inr ⟨.status .errRuntime, (mengMachineStep s.m).2, s.g⟩
      | .overflow => .inr ⟨.fault .divOverflow, (mengMachineStep s.m).2, s.g⟩
      | .value v =>
        KState.push ⟨(mengMachineStep s.m).2, s.g, rest, s.rstk, s.pc + 1⟩ v tInt := by
  obtain ⟨w, hw, hop⟩ := h.word
  obtain ⟨ma, mb, hcells, hmb, hma⟩ := h.operands
  have hcharged := h.charged
  unfold kernelStep
  rw [hw]
  dsimp only
  cases hstep : mengMachineStep s.m with
  | mk ok m =>
    rw [hstep] at hcharged
    cases hcharged
    dsimp only
    unfold exec
    rw [hop]
    rcases h.isDiv with rfl | rfl
    all_goals
      dsimp only [KState.popInts]
      rw [hcells]
      dsimp only
      rw [if_neg (not_not.2 hmb), if_neg (not_not.2 hma)]
      rfl

theorem divisionOk_of_not_overflows (hdepth : s.cells.length ≤ stackCells)
    (h : ¬ Overflows words s) : DivisionOk E words s := by
  intro o a b rest hd
  have hstep := hd.step (E := E)
  obtain ⟨ma, mb, hcells, -, -⟩ := hd.operands
  rcases arith_div (a := a) (b := b) hd.isDiv with ⟨har, hb⟩ | ⟨-, rfl, rfl⟩ | ⟨v, har, hq, hv⟩
  · rw [har] at hstep
    exact .inr ⟨fun hq => (quotientExists_iff.1 hq).1 hb, _, hstep, rfl⟩
  · exact absurd ⟨o, rest, hd⟩ h
  · rw [har] at hstep
    refine .inl ⟨hq, _, v, hstep.trans (if_neg ?_), rfl, hv⟩
    rw [hcells] at hdepth
    simp only [List.length_cons] at hdepth ⊢
    omega

theorem not_divisionOk_of_overflows (h : Overflows words s) : ¬ DivisionOk E words s := by
  obtain ⟨o, rest, hd⟩ := h
  intro hok
  have har : arith o int64Min (-1) = .overflow := by
    rcases hd.isDiv with rfl | rfl <;> rfl
  have hstep := hd.step (E := E)
  rw [har] at hstep
  rcases hok o int64Min (-1) rest hd with ⟨hq, -⟩ | ⟨-, r, hr, hexit⟩
  · exact not_quotientExists_min hq
  · rw [hstep] at hr
    cases hr
    cases hexit

/-- For all words, machines and globals: every division of the run has a defined result or ends
the run with `MENG_ERR_RUNTIME` exactly when no division meets `INT64_MIN` and `-1`. -/
theorem divisions_defined_iff (E : KEnv) (m : Machine) (words : List Word)
    (g : List (BitVec 64)) :
    (∀ s, Reaches E m words g s → DivisionOk E words s) ↔
      ∀ s, Reaches E m words g s → ¬ Overflows words s := by
  constructor
  · intro h s hs hover
    exact not_divisionOk_of_overflows hover (h s hs)
  · intro h s hs
    have hover := h s hs
    obtain ⟨-, -, n, hsteps⟩ := hs
    exact divisionOk_of_not_overflows (kInv_steps hsteps).depth hover

/-- The words that divide `INT64_MIN` by `-1`. -/
def minByMinusOne : List Word :=
  [Word.mk' .pushi int64Min 0, Word.mk' .pushi (-1) 0, Word.mk' .idiv 0 0]

/-- The division of the words above is not defined, and it does not end with
`MENG_ERR_RUNTIME`. -/
theorem division_undefined :
    (¬ ∀ s, Reaches default default minByMinusOne [] s → DivisionOk default minByMinusOne s) ∧
      (mengKernelRun default 3 default minByMinusOne []).map (·.exit) =
        some (.fault .divOverflow) := by
  have hrun : Steps (kernelStep default minByMinusOne) 2 (KState.init default [])
      ⟨(mengMachineStep (mengMachineStep default).2).2, [], [tInt, -1, tInt, int64Min], [], 2⟩ :=
    .head rfl (.one rfl)
  refine ⟨fun h => ?_, rfl⟩
  refine absurd (h _ ⟨List.cons_ne_nil _ _, Nat.zero_le _, 2, hrun⟩) ?_
  refine not_divisionOk_of_overflows ⟨.idiv, [], ⟨⟨_, rfl, rfl⟩, .inl rfl, rfl, ?_⟩⟩
  exact ⟨tInt, tInt, rfl, mengCellType_tInt, mengCellType_tInt⟩

end Engines
