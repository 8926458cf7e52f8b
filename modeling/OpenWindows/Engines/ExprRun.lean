import OpenWindows.Engines.KernelBudget
import OpenWindows.Engines.ExprParse

/-!
# Running the code of an expression

The code of a tree, standing anywhere in a program, computes the outcome of the
tree: it leaves the value on the stack and stops behind its last word, or the
run ends at the operation that has no result.  `Runs` states this for an
arbitrary piece of code, and `Runs.bind` puts pieces one after the other.

`pyCond_correct_iff` joins the parser and the kernel.
-/

namespace Engines

open StepSystem

/-! ## Single words -/

section

variable {E : KEnv} {words : List Word} {s : KState} {rest : List (BitVec 64)}

variable {o : Op} {v a b : BitVec 64} {i : Nat}

theorem coreStep_word {a0 a1 : BitVec 64} (hw : words[s.pc]? = some (Word.mk' o a0 a1)) :
    coreStep E words s = exec E words.length (Word.mk' o a0 a1) { s with pc := s.pc + 1 } := by
  unfold coreStep
  rw [hw]

theorem push_of_room {mta : BitVec 64} (h : s.cells.length + 2 ≤ stackCells) :
    s.push v mta = s.next (mta :: v :: s.cells) := by
  unfold KState.push
  rw [if_neg (by omega)]

theorem coreStep_pushi (hw : words[s.pc]? = some (Word.mk' .pushi v 0))
    (hroom : s.cells.length + 2 ≤ stackCells) :
    coreStep E words s = .inl { s with cells := tInt :: v :: s.cells, pc := s.pc + 1 } := by
  rw [coreStep_word hw]
  simp only [exec, Word.mk', Op.ofCode?_code]
  exact push_of_room hroom

theorem ofNat_toNat_of_lt (h : i < 2 ^ 63) : (BitVec.ofNat 64 i).toNat = i := by
  rw [BitVec.toNat_ofNat, Nat.mod_eq_of_lt (by omega)]

theorem ofNat_not_slt_zero (h : i < 2 ^ 63) : (BitVec.ofNat 64 i).slt 0 = false := by
  have hnat := ofNat_toNat_of_lt h
  have hint : (BitVec.ofNat 64 i).toInt = i := by
    rw [BitVec.toInt_eq_toNat_of_lt (by omega), hnat]
  simp only [BitVec.slt, hint, decide_eq_false_iff_not]
  exact Int.not_lt.mpr (Int.natCast_nonneg i)

theorem coreStep_gload
    (hw : words[s.pc]? = some (Word.mk' .gload (BitVec.ofNat 64 i) 0)) (hi : i < 2 ^ 63)
    (hg : s.g[i]? = some v) (hroom : s.cells.length + 2 ≤ stackCells) :
    coreStep E words s = .inl { s with cells := tInt :: v :: s.cells, pc := s.pc + 1 } := by
  obtain ⟨hlt, _⟩ := List.getElem?_eq_some_iff.mp hg
  rw [coreStep_word hw]
  simp only [exec, Word.mk', Op.ofCode?_code, ofNat_not_slt_zero hi, ofNat_toNat_of_lt hi]
  rw [if_neg (by simp; omega), hg]
  exact push_of_room hroom

theorem coreStep_ineg (hw : words[s.pc]? = some (Word.plain .ineg))
    (hs : s.cells = tInt :: v :: rest) :
    coreStep E words s = .inl { s with cells := tInt :: -v :: rest, pc := s.pc + 1 } := by
  rw [coreStep_word hw]
  simp only [exec, Word.mk', Op.ofCode?_code, hs]
  rfl

/-- What a word of the five binary operations does on two integers. -/
def arithResult (s : KState) (rest : List (BitVec 64)) : Arith → KState ⊕ KResult
  | .value v => .inl { s with cells := tInt :: v :: rest, pc := s.pc + 1 }
  | .divZero => .inr ⟨.status .errRuntime, s.m, s.g⟩
  | .overflow => .inr ⟨.fault .divOverflow, s.m, s.g⟩

/-- The five binary operations. -/
def Op.IsArith (o : Op) : Prop := o = .iadd ∨ o = .isub ∨ o = .imul ∨ o = .idiv ∨ o = .imod

theorem MulOp.isArith (o : MulOp) : o.op.IsArith := by
  cases o <;> simp [MulOp.op, Op.IsArith]

theorem AddOp.isArith (o : AddOp) : o.op.IsArith := by
  cases o <;> simp [AddOp.op, Op.IsArith]

theorem coreStep_arith (ho : o.IsArith)
    (hw : words[s.pc]? = some (Word.plain o)) (hs : s.cells = tInt :: b :: tInt :: a :: rest)
    (hroom : rest.length + 2 ≤ stackCells) :
    coreStep E words s = arithResult s rest (arith o a b) := by
  rw [coreStep_word hw]
  have hpush : ∀ v, ({ s with cells := rest, pc := s.pc + 1 } : KState).push v tInt =
      .inl { s with cells := tInt :: v :: rest, pc := s.pc + 1 } := fun v => push_of_room hroom
  rcases ho with rfl | rfl | rfl | rfl | rfl
  all_goals
    simp only [exec, Word.mk', Op.ofCode?_code, KState.popInts, hs,
      show mengCellType tInt = tInt from rfl, ne_eq, not_true_eq_false, if_false]
    cases arith _ a b with
    | value v => exact hpush v
    | divZero => rfl
    | overflow => rfl

theorem coreStep_swap {ma mb : BitVec 64} (hw : words[s.pc]? = some (Word.plain .swap2))
    (hs : s.cells = mb :: b :: ma :: a :: rest) :
    coreStep E words s = .inl { s with cells := ma :: a :: mb :: b :: rest, pc := s.pc + 1 } := by
  rw [coreStep_word hw]
  simp only [exec, Word.mk', Op.ofCode?_code, hs]
  rfl

def Op.IsCompare (o : Op) : Prop := o = .cmpeq ∨ o = .cmpne ∨ o = .cmplt ∨ o = .cmple

theorem coreStep_compare (ho : o.IsCompare)
    (hw : words[s.pc]? = some (Word.plain o)) (hs : s.cells = tInt :: b :: tInt :: a :: rest) :
    coreStep E words s =
      .inl { s with cells := tInt :: boolVal (compare o a b) :: rest, pc := s.pc + 1 } := by
  rw [coreStep_word hw]
  rcases ho with rfl | rfl | rfl | rfl
  all_goals
    simp only [exec, Word.mk', Op.ofCode?_code, KState.popInts, hs,
      show mengCellType tInt = tInt from rfl, ne_eq, not_true_eq_false, if_false]
    rfl

end

/-! ## Pieces of code -/

/-- The state with an integer pushed, `n` words on. -/
def KState.pushed (s : KState) (n : Nat) (v : BitVec 64) : KState :=
  { s with cells := tInt :: v :: s.cells, pc := s.pc + n }

/-- In `n` turns the piece of code at `s` goes to the state its outcome selects,
or the run has ended before, where the outcome has no value. -/
def Runs (E : KEnv) (words : List Word) (m : Machine) (g : List (BitVec 64)) (n : Nat)
    (s : KState) (r : Arith) (t : BitVec 64 → KState) : Prop :=
  match r with
  | .value v => Steps (coreStep E words) n s (t v)
  | .divZero => ∃ k, k < n ∧ Halts (coreStep E words) k s ⟨.status .errRuntime, m, g⟩
  | .overflow => ∃ k, k < n ∧ Halts (coreStep E words) k s ⟨.fault .divOverflow, m, g⟩

section

variable {E : KEnv} {words : List Word} {m : Machine} {g : List (BitVec 64)} {s : KState}

variable {t : BitVec 64 → KState}

theorem Runs.bind {n k : Nat} {r : Arith} {f : BitVec 64 → Arith} {u : BitVec 64 → KState}
    (h : Runs E words m g n s r t) (hf : ∀ v, Runs E words m g k (t v) (f v) u) :
    Runs E words m g (n + k) s (r.bind f) u := by
  cases r with
  | value v =>
    have hs : Steps (coreStep E words) n s (t v) := h
    have hv := hf v
    show Runs E words m g (n + k) s (f v) u
    unfold Runs at hv ⊢
    cases hfv : f v with
    | value x =>
      rw [hfv] at hv
      exact hs.trans hv
    | divZero | overflow =>
      rw [hfv] at hv
      obtain ⟨j, hj, hh⟩ := hv
      exact ⟨n + j, by omega, .of_steps hs hh⟩
  | divZero | overflow =>
    obtain ⟨j, hj, hh⟩ := h
    exact ⟨j, by omega, hh⟩

theorem Runs.value {v : BitVec 64}
    (h : coreStep E words s = .inl (t v)) : Runs E words m g 1 s (.value v) t :=
  Steps.one h

theorem Runs.arith {r : Arith} {rest : List (BitVec 64)}
    (h : coreStep E words s = arithResult s rest r)
    (ht : ∀ v, t v = { s with cells := tInt :: v :: rest, pc := s.pc + 1 }) :
    Runs E words s.m s.g 1 s r t := by
  cases r with
  | value v =>
    refine Steps.one ?_
    rw [h, ht]
    rfl
  | divZero | overflow => exact ⟨0, Nat.one_pos, s, .refl s, h⟩

/-- The values of the variables in the globals. -/
def storeOf (vars : List Ident) (g : List (BitVec 64)) : Store := fun x => g.getD (vars.idxOf x) 0

variable {vars : List Ident}

theorem getElem?_storeOf {x : Ident} (hx : x ∈ vars) (hg : vars.length ≤ g.length) :
    g[vars.idxOf x]? = some (storeOf vars g x) := by
  have hlt := List.idxOf_lt_length_of_mem hx
  rw [storeOf, List.getD_eq_getElem?_getD, List.getElem?_eq_getElem (by omega)]
  rfl

theorem runs_binary {c₁ c₂ : Cat} {l : Tree c₁} {r : Tree c₂} {o : Op} {rl rr : Arith}
    (ho : o.IsArith)
    (hseg : Segment words s.pc (l.code vars.idxOf ++ r.code vars.idxOf ++ [Word.plain o]))
    (hroom : s.cells.length + 2 ≤ stackCells)
    (hl : Runs E words s.m s.g l.size s rl (s.pushed l.size))
    (hr : ∀ a, Runs E words s.m s.g r.size (s.pushed l.size a) rr
      ((s.pushed l.size a).pushed r.size)) :
    Runs E words s.m s.g (l.size + r.size + 1) s
      (rl.bind fun a => rr.bind fun b => Engines.arith o a b) (s.pushed (l.size + r.size + 1)) := by
  rw [Nat.add_assoc]
  refine hl.bind fun a => (hr a).bind fun b => ?_
  have hw : words[s.pc + l.size + r.size]? = some (Word.plain o) := by
    have h := hseg.right.head
    rwa [List.length_append, Tree.length_code, Tree.length_code, ← Nat.add_assoc] at h
  refine Runs.arith (s := (s.pushed l.size a).pushed r.size b) (coreStep_arith ho hw rfl hroom) ?_
  intro v
  simp only [KState.pushed, Nat.add_assoc]

theorem Tree.runs {c : Cat} (t : Tree c) (hseg : Segment words s.pc (t.code vars.idxOf))
    (hroom : s.cells.length + 2 * t.need ≤ stackCells) (hdecl : ∀ x ∈ t.names, x ∈ vars)
    (hg : vars.length ≤ s.g.length) (hk : s.g.length ≤ kGlobals) :
    Runs E words s.m s.g t.size s (t.outcome (storeOf vars s.g)) (s.pushed t.size) := by
  have hkg : kGlobals = 64 := rfl
  induction t generalizing s with
  | num v => exact Runs.value (coreStep_pushi hseg.head hroom)
  | name x =>
    have hx : x ∈ vars := hdecl x (by simp [Tree.names])
    have hlt := List.idxOf_lt_length_of_mem hx
    have hsmall : vars.idxOf x < 2 ^ 63 := by omega
    exact Runs.value (coreStep_gload hseg.head hsmall (getElem?_storeOf hx hg) hroom)
  | paren e ih => exact ih hseg hroom hdecl hg hk
  | neg f ih =>
    refine (ih hseg.left hroom hdecl hg hk).bind fun v => Runs.value ?_
    have hw := hseg.right.head
    rw [Tree.length_code] at hw
    exact coreStep_ineg hw rfl
  | factor f ih => exact ih hseg hroom hdecl hg hk
  | mulop o t f iht ihf =>
    simp only [Tree.need] at hroom
    have hpos := t.need_pos
    have hf := hseg.left.right
    rw [Tree.length_code] at hf
    refine runs_binary o.isArith hseg (by omega) ?_ fun a => ?_
    · exact iht hseg.left.left (by omega) (fun x hx => hdecl x (List.mem_append_left _ hx)) hg hk
    · refine ihf (s := s.pushed t.size a) hf ?_
        (fun x hx => hdecl x (List.mem_append_right _ hx)) hg hk
      simp only [KState.pushed, List.length_cons]
      omega
  | term t ih => exact ih hseg hroom hdecl hg hk
  | addop o e t ihe iht =>
    simp only [Tree.need] at hroom
    have hpos := e.need_pos
    have ht := hseg.left.right
    rw [Tree.length_code] at ht
    refine runs_binary o.isArith hseg (by omega) ?_ fun a => ?_
    · exact ihe hseg.left.left (by omega) (fun x hx => hdecl x (List.mem_append_left _ hx)) hg hk
    · refine iht (s := s.pushed e.size a) ht ?_
        (fun x hx => hdecl x (List.mem_append_right _ hx)) hg hk
      simp only [KState.pushed, List.length_cons]
      omega

theorem runs_compare (o : CmpOp) {a b : BitVec 64} {rest : List (BitVec 64)}
    (hseg : Segment words s.pc (o.ops.map Word.plain))
    (hs : s.cells = tInt :: b :: tInt :: a :: rest) :
    Steps (coreStep E words) o.ops.length s
      { s with cells := tInt :: boolVal (o.holds a b) :: rest, pc := s.pc + o.ops.length } := by
  cases o with
  | eq => exact .one (coreStep_compare (.inl rfl) hseg.head hs)
  | ne => exact .one (coreStep_compare (.inr (.inl rfl)) hseg.head hs)
  | lt => exact .one (coreStep_compare (.inr (.inr (.inl rfl))) hseg.head hs)
  | le => exact .one (coreStep_compare (.inr (.inr (.inr rfl))) hseg.head hs)
  | gt =>
    -- a > b is computed as b < a
    refine .head (coreStep_swap hseg.head hs) (.one ?_)
    exact coreStep_compare (.inr (.inr (.inl rfl))) hseg.tail.head rfl
  | ge =>
    refine .head (coreStep_swap hseg.head hs) (.one ?_)
    exact coreStep_compare (.inr (.inr (.inr rfl))) hseg.tail.head rfl

theorem Cond.runs (c : Cond) (hseg : Segment words s.pc (c.code vars.idxOf))
    (hroom : s.cells.length + 2 * c.need ≤ stackCells) (hdecl : ∀ x ∈ c.names, x ∈ vars)
    (hg : vars.length ≤ s.g.length) (hk : s.g.length ≤ kGlobals) :
    Runs E words s.m s.g c.size s (c.outcome (storeOf vars s.g)) (s.pushed c.size) := by
  cases c with
  | expr e => exact e.runs hseg hroom hdecl hg hk
  | cmp o l r =>
    simp only [Cond.need] at hroom
    have hsegl : Segment words s.pc (l.code vars.idxOf ++ r.code vars.idxOf) := Segment.left hseg
    have hsegr := hsegl.right
    have hsego : Segment words _ (o.ops.map Word.plain) := Segment.right hseg
    rw [Tree.length_code] at hsegr
    rw [List.length_append, Tree.length_code, Tree.length_code, ← Nat.add_assoc] at hsego
    show Runs E words s.m s.g (l.size + r.size + o.ops.length) s _ _
    rw [Nat.add_assoc]
    refine (l.runs hsegl.left (by omega)
      (fun x hx => hdecl x (List.mem_append_left _ hx)) hg hk).bind fun a => ?_
    refine (r.runs (s := s.pushed l.size a) hsegr ?_
      (fun x hx => hdecl x (List.mem_append_right _ hx)) hg hk).bind fun b => ?_
    · simp only [KState.pushed, List.length_cons]
      omega
    · have h := runs_compare (E := E) (s := (s.pushed l.size a).pushed r.size b) o hsego rfl
      show Steps (coreStep E words) o.ops.length _ (s.pushed (l.size + r.size + o.ops.length) _)
      simpa only [KState.pushed, Nat.add_assoc] using h

end

/-! ## The condition compiler and the kernel -/

section

variable {E : KEnv} {words : List Word}

/-- The kernel, standing before `n` words at `s`, pushes the value and stands
behind them, or stops with `MENG_ERR_RUNTIME` where there is none. -/
def Computes (E : KEnv) (words : List Word) (s : KState) (n : Nat) (v : Option (BitVec 64)) : Prop :=
  match v with
  | some v => Steps (kernelStep E words) n s ((s.pushed n v).addSteps n)
  | none => ∃ k m, Halts (kernelStep E words) k s ⟨.status .errRuntime, m, s.g⟩

theorem Runs.computes_iff {s : KState} {n : Nat} {r : Arith} {v : Option (BitVec 64)}
    (h : Runs E words s.m s.g n s r (s.pushed n)) (hv : r.Agrees v) (haff : s.m.Affords n) :
    Computes E words s n v ↔ r ≠ .overflow := by
  cases r with
  | value x =>
    cases show v = some x from hv
    have hrun := charge_steps h 0 haff
    rw [KState.addSteps_zero, Nat.zero_add] at hrun
    exact ⟨fun _ => by simp, fun _ => hrun⟩
  | divZero =>
    cases show v = none from hv
    obtain ⟨k, hk, hh⟩ := h
    obtain ⟨j, hj⟩ := charge_halts_of_affords hh (fun i hi => haff i (by omega))
    exact ⟨fun _ => by simp, fun _ => ⟨k, _, hj⟩⟩
  | overflow =>
    obtain ⟨k, hk, hh⟩ := h
    obtain ⟨j, hj⟩ := charge_halts_of_affords hh (fun i hi => haff i (by omega))
    refine ⟨fun hc => ?_, fun hne => absurd rfl hne⟩
    cases v with
    | some x =>
      have hle := Steps.le_of_halts hc hj
      omega
    | none =>
      obtain ⟨k', m, hh'⟩ := hc
      have hr := congrArg KResult.exit (hh'.unique hj).2
      cases hr

/-- `py_cond` accepts the sentences of the grammar over declared variables that
fit, and no others.  The words it emits compute the value of the sentence from
any stack with room for it, exactly when the evaluation does not divide
`INT64_MIN` by `-1`. -/
theorem pyCond_correct_iff (vars : List Ident) (cap : Nat) (tk : List Tok) (lo hi : Nat)
    (ws : List Word) :
    (∀ ws', pyCond vars cap tk hi lo ws = .ok ws' → ∃ c, Sentence vars tk lo hi c) ∧
    (∀ c, Sentence vars tk lo hi c → ws.length + c.size ≤ cap →
      ∃ ws', pyCond vars cap tk hi lo ws = .ok ws') ∧
    (∀ ws', pyCond vars cap tk hi lo ws = .ok ws' → ∃ code, ws' = ws ++ code ∧
      ∀ c, Sentence vars tk lo hi c → ∀ E words s, Segment words s.pc code →
        s.cells.length + 2 * c.need ≤ stackCells → vars.length ≤ s.g.length →
        s.g.length ≤ kGlobals → s.m.Affords code.length →
        (Computes E words s code.length (c.value (storeOf vars s.g)) ↔
          c.outcome (storeOf vars s.g) ≠ .overflow)) := by
  refine ⟨?_, ?_, ?_⟩
  · intro ws' h
    obtain ⟨c, hc, _⟩ := pyCond_sound h
    exact ⟨c, hc⟩
  · intro c hc hcap
    exact ⟨_, pyCond_complete hc hcap⟩
  · intro ws' h
    obtain ⟨c₀, hc₀, hws, _⟩ := pyCond_sound h
    refine ⟨c₀.code vars.idxOf, hws, ?_⟩
    intro c hc E words s hseg hroom hg hk haff
    rw [hc₀.code_unique hc] at hseg haff ⊢
    rw [Cond.length_code] at haff ⊢
    exact (c.runs hseg hroom hc.declared hg hk).computes_iff (c.outcome_agrees _) haff

/-- `1 + 2` pushes `3`. -/
theorem pyCond_correct_iff_add :
    ∃ code, pyCond [] 8 [.num 1, .op .add, .num 2] 2 0 [] = .ok code ∧
      Computes default code (KState.init default []) code.length (some 3) := by
  have hs : Sentence [] [.num 1, .op .add, .num 2] 0 2
      (.expr (.addop .add (.term (.factor (.num 1))) (.factor (.num 2)))) :=
    ⟨⟨Segment.self _, rfl⟩, by decide⟩
  obtain ⟨-, hacc, hrun⟩ := pyCond_correct_iff [] 8 [.num 1, .op .add, .num 2] 0 2 []
  obtain ⟨ws, hws⟩ := hacc _ hs (by decide)
  obtain ⟨code, hcode, hiff⟩ := hrun ws hws
  refine ⟨code, by rw [hws, hcode, List.nil_append], ?_⟩
  refine (hiff _ hs default code (KState.init default []) (Segment.self _) (by decide) (by decide)
    (by decide) ?_).mpr (by decide)
  intro i _
  rfl

/-- `(-9223372036854775807 - 1) / -1`. -/
def minOverMinusOne : Cond :=
  .expr (.term (.mulop .div
    (.factor (.paren (.addop .sub (.term (.factor (.neg (.num 0x7FFFFFFFFFFFFFFF))))
      (.factor (.num 1))))) (.neg (.num 1))))

/-- The sentence is accepted and its value is `INT64_MIN`, but its words do not
push it. -/
theorem pyCond_min_over_minus_one :
    Sentence [] minOverMinusOne.yield 0 8 minOverMinusOne ∧
    pyCond [] 8 minOverMinusOne.yield 8 0 [] = .ok (minOverMinusOne.code fun _ => 0) ∧
    minOverMinusOne.value (storeOf [] []) = some int64Min ∧
    ¬ Computes default (minOverMinusOne.code fun _ => 0) (KState.init default []) 7
        (some int64Min) := by
  have hs : Sentence [] minOverMinusOne.yield 0 8 minOverMinusOne :=
    ⟨⟨Segment.self _, rfl⟩, by decide⟩
  refine ⟨hs, pyCond_complete hs (by decide), by decide, ?_⟩
  have hrun : Runs default (minOverMinusOne.code fun _ => 0) default [] 7 (KState.init default [])
      (minOverMinusOne.outcome (storeOf [] [])) ((KState.init default []).pushed 7) :=
    minOverMinusOne.runs (Segment.self _) (by decide) (by decide) (by decide) (by decide)
  have hiff := hrun.computes_iff (v := some int64Min) (minOverMinusOne.outcome_agrees (storeOf [] []))
    (fun i _ => rfl)
  rw [hiff]
  decide

end

end Engines
