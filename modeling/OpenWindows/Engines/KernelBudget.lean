import OpenWindows.Engines.Kernel

/-!
# Budget and meaning of a kernel run

A turn of the kernel loop charges a step and executes a word.  `coreStep`
executes the word and charges nothing, so a core run says what a program does
and not whether the budget lasts.  `exec` neither reads the counter nor changes
it (`exec_uncharged`, `exec_addSteps`).  So a core run is a kernel run with the
counter moved on as long as the budget grants its steps (`charge_steps`), and a
kernel run that the watchdog does not stop is a core run (`uncharge_halts`).
-/

namespace Engines

open StepSystem

/-! ## Executing a word charges nothing -/

/-- An outcome that charged nothing: the counter and the budget are as before,
and the status is not the watchdog's. -/
def Uncharged (m : Machine) : KState ⊕ KResult → Prop
  | .inl t => t.m.steps = m.steps ∧ t.m.stepBudget = m.stepBudget
  | .inr r => r.m.steps = m.steps ∧ r.exit ≠ .status .errTrap

variable {s : KState}

theorem uncharged_done {st : Status} (h : st ≠ .errTrap) : Uncharged s.m (s.done st) :=
  ⟨rfl, fun he => h (Exit.status.inj he)⟩

theorem uncharged_push (v mta : BitVec 64) : Uncharged s.m (s.push v mta) := by
  unfold KState.push
  split
  · exact uncharged_done (by decide)
  · exact ⟨rfl, rfl⟩

theorem uncharged_jump (nw : Nat) (a0 : BitVec 64) : Uncharged s.m (s.jump nw a0) := by
  unfold KState.jump
  split
  · exact uncharged_done (by decide)
  · exact ⟨rfl, rfl⟩

theorem uncharged_popInt {k : BitVec 64 → List (BitVec 64) → KState ⊕ KResult}
    (hk : ∀ v rest, Uncharged s.m (k v rest)) : Uncharged s.m (s.popInt k) := by
  unfold KState.popInt
  split
  · split
    · exact uncharged_done (by decide)
    · exact hk _ _
  · exact uncharged_done (by decide)

theorem uncharged_popInts {k : BitVec 64 → BitVec 64 → List (BitVec 64) → KState ⊕ KResult}
    (hk : ∀ a b rest, Uncharged s.m (k a b rest)) : Uncharged s.m (s.popInts k) := by
  unfold KState.popInts
  split
  · split
    · exact uncharged_done (by decide)
    · split
      · exact uncharged_done (by decide)
      · exact hk _ _ _
  · exact uncharged_done (by decide)

theorem uncharged_concat (E : KEnv) (pa la pb lb : Nat) (rest : List (BitVec 64)) :
    Uncharged s.m (s.concat E pa la pb lb rest) := by
  unfold KState.concat
  dsimp only
  split
  · exact uncharged_done (by decide)
  · split
    · exact ⟨rfl, by simp⟩
    · split
      · exact ⟨rfl, by simp⟩
      · unfold KState.push
        split
        · exact ⟨rfl, by simp⟩
        · exact ⟨rfl, rfl⟩

theorem exec_uncharged (E : KEnv) (nw : Nat) (w : Word) (s : KState) :
    Uncharged s.m (exec E nw w s) := by
  unfold exec
  cases Op.ofCode? w.op with
  | none => exact uncharged_done (by decide)
  | some o =>
    dsimp only
    cases o with
    | nop => exact ⟨rfl, rfl⟩
    | pushi => exact uncharged_push _ _
    | pushs =>
      dsimp only
      split
      · exact uncharged_done (by decide)
      · split
        · exact uncharged_done (by decide)
        · exact uncharged_push _ _
    | dup2 =>
      dsimp only
      split
      · exact uncharged_push _ _
      · exact uncharged_done (by decide)
    | swap2 | drop2 =>
      dsimp only
      split
      · exact ⟨rfl, rfl⟩
      · exact uncharged_done (by decide)
    | iadd | isub | imul | idiv | imod =>
      refine uncharged_popInts fun a b rest => ?_
      split
      · exact uncharged_done (by decide)
      · exact ⟨rfl, by simp⟩
      · exact uncharged_push (s := { s with cells := rest }) _ _
    | ineg =>
      dsimp only
      split
      · split
        · exact uncharged_done (by decide)
        · exact ⟨rfl, rfl⟩
      · exact uncharged_done (by decide)
    | cmpeq | cmpne | cmplt | cmple => exact uncharged_popInts fun a b rest => ⟨rfl, rfl⟩
    | jnz =>
      refine uncharged_popInt fun v rest => ?_
      split
      · exact uncharged_jump (s := { s with cells := rest }) _ _
      · exact ⟨rfl, rfl⟩
    | jmp => exact uncharged_jump _ _
    | gload =>
      dsimp only
      split
      · exact uncharged_done (by decide)
      · split
        · exact ⟨rfl, by simp⟩
        · exact uncharged_push _ _
    | gstore =>
      dsimp only
      split
      · exact uncharged_done (by decide)
      · refine uncharged_popInt fun v rest => ?_
        split
        · exact ⟨rfl, rfl⟩
        · exact ⟨rfl, by simp⟩
    | call =>
      dsimp only
      split
      · exact uncharged_done (by decide)
      · split
        · exact uncharged_done (by decide)
        · exact ⟨rfl, rfl⟩
    | ret =>
      dsimp only
      split
      · exact uncharged_done (by decide)
      · exact ⟨rfl, rfl⟩
    | concat =>
      dsimp only
      split
      · split
        · exact uncharged_done (by decide)
        · split
          · exact uncharged_done (by decide)
          · exact uncharged_concat E _ _ _ _ _
      · exact uncharged_done (by decide)
    | print =>
      dsimp only
      split
      · split
        · exact ⟨mengMachineOutInt_steps _ _, mengMachineOutInt_stepBudget _ _⟩
        · split
          · split
            · exact ⟨rfl, by simp⟩
            · exact ⟨Machine.emit_steps _ _, Machine.emit_stepBudget _ _⟩
          · exact uncharged_done (by decide)
      · exact uncharged_done (by decide)
    | halt => exact uncharged_done (by decide)

/-! ## Executing a word does not read the machine -/

/-- A map of machines that commutes with reads and writes of the scratch arena. -/
structure Transparent (φ : Machine → Machine) : Prop where
  scratch : ∀ m, (φ m).scratch = m.scratch
  write : ∀ m scratch n, φ { m with scratch := scratch, scratchLen := n } =
    { φ m with scratch := scratch, scratchLen := n }

def KState.mapMachine (φ : Machine → Machine) (s : KState) : KState := { s with m := φ s.m }

def KResult.mapMachine (φ : Machine → Machine) (r : KResult) : KResult := { r with m := φ r.m }

def mapOutcome (φ : Machine → Machine) : KState ⊕ KResult → KState ⊕ KResult :=
  Sum.map (KState.mapMachine φ) (KResult.mapMachine φ)

section Transparent

variable {φ : Machine → Machine}

theorem done_mapMachine (st : Status) :
    (s.mapMachine φ).done st = mapOutcome φ (s.done st) := rfl

theorem push_mapMachine (v mta : BitVec 64) :
    (s.mapMachine φ).push v mta = mapOutcome φ (s.push v mta) := by
  unfold KState.push
  split
  · next h => rw [if_pos (show s.cells.length + 2 > stackCells from h), done_mapMachine]
  · next h => rw [if_neg (show ¬ s.cells.length + 2 > stackCells from h)]; rfl

theorem jump_mapMachine (nw : Nat) (a0 : BitVec 64) :
    (s.mapMachine φ).jump nw a0 = mapOutcome φ (s.jump nw a0) := by
  unfold KState.jump
  split <;> rfl

theorem popInt_mapMachine {f f' : BitVec 64 → List (BitVec 64) → KState ⊕ KResult}
    (hf : ∀ v rest, f' v rest = mapOutcome φ (f v rest)) :
    (s.mapMachine φ).popInt f' = mapOutcome φ (s.popInt f) := by
  unfold KState.popInt KState.mapMachine
  dsimp only
  split
  · split
    · rfl
    · exact hf _ _
  · rfl

theorem popInts_mapMachine {f f' : BitVec 64 → BitVec 64 → List (BitVec 64) → KState ⊕ KResult}
    (hf : ∀ a b rest, f' a b rest = mapOutcome φ (f a b rest)) :
    (s.mapMachine φ).popInts f' = mapOutcome φ (s.popInts f) := by
  unfold KState.popInts KState.mapMachine
  dsimp only
  split
  · split
    · rfl
    · split
      · rfl
      · exact hf _ _ _
  · rfl

theorem concat_mapMachine (hφ : Transparent φ) (E : KEnv) (pa la pb lb : Nat)
    (rest : List (BitVec 64)) :
    (s.mapMachine φ).concat E pa la pb lb rest = mapOutcome φ (s.concat E pa la pb lb rest) := by
  unfold KState.concat
  dsimp only
  split
  · rfl
  · rw [show (s.mapMachine φ).m.scratch = s.m.scratch from hφ.scratch s.m]
    split
    · rfl
    · split
      · rfl
      · rw [← push_mapMachine]
        exact congrArg (fun m => KState.push ⟨m, s.g, rest, s.rstk, s.pc⟩ _ _)
          (hφ.write s.m _ _).symm

theorem exec_mapMachine (hφ : Transparent φ) (E : KEnv) (nw : Nat) {w : Word}
    (hw : Op.ofCode? w.op ≠ some .print) (s : KState) :
    exec E nw w (s.mapMachine φ) = mapOutcome φ (exec E nw w s) := by
  unfold exec
  cases ho : Op.ofCode? w.op with
  | none => rfl
  | some o =>
    dsimp only
    cases o with
    | nop => rfl
    | pushi => exact push_mapMachine _ _
    | pushs =>
      dsimp only
      split
      · rfl
      · split
        · rfl
        · exact push_mapMachine _ _
    | dup2 =>
      dsimp only [KState.mapMachine]
      split
      · exact push_mapMachine _ _
      · rfl
    | swap2 | drop2 =>
      dsimp only [KState.mapMachine]
      split <;> rfl
    | iadd | isub | imul | idiv | imod =>
      refine popInts_mapMachine fun a b rest => ?_
      split
      · rfl
      · rfl
      · exact push_mapMachine (s := { s with cells := rest }) _ _
    | ineg =>
      dsimp only [KState.mapMachine]
      split
      · split <;> rfl
      · rfl
    | cmpeq | cmpne | cmplt | cmple => exact popInts_mapMachine fun a b rest => rfl
    | jnz =>
      refine popInt_mapMachine fun v rest => ?_
      split
      · exact jump_mapMachine (s := { s with cells := rest }) _ _
      · rfl
    | jmp => exact jump_mapMachine _ _
    | gload =>
      dsimp only
      rw [show (s.mapMachine φ).g = s.g from rfl]
      split
      · rfl
      · split
        · rfl
        · exact push_mapMachine _ _
    | gstore =>
      dsimp only
      rw [show (s.mapMachine φ).g = s.g from rfl]
      split
      · rfl
      · refine popInt_mapMachine fun v rest => ?_
        split <;> rfl
    | call =>
      dsimp only
      rw [show (s.mapMachine φ).rstk = s.rstk from rfl]
      split
      · rfl
      · split <;> rfl
    | ret =>
      dsimp only [KState.mapMachine]
      split <;> rfl
    | concat =>
      dsimp only
      rw [show (s.mapMachine φ).cells = s.cells from rfl]
      split
      · split
        · rfl
        · split
          · rfl
          · exact concat_mapMachine hφ E _ _ _ _ _
      · rfl
    | print => exact absurd ho hw
    | halt => rfl

end Transparent

/-! ## Executing a word does not read the counter -/

/-- The machine with its counter moved on. -/
def Machine.addSteps (m : Machine) (k : Nat) : Machine := { m with steps := m.steps + k }

/-- The state with its counter moved on. -/
def KState.addSteps (s : KState) (k : Nat) : KState := { s with m := s.m.addSteps k }

/-- The result with its counter moved on. -/
def KResult.addSteps (r : KResult) (k : Nat) : KResult := { r with m := r.m.addSteps k }

/-- The outcome with its counter moved on. -/
def moveSteps (k : Nat) : KState ⊕ KResult → KState ⊕ KResult
  | .inl s => .inl (s.addSteps k)
  | .inr r => .inr (r.addSteps k)

variable {k : Nat}

theorem moveSteps_eq (k : Nat) (u : KState ⊕ KResult) :
    moveSteps k u = mapOutcome (·.addSteps k) u := by
  cases u with
  | inl s => rfl
  | inr r => rfl

theorem transparent_addSteps (k : Nat) : Transparent (·.addSteps k) :=
  ⟨fun _ => rfl, fun _ _ _ => rfl⟩

theorem mengMachineOut_addSteps (m : Machine) (p : List UInt8) :
    (mengMachineOut (m.addSteps k) p).2 = (mengMachineOut m p).2.addSteps k := by
  unfold mengMachineOut Machine.addSteps
  dsimp only
  split
  · rfl
  · split
    · rfl
    · split <;> rfl

theorem mengMachineOutInt_addSteps (m : Machine) (v : BitVec 64) :
    (mengMachineOutInt (m.addSteps k) v).2 = (mengMachineOutInt m v).2.addSteps k :=
  mengMachineOut_addSteps { m with num := mengItoa v numBufSize } _

theorem exec_addSteps (E : KEnv) (nw : Nat) (w : Word) (s : KState) (k : Nat) :
    exec E nw w (s.addSteps k) = moveSteps k (exec E nw w s) := by
  by_cases hw : Op.ofCode? w.op = some .print
  · unfold exec
    rw [hw]
    dsimp only [KState.addSteps]
    split
    · split
      · simp only [moveSteps, KState.addSteps, mengMachineOutInt_addSteps]
      · split
        · rw [show (s.m.addSteps k).scratch = s.m.scratch from rfl]
          split
          · rfl
          · simp only [moveSteps, KState.addSteps, mengMachineOut_addSteps]
        · rfl
    · rfl
  · rw [moveSteps_eq]
    exact exec_mapMachine (transparent_addSteps k) E nw hw s

/-! ## Core runs -/

/-- One turn of the loop without its step. -/
def coreStep (E : KEnv) (words : List Word) (s : KState) : KState ⊕ KResult :=
  match words[s.pc]? with
  | none => s.done .ok
  | some w => exec E words.length w { s with pc := s.pc + 1 }

/-- The next `n` steps are granted. -/
def Machine.Affords (m : Machine) (n : Nat) : Prop :=
  ∀ i, i < n → (mengMachineStep (m.addSteps i)).1 = true

theorem mengMachineStep_snd (m : Machine) : (mengMachineStep m).2 = m.addSteps 1 := by
  unfold mengMachineStep
  dsimp only
  split <;> rfl

variable {E : KEnv} {words : List Word}

theorem kernelStep_eq (s : KState) {w : Word} (hw : words[s.pc]? = some w) :
    ((mengMachineStep s.m).1 = true ∧
      kernelStep E words s = moveSteps 1 (coreStep E words s)) ∨
    ((mengMachineStep s.m).1 = false ∧
      kernelStep E words s = .inr ⟨.status .errTrap, s.m.addSteps 1, s.g⟩) := by
  have hsnd := mengMachineStep_snd s.m
  unfold kernelStep coreStep
  rw [hw]
  dsimp only
  cases hm : mengMachineStep s.m with
  | mk granted m' =>
    rw [hm] at hsnd
    dsimp only at hsnd
    subst hsnd
    cases granted with
    | true => exact .inl ⟨rfl, exec_addSteps E words.length w { s with pc := s.pc + 1 } 1⟩
    | false => exact .inr ⟨rfl, rfl⟩

theorem coreStep_uncharged (s : KState) : Uncharged s.m (coreStep E words s) := by
  unfold coreStep
  split
  · exact uncharged_done (by decide)
  · exact exec_uncharged E words.length _ { s with pc := s.pc + 1 }

theorem coreStep_inl_word {t : KState} (h : coreStep E words s = .inl t) :
    ∃ w, words[s.pc]? = some w := by
  unfold coreStep at h
  cases hw : words[s.pc]? with
  | none => rw [hw] at h; cases h
  | some w => exact ⟨w, rfl⟩

@[simp] theorem KState.addSteps_zero (s : KState) : s.addSteps 0 = s := rfl

theorem KState.addSteps_add (s : KState) (j k : Nat) :
    (s.addSteps j).addSteps k = s.addSteps (j + k) := by
  simp only [KState.addSteps, Machine.addSteps, Nat.add_assoc]

theorem Machine.addSteps_add (m : Machine) (j k : Nat) :
    (m.addSteps j).addSteps k = m.addSteps (j + k) := by
  simp only [Machine.addSteps, Nat.add_assoc]

theorem coreStep_addSteps (s : KState) (k : Nat) :
    coreStep E words (s.addSteps k) = moveSteps k (coreStep E words s) := by
  unfold coreStep
  rw [show (s.addSteps k).pc = s.pc from rfl]
  split
  · rfl
  · exact exec_addSteps E words.length _ { s with pc := s.pc + 1 } k

theorem mengMachineStep_congr {m m' : Machine} (hs : m'.steps = m.steps)
    (hb : m'.stepBudget = m.stepBudget) : (mengMachineStep m').1 = (mengMachineStep m).1 := by
  unfold mengMachineStep
  simp only [hs, hb]
  split <;> rfl

variable {n : Nat} {r : KResult}

theorem charge_steps {t : KState} (h : Steps (coreStep E words) n s t) :
    ∀ k, (s.m.addSteps k).Affords n →
      Steps (kernelStep E words) n (s.addSteps k) (t.addSteps (k + n)) := by
  induction h with
  | refl s => exact fun k _ => .refl _
  | @head n s s' t hs _ ih =>
    intro k haff
    obtain ⟨w, hw⟩ := coreStep_inl_word hs
    have hun : Uncharged s.m (coreStep E words s) := coreStep_uncharged s
    rw [hs] at hun
    have hcore : coreStep E words (s.addSteps k) = .inl (s'.addSteps k) := by
      rw [coreStep_addSteps, hs]
      rfl
    rcases kernelStep_eq (E := E) (s.addSteps k) hw with ⟨_, hk⟩ | ⟨hden, _⟩
    · have hmove : kernelStep E words (s.addSteps k) = .inl (s'.addSteps (k + 1)) := by
        rw [hk, hcore]
        simp only [moveSteps, KState.addSteps_add]
      have hrest : (s'.m.addSteps (k + 1)).Affords n := by
        intro i hi
        have hgr := haff (i + 1) (by omega)
        rw [← hgr]
        refine mengMachineStep_congr ?_ hun.2
        simp only [Machine.addSteps, hun.1]
        omega
      have hgoal := ih (k + 1) hrest
      rw [Nat.add_assoc, Nat.add_comm 1 n] at hgoal
      exact .head hmove hgoal
    · have hgr := haff 0 (Nat.succ_pos n)
      rw [show (s.m.addSteps k).addSteps 0 = (s.addSteps k).m from rfl, hden] at hgr
      cases hgr

theorem uncharge_steps {u : KState} (h : Steps (kernelStep E words) n (s.addSteps k) u) :
    ∃ t, Steps (coreStep E words) n s t ∧ u = t.addSteps (k + n) := by
  induction n generalizing s k with
  | zero =>
    cases h
    exact ⟨s, .refl s, rfl⟩
  | succ n ih =>
    cases h with
    | head hs hrest =>
      cases hw : words[s.pc]? with
      | none =>
        simp only [kernelStep, show (s.addSteps k).pc = s.pc from rfl, hw] at hs
        cases hs
      | some w =>
        rcases kernelStep_eq (E := E) (s.addSteps k) hw with ⟨_, hk⟩ | ⟨_, hk⟩
        · rw [hk, coreStep_addSteps] at hs
          cases hc : coreStep E words s with
          | inr r => rw [hc] at hs; cases hs
          | inl s' =>
            rw [hc] at hs
            simp only [moveSteps, KState.addSteps_add, Sum.inl.injEq] at hs
            subst hs
            obtain ⟨t, ht, hu⟩ := ih hrest
            refine ⟨t, .head hc ht, ?_⟩
            rw [hu]
            congr 1
            omega
        · rw [hk] at hs
          cases hs

theorem uncharge_halts (h : Halts (kernelStep E words) n s r) (hr : r.exit ≠ .status .errTrap) :
    ∃ r' k, Halts (coreStep E words) n s r' ∧ r = r'.addSteps k := by
  obtain ⟨u, hu, hur⟩ := h
  rw [← KState.addSteps_zero s] at hu
  obtain ⟨t, ht, rfl⟩ := uncharge_steps hu
  cases hw : words[t.pc]? with
  | none =>
    have hd : kernelStep E words (t.addSteps (0 + n)) = (t.addSteps (0 + n)).done .ok := by
      simp only [kernelStep, show (t.addSteps (0 + n)).pc = t.pc from rfl, hw]
    rw [hur] at hd
    refine ⟨⟨.status .ok, t.m, t.g⟩, 0 + n, ⟨t, ht, ?_⟩, Sum.inr.inj hd⟩
    simp only [coreStep, hw]
    rfl
  | some w =>
    rcases kernelStep_eq (E := E) (t.addSteps (0 + n)) hw with ⟨_, hk⟩ | ⟨_, hk⟩
    · rw [hk, coreStep_addSteps] at hur
      cases hc : coreStep E words t with
      | inl t' => rw [hc] at hur; cases hur
      | inr r' =>
        rw [hc] at hur
        simp only [moveSteps, Sum.inr.injEq] at hur
        exact ⟨r', (0 + n) + 1, ⟨t, ht, hc⟩, by
          rw [← hur]
          simp only [KResult.addSteps, Machine.addSteps_add]⟩
    · rw [hk] at hur
      cases hur
      exact absurd rfl hr

theorem charge_halts (h : Halts (coreStep E words) n s r) :
    ∃ n' r', Halts (kernelStep E words) n' s r' ∧
      (r'.exit = .status .errTrap ∨ ∃ k, r' = r.addSteps k) := by
  obtain ⟨t, ht, hr⟩ := h
  suffices hgen : ∀ k, ∃ n' r', Halts (kernelStep E words) n' (s.addSteps k) r' ∧
      (r'.exit = .status .errTrap ∨ ∃ k, r' = r.addSteps k) from
    hgen 0
  induction ht with
  | refl s =>
    intro k
    cases hw : words[s.pc]? with
    | none =>
      have hrd : r = ⟨.status .ok, s.m, s.g⟩ := by
        simp only [coreStep, hw] at hr
        exact (Sum.inr.inj hr).symm
      refine ⟨0, r.addSteps k, ⟨s.addSteps k, .refl _, ?_⟩, .inr ⟨k, rfl⟩⟩
      simp only [kernelStep, show (s.addSteps k).pc = s.pc from rfl, hw, hrd]
      rfl
    | some w =>
      rcases kernelStep_eq (E := E) (s.addSteps k) hw with ⟨_, hk⟩ | ⟨_, hk⟩
      · rw [coreStep_addSteps, hr] at hk
        refine ⟨0, _, ⟨s.addSteps k, .refl _, hk⟩, .inr ⟨k + 1, ?_⟩⟩
        simp only [KResult.addSteps, Machine.addSteps_add]
      · exact ⟨0, _, ⟨s.addSteps k, .refl _, hk⟩, .inl rfl⟩
  | @head n s s' t hs _ ih =>
    intro k
    obtain ⟨w, hw⟩ := coreStep_inl_word hs
    rcases kernelStep_eq (E := E) (s.addSteps k) hw with ⟨_, hk⟩ | ⟨_, hk⟩
    · rw [coreStep_addSteps, hs] at hk
      simp only [moveSteps, KState.addSteps_add] at hk
      obtain ⟨n', r', hh, hend⟩ := ih hr (k + 1)
      exact ⟨1 + n', r', .of_steps (.one hk) hh, hend⟩
    · exact ⟨0, _, ⟨s.addSteps k, .refl _, hk⟩, .inl rfl⟩

theorem charge_halts_of_affords (h : Halts (coreStep E words) n s r) (haff : s.m.Affords (n + 1)) :
    ∃ k, Halts (kernelStep E words) n s (r.addSteps k) := by
  obtain ⟨t, ht, hr⟩ := h
  have hsteps := charge_steps ht 0 (fun i hi => haff i (by omega))
  rw [KState.addSteps_zero, Nat.zero_add] at hsteps
  cases hw : words[t.pc]? with
  | none =>
    have hend : r = ⟨.status .ok, t.m, t.g⟩ := by
      simp only [coreStep, hw] at hr
      exact (Sum.inr.inj hr).symm
    refine ⟨n, _, hsteps, ?_⟩
    simp only [kernelStep, show (t.addSteps n).pc = t.pc from rfl, hw, hend]
    rfl
  | some w =>
    rcases kernelStep_eq (E := E) (t.addSteps n) hw with ⟨_, hk⟩ | ⟨hden, _⟩
    · rw [coreStep_addSteps, hr] at hk
      refine ⟨n + 1, _, hsteps, ?_⟩
      rw [hk]
      simp only [moveSteps, KResult.addSteps, Machine.addSteps_add]
    · have hgr := haff n (Nat.lt_succ_self n)
      have hm : t.m.steps = s.m.steps ∧ t.m.stepBudget = s.m.stepBudget :=
        ht.invariant (P := fun u => u.m.steps = s.m.steps ∧ u.m.stepBudget = s.m.stepBudget)
          (fun u v hu huv => by
            have hun : Uncharged u.m (coreStep E words u) := coreStep_uncharged u
            rw [huv] at hun
            exact ⟨hun.1.trans hu.1, hun.2.trans hu.2⟩) ⟨rfl, rfl⟩
      have hsame : (mengMachineStep (t.addSteps n).m).1 = (mengMachineStep (s.m.addSteps n)).1 :=
        mengMachineStep_congr (by simp [KState.addSteps, Machine.addSteps, hm.1]) hm.2
      rw [hsame, hgr] at hden
      cases hden

end Engines
