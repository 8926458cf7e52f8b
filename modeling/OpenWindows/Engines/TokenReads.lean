import OpenWindows.Engines.Assemble
import OpenWindows.Engines.Collect
import OpenWindows.Engines.CompileSound

/-!
# Token reads of the compilers

The compilers derive the last token of an expression by subtracting from the token count of the
statement.  `py_collect` keeps only statements with enough tokens.  `js_collect` and
`lua_collect` keep `print()`, `while ()` and `if ()` with no token at all, and for these the
subtraction wraps.  `reads_inside_iff` says that nothing else reads outside the tokens.
-/

namespace Engines

/-! ## Expressions inside their range -/

section Expr

variable {vars : List Ident} {cap hi : Nat} {tk : List Tok} {ws : List Word}

theorem bind_wild {α β : Type} {x : Except Stop α} {f : α → Except Stop β} :
    (x >>= f) = .error .wild ↔ x = .error .wild ∨ ∃ a, x = .ok a ∧ f a = .error .wild := by
  cases x with
  | error e =>
    constructor
    · intro h
      cases h
      exact .inl rfl
    · rintro (h | ⟨a, ha, -⟩)
      · cases h
        rfl
      · cases ha
  | ok a =>
    constructor
    · intro h
      exact .inr ⟨a, rfl, h⟩
    · rintro (h | ⟨a', ha, h⟩)
      · cases h
      · cases ha
        exact h

theorem pyEmit_ne_wild {o : Op} {a0 a1 : BitVec 64} :
    pyEmit cap ws o a0 a1 ≠ .error .wild := by
  unfold pyEmit
  split
  · intro h
    cases h
  · intro h
    cases h

theorem pyEmits_ne_wild {os : List Op} : pyEmits cap ws os ≠ .error .wild := by
  induction os generalizing ws with
  | nil => intro h; cases h
  | cons o os ih =>
    intro h
    rcases bind_wild.1 h with h | ⟨ws', -, h⟩
    · exact pyEmit_ne_wild h
    · exact ih h

theorem expr_ne_wild (hhi : hi < tk.length) (n : Nat) :
    (∀ ws p, pyFactor vars cap tk hi n ws p ≠ .error .wild) ∧
    (∀ ws p, pyTerm vars cap tk hi n ws p ≠ .error .wild) ∧
    (∀ ws p, pyTermLoop vars cap tk hi n ws p ≠ .error .wild) ∧
    (∀ ws p, pyExpr vars cap tk hi n ws p ≠ .error .wild) ∧
    (∀ ws p, pyExprLoop vars cap tk hi n ws p ≠ .error .wild) := by
  have hread : ∀ p, ¬ p > hi → tk[p]? ≠ none := by
    intro p hp hnone
    rw [List.getElem?_eq_none_iff] at hnone
    omega
  induction n with
  | zero => exact ⟨fun _ _ h => (by cases h), fun _ _ h => (by cases h), fun _ _ h => (by cases h),
      fun _ _ h => (by cases h), fun _ _ h => (by cases h)⟩
  | succ n ih =>
    obtain ⟨hfactor, hterm, htermLoop, hexpr, hexprLoop⟩ := ih
    refine ⟨fun ws p h => ?_, fun ws p h => ?_, fun ws p h => ?_, fun ws p h => ?_,
      fun ws p h => ?_⟩
    · rw [pyFactor] at h
      split at h
      · cases h
      · next hp =>
        split at h
        · next hnone => exact hread p hp hnone
        · rcases bind_wild.1 h with h | ⟨_, -, h⟩
          · exact pyEmit_ne_wild h
          · cases h
        · split at h
          · cases h
          · rcases bind_wild.1 h with h | ⟨_, -, h⟩
            · exact pyEmit_ne_wild h
            · cases h
        · split at h
          · rcases bind_wild.1 h with h | ⟨⟨ws', q⟩, -, h⟩
            · exact hexpr _ _ h
            · dsimp only at h
              split at h
              · cases h
              · next hq =>
                split at h
                · next hnone => exact hread q hq hnone
                · split at h
                  · cases h
                  · cases h
          · split at h
            · rcases bind_wild.1 h with h | ⟨⟨ws', q⟩, -, h⟩
              · exact hfactor _ _ h
              · rcases bind_wild.1 h with h | ⟨_, -, h⟩
                · exact pyEmit_ne_wild h
                · cases h
            · cases h
        · cases h
    · rw [pyTerm] at h
      rcases bind_wild.1 h with h | ⟨⟨ws', q⟩, -, h⟩
      · exact hfactor _ _ h
      · exact htermLoop _ _ h
    · rw [pyTermLoop] at h
      split at h
      · cases h
      · next hp =>
        split at h
        · next hnone => exact hread p hp hnone
        · split at h
          · cases h
          · rcases bind_wild.1 h with h | ⟨⟨ws', q⟩, -, h⟩
            · exact hfactor _ _ h
            · rcases bind_wild.1 h with h | ⟨_, -, h⟩
              · exact pyEmit_ne_wild h
              · exact htermLoop _ _ h
        · cases h
    · rw [pyExpr] at h
      rcases bind_wild.1 h with h | ⟨⟨ws', q⟩, -, h⟩
      · exact hterm _ _ h
      · exact hexprLoop _ _ h
    · rw [pyExprLoop] at h
      split at h
      · cases h
      · next hp =>
        split at h
        · next hnone => exact hread p hp hnone
        · split at h
          · cases h
          · rcases bind_wild.1 h with h | ⟨⟨ws', q⟩, -, h⟩
            · exact hterm _ _ h
            · rcases bind_wild.1 h with h | ⟨_, -, h⟩
              · exact pyEmit_ne_wild h
              · exact hexprLoop _ _ h
        · cases h

theorem pyCond_ne_wild {lo : Nat} (hhi : hi < tk.length) :
    pyCond vars cap tk hi lo ws ≠ .error .wild := by
  intro h
  unfold pyCond at h
  rcases bind_wild.1 h with h | ⟨⟨ws', p⟩, -, h⟩
  · exact (expr_ne_wild hhi _).2.2.2.1 _ _ h
  · dsimp only at h
    split at h
    · cases h
    · next hp =>
      split at h
      · next hnone =>
        rw [List.getElem?_eq_none_iff] at hnone
        omega
      · split at h
        · cases h
        · rcases bind_wild.1 h with h | ⟨⟨ws'', q⟩, -, h⟩
          · exact (expr_ne_wild hhi _).2.2.2.1 _ _ h
          · dsimp only at h
            split at h
            · cases h
            · exact pyEmits_ne_wild h
      · cases h

/-- A range that begins at a token that is not there is read there. -/
theorem pyCond_wild {lo : Nat} (hlo : lo ≤ hi) (hnone : tk[lo]? = none) :
    pyCond vars cap tk hi lo ws = .error .wild := by
  have hfactor : ∀ n, pyFactor vars cap tk hi (n + 1) ws lo = .error .wild := by
    intro n
    rw [pyFactor, if_neg (Nat.not_lt.2 hlo), hnone]
  have hterm : ∀ n, pyTerm vars cap tk hi (n + 2) ws lo = .error .wild := by
    intro n
    rw [pyTerm, hfactor]
    rfl
  have hexpr : ∀ n, pyExpr vars cap tk hi (n + 3) ws lo = .error .wild := by
    intro n
    rw [pyExpr, hterm]
    rfl
  unfold pyCond exprFuel
  rw [hexpr]
  rfl

end Expr

/-! ## Statements -/

/-- A `print`, `while` or `if` without a token. -/
def Stmt.Empty (s : Stmt) : Prop :=
  (s.kind = .sPrint ∨ s.kind = .sWhile ∨ s.kind = .sIf) ∧ s.tk = []

/-- What the classifiers ensure: a `while` or `if` with tokens has as many as the subtraction of
the front-end takes off. -/
def Stmt.Sized (F : Front) (s : Stmt) : Prop :=
  (s.kind = .sWhile ∨ s.kind = .sIf) → s.tk ≠ [] → F.condEnd ≤ s.tk.length

/-- What a front-end subtracts is there. -/
structure Front.Subtracts (F : Front) : Prop where
  printArg : F.printArg ≤ 1
  condArg : F.condArg ≤ 1
  condEnd : 1 ≤ F.condEnd ∧ F.condEnd ≤ 2
  target : ∀ tk x, F.target tk = some x → 2 ≤ tk.length

theorem pyFront_subtracts : pyFront.Subtracts where
  printArg := Nat.le_refl 1
  condArg := Nat.le_refl 1
  condEnd := ⟨by decide, Nat.le_refl 2⟩
  target tk x h := by
    unfold pyFront at h
    dsimp only at h
    split at h
    · cases h
    · omega

theorem jsFront_subtracts : jsFront.Subtracts where
  printArg := Nat.zero_le 1
  condArg := Nat.zero_le 1
  condEnd := ⟨Nat.le_refl 1, by decide⟩
  target tk x h := by
    unfold jsFront at h
    dsimp only at h
    split at h
    · cases h
    · omega

section Stmt

variable {F : Front} {cap : Nat} {V : VarTab} {ws : List Word} {s : Stmt}

theorem hi_lt {k : Nat} (hpos : 0 < k) (hk : k ≤ s.tk.length) : s.hi k < s.tk.length := by
  have hfits := s.fits
  rw [pyMaxTok] at hfits
  rw [Stmt.hi]
  omega

theorem le_hi_of_empty {k lo : Nat} (hempty : s.tk = []) (hpos : 0 < k) (hk : k ≤ 2)
    (hlo : lo ≤ 1) : lo ≤ s.hi k := by
  rw [Stmt.hi, hempty, List.length_nil]
  omega

theorem emitAssign_ne_wild (hF : F.Subtracts) : emitAssign F cap V ws s ≠ .error .wild := by
  intro h
  unfold emitAssign at h
  split at h
  · cases h
  · next x hx =>
    rcases bind_wild.1 h with h | ⟨⟨V', slot⟩, -, h⟩
    · unfold pyVarDeclare at h
      split at h
      · cases h
      · split at h
        · cases h
        · cases h
    · rcases bind_wild.1 h with h | ⟨ws', -, h⟩
      · rw [F.value_eq hx] at h
        have htwo := hF.target s.tk x hx
        exact pyCond_ne_wild (hi_lt Nat.one_pos (by omega)) h
      · rcases bind_wild.1 h with h | ⟨ws'', -, h⟩
        · exact pyEmit_ne_wild h
        · cases h

theorem emitPrint_wild_iff (hF : F.Subtracts) :
    emitPrint F cap V ws s = .error .wild ↔ s.tk = [] := by
  constructor
  · intro h
    rcases bind_wild.1 h with h | ⟨ws', -, h⟩
    · unfold emitPrintArg at h
      split at h
      · exact absurd h pyEmit_ne_wild
      · cases htk : s.tk with
        | nil => rfl
        | cons t tk =>
          refine absurd h (pyCond_ne_wild (hi_lt Nat.one_pos ?_))
          rw [htk]
          exact Nat.succ_pos _
    · exact absurd h pyEmit_ne_wild
  · intro hempty
    have hnone : s.tk[F.printArg]? = none := by
      rw [hempty]
      rfl
    refine bind_wild.2 (.inl ?_)
    unfold emitPrintArg
    rw [hnone]
    exact pyCond_wild (le_hi_of_empty hempty Nat.one_pos (by decide) hF.printArg) hnone

theorem emitTest_wild_iff (hF : F.Subtracts) (hs : s.Sized F)
    (hkind : s.kind = .sWhile ∨ s.kind = .sIf) :
    emitTest F cap V ws s = .error .wild ↔ s.tk = [] := by
  constructor
  · intro h
    rcases bind_wild.1 h with h | ⟨ws', -, h⟩
    · by_contra hne
      exact pyCond_ne_wild (hi_lt hF.condEnd.1 (hs hkind hne)) h
    · rcases bind_wild.1 h with h | ⟨ws'', -, h⟩
      · exact absurd h pyEmit_ne_wild
      · rcases bind_wild.1 h with h | ⟨_, -, h⟩
        · exact absurd h pyEmit_ne_wild
        · exact absurd h pyEmit_ne_wild
  · intro hempty
    have hnone : s.tk[F.condArg]? = none := by
      rw [hempty]
      rfl
    exact bind_wild.2 (.inl (pyCond_wild
      (le_hi_of_empty hempty hF.condEnd.1 hF.condEnd.2 hF.condArg) hnone))

end Stmt

/-! ## Whole compilations -/

/-- A turn of a compiler's loop: the turns left, the depth, the indentation of the parent, and
the state. -/
structure Visit where
  left : Nat
  depth : Nat
  parent : Int
  st : CState

/-- The statement a turn looks at. -/
def Visit.Looks (v : Visit) (s : Stmt) : Prop :=
  0 < v.left ∧ v.st.rest.head? = some s ∧ (s.indent : Int) > v.parent

/-- The outcome of the loop from a turn on. -/
def Visit.run (F : Front) (cap : Nat) (v : Visit) : Except Stop CState :=
  compileLoop F cap v.left v.depth v.parent v.st

/-- A turn that succeeds leads to another: the next statement, the block of a statement, or
what is behind the block. -/
inductive Next (F : Front) (cap : Nat) : Visit → Visit → Prop
  | assign {n d : Nat} {p : Int} {V V' : VarTab} {ws ws' : List Word} {s : Stmt}
      {rest : List Stmt} (hin : (s.indent : Int) > p) (hkind : s.kind = .sAssign)
      (hemit : emitAssign F cap V ws s = .ok (V', ws')) :
      Next F cap ⟨n + 1, d, p, ⟨V, ws, s :: rest⟩⟩ ⟨n, d, p, ⟨V', ws', rest⟩⟩
  | print {n d : Nat} {p : Int} {V : VarTab} {ws ws' : List Word} {s : Stmt}
      {rest : List Stmt} (hin : (s.indent : Int) > p) (hkind : s.kind = .sPrint)
      (hemit : emitPrint F cap V ws s = .ok ws') :
      Next F cap ⟨n + 1, d, p, ⟨V, ws, s :: rest⟩⟩ ⟨n, d, p, ⟨V, ws', rest⟩⟩
  | block {n d : Nat} {p : Int} {V : VarTab} {ws ws' : List Word} {s : Stmt}
      {rest : List Stmt} (hin : (s.indent : Int) > p) (hkind : s.kind = .sWhile ∨ s.kind = .sIf)
      (hemit : emitTest F cap V ws s = .ok ws') (hdepth : ¬ d + 1 > pyMaxDepth) :
      Next F cap ⟨n + 1, d, p, ⟨V, ws, s :: rest⟩⟩ ⟨n, d + 1, s.indent, ⟨V, ws', rest⟩⟩
  | behindWhile {n d : Nat} {p : Int} {V : VarTab} {ws ws' ws'' : List Word} {s : Stmt}
      {rest : List Stmt} {body : CState} (hin : (s.indent : Int) > p) (hkind : s.kind = .sWhile)
      (hemit : emitTest F cap V ws s = .ok ws') (hdepth : ¬ d + 1 > pyMaxDepth)
      (hbody : compileLoop F cap n (d + 1) s.indent ⟨V, ws', rest⟩ = .ok body)
      (hne : ¬ body.ws.length = ws'.length - 1 + 1)
      (hjmp : pyEmit cap body.ws .jmp (BitVec.ofNat 64 ws.length) 0 = .ok ws'') :
      Next F cap ⟨n + 1, d, p, ⟨V, ws, s :: rest⟩⟩
        ⟨n, d, p, ⟨body.vars, patch ws'' (ws'.length - 1) ws''.length, body.rest⟩⟩
  | behindIf {n d : Nat} {p : Int} {V : VarTab} {ws ws' : List Word} {s : Stmt}
      {rest : List Stmt} {body : CState} (hin : (s.indent : Int) > p) (hkind : s.kind = .sIf)
      (hemit : emitTest F cap V ws s = .ok ws') (hdepth : ¬ d + 1 > pyMaxDepth)
      (hbody : compileLoop F cap n (d + 1) s.indent ⟨V, ws', rest⟩ = .ok body)
      (helse : takeElse F s body.rest = none) :
      Next F cap ⟨n + 1, d, p, ⟨V, ws, s :: rest⟩⟩
        ⟨n, d, p, ⟨body.vars, patch body.ws (ws'.length - 1) body.ws.length, body.rest⟩⟩
  | elseBlock {n d : Nat} {p : Int} {V : VarTab} {ws ws' ws'' : List Word} {s : Stmt}
      {rest rest' : List Stmt} {body : CState} (hin : (s.indent : Int) > p)
      (hkind : s.kind = .sIf) (hemit : emitTest F cap V ws s = .ok ws')
      (hdepth : ¬ d + 1 > pyMaxDepth)
      (hbody : compileLoop F cap n (d + 1) s.indent ⟨V, ws', rest⟩ = .ok body)
      (helse : takeElse F s body.rest = some rest')
      (hjmp : pyEmit cap body.ws .jmp 0 0 = .ok ws'') :
      Next F cap ⟨n + 1, d, p, ⟨V, ws, s :: rest⟩⟩
        ⟨n, d + 1, s.indent,
          ⟨body.vars, patch ws'' (ws'.length - 1) (body.ws.length + 1), rest'⟩⟩
  | behindElse {n d : Nat} {p : Int} {V : VarTab} {ws ws' ws'' : List Word} {s : Stmt}
      {rest rest' : List Stmt} {body alt : CState} (hin : (s.indent : Int) > p)
      (hkind : s.kind = .sIf) (hemit : emitTest F cap V ws s = .ok ws')
      (hdepth : ¬ d + 1 > pyMaxDepth)
      (hbody : compileLoop F cap n (d + 1) s.indent ⟨V, ws', rest⟩ = .ok body)
      (helse : takeElse F s body.rest = some rest')
      (hjmp : pyEmit cap body.ws .jmp 0 0 = .ok ws'')
      (halt : compileLoop F cap n (d + 1) s.indent
        ⟨body.vars, patch ws'' (ws'.length - 1) (body.ws.length + 1), rest'⟩ = .ok alt) :
      Next F cap ⟨n + 1, d, p, ⟨V, ws, s :: rest⟩⟩
        ⟨n, d, p, ⟨alt.vars, patch alt.ws body.ws.length alt.ws.length, alt.rest⟩⟩

section Compile

variable {F : Front} {cap : Nat}

theorem atDepth_wild {α : Type} {d : Nat} {x : Except Stop α} :
    atDepth d x = .error .wild ↔ ¬ d > pyMaxDepth ∧ x = .error .wild := by
  unfold atDepth
  constructor
  · intro h
    split at h
    · cases h
    · next hd => exact ⟨hd, h⟩
  · rintro ⟨hd, h⟩
    rw [if_neg hd]
    exact h

theorem atDepth_ok_iff {α : Type} {d : Nat} {x : Except Stop α} {a : α} :
    atDepth d x = .ok a ↔ ¬ d > pyMaxDepth ∧ x = .ok a := by
  unfold atDepth
  constructor
  · intro h
    split at h
    · cases h
    · next hd => exact ⟨hd, h⟩
  · rintro ⟨hd, h⟩
    rw [if_neg hd]
    exact h

/-- A turn before a read outside the tokens leads to it. -/
theorem Next.wild {v v' : Visit} (h : Next F cap v v') (hw : v'.run F cap = .error .wild) :
    v.run F cap = .error .wild := by
  unfold Visit.run at hw ⊢
  unfold compileLoop
  cases h with
  | assign hin hkind hemit | print hin hkind hemit =>
    dsimp only
    rw [if_pos hin, hkind]
    exact bind_wild.2 (.inr ⟨_, hemit, hw⟩)
  | block hin hkind hemit hdepth =>
    dsimp only
    rw [if_pos hin]
    rcases hkind with hkind | hkind <;> rw [hkind] <;>
      exact bind_wild.2 (.inr ⟨_, hemit, bind_wild.2 (.inl (atDepth_wild.2 ⟨hdepth, hw⟩))⟩)
  | behindWhile hin hkind hemit hdepth hbody hne hjmp =>
    dsimp only
    rw [if_pos hin, hkind]
    refine bind_wild.2 (.inr ⟨_, hemit, bind_wild.2 (.inr ⟨_, atDepth_ok_iff.2
      ⟨hdepth, hbody⟩, ?_⟩)⟩)
    rw [if_neg hne]
    exact bind_wild.2 (.inr ⟨_, hjmp, hw⟩)
  | behindIf hin hkind hemit hdepth hbody helse =>
    dsimp only
    rw [if_pos hin, hkind]
    refine bind_wild.2 (.inr ⟨_, hemit, bind_wild.2 (.inr ⟨_, atDepth_ok_iff.2
      ⟨hdepth, hbody⟩, ?_⟩)⟩)
    rw [helse]
    exact hw
  | elseBlock hin hkind hemit hdepth hbody helse hjmp =>
    dsimp only
    rw [if_pos hin, hkind]
    refine bind_wild.2 (.inr ⟨_, hemit, bind_wild.2 (.inr ⟨_, atDepth_ok_iff.2
      ⟨hdepth, hbody⟩, ?_⟩)⟩)
    rw [helse]
    exact bind_wild.2 (.inr ⟨_, hjmp, bind_wild.2 (.inl (atDepth_wild.2 ⟨hdepth, hw⟩))⟩)
  | behindElse hin hkind hemit hdepth hbody helse hjmp halt =>
    dsimp only
    rw [if_pos hin, hkind]
    refine bind_wild.2 (.inr ⟨_, hemit, bind_wild.2 (.inr ⟨_, atDepth_ok_iff.2
      ⟨hdepth, hbody⟩, ?_⟩)⟩)
    rw [helse]
    exact bind_wild.2 (.inr ⟨_, hjmp, bind_wild.2 (.inr ⟨_, atDepth_ok_iff.2
      ⟨hdepth, halt⟩, hw⟩)⟩)

/-- A read outside the tokens happens in this turn or behind it. -/
theorem run_wild_cases (hF : F.Subtracts) {v : Visit} (hsized : ∀ s ∈ v.st.rest, s.Sized F)
    (h : v.run F cap = .error .wild) :
    (∃ s, v.Looks s ∧ s.Empty) ∨ ∃ v', Next F cap v v' ∧ v'.run F cap = .error .wild := by
  obtain ⟨left, d, p, V, ws, stmts⟩ := v
  unfold Visit.run at h
  cases left with
  | zero => cases h
  | succ n =>
    unfold compileLoop at h
    cases stmts with
    | nil => cases h
    | cons s rest =>
      dsimp only at h
      by_cases hin : (s.indent : Int) > p
      · rw [if_pos hin] at h
        have hs : s.Sized F := hsized s List.mem_cons_self
        have hlooks : Visit.Looks ⟨n + 1, d, p, ⟨V, ws, s :: rest⟩⟩ s :=
          ⟨Nat.succ_pos n, rfl, hin⟩
        cases hkind : s.kind with
        | sAssign =>
          rw [hkind] at h
          rcases bind_wild.1 h with h | ⟨⟨V', ws'⟩, hemit, h⟩
          · exact absurd h (emitAssign_ne_wild hF)
          · exact .inr ⟨_, .assign hin hkind hemit, h⟩
        | sPrint =>
          rw [hkind] at h
          rcases bind_wild.1 h with h | ⟨ws', hemit, h⟩
          · exact .inl ⟨s, hlooks, .inl hkind, (emitPrint_wild_iff hF).1 h⟩
          · exact .inr ⟨_, .print hin hkind hemit, h⟩
        | sWhile =>
          rw [hkind] at h
          rcases bind_wild.1 h with h | ⟨ws', hemit, h⟩
          · exact .inl ⟨s, hlooks, .inr (.inl hkind),
              (emitTest_wild_iff hF hs (.inl hkind)).1 h⟩
          · rcases bind_wild.1 h with h | ⟨body, hbody, h⟩
            · obtain ⟨hdepth, h⟩ := atDepth_wild.1 h
              exact .inr ⟨_, .block hin (.inl hkind) hemit hdepth, h⟩
            · obtain ⟨hdepth, hbody⟩ := atDepth_ok_iff.1 hbody
              split at h
              · cases h
              · next hne =>
                rcases bind_wild.1 h with h | ⟨ws'', hjmp, h⟩
                · exact absurd h pyEmit_ne_wild
                · exact .inr ⟨_, .behindWhile hin hkind hemit hdepth hbody hne hjmp, h⟩
        | sIf =>
          rw [hkind] at h
          rcases bind_wild.1 h with h | ⟨ws', hemit, h⟩
          · exact .inl ⟨s, hlooks, .inr (.inr hkind),
              (emitTest_wild_iff hF hs (.inr hkind)).1 h⟩
          · rcases bind_wild.1 h with h | ⟨body, hbody, h⟩
            · obtain ⟨hdepth, h⟩ := atDepth_wild.1 h
              exact .inr ⟨_, .block hin (.inr hkind) hemit hdepth, h⟩
            · obtain ⟨hdepth, hbody⟩ := atDepth_ok_iff.1 hbody
              cases helse : takeElse F s body.rest with
              | none =>
                rw [helse] at h
                exact .inr ⟨_, .behindIf hin hkind hemit hdepth hbody helse, h⟩
              | some rest' =>
                rw [helse] at h
                rcases bind_wild.1 h with h | ⟨ws'', hjmp, h⟩
                · exact absurd h pyEmit_ne_wild
                · rcases bind_wild.1 h with h | ⟨alt, halt, h⟩
                  · exact .inr ⟨_, .elseBlock hin hkind hemit hdepth hbody helse hjmp,
                      (atDepth_wild.1 h).2⟩
                  · exact .inr ⟨_, .behindElse hin hkind hemit hdepth hbody helse hjmp
                      (atDepth_ok_iff.1 halt).2, h⟩
        | sElse | sOther =>
          rw [hkind] at h
          cases h
      · rw [if_neg hin] at h
        cases h

theorem run_wild_of_empty (hF : F.Subtracts) {v : Visit} {s : Stmt}
    (hsized : ∀ s ∈ v.st.rest, s.Sized F) (hlooks : v.Looks s) (hempty : s.Empty) :
    v.run F cap = .error .wild := by
  obtain ⟨left, d, p, V, ws, stmts⟩ := v
  obtain ⟨hleft, hhead, hin⟩ := hlooks
  unfold Visit.run
  cases left with
  | zero => cases hleft
  | succ n =>
    cases stmts with
    | nil => cases hhead
    | cons s' rest =>
      cases hhead
      have hs : s.Sized F := hsized s List.mem_cons_self
      unfold compileLoop
      dsimp only
      rw [if_pos hin]
      obtain ⟨hkind, htk⟩ := hempty
      rcases hkind with hkind | hkind | hkind
      · rw [hkind]
        exact bind_wild.2 (.inl ((emitPrint_wild_iff hF).2 htk))
      · rw [hkind]
        exact bind_wild.2 (.inl ((emitTest_wild_iff hF hs (.inl hkind)).2 htk))
      · rw [hkind]
        exact bind_wild.2 (.inl ((emitTest_wild_iff hF hs (.inr hkind)).2 htk))

theorem compileLoop_rest_subset {n d : Nat} {p : Int} {st st' : CState}
    (h : compileLoop F cap n d p st = .ok st') : st'.rest ⊆ st.rest := by
  obtain ⟨prog, hprog⟩ := compileLoop_sound n h
  rw [← hprog.nests.drop_eq.2]
  exact List.drop_subset _ _

theorem takeElse_subset {s : Stmt} {l l' : List Stmt} (h : takeElse F s l = some l') : l' ⊆ l := by
  obtain ⟨e, rfl, -⟩ := takeElse_eq_some h
  exact List.subset_cons_self e l'

/-- A turn leaves fewer turns and no other statements. -/
theorem Next.down {v v' : Visit} (h : Next F cap v v') :
    v'.left < v.left ∧ v'.st.rest ⊆ v.st.rest := by
  cases h with
  | assign _ _ _ | print _ _ _ => exact ⟨Nat.lt_succ_self _, List.subset_cons_self _ _⟩
  | block _ _ _ _ => exact ⟨Nat.lt_succ_self _, List.subset_cons_self _ _⟩
  | behindWhile _ _ _ _ hbody _ _ | behindIf _ _ _ _ hbody _ =>
    exact ⟨Nat.lt_succ_self _,
      List.subset_cons_of_subset _ (compileLoop_rest_subset hbody)⟩
  | elseBlock _ _ _ _ hbody helse _ =>
    have hbehind := List.Subset.trans (takeElse_subset helse) (compileLoop_rest_subset hbody)
    exact ⟨Nat.lt_succ_self _, List.subset_cons_of_subset _ hbehind⟩
  | behindElse _ _ _ _ hbody helse _ halt =>
    have hbehind := List.Subset.trans (takeElse_subset helse) (compileLoop_rest_subset hbody)
    have hafter := List.Subset.trans (compileLoop_rest_subset halt) hbehind
    exact ⟨Nat.lt_succ_self _, List.subset_cons_of_subset _ hafter⟩

/-- The compiler comes to a turn. -/
abbrev Comes (F : Front) (cap : Nat) : Visit → Visit → Prop := Relation.ReflTransGen (Next F cap)

theorem run_wild_iff (hF : F.Subtracts) {v : Visit} (hsized : ∀ s ∈ v.st.rest, s.Sized F) :
    v.run F cap = .error .wild ↔ ∃ v', Comes F cap v v' ∧ ∃ s, v'.Looks s ∧ s.Empty := by
  constructor
  · intro h
    induction hn : v.left using Nat.strong_induction_on generalizing v with
    | _ n ih =>
      rcases run_wild_cases hF hsized h with hhere | ⟨v', hnext, h'⟩
      · exact ⟨v, .refl, hhere⟩
      · obtain ⟨hlt, hsub⟩ := hnext.down
        obtain ⟨u, hcomes, hempty⟩ :=
          ih v'.left (hn ▸ hlt) (fun s hs => hsized s (hsub hs)) h' rfl
        exact ⟨u, .head hnext hcomes, hempty⟩
  · rintro ⟨v', hcomes, s, hlooks, hempty⟩
    induction hcomes using Relation.ReflTransGen.head_induction_on with
    | refl => exact run_wild_of_empty hF hsized hlooks hempty
    | head hnext _ ih =>
      exact hnext.wild (ih fun s hs => hsized s (hnext.down.2 hs))

end Compile

/-! ## From manifests on -/

/-- The languages. -/
inductive Lang where
  | py | js | lua
  deriving DecidableEq, Repr

def Lang.front : Lang → Front
  | .py => pyFront
  | .js => jsFront
  | .lua => luaFront

def Lang.collect (stale : Nat → List UInt8) :
    Lang → List UInt8 → Except CollectStop (List Stmt × StringPool)
  | .py, manifest => pyCollect manifest
  | .js, manifest => jsCollect manifest
  | .lua, manifest => luaCollect stale manifest

def Lang.compile (L : Lang) (ss : List Stmt) : Except Stop CState :=
  compileBlock L.front kWords 0 (-1) ⟨.empty, [], ss⟩

/-- The first turn of a compilation. -/
def Visit.start (ss : List Stmt) : Visit := ⟨ss.length + 1, 0, -1, ⟨.empty, [], ss⟩⟩

theorem collectLines_forall {line : LineFn} {Q : Stmt → Prop}
    (hline : ∀ l n P s P', line l n P = .ok (some s, P') → Q s) {ls : List (List UInt8)}
    {ss ss' : List Stmt} {P P' : StringPool} (h : collectLines line ls ss P = .ok (ss', P'))
    (hss : ∀ s ∈ ss, Q s) : ∀ s ∈ ss', Q s := by
  induction ls generalizing ss P with
  | nil =>
    cases h
    exact hss
  | cons l ls ih =>
    unfold collectLines at h
    cases hl : line l ss.length P with
    | error e =>
      rw [hl] at h
      cases h
    | ok r =>
      obtain ⟨s?, P₁⟩ := r
      rw [hl] at h
      cases s? with
      | none => exact ih h hss
      | some s =>
        refine ih h fun t ht => ?_
        rcases List.mem_append.1 ht with ht | ht
        · exact hss t ht
        · cases List.mem_singleton.1 ht
          exact hline l ss.length P s P₁ hl

theorem pyKind_length {tk : List Tok} {kind : StmtKind} (h : pyKind tk = some kind) :
    (kind = .sPrint ∨ kind = .sWhile ∨ kind = .sIf) → 2 ≤ tk.length := by
  intro hkind
  unfold pyKind at h
  split at h
  · next x rest =>
    dsimp only at h
    rw [List.length_cons]
    split at h
    · split at h
      · cases h
      · omega
    · split at h
      · split at h
        · cases h
        · next hn =>
          rw [not_or] at hn
          omega
      · split at h
        · split at h
          · cases h
          · next hn =>
            rw [not_or] at hn
            omega
        · split at h
          · split at h
            · cases h
            · cases h
              rcases hkind with hk | hk | hk <;> cases hk
          · split at h
            · cases h
              rcases hkind with hk | hk | hk <;> cases hk
            · cases h
  · cases h

theorem pyLine_kind {l : List UInt8} {n : Nat} {P P' : StringPool} {s : Stmt}
    (h : pyLine l n P = .ok (some s, P')) : pyKind s.tk = some s.kind := by
  unfold pyLine at h
  dsimp only at h
  split at h
  · cases h
  · split at h
    · cases h
    · split at h
      · cases h
      · split at h
        · cases h
        · next kind hkind =>
          cases h
          exact hkind

theorem pyCollect_kind {manifest : List UInt8} {ss : List Stmt} {P : StringPool}
    (h : pyCollect manifest = .ok (ss, P)) : ∀ s ∈ ss, pyKind s.tk = some s.kind :=
  collectLines_forall (fun _ _ _ _ _ => pyLine_kind) h fun s hs => by cases hs

theorem sized_js (s : Stmt) : s.Sized jsFront := by
  intro _ hne
  exact List.length_pos_of_ne_nil hne

variable {L : Lang} {stale : Nat → List UInt8} {manifest : List UInt8} {ss : List Stmt}
  {P : StringPool}

theorem Lang.subtracts (L : Lang) : L.front.Subtracts := by
  cases L with
  | py => exact pyFront_subtracts
  | js | lua => exact jsFront_subtracts

theorem collect_sized (h : L.collect stale manifest = .ok (ss, P)) :
    ∀ s ∈ ss, s.Sized L.front := by
  intro s hs
  cases L with
  | py =>
    intro hkind _
    exact pyKind_length (pyCollect_kind h s hs) (.inr hkind)
  | js | lua => exact sized_js s

theorem compile_eq_run (L : Lang) (ss : List Stmt) :
    L.compile ss = (Visit.start ss).run L.front kWords := rfl

/-- For every manifest that a language accepts: the compilation of its statements never reads a
token outside its statement exactly when it never comes to a `print`, `while` or `if` without
tokens. -/
theorem reads_inside_iff (L : Lang) (stale : Nat → List UInt8) (manifest : List UInt8)
    (ss : List Stmt) (P : StringPool) (h : L.collect stale manifest = .ok (ss, P)) :
    L.compile ss ≠ .error .wild ↔
      ∀ v s, Comes L.front kWords (Visit.start ss) v → v.Looks s → ¬ s.Empty := by
  have hiff := @run_wild_iff L.front kWords L.subtracts _
    (show ∀ s ∈ (Visit.start ss).st.rest, s.Sized L.front from collect_sized h)
  rw [compile_eq_run, ne_eq, hiff]
  constructor
  · intro hno v s hcomes hlooks hempty
    exact hno ⟨v, hcomes, s, hlooks, hempty⟩
  · rintro hall ⟨v, hcomes, s, hlooks, hempty⟩
    exact hall v s hcomes hlooks hempty

/-- A print with an argument. -/
theorem reads_inside_iff_print :
    Lang.compile .js [⟨0, .sPrint, [.num 7], by decide⟩] ≠ .error .wild ↔
      ∀ v s, Comes Lang.js.front kWords (Visit.start [⟨0, .sPrint, [.num 7], by decide⟩]) v →
        v.Looks s → ¬ s.Empty :=
  reads_inside_iff .js (fun _ => []) (ascii ['p', 'r', 'i', 'n', 't', '(', '7', ')']) _ .empty rfl

/-- `print()` is accepted without tokens, and its compilation reads the first one. -/
theorem empty_print_reads :
    ¬ ∀ L stale manifest ss P, Lang.collect stale L manifest = .ok (ss, P) →
      L.compile ss ≠ .error .wild := by
  intro h
  have hcollect : Lang.collect (fun _ => []) .js
      (ascii ['p', 'r', 'i', 'n', 't', '(', ')']) =
        .ok ([⟨0, .sPrint, [], Nat.zero_le _⟩], .empty) := rfl
  refine h _ _ _ _ _ hcollect ?_
  rw [compile_eq_run]
  refine (run_wild_iff jsFront_subtracts fun s _ => sized_js s).2 ⟨_, .refl, ?_⟩
  exact ⟨_, ⟨Nat.succ_pos _, rfl, by decide⟩, .inl rfl, rfl⟩

end Engines
