import OpenWindows.Lib.Positions
import OpenWindows.Engines.Grammar

/-!
# What the expression compiler accepts and emits

`Parsed t ws p r` says that the parser, started at token `p` with the words
`ws`, has read the sentence of the tree `t` and emitted its code, and that it
stopped in `r`.  The loops of `py_term` and `py_expr` build a left-associative
tree, so their lemmas carry the tree read so far.

Soundness is an induction on the recursion count.  Completeness is an
induction on the tree: `py_term` on the sentence of a term comes to its loop
standing behind the term, whatever follows, and the loop then stops if the next
token does not continue the term.
-/

namespace Engines

/-- A sequence that succeeds has a first part that succeeds. -/
theorem bind_ok {α β : Type} {x : Except Stop α} {f : α → Except Stop β} {b : β}
    (h : (x >>= f) = .ok b) : ∃ a, x = .ok a ∧ f a = .ok b := by
  cases x with
  | error e => cases h
  | ok a => exact ⟨a, rfl, h⟩

theorem ok_bind {α β : Type} (a : α) (f : α → Except Stop β) : (Except.ok a >>= f) = f a := rfl

theorem pyEmit_ok {cap : Nat} {ws ws' : List Word} {o : Op} {a0 a1 : BitVec 64}
    (h : pyEmit cap ws o a0 a1 = .ok ws') :
    ws' = ws ++ [Word.mk' o a0 a1] ∧ ws'.length ≤ cap := by
  unfold pyEmit at h
  split at h
  · cases h
  · next hcap =>
    cases h
    exact ⟨rfl, by simp; omega⟩

theorem pyEmit_of_lt {cap : Nat} {ws : List Word} (o : Op) (a0 a1 : BitVec 64)
    (h : ws.length < cap) : pyEmit cap ws o a0 a1 = .ok (ws ++ [Word.mk' o a0 a1]) := by
  unfold pyEmit
  rw [if_neg (by omega)]

theorem pyVarFind_eq_some {vars : List Ident} {x : Ident} {i : Nat}
    (h : pyVarFind vars x = some i) : x ∈ vars ∧ i = vars.idxOf x := by
  have hx : x ∈ vars := by
    rw [← List.isSome_idxOf?]
    exact Option.isSome_of_eq_some h
  refine ⟨hx, ?_⟩
  rw [List.idxOf_eq_getD_idxOf?, show vars.idxOf? x = some i from h, Option.getD_some]

theorem pyVarFind_of_mem {vars : List Ident} {x : Ident} (h : x ∈ vars) :
    pyVarFind vars x = some (vars.idxOf x) := by
  obtain ⟨i, hi⟩ := Option.isSome_iff_exists.mp (List.isSome_idxOf?.mpr h)
  have hfind : pyVarFind vars x = some i := hi
  rw [hfind, (pyVarFind_eq_some hfind).2]

variable {o : PyOp}

theorem mulOp?_eq_some {ko : Op} (h : mulOp? o = some ko) : ∃ m : MulOp, o = m.tok ∧ ko = m.op := by
  cases o with
  | mul => exact ⟨.mul, rfl, (Option.some.inj h).symm⟩
  | div => exact ⟨.div, rfl, (Option.some.inj h).symm⟩
  | mod => exact ⟨.mod, rfl, (Option.some.inj h).symm⟩
  | _ => cases h

theorem addOp?_eq_some {ko : Op} (h : addOp? o = some ko) : ∃ a : AddOp, o = a.tok ∧ ko = a.op := by
  cases o with
  | add => exact ⟨.add, rfl, (Option.some.inj h).symm⟩
  | sub => exact ⟨.sub, rfl, (Option.some.inj h).symm⟩
  | _ => cases h

theorem cmpOps?_eq_some {kos : List Op} (h : cmpOps? o = some kos) :
    ∃ c : CmpOp, o = c.tok ∧ kos = c.ops := by
  cases o with
  | eq => exact ⟨.eq, rfl, (Option.some.inj h).symm⟩
  | ne => exact ⟨.ne, rfl, (Option.some.inj h).symm⟩
  | lt => exact ⟨.lt, rfl, (Option.some.inj h).symm⟩
  | le => exact ⟨.le, rfl, (Option.some.inj h).symm⟩
  | gt => exact ⟨.gt, rfl, (Option.some.inj h).symm⟩
  | ge => exact ⟨.ge, rfl, (Option.some.inj h).symm⟩
  | _ => cases h

@[simp] theorem mulOp?_tok (m : MulOp) : mulOp? m.tok = some m.op := by cases m <;> rfl

@[simp] theorem addOp?_tok (a : AddOp) : addOp? a.tok = some a.op := by cases a <;> rfl

@[simp] theorem cmpOps?_tok (c : CmpOp) : cmpOps? c.tok = some c.ops := by cases c <;> rfl

@[simp] theorem mulOp?_addTok (a : AddOp) : mulOp? a.tok = none := by cases a <;> rfl

@[simp] theorem mulOp?_cmpTok (c : CmpOp) : mulOp? c.tok = none := by cases c <;> rfl

@[simp] theorem addOp?_cmpTok (c : CmpOp) : addOp? c.tok = none := by cases c <;> rfl

section

variable {vars : List Ident} {cap : Nat} {tk : List Tok} {hi : Nat} {c : Cat}

/-! ## Soundness -/

/-- The parser has read the tree `t` from token `p` on and stopped in `r`. -/
structure Parsed (vars : List Ident) (cap : Nat) (tk : List Tok) (hi : Nat) (t : Tree c)
    (ws : List Word) (p : Nat) (r : List Word × Nat) : Prop where
  range : Segment tk p t.yield
  stop : r.2 = p + t.yield.length
  inside : r.2 ≤ hi + 1
  declared : ∀ x ∈ t.names, x ∈ vars
  emitted : r.1 = ws ++ t.code vars.idxOf
  fits : r.1.length ≤ cap

variable {p : Nat} {e : Tree .expr} {f : Tree .factor} {r : List Word × Nat} {ws : List Word}
  {t : Tree .term} {n : Nat}

theorem segment_token {k : Tok} (h : tk[p]? = some k) : Segment tk p [k] := by
  refine Segment.cons_iff.mpr ⟨h, Segment.nil_iff.mpr ?_⟩
  obtain ⟨hlt, _⟩ := List.getElem?_eq_some_iff.mp h
  exact hlt

variable {ws' : List Word}

theorem Parsed.num {v : BitVec 64} (hp : p ≤ hi)
    (htk : tk[p]? = some (.num v)) (he : pyEmit cap ws .pushi v 0 = .ok ws') :
    Parsed vars cap tk hi (.num v) ws p (ws', p + 1) := by
  obtain ⟨hws, hcap⟩ := pyEmit_ok he
  exact ⟨segment_token htk, rfl, Nat.succ_le_succ hp, by simp [Tree.names], hws, hcap⟩

theorem Parsed.name {i : Nat} {x : Ident} (hp : p ≤ hi)
    (htk : tk[p]? = some (.ident x)) (hx : pyVarFind vars x = some i)
    (he : pyEmit cap ws .gload (BitVec.ofNat 64 i) 0 = .ok ws') :
    Parsed vars cap tk hi (.name x) ws p (ws', p + 1) := by
  obtain ⟨hws, hcap⟩ := pyEmit_ok he
  obtain ⟨hmem, rfl⟩ := pyVarFind_eq_some hx
  exact ⟨segment_token htk, rfl, Nat.succ_le_succ hp, by simp [Tree.names, hmem], hws, hcap⟩

theorem Parsed.paren {p' : Nat} (h : Parsed vars cap tk hi e ws (p + 1) (ws', p')) (hp : p' ≤ hi)
    (hlp : tk[p]? = some (.op .lp)) (hrp : tk[p']? = some (.op .rp)) :
    Parsed vars cap tk hi (.paren e) ws p (ws', p' + 1) := by
  have hstop : p' = p + 1 + e.yield.length := h.stop
  subst hstop
  refine ⟨?_, ?_, Nat.succ_le_succ hp, h.declared, h.emitted, h.fits⟩
  · exact Segment.cons_iff.mpr ⟨hlp, h.range.append (segment_token hrp)⟩
  · simp only [Tree.yield, List.length_cons, List.length_append, List.length_nil]
    omega

theorem Parsed.neg {ws1 : List Word} {p' : Nat}
    (h : Parsed vars cap tk hi f ws (p + 1) (ws1, p')) (htk : tk[p]? = some (.op .sub))
    (he : pyEmit cap ws1 .ineg 0 0 = .ok ws') :
    Parsed vars cap tk hi (.neg f) ws p (ws', p') := by
  have hstop : p' = p + 1 + f.yield.length := h.stop
  have hemit : ws1 = ws ++ f.code vars.idxOf := h.emitted
  obtain ⟨hws, hcap⟩ := pyEmit_ok he
  refine ⟨Segment.cons_iff.mpr ⟨htk, h.range⟩, ?_, h.inside, h.declared, ?_, hcap⟩
  · simp only [Tree.yield, List.length_cons]
    omega
  · simp only [hws, hemit, Tree.code, Word.plain, List.append_assoc]

theorem Parsed.factor
    (h : Parsed vars cap tk hi f ws p r) : Parsed vars cap tk hi (.factor f) ws p r :=
  ⟨h.range, h.stop, h.inside, h.declared, h.emitted, h.fits⟩

theorem Parsed.term (h : Parsed vars cap tk hi t ws p r) : Parsed vars cap tk hi (.term t) ws p r :=
  ⟨h.range, h.stop, h.inside, h.declared, h.emitted, h.fits⟩

theorem Parsed.binary {c₁ c₂ : Cat} {ws1 ws2 : List Word} {p1 p2 : Nat}
    {l : Tree c₁} {r : Tree c₂} {t : Tree c} {o : PyOp} {ko : Op}
    (hyield : t.yield = l.yield ++ .op o :: r.yield) (hnames : t.names = l.names ++ r.names)
    (hcode : t.code vars.idxOf = l.code vars.idxOf ++ r.code vars.idxOf ++ [Word.plain ko])
    (hl : Parsed vars cap tk hi l ws p (ws1, p1)) (htk : tk[p1]? = some (.op o))
    (hr : Parsed vars cap tk hi r ws1 (p1 + 1) (ws2, p2))
    (he : pyEmit cap ws2 ko 0 0 = .ok ws') : Parsed vars cap tk hi t ws p (ws', p2) := by
  have hp1 : p1 = p + l.yield.length := hl.stop
  have hp2 : p2 = p1 + 1 + r.yield.length := hr.stop
  have hws1 : ws1 = ws ++ l.code vars.idxOf := hl.emitted
  have hws2 : ws2 = ws1 ++ r.code vars.idxOf := hr.emitted
  obtain ⟨hws, hcap⟩ := pyEmit_ok he
  refine ⟨?_, ?_, hr.inside, ?_, ?_, hcap⟩
  · rw [hyield]
    refine hl.range.append ?_
    rw [← hp1]
    exact Segment.cons_iff.mpr ⟨htk, hr.range⟩
  · rw [hyield, List.length_append, List.length_cons]
    show p2 = _
    omega
  · intro x hx
    rw [hnames, List.mem_append] at hx
    exact hx.elim (hl.declared x) (hr.declared x)
  · simp only [hws, hws2, hws1, hcode, Word.plain, List.append_assoc]

/-- What the functions of the parser, with the recursion count `n`, guarantee
when they succeed. -/
structure ParserSound (vars : List Ident) (cap : Nat) (tk : List Tok) (hi n : Nat) : Prop where
  factor : ∀ {ws p r}, pyFactor vars cap tk hi n ws p = .ok r →
    ∃ t : Tree .factor, Parsed vars cap tk hi t ws p r
  term : ∀ {ws p r}, pyTerm vars cap tk hi n ws p = .ok r →
    ∃ t : Tree .term, Parsed vars cap tk hi t ws p r
  termLoop : ∀ {ws0 p0 ws p r} {t : Tree .term}, Parsed vars cap tk hi t ws0 p0 (ws, p) →
    pyTermLoop vars cap tk hi n ws p = .ok r →
    ∃ t : Tree .term, Parsed vars cap tk hi t ws0 p0 r
  expr : ∀ {ws p r}, pyExpr vars cap tk hi n ws p = .ok r →
    ∃ t : Tree .expr, Parsed vars cap tk hi t ws p r
  exprLoop : ∀ {ws0 p0 ws p r} {t : Tree .expr}, Parsed vars cap tk hi t ws0 p0 (ws, p) →
    pyExprLoop vars cap tk hi n ws p = .ok r →
    ∃ t : Tree .expr, Parsed vars cap tk hi t ws0 p0 r

theorem pyFactor_sound (ih : ParserSound vars cap tk hi n)
    (h : pyFactor vars cap tk hi (n + 1) ws p = .ok r) :
    ∃ t : Tree .factor, Parsed vars cap tk hi t ws p r := by
  unfold pyFactor at h
  by_cases hp : p ≤ hi
  · rw [if_neg (Nat.not_lt.mpr hp)] at h
    cases htk : tk[p]? with
    | none => rw [htk] at h; cases h
    | some k =>
      rw [htk] at h
      cases k with
      | num v =>
        obtain ⟨ws', he, h⟩ := bind_ok h
        cases h
        exact ⟨.num v, .num hp htk he⟩
      | ident x =>
        dsimp only at h
        cases hx : pyVarFind vars x with
        | none => rw [hx] at h; cases h
        | some slot =>
          rw [hx] at h
          obtain ⟨ws', he, h⟩ := bind_ok h
          cases h
          exact ⟨.name x, .name hp htk hx he⟩
      | op o =>
        dsimp only at h
        split at h
        · next ho =>
            subst ho
            obtain ⟨⟨ws', p'⟩, he, h⟩ := bind_ok h
            obtain ⟨e, hpe⟩ := ih.expr he
            dsimp only at h
            by_cases hp' : p' ≤ hi
            · rw [if_neg (Nat.not_lt.mpr hp')] at h
              cases hrp : tk[p']? with
              | none => rw [hrp] at h; cases h
              | some k =>
                rw [hrp] at h
                dsimp only at h
                split at h
                · next hk =>
                  subst hk
                  cases h
                  exact ⟨.paren e, hpe.paren hp' htk hrp⟩
                · cases h
            · rw [if_pos (Nat.lt_of_not_le hp')] at h
              cases h
        · split at h
          · next ho =>
            subst ho
            obtain ⟨⟨ws1, p'⟩, hf, h⟩ := bind_ok h
            obtain ⟨f, hpf⟩ := ih.factor hf
            obtain ⟨ws', he, h⟩ := bind_ok h
            cases h
            exact ⟨.neg f, hpf.neg htk he⟩
          · cases h
      | str so sl => cases h
  · rw [if_pos (Nat.lt_of_not_le hp)] at h
    cases h

theorem pyTermLoop_sound (ih : ParserSound vars cap tk hi n) {ws0 : List Word} {p0 : Nat}
    (ht : Parsed vars cap tk hi t ws0 p0 (ws, p))
    (h : pyTermLoop vars cap tk hi (n + 1) ws p = .ok r) :
    ∃ t : Tree .term, Parsed vars cap tk hi t ws0 p0 r := by
  simp only [pyTermLoop] at h
  split at h
  · cases h
    exact ⟨t, ht⟩
  · split at h
    · cases h
    · next o htk =>
      split at h
      · cases h
        exact ⟨t, ht⟩
      · next ko hko =>
        obtain ⟨m, rfl, rfl⟩ := mulOp?_eq_some hko
        obtain ⟨⟨ws1, p1⟩, hf, h⟩ := bind_ok h
        obtain ⟨f, hpf⟩ := ih.factor hf
        obtain ⟨ws2, he, h⟩ := bind_ok h
        have hstep : Parsed vars cap tk hi (.mulop m t f) ws0 p0 (ws2, p1) :=
          .binary rfl rfl rfl ht htk hpf he
        exact ih.termLoop hstep h
    · cases h
      exact ⟨t, ht⟩

theorem pyExprLoop_sound (ih : ParserSound vars cap tk hi n) {ws0 : List Word} {p0 : Nat}
    (ht : Parsed vars cap tk hi e ws0 p0 (ws, p))
    (h : pyExprLoop vars cap tk hi (n + 1) ws p = .ok r) :
    ∃ e : Tree .expr, Parsed vars cap tk hi e ws0 p0 r := by
  simp only [pyExprLoop] at h
  split at h
  · cases h
    exact ⟨e, ht⟩
  · split at h
    · cases h
    · next o htk =>
      split at h
      · cases h
        exact ⟨e, ht⟩
      · next ko hko =>
        obtain ⟨a, rfl, rfl⟩ := addOp?_eq_some hko
        obtain ⟨⟨ws1, p1⟩, hf, h⟩ := bind_ok h
        obtain ⟨t, hpt⟩ := ih.term hf
        obtain ⟨ws2, he, h⟩ := bind_ok h
        have hstep : Parsed vars cap tk hi (.addop a e t) ws0 p0 (ws2, p1) :=
          .binary rfl rfl rfl ht htk hpt he
        exact ih.exprLoop hstep h
    · cases h
      exact ⟨e, ht⟩

theorem parser_sound (n : Nat) : ParserSound vars cap tk hi n := by
  induction n with
  | zero =>
    refine ⟨?_, ?_, ?_, ?_, ?_⟩
    · intro ws p r h
      cases h
    · intro ws p r h
      cases h
    · intro ws0 p0 ws p r t _ h
      cases h
    · intro ws p r h
      cases h
    · intro ws0 p0 ws p r t _ h
      cases h
  | succ n ih =>
    refine ⟨pyFactor_sound ih, ?_, pyTermLoop_sound ih, ?_, pyExprLoop_sound ih⟩
    · intro ws p r h
      obtain ⟨⟨ws1, p1⟩, hf, hl⟩ := bind_ok h
      obtain ⟨f, hpf⟩ := ih.factor hf
      exact ih.termLoop hpf.factor hl
    · intro ws p r h
      obtain ⟨⟨ws1, p1⟩, ht, hl⟩ := bind_ok h
      obtain ⟨t, hpt⟩ := ih.term ht
      exact ih.exprLoop hpt.term hl

/-! ## Completeness -/

/-- The sentence of `t` stands at `p`, its variables are declared, and its code
has room behind `ws`. -/
structure Fits (vars : List Ident) (cap : Nat) (tk : List Tok) (hi : Nat) (t : Tree c)
    (ws : List Word) (p : Nat) : Prop where
  range : Segment tk p t.yield
  inside : p + t.yield.length ≤ hi + 1
  declared : ∀ x ∈ t.names, x ∈ vars
  room : ws.length + t.size ≤ cap

/-- No multiplicative operator follows. -/
def EndsTerm (tk : List Tok) (hi p : Nat) : Prop :=
  p ≤ hi → ∃ k, tk[p]? = some k ∧ ∀ o, k = .op o → mulOp? o = none

/-- No additive operator follows. -/
def EndsExpr (tk : List Tok) (hi p : Nat) : Prop :=
  p ≤ hi → ∃ k, tk[p]? = some k ∧ ∀ o, k = .op o → addOp? o = none

theorem pyTermLoop_stop (hn : 0 < n)
    (h : EndsTerm tk hi p) : pyTermLoop vars cap tk hi n ws p = .ok (ws, p) := by
  obtain ⟨n, rfl⟩ : ∃ k, n = k + 1 := ⟨n - 1, by omega⟩
  rw [pyTermLoop]
  by_cases hp : p ≤ hi
  · obtain ⟨k, htk, hk⟩ := h hp
    rw [if_neg (Nat.not_lt.mpr hp), htk]
    cases k with
    | op o => simp only [hk o rfl]
    | num | ident | str => rfl
  · rw [if_pos (Nat.lt_of_not_le hp)]

theorem pyExprLoop_stop (hn : 0 < n)
    (h : EndsExpr tk hi p) : pyExprLoop vars cap tk hi n ws p = .ok (ws, p) := by
  obtain ⟨n, rfl⟩ : ∃ k, n = k + 1 := ⟨n - 1, by omega⟩
  rw [pyExprLoop]
  by_cases hp : p ≤ hi
  · obtain ⟨k, htk, hk⟩ := h hp
    rw [if_neg (Nat.not_lt.mpr hp), htk]
    cases k with
    | op o => simp only [hk o rfl]
    | num | ident | str => rfl
  · rw [if_pos (Nat.lt_of_not_le hp)]

theorem Fits.binary {c₁ c₂ : Cat} {l : Tree c₁} {r : Tree c₂}
    {t : Tree c} {o : PyOp} (hyield : t.yield = l.yield ++ .op o :: r.yield)
    (hnames : t.names = l.names ++ r.names) (hsize : t.size = l.size + r.size + 1)
    (h : Fits vars cap tk hi t ws p) :
    Fits vars cap tk hi l ws p ∧ tk[p + l.yield.length]? = some (.op o) ∧
      p + l.yield.length ≤ hi ∧
      Fits vars cap tk hi r (ws ++ l.code vars.idxOf) (p + l.yield.length + 1) ∧
      (ws ++ l.code vars.idxOf ++ r.code vars.idxOf).length < cap := by
  obtain ⟨hrange, hin, hdecl, hroom⟩ := h
  rw [hyield] at hrange
  rw [hyield, List.length_append, List.length_cons] at hin
  rw [hsize] at hroom
  have hpos := r.yield_pos
  refine ⟨⟨hrange.left, by omega, ?_, by omega⟩, hrange.right.head, by omega,
    ⟨hrange.right.tail, by omega, ?_, ?_⟩, ?_⟩
  · intro x hx
    exact hdecl x (by rw [hnames]; exact List.mem_append_left _ hx)
  · intro x hx
    exact hdecl x (by rw [hnames]; exact List.mem_append_right _ hx)
  · simp only [List.length_append, Tree.length_code]
    omega
  · simp only [List.length_append, Tree.length_code]
    omega

/-- What the parser does on the sentence of a tree.  The functions with a loop
come to their loop standing behind the sentence. -/
def Accepts (vars : List Ident) (cap : Nat) (tk : List Tok) (hi : Nat) : {c : Cat} → Tree c → Prop
  | .factor, t => ∀ n ws p, Fits vars cap tk hi t ws p → 3 * (hi + 1 - p) + 1 ≤ n →
      pyFactor vars cap tk hi n ws p = .ok (ws ++ t.code vars.idxOf, p + t.yield.length)
  | .term, t => ∀ n ws p, Fits vars cap tk hi t ws p → 3 * (hi + 1 - p) + 2 ≤ n →
      ∃ n', 3 * (hi + 1 - (p + t.yield.length)) + 1 ≤ n' ∧
        pyTerm vars cap tk hi n ws p =
          pyTermLoop vars cap tk hi n' (ws ++ t.code vars.idxOf) (p + t.yield.length)
  | .expr, t => ∀ n ws p, Fits vars cap tk hi t ws p → EndsTerm tk hi (p + t.yield.length) →
      3 * (hi + 1 - p) + 3 ≤ n →
      ∃ n', 3 * (hi + 1 - (p + t.yield.length)) + 1 ≤ n' ∧
        pyExpr vars cap tk hi n ws p =
          pyExprLoop vars cap tk hi n' (ws ++ t.code vars.idxOf) (p + t.yield.length)

theorem Accepts.termOk (h : Accepts vars cap tk hi t)
    (hf : Fits vars cap tk hi t ws p) (he : EndsTerm tk hi (p + t.yield.length))
    (hn : 3 * (hi + 1 - p) + 2 ≤ n) :
    pyTerm vars cap tk hi n ws p = .ok (ws ++ t.code vars.idxOf, p + t.yield.length) := by
  obtain ⟨n', hn', hrun⟩ := h n ws p hf hn
  rw [hrun, pyTermLoop_stop (by omega) he]

theorem Accepts.exprOk (h : Accepts vars cap tk hi e)
    (hf : Fits vars cap tk hi e ws p) (ht : EndsTerm tk hi (p + e.yield.length))
    (he : EndsExpr tk hi (p + e.yield.length)) (hn : 3 * (hi + 1 - p) + 3 ≤ n) :
    pyExpr vars cap tk hi n ws p = .ok (ws ++ e.code vars.idxOf, p + e.yield.length) := by
  obtain ⟨n', hn', hrun⟩ := h n ws p hf ht hn
  rw [hrun, pyExprLoop_stop (by omega) he]

theorem accepts_num (v : BitVec 64) : Accepts vars cap tk hi (.num v) := by
  intro n ws p hf hn
  obtain ⟨n, rfl⟩ : ∃ k, n = k + 1 := ⟨n - 1, by omega⟩
  have hp : p ≤ hi := Nat.le_of_succ_le_succ hf.inside
  rw [pyFactor, if_neg (Nat.not_lt.mpr hp), hf.range.head]
  dsimp only
  rw [pyEmit_of_lt _ _ _ hf.room]
  rfl

theorem accepts_name (x : Ident) : Accepts vars cap tk hi (.name x) := by
  intro n ws p hf hn
  obtain ⟨n, rfl⟩ : ∃ k, n = k + 1 := ⟨n - 1, by omega⟩
  have hp : p ≤ hi := Nat.le_of_succ_le_succ hf.inside
  have hx : x ∈ vars := hf.declared x (by simp [Tree.names])
  rw [pyFactor, if_neg (Nat.not_lt.mpr hp), hf.range.head]
  simp only [pyVarFind_of_mem hx]
  rw [pyEmit_of_lt _ _ _ hf.room]
  rfl

theorem accepts_paren (ih : Accepts vars cap tk hi e) : Accepts vars cap tk hi (.paren e) := by
  intro n ws p hf hn
  obtain ⟨n, rfl⟩ : ∃ k, n = k + 1 := ⟨n - 1, by omega⟩
  have hlen : (Tree.paren e).yield.length = e.yield.length + 2 := by simp [Tree.yield]
  have hin := hf.inside
  rw [hlen] at hin
  have hp : p ≤ hi := by omega
  have hrange : Segment tk (p + 1) (e.yield ++ [.op .rp]) := hf.range.tail
  have hrp : tk[p + 1 + e.yield.length]? = some (.op .rp) := hrange.right.head
  have hfe : Fits vars cap tk hi e ws (p + 1) := ⟨hrange.left, by omega, hf.declared, hf.room⟩
  -- the closing parenthesis ends both the term and the expression
  have hend : pyExpr vars cap tk hi n ws (p + 1) =
      .ok (ws ++ e.code vars.idxOf, p + 1 + e.yield.length) := by
    refine ih.exprOk hfe ?_ ?_ (by omega)
    · intro _
      exact ⟨_, hrp, fun o ho => by cases ho; rfl⟩
    · intro _
      exact ⟨_, hrp, fun o ho => by cases ho; rfl⟩
  rw [pyFactor, if_neg (Nat.not_lt.mpr hp), hf.range.head]
  simp only [if_true, hend]
  show (if p + 1 + e.yield.length > hi then _ else _) = _
  rw [if_neg (by omega), hrp, hlen]
  simp only [if_true, Except.ok.injEq, Prod.mk.injEq]
  exact ⟨rfl, by omega⟩

theorem accepts_neg (ih : Accepts vars cap tk hi f) : Accepts vars cap tk hi (.neg f) := by
  intro n ws p hf hn
  obtain ⟨n, rfl⟩ : ∃ k, n = k + 1 := ⟨n - 1, by omega⟩
  have hlen : (Tree.neg f).yield.length = f.yield.length + 1 := by simp [Tree.yield]
  have hin := hf.inside
  rw [hlen] at hin
  have hp : p ≤ hi := by omega
  have hroom : ws.length + (f.size + 1) ≤ cap := hf.room
  have hff : Fits vars cap tk hi f ws (p + 1) :=
    ⟨hf.range.tail, by omega, hf.declared, by omega⟩
  have hemit : (ws ++ f.code vars.idxOf).length < cap := by
    rw [List.length_append, Tree.length_code]
    omega
  rw [pyFactor, if_neg (Nat.not_lt.mpr hp), hf.range.head]
  simp only [ih n ws (p + 1) hff (by omega), reduceCtorEq, if_true, if_false]
  show (pyEmit cap (ws ++ f.code vars.idxOf) .ineg 0 0 >>= _) = _
  rw [pyEmit_of_lt _ _ _ hemit, hlen]
  show Except.ok _ = _
  simp only [Tree.code, Word.plain, List.append_assoc, Except.ok.injEq, Prod.mk.injEq, true_and]
  omega

theorem accepts_factor (ih : Accepts vars cap tk hi f) : Accepts vars cap tk hi (.factor f) := by
  intro n ws p hf hn
  obtain ⟨n, rfl⟩ : ∃ k, n = k + 1 := ⟨n - 1, by omega⟩
  refine ⟨n, by omega, ?_⟩
  have hff : Fits vars cap tk hi f ws p := ⟨hf.range, hf.inside, hf.declared, hf.room⟩
  rw [pyTerm, ih n ws p hff (by omega)]
  rfl

theorem accepts_mulop {o : MulOp}
    (iht : Accepts vars cap tk hi t) (ihf : Accepts vars cap tk hi f) :
    Accepts vars cap tk hi (.mulop o t f) := by
  intro n ws p hf hn
  obtain ⟨hft, htk, hp, hff, hroom⟩ := hf.binary rfl rfl rfl
  obtain ⟨n₁, hn₁, hrun⟩ := iht n ws p hft hn
  obtain ⟨n', rfl⟩ : ∃ k, n₁ = k + 1 := ⟨n₁ - 1, by omega⟩
  have hlen : (Tree.mulop o t f).yield.length = t.yield.length + 1 + f.yield.length := by
    simp only [Tree.yield, List.length_append, List.length_cons]
    omega
  refine ⟨n', by rw [hlen]; omega, ?_⟩
  rw [hrun, pyTermLoop, if_neg (Nat.not_lt.mpr hp), htk]
  simp only [mulOp?_tok, ihf n' _ _ hff (by omega)]
  show (pyEmit cap (ws ++ t.code vars.idxOf ++ f.code vars.idxOf) o.op 0 0 >>= _) = _
  rw [pyEmit_of_lt _ _ _ hroom, hlen]
  show pyTermLoop vars cap tk hi n' _ _ = _
  congr 1
  · simp only [Tree.code, Word.plain, List.append_assoc]
  · omega

theorem accepts_term (ih : Accepts vars cap tk hi t) : Accepts vars cap tk hi (.term t) := by
  intro n ws p hf he hn
  obtain ⟨n, rfl⟩ : ∃ k, n = k + 1 := ⟨n - 1, by omega⟩
  refine ⟨n, by omega, ?_⟩
  have hft : Fits vars cap tk hi t ws p := ⟨hf.range, hf.inside, hf.declared, hf.room⟩
  rw [pyExpr, ih.termOk hft he (by omega)]
  rfl

theorem accepts_addop {o : AddOp}
    (ihe : Accepts vars cap tk hi e) (iht : Accepts vars cap tk hi t) :
    Accepts vars cap tk hi (.addop o e t) := by
  intro n ws p hf hend hn
  obtain ⟨hfe, htk, hp, hft, hroom⟩ := hf.binary rfl rfl rfl
  have hop : EndsTerm tk hi (p + e.yield.length) := by
    intro _
    exact ⟨_, htk, fun q hq => by cases hq; exact mulOp?_addTok o⟩
  obtain ⟨n₁, hn₁, hrun⟩ := ihe n ws p hfe hop hn
  obtain ⟨n', rfl⟩ : ∃ k, n₁ = k + 1 := ⟨n₁ - 1, by omega⟩
  have hlen : (Tree.addop o e t).yield.length = e.yield.length + 1 + t.yield.length := by
    simp only [Tree.yield, List.length_append, List.length_cons]
    omega
  have hpos : p + e.yield.length + 1 + t.yield.length = p + (Tree.addop o e t).yield.length := by
    omega
  refine ⟨n', by omega, ?_⟩
  rw [hrun, pyExprLoop, if_neg (Nat.not_lt.mpr hp), htk]
  rw [← hpos] at hend
  have hterm := iht.termOk (n := n') hft hend (by omega)
  simp only [addOp?_tok, hterm]
  show (pyEmit cap (ws ++ e.code vars.idxOf ++ t.code vars.idxOf) o.op 0 0 >>= _) = _
  rw [pyEmit_of_lt _ _ _ hroom]
  show pyExprLoop vars cap tk hi n' _ _ = _
  congr 1
  simp only [Tree.code, Word.plain, List.append_assoc]

theorem accepts (t : Tree c) : Accepts vars cap tk hi t := by
  induction t with
  | num v => exact accepts_num v
  | name x => exact accepts_name x
  | paren e ih => exact accepts_paren ih
  | neg f ih => exact accepts_neg ih
  | factor f ih => exact accepts_factor ih
  | mulop o t f iht ihf => exact accepts_mulop iht ihf
  | term t ih => exact accepts_term ih
  | addop o e t ihe iht => exact accepts_addop ihe iht

/-! ## `py_cond` -/

/-- The tokens from `lo` to `hi` are the sentence of `c`. -/
structure Reads (tk : List Tok) (lo hi : Nat) (c : Cond) : Prop where
  range : Segment tk lo c.yield
  whole : lo + c.yield.length = hi + 1

/-- The tokens from `lo` to `hi` are a sentence over declared variables. -/
structure Sentence (vars : List Ident) (tk : List Tok) (lo hi : Nat) (c : Cond) : Prop
    extends Reads tk lo hi c where
  declared : ∀ x ∈ c.names, x ∈ vars

theorem pyEmits_ok (h : pyEmits cap ws os = .ok ws')
    (hcap : ws.length ≤ cap) : ws' = ws ++ os.map Word.plain ∧ ws'.length ≤ cap := by
  induction os generalizing ws with
  | nil =>
    cases h
    exact ⟨by simp, hcap⟩
  | cons o os ih =>
    obtain ⟨ws1, he, h⟩ := bind_ok h
    obtain ⟨rfl, hcap1⟩ := pyEmit_ok he
    obtain ⟨hws, hle⟩ := ih h hcap1
    exact ⟨by rw [hws]; simp [Word.plain], hle⟩

theorem pyEmits_of_le (h : ws.length + os.length ≤ cap) :
    pyEmits cap ws os = .ok (ws ++ os.map Word.plain) := by
  induction os generalizing ws with
  | nil => simp [pyEmits]
  | cons o os ih =>
    rw [List.length_cons] at h
    rw [pyEmits, pyEmit_of_lt _ _ _ (by omega)]
    show pyEmits cap (ws ++ [Word.mk' o 0 0]) os = _
    rw [ih (by simp; omega)]
    simp [Word.plain]

variable {lo : Nat}

theorem pyCond_sound (h : pyCond vars cap tk hi lo ws = .ok ws') :
    ∃ c, Sentence vars tk lo hi c ∧ ws' = ws ++ c.code vars.idxOf ∧ ws.length + c.size ≤ cap := by
  obtain ⟨⟨ws1, p1⟩, he, h⟩ := bind_ok h
  obtain ⟨e, hpe⟩ := (parser_sound _).expr he
  obtain ⟨hrange, hstop, hin, hdecl, hemit, hfits⟩ := hpe
  dsimp only at h hstop hin hemit hfits
  by_cases hp : p1 ≤ hi
  · rw [if_neg (Nat.not_lt.mpr hp)] at h
    cases htk : tk[p1]? with
    | none => rw [htk] at h; cases h
    | some k =>
      rw [htk] at h
      cases k with
      | num | ident | str => cases h
      | op o =>
        dsimp only at h
        cases ho : cmpOps? o with
        | none => rw [ho] at h; cases h
        | some kos =>
          rw [ho] at h
          obtain ⟨q, rfl, rfl⟩ := cmpOps?_eq_some ho
          obtain ⟨⟨ws2, p2⟩, hr, h⟩ := bind_ok h
          obtain ⟨r, hpr⟩ := (parser_sound _).expr hr
          obtain ⟨hrange', hstop', hin', hdecl', hemit', hfits'⟩ := hpr
          dsimp only at h hstop' hin' hemit' hfits'
          by_cases hp2 : p2 ≤ hi
          · rw [if_pos hp2] at h
            cases h
          · rw [if_neg hp2] at h
            obtain ⟨hws, hcap⟩ := pyEmits_ok h hfits'
            have hcode : ws' = ws ++ (Cond.cmp q e r).code vars.idxOf := by
              simp only [hws, hemit', hemit, Cond.code, List.append_assoc]
            refine ⟨.cmp q e r, ⟨⟨?_, ?_⟩, ?_⟩, hcode, ?_⟩
            · refine hrange.append ?_
              rw [← hstop]
              exact Segment.cons_iff.mpr ⟨htk, hrange'⟩
            · simp only [Cond.yield, List.length_append, List.length_cons]
              omega
            · intro x hx
              rcases List.mem_append.mp hx with hx | hx
              · exact hdecl x hx
              · exact hdecl' x hx
            · rw [hcode, List.length_append, Cond.length_code] at hcap
              exact hcap
  · rw [if_pos (Nat.lt_of_not_le hp)] at h
    cases h
    refine ⟨.expr e, ⟨⟨hrange, ?_⟩, hdecl⟩, hemit, ?_⟩
    · show lo + e.yield.length = hi + 1
      omega
    · rw [hemit, List.length_append, Tree.length_code] at hfits
      exact hfits

theorem pyCond_complete {c : Cond} (h : Sentence vars tk lo hi c)
    (hcap : ws.length + c.size ≤ cap) :
    pyCond vars cap tk hi lo ws = .ok (ws ++ c.code vars.idxOf) := by
  obtain ⟨⟨hrange, hwhole⟩, hdecl⟩ := h
  cases c with
  | expr e =>
    have hwhole' : lo + e.yield.length = hi + 1 := hwhole
    have hlast : ¬ lo + e.yield.length ≤ hi := by omega
    have hfit : Fits vars cap tk hi e ws lo := ⟨hrange, by omega, hdecl, hcap⟩
    have hrun : pyExpr vars cap tk hi (exprFuel hi lo) ws lo = _ :=
      (accepts e).exprOk hfit (fun h => absurd h hlast) (fun h => absurd h hlast) (Nat.le_refl _)
    rw [pyCond, hrun]
    show (if lo + e.yield.length > hi then _ else _) = _
    rw [if_pos (by omega)]
    rfl
  | cmp o l r =>
    have hlen : (Cond.cmp o l r).yield.length = l.yield.length + 1 + r.yield.length := by
      simp only [Cond.yield, List.length_append, List.length_cons]
      omega
    have hsize : (Cond.cmp o l r).size = l.size + r.size + o.ops.length := rfl
    rw [hlen] at hwhole
    rw [hsize] at hcap
    have hpos := r.yield_pos
    have hseg : Segment tk (lo + l.yield.length) (.op o.tok :: r.yield) := Segment.right hrange
    have hfl : Fits vars cap tk hi l ws lo :=
      ⟨Segment.left hrange, by omega, fun x hx => hdecl x (List.mem_append_left _ hx), by omega⟩
    have hfr : Fits vars cap tk hi r (ws ++ l.code vars.idxOf) (lo + l.yield.length + 1) := by
      refine ⟨hseg.tail, by omega, fun x hx => hdecl x (List.mem_append_right _ hx), ?_⟩
      rw [List.length_append, Tree.length_code]
      omega
    have hlast : ¬ lo + l.yield.length + 1 + r.yield.length ≤ hi := by omega
    have hrunl : pyExpr vars cap tk hi (exprFuel hi lo) ws lo =
        .ok (ws ++ l.code vars.idxOf, lo + l.yield.length) := by
      refine (accepts l).exprOk hfl ?_ ?_ (Nat.le_refl _)
      · intro _
        exact ⟨_, hseg.head, fun q hq => by cases hq; exact mulOp?_cmpTok o⟩
      · intro _
        exact ⟨_, hseg.head, fun q hq => by cases hq; exact addOp?_cmpTok o⟩
    have hrunr : pyExpr vars cap tk hi (exprFuel hi (lo + l.yield.length + 1))
        (ws ++ l.code vars.idxOf) (lo + l.yield.length + 1) = _ :=
      (accepts r).exprOk hfr (fun h => absurd h hlast) (fun h => absurd h hlast) (Nat.le_refl _)
    rw [pyCond, hrunl]
    show (if lo + l.yield.length > hi then _ else _) = _
    rw [if_neg (by omega), hseg.head]
    simp only [cmpOps?_tok, hrunr]
    show (if lo + l.yield.length + 1 + r.yield.length ≤ hi then _ else _) = _
    rw [if_neg hlast, pyEmits_of_le]
    · simp only [Cond.code, List.append_assoc]
    · simp only [List.length_append, Tree.length_code]
      omega

theorem Sentence.code_unique {c c' : Cond}
    (h : Sentence vars tk lo hi c) (h' : Sentence vars tk lo hi c') :
    c.code vars.idxOf = c'.code vars.idxOf := by
  have h1 : pyCond vars (c.size + c'.size) tk hi lo [] = .ok (c.code vars.idxOf) :=
    pyCond_complete h (by simp)
  have h2 : pyCond vars (c.size + c'.size) tk hi lo [] = .ok (c'.code vars.idxOf) :=
    pyCond_complete h' (by simp)
  rw [h1] at h2
  exact Except.ok.inj h2

end

end Engines
