import Mathlib.Data.List.Nodup
import OpenWindows.Engines.Kernel

/-!
# The compilers of the structured front-ends

`managedpy`, `managedjs` and `managedlua` compile a list of statements to kernel words.
-/

namespace Engines

/-! ## Expressions

`py_factor`, `py_term`, `py_expr` and `py_cond` parse a token range and emit
postfix words as they go.  `managedpy`, `managedjs` and `managedlua` share
them.

Words are emitted into a buffer of `cap` words, the list of the words below
`*wc`.  A token read outside the statement's tokens is `Stop.wild`.  The mutual
recursion is bounded by a count, `Stop.fuel` when it runs out, and `py_cond`
starts it with more than any sentence in the range uses (`pyCond_complete`).
-/

/-- A NUL-terminated name in a `char[16]`. -/
structure Ident where
  chars : List UInt8
  fits : chars.length ≤ 15
  noNul : 0 ∉ chars

instance : DecidableEq Ident := fun a b =>
  decidable_of_iff (a.chars = b.chars)
    ⟨fun h => by cases a; cases b; cases h; rfl, congrArg Ident.chars⟩

/-- The operator codes `PY_OP_*`. -/
inductive PyOp where
  | add | sub | mul | div | mod | lp | rp | eq | ne | lt | le | gt | ge | assign | colon
  deriving DecidableEq, Repr

/-- `py_tk_t`. -/
inductive Tok where
  | num (v : BitVec 64)
  | ident (x : Ident)
  | op (o : PyOp)
  | str (so sl : UInt32)
  deriving DecidableEq

/-- Why a front-end function gives no result. -/
inductive Stop where
  | status (st : Status)
  /-- A token at or beyond the statement's count was read. -/
  | wild
  /-- The recursion count ran out. -/
  | fuel
  deriving DecidableEq, Repr

/-- `MENG_PY_MAX_VARS`. -/
def pyMaxVars : Nat := 16

/-- `py_var_find`. -/
def pyVarFind (vars : List Ident) (x : Ident) : Option Nat := vars.idxOf? x

/-- `py_emit`. -/
def pyEmit (cap : Nat) (ws : List Word) (o : Op) (a0 a1 : BitVec 64) : Except Stop (List Word) :=
  if ws.length ≥ cap then .error (.status .errShortOut) else .ok (ws ++ [Word.mk' o a0 a1])

/-- The kernel operation of a multiplicative operator. -/
def mulOp? : PyOp → Option Op
  | .mul => some .imul
  | .div => some .idiv
  | .mod => some .imod
  | _ => none

/-- The kernel operation of an additive operator. -/
def addOp? : PyOp → Option Op
  | .add => some .iadd
  | .sub => some .isub
  | _ => none

/-- The words of a comparison.  `>` and `>=` swap their operands. -/
def cmpOps? : PyOp → Option (List Op)
  | .eq => some [.cmpeq]
  | .ne => some [.cmpne]
  | .lt => some [.cmplt]
  | .le => some [.cmple]
  | .gt => some [.swap2, .cmplt]
  | .ge => some [.swap2, .cmple]
  | _ => none

def pyEmits (cap : Nat) : List Word → List Op → Except Stop (List Word)
  | ws, [] => .ok ws
  | ws, o :: os => do
      let ws ← pyEmit cap ws o 0 0
      pyEmits cap ws os

section Parser

variable (vars : List Ident) (cap : Nat) (tk : List Tok) (hi : Nat)

mutual

/-- `py_factor`. -/
def pyFactor : Nat → List Word → Nat → Except Stop (List Word × Nat)
  | 0, _, _ => .error .fuel
  | n + 1, ws, p =>
    if p > hi then .error (.status .errSyntax)
    else
      match tk[p]? with
      | none => .error .wild
      | some (.num v) => do
          let ws ← pyEmit cap ws .pushi v 0
          .ok (ws, p + 1)
      | some (.ident x) =>
        match pyVarFind vars x with
        | none => .error (.status .errRuntime)
        | some slot => do
            let ws ← pyEmit cap ws .gload (BitVec.ofNat 64 slot) 0
            .ok (ws, p + 1)
      | some (.op o) =>
        if o = .lp then do
          let (ws, p) ← pyExpr n ws (p + 1)
          if p > hi then .error (.status .errSyntax)
          else
            match tk[p]? with
            | none => .error .wild
            | some t =>
              if t = .op .rp then .ok (ws, p + 1) else .error (.status .errSyntax)
        else if o = .sub then do
          let (ws, p) ← pyFactor n ws (p + 1)
          let ws ← pyEmit cap ws .ineg 0 0
          .ok (ws, p)
        else .error (.status .errSyntax)
      | some (.str _ _) => .error (.status .errSyntax)
termination_by structural n => n

/-- `py_term`. -/
def pyTerm : Nat → List Word → Nat → Except Stop (List Word × Nat)
  | 0, _, _ => .error .fuel
  | n + 1, ws, p => do
      let (ws, p) ← pyFactor n ws p
      pyTermLoop n ws p
termination_by structural n => n

/-- The loop of `py_term`. -/
def pyTermLoop : Nat → List Word → Nat → Except Stop (List Word × Nat)
  | 0, _, _ => .error .fuel
  | n + 1, ws, p =>
    if p > hi then .ok (ws, p)
    else
      match tk[p]? with
      | none => .error .wild
      | some (.op o) =>
        match mulOp? o with
        | none => .ok (ws, p)
        | some ko => do
            let (ws, p) ← pyFactor n ws (p + 1)
            let ws ← pyEmit cap ws ko 0 0
            pyTermLoop n ws p
      | some _ => .ok (ws, p)
termination_by structural n => n

/-- `py_expr`. -/
def pyExpr : Nat → List Word → Nat → Except Stop (List Word × Nat)
  | 0, _, _ => .error .fuel
  | n + 1, ws, p => do
      let (ws, p) ← pyTerm n ws p
      pyExprLoop n ws p
termination_by structural n => n

/-- The loop of `py_expr`. -/
def pyExprLoop : Nat → List Word → Nat → Except Stop (List Word × Nat)
  | 0, _, _ => .error .fuel
  | n + 1, ws, p =>
    if p > hi then .ok (ws, p)
    else
      match tk[p]? with
      | none => .error .wild
      | some (.op o) =>
        match addOp? o with
        | none => .ok (ws, p)
        | some ko => do
            let (ws, p) ← pyTerm n ws (p + 1)
            let ws ← pyEmit cap ws ko 0 0
            pyExprLoop n ws p
      | some _ => .ok (ws, p)
termination_by structural n => n

end

/-- The bound on the recursion for the tokens from `p` to `hi`. -/
def exprFuel (p : Nat) : Nat := 3 * (hi + 1 - p) + 3

/-- `py_cond`. -/
def pyCond (lo : Nat) (ws : List Word) : Except Stop (List Word) := do
  let (ws, p) ← pyExpr vars cap tk hi (exprFuel hi lo) ws lo
  if p > hi then .ok ws
  else
    match tk[p]? with
    | none => .error .wild
    | some (.op o) =>
      match cmpOps? o with
      | none => .error (.status .errSyntax)
      | some kos => do
          let (ws, p) ← pyExpr vars cap tk hi (exprFuel hi (p + 1)) ws (p + 1)
          if p ≤ hi then .error (.status .errSyntax) else pyEmits cap ws kos
    | some _ => .error (.status .errSyntax)

end Parser

/-! ## Statements

The three front-ends lower a list of statements to kernel words.  A block is a
run of statements indented deeper than the statement that opens it, `while` and
`if` compile their block with a recursive call, and forward jumps are patched
once their target is known.

The three compilers are copies of one another.  `compileLoop` is their common
body, and a `Front` holds what differs: where a statement's expression lies
among its tokens, and which `else` an `if` takes.  `js_compile_block` and
`lua_compile_block` take an `else` of the same indentation only, and
`py_compile_block` takes any.

The statements not yet compiled stand for the index `*idx` into the array.  The
recursion is bounded by a count of one statement more than the list has.
-/

/-! ### Statement lists -/

/-- The statement kinds `PY_S_*`, `JS_S_*` and `LUA_S_*`, and any other value
of the field. -/
inductive StmtKind where
  | sAssign | sPrint | sWhile | sIf | sElse | sOther
  deriving DecidableEq, Repr

/-- `MENG_PY_MAX_TOK`. -/
def pyMaxTok : Nat := 16

/-- `MENG_PY_MAX_DEPTH`. -/
def pyMaxDepth : Nat := 24

/-- `py_stmt_t`, whose `nt` is the length of the tokens. -/
structure Stmt where
  indent : Nat
  kind : StmtKind
  tk : List Tok
  fits : tk.length ≤ pyMaxTok
  deriving DecidableEq

/-- `(uint32_t)s->nt - k`. -/
def Stmt.hi (s : Stmt) (k : Nat) : Nat := (s.tk.length + (2 ^ 32 - k)) % 2 ^ 32

/-! ### Variables -/

/-- `py_vars` up to `py_var_count`. -/
structure VarTab where
  names : List Ident
  nodup : names.Nodup
  fits : names.length ≤ pyMaxVars

/-- The table after `py_var_count = 0`. -/
def VarTab.empty : VarTab := ⟨[], .nil, Nat.zero_le _⟩

/-- A new name at the end of the table. -/
def VarTab.snoc (V : VarTab) (x : Ident) (hx : x ∉ V.names) (h : V.names.length < pyMaxVars) :
    VarTab where
  names := V.names ++ [x]
  nodup := by
    refine List.Nodup.append V.nodup (List.nodup_singleton x) ?_
    intro y hy hyx
    rw [List.mem_singleton] at hyx
    exact hx (hyx ▸ hy)
  fits := by
    rw [List.length_append, List.length_singleton]
    exact h

/-- `py_var_declare`. -/
def pyVarDeclare (V : VarTab) (x : Ident) : Except Stop (VarTab × Nat) :=
  match hf : pyVarFind V.names x with
  | some i => .ok (V, i)
  | none =>
    if hl : V.names.length ≥ pyMaxVars then .error (.status .errShortOut)
    else
      .ok (V.snoc x (List.idxOf?_eq_none_iff.mp hf) (Nat.lt_of_not_le hl), V.names.length)

/-! ### Front-ends -/

/-- What the three compilers do not share. -/
structure Front where
  /-- The name an assignment stores to, `none` if the statement is malformed. -/
  target : List Tok → Option Ident
  /-- The first token of an assignment's value. -/
  valueArg : Nat
  /-- Compile the value of an assignment. -/
  value : List Ident → Nat → List Tok → Nat → List Word → Except Stop (List Word)
  /-- The first token of a print's argument. -/
  printArg : Nat
  /-- The first token of a condition. -/
  condArg : Nat
  /-- The condition ends this many tokens before the end. -/
  condEnd : Nat
  /-- Whether an `if` takes the statement behind its block as its `else`. -/
  owns : Stmt → Stmt → Bool
  /-- For a well-formed assignment the value is an expression. -/
  value_eq : ∀ {s : Stmt} {x : Ident} {vars : List Ident} {cap : Nat} {ws : List Word},
    target s.tk = some x →
      value vars cap s.tk (s.hi 1) ws = pyCond vars cap s.tk (s.hi 1) valueArg ws

/-- What one call of a compiler works on: the variables, the words emitted and
the statements ahead. -/
structure CState where
  vars : VarTab
  ws : List Word
  rest : List Stmt

section Body

variable (F : Front) (cap : Nat)

/-- `S_ASSIGN`. -/
def emitAssign (V : VarTab) (ws : List Word) (s : Stmt) : Except Stop (VarTab × List Word) :=
  match F.target s.tk with
  | none => .error (.status .errSyntax)
  | some x => do
      let (V, slot) ← pyVarDeclare V x
      let ws ← F.value V.names cap s.tk (s.hi 1) ws
      let ws ← pyEmit cap ws .gstore (BitVec.ofNat 64 slot) 0
      .ok (V, ws)

/-- The argument of a print, a string or an expression. -/
def emitPrintArg (V : VarTab) (ws : List Word) (s : Stmt) : Except Stop (List Word) :=
  match s.tk[F.printArg]? with
  | some (.str so sl) =>
    pyEmit cap ws .pushs (BitVec.ofNat 64 so.toNat) (BitVec.ofNat 64 sl.toNat)
  | _ => pyCond V.names cap s.tk (s.hi 1) F.printArg ws

/-- `S_PRINT`. -/
def emitPrint (V : VarTab) (ws : List Word) (s : Stmt) : Except Stop (List Word) := do
  let ws ← emitPrintArg F cap V ws s
  pyEmit cap ws .print 0 0

/-- The head of `S_WHILE` and `S_IF`: jump over the block when the condition is
zero.  The target of the jump is not known yet. -/
def emitTest (V : VarTab) (ws : List Word) (s : Stmt) : Except Stop (List Word) := do
  let ws ← pyCond V.names cap s.tk (s.hi F.condEnd) F.condArg ws
  let ws ← pyEmit cap ws .pushi 0 0
  let ws ← pyEmit cap ws .cmpeq 0 0
  pyEmit cap ws .jnz 0 0

/-- `words[i].a0 = a0`. -/
def patch (ws : List Word) (i a0 : Nat) : List Word :=
  ws.modify i fun w => { w with a0 := BitVec.ofNat 64 a0 }

/-- The depth check at the entry of a block. -/
def atDepth {α : Type} (depth : Nat) (x : Except Stop α) : Except Stop α :=
  if depth > pyMaxDepth then .error (.status .errSyntax) else x

/-- The statements behind the `else` that `s` takes, if it takes one. -/
def takeElse (s : Stmt) : List Stmt → Option (List Stmt)
  | [] => none
  | e :: rest => if F.owns s e then some rest else none

def compileLoop : Nat → Nat → Int → CState → Except Stop CState
  | 0, _, _, _ => .error .fuel
  | n + 1, depth, parent, st =>
    match st.rest with
    | [] => .ok st
    | s :: rest =>
      if (s.indent : Int) > parent then
        match s.kind with
        | .sAssign => do
            let (V, ws) ← emitAssign F cap st.vars st.ws s
            compileLoop n depth parent ⟨V, ws, rest⟩
        | .sPrint => do
            let ws ← emitPrint F cap st.vars st.ws s
            compileLoop n depth parent ⟨st.vars, ws, rest⟩
        | .sWhile => do
            let top := st.ws.length
            let ws ← emitTest F cap st.vars st.ws s
            let jnz := ws.length - 1
            let body ← atDepth (depth + 1)
              (compileLoop n (depth + 1) s.indent ⟨st.vars, ws, rest⟩)
            if body.ws.length = jnz + 1 then .error (.status .errSyntax)
            else do
              let ws ← pyEmit cap body.ws .jmp (BitVec.ofNat 64 top) 0
              compileLoop n depth parent ⟨body.vars, patch ws jnz ws.length, body.rest⟩
        | .sIf => do
            let ws ← emitTest F cap st.vars st.ws s
            let jnz := ws.length - 1
            let body ← atDepth (depth + 1)
              (compileLoop n (depth + 1) s.indent ⟨st.vars, ws, rest⟩)
            match takeElse F s body.rest with
            | none =>
              compileLoop n depth parent
                ⟨body.vars, patch body.ws jnz body.ws.length, body.rest⟩
            | some rest => do
                let jel := body.ws.length
                let ws ← pyEmit cap body.ws .jmp 0 0
                let ws := patch ws jnz (jel + 1)
                let alt ← atDepth (depth + 1)
                  (compileLoop n (depth + 1) s.indent ⟨body.vars, ws, rest⟩)
                compileLoop n depth parent
                  ⟨alt.vars, patch alt.ws jel alt.ws.length, alt.rest⟩
        | .sElse => .error (.status .errSyntax)
        | .sOther => .error (.status .errSyntax)
      else .ok st

/-- A compiler, called for a block at some depth below a parent's indentation. -/
def compileBlock (depth : Nat) (parent : Int) (st : CState) : Except Stop CState :=
  atDepth depth (compileLoop F cap (st.rest.length + 1) depth parent st)

end Body

/-! ### The three languages -/

/-- The first token of an assignment, if it is a name. -/
def nameOf : List Tok → Option Ident
  | .ident x :: _ => some x
  | _ => none

theorem Stmt.hi_one {s : Stmt} (h : 0 < s.tk.length) : s.hi 1 = s.tk.length - 1 := by
  have hfits := s.fits
  simp only [Stmt.hi, pyMaxTok] at *
  omega

/-- `managedpy`. -/
def pyFront : Front where
  target tk := if tk.length < 3 ∨ tk[1]? ≠ some (.op .assign) then none else nameOf tk
  valueArg := 2
  value vars cap tk hi ws := pyCond vars cap tk hi 2 ws
  printArg := 1
  condArg := 1
  condEnd := 2
  owns _ e := e.kind = .sElse
  value_eq _ := rfl

/-- The assignments of `managedjs` and `managedlua` store zero when they have no
value, which the check of the token count excludes. -/
def jsValue (vars : List Ident) (cap : Nat) (tk : List Tok) (hi : Nat) (ws : List Word) :
    Except Stop (List Word) :=
  if hi ≥ 1 then pyCond vars cap tk hi 1 ws else pyEmit cap ws .pushi 0 0

/-- `managedjs`. -/
def jsFront : Front where
  target tk := if tk.length < 2 then none else nameOf tk
  valueArg := 1
  value := jsValue
  printArg := 0
  condArg := 0
  condEnd := 1
  owns s e := e.kind = .sElse ∧ e.indent = s.indent
  value_eq {s x vars cap ws} h := by
    have hlen : ¬ s.tk.length < 2 := by
      intro hlt
      rw [if_pos hlt] at h
      cases h
    rw [jsValue, s.hi_one (by omega), if_pos (by omega)]

/-- `managedlua`, whose compiler is that of `managedjs`. -/
def luaFront : Front := jsFront

/-- `py_compile_block`. -/
def pyCompileBlock : Nat → Nat → Int → CState → Except Stop CState := compileBlock pyFront

/-- `js_compile_block`. -/
def jsCompileBlock : Nat → Nat → Int → CState → Except Stop CState := compileBlock jsFront

/-- `lua_compile_block`. -/
def luaCompileBlock : Nat → Nat → Int → CState → Except Stop CState := compileBlock luaFront

end Engines
