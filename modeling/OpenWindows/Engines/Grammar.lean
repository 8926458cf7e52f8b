import OpenWindows.Engines.Compile

/-!
# The documented expression grammar

The comment above `py_tokenize` gives the grammar

    cond   := expr [cmp expr]
    expr   := term (('+'|'-') term)*
    term   := factor (('*'|'/'|'%') factor)*
    factor := number | name | '(' expr ')' | '-' factor

with left-associative operators.  `Tree c` is the type of its derivation trees,
indexed by the syntactic category, and `Tree.yield` is the sentence a tree
derives.  A tree has a value, in 64-bit two's complement arithmetic with no
value when a division or modulus by zero is evaluated.

`Tree.outcome` is the value with one more case: the evaluation divides
`INT64_MIN` by `-1`, for which the kernel has no result.  `Tree.code` is the
postfix code of a tree.
-/

namespace Engines

/-! ## Trees -/

/-- The syntactic categories below `cond`. -/
inductive Cat where
  | factor | term | expr
  deriving DecidableEq

/-- `'*' | '/' | '%'`. -/
inductive MulOp where
  | mul | div | mod
  deriving DecidableEq, Repr

/-- `'+' | '-'`. -/
inductive AddOp where
  | add | sub
  deriving DecidableEq, Repr

/-- The comparison operators. -/
inductive CmpOp where
  | eq | ne | lt | le | gt | ge
  deriving DecidableEq, Repr

/-- Derivations. -/
inductive Tree : Cat → Type where
  | num (v : BitVec 64) : Tree .factor
  | name (x : Ident) : Tree .factor
  | paren (e : Tree .expr) : Tree .factor
  | neg (f : Tree .factor) : Tree .factor
  | factor (f : Tree .factor) : Tree .term
  | mulop (o : MulOp) (t : Tree .term) (f : Tree .factor) : Tree .term
  | term (t : Tree .term) : Tree .expr
  | addop (o : AddOp) (e : Tree .expr) (t : Tree .term) : Tree .expr

/-- Derivation trees of `cond`. -/
inductive Cond where
  | expr (e : Tree .expr)
  | cmp (o : CmpOp) (l r : Tree .expr)

def MulOp.tok : MulOp → PyOp
  | .mul => .mul
  | .div => .div
  | .mod => .mod

def AddOp.tok : AddOp → PyOp
  | .add => .add
  | .sub => .sub

def CmpOp.tok : CmpOp → PyOp
  | .eq => .eq
  | .ne => .ne
  | .lt => .lt
  | .le => .le
  | .gt => .gt
  | .ge => .ge

def Tree.yield : Tree c → List Tok
  | .num v => [.num v]
  | .name x => [.ident x]
  | .paren e => .op .lp :: (e.yield ++ [.op .rp])
  | .neg f => .op .sub :: f.yield
  | .factor f => f.yield
  | .mulop o t f => t.yield ++ .op o.tok :: f.yield
  | .term t => t.yield
  | .addop o e t => e.yield ++ .op o.tok :: t.yield

def Cond.yield : Cond → List Tok
  | .expr e => e.yield
  | .cmp o l r => l.yield ++ .op o.tok :: r.yield

def Tree.names : Tree c → List Ident
  | .num _ => []
  | .name x => [x]
  | .paren e => e.names
  | .neg f => f.names
  | .factor f => f.names
  | .mulop _ t f => t.names ++ f.names
  | .term t => t.names
  | .addop _ e t => e.names ++ t.names

def Cond.names : Cond → List Ident
  | .expr e => e.names
  | .cmp _ l r => l.names ++ r.names

theorem Tree.yield_pos (t : Tree c) : 0 < t.yield.length := by
  induction t with
  | num | name | paren | neg => simp [Tree.yield]
  | factor f ih | term f ih => exact ih
  | mulop o t f | addop o t f => simp [Tree.yield]

/-! ## Values -/

/-- Values of the variables. -/
abbrev Store := Ident → BitVec 64

/-- The value of a multiplicative operation, in two's complement. -/
def MulOp.value : MulOp → BitVec 64 → BitVec 64 → Option (BitVec 64)
  | .mul, a, b => some (a * b)
  | .div, a, b => if b = 0 then none else some (a.sdiv b)
  | .mod, a, b => if b = 0 then none else some (a.srem b)

def AddOp.value : AddOp → BitVec 64 → BitVec 64 → BitVec 64
  | .add, a, b => a + b
  | .sub, a, b => a - b

def CmpOp.holds : CmpOp → BitVec 64 → BitVec 64 → Bool
  | .eq, a, b => a == b
  | .ne, a, b => a != b
  | .lt, a, b => a.slt b
  | .le, a, b => a.sle b
  | .gt, a, b => b.slt a
  | .ge, a, b => b.sle a

/-- The value of a tree, `none` when a division or modulus by zero is
evaluated. -/
def Tree.value (σ : Store) : Tree c → Option (BitVec 64)
  | .num v => some v
  | .name x => some (σ x)
  | .paren e => e.value σ
  | .neg f => (f.value σ).map (- ·)
  | .factor f => f.value σ
  | .mulop o t f => (t.value σ).bind fun a => (f.value σ).bind fun b => o.value a b
  | .term t => t.value σ
  | .addop o e t => (e.value σ).bind fun a => (t.value σ).map fun b => o.value a b

def Cond.value (σ : Store) : Cond → Option (BitVec 64)
  | .expr e => e.value σ
  | .cmp o l r => (l.value σ).bind fun a => (r.value σ).map fun b => boolVal (o.holds a b)

/-! ## Outcomes

The operands are evaluated from left to right, and the first operation without
a result decides. -/

/-- Go on with a value. -/
def Arith.bind : Arith → (BitVec 64 → Arith) → Arith
  | .value v, f => f v
  | .divZero, _ => .divZero
  | .overflow, _ => .overflow

def MulOp.op : MulOp → Op
  | .mul => .imul
  | .div => .idiv
  | .mod => .imod

def AddOp.op : AddOp → Op
  | .add => .iadd
  | .sub => .isub

def CmpOp.ops : CmpOp → List Op
  | .eq => [.cmpeq]
  | .ne => [.cmpne]
  | .lt => [.cmplt]
  | .le => [.cmple]
  | .gt => [.swap2, .cmplt]
  | .ge => [.swap2, .cmple]

/-- What evaluating a tree with the kernel's arithmetic comes to. -/
def Tree.outcome (σ : Store) : Tree c → Arith
  | .num v => .value v
  | .name x => .value (σ x)
  | .paren e => e.outcome σ
  | .neg f => (f.outcome σ).bind fun a => .value (-a)
  | .factor f => f.outcome σ
  | .mulop o t f => (t.outcome σ).bind fun a => (f.outcome σ).bind fun b => arith o.op a b
  | .term t => t.outcome σ
  | .addop o e t => (e.outcome σ).bind fun a => (t.outcome σ).bind fun b => arith o.op a b

def Cond.outcome (σ : Store) : Cond → Arith
  | .expr e => e.outcome σ
  | .cmp o l r =>
    (l.outcome σ).bind fun a => (r.outcome σ).bind fun b => .value (boolVal (o.holds a b))

def Arith.Agrees (r : Arith) (v : Option (BitVec 64)) : Prop :=
  match r with
  | .value x => v = some x
  | .divZero => v = none
  | .overflow => True

theorem Arith.Agrees.bind {r : Arith} {v : Option (BitVec 64)} (h : r.Agrees v)
    {f : BitVec 64 → Arith} {g : BitVec 64 → Option (BitVec 64)}
    (hf : ∀ x, (f x).Agrees (g x)) : (r.bind f).Agrees (v.bind g) := by
  cases r with
  | value x =>
    cases show v = some x from h
    exact hf x
  | divZero =>
    cases show v = none from h
    exact rfl
  | overflow => trivial

theorem MulOp.agrees (o : MulOp) (a b : BitVec 64) : (arith o.op a b).Agrees (o.value a b) := by
  have hdiv : ∀ f : BitVec 64 → BitVec 64 → BitVec 64,
      (arithDiv f a b).Agrees (if b = 0 then none else some (f a b)) := by
    intro f
    unfold arithDiv
    by_cases hb : b = 0
    · simp [hb, Arith.Agrees]
    · simp only [hb, if_false]
      split
      · trivial
      · exact rfl
  cases o with
  | mul => exact rfl
  | div => exact hdiv BitVec.sdiv
  | mod => exact hdiv BitVec.srem

theorem AddOp.agrees (o : AddOp) (a b : BitVec 64) :
    (arith o.op a b).Agrees (some (o.value a b)) := by
  cases o <;> exact rfl

theorem Tree.outcome_agrees (σ : Store) (t : Tree c) : (t.outcome σ).Agrees (t.value σ) := by
  induction t with
  | num v => exact rfl
  | name x => exact rfl
  | paren e ih => exact ih
  | neg f ih =>
    simp only [Tree.outcome, Tree.value, Option.map_eq_bind]
    exact ih.bind fun x => rfl
  | factor f ih => exact ih
  | mulop o t f iht ihf => exact iht.bind fun a => ihf.bind fun b => o.agrees a b
  | term t ih => exact ih
  | addop o e t ihe iht =>
    simp only [Tree.outcome, Tree.value, Option.map_eq_bind]
    exact ihe.bind fun a => iht.bind fun b => o.agrees a b

theorem Cond.outcome_agrees (σ : Store) (c : Cond) : (c.outcome σ).Agrees (c.value σ) := by
  cases c with
  | expr e => exact e.outcome_agrees σ
  | cmp o l r =>
    simp only [Cond.outcome, Cond.value, Option.map_eq_bind]
    exact (l.outcome_agrees σ).bind fun a => (r.outcome_agrees σ).bind fun b => rfl

/-! ## Code -/

def Word.plain (o : Op) : Word := Word.mk' o 0 0

/-- The postfix code of a tree, for a numbering of the variables. -/
def Tree.code (slot : Ident → Nat) : Tree c → List Word
  | .num v => [Word.mk' .pushi v 0]
  | .name x => [Word.mk' .gload (BitVec.ofNat 64 (slot x)) 0]
  | .paren e => e.code slot
  | .neg f => f.code slot ++ [Word.plain .ineg]
  | .factor f => f.code slot
  | .mulop o t f => t.code slot ++ f.code slot ++ [Word.plain o.op]
  | .term t => t.code slot
  | .addop o e t => e.code slot ++ t.code slot ++ [Word.plain o.op]

def Cond.code (slot : Ident → Nat) : Cond → List Word
  | .expr e => e.code slot
  | .cmp o l r => l.code slot ++ r.code slot ++ o.ops.map Word.plain

/-- The number of words of a tree's code. -/
def Tree.size : Tree c → Nat
  | .num _ | .name _ => 1
  | .paren e => e.size
  | .neg f => f.size + 1
  | .factor f => f.size
  | .mulop _ t f => t.size + f.size + 1
  | .term t => t.size
  | .addop _ e t => e.size + t.size + 1

def Cond.size : Cond → Nat
  | .expr e => e.size
  | .cmp o l r => l.size + r.size + o.ops.length

/-- The greatest number of values the code of a tree has on the stack at once. -/
def Tree.need : Tree c → Nat
  | .num _ | .name _ => 1
  | .paren e => e.need
  | .neg f => f.need
  | .factor f => f.need
  | .mulop _ t f => max t.need (f.need + 1)
  | .term t => t.need
  | .addop _ e t => max e.need (t.need + 1)

def Cond.need : Cond → Nat
  | .expr e => e.need
  | .cmp _ l r => max l.need (r.need + 1)

@[simp] theorem Tree.length_code (slot : Ident → Nat) (t : Tree c) :
    (t.code slot).length = t.size := by
  induction t with
  | num | name => rfl
  | paren e ih | factor e ih | term e ih => exact ih
  | neg f ih => simp [Tree.code, Tree.size, ih]
  | mulop o t f iht ihf | addop o t f iht ihf =>
    simp only [Tree.code, Tree.size, List.length_append, iht, ihf, List.length_singleton]

@[simp] theorem Cond.length_code (slot : Ident → Nat) (c : Cond) :
    (c.code slot).length = c.size := by
  cases c with
  | expr e => exact e.length_code slot
  | cmp o l r => simp only [Cond.code, Cond.size, List.length_append, Tree.length_code, List.length_map]

theorem Tree.need_pos (t : Tree c) : 0 < t.need := by
  induction t with
  | num | name => exact Nat.one_pos
  | paren e ih | factor e ih | term e ih | neg e ih => exact ih
  | mulop o t f iht ihf | addop o t f iht ihf => simp only [Tree.need]; omega

theorem Cond.need_pos (c : Cond) : 0 < c.need := by
  cases c with
  | expr e => exact e.need_pos
  | cmp o l r => exact Nat.lt_of_lt_of_le l.need_pos (Nat.le_max_left _ _)

theorem Tree.size_pos (t : Tree c) : 0 < t.size := by
  induction t with
  | num | name => exact Nat.one_pos
  | paren e ih | factor e ih | term e ih => exact ih
  | neg | mulop | addop => simp [Tree.size]

theorem Cond.size_pos (c : Cond) : 0 < c.size := by
  cases c with
  | expr e => exact e.size_pos
  | cmp o l r =>
    have := l.size_pos
    simp only [Cond.size]
    omega

theorem Tree.need_le_yield (t : Tree c) : t.need ≤ t.yield.length := by
  induction t with
  | num | name => exact Nat.le_refl _
  | paren e ih | neg e ih =>
    simp only [Tree.need, Tree.yield, List.length_cons, List.length_append]
    omega
  | factor e ih | term e ih => exact ih
  | mulop o t f iht ihf | addop o t f iht ihf =>
    simp only [Tree.need, Tree.yield, List.length_append, List.length_cons]
    omega

theorem Cond.need_le_yield (c : Cond) : c.need ≤ c.yield.length := by
  cases c with
  | expr e => exact e.need_le_yield
  | cmp o l r =>
    have := l.need_le_yield
    have := r.need_le_yield
    simp only [Cond.need, Cond.yield, List.length_append, List.length_cons]
    omega

end Engines
