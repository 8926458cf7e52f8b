import OpenWindows.Engines.Grammar

/-!
# Structured programs

`Prog` is the program a list of statements stands for, with its blocks nested.
A program is evaluated directly, on a store of named variables and with the
list of the texts it has printed.  The count that bounds `Prog.eval` runs out
on a program that does not end.

`Prog.code` is the code of a program, which depends on the position it stands
at since its jumps are absolute.
-/

namespace Engines

/-- A statement and the statements after it in its block. -/
inductive Prog where
  | done
  | assign (x : Ident) (c : Cond) (rest : Prog)
  | print (c : Cond) (rest : Prog)
  | printStr (so sl : UInt32) (rest : Prog)
  | loop (c : Cond) (body rest : Prog)
  /-- An `if` without an `else`. -/
  | when (c : Cond) (body rest : Prog)
  | cond (c : Cond) (body alt rest : Prog)

/-! ## Evaluation -/

/-- How an evaluation ends. -/
inductive Finish where
  | ok
  /-- A division or modulus by zero, or a string outside the pool. -/
  | runtimeError
  /-- `INT64_MIN` divided by `-1`. -/
  | overflow
  deriving DecidableEq, Repr

/-- The variables and the texts printed so far. -/
structure Progress where
  store : Store
  out : List (List UInt8)

def poolString (pool : Nat → UInt8) (so sl : Nat) : List UInt8 := (List.range' so sl).map pool

/-- Go on with the value of a condition, or end where it has none. -/
def withValue (r : Arith) (π : Progress) (k : BitVec 64 → Option (Finish × Progress)) :
    Option (Finish × Progress) :=
  match r with
  | .value v => k v
  | .divZero => some (.runtimeError, π)
  | .overflow => some (.overflow, π)

/-- Go on behind a block, or end where it ended. -/
def andThen (r : Option (Finish × Progress)) (k : Progress → Option (Finish × Progress)) :
    Option (Finish × Progress) :=
  match r with
  | some (.ok, π) => k π
  | r => r

def Prog.eval (pool : Nat → UInt8) : Nat → Prog → Progress → Option (Finish × Progress)
  | 0, _, _ => none
  | n + 1, p, π =>
    match p with
    | .done => some (.ok, π)
    | .assign x c rest =>
      withValue (c.outcome π.store) π fun v =>
        rest.eval pool n { π with store := Function.update π.store x v }
    | .print c rest =>
      withValue (c.outcome π.store) π fun v =>
        rest.eval pool n { π with out := π.out ++ [decimal v.toInt] }
    | .printStr so sl rest =>
      if so.toNat + sl.toNat ≤ poolSize then
        rest.eval pool n { π with out := π.out ++ [poolString pool so.toNat sl.toNat] }
      else some (.runtimeError, π)
    | .loop c body rest =>
      withValue (c.outcome π.store) π fun v =>
        if v = 0 then rest.eval pool n π
        else andThen (body.eval pool n π) fun π => (Prog.loop c body rest).eval pool n π
    | .when c body rest =>
      withValue (c.outcome π.store) π fun v =>
        if v = 0 then rest.eval pool n π
        else andThen (body.eval pool n π) fun π => rest.eval pool n π
    | .cond c body alt rest =>
      withValue (c.outcome π.store) π fun v =>
        andThen ((if v = 0 then alt else body).eval pool n π) fun π => rest.eval pool n π

/-! ## Code -/

def Prog.names : Prog → List Ident
  | .done => []
  | .assign x c rest => x :: (c.names ++ rest.names)
  | .print c rest => c.names ++ rest.names
  | .printStr _ _ rest => rest.names
  | .loop c body rest => c.names ++ body.names ++ rest.names
  | .when c body rest => c.names ++ body.names ++ rest.names
  | .cond c body alt rest => c.names ++ body.names ++ alt.names ++ rest.names

/-- The number of words of a program. -/
def Prog.size : Prog → Nat
  | .done => 0
  | .assign _ c rest => c.size + 1 + rest.size
  | .print c rest => c.size + 1 + rest.size
  | .printStr _ _ rest => 2 + rest.size
  | .loop c body rest => c.size + 3 + body.size + 1 + rest.size
  | .when c body rest => c.size + 3 + body.size + rest.size
  | .cond c body alt rest => c.size + 3 + body.size + 1 + alt.size + rest.size

/-- The greatest number of values a condition of the program has on the stack. -/
def Prog.need : Prog → Nat
  | .done => 0
  | .assign _ c rest => max c.need rest.need
  | .print c rest => max c.need rest.need
  | .printStr _ _ rest => rest.need
  | .loop c body rest => max c.need (max body.need rest.need)
  | .when c body rest => max c.need (max body.need rest.need)
  | .cond c body alt rest => max c.need (max body.need (max alt.need rest.need))

/-- Jump to `target` when the condition is zero. -/
def testCode (slot : Ident → Nat) (c : Cond) (target : Nat) : List Word :=
  c.code slot ++
    [Word.mk' .pushi 0 0, Word.plain .cmpeq, Word.mk' .jnz (BitVec.ofNat 64 target) 0]

/-- The word of a jump. -/
def jmpTo (target : Nat) : Word := Word.mk' .jmp (BitVec.ofNat 64 target) 0

/-- The words that print a string of the pool. -/
def printStrCode (so sl : UInt32) : List Word :=
  [Word.mk' .pushs (BitVec.ofNat 64 so.toNat) (BitVec.ofNat 64 sl.toNat), Word.plain .print]

/-- The code of a program standing at `base`. -/
def Prog.code (slot : Ident → Nat) : Nat → Prog → List Word
  | _, .done => []
  | base, .assign x c rest =>
    (c.code slot ++ [Word.mk' .gstore (BitVec.ofNat 64 (slot x)) 0]) ++
      rest.code slot (base + (c.size + 1))
  | base, .print c rest =>
    (c.code slot ++ [Word.plain .print]) ++ rest.code slot (base + (c.size + 1))
  | base, .printStr so sl rest => printStrCode so sl ++ rest.code slot (base + 2)
  | base, .loop c body rest =>
    let top := base + (c.size + 3)
    let stop := top + body.size + 1
    testCode slot c stop ++ body.code slot top ++ [jmpTo base] ++ rest.code slot stop
  | base, .when c body rest =>
    let top := base + (c.size + 3)
    let stop := top + body.size
    testCode slot c stop ++ body.code slot top ++ rest.code slot stop
  | base, .cond c body alt rest =>
    let top := base + (c.size + 3)
    let other := top + body.size + 1
    let stop := other + alt.size
    testCode slot c other ++ body.code slot top ++ [jmpTo stop] ++ alt.code slot other ++
      rest.code slot stop

@[simp] theorem length_testCode (slot : Ident → Nat) (c : Cond) (target : Nat) :
    (testCode slot c target).length = c.size + 3 := by
  simp [testCode]

@[simp] theorem Prog.length_code (slot : Ident → Nat) (p : Prog) (base : Nat) :
    (p.code slot base).length = p.size := by
  induction p generalizing base with
  | done => rfl
  | assign x c rest ih | print c rest ih =>
    simp only [Prog.code, Prog.size, List.length_append, Cond.length_code, List.length_singleton,
      ih]
  | printStr so sl rest ih =>
    simp only [Prog.code, Prog.size, printStrCode, List.length_append, List.length_cons,
      List.length_nil, ih]
  | loop c body rest ihb ihr | when c body rest ihb ihr =>
    simp only [Prog.code, Prog.size, List.length_append, length_testCode, List.length_singleton,
      ihb, ihr]
  | cond c body alt rest ihb iha ihr =>
    simp only [Prog.code, Prog.size, List.length_append, length_testCode, List.length_singleton,
      ihb, iha, ihr]

end Engines
