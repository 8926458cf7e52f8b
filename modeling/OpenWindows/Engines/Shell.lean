import OpenWindows.Lib.StepSystem
import OpenWindows.Engines.Machine

/-!
# The managedsh engine

`engine_sh_run` executes a script line by line.  A first pass collects the
`name:` labels, a second pass runs the lines under the step budget.  Both are
loops that call `meng_sh_find_line` with a `uint32_t` line number until it
fails, so the engine is a step system with two kinds of state.

Words and names are the characters of a C string without its NUL.
-/

namespace Engines

open StepSystem

def ascii (cs : List Char) : List UInt8 := cs.map fun c => UInt8.ofNat c.toNat

/-! ## Text helpers -/

/-- The digits of `parse_i64`, accumulated in a `uint64_t`. -/
def parseDigits : BitVec 64 → List UInt8 → Except Status (BitVec 64)
  | u, [] => .ok u
  | u, c :: cs =>
    if c < 48 ∨ 57 < c then .error .errSyntax
    else parseDigits (u * 10 + BitVec.ofNat 64 (c.toNat - 48)) cs

/-- `parse_i64`. -/
def parseI64 (s : List UInt8) : Except Status (BitVec 64) :=
  match s with
  | 45 :: [] => .error .errSyntax
  | 45 :: cs =>
    match parseDigits 0 cs with
    | .ok u => .ok (-u)
    | .error e => .error e
  | [] => .error .errSyntax
  | cs => parseDigits 0 cs

/-- `meng_split`: at most `maxw` words, each cut to the 32 characters
`copy_wordn` keeps. -/
def mengSplit : Nat → List UInt8 → List (List UInt8)
  | 0, _ => []
  | maxw + 1, line =>
    match line.dropWhile (· = 32) with
    | [] => []
    | c :: cs =>
      ((c :: cs).takeWhile (· ≠ 32)).take 32 :: mengSplit maxw ((c :: cs).dropWhile (· ≠ 32))

/-- The characters of a buffer up to its NUL. -/
def cString (bs : List UInt8) : List UInt8 := bs.takeWhile (· ≠ 0)

/-- `meng_sh_find_line`: the bytes of a line, `none` at the end of the script. -/
def mengShFindLine : Nat → List UInt8 → Option (List UInt8)
  | _, [] => none
  | 0, b :: bs => some ((b :: bs).takeWhile (· ≠ 10))
  | n + 1, b :: bs => mengShFindLine n (((b :: bs).dropWhile (· ≠ 10)).drop 1)

/-- The words of a line: leading blanks are skipped, at most 127 bytes are
kept, and a `#` starts a comment.  Blank and comment lines have no words. -/
def shWords (line : List UInt8) : List (List UInt8) :=
  mengSplit 8 (cString (((line.dropWhile (· = 32)).take 127).takeWhile (· ≠ 35)))

/-! ## Variables -/

/-- `MENG_SH_MAX_VARS`. -/
def shMaxVars : Nat := 16

/-- `MENG_SH_MAX_LABELS`. -/
def shMaxLabels : Nat := 32

/-- `meng_sh_var_t`. -/
structure ShVar where
  name : List UInt8
  isStr : Bool
  v : BitVec 64
  sval : List UInt8
  deriving DecidableEq, Repr

/-- `meng_sh_find_var`. -/
def mengShFindVar (vars : List ShVar) (name : List UInt8) : Option ShVar :=
  vars.find? (·.name == name)

/-- Replace the first variable of a name. -/
def setFirst (f : ShVar → ShVar) (name : List UInt8) : List ShVar → List ShVar
  | [] => []
  | x :: xs => if x.name = name then f x :: xs else x :: setFirst f name xs

/-- What `set` stores in a variable: a number, or at most 31 characters. -/
def ShVar.store (x : ShVar) : BitVec 64 ⊕ List UInt8 → ShVar
  | .inl v => { x with isStr := false, v := v }
  | .inr t => { x with isStr := true, v := 0, sval := t.take 31 }

/-- `meng_sh_set_var`.  A new name is cut to 15 characters, the lookup uses the
name as given. -/
def mengShSetVar (vars : List ShVar) (name : List UInt8) (val : BitVec 64 ⊕ List UInt8) :
    Except Status (List ShVar) :=
  match mengShFindVar vars name with
  | some _ => .ok (setFirst (·.store val) name vars)
  | none =>
    if vars.length ≥ shMaxVars then .error .errShortOut
    else .ok (vars ++ [ShVar.store ⟨name.take 15, false, 0, []⟩ val])

/-- A character of a `$NAME` reference. -/
def isNameChar (c : UInt8) : Bool :=
  (97 ≤ c && c ≤ 122) || (65 ≤ c && c ≤ 90) || (48 ≤ c && c ≤ 57) || c == 95

/-- The name after a `$`, at most 15 characters. -/
def dollarName (cs : List UInt8) : List UInt8 := (cs.takeWhile isNameChar).take 15

def ShVar.print (x : ShVar) (m : Machine) : Machine :=
  if x.isStr then (mengMachineOut m x.sval).2 else (mengMachineOutInt m x.v).2

/-- `meng_sh_expand_word`.  The count bounds the turns of its loop, each of
which consumes a character. -/
def mengShExpandWord (vars : List ShVar) : Nat → List UInt8 → Machine → Status × Machine
  | _, [], m => (.ok, m)
  | 0, _ :: _, m => (.ok, m)
  | n + 1, c :: cs, m =>
    if c = 36 then
      let nb := dollarName cs
      let rest := cs.drop nb.length
      if nb = [] then mengShExpandWord vars n rest (mengMachineOutChar m 36).2
      else
        match mengShFindVar vars nb with
        | some x => mengShExpandWord vars n rest (x.print m)
        | none => mengShExpandWord vars n rest m
    else
      match mengMachineStep m with
      | (false, m) => (.errTrap, m)
      | (true, m) => mengShExpandWord vars n cs (mengMachineOutChar m c).2

/-- The words of `echo`, separated by blanks. -/
def shEcho (vars : List ShVar) : Bool → List (List UInt8) → Machine → Status × Machine
  | _, [], m => (.ok, m)
  | first, w :: ws, m =>
    let m := if first then m else (mengMachineOutChar m 32).2
    match mengShExpandWord vars w.length w m with
    | (.ok, m) => shEcho vars false ws m
    | (st, m) => (st, m)

/-- `meng_sh_expand_int`: the value, zero on an error, and the status. -/
def mengShExpandInt (vars : List ShVar) (txt : List UInt8) : BitVec 64 × Status :=
  match txt with
  | 36 :: name =>
    match mengShFindVar vars name with
    | some x => if x.isStr then (0, .errRuntime) else (x.v, .ok)
    | none => (0, .errRuntime)
  | _ =>
    match parseI64 txt with
    | .ok v => (v, .ok)
    | .error e => (0, e)

/-! ## The engine -/

/-- `meng_sh_label_t`. -/
structure ShLabel where
  name : List UInt8
  line : Nat
  deriving DecidableEq, Repr

/-- The two passes. -/
inductive ShState where
  | collect (l : Nat) (labels : List ShLabel) (m : Machine)
  | execute (lineno : Nat) (labels : List ShLabel) (vars : List ShVar) (m : Machine)

def ShState.machine : ShState → Machine
  | .collect _ _ m => m
  | .execute _ _ _ m => m

/-- The next line number, a `uint32_t`. -/
def nextLine (l : Nat) : Nat := (l + 1) % 2 ^ 32

/-- The label a line of the first pass defines. -/
def collectLabel (words : List (List UInt8)) (l : Nat) (labels : List ShLabel) : List ShLabel :=
  match words with
  | w :: _ =>
    if w.getLast? = some 58 ∧ labels.length < shMaxLabels then
      labels ++ [⟨w.dropLast.take 15, l⟩]
    else labels
  | [] => labels

/-- The condition of `goto NAME IF a op b`.  Only the status of the second
operand is looked at. -/
def gotoCond (vars : List ShVar) (a op b : List UInt8) : Except Status Bool :=
  let (av, _) := mengShExpandInt vars a
  let (bv, st) := mengShExpandInt vars b
  if st ≠ .ok then .error st
  else if op = ascii ['l', 't'] then .ok (av.slt bv)
  else if op = ascii ['l', 'e'] then .ok (av.sle bv)
  else if op = ascii ['g', 't'] then .ok (bv.slt av)
  else if op = ascii ['g', 'e'] then .ok (bv.sle av)
  else if op = ascii ['e', 'q'] then .ok (av == bv)
  else if op = ascii ['n', 'e'] then .ok (av != bv)
  else .error .errSyntax

/-- The target line of `goto`, `none` when the condition does not hold. -/
def gotoTarget (labels : List ShLabel) (vars : List ShVar) (name : List UInt8)
    (args : List (List UInt8)) : Except Status (Option Nat) :=
  let cond : Except Status Bool :=
    match args with
    | kw :: a :: op :: b :: _ => if kw = ascii ['I', 'F'] then gotoCond vars a op b else .ok true
    | _ => .ok true
  match cond with
  | .error st => .error st
  | .ok c =>
    match labels.find? (·.name == name) with
    | none => .error .errSyntax
    | some lb => .ok (if c then some lb.line else none)

/-- One command of the second pass, with its step already charged. -/
def shCommand (labels : List ShLabel) (lineno : Nat) (vars : List ShVar) (m : Machine)
    (w : List UInt8) (args : List (List UInt8)) : ShState ⊕ (Status × Machine) :=
  let next := ShState.execute (nextLine lineno) labels
  if w = ascii ['h', 'a', 'l', 't'] ∨ w = ascii ['q', 'u', 'i', 't'] then .inr (.ok, m)
  else if w = ascii ['s', 'e', 't'] ∧ 2 ≤ args.length then
    let val := match parseI64 (args.getD 1 []) with
      | .ok v => .inl v
      | .error _ => .inr (args.getD 1 [])
    match mengShSetVar vars (args.getD 0 []) val with
    | .ok vars => .inl (next vars m)
    | .error st => .inr (st, m)
  else if w = ascii ['i', 'n', 'c'] ∧ 1 ≤ args.length then
    match mengShFindVar vars (args.getD 0 []) with
    | some x =>
      if x.isStr then .inr (.errRuntime, m)
      else .inl (next (setFirst (fun x => { x with v := x.v + 1 }) (args.getD 0 []) vars) m)
    | none => .inr (.errRuntime, m)
  else if w = ascii ['e', 'c', 'h', 'o'] ∧ 1 ≤ args.length then
    match shEcho vars true args m with
    | (.ok, m) => .inl (next vars m)
    | (st, m) => .inr (st, m)
  else if w = ascii ['l', 'a', 'b', 'e', 'l'] ∧ 1 ≤ args.length then .inl (next vars m)
  else if w.getLast? = some 58 then .inl (next vars m)
  else if w = ascii ['g', 'o', 't', 'o'] ∧ 1 ≤ args.length then
    match gotoTarget labels vars (args.getD 0 []) (args.drop 1) with
    | .error st => .inr (st, m)
    | .ok (some l) => .inl (.execute l labels vars m)
    | .ok none => .inl (next vars m)
  else .inr (.errSyntax, m)

/-- One turn of either loop of `engine_sh_run`. -/
def shStep (manifest : List UInt8) : ShState → ShState ⊕ (Status × Machine)
  | .collect l labels m =>
    match mengShFindLine l manifest with
    | none => .inl (.execute 0 labels [] m)
    | some line => .inl (.collect (nextLine l) (collectLabel (shWords line) l labels) m)
  | .execute lineno labels vars m =>
    match mengShFindLine lineno manifest with
    | none => .inr (.ok, m)
    | some line =>
      match mengMachineStep m with
      | (false, m) => .inr (.errTrap, m)
      | (true, m) =>
        match shWords line with
        | [] => .inl (.execute (nextLine lineno) labels vars m)
        | w :: args => shCommand labels lineno vars m w args

/-- `engine_sh_run` returns a status and leaves a machine. -/
def ShReturns (m : Machine) (manifest : List UInt8) (r : Status × Machine) : Prop :=
  ∃ n, Halts (shStep manifest) n (.collect 0 [] m) r

end Engines
