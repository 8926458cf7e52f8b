import OpenWindows.Engines.Kernel
import OpenWindows.Engines.Shell

/-!
# The assembler

`meng_kernel_assemble` turns a source text into kernel words.  `meng_kernel_tokenize` cuts the
text into words at blanks and comments and classifies each.  A first pass over the tokens gives
every label the number of the operation it stands before, and a second pass emits a word for
each operation, with the operand that the next token holds.
-/

namespace Engines

/-! ## Tokens -/

/-- `meng_tok_t`.  A label definition holds its `label_pc`. -/
inductive MTok where
  | op (o : Op)
  | num (v : BitVec 64)
  | str (off len : Nat)
  | labdef (name : List UInt8) (pc : Nat)
  | labref (name : List UInt8)
  deriving DecidableEq

/-- `MENG_MAX_TOKENS`. -/
def maxTokens : Nat := 256

/-- `MENG_K_WORDS`. -/
def kWords : Nat := 256

/-- `meng_ops`. -/
def mengOps : List (List UInt8 × Op) :=
  [(ascii ['n', 'o', 'p'], .nop), (ascii ['p', 'u', 's', 'h', 'i'], .pushi),
   (ascii ['p', 'u', 's', 'h', 's'], .pushs), (ascii ['d', 'u', 'p', '2'], .dup2),
   (ascii ['s', 'w', 'a', 'p', '2'], .swap2), (ascii ['d', 'r', 'o', 'p', '2'], .drop2),
   (ascii ['i', 'a', 'd', 'd'], .iadd), (ascii ['i', 's', 'u', 'b'], .isub),
   (ascii ['i', 'm', 'u', 'l'], .imul), (ascii ['i', 'd', 'i', 'v'], .idiv),
   (ascii ['i', 'm', 'o', 'd'], .imod), (ascii ['i', 'n', 'e', 'g'], .ineg),
   (ascii ['c', 'm', 'p', 'e', 'q'], .cmpeq), (ascii ['c', 'm', 'p', 'n', 'e'], .cmpne),
   (ascii ['c', 'm', 'p', 'l', 't'], .cmplt), (ascii ['c', 'm', 'p', 'l', 'e'], .cmple),
   (ascii ['j', 'n', 'z'], .jnz), (ascii ['j', 'm', 'p'], .jmp),
   (ascii ['g', 'l', 'o', 'a', 'd'], .gload), (ascii ['g', 's', 't', 'o', 'r', 'e'], .gstore),
   (ascii ['c', 'a', 'l', 'l'], .call), (ascii ['r', 'e', 't'], .ret),
   (ascii ['c', 'o', 'n', 'c', 'a', 't'], .concat), (ascii ['p', 'r', 'i', 'n', 't'], .print),
   (ascii ['h', 'a', 'l', 't'], .halt)]

/-- A letter folded to lower case. -/
def lower (c : UInt8) : UInt8 := if 65 ≤ c ∧ c ≤ 90 then c - 65 + 97 else c

/-- `meng_op_lookup`. -/
def mengOpLookup (s : List UInt8) : Option Op :=
  (mengOps.find? fun e => e.1.map lower == s.map lower).map (·.2)

/-- `meng_parse_dec`, with the sign applied. -/
def mengParseDec (s : List UInt8) : Option (BitVec 64) :=
  match s with
  | [] => none
  | 45 :: [] => none
  | 45 :: cs => (parseDigits 0 cs).toOption.map (- ·)
  | cs => (parseDigits 0 cs).toOption

/-- The loop that decodes a literal into the pool, `none` when the pool is full. -/
def storeLiteral : StringPool → List UInt8 → Option StringPool
  | P, [] => some P
  | P, [c] => P.push c
  | P, c :: d :: cs =>
    if c = 92 then (P.push (escaped d)).bind (storeLiteral · cs)
    else (P.push c).bind (storeLiteral · (d :: cs))

/-- A blank of `meng_kernel_tokenize`. -/
def isBlank (c : UInt8) : Bool := c == 32 || c == 9 || c == 13 || c == 10

def isComment (c : UInt8) : Bool := c == 35 || c == 59

def isWordChar (c : UInt8) : Bool := !isBlank c && !isComment c

/-- The text between the quotes, if the word is a literal. -/
def literalBody (word : List UInt8) : Option (List UInt8) :=
  if word.head? = some 34 ∧ 2 ≤ word.length ∧ word.getLast? = some 34 then some word.tail.dropLast
  else none

/-- The token of a word that is not a literal, less the colon that makes it a label
definition. -/
def nameToken (isLabel : Bool) (name : List UInt8) (pc : Nat) : Except Status MTok :=
  if name.length > 16 then .error .errSyntax
  else if isLabel then
    if name = [] then .error .errSyntax else .ok (.labdef (name.map lower) pc)
  else
    match mengParseDec name with
    | some v => .ok (.num v)
    | none =>
      match mengOpLookup name with
      | some o => .ok (.op o)
      | none => if name = [] then .error .errSyntax else .ok (.labref (name.map lower))

def mengWord (word : List UInt8) (pc : Nat) : Except Status MTok :=
  if word.getLast? = some 58 then nameToken true word.dropLast pc else nameToken false word pc

def mengToken (word : List UInt8) (P : StringPool) (pc : Nat) :
    Except Status (MTok × StringPool) :=
  match literalBody word with
  | some body =>
    match storeLiteral P body with
    | none => .error .banScratch
    | some P' => .ok (.str P.bytes.length (P'.bytes.length - P.bytes.length), P')
  | none =>
    match mengWord word pc with
    | .error e => .error e
    | .ok t => .ok (t, P)

/-- The tokens so far, the pool and `pc`. -/
structure TokState where
  toks : List MTok
  pool : StringPool
  pc : Nat

/-- The loop of `meng_kernel_tokenize`.  The count bounds its turns, each of which consumes a
character. -/
def tokenizeLoop (cap : Nat) : Nat → List UInt8 → TokState → Except Status TokState
  | 0, _, st => .ok st
  | _ + 1, [], st => .ok st
  | n + 1, c :: cs, st =>
    if c = 0 then .ok st
    else if isBlank c then tokenizeLoop cap n cs st
    else if isComment c then tokenizeLoop cap n (cs.dropWhile (· ≠ 10)) st
    else if st.toks.length + 1 > cap then .error .errShortOut
    else
      match mengToken ((c :: cs).takeWhile isWordChar) st.pool st.pc with
      | .error e => .error e
      | .ok (t, P) =>
        tokenizeLoop cap n ((c :: cs).dropWhile isWordChar) ⟨st.toks ++ [t], P, st.pc + 1⟩

/-- `meng_kernel_tokenize`. -/
def mengKernelTokenize (src : List UInt8) (cap : Nat) : Except Status TokState :=
  tokenizeLoop cap src.length src ⟨[], .empty, 0⟩

/-! ## The two passes -/

def takesOperand : Op → Bool
  | .pushs | .pushi | .gload | .gstore | .jnz | .jmp | .call => true
  | _ => false

/-- The prepass: a label definition gets the number `w` of the operations before it. -/
def prepass : Nat → List MTok → Except Status (List MTok)
  | _, [] => .ok []
  | w, .op o :: rest =>
    if takesOperand o then
      match rest with
      | [] => .ok [.op o]
      | t :: rest => (prepass (w + 1) rest).map (.op o :: t :: ·)
    else (prepass (w + 1) rest).map (.op o :: ·)
  | w, .labdef name _ :: rest => (prepass w rest).map (.labdef name w :: ·)
  | _, _ :: _ => .error .errSyntax

/-- `meng_label_pc`.  Labels are compared up to their NUL. -/
def mengLabelPc (tk : List MTok) (name : List UInt8) : Option Nat :=
  tk.findSome? fun t =>
    match t with
    | .labdef label pc => if cString label = cString name then some pc else none
    | _ => none

def operandOf (tk : List MTok) (o : Op) (t : MTok) : Except Status (BitVec 64 × BitVec 64) :=
  if o = .pushs then
    match t with
    | .str off len => .ok (BitVec.ofNat 64 off, BitVec.ofNat 64 len)
    | _ => .error .errSyntax
  else
    match t with
    | .num v => .ok (v, 0)
    | .labref name =>
      match mengLabelPc tk name with
      | none => .error .errSyntax
      | some pc => .ok (BitVec.ofNat 64 pc, 0)
    | _ => .error .errSyntax

/-- The second pass, over all tokens `tk`. -/
def emitWords (tk : List MTok) : List MTok → Except Status (List Word)
  | [] => .ok []
  | .op o :: rest =>
    if takesOperand o then
      match rest with
      | [] => .error .errSyntax
      | t :: rest =>
        match operandOf tk o t with
        | .error e => .error e
        | .ok (a0, a1) => (emitWords tk rest).map (Word.mk' o a0 a1 :: ·)
    else (emitWords tk rest).map (Word.mk' o 0 0 :: ·)
  | .labdef _ _ :: rest => emitWords tk rest
  | _ :: _ => .error .errSyntax

/-- `meng_kernel_assemble`: the words it writes with the pool it leaves.  `*count` is the
number of the words. -/
def mengKernelAssemble (src : List UInt8) (cap : Nat) : Except Status (List Word × StringPool) :=
  if cap = 0 ∨ cap > kWords then .error .errBadArg
  else
    match mengKernelTokenize src maxTokens with
    | .error e => .error e
    | .ok st =>
      if st.pc > cap then .error .errShortOut
      else
        match prepass 0 st.toks with
        | .error e => .error e
        | .ok tk =>
          match emitWords tk tk with
          | .error e => .error e
          | .ok words => .ok (words, st.pool)

end Engines
