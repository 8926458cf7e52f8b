import OpenWindows.Engines.Machine
import OpenWindows.Lib.StepSystem

/-!
# The poco kernel

`meng_kernel_run` executes an array of words on a value stack, a return stack
and a globals array.  Every value takes two cells: a payload below a meta cell
whose low two bits are the type tag.  A string value holds a raw pointer in its
payload and its length in the meta cell.

The stack is the list of the cells below `depth`, top first, so `depth` is its
length; the code never reads a cell at or above `depth` that it has not just
popped.  A string pointer is an address, and `KEnv` places the two objects it
may point into, the module's string pool and the scratch arena of the machine.

What C leaves undefined is a `Fault`: a read outside those objects, an access
outside the globals, and the quotient or remainder of `INT64_MIN` by `-1`.

`kernelStep` is one turn of the loop.  It charges a step and then executes the
word with `exec`, which knows nothing of the budget.
-/

namespace Engines

open StepSystem

/-! ## Words -/

/-- The operations of the kernel. -/
inductive Op where
  | nop | pushi | pushs | dup2 | swap2 | drop2
  | iadd | isub | imul | idiv | imod | ineg
  | cmpeq | cmpne | cmplt | cmple
  | jnz | jmp | gload | gstore | call | ret
  | concat | print | halt
  deriving DecidableEq, Repr

/-- The enumeration in the order of the header. -/
def Op.all : List Op :=
  [.nop, .pushi, .pushs, .dup2, .swap2, .drop2, .iadd, .isub, .imul, .idiv, .imod, .ineg,
   .cmpeq, .cmpne, .cmplt, .cmple, .jnz, .jmp, .gload, .gstore, .call, .ret, .concat, .print,
   .halt]

/-- The number of an operation. -/
def Op.code (o : Op) : UInt16 := UInt16.ofNat (Op.all.idxOf o)

/-- The operation a word's `op` field selects, `none` outside the enumeration. -/
def Op.ofCode? (c : UInt16) : Option Op := Op.all[c.toNat]?

@[simp] theorem Op.ofCode?_code (o : Op) : Op.ofCode? o.code = some o := by
  cases o <;> decide

/-- `meng_word_t`. -/
structure Word where
  op : UInt16
  a0 : BitVec 64
  a1 : BitVec 64
  deriving DecidableEq, Repr

/-- A word for an operation with its operands. -/
def Word.mk' (o : Op) (a0 a1 : BitVec 64) : Word := ⟨o.code, a0, a1⟩

/-! ## Memory -/

/-- `MENG_POOL_SIZE`. -/
def poolSize : Nat := 512

/-- `MENG_K_STACK_CELLS`. -/
def stackCells : Nat := 128

/-- `MENG_K_GLOBALS`. -/
def kGlobals : Nat := 64

/-- Where the string pool and the scratch arena lie, and what the pool holds. -/
structure KEnv where
  poolAddr : Nat
  scratchAddr : Nat
  pool : Nat → UInt8
  /-- The address one past the end of an object exists too. -/
  pool_fits : poolAddr + poolSize < 2 ^ 64
  scratch_fits : scratchAddr + scratchSize < 2 ^ 64
  /-- They are distinct objects. -/
  disjoint : poolAddr + poolSize ≤ scratchAddr ∨ scratchAddr + scratchSize ≤ poolAddr

instance : Inhabited KEnv where
  default := {
    poolAddr := 0x10000
    scratchAddr := 0x20000
    pool := fun _ => 0
    pool_fits := by decide
    scratch_fits := by decide
    disjoint := by decide }

/-- What C gives no meaning to. -/
inductive Fault where
  /-- A read outside the pool and the scratch arena. -/
  | wildRead
  /-- An access outside the globals array. -/
  | wildGlobal
  /-- `INT64_MIN / -1` or `INT64_MIN % -1`. -/
  | divOverflow
  deriving DecidableEq, Repr

/-- The byte at an address, for the current contents of the scratch arena. -/
def KEnv.load (E : KEnv) (scratch : Nat → UInt8) (a : Nat) : Option UInt8 :=
  if E.poolAddr ≤ a ∧ a < E.poolAddr + poolSize then some (E.pool (a - E.poolAddr))
  else if E.scratchAddr ≤ a ∧ a < E.scratchAddr + scratchSize then
    some (scratch (a - E.scratchAddr))
  else none

/-- The `n` bytes from an address on. -/
def KEnv.loadBytes (E : KEnv) (scratch : Nat → UInt8) : Nat → Nat → Option (List UInt8)
  | _, 0 => some []
  | a, n + 1 =>
    match E.load scratch a, E.loadBytes scratch (a + 1) n with
    | some b, some bs => some (b :: bs)
    | _, _ => none

/-- The copy loop of `CONCAT`: `n` bytes from address `src` into the scratch
arena from index `dst` on, one after the other.  A source inside the arena is
read while the arena changes. -/
def KEnv.copyIn (E : KEnv) : Nat → Nat → Nat → (Nat → UInt8) → Option (Nat → UInt8)
  | 0, _, _, scratch => some scratch
  | n + 1, src, dst, scratch =>
    match E.load scratch src with
    | none => none
    | some b => E.copyIn n (src + 1) (dst + 1) (Function.update scratch dst b)

/-! ## Values -/

/-- `MENG_K_T_STR`. -/
def tStr : BitVec 64 := 1

/-- `MENG_K_T_INT`. -/
def tInt : BitVec 64 := 2

/-- `meng_cell_type`. -/
def mengCellType (mta : BitVec 64) : BitVec 64 := mta &&& 3

/-- `meng_cell_strlen`, a `uint32_t`. -/
def mengCellStrlen (mta : BitVec 64) : Nat := (mta >>> 2).toNat % 2 ^ 32

/-- The meta cell of a string of length `l`. -/
def strMeta (l : Nat) : BitVec 64 := (BitVec.ofNat 64 l <<< 2) ||| tStr

/-- A comparison result as a value. -/
def boolVal (b : Bool) : BitVec 64 := if b then 1 else 0

/-! ## States -/

/-- The locals of `meng_kernel_run` with the machine and the globals. -/
structure KState where
  m : Machine
  g : List (BitVec 64)
  /-- The value stack, top cell first. -/
  cells : List (BitVec 64)
  /-- The return stack, top first. -/
  rstk : List Nat
  pc : Nat

/-- How a run ends: the returned status, or a fault. -/
inductive Exit where
  | status (st : Status)
  | fault (f : Fault)
  deriving DecidableEq, Repr

/-- The end of a run with the machine and the globals it leaves. -/
structure KResult where
  exit : Exit
  m : Machine
  g : List (BitVec 64)

/-- `return st`. -/
def KState.done (s : KState) (st : Status) : KState ⊕ KResult := .inr ⟨.status st, s.m, s.g⟩

/-- Undefined behaviour. -/
def KState.fault (s : KState) (f : Fault) : KState ⊕ KResult := .inr ⟨.fault f, s.m, s.g⟩

/-- Continue with a new value stack. -/
def KState.next (s : KState) (cells : List (BitVec 64)) : KState ⊕ KResult :=
  .inl { s with cells := cells }

/-- Push a value after the overflow check. -/
def KState.push (s : KState) (v mta : BitVec 64) : KState ⊕ KResult :=
  if s.cells.length + 2 > stackCells then s.done .errStackOverflow
  else s.next (mta :: v :: s.cells)

/-! ## Arithmetic -/

/-- The least 64-bit integer. -/
def int64Min : BitVec 64 := BitVec.intMin 64

/-- The result of a binary arithmetic operation: `none` for a zero divisor and
a fault where the quotient does not exist in 64 bits. -/
inductive Arith where
  | value (v : BitVec 64)
  | divZero
  | overflow
  deriving DecidableEq, Repr

/-- Division and remainder share their guard. -/
def arithDiv (f : BitVec 64 → BitVec 64 → BitVec 64) (a b : BitVec 64) : Arith :=
  if b = 0 then .divZero
  else if a = int64Min ∧ b = -1 then .overflow
  else .value (f a b)

/-- The five binary operations.  Quotients truncate toward zero. -/
def arith : Op → BitVec 64 → BitVec 64 → Arith
  | .iadd, a, b => .value (a + b)
  | .isub, a, b => .value (a - b)
  | .imul, a, b => .value (a * b)
  | .idiv, a, b => arithDiv BitVec.sdiv a b
  | _, a, b => arithDiv BitVec.srem a b

def compare : Op → BitVec 64 → BitVec 64 → Bool
  | .cmpeq, a, b => a == b
  | .cmpne, a, b => a != b
  | .cmplt, a, b => a.slt b
  | _, a, b => a.sle b

/-! ## One word -/

/-- Pop two integers, `a` below `b`, with the underflow and type checks of the
binary operations. -/
def KState.popInts (s : KState)
    (k : BitVec 64 → BitVec 64 → List (BitVec 64) → KState ⊕ KResult) : KState ⊕ KResult :=
  match s.cells with
  | mb :: b :: ma :: a :: rest =>
    if mengCellType mb ≠ tInt then s.done .errType
    else if mengCellType ma ≠ tInt then s.done .errType
    else k a b rest
  | _ => s.done .errRuntime

def KState.popInt (s : KState)
    (k : BitVec 64 → List (BitVec 64) → KState ⊕ KResult) : KState ⊕ KResult :=
  match s.cells with
  | mta :: v :: rest => if mengCellType mta ≠ tInt then s.done .errType else k v rest
  | _ => s.done .errRuntime

/-- Jump to `w->a0`, which must not be negative or past the end. -/
def KState.jump (s : KState) (nw : Nat) (a0 : BitVec 64) : KState ⊕ KResult :=
  if a0.slt 0 ∨ a0.toNat > nw then s.done .errRuntime
  else .inl { s with pc := a0.toNat }

/-- `CONCAT`, after the two strings are popped. -/
def KState.concat (E : KEnv) (s : KState) (pa la pb lb : Nat) (rest : List (BitVec 64)) :
    KState ⊕ KResult :=
  let total := (la + lb) % 2 ^ 32
  if total > scratchSize then s.done .banScratch
  else
    match E.copyIn la pa 0 s.m.scratch with
    | none => s.fault .wildRead
    | some scratch =>
      match E.copyIn lb pb la scratch with
      | none => s.fault .wildRead
      | some scratch' =>
        let s := { s with m := { s.m with scratch := scratch', scratchLen := total } }
        ({ s with cells := rest } : KState).push (BitVec.ofNat 64 E.scratchAddr)
          (strMeta total)

/-- The `switch` of `meng_kernel_run`, with `pc` already past the word. -/
def exec (E : KEnv) (nw : Nat) (w : Word) (s : KState) : KState ⊕ KResult :=
  match Op.ofCode? w.op with
  | none => s.done .banCore
  | some o =>
    match o with
    | .nop => .inl s
    | .pushi => s.push w.a0 tInt
    | .pushs =>
      if w.a0.slt 0 ∨ w.a1.slt 0 then s.done .errRuntime
      else if w.a0.toNat > poolSize ∨ w.a1.toNat > poolSize - w.a0.toNat then
        s.done .errRuntime
      else s.push (BitVec.ofNat 64 (E.poolAddr + w.a0.toNat)) (strMeta w.a1.toNat)
    | .dup2 =>
      match s.cells with
      | mta :: v :: _ => s.push v mta
      | _ => s.done .errRuntime
    | .swap2 =>
      match s.cells with
      | mb :: b :: ma :: a :: rest => s.next (ma :: a :: mb :: b :: rest)
      | _ => s.done .errRuntime
    | .drop2 =>
      match s.cells with
      | _ :: _ :: rest => s.next rest
      | _ => s.done .errRuntime
    | .iadd | .isub | .imul | .idiv | .imod =>
      s.popInts fun a b rest =>
        match arith o a b with
        | .divZero => s.done .errRuntime
        | .overflow => s.fault .divOverflow
        | .value v => ({ s with cells := rest } : KState).push v tInt
    | .ineg =>
      match s.cells with
      | mta :: v :: rest =>
        if mengCellType mta ≠ tInt then s.done .errType else s.next (mta :: -v :: rest)
      | _ => s.done .errRuntime
    | .cmpeq | .cmpne | .cmplt | .cmple =>
      s.popInts fun a b rest => s.next (tInt :: boolVal (compare o a b) :: rest)
    | .jnz =>
      s.popInt fun v rest =>
        let s := { s with cells := rest }
        if v ≠ 0 then s.jump nw w.a0 else .inl s
    | .jmp => s.jump nw w.a0
    | .gload =>
      if w.a0.slt 0 ∨ w.a0.toNat ≥ s.g.length then s.done .errRuntime
      else
        match s.g[w.a0.toNat]? with
        | none => s.fault .wildGlobal
        | some v => s.push v tInt
    | .gstore =>
      if w.a0.slt 0 ∨ w.a0.toNat ≥ s.g.length then s.done .errRuntime
      else
        s.popInt fun v rest =>
          if w.a0.toNat < s.g.length then
            .inl { s with g := s.g.set w.a0.toNat v, cells := rest }
          else s.fault .wildGlobal
    | .call =>
      if w.a0.slt 0 ∨ w.a0.toNat ≥ nw then s.done .errRuntime
      else if s.rstk.length ≥ stackCells / 2 then s.done .errStackOverflow
      else .inl { s with rstk := s.pc :: s.rstk, pc := w.a0.toNat }
    | .ret =>
      match s.rstk with
      | [] => s.done .errRuntime
      | pc :: rstk => .inl { s with rstk := rstk, pc := pc }
    | .concat =>
      match s.cells with
      | mb :: pb :: ma :: pa :: rest =>
        if mengCellType mb ≠ tStr then s.done .errType
        else if mengCellType ma ≠ tStr then s.done .errType
        else s.concat E pa.toNat (mengCellStrlen ma) pb.toNat (mengCellStrlen mb) rest
      | _ => s.done .errRuntime
    | .print =>
      match s.cells with
      | mta :: v :: rest =>
        if mengCellType mta = tInt then
          .inl { s with m := (mengMachineOutInt s.m v).2, cells := rest }
        else if mengCellType mta = tStr then
          match E.loadBytes s.m.scratch v.toNat (mengCellStrlen mta) with
          | none => s.fault .wildRead
          | some bs => .inl { s with m := (mengMachineOut s.m bs).2, cells := rest }
        else s.done .errRuntime
      | _ => s.done .errRuntime
    | .halt => s.done .ok

/-! ## The loop -/

/-- One turn of the loop of `meng_kernel_run`. -/
def kernelStep (E : KEnv) (words : List Word) (s : KState) : KState ⊕ KResult :=
  match words[s.pc]? with
  | none => s.done .ok
  | some w =>
    match mengMachineStep s.m with
    | (false, m) => ({ s with m := m } : KState).done .errTrap
    | (true, m) => exec E words.length w { s with m := m, pc := s.pc + 1 }

/-- The state `meng_kernel_run` enters its loop with. -/
def KState.init (m : Machine) (g : List (BitVec 64)) : KState := ⟨m, g, [], [], 0⟩

/-- `meng_kernel_run`, run for at most `fuel` turns of its loop.  The answer is
`none` while the loop is still running. -/
def mengKernelRun (E : KEnv) (fuel : Nat) (m : Machine) (words : List Word)
    (g : List (BitVec 64)) : Option KResult :=
  if words.length = 0 then some ⟨.status .errBadArg, m, g⟩
  else if g.length > kGlobals then some ⟨.status .errBadArg, m, g⟩
  else
    match runFor (kernelStep E words) fuel (KState.init m g) with
    | .inl _ => none
    | .inr r => some r

/-- `meng_kernel_run` returns `r`. -/
def KernelReturns (E : KEnv) (m : Machine) (words : List Word) (g : List (BitVec 64))
    (r : KResult) : Prop :=
  ∃ fuel, mengKernelRun E fuel m words g = some r

theorem kernelReturns_iff {E : KEnv} {m : Machine} {words : List Word} {g : List (BitVec 64)}
    {r : KResult} (hw : words ≠ []) (hg : g.length ≤ kGlobals) :
    KernelReturns E m words g r ↔ ∃ n, Halts (kernelStep E words) n (KState.init m g) r := by
  have hlen : ¬ words.length = 0 := by simpa using hw
  have hg' : ¬ g.length > kGlobals := by omega
  simp only [KernelReturns, mengKernelRun, if_neg hlen, if_neg hg']
  constructor
  · rintro ⟨fuel, h⟩
    split at h
    · cases h
    next r' hr =>
      cases h
      obtain ⟨k, _, hk⟩ := runFor_eq_inr.mp hr
      exact ⟨k, hk⟩
  · rintro ⟨n, hn⟩
    have hr := runFor_eq_inr.mpr ⟨n, Nat.lt_succ_self n, hn⟩
    exact ⟨n + 1, by rw [hr]⟩

/-! ## String literals

Literals of all front-ends are stored in one pool, `meng_pool`, of which the first
`meng_pool_len` bytes are in use.  A literal is decoded byte by byte on its way there.
-/

/-- `meng_pool` up to `meng_pool_len`. -/
structure StringPool where
  bytes : List UInt8
  fits : bytes.length ≤ poolSize

/-- The pool after `meng_pool_len = 0`. -/
def StringPool.empty : StringPool := ⟨[], Nat.zero_le _⟩

def StringPool.push (P : StringPool) (d : UInt8) : Option StringPool :=
  if h : P.bytes.length + 1 > poolSize then none
  else some ⟨P.bytes ++ [d], by rw [List.length_append]; exact Nat.not_lt.1 h⟩

/-- The `len` bytes from an offset of the pool on. -/
def StringPool.slice (P : StringPool) (off len : Nat) : List UInt8 := (P.bytes.drop off).take len

/-- The byte that a backslash and a character stand for. -/
def escaped (d : UInt8) : UInt8 :=
  if d = 110 then 10
  else if d = 116 then 9
  else if d = 92 then 92
  else if d = 34 then 34
  else d

variable {P P' : StringPool}

theorem push_bytes {d : UInt8} (h : P.push d = some P') : P'.bytes = P.bytes ++ [d] := by
  unfold StringPool.push at h
  split at h
  · cases h
  · cases Option.some.inj h
    rfl

theorem slice_of_append {bs : List UInt8} {off len : Nat}
    (h : P'.bytes = P.bytes ++ bs) (hle : off + len ≤ P.bytes.length) :
    P'.slice off len = P.slice off len := by
  rw [StringPool.slice, h, StringPool.slice, List.drop_append_of_le_length (by omega),
    List.take_append_of_le_length (by rw [List.length_drop]; omega)]

theorem slice_appended {bs : List UInt8} (h : P'.bytes = P.bytes ++ bs) :
    P'.slice P.bytes.length bs.length = bs := by
  rw [StringPool.slice, h, List.drop_left, List.take_length]

end Engines
