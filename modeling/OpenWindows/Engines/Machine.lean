import Mathlib.Data.Nat.Digits.Defs
import Mathlib.Tactic.IntervalCases

/-!
# The execution machine of `engines.owd`

`meng_machine_t` is the scratch arena a caller hands to an engine: a bounded
output buffer, a step counter with its budget, and the buffers the kernel
uses.  This module models the machine with the helpers that act on it.

The step counter is a `uint32_t`.  The model keeps the number of calls of
`meng_machine_step` since the last reset, and the C value is that number
modulo `2 ^ 32`, which is what the comparison with the budget reads.

Signed 64-bit arithmetic is two's complement throughout, on `BitVec 64`.
-/

namespace Engines

/-- The status codes an engine can return. -/
inductive Status where
  | ok
  | banScratch
  | banCore
  | warnBudget
  | warnTrunc
  | errUninitialized
  | errBadArg
  | errShortOut
  | errDuplicate
  | errNotFound
  | errSyntax
  | errRuntime
  | errTrap
  | errStackOverflow
  | errDependency
  | errType
  | errState
  deriving DecidableEq, Repr

/-- `MENG_SCRATCH_SIZE`. -/
def scratchSize : Nat := 256

/-- `MENG_NUM_BUF_SIZE`. -/
def numBufSize : Nat := 32

/-- `MENG_MFLAG_TRUNC`. -/
def mflagTrunc : UInt32 := 2

/-- `meng_machine_t`, less the opaque host pointer. -/
structure Machine where
  /-- The caller's output buffer, `none` for a null pointer. -/
  out : Option (Nat → UInt8)
  outCap : UInt32
  outLen : UInt32
  outTotal : UInt64
  tick : UInt64
  stepBudget : UInt32
  /-- Calls of `meng_machine_step` since the reset.  The C field holds this
  number modulo `2 ^ 32`. -/
  steps : Nat
  flags : UInt32
  generation : UInt32
  scratch : Nat → UInt8
  scratchLen : Nat
  /-- The text `meng_itoa` left in the number buffer. -/
  num : List UInt8
  deriving Inhabited

/-- `meng_machine_reset`, under the current module generation. -/
def mengMachineReset (generation : UInt32) (m : Machine) : Machine :=
  { m with
    outLen := 0, outTotal := 0, tick := 0, steps := 0, flags := 0
    generation := generation, scratchLen := 0, num := [] }

/-- `meng_machine_step`: charge one step.  The answer is `false` once the
counter exceeds a budget that is not zero. -/
def mengMachineStep (m : Machine) : Bool × Machine :=
  let m := { m with steps := m.steps + 1 }
  if m.stepBudget ≠ 0 ∧ m.stepBudget.toNat < m.steps % 2 ^ 32 then (false, m) else (true, m)

/-! ## Output -/

def Machine.setTrunc (m : Machine) : Machine := { m with flags := m.flags ||| mflagTrunc }

/-- The output buffer after `take` bytes of `p` are copied to `at`. -/
def writeOut (buf : Nat → UInt8) (start take : Nat) (p : List UInt8) : Nat → UInt8 :=
  fun i => if start ≤ i ∧ i < start + take then p.getD (i - start) 0 else buf i

/-- `meng_machine_out`: append bytes to the caller's buffer as far as it has
room, and count the bytes that were attempted. -/
def mengMachineOut (m : Machine) (p : List UInt8) : Status × Machine :=
  let m := { m with outTotal := m.outTotal + UInt64.ofNat p.length }
  match m.out with
  | none => (.warnTrunc, m.setTrunc)
  | some buf =>
    if m.outCap = 0 ∨ m.outCap ≤ m.outLen then (.warnTrunc, m.setTrunc)
    else
      let room := (m.outCap - m.outLen).toNat
      let take := min p.length room
      let m' := { m with
        out := some (writeOut buf m.outLen.toNat take p)
        outLen := m.outLen + UInt32.ofNat take }
      if take < p.length then (.warnTrunc, m'.setTrunc) else (.ok, m')

/-- The machine after an output call, whatever its status. -/
def Machine.emit (m : Machine) (p : List UInt8) : Machine := (mengMachineOut m p).2

theorem Machine.emit_frame (m : Machine) (p : List UInt8) :
    (m.emit p).steps = m.steps ∧ (m.emit p).stepBudget = m.stepBudget ∧
      (m.emit p).scratch = m.scratch ∧ (m.emit p).scratchLen = m.scratchLen := by
  unfold Machine.emit mengMachineOut
  dsimp only
  cases m.out with
  | none => exact ⟨rfl, rfl, rfl, rfl⟩
  | some buf =>
    dsimp only
    split
    · exact ⟨rfl, rfl, rfl, rfl⟩
    · split <;> exact ⟨rfl, rfl, rfl, rfl⟩

@[simp] theorem Machine.emit_steps (m : Machine) (p : List UInt8) :
    (m.emit p).steps = m.steps := (m.emit_frame p).1

@[simp] theorem Machine.emit_stepBudget (m : Machine) (p : List UInt8) :
    (m.emit p).stepBudget = m.stepBudget := (m.emit_frame p).2.1

/-! ## Decimal text -/

/-- The digits `meng_itoa` leaves in its local buffer of `n` characters, least
significant first. -/
def itoaTmp : Nat → Nat → List UInt8
  | 0, _ => []
  | n + 1, u => if u = 0 then [] else UInt8.ofNat (48 + u % 10) :: itoaTmp n (u / 10)

/-- The unsigned magnitude `meng_itoa` renders. -/
def itoaMagnitude (v : BitVec 64) : BitVec 64 := if v.slt 0 then -(v + 1) + 1 else v

/-- `meng_itoa`: the characters written before the terminating NUL into a
buffer of `cap` bytes. -/
def mengItoa (v : BitVec 64) (cap : Nat) : List UInt8 :=
  if cap < 2 then []
  else
    let u := itoaMagnitude v
    let tmp := if u = 0 then [48] else itoaTmp 24 u.toNat
    ((if v.slt 0 then [45] else []) ++ tmp.reverse).take (cap - 1)

/-- `meng_machine_out_char`. -/
def mengMachineOutChar (m : Machine) (c : UInt8) : Status × Machine := mengMachineOut m [c]

/-- `meng_machine_out_int`. -/
def mengMachineOutInt (m : Machine) (v : BitVec 64) : Status × Machine :=
  let m := { m with num := mengItoa v numBufSize }
  mengMachineOut m m.num

theorem mengMachineOutInt_steps (m : Machine) (v : BitVec 64) :
    (mengMachineOutInt m v).2.steps = m.steps :=
  Machine.emit_steps { m with num := mengItoa v numBufSize } _

theorem mengMachineOutInt_stepBudget (m : Machine) (v : BitVec 64) :
    (mengMachineOutInt m v).2.stepBudget = m.stepBudget :=
  Machine.emit_stepBudget { m with num := mengItoa v numBufSize } _

/-- The decimal text of an integer. -/
def decimal (v : Int) : List UInt8 :=
  (if v < 0 then [45] else []) ++
    (if v = 0 then [48] else ((Nat.digits 10 v.natAbs).map (fun d => UInt8.ofNat (48 + d))).reverse)

theorem itoaTmp_eq_digits {n u : Nat} (h : u < 10 ^ n) :
    itoaTmp n u = (Nat.digits 10 u).map (fun d => UInt8.ofNat (48 + d)) := by
  induction n generalizing u with
  | zero =>
    have hu : u = 0 := by simpa using h
    subst hu
    rfl
  | succ n ih =>
    by_cases hu : u = 0
    · subst hu
      rfl
    · have hlt : u / 10 < 10 ^ n := by
        rw [Nat.div_lt_iff_lt_mul (by decide)]
        rwa [Nat.pow_succ] at h
      rw [Nat.digits_of_two_le_of_pos (by decide) (Nat.pos_of_ne_zero hu)]
      simp [itoaTmp, hu, ih hlt]

theorem length_digits_le {u n : Nat} (h : u < 10 ^ n) : (Nat.digits 10 u).length ≤ n := by
  induction n generalizing u with
  | zero =>
    have hu : u = 0 := by simpa using h
    simp [hu]
  | succ n ih =>
    by_cases hu : u = 0
    · simp [hu]
    · have hlt : u / 10 < 10 ^ n := by
        rw [Nat.div_lt_iff_lt_mul (by decide)]
        rwa [Nat.pow_succ] at h
      rw [Nat.digits_of_two_le_of_pos (by decide) (Nat.pos_of_ne_zero hu)]
      simpa using ih hlt

theorem itoaMagnitude_toNat (v : BitVec 64) : (itoaMagnitude v).toNat = v.toInt.natAbs := by
  have hsplit : v.slt 0 = decide (v.toInt < 0) := by simp [BitVec.slt_eq_decide]
  have hv := BitVec.toInt_eq_toNat_cond v
  have hlt := v.isLt
  rw [itoaMagnitude, hsplit]
  split
  next hneg =>
    have hneg : v.toInt < 0 := by simpa using hneg
    split at hv
    · omega
    · bv_omega
  next hpos =>
    have hpos : ¬ v.toInt < 0 := by simpa using hpos
    split at hv
    · omega
    · omega

theorem mengItoa_eq_decimal (v : BitVec 64) : mengItoa v numBufSize = decimal v.toInt := by
  have hmag := itoaMagnitude_toNat v
  have hneg : v.slt 0 = decide (v.toInt < 0) := by simp [BitVec.slt_eq_decide]
  have hbound : v.toInt.natAbs < 10 ^ 24 := by
    have := (itoaMagnitude v).isLt
    omega
  have hlen := length_digits_le hbound
  have hzero : itoaMagnitude v = 0 ↔ v.toInt = 0 := by
    rw [← Int.natAbs_eq_zero, ← hmag, ← BitVec.toNat_inj]
    rfl
  simp only [mengItoa, numBufSize, hneg, decide_eq_true_eq, decimal, hzero, hmag,
    itoaTmp_eq_digits hbound]
  rw [if_neg (by decide), List.take_of_length_le]
  · congr 1
    split <;> rfl
  · split <;> split <;> simp <;> omega

end Engines
