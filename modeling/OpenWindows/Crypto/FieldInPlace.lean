import OpenWindows.Crypto.FieldArith

/-!
# The field operations through pointers

The operations of `owcrypt` write their result limb by limb where a pointer says, and the result may
be one of the operands.  Here the variables are numbered, and an operation is a sequence of writes
to them.  A limb is read before it is written in all of them, so the result does not depend on which
variables are the same.
-/

namespace Crypto

/-- The variables of the type `owc_fe_t`. -/
abbrev Vars := Nat → Fe

def Fe.limb (a : Fe) : Fin 5 → UInt64
  | 0 => a.v0
  | 1 => a.v1
  | 2 => a.v2
  | 3 => a.v3
  | 4 => a.v4

/-- One limb of an element is replaced. -/
def Fe.setLimb (a : Fe) (k : Fin 5) (x : UInt64) : Fe :=
  match k with
  | 0 => { a with v0 := x }
  | 1 => { a with v1 := x }
  | 2 => { a with v2 := x }
  | 3 => { a with v3 := x }
  | 4 => { a with v4 := x }

/-- An assignment to a variable. -/
def Vars.put (m : Vars) (o : Nat) (v : Fe) : Vars := Function.update m o v

/-- An assignment to a limb of a variable. -/
def Vars.write (m : Vars) (o : Nat) (k : Fin 5) (x : UInt64) : Vars := m.put o ((m o).setLimb k x)

/-! ## The operations -/

/-- `owc_fe_canon`, which has one operand. -/
def feCanonAt (m : Vars) (o : Nat) : Vars := m.put o (feCanon (m o))

/-- `owc_fe_add`. -/
def feAddAt (m : Vars) (o a b : Nat) : Vars :=
  let m := m.write o 0 ((m a).limb 0 + (m b).limb 0)
  let m := m.write o 1 ((m a).limb 1 + (m b).limb 1)
  let m := m.write o 2 ((m a).limb 2 + (m b).limb 2)
  let m := m.write o 3 ((m a).limb 3 + (m b).limb 3)
  let m := m.write o 4 ((m a).limb 4 + (m b).limb 4)
  feCanonAt m o

/-- `owc_fe_sub`.  The first difference is a local array. -/
def feSubAt (m : Vars) (o a b : Nat) : Vars :=
  let (r, br) := feSubLimbs (m a) (m b)
  if br ≠ 0 then
    let (w, nb) := feSubLimbs r (feSetSmall 19)
    let m := m.put o w
    feCanonAt (if nb ≠ 0 then m.put o (feAddP (m o)) else m) o
  else feCanonAt (m.put o r) o

/-- The loop of `owc_fe_neg`, with the limbs it subtracts from. -/
def feSubLimbsAt (m : Vars) (x : Fe) (o a : Nat) : Vars :=
  let (t, br) := feBorrow (x.limb 0) ((m a).limb 0) 0
  let m := m.write o 0 t
  let (t, br) := feBorrow (x.limb 1) ((m a).limb 1) br
  let m := m.write o 1 t
  let (t, br) := feBorrow (x.limb 2) ((m a).limb 2) br
  let m := m.write o 2 t
  let (t, br) := feBorrow (x.limb 3) ((m a).limb 3) br
  let m := m.write o 3 t
  let (t, _) := feBorrow (x.limb 4) ((m a).limb 4) br
  m.write o 4 t

/-- `owc_fe_neg`. -/
def feNegAt (m : Vars) (o a : Nat) : Vars :=
  if m a = feZero then m.put o feZero else feSubLimbsAt m feP o a

/-- `owc_fe_mul`.  Both operands are loaded before the first limb is written. -/
def feMulAt (m : Vars) (o a b : Nat) : Vars :=
  let t := (m a).sums (m b)
  let (x, c) := feMulLimb t.t0
  let m := m.write o 0 x
  let (x, c) := feMulLimb (t.t1 + c.toNat)
  let m := m.write o 1 x
  let (x, c) := feMulLimb (t.t2 + c.toNat)
  let m := m.write o 2 x
  let (x, c) := feMulLimb (t.t3 + c.toNat)
  let m := m.write o 3 x
  let (x, c) := feMulLimb (t.t4 + c.toNat)
  let m := m.write o 4 x
  let m := m.write o 0 ((m o).limb 0 + 19 * c)
  feCanonAt m o

/-- `owc_fe_sq`. -/
def feSqAt (m : Vars) (o a : Nat) : Vars := feMulAt m o a a

/-- `owc_fe_pow`.  The powers are local, and the last one is copied. -/
def fePowAt (m : Vars) (o a : Nat) (e : List UInt8) : Vars := m.put o (fePow (m a) e)

/-- `owc_fe_inv`. -/
def feInvAt (m : Vars) (o a : Nat) : Vars := fePowAt m o a (feExponent 0xEB 0x7F)

/-! ## Writes -/

section Writes

variable (m : Vars) (o a b : Nat)

@[simp] theorem put_self (v : Fe) : m.put o v o = v := Function.update_self ..

@[simp] theorem put_put (v w : Fe) : (m.put o v).put o w = m.put o w := Function.update_idem ..

theorem limb_write_of_ne {k j : Fin 5} (h : j ≠ k) (x : UInt64) :
    (m.write o k x a).limb j = (m a).limb j := by
  by_cases ha : a = o
  · subst ha
    rw [Vars.write, put_self]
    fin_cases k <;> fin_cases j <;> first | rfl | exact absurd rfl h
  · rw [Vars.write, Vars.put, Function.update_of_ne ha]

theorem put_write (v : Fe) (k : Fin 5) (x : UInt64) :
    (m.put o v).write o k x = m.put o (v.setLimb k x) := by
  rw [Vars.write, put_self, put_put]

theorem write_all (x0 x1 x2 x3 x4 : UInt64) :
    ((((m.write o 0 x0).write o 1 x1).write o 2 x2).write o 3 x3).write o 4 x4 =
      m.put o ⟨x0, x1, x2, x3, x4⟩ := by
  have hfirst : m.write o 0 x0 = m.put o ((m o).setLimb 0 x0) := rfl
  rw [hfirst, put_write, put_write, put_write, put_write]
  rfl

theorem feAddAt_eq : feAddAt m o a b = m.put o (feAdd (m a) (m b)) := by
  simp (disch := decide) only [feAddAt, limb_write_of_ne, write_all, feCanonAt, put_self, put_put]
  rfl

theorem feSubAt_eq : feSubAt m o a b = m.put o (feSub (m a) (m b)) := by
  simp only [feSubAt, feSub, feCanonAt]
  split
  · split
    · simp only [put_self, put_put]
    · simp only [put_self, put_put]
  · simp only [put_self, put_put]

theorem feSubLimbsAt_eq (x : Fe) : feSubLimbsAt m x o a = m.put o (feSubLimbs x (m a)).1 := by
  obtain ⟨⟨t0, b0⟩, h0⟩ : ∃ p, feBorrow (x.limb 0) ((m a).limb 0) 0 = p := ⟨_, rfl⟩
  obtain ⟨⟨t1, b1⟩, h1⟩ : ∃ p, feBorrow (x.limb 1) ((m a).limb 1) b0 = p := ⟨_, rfl⟩
  obtain ⟨⟨t2, b2⟩, h2⟩ : ∃ p, feBorrow (x.limb 2) ((m a).limb 2) b1 = p := ⟨_, rfl⟩
  obtain ⟨⟨t3, b3⟩, h3⟩ : ∃ p, feBorrow (x.limb 3) ((m a).limb 3) b2 = p := ⟨_, rfl⟩
  obtain ⟨⟨t4, b4⟩, h4⟩ : ∃ p, feBorrow (x.limb 4) ((m a).limb 4) b3 = p := ⟨_, rfl⟩
  have hlimbs : feSubLimbs x (m a) = (⟨t0, t1, t2, t3, t4⟩, b4) := by
    simp only [Fe.limb] at h0 h1 h2 h3 h4
    simp only [feSubLimbs, h0, h1, h2, h3, h4]
  simp (disch := decide) only [feSubLimbsAt, limb_write_of_ne, h0, h1, h2, h3, h4, write_all,
    hlimbs]

theorem feNegAt_eq : feNegAt m o a = m.put o (feNeg (m a)) := by
  rw [feNegAt, feNeg]
  split
  · rfl
  · exact feSubLimbsAt_eq m o a feP

theorem feMulAt_eq : feMulAt m o a b = m.put o (feMul (m a) (m b)) := by
  simp only [feMulAt, write_all, put_write, put_self, feCanonAt, put_put]
  rfl

end Writes

/-! ## The field -/

theorem feSq_spec {a : Fe} (ha : a.Below (2 ^ 51)) :
    feMulChecked a a = some (feSq a) ∧ (feSq a).Rep (a.val ^ 2) := by
  rw [Nat.pow_two]
  exact feMul_spec ha ha

theorem fePow_rep {a : Fe} (ha : a.Below (2 ^ 51)) (e : List UInt8) :
    fePowChecked a e = some (fePow a e) ∧ (fePow a e).Rep (a.val ^ Bytes.leNum e) := by
  obtain ⟨hchecked, hcanon, hval⟩ := fePow_spec ha e
  refine ⟨hchecked, hcanon.rep ?_⟩
  rw [hval, Nat.cast_pow]
  rfl

theorem feInv_spec {a : Fe} (ha : a.Below (2 ^ 51)) :
    fePowChecked a (feExponent 0xEB 0x7F) = some (feInv a) ∧
      (feInv a).Rep (a.val ^ (fieldPrime - 2)) := by
  rw [← leNum_feExponent_inv]
  exact fePow_rep ha _

/-- The operations compute in the field without an overflow, into whatever variable. -/
theorem field_arithmetic {a b : Fe} (ha : a.Below (2 ^ 51)) (hb : b.Below (2 ^ 51)) :
    (feAddChecked a b = some (feAdd a b) ∧ (feAdd a b).Rep (a.val + b.val)) ∧
      (feMulChecked a b = some (feMul a b) ∧ (feMul a b).Rep (a.val * b.val)) ∧
      (feMulChecked a a = some (feSq a) ∧ (feSq a).Rep (a.val ^ 2)) ∧
      (∀ e, fePowChecked a e = some (fePow a e) ∧ (fePow a e).Rep (a.val ^ Bytes.leNum e)) ∧
      (fePowChecked a (feExponent 0xEB 0x7F) = some (feInv a) ∧
        (feInv a).Rep (a.val ^ (fieldPrime - 2))) ∧
      (b.val < fieldPrime → feSubChecked a b = some (feSub a b) ∧
        (feSub a b).Rep (a.val + (fieldPrime - b.val))) ∧
      (a.val < fieldPrime → feNegChecked a = some (feNeg a) ∧
        (feNeg a).Rep (fieldPrime - a.val)) ∧
      ∀ (m : Vars) (o i j : Nat),
        feAddAt m o i j = m.put o (feAdd (m i) (m j)) ∧
          feSubAt m o i j = m.put o (feSub (m i) (m j)) ∧
          feNegAt m o i = m.put o (feNeg (m i)) ∧
          feMulAt m o i j = m.put o (feMul (m i) (m j)) ∧
          feSqAt m o i = m.put o (feSq (m i)) ∧
          (∀ e, fePowAt m o i e = m.put o (fePow (m i) e)) ∧
          feInvAt m o i = m.put o (feInv (m i)) := by
  refine ⟨feAdd_spec ha hb, feMul_spec ha hb, feSq_spec ha, fePow_rep ha, feInv_spec ha,
    feSub_spec ha hb, feNeg_spec ha, fun m o i j => ?_⟩
  exact ⟨feAddAt_eq m o i j, feSubAt_eq m o i j, feNegAt_eq m o i, feMulAt_eq m o i j,
    feMulAt_eq m o i i, fun _ => rfl, rfl⟩

/-- Limbs of ones, and the largest number below the prime. -/
theorem field_arithmetic_top :
    let a : Fe := ⟨m51, m51, m51, m51, m51⟩
    let b : Fe := ⟨m51 - 19, m51, m51, m51, m51⟩
    (feAdd a b).Rep (2 ^ 255 - 1 + (fieldPrime - 1)) ∧
      (feMul a b).Rep ((2 ^ 255 - 1) * (fieldPrime - 1)) ∧
      (feSub a b).Rep (2 ^ 255 - 1 + (fieldPrime - (fieldPrime - 1))) := by
  intro a b
  have ha : a.Below (2 ^ 51) := ⟨by decide, by decide, by decide, by decide, by decide⟩
  have hb : b.Below (2 ^ 51) := ⟨by decide, by decide, by decide, by decide, by decide⟩
  have haval : a.val = 2 ^ 255 - 1 := by decide
  have hbval : b.val = fieldPrime - 1 := by decide
  obtain ⟨⟨-, hadd⟩, ⟨-, hmul⟩, -, -, -, hsub, -⟩ := field_arithmetic ha hb
  rw [haval, hbval] at hadd hmul hsub
  exact ⟨hadd, hmul, (hsub (by decide)).2⟩

end Crypto
