import OpenWindows.Crypto.Field25519
import OpenWindows.Crypto.Poly1305Lanes
import OpenWindows.Crypto.Scalar
import OpenWindows.Lib.Checked

/-!
# The field operations of `owcrypt` compute modulo `2 ^ 255 - 19`

Each operation is written a second time with arithmetic that notices an overflow, step by step as
the source has it.  For limbs of 51 bits both give the same limbs, and those are the canonical ones
of the sum, the difference, the product modulo the prime.
-/

namespace Crypto

open Checked

/-! ## The operations, with every step checked -/

/-- One turn of the carry loop of `owc_fe_canon`. -/
def feCarryChecked (o : Fe) : Option (Fe × UInt64) := do
  let v1 ← add o.v1 (o.v0 >>> 51)
  let v2 ← add o.v2 (v1 >>> 51)
  let v3 ← add o.v3 (v2 >>> 51)
  let v4 ← add o.v4 (v3 >>> 51)
  return (⟨o.v0 &&& m51, v1 &&& m51, v2 &&& m51, v3 &&& m51, v4 &&& m51⟩, v4 >>> 51)

/-- The carry loop of `owc_fe_canon`. -/
def feCarriesChecked : Nat → Fe → Option Fe
  | 0, o => some o
  | n + 1, o => do
      let (o, c) ← feCarryChecked o
      if c = 0 then return o
      else
        let v0 ← add o.v0 (← mul 19 c)
        feCarriesChecked n { o with v0 }

/-- One limb of a subtraction. -/
def feBorrowChecked (x y : UInt64) (borrow : Int64) : Option (UInt64 × Int64) := do
  let d ← subSigned (← signed x) (← signed y)
  let t ← subSigned d borrow
  if t < 0 then
    let w ← addSigned t ((1 : Int64) <<< 51)
    return (← unsigned w, 1)
  else return (← unsigned t, 0)

def feSubLimbsChecked (a b : Fe) : Option (Fe × Int64) := do
  let (r0, br) ← feBorrowChecked a.v0 b.v0 0
  let (r1, br) ← feBorrowChecked a.v1 b.v1 br
  let (r2, br) ← feBorrowChecked a.v2 b.v2 br
  let (r3, br) ← feBorrowChecked a.v3 b.v3 br
  let (r4, br) ← feBorrowChecked a.v4 b.v4 br
  return (⟨r0, r1, r2, r3, r4⟩, br)

/-- `owc_fe_canon`. -/
def feCanonChecked (o : Fe) : Option Fe := do
  let o ← feCarriesChecked 32 o
  let (r, b) ← feSubLimbsChecked o feP
  return if b = 0 then r else o

/-- `owc_fe_add`. -/
def feAddChecked (a b : Fe) : Option Fe := do
  let v0 ← add a.v0 b.v0
  let v1 ← add a.v1 b.v1
  let v2 ← add a.v2 b.v2
  let v3 ← add a.v3 b.v3
  let v4 ← add a.v4 b.v4
  feCanonChecked ⟨v0, v1, v2, v3, v4⟩

/-- The modulus added back, in the last branch of `owc_fe_sub`. -/
def feAddPChecked (o : Fe) : Option Fe := do
  let w0 ← add o.v0 (m51 - 18)
  let w1 ← add (← add o.v1 m51) (w0 >>> 51)
  let w2 ← add (← add o.v2 m51) (w1 >>> 51)
  let w3 ← add (← add o.v3 m51) (w2 >>> 51)
  let w4 ← add (← add o.v4 m51) (w3 >>> 51)
  let v0 ← add (w0 &&& m51) (← mul 19 (w4 >>> 51))
  return ⟨v0, w1 &&& m51, w2 &&& m51, w3 &&& m51, w4 &&& m51⟩

/-- `owc_fe_sub`. -/
def feSubChecked (a b : Fe) : Option Fe := do
  let (r, br) ← feSubLimbsChecked a b
  if br ≠ 0 then
    let (o, nb) ← feSubLimbsChecked r (feSetSmall 19)
    if nb ≠ 0 then feCanonChecked (← feAddPChecked o) else feCanonChecked o
  else feCanonChecked r

/-- `owc_fe_neg`. -/
def feNegChecked (a : Fe) : Option Fe :=
  if a = feZero then some feZero
  else do
    let (r, _) ← feSubLimbsChecked feP a
    return r

/-- One limb of the carry chain of `owc_fe_mul`. -/
def feMulLimbChecked (t : Wide) : Option (UInt64 × UInt64) := do
  return ((← t.low) &&& m51, ← t.high 51)

/-- `owc_fe_mul`. -/
def feMulChecked (a b : Fe) : Option Fe := do
  let a0 := Wide.ofWord a.v0
  let a1 := Wide.ofWord a.v1
  let a2 := Wide.ofWord a.v2
  let a3 := Wide.ofWord a.v3
  let a4 := Wide.ofWord a.v4
  let b0 := Wide.ofWord b.v0
  let b1 := Wide.ofWord b.v1
  let b2 := Wide.ofWord b.v2
  let b3 := Wide.ofWord b.v3
  let b4 := Wide.ofWord b.v4
  let t0 := a0 * b0 + 19 * (a1 * b4 + a2 * b3 + a3 * b2 + a4 * b1)
  let t1 := a0 * b1 + a1 * b0 + 19 * (a2 * b4 + a3 * b3 + a4 * b2)
  let t2 := a0 * b2 + a1 * b1 + a2 * b0 + 19 * (a3 * b4 + a4 * b3)
  let t3 := a0 * b3 + a1 * b2 + a2 * b1 + a3 * b0 + 19 * (a4 * b4)
  let t4 := a0 * b4 + a1 * b3 + a2 * b2 + a3 * b1 + a4 * b0
  let (v0, c) ← feMulLimbChecked t0
  let (v1, c) ← feMulLimbChecked (t1 + Wide.ofWord c)
  let (v2, c) ← feMulLimbChecked (t2 + Wide.ofWord c)
  let (v3, c) ← feMulLimbChecked (t3 + Wide.ofWord c)
  let (v4, c) ← feMulLimbChecked (t4 + Wide.ofWord c)
  let v0 ← add v0 (← mul 19 c)
  feCanonChecked ⟨v0, v1, v2, v3, v4⟩

/-- The loop of `owc_fe_pow`, for the bits below `n`. -/
def fePowLoopChecked (a : Fe) (e : List UInt8) : Nat → Fe → Option Fe
  | 0, r => some r
  | b + 1, r => do
      let r ← feMulChecked r r
      if (byteAt e (b / 8) >>> UInt8.ofNat (b % 8)) &&& 1 ≠ 0 then
        fePowLoopChecked a e b (← feMulChecked r a)
      else fePowLoopChecked a e b r

/-- `owc_fe_pow`. -/
def fePowChecked (a : Fe) (e : List UInt8) : Option Fe :=
  fePowLoopChecked a e (e.length * 8) (feSetSmall 1)

/-! ## Numbers of limbs -/

def fieldPrime : Nat := 2 ^ 255 - 19

/-- The number of five limbs. -/
def Fe.val (a : Fe) : Nat :=
  a.v0.toNat + 2 ^ 51 * a.v1.toNat + 2 ^ 102 * a.v2.toNat + 2 ^ 153 * a.v3.toNat +
    2 ^ 204 * a.v4.toNat

/-- Every limb is below a bound. -/
structure Fe.Below (n : Nat) (a : Fe) : Prop where
  v0 : a.v0.toNat < n
  v1 : a.v1.toNat < n
  v2 : a.v2.toNat < n
  v3 : a.v3.toNat < n
  v4 : a.v4.toNat < n

/-- The limbs are those of a number below the prime. -/
structure Fe.Canonical (a : Fe) : Prop where
  below : a.Below (2 ^ 51)
  lt : a.val < fieldPrime

/-- The canonical limbs of a number modulo the prime. -/
structure Fe.Rep (a : Fe) (x : Nat) : Prop where
  below : a.Below (2 ^ 51)
  eq : a.val = x % fieldPrime

/-- The element of the field that the limbs stand for. -/
def Fe.elt (a : Fe) : ZMod fieldPrime := a.val

@[simp] theorem toNat_and_m51 (x : UInt64) : (x &&& m51).toNat = x.toNat % 2 ^ 51 := by
  rw [UInt64.toNat_and]
  exact Nat.and_two_pow_sub_one_eq_mod x.toNat 51

@[simp] theorem toNat_shr51 (x : UInt64) : (x >>> 51).toNat = x.toNat / 2 ^ 51 := by
  rw [UInt64.toNat_shiftRight, Nat.shiftRight_eq_div_pow]
  rfl

/-! ## Carries -/

theorem add_shr51 {x : UInt64} (hx : x.toNat < 2 ^ 63) (y : UInt64) :
    add x (y >>> 51) = some (x + (y >>> 51)) ∧
      (x + (y >>> 51)).toNat = x.toNat + y.toNat / 2 ^ 51 := by
  have hy : y.toNat < 2 ^ 64 := y.toNat_lt
  have hfits : x.toNat + (y >>> 51).toNat < 2 ^ 64 := by
    rw [toNat_shr51]
    omega
  exact ⟨add_eq hfits, by rw [toNat_add hfits, toNat_shr51]⟩

variable {o : Fe} {a : Fe}

theorem feCarry_spec (h : o.Below (2 ^ 63)) :
    feCarryChecked o = some (feCarry o) ∧ (feCarry o).1.Below (2 ^ 51) ∧
      (feCarry o).1.val + 2 ^ 255 * (feCarry o).2.toNat = o.val := by
  obtain ⟨hfits1, h1⟩ := add_shr51 h.v1 o.v0
  obtain ⟨hfits2, h2⟩ := add_shr51 h.v2 (o.v1 + (o.v0 >>> 51))
  obtain ⟨hfits3, h3⟩ := add_shr51 h.v3 (o.v2 + ((o.v1 + (o.v0 >>> 51)) >>> 51))
  obtain ⟨hfits4, h4⟩ := add_shr51 h.v4
    (o.v3 + ((o.v2 + ((o.v1 + (o.v0 >>> 51)) >>> 51)) >>> 51))
  refine ⟨?_, ?_, ?_⟩
  · simp only [feCarryChecked, hfits1, hfits2, hfits3, hfits4, feCarry, Option.bind_eq_bind,
      Option.bind_some, Option.pure_def]
  · have hlow (x : UInt64) : (x &&& m51).toNat < 2 ^ 51 := by
      rw [toNat_and_m51]
      exact Nat.mod_lt _ (Nat.two_pow_pos 51)
    exact ⟨hlow _, hlow _, hlow _, hlow _, hlow _⟩
  · simp only [feCarry, Fe.val, toNat_and_m51, toNat_shr51, h4, h3, h2, h1]
    omega

theorem Fe.Below.mono {m n : Nat} (h : a.Below m) (hmn : m ≤ n) : a.Below n :=
  ⟨h.v0.trans_le hmn, h.v1.trans_le hmn, h.v2.trans_le hmn, h.v3.trans_le hmn, h.v4.trans_le hmn⟩

theorem Fe.Below.val_lt (h : a.Below (2 ^ 51)) : a.val < 2 ^ 255 := by
  obtain ⟨h0, h1, h2, h3, h4⟩ := h
  rw [Fe.val]
  omega

/-- The limbs after a turn, with the carry folded back. -/
def Fe.fold (o : Fe) : Fe := { (feCarry o).1 with v0 := (feCarry o).1.v0 + 19 * (feCarry o).2 }

/-- Limbs that the loop settles in `n` turns. -/
structure Settles (n : Nat) (o : Fe) : Prop where
  checked : feCarriesChecked n o = some (feCarries n o)
  below : (feCarries n o).Below (2 ^ 51)
  mod : (feCarries n o).val % fieldPrime = o.val % fieldPrime

theorem fold_spec (h : o.Below (2 ^ 60)) : mul 19 (feCarry o).2 = some (19 * (feCarry o).2) ∧
      add (feCarry o).1.v0 (19 * (feCarry o).2) = some o.fold.v0 ∧ o.fold.Below (2 ^ 60) ∧
      o.fold.val = (feCarry o).1.val + 19 * (feCarry o).2.toNat ∧
      (feCarry o).2.toNat < 2 ^ 10 := by
  obtain ⟨-, ⟨h0, h1, h2, h3, h4⟩, hval⟩ := feCarry_spec (h.mono (by decide))
  have hsmall : (feCarry o).2.toNat < 2 ^ 10 := by
    obtain ⟨g0, g1, g2, g3, g4⟩ := h
    rw [Fe.val, Fe.val] at hval
    omega
  have h19 : (19 : UInt64).toNat = 19 := rfl
  have hmul : (19 : UInt64).toNat * (feCarry o).2.toNat < 2 ^ 64 := by
    rw [h19]
    omega
  have hadd : (feCarry o).1.v0.toNat + (19 * (feCarry o).2).toNat < 2 ^ 64 := by
    rw [toNat_mul hmul, h19]
    omega
  have hfold : o.fold.v0.toNat = (feCarry o).1.v0.toNat + 19 * (feCarry o).2.toNat := by
    rw [Fe.fold, toNat_add hadd, toNat_mul hmul, h19]
  refine ⟨mul_eq hmul, add_eq hadd, ⟨?_, ?_, ?_, ?_, ?_⟩, ?_, hsmall⟩
  · rw [hfold]
    omega
  · exact h1.trans (by decide)
  · exact h2.trans (by decide)
  · exact h3.trans (by decide)
  · exact h4.trans (by decide)
  · rw [Fe.val, hfold, Fe.val]
    simp only [Fe.fold]
    omega

theorem two_pow_255 : 2 ^ 255 = fieldPrime + 19 := rfl

theorem fold_mod (h : o.Below (2 ^ 60)) : o.fold.val % fieldPrime = o.val % fieldPrime := by
  obtain ⟨-, -, hval⟩ := feCarry_spec (h.mono (by decide))
  obtain ⟨-, -, -, hfold, -⟩ := fold_spec h
  have hdrop : o.val = o.fold.val + fieldPrime * (feCarry o).2.toNat := by
    rw [← hval, hfold, two_pow_255, Nat.add_mul]
    omega
  rw [hdrop, Nat.add_mul_mod_self_left]

theorem settles_of_lt (n : Nat) (h : o.Below (2 ^ 60)) (hlt : o.val < 2 ^ 255) :
    Settles (n + 1) o := by
  obtain ⟨hturn, hbelow, hval⟩ := feCarry_spec (h.mono (by decide))
  have hzero : (feCarry o).2 = 0 := by
    rw [← UInt64.toNat_inj]
    change (feCarry o).2.toNat = 0
    omega
  have hlast : feCarries (n + 1) o = (feCarry o).1 := by
    rw [feCarries]
    exact if_pos hzero
  rw [hzero] at hval
  refine ⟨?_, by rwa [hlast], by rw [hlast, ← hval]; rfl⟩
  rw [feCarriesChecked, hturn, hlast]
  exact if_pos hzero

theorem settles_succ {n : Nat} (h : o.Below (2 ^ 60)) (hnext : Settles n o.fold) :
    Settles (n + 1) o := by
  obtain ⟨hturn, hbelow, hval⟩ := feCarry_spec (h.mono (by decide))
  obtain ⟨hmul, hadd, -, -, -⟩ := fold_spec h
  by_cases hzero : (feCarry o).2 = 0
  · exact settles_of_lt n h (by rw [← hval, hzero]; exact hbelow.val_lt)
  · have hmore : feCarries (n + 1) o = feCarries n o.fold := by
      rw [feCarries]
      exact if_neg hzero
    have hchecked : feCarriesChecked (n + 1) o = feCarriesChecked n o.fold := by
      simp only [feCarriesChecked, hturn, Option.bind_eq_bind, Option.bind_some, if_neg hzero, hmul,
        hadd]
      rfl
    obtain ⟨hsame, hlow, hmod⟩ := hnext
    refine ⟨?_, by rwa [hmore], ?_⟩
    · rw [hchecked, hmore, hsame]
    · rw [hmore, hmod, fold_mod h]

theorem settles_near (n : Nat) (h : o.Below (2 ^ 60)) (hlt : o.val < 2 ^ 255 + 2 ^ 15) :
    Settles (n + 2) o := by
  obtain ⟨-, hbelow, hval⟩ := feCarry_spec (h.mono (by decide))
  obtain ⟨-, -, hfold, hsum, -⟩ := fold_spec h
  have hlow := hbelow.val_lt
  exact settles_succ h (settles_of_lt n hfold (by omega))

theorem settles (n : Nat) (h : o.Below (2 ^ 60)) : Settles (n + 3) o := by
  obtain ⟨-, hbelow, -⟩ := feCarry_spec (h.mono (by decide))
  obtain ⟨-, -, hfold, hsum, hsmall⟩ := fold_spec h
  have hlow := hbelow.val_lt
  exact settles_succ h (settles_near n hfold (by omega))

/-! ## Borrows -/

def IsBorrow (b : Int64) : Prop := b = 0 ∨ b = 1

theorem IsBorrow.toInt {b : Int64} (h : IsBorrow b) : b.toInt = 0 ∨ b.toInt = 1 := by
  rcases h with rfl | rfl
  · exact Or.inl rfl
  · exact Or.inr rfl

theorem toInt_one_shl51 : ((1 : Int64) <<< 51).toInt = 2 ^ 51 := by decide

variable {t : Int64} {b : Fe} {x : Nat}

theorem unsigned_limb (hpos : 0 ≤ t.toInt) (b : Int64) :
    (do return (← unsigned t, b)) = some (t.toUInt64, b) ∧ (t.toUInt64.toNat : Int) = t.toInt := by
  refine ⟨?_, toNat_unsigned hpos⟩
  rw [unsigned_eq hpos]
  rfl

theorem addSigned_radix (hneg : t.toInt < 0) (hlow : -2 ^ 51 ≤ t.toInt) :
    ∃ w, t + ((1 : Int64) <<< 51) = w ∧ addSigned t ((1 : Int64) <<< 51) = some w ∧
      w.toInt = t.toInt + 2 ^ 51 := by
  have hlow' : -2 ^ 63 ≤ t.toInt + ((1 : Int64) <<< 51).toInt := by
    rw [toInt_one_shl51]
    omega
  have hhigh' : t.toInt + ((1 : Int64) <<< 51).toInt < 2 ^ 63 := by
    rw [toInt_one_shl51]
    omega
  exact ⟨_, rfl, addSigned_eq hlow' hhigh', by rw [toInt_add hlow' hhigh', toInt_one_shl51]⟩

theorem borrow_spec (hlow : -2 ^ 51 ≤ t.toInt) (hhigh : t.toInt < 2 ^ 51) : ∃ r b, (if t < 0 then do
          let w ← addSigned t ((1 : Int64) <<< 51)
          return (← unsigned w, 1)
        else do return (← unsigned t, 0)) = some (r, b) ∧
      (if t < 0 then ((t + ((1 : Int64) <<< 51)).toUInt64, 1) else (t.toUInt64, 0)) = (r, b) ∧
      IsBorrow b ∧ r.toNat < 2 ^ 51 ∧ (r.toNat : Int) = t.toInt + 2 ^ 51 * b.toInt := by
  have hsign : t < 0 ↔ t.toInt < 0 := Int64.lt_iff_toInt_lt
  by_cases hneg : t < 0
  · obtain ⟨w, hsum, hadd, hw⟩ := addSigned_radix (hsign.1 hneg) hlow
    have hneg' := hsign.1 hneg
    obtain ⟨hlimb, hr⟩ := unsigned_limb (show 0 ≤ w.toInt by omega) 1
    refine ⟨w.toUInt64, 1, ?_, ?_, Or.inr rfl, by omega, ?_⟩
    · rw [if_pos hneg, hadd, ← hlimb]
      rfl
    · rw [if_pos hneg, hsum]
    · rw [hr, hw, Int64.toInt_one]
      omega
  · have hpos : ¬ t.toInt < 0 := fun h => hneg (hsign.2 h)
    obtain ⟨hlimb, hr⟩ := unsigned_limb (show 0 ≤ t.toInt by omega) 0
    refine ⟨t.toUInt64, 0, ?_, ?_, Or.inl rfl, by omega, ?_⟩
    · rw [if_neg hneg, ← hlimb]
    · rw [if_neg hneg]
    · rw [hr, Int64.toInt_zero]
      omega

theorem feBorrow_spec {x y : UInt64} {b : Int64} (hx : x.toNat < 2 ^ 51) (hy : y.toNat < 2 ^ 51)
    (hb : IsBorrow b) :
    ∃ r b', feBorrowChecked x y b = some (r, b') ∧ feBorrow x y b = (r, b') ∧ IsBorrow b' ∧
      r.toNat < 2 ^ 51 ∧ (r.toNat : Int) + y.toNat + b.toInt = x.toNat + 2 ^ 51 * b'.toInt := by
  have hx' : x.toInt64.toInt = x.toNat := toInt_signed (by omega)
  have hy' : y.toInt64.toInt = y.toNat := toInt_signed (by omega)
  have hb' := hb.toInt
  have hlow : -2 ^ 63 ≤ x.toInt64.toInt - y.toInt64.toInt := by omega
  have hhigh : x.toInt64.toInt - y.toInt64.toInt < 2 ^ 63 := by omega
  have hd : (x.toInt64 - y.toInt64).toInt = x.toNat - y.toNat := by
    rw [toInt_sub hlow hhigh, hx', hy']
  have hlow' : -2 ^ 63 ≤ (x.toInt64 - y.toInt64).toInt - b.toInt := by omega
  have hhigh' : (x.toInt64 - y.toInt64).toInt - b.toInt < 2 ^ 63 := by omega
  have ht : (x.toInt64 - y.toInt64 - b).toInt = x.toNat - y.toNat - b.toInt := by
    rw [toInt_sub hlow' hhigh', hd]
  obtain ⟨r, b', hchecked, hplain, hborrow, hr, hval⟩ :=
    borrow_spec (t := x.toInt64 - y.toInt64 - b) (by omega) (by omega)
  refine ⟨r, b', ?_, hplain, hborrow, hr, by omega⟩
  rw [← hchecked]
  simp only [feBorrowChecked, signed_eq (show x.toNat < 2 ^ 63 by omega),
    signed_eq (show y.toNat < 2 ^ 63 by omega), subSigned_eq hlow hhigh,
    subSigned_eq hlow' hhigh', Option.bind_eq_bind, Option.bind_some]

theorem feSubLimbs_spec (ha : a.Below (2 ^ 51)) (hb : b.Below (2 ^ 51)) :
    ∃ r br, feSubLimbsChecked a b = some (r, br) ∧ feSubLimbs a b = (r, br) ∧ IsBorrow br ∧
      r.Below (2 ^ 51) ∧ (r.val : Int) + b.val = a.val + 2 ^ 255 * br.toInt := by
  obtain ⟨r0, b0, hc0, h0, hb0, hr0, e0⟩ := feBorrow_spec ha.v0 hb.v0 (Or.inl rfl)
  obtain ⟨r1, b1, hc1, h1, hb1, hr1, e1⟩ := feBorrow_spec ha.v1 hb.v1 hb0
  obtain ⟨r2, b2, hc2, h2, hb2, hr2, e2⟩ := feBorrow_spec ha.v2 hb.v2 hb1
  obtain ⟨r3, b3, hc3, h3, hb3, hr3, e3⟩ := feBorrow_spec ha.v3 hb.v3 hb2
  obtain ⟨r4, b4, hc4, h4, hb4, hr4, e4⟩ := feBorrow_spec ha.v4 hb.v4 hb3
  refine ⟨⟨r0, r1, r2, r3, r4⟩, b4, ?_, ?_, hb4, ⟨hr0, hr1, hr2, hr3, hr4⟩, ?_⟩
  · simp only [feSubLimbsChecked, hc0, hc1, hc2, hc3, hc4, Option.bind_eq_bind, Option.bind_some,
      Option.pure_def]
  · simp only [feSubLimbs, h0, h1, h2, h3, h4]
  · have hzero : (0 : Int64).toInt = 0 := rfl
    rw [hzero] at e0
    simp only [Fe.val]
    omega

/-! ## The operations -/

theorem below_feP : feP.Below (2 ^ 51) := ⟨by decide, by decide, by decide, by decide, by decide⟩

theorem val_feP : feP.val = fieldPrime := by decide

theorem IsBorrow.eq_zero_iff {b : Int64} (h : IsBorrow b) : b = 0 ↔ b.toInt = 0 := by
  rcases h with rfl | rfl
  · exact ⟨fun _ => rfl, fun _ => rfl⟩
  · exact ⟨fun h => absurd h (by decide), fun h => absurd h (by decide)⟩

theorem feCanon_spec (h : o.Below (2 ^ 60)) :
    feCanonChecked o = some (feCanon o) ∧ (feCanon o).Rep o.val := by
  obtain ⟨hchecked, hbelow, hmod⟩ : Settles 32 o := settles 29 h
  obtain ⟨r, b, hsub, hsub', hb, hr, hval⟩ := feSubLimbs_spec hbelow below_feP
  have hlow := hbelow.val_lt
  have hlow' := hr.val_lt
  have hcanon : feCanon o = if b = 0 then r else feCarries 32 o := by
    rw [feCanon, hsub']
  refine ⟨?_, ?_⟩
  · rw [hcanon]
    simp only [feCanonChecked, hchecked, hsub, Option.bind_eq_bind, Option.bind_some,
      Option.pure_def]
  rw [hcanon]
  rw [val_feP] at hval
  have hp : fieldPrime = 2 ^ 255 - 19 := rfl
  split
  next hzero =>
    rw [hb.eq_zero_iff] at hzero
    have hmore : (feCarries 32 o).val = r.val + fieldPrime := by omega
    have hlt : r.val < fieldPrime := by omega
    refine ⟨hr, ?_⟩
    rw [← hmod, hmore, Nat.add_mod_right, Nat.mod_eq_of_lt hlt]
  next hone =>
    rw [hb.eq_zero_iff] at hone
    have hb' := hb.toInt
    have hlt : (feCarries 32 o).val < fieldPrime := by omega
    exact ⟨hbelow, by rw [← hmod, Nat.mod_eq_of_lt hlt]⟩

theorem Fe.Rep.canonical (h : a.Rep x) : a.Canonical := by
  refine ⟨h.below, ?_⟩
  rw [h.eq]
  exact Nat.mod_lt _ (by decide)

theorem Fe.Rep.elt (h : a.Rep x) : a.elt = x := by
  rw [Fe.elt, h.eq, ZMod.natCast_mod]

theorem Fe.Canonical.rep (h : a.Canonical) (helt : a.elt = x) : a.Rep x := by
  refine ⟨h.below, ?_⟩
  rw [Fe.elt, ZMod.natCast_eq_natCast_iff', Nat.mod_eq_of_lt h.lt] at helt
  exact helt

theorem feAdd_spec (ha : a.Below (2 ^ 51)) (hb : b.Below (2 ^ 51)) :
    feAddChecked a b = some (feAdd a b) ∧ (feAdd a b).Rep (a.val + b.val) := by
  have hlimb {x y : UInt64} (hx : x.toNat < 2 ^ 51) (hy : y.toNat < 2 ^ 51) :
      add x y = some (x + y) ∧ (x + y).toNat = x.toNat + y.toNat ∧ x.toNat + y.toNat < 2 ^ 60 := by
    have hfits : x.toNat + y.toNat < 2 ^ 64 := by omega
    exact ⟨add_eq hfits, toNat_add hfits, by omega⟩
  obtain ⟨hc0, h0, hlt0⟩ := hlimb ha.v0 hb.v0
  obtain ⟨hc1, h1, hlt1⟩ := hlimb ha.v1 hb.v1
  obtain ⟨hc2, h2, hlt2⟩ := hlimb ha.v2 hb.v2
  obtain ⟨hc3, h3, hlt3⟩ := hlimb ha.v3 hb.v3
  obtain ⟨hc4, h4, hlt4⟩ := hlimb ha.v4 hb.v4
  rw [← h0] at hlt0
  rw [← h1] at hlt1
  rw [← h2] at hlt2
  rw [← h3] at hlt3
  rw [← h4] at hlt4
  obtain ⟨hchecked, hrep⟩ := feCanon_spec
    (o := ⟨a.v0 + b.v0, a.v1 + b.v1, a.v2 + b.v2, a.v3 + b.v3, a.v4 + b.v4⟩)
    ⟨hlt0, hlt1, hlt2, hlt3, hlt4⟩
  have hsum : Fe.val ⟨a.v0 + b.v0, a.v1 + b.v1, a.v2 + b.v2, a.v3 + b.v3, a.v4 + b.v4⟩ =
      a.val + b.val := by
    simp only [Fe.val, h0, h1, h2, h3, h4]
    omega
  rw [hsum] at hrep
  refine ⟨?_, hrep⟩
  rw [feAdd, ← hchecked]
  simp only [feAddChecked, hc0, hc1, hc2, hc3, hc4, Option.bind_eq_bind, Option.bind_some]

theorem below_nineteen : (feSetSmall 19).Below (2 ^ 51) :=
  ⟨by decide, by decide, by decide, by decide, by decide⟩

theorem val_nineteen : (feSetSmall 19).val = 19 := by decide

theorem feSub_spec (ha : a.Below (2 ^ 51)) (hb : b.Below (2 ^ 51)) (hlt : b.val < fieldPrime) :
    feSubChecked a b = some (feSub a b) ∧ (feSub a b).Rep (a.val + (fieldPrime - b.val)) := by
  obtain ⟨r, br, hsub, hsub', hbr, hr, hval⟩ := feSubLimbs_spec ha hb
  have hp : fieldPrime = 2 ^ 255 - 19 := rfl
  have hbr' := hbr.toInt
  by_cases hzero : br = 0
  · obtain ⟨hchecked, hrep⟩ := feCanon_spec (hr.mono (by decide))
    have hplain : feSub a b = feCanon r := by
      rw [feSub, hsub']
      exact if_neg (fun hne => hne hzero)
    have hzero' := hbr.eq_zero_iff.1 hzero
    have hdiff : a.val + (fieldPrime - b.val) = r.val + fieldPrime := by omega
    refine ⟨?_, ?_⟩
    · rw [hplain, ← hchecked]
      simp only [feSubChecked, hsub, hzero, Option.bind_eq_bind, Option.bind_some]
      rfl
    · rw [hplain, hdiff]
      exact ⟨hrep.below, by rw [hrep.eq, Nat.add_mod_right]⟩
  · obtain ⟨o, nb, hsub2, hsub2', hnb, ho, hval2⟩ := feSubLimbs_spec hr below_nineteen
    rw [val_nineteen] at hval2
    have hnb' := hnb.toInt
    have hone : br.toInt ≠ 0 := fun h => hzero (hbr.eq_zero_iff.2 h)
    have hlow := ho.val_lt
    have hlow' := hr.val_lt
    have hnone : nb = 0 := by
      rw [hnb.eq_zero_iff]
      omega
    have hnone' := hnb.eq_zero_iff.1 hnone
    obtain ⟨hchecked, hrep⟩ := feCanon_spec (ho.mono (by decide))
    have hplain : feSub a b = feCanon o := by
      rw [feSub, hsub']
      refine (if_pos hzero).trans ?_
      rw [hsub2', hnone]
      rfl
    have hdiff : a.val + (fieldPrime - b.val) = o.val := by omega
    refine ⟨?_, ?_⟩
    · rw [hplain, ← hchecked]
      simp only [feSubChecked, hsub, hsub2, Option.bind_eq_bind, Option.bind_some, hnone]
      exact if_pos hzero
    · rw [hplain, hdiff]
      exact hrep

theorem eq_feZero_of_val (h : a.val = 0) : a = feZero := by
  obtain ⟨v0, v1, v2, v3, v4⟩ := a
  simp only [Fe.val] at h
  have hlimb {v : UInt64} (hv : v.toNat = 0) : v = 0 := UInt64.toNat_inj.1 hv
  have h0 : v0 = 0 := hlimb (by omega)
  have h1 : v1 = 0 := hlimb (by omega)
  have h2 : v2 = 0 := hlimb (by omega)
  have h3 : v3 = 0 := hlimb (by omega)
  have h4 : v4 = 0 := hlimb (by omega)
  rw [h0, h1, h2, h3, h4]
  rfl

theorem feNeg_spec (ha : a.Below (2 ^ 51)) (hlt : a.val < fieldPrime) :
    feNegChecked a = some (feNeg a) ∧ (feNeg a).Rep (fieldPrime - a.val) := by
  rw [feNegChecked, feNeg]
  split
  next hzero =>
    subst hzero
    exact ⟨rfl, ⟨by decide, by decide, by decide, by decide, by decide⟩, by decide⟩
  next hne =>
    obtain ⟨r, br, hsub, hsub', hbr, hr, hval⟩ := feSubLimbs_spec below_feP ha
    rw [val_feP] at hval
    have hbr' := hbr.toInt
    have hlow := hr.val_lt
    have hp : fieldPrime = 2 ^ 255 - 19 := rfl
    have hpos : a.val ≠ 0 := fun h => hne (eq_feZero_of_val h)
    have hdiff : r.val = fieldPrime - a.val := by omega
    rw [hsub, hsub']
    exact ⟨rfl, hr, by rw [hdiff, Nat.mod_eq_of_lt (by omega)]⟩

/-! ## Products -/

theorem feMulLimb_spec {t : Wide} {bound : Nat} (h : t.Within x bound) (hbound : bound < 2 ^ 110) :
    ∃ v c, feMulLimbChecked t = some (v, c) ∧ feMulLimb x = (v, c) ∧ v.toNat = x % 2 ^ 51 ∧
      c.toNat = x / 2 ^ 51 ∧ c.toNat ≤ bound / 2 ^ 51 := by
  have hhigh := h.high (k := 51) (by omega)
  have hle := h.le
  have hcarry : (UInt64.ofNat (x >>> 51)).toNat = x / 2 ^ 51 := by
    rw [UInt64.toNat_ofNat', Nat.shiftRight_eq_div_pow]
    exact Nat.mod_eq_of_lt (by omega)
  refine ⟨_, _, ?_, rfl, ?_, hcarry, ?_⟩
  · simp only [feMulLimbChecked, h.low, hhigh, Option.bind_eq_bind, Option.bind_some,
      Option.pure_def]
  · rw [toNat_and_m51, UInt64.toNat_ofNat']
    exact Nat.mod_mod_of_dvd x (by decide)
  · rw [hcarry]
    exact Nat.div_le_div_right hle

theorem within_product {x y : UInt64} (hx : x.toNat < 2 ^ 51) (hy : y.toNat < 2 ^ 51) :
    (Wide.ofWord x * Wide.ofWord y).Within (x.toNat * y.toNat) (2 ^ 51 * 2 ^ 51) :=
  (Wide.within_ofWord hx.le (by decide)).mul (Wide.within_ofWord hy.le (by decide)) (by decide)

theorem within_nineteen : (19 : Wide).Within 19 19 := Wide.within_ofNat 19 (by decide)

/-- The five sums of a product, with what is above 255 bits folded back. -/
structure Sums where
  t0 : Nat
  t1 : Nat
  t2 : Nat
  t3 : Nat
  t4 : Nat

def Fe.sums (a b : Fe) : Sums where
  t0 := a.v0.toNat * b.v0.toNat + 19 * (a.v1.toNat * b.v4.toNat + a.v2.toNat * b.v3.toNat +
    a.v3.toNat * b.v2.toNat + a.v4.toNat * b.v1.toNat)
  t1 := a.v0.toNat * b.v1.toNat + a.v1.toNat * b.v0.toNat + 19 * (a.v2.toNat * b.v4.toNat +
    a.v3.toNat * b.v3.toNat + a.v4.toNat * b.v2.toNat)
  t2 := a.v0.toNat * b.v2.toNat + a.v1.toNat * b.v1.toNat + a.v2.toNat * b.v0.toNat +
    19 * (a.v3.toNat * b.v4.toNat + a.v4.toNat * b.v3.toNat)
  t3 := a.v0.toNat * b.v3.toNat + a.v1.toNat * b.v2.toNat + a.v2.toNat * b.v1.toNat +
    a.v3.toNat * b.v0.toNat + 19 * (a.v4.toNat * b.v4.toNat)
  t4 := a.v0.toNat * b.v4.toNat + a.v1.toNat * b.v3.toNat + a.v2.toNat * b.v2.toNat +
    a.v3.toNat * b.v1.toNat + a.v4.toNat * b.v0.toNat

/-- The number of five sums. -/
def Sums.val (t : Sums) : Nat :=
  t.t0 + 2 ^ 51 * t.t1 + 2 ^ 102 * t.t2 + 2 ^ 153 * t.t3 + 2 ^ 204 * t.t4

theorem sums_mod (a b : Fe) : (a.sums b).val % fieldPrime = a.val * b.val % fieldPrime := by
  have hfold : a.val * b.val = (a.sums b).val + fieldPrime *
      (a.v1.toNat * b.v4.toNat + a.v2.toNat * b.v3.toNat + a.v3.toNat * b.v2.toNat +
          a.v4.toNat * b.v1.toNat +
        2 ^ 51 * (a.v2.toNat * b.v4.toNat + a.v3.toNat * b.v3.toNat + a.v4.toNat * b.v2.toNat) +
        2 ^ 102 * (a.v3.toNat * b.v4.toNat + a.v4.toNat * b.v3.toNat) +
        2 ^ 153 * (a.v4.toNat * b.v4.toNat)) := by
    simp only [Fe.val, Sums.val, Fe.sums, fieldPrime]
    ring
  rw [hfold, Nat.add_mul_mod_self_left]

theorem feMul_spec (ha : a.Below (2 ^ 51)) (hb : b.Below (2 ^ 51)) :
    feMulChecked a b = some (feMul a b) ∧ (feMul a b).Rep (a.val * b.val) := by
  -- every sum has at most five products of 51 by 51 bits and nineteen times four of them
  have ht0 := (within_product ha.v0 hb.v0).add (within_nineteen.mul
    ((((within_product ha.v1 hb.v4).add (within_product ha.v2 hb.v3) (by decide)).add
      (within_product ha.v3 hb.v2) (by decide)).add (within_product ha.v4 hb.v1) (by decide))
    (by decide)) (by decide)
  have ht1 := ((within_product ha.v0 hb.v1).add (within_product ha.v1 hb.v0) (by decide)).add
    (within_nineteen.mul (((within_product ha.v2 hb.v4).add (within_product ha.v3 hb.v3)
      (by decide)).add (within_product ha.v4 hb.v2) (by decide)) (by decide)) (by decide)
  have ht2 := (((within_product ha.v0 hb.v2).add (within_product ha.v1 hb.v1) (by decide)).add
    (within_product ha.v2 hb.v0) (by decide)).add (within_nineteen.mul
      ((within_product ha.v3 hb.v4).add (within_product ha.v4 hb.v3) (by decide)) (by decide))
    (by decide)
  have ht3 := ((((within_product ha.v0 hb.v3).add (within_product ha.v1 hb.v2) (by decide)).add
    (within_product ha.v2 hb.v1) (by decide)).add (within_product ha.v3 hb.v0) (by decide)).add
    (within_nineteen.mul (within_product ha.v4 hb.v4) (by decide)) (by decide)
  have ht4 := ((((within_product ha.v0 hb.v4).add (within_product ha.v1 hb.v3) (by decide)).add
    (within_product ha.v2 hb.v2) (by decide)).add (within_product ha.v3 hb.v1) (by decide)).add
    (within_product ha.v4 hb.v0) (by decide)
  obtain ⟨v0, c0, hc0, h0, hv0, hw0, hle0⟩ := feMulLimb_spec ht0 (by decide)
  obtain ⟨v1, c1, hc1, h1, hv1, hw1, hle1⟩ := feMulLimb_spec
    (ht1.add (Wide.within_ofWord hle0 (by decide)) (by decide)) (by decide)
  obtain ⟨v2, c2, hc2, h2, hv2, hw2, hle2⟩ := feMulLimb_spec
    (ht2.add (Wide.within_ofWord hle1 (by decide)) (by decide)) (by decide)
  obtain ⟨v3, c3, hc3, h3, hv3, hw3, hle3⟩ := feMulLimb_spec
    (ht3.add (Wide.within_ofWord hle2 (by decide)) (by decide)) (by decide)
  obtain ⟨v4, c4, hc4, h4, hv4, hw4, hle4⟩ := feMulLimb_spec
    (ht4.add (Wide.within_ofWord hle3 (by decide)) (by decide)) (by decide)
  have hsmall : c4.toNat < 2 ^ 54 := hle4.trans_lt (by decide)
  have h19 : (19 : UInt64).toNat = 19 := rfl
  have hmul : (19 : UInt64).toNat * c4.toNat < 2 ^ 64 := by
    rw [h19]
    omega
  have hadd : v0.toNat + (19 * c4).toNat < 2 ^ 64 := by
    rw [toNat_mul hmul, h19]
    omega
  have hlast : (v0 + 19 * c4).toNat = v0.toNat + 19 * c4.toNat := by
    rw [toNat_add hadd, toNat_mul hmul, h19]
  have hlt0 : (v0 + 19 * c4).toNat < 2 ^ 60 := by omega
  have hlimb {v : UInt64} {x : Nat} (hv : v.toNat = x % 2 ^ 51) : v.toNat < 2 ^ 60 := by omega
  obtain ⟨hchecked, hrep⟩ := feCanon_spec (o := ⟨v0 + 19 * c4, v1, v2, v3, v4⟩)
    ⟨hlt0, hlimb hv1, hlimb hv2, hlimb hv3, hlimb hv4⟩
  have hplain : feMul a b = feCanon ⟨v0 + 19 * c4, v1, v2, v3, v4⟩ := by
    simp only [feMul, h0, h1, h2, h3, h4]
  refine ⟨?_, ?_⟩
  · rw [hplain, ← hchecked]
    simp only [feMulChecked, hc0, hc1, hc2, hc3, hc4, mul_eq hmul, add_eq hadd,
      Option.bind_eq_bind, Option.bind_some]
  · have hfold : (a.sums b).val =
        Fe.val ⟨v0 + 19 * c4, v1, v2, v3, v4⟩ + fieldPrime * c4.toNat := by
      have hp : 2 ^ 255 * c4.toNat = fieldPrime * c4.toNat + 19 * c4.toNat := by
        rw [two_pow_255, Nat.add_mul]
      simp only [Sums.val, Fe.sums, Fe.val, hlast]
      omega
    rw [hplain]
    refine ⟨hrep.below, ?_⟩
    rw [hrep.eq, ← sums_mod, hfold, Nat.add_mul_mod_self_left]

/-! ## Powers -/

theorem canonical_one : (feSetSmall 1).Canonical :=
  ⟨⟨by decide, by decide, by decide, by decide, by decide⟩, by decide⟩

theorem elt_one : (feSetSmall 1).elt = 1 := by
  have hval : (feSetSmall 1).val = 1 := by decide
  rw [Fe.elt, hval, Nat.cast_one]

theorem elt_feMul (ha : a.Below (2 ^ 51)) (hb : b.Below (2 ^ 51)) :
    (feMul a b).elt = a.elt * b.elt := by
  rw [(feMul_spec ha hb).2.elt, Nat.cast_mul]
  rfl

theorem canonical_feMul (ha : a.Below (2 ^ 51)) (hb : b.Below (2 ^ 51)) : (feMul a b).Canonical :=
  (feMul_spec ha hb).2.canonical

theorem maskedBit_eq (e : List UInt8) (b : Nat) :
    (byteAt e (b / 8) >>> UInt8.ofNat (b % 8)) &&& 1 =
      if (Bytes.leNum e).testBit b then 1 else 0 := by
  have hmask (x : UInt8) : x &&& 1 = 0 ∨ x &&& 1 = 1 := by
    have hmod : (x &&& 1).toNat = x.toNat % 2 := by
      rw [UInt8.toNat_and]
      exact Nat.and_one_is_mod _
    rcases Nat.mod_two_eq_zero_or_one x.toNat with h | h
    · exact Or.inl (UInt8.toNat_inj.1 (hmod.trans h))
    · exact Or.inr (UInt8.toNat_inj.1 (hmod.trans h))
  rw [← scGetbit_eq, scGetbit]
  rcases hmask (byteAt e (b / 8) >>> UInt8.ofNat (b % 8)) with h | h
  · rw [h]
    rfl
  · rw [h]
    rfl

theorem exponentBit_iff (e : List UInt8) (b : Nat) :
    (byteAt e (b / 8) >>> UInt8.ofNat (b % 8)) &&& 1 ≠ 0 ↔ (Bytes.leNum e).testBit b = true := by
  rw [maskedBit_eq]
  split
  next hone => exact ⟨fun _ => hone, fun _ => by decide⟩
  next hzero => exact ⟨fun h => absurd rfl h, fun h => absurd h hzero⟩

theorem fePowLoop_spec (ha : a.Below (2 ^ 51)) (e : List UInt8) (n : Nat) {r : Fe}
    (hr : r.Canonical) :
    fePowLoopChecked a e n r = some (fePowLoop a e n r) ∧ (fePowLoop a e n r).Canonical ∧
      (fePowLoop a e n r).elt = r.elt ^ 2 ^ n * a.elt ^ (Bytes.leNum e % 2 ^ n) := by
  induction n generalizing r with
  | zero =>
    refine ⟨rfl, hr, ?_⟩
    rw [fePowLoop, Nat.pow_zero, Nat.mod_one, pow_one, pow_zero, mul_one]
  | succ n ih =>
    have hsq : feMulChecked r r = some (feSq r) := (feMul_spec hr.below hr.below).1
    have hsq' : (feSq r).Canonical := canonical_feMul hr.below hr.below
    have helt : (feSq r).elt = r.elt * r.elt := elt_feMul hr.below hr.below
    have hbits : Bytes.leNum e % 2 ^ (n + 1) =
        2 ^ n * ((Bytes.leNum e).testBit n).toNat + Bytes.leNum e % 2 ^ n := by
      rw [Nat.pow_succ, Nat.mod_mul, Nat.toNat_testBit, Nat.add_comm]
    rw [fePowLoop, fePowLoopChecked, hsq]
    simp only [Option.bind_eq_bind, Option.bind_some]
    split
    next hbit =>
      have hmul : feMulChecked (feSq r) a = some (feMul (feSq r) a) :=
        (feMul_spec hsq'.below ha).1
      obtain ⟨hchecked, hcanon, hval⟩ := ih (canonical_feMul hsq'.below ha)
      have hone : (Bytes.leNum e).testBit n = true := (exponentBit_iff e n).1 hbit
      refine ⟨?_, hcanon, ?_⟩
      · rw [hmul, Option.bind_some, hchecked]
      · rw [hval, elt_feMul hsq'.below ha, helt, hbits, hone]
        simp only [Bool.toNat_true]
        ring
    next hbit =>
      obtain ⟨hchecked, hcanon, hval⟩ := ih hsq'
      have hzero : (Bytes.leNum e).testBit n = false := by
        rw [exponentBit_iff] at hbit
        exact Bool.eq_false_of_not_eq_true hbit
      refine ⟨hchecked, hcanon, ?_⟩
      rw [hval, helt, hbits, hzero]
      simp only [Bool.toNat_false]
      ring

theorem fePow_spec (ha : a.Below (2 ^ 51)) (e : List UInt8) :
    fePowChecked a e = some (fePow a e) ∧ (fePow a e).Canonical ∧
      (fePow a e).elt = a.elt ^ Bytes.leNum e := by
  obtain ⟨hchecked, hcanon, hval⟩ := fePowLoop_spec ha e (e.length * 8) canonical_one
  have hlt : Bytes.leNum e < 2 ^ (e.length * 8) := by
    have hlt := Bytes.leNum_lt e
    rwa [Nat.mul_comm, Nat.pow_mul]
  refine ⟨hchecked, hcanon, ?_⟩
  rw [fePow, hval, elt_one, one_pow, one_mul, Nat.mod_eq_of_lt hlt]

theorem leNum_feExponent_inv : Bytes.leNum (feExponent 0xEB 0x7F) = fieldPrime - 2 := by decide

/-! ## Field elements as bytes

Thirty-two bytes hold five limbs of 51 bits, and the highest bit is not read.  Canonical limbs are
written as the little-endian bytes of their number.
-/

section

open Bytes

theorem toNat_joined {x y s t : UInt64} {i j : Nat} (hs : s.toNat = i) (ht : t.toNat = j)
    (hi : i < 64) (hj : j < 64) (hx : x.toNat / 2 ^ i < 2 ^ j) :
    ((x >>> s) ||| (y <<< t)).toNat = x.toNat / 2 ^ i + y.toNat % 2 ^ (64 - j) * 2 ^ j := by
  have hpow : 2 ^ 64 = 2 ^ (64 - j) * 2 ^ j := by
    rw [← Nat.pow_add, Nat.sub_add_cancel hj.le]
  rw [UInt64.toNat_or, toNat_shiftRight_of_eq hs hi, toNat_shiftLeft_of_eq ht hj, hpow,
    Nat.mul_mod_mul_right, ← Nat.shiftLeft_eq, or_shiftLeft hx, Nat.shiftLeft_eq]

theorem leBytes_word (w : UInt64) {n r : Nat} :
    leBytes (8 + n) (w.toNat + 2 ^ 64 * r) = leBytes 8 w.toNat ++ leBytes n r := by
  have hw : w.toNat < 256 ^ 8 := w.toNat_lt
  have hhigh : (w.toNat + 256 ^ 8 * r) / 256 ^ 8 = r := by
    rw [Nat.add_mul_div_left _ _ (by decide), Nat.div_eq_of_lt hw, Nat.zero_add]
  have hlow : (w.toNat + 256 ^ 8 * r) % 256 ^ 8 = w.toNat := by
    rw [Nat.add_mul_mod_self_left, Nat.mod_eq_of_lt hw]
  change leBytes (8 + n) (w.toNat + 256 ^ 8 * r) = _
  rw [leBytes_add, hhigh, ← leBytes_mod 8, hlow]

theorem feFrombytes_spec {p : List UInt8} (hp : p.length = 32) :
    (feFrombytes p).Below (2 ^ 51) ∧ (feFrombytes p).val = leNum p % 2 ^ 255 := by
  have hlow (x : UInt64) : (x &&& m51).toNat < 2 ^ 51 := by
    rw [toNat_and_m51]
    exact Nat.mod_lt _ (Nat.two_pow_pos 51)
  refine ⟨⟨hlow _, hlow _, hlow _, hlow _, hlow _⟩, ?_⟩
  have hnum : leNum p = (get64le p).toNat + 2 ^ 64 * (get64le (p.drop 8)).toNat +
      2 ^ 128 * (get64le (p.drop 16)).toNat + 2 ^ 192 * (get64le (p.drop 24)).toNat := by
    have hall : p = p.take (8 + 8 + 8 + 8) := (List.take_of_length_le hp.le).symm
    conv_lhs => rw [hall]
    rw [leNum_take_add, leNum_take_add, leNum_take_add, get64le_toNat, get64le_toNat, get64le_toNat,
      get64le_toNat]
    rfl
  obtain ⟨m0, h0⟩ : ∃ m, get64le p = m := ⟨_, rfl⟩
  obtain ⟨m1, h1⟩ : ∃ m, get64le (p.drop 8) = m := ⟨_, rfl⟩
  obtain ⟨m2, h2⟩ : ∃ m, get64le (p.drop 16) = m := ⟨_, rfl⟩
  obtain ⟨m3, h3⟩ : ∃ m, get64le (p.drop 24) = m := ⟨_, rfl⟩
  rw [h0, h1, h2, h3] at hnum
  have hm0 := m0.toNat_lt
  have hm1 := m1.toNat_lt
  have hm2 := m2.toNat_lt
  have hm3 := m3.toNat_lt
  have hv1 : ((m0 >>> 51) ||| (m1 <<< 13)).toNat =
      m0.toNat / 2 ^ 51 + m1.toNat % 2 ^ 51 * 2 ^ 13 :=
    toNat_joined (i := 51) (j := 13) rfl rfl (by decide) (by decide) (by omega)
  have hv2 : ((m1 >>> 38) ||| (m2 <<< 26)).toNat =
      m1.toNat / 2 ^ 38 + m2.toNat % 2 ^ 38 * 2 ^ 26 :=
    toNat_joined (i := 38) (j := 26) rfl rfl (by decide) (by decide) (by omega)
  have hv3 : ((m2 >>> 25) ||| (m3 <<< 39)).toNat =
      m2.toNat / 2 ^ 25 + m3.toNat % 2 ^ 25 * 2 ^ 39 :=
    toNat_joined (i := 25) (j := 39) rfl rfl (by decide) (by decide) (by omega)
  have hv4 : (m3 >>> 12).toNat = m3.toNat / 2 ^ 12 := toNat_shiftRight_of_eq rfl (by decide)
  simp only [feFrombytes, h0, h1, h2, h3, Fe.val, toNat_and_m51, hv1, hv2, hv3, hv4, hnum]
  omega

theorem feTobytes_eq (ha : a.Below (2 ^ 51)) : feTobytes a = leBytes 32 a.val := by
  obtain ⟨h0, h1, h2, h3, h4⟩ := ha
  have hw0 : (a.v0 ||| (a.v1 <<< 51)).toNat = a.v0.toNat + a.v1.toNat % 2 ^ 13 * 2 ^ 51 := by
    have hjoined := toNat_joined (x := a.v0) (y := a.v1) (s := 0) (t := 51) (i := 0) (j := 51) rfl
      rfl (by decide) (by decide) (by rwa [Nat.pow_zero, Nat.div_one])
    rwa [UInt64.shiftRight_zero, Nat.pow_zero, Nat.div_one] at hjoined
  have hw1 : ((a.v1 >>> 13) ||| (a.v2 <<< 38)).toNat =
      a.v1.toNat / 2 ^ 13 + a.v2.toNat % 2 ^ 26 * 2 ^ 38 :=
    toNat_joined (i := 13) (j := 38) rfl rfl (by decide) (by decide) (by omega)
  have hw2 : ((a.v2 >>> 26) ||| (a.v3 <<< 25)).toNat =
      a.v2.toNat / 2 ^ 26 + a.v3.toNat % 2 ^ 39 * 2 ^ 25 :=
    toNat_joined (i := 26) (j := 25) rfl rfl (by decide) (by decide) (by omega)
  have hw3 : ((a.v3 >>> 39) ||| (a.v4 <<< 12)).toNat =
      a.v3.toNat / 2 ^ 39 + a.v4.toNat % 2 ^ 52 * 2 ^ 12 :=
    toNat_joined (i := 39) (j := 12) rfl rfl (by decide) (by decide) (by omega)
  have hval : a.val = (a.v0 ||| (a.v1 <<< 51)).toNat +
      2 ^ 64 * (((a.v1 >>> 13) ||| (a.v2 <<< 38)).toNat +
        2 ^ 64 * (((a.v2 >>> 26) ||| (a.v3 <<< 25)).toNat +
          2 ^ 64 * ((a.v3 >>> 39) ||| (a.v4 <<< 12)).toNat)) := by
    rw [hw0, hw1, hw2, hw3, Fe.val]
    omega
  rw [hval, leBytes_word (n := 24), leBytes_word (n := 16), leBytes_word (n := 8), feTobytes,
    put64le_eq, put64le_eq, put64le_eq, put64le_eq, List.append_assoc, List.append_assoc]

end

end Crypto
