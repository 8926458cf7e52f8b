import Mathlib.Algebra.Group.Int.Defs
import Mathlib.Algebra.Group.Nat.Defs
import Mathlib.Logic.Basic

/-!
# Arithmetic that notices an overflow

The sums and products of a program in words of 64 and of 128 bits, with nothing as the result where
the exact number does not fit.  A computation written with them has a result exactly when no step of
it overflows.  An expression of the wide type is bounded by the bounds of its parts, so a bound for
it is computed once, at the largest values.
-/

namespace Checked

/-! ## Words of 64 bits -/

/-- A sum of words. -/
def add (x y : UInt64) : Option UInt64 := if x.toNat + y.toNat < 2 ^ 64 then some (x + y) else none

/-- A product of words. -/
def mul (x y : UInt64) : Option UInt64 := if x.toNat * y.toNat < 2 ^ 64 then some (x * y) else none

/-- A word as a signed word. -/
def signed (x : UInt64) : Option Int64 := if x.toNat < 2 ^ 63 then some x.toInt64 else none

/-- A signed word as a word. -/
def unsigned (x : Int64) : Option UInt64 := if 0 ≤ x.toInt then some x.toUInt64 else none

/-- A sum of signed words. -/
def addSigned (x y : Int64) : Option Int64 :=
  if -2 ^ 63 ≤ x.toInt + y.toInt ∧ x.toInt + y.toInt < 2 ^ 63 then some (x + y) else none

/-- A difference of signed words. -/
def subSigned (x y : Int64) : Option Int64 :=
  if -2 ^ 63 ≤ x.toInt - y.toInt ∧ x.toInt - y.toInt < 2 ^ 63 then some (x - y) else none

section Words

variable {x y : UInt64}

theorem add_eq (h : x.toNat + y.toNat < 2 ^ 64) : add x y = some (x + y) := if_pos h

theorem mul_eq (h : x.toNat * y.toNat < 2 ^ 64) : mul x y = some (x * y) := if_pos h

theorem toNat_add (h : x.toNat + y.toNat < 2 ^ 64) : (x + y).toNat = x.toNat + y.toNat := by
  rw [UInt64.toNat_add, Nat.mod_eq_of_lt h]

theorem toNat_mul (h : x.toNat * y.toNat < 2 ^ 64) : (x * y).toNat = x.toNat * y.toNat := by
  rw [UInt64.toNat_mul, Nat.mod_eq_of_lt h]

theorem signed_eq (h : x.toNat < 2 ^ 63) : signed x = some x.toInt64 := if_pos h

theorem toInt_signed (h : x.toNat < 2 ^ 63) : x.toInt64.toInt = x.toNat := by
  have hlow : x.toInt64.toBitVec.toNat = x.toNat := rfl
  exact (BitVec.toInt_eq_toNat_of_lt (by rw [hlow]; omega)).trans (congrArg _ hlow)

end Words

section Signed

variable {x y : Int64}

theorem addSigned_eq (hlow : -2 ^ 63 ≤ x.toInt + y.toInt) (hhigh : x.toInt + y.toInt < 2 ^ 63) :
    addSigned x y = some (x + y) := if_pos ⟨hlow, hhigh⟩

theorem subSigned_eq (hlow : -2 ^ 63 ≤ x.toInt - y.toInt) (hhigh : x.toInt - y.toInt < 2 ^ 63) :
    subSigned x y = some (x - y) := if_pos ⟨hlow, hhigh⟩

theorem toInt_add (hlow : -2 ^ 63 ≤ x.toInt + y.toInt) (hhigh : x.toInt + y.toInt < 2 ^ 63) :
    (x + y).toInt = x.toInt + y.toInt := by
  rw [Int64.toInt_add]
  exact Int.bmod_eq_of_le hlow hhigh

theorem toInt_sub (hlow : -2 ^ 63 ≤ x.toInt - y.toInt) (hhigh : x.toInt - y.toInt < 2 ^ 63) :
    (x - y).toInt = x.toInt - y.toInt := by
  rw [Int64.toInt_sub]
  exact Int.bmod_eq_of_le hlow hhigh

theorem unsigned_eq (h : 0 ≤ x.toInt) : unsigned x = some x.toUInt64 := if_pos h

theorem toNat_unsigned (h : 0 ≤ x.toInt) : (x.toUInt64.toNat : Int) = x.toInt := by
  have hle : 0 ≤ x := Int64.le_iff_toInt_le.2 h
  rw [Int64.toNat_toUInt64_of_le hle]
  exact Int.toNat_of_nonneg h

end Signed

/-! ## Sums and products of 128 bits -/

/-- A number of the signed type of 128 bits that is not negative, or an overflow. -/
structure Wide where
  value : Option Nat

namespace Wide

/-- A number that fits. -/
def exact (n : Nat) : Wide := ⟨if n < 2 ^ 127 then some n else none⟩

/-- Two numbers under an operation. -/
def lift (f : Nat → Nat → Nat) (s t : Wide) : Wide :=
  match s.value, t.value with
  | some x, some y => exact (f x y)
  | _, _ => ⟨none⟩

instance : Add Wide := ⟨lift (· + ·)⟩

instance : Mul Wide := ⟨lift (· * ·)⟩

instance (n : Nat) : OfNat Wide n := ⟨exact n⟩

/-- A word among the wide numbers. -/
def ofWord (x : UInt64) : Wide := exact x.toNat

/-- The lowest 64 bits. -/
def low (t : Wide) : Option UInt64 := t.value.map UInt64.ofNat

/-- What stands above the lowest `k` bits, as a word. -/
def high (k : Nat) (t : Wide) : Option UInt64 :=
  t.value.bind fun x => if x >>> k < 2 ^ 64 then some (UInt64.ofNat (x >>> k)) else none

/-- The expression has the value, which is at most the bound. -/
structure Within (s : Wide) (x bound : Nat) : Prop where
  eq : s.value = some x
  le : x ≤ bound

theorem within_exact {x bound : Nat} (hle : x ≤ bound) (hbound : bound < 2 ^ 127) :
    (exact x).Within x bound :=
  ⟨if_pos (Nat.lt_of_le_of_lt hle hbound), hle⟩

theorem within_ofNat (n : Nat) (h : n < 2 ^ 127) : (OfNat.ofNat n : Wide).Within n n :=
  within_exact (Nat.le_refl n) h

theorem within_ofWord {x : UInt64} {bound : Nat} (hle : x.toNat ≤ bound)
    (hbound : bound < 2 ^ 127) :
    (ofWord x).Within x.toNat bound :=
  within_exact hle hbound

theorem Within.add {s t : Wide} {x y m n : Nat} (hs : s.Within x m) (ht : t.Within y n)
    (hmn : m + n < 2 ^ 127) : (s + t).Within (x + y) (m + n) := by
  have hsum : s + t = exact (x + y) := by
    change lift (· + ·) s t = _
    rw [lift, hs.eq, ht.eq]
  rw [hsum]
  exact within_exact (Nat.add_le_add hs.le ht.le) hmn

theorem Within.mul {s t : Wide} {x y m n : Nat} (hs : s.Within x m) (ht : t.Within y n)
    (hmn : m * n < 2 ^ 127) : (s * t).Within (x * y) (m * n) := by
  have hprod : s * t = exact (x * y) := by
    change lift (· * ·) s t = _
    rw [lift, hs.eq, ht.eq]
  rw [hprod]
  exact within_exact (Nat.mul_le_mul hs.le ht.le) hmn

theorem Within.low {s : Wide} {x bound : Nat} (hs : s.Within x bound) :
    s.low = some (UInt64.ofNat x) := by
  rw [Wide.low, hs.eq, Option.map_some]

theorem Within.high {s : Wide} {x bound k : Nat} (hs : s.Within x bound)
    (hbound : bound / 2 ^ k < 2 ^ 64) : s.high k = some (UInt64.ofNat (x >>> k)) := by
  have hfits : x >>> k < 2 ^ 64 := by
    rw [Nat.shiftRight_eq_div_pow]
    exact Nat.lt_of_le_of_lt (Nat.div_le_div_right hs.le) hbound
  rw [Wide.high, hs.eq, Option.bind_some, if_pos hfits]

end Wide

end Checked
