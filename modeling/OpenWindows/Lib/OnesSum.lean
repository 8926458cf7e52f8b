import Mathlib.Tactic.Linarith
import OpenWindows.Lib.Bytes

/-!
# Sums of words with end-around carry

The checksum of the Internet protocols: the words of sixteen bits of a message
are added up, carries are added at the low end, and the complement is sent.  A
sum folds to all ones exactly if it is positive and divisible by 65535, so a
message with the complement of its sum added folds to all ones, and so does one
with all ones in the place of a complement of zero.
-/

namespace OnesSum

/-! ## The loops -/

/-- Add the words of a message, highest byte first.  A last odd byte is a high
one. -/
def sumWords : List UInt8 → UInt32 → UInt32
  | a :: b :: rest, sum => sumWords rest (sum + ((a.toUInt32 <<< 8) ||| b.toUInt32))
  | [a], sum => sum + (a.toUInt32 <<< 8)
  | [], sum => sum

/-- Fold the carries while there are any.  The count bounds the turns: the second
one leaves sixteen bits. -/
def foldCarries : Nat → UInt32 → UInt32
  | 0, sum => sum
  | n + 1, sum =>
    if sum >>> 16 ≠ 0 then foldCarries n ((sum &&& (0xFFFF : UInt32)) + (sum >>> 16)) else sum

def complement (sum : UInt32) : UInt16 := (~~~ (foldCarries 2 sum)).toUInt16

/-! ## Totals -/

/-- The sum of the words as a number. -/
def total : List UInt8 → Nat
  | a :: b :: rest => 256 * a.toNat + b.toNat + total rest
  | [a] => 256 * a.toNat
  | [] => 0

theorem total_append {front : List UInt8} (h : front.length % 2 = 0) (rest : List UInt8) :
    total (front ++ rest) = total front + total rest := by
  induction front using total.induct with
  | case1 a b front ih =>
    have heven : front.length % 2 = 0 := by
      simp only [List.length_cons] at h
      omega
    simp only [List.cons_append, total, ih heven]
    omega
  | case2 a => simp at h
  | case3 => simp [total]

theorem total_le (bytes : List UInt8) : total bytes ≤ 65535 * ((bytes.length + 1) / 2) := by
  induction bytes using total.induct with
  | case1 a b rest ih =>
    have ha := a.toNat_lt
    have hb := b.toNat_lt
    simp only [total, List.length_cons]
    omega
  | case2 a =>
    have ha := a.toNat_lt
    simp only [total, List.length_singleton]
    omega
  | case3 => simp [total]

@[simp] theorem total_put16 (v : UInt16) : total (Words.put16 v) = v.toNat := by
  have hlt := v.toNat_lt
  have hshift : (v >>> 8).toNat = v.toNat / 256 := by
    rw [UInt16.toNat_shiftRight]
    exact Nat.shiftRight_eq_div_pow v.toNat 8
  simp only [Words.put16, total, UInt16.toNat_toUInt8, hshift]
  omega

theorem total_field {front : List UInt8} (h : front.length % 2 = 0) (v : UInt16)
    (rest : List UInt8) :
    total (front ++ Words.put16 v ++ rest) = total (front ++ Words.put16 0 ++ rest) + v.toNat := by
  have hfield : ∀ w : UInt16, (Words.put16 w).length % 2 = 0 := fun w => by
    rw [Words.length_put16]
  simp only [List.append_assoc, total_append h, total_append (hfield _), total_put16]
  simp
  omega

theorem toNat_word (a b : UInt8) :
    ((a.toUInt32 <<< 8) ||| b.toUInt32).toNat = 256 * a.toNat + b.toNat := by
  have ha := a.toNat_lt
  have hb := b.toNat_lt
  rw [UInt32.toNat_or, UInt32.toNat_shiftLeft, UInt8.toNat_toUInt32, UInt8.toNat_toUInt32]
  show (a.toNat <<< 8) % 2 ^ 32 ||| b.toNat = _
  rw [Nat.shiftLeft_eq, Nat.mod_eq_of_lt (by omega), Nat.mul_comm,
    Nat.two_pow_add_eq_or_of_lt (i := 8) (by omega)]

theorem toNat_sumWords (bytes : List UInt8) (sum : UInt32)
    (h : sum.toNat + total bytes < 2 ^ 32) :
    (sumWords bytes sum).toNat = sum.toNat + total bytes := by
  induction bytes, sum using sumWords.induct with
  | case1 a b rest sum ih =>
    have hnext : (sum + ((a.toUInt32 <<< 8) ||| b.toUInt32)).toNat =
        sum.toNat + (256 * a.toNat + b.toNat) := by
      simp only [total] at h
      rw [UInt32.toNat_add, toNat_word, Nat.mod_eq_of_lt (by omega)]
    simp only [total] at h
    rw [sumWords, ih (by omega), hnext, total]
    omega
  | case2 a sum =>
    have hword := toNat_word a 0
    simp only [total] at h
    have hlow : ((a.toUInt32 <<< 8) ||| (0 : UInt8).toUInt32) = a.toUInt32 <<< 8 := UInt32.or_zero
    rw [hlow] at hword
    have hzero : (0 : UInt8).toNat = 0 := rfl
    rw [sumWords, UInt32.toNat_add, hword, hzero, total, Nat.mod_eq_of_lt (by omega), Nat.add_zero]
  | case3 sum => rfl

/-! ## Folding -/

theorem toNat_fold (sum : UInt32) :
    ((sum &&& (0xFFFF : UInt32)) + (sum >>> 16)).toNat = sum.toNat % 65536 + sum.toNat / 65536 := by
  have hlt := sum.toNat_lt
  have hand : (sum &&& (0xFFFF : UInt32)).toNat = sum.toNat % 65536 := by
    rw [UInt32.toNat_and]
    exact Nat.and_two_pow_sub_one_eq_mod sum.toNat 16
  have hshift : (sum >>> 16).toNat = sum.toNat / 65536 := by
    rw [UInt32.toNat_shiftRight]
    exact Nat.shiftRight_eq_div_pow sum.toNat 16
  rw [UInt32.toNat_add, hand, hshift, Nat.mod_eq_of_lt (by omega)]

theorem shift_eq_zero_iff (sum : UInt32) : sum >>> 16 = 0 ↔ sum.toNat < 65536 := by
  have hshift : (sum >>> 16).toNat = sum.toNat / 65536 := by
    rw [UInt32.toNat_shiftRight]
    exact Nat.shiftRight_eq_div_pow sum.toNat 16
  rw [← UInt32.toNat_inj, hshift]
  show sum.toNat / 65536 = 0 ↔ _
  omega

/-- What a sum folds to: the number between 1 and 65535 with its remainder, or
zero. -/
def folded (n : Nat) : Nat := if n = 0 then 0 else (n - 1) % 65535 + 1

theorem folded_of_lt {n : Nat} (h : n < 65536) : folded n = n := by
  unfold folded
  split <;> omega

theorem folded_fold (n : Nat) : folded (n % 65536 + n / 65536) = folded n := by
  unfold folded
  split <;> split <;> omega

theorem toNat_foldCarries (sum : UInt32) : (foldCarries 2 sum).toNat = folded sum.toNat := by
  have hlt := sum.toNat_lt
  rw [foldCarries]
  split
  · have hfirst := toNat_fold sum
    generalize (sum &&& (0xFFFF : UInt32)) + (sum >>> 16) = next at hfirst ⊢
    rw [← folded_fold, ← hfirst, foldCarries]
    split
    · rw [foldCarries, toNat_fold, ← folded_fold next.toNat, folded_of_lt (by omega)]
    next hsmall =>
      rw [folded_of_lt ((shift_eq_zero_iff next).mp (not_not.mp hsmall))]
  next hsmall =>
    rw [folded_of_lt ((shift_eq_zero_iff sum).mp (not_not.mp hsmall))]

theorem toNat_complement (sum : UInt32) : (complement sum).toNat = 65535 - folded sum.toNat := by
  have hfold := toNat_foldCarries sum
  have hle : folded sum.toNat ≤ 65535 := by
    unfold folded
    split <;> omega
  rw [complement, UInt32.toNat_toUInt16, UInt32.toNat_not, hfold]
  show (2 ^ 32 - 1 - folded sum.toNat) % 65536 = _
  omega

theorem complement_eq_zero_iff (sum : UInt32) :
    complement sum = 0 ↔ sum.toNat ≠ 0 ∧ sum.toNat % 65535 = 0 := by
  rw [← UInt16.toNat_inj, toNat_complement]
  show 65535 - folded sum.toNat = 0 ↔ _
  unfold folded
  split <;> omega

theorem add_complement (sum : UInt32) (h : sum.toNat ≠ 0) :
    (sum.toNat + (complement sum).toNat) % 65535 = 0 := by
  rw [toNat_complement]
  unfold folded
  rw [if_neg h]
  omega

theorem complement_sealed {front rest : List UInt8} {sum : UInt32} {csum : UInt16}
    (heven : front.length % 2 = 0)
    (hfit : sum.toNat + (total (front ++ Words.put16 0 ++ rest) + 65535) < 2 ^ 32)
    (hpos : sum.toNat + total (front ++ Words.put16 0 ++ rest) ≠ 0)
    (hcsum : csum.toNat % 65535 =
      (complement (sumWords (front ++ Words.put16 0 ++ rest) sum)).toNat % 65535) :
    complement (sumWords (front ++ Words.put16 csum ++ rest) sum) = 0 := by
  have hlt := csum.toNat_lt
  have hfield := total_field heven csum rest
  have hclear := toNat_sumWords (front ++ Words.put16 0 ++ rest) sum (by omega)
  have hfull := toNat_sumWords (front ++ Words.put16 csum ++ rest) sum (by omega)
  have hsent := add_complement (sumWords (front ++ Words.put16 0 ++ rest) sum) (by omega)
  rw [complement_eq_zero_iff]
  omega

end OnesSum
