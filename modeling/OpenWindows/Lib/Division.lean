import Mathlib.Data.Nat.ModEq

/-!
# Division by tested bits

A number is reduced by a modulus `m` that lies just above `2 ^ k`.  For every `i`
from the top down, `m * 2 ^ i` is subtracted if bit `k + i` is set, in words of `w`
bits.  The bit does not tell whether the number is at least `m * 2 ^ i`: between
`2 ^ (k + i)` and `m * 2 ^ i` there is a gap, and a number that falls into it wraps
around.  The remainder comes out exactly when no gap is met, and after one wrap the
number stays close to `2 ^ w`.
-/

namespace Division

/-- The subtractions for all `i < n`. -/
def sweep (m k w : Nat) : Nat → Nat → Nat
  | 0, x => x
  | n + 1, x =>
    sweep m k w n (if x.testBit (k + n) then (x + (2 ^ w - m * 2 ^ n)) % 2 ^ w else x)

/-- No remainder lies in a gap. -/
def Clear (m k n x : Nat) : Prop := ∀ i < n, x % (m * 2 ^ i) < 2 ^ (k + i)

variable {m k w n x : Nat}

theorem testBit_top (h : x < 2 ^ (k + 1)) : x.testBit k = decide (2 ^ k ≤ x) := by
  have hpos := Nat.two_pow_pos k
  rw [Nat.testBit_eq_decide_div_mod_eq, decide_eq_decide]
  have hdiv : x / 2 ^ k < 2 := by
    rw [Nat.div_lt_iff_lt_mul hpos, Nat.mul_comm]
    rwa [Nat.pow_succ] at h
  have hle : 1 ≤ x / 2 ^ k ↔ 2 ^ k ≤ x := by
    rw [Nat.le_div_iff_mul_le hpos, Nat.one_mul]
  rw [← hle]
  generalize x / 2 ^ k = q at hdiv
  omega

/-- Subtracting a multiple does not change the smaller remainders. -/
theorem mod_of_add {y i n : Nat} (hi : i ≤ n) (h : x = y + m * 2 ^ n) :
    x % (m * 2 ^ i) = y % (m * 2 ^ i) := by
  obtain ⟨d, rfl⟩ := Nat.le.dest hi
  rw [h, Nat.pow_add, ← Nat.mul_assoc]
  exact Nat.add_mul_mod_self_left ..

theorem Clear.of_succ (h : Clear m k (n + 1) x) : Clear m k n x :=
  fun i hi => h i (Nat.lt_succ_of_lt hi)

theorem Clear.congr {y : Nat} (h : ∀ i < n, x % (m * 2 ^ i) = y % (m * 2 ^ i)) :
    Clear m k n x ↔ Clear m k n y := by
  constructor
  · intro hx i hi
    rw [← h i hi]
    exact hx i hi
  · intro hy i hi
    rw [h i hi]
    exact hy i hi

theorem sub_step {y : Nat} (hx : x < 2 ^ w) (hy : y ≤ x) : (x + (2 ^ w - y)) % 2 ^ w = x - y := by
  have heq : x + (2 ^ w - y) = (x - y) + 2 ^ w := by omega
  rw [heq, Nat.add_mod_right]
  exact Nat.mod_eq_of_lt (by omega)

/-- The remainder comes out when no gap is met. -/
theorem sweep_of_clear (hm : 2 ^ k ≤ m) (hw : k + n ≤ w) (hx : x < 2 ^ (k + n))
    (h : Clear m k n x) : sweep m k w n x = x % m := by
  induction n generalizing x with
  | zero => exact (Nat.mod_eq_of_lt (Nat.lt_of_lt_of_le hx hm)).symm
  | succ n ih =>
    have hxw : x < 2 ^ w := Nat.lt_of_lt_of_le hx (Nat.pow_le_pow_right (by decide) hw)
    rw [sweep, testBit_top (k := k + n) hx]
    by_cases hbit : 2 ^ (k + n) ≤ x
    · -- the remainder is below the bit, so the number is not
      have hge : m * 2 ^ n ≤ x := by
        by_contra hlt
        have hrem := h n (Nat.lt_succ_self n)
        rw [Nat.mod_eq_of_lt (Nat.not_le.mp hlt)] at hrem
        omega
      have hsub : x = x - m * 2 ^ n + m * 2 ^ n := by omega
      have hmod (i : Nat) (hi : i ≤ n) : x % (m * 2 ^ i) = (x - m * 2 ^ n) % (m * 2 ^ i) :=
        mod_of_add hi hsub
      have hsmall : x - m * 2 ^ n < 2 ^ (k + n) := by
        have hmn : 2 ^ k * 2 ^ n ≤ m * 2 ^ n := Nat.mul_le_mul_right _ hm
        rw [← Nat.pow_add] at hmn
        have hdouble : 2 ^ (k + (n + 1)) = 2 ^ (k + n) * 2 := Nat.pow_succ ..
        omega
      have hone := hmod 0 (Nat.zero_le n)
      rw [Nat.pow_zero, Nat.mul_one] at hone
      rw [if_pos (decide_eq_true hbit), sub_step hxw hge, hone]
      exact ih (by omega) hsmall ((Clear.congr fun i hi => hmod i (Nat.le_of_lt hi)).mp h.of_succ)
    · rw [if_neg (by simpa using hbit)]
      exact ih (by omega) (Nat.not_le.mp hbit) h.of_succ

/-- A number far above all that is subtracted does not wrap. -/
theorem sweep_high {b : Nat} (hb : b + m * 2 ^ n ≤ x) (hx : x < 2 ^ w) :
    b ≤ sweep m k w n x ∧ sweep m k w n x < 2 ^ w ∧ sweep m k w n x % m = x % m := by
  induction n generalizing x with
  | zero => exact ⟨Nat.le_of_add_right_le hb, hx, rfl⟩
  | succ n ih =>
    have hdouble : m * 2 ^ (n + 1) = m * 2 ^ n + m * 2 ^ n := by
      rw [Nat.pow_succ, ← Nat.mul_assoc, Nat.mul_two]
    rw [sweep]
    split
    · have hge : m * 2 ^ n ≤ x := by omega
      have hone := mod_of_add (x := x) (m := m) (Nat.zero_le n)
        (show x = x - m * 2 ^ n + m * 2 ^ n by omega)
      rw [Nat.pow_zero, Nat.mul_one] at hone
      rw [sub_step hx hge, hone]
      exact ih (by omega) (by omega)
    · exact ih (by omega) hx

theorem sweep_of_gap {b : Nat} (hm : 2 ^ k ≤ m) (hw : k + n ≤ w) (hx : x < 2 ^ (k + n))
    (hb : ∀ i < n, 2 ^ (k + i) ≤ x → b + (2 * m - 2 ^ k) * 2 ^ i ≤ 2 ^ w) (h : ¬ Clear m k n x) :
    b ≤ sweep m k w n x ∧ sweep m k w n x < 2 ^ w ∧ sweep m k w n x % m = (x + 2 ^ w) % m := by
  induction n generalizing x with
  | zero => exact absurd (fun i hi => absurd hi (Nat.not_lt_zero i)) h
  | succ n ih =>
    have hxw : x < 2 ^ w := Nat.lt_of_lt_of_le hx (Nat.pow_le_pow_right (by decide) hw)
    have hmn : 2 ^ (k + n) ≤ m * 2 ^ n := by
      rw [Nat.pow_add]
      exact Nat.mul_le_mul_right _ hm
    have hdouble : 2 ^ (k + (n + 1)) = 2 ^ (k + n) * 2 := Nat.pow_succ ..
    rw [sweep, testBit_top (k := k + n) hx]
    by_cases hbit : 2 ^ (k + n) ≤ x
    · rw [if_pos (decide_eq_true hbit)]
      by_cases hge : m * 2 ^ n ≤ x
      · -- a plain subtraction: the gap comes later
        have hsub : x = x - m * 2 ^ n + m * 2 ^ n := by omega
        have hmod (i : Nat) (hi : i ≤ n) : x % (m * 2 ^ i) = (x - m * 2 ^ n) % (m * 2 ^ i) :=
          mod_of_add hi hsub
        have hone := hmod 0 (Nat.zero_le n)
        rw [Nat.pow_zero, Nat.mul_one] at hone
        have hrest : ¬ Clear m k n (x - m * 2 ^ n) := by
          intro hclear
          refine h fun i hi => ?_
          rcases Nat.lt_succ_iff_lt_or_eq.mp hi with hlt | rfl
          · rw [hmod i (Nat.le_of_lt hlt)]
            exact hclear i hlt
          · rw [hmod i (Nat.le_refl i)]
            exact Nat.lt_of_le_of_lt (Nat.mod_le _ _) (by omega)
        rw [sub_step hxw hge, Nat.add_mod, hone, ← Nat.add_mod]
        exact ih (by omega) (by omega) (fun i hi hle => hb i (by omega) (by omega)) hrest
      · -- the number wraps around
        have hroom := hb n (Nat.lt_succ_self n) hbit
        rw [Nat.sub_mul, Nat.mul_assoc, ← Nat.pow_add] at hroom
        have hwrap : (x + (2 ^ w - m * 2 ^ n)) % 2 ^ w = x + (2 ^ w - m * 2 ^ n) :=
          Nat.mod_eq_of_lt (by omega)
        have hone := mod_of_add (x := x + 2 ^ w) (m := m) (Nat.zero_le n)
          (show x + 2 ^ w = x + (2 ^ w - m * 2 ^ n) + m * 2 ^ n by omega)
        rw [Nat.pow_zero, Nat.mul_one] at hone
        rw [hwrap, hone]
        exact sweep_high (by omega) (by omega)
    · rw [if_neg (by simpa using hbit)]
      have hrest : ¬ Clear m k n x := by
        intro hclear
        refine h fun i hi => ?_
        rcases Nat.lt_succ_iff_lt_or_eq.mp hi with hlt | rfl
        · exact hclear i hlt
        · exact Nat.lt_of_le_of_lt (Nat.mod_le _ _) (Nat.not_le.mp hbit)
      exact ih (by omega) (Nat.not_le.mp hbit) (fun i hi hle => hb i (by omega) hle) hrest

end Division
