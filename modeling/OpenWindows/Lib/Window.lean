import Mathlib.Data.List.Basic

/-!
# Sliding windows

A receiver that remembers which numbers it has seen keeps the highest one and a
row of bits, one for each number just below it.  `Tracks size hi bit seen` says
that nothing above `hi` was seen and that bit `d` of the row tells about the
number `hi - d`.  The row is exact after an advance of any length and after a
mark below the highest number.
-/

namespace Window

/-- The highest number and the row of bits below it stand for the numbers seen. -/
structure Tracks (size hi : Nat) (bit : Nat → Bool) (seen : Nat → Prop) : Prop where
  le : ∀ n, seen n → n ≤ hi
  bit : ∀ d, d < size → d ≤ hi → (bit d = true ↔ seen (hi - d))

variable {size hi : Nat} {bit bit' : Nat → Bool} {seen : Nat → Prop}

/-- Nothing was seen. -/
theorem Tracks.empty (size hi : Nat) : Tracks size hi (fun _ => false) (fun _ => False) where
  le := fun _ h => h.elim
  bit := fun _ _ _ => ⟨fun h => (Bool.false_ne_true h).elim, fun h => h.elim⟩

theorem Tracks.bit_iff (h : Tracks size hi bit seen) {n : Nat} (hle : n ≤ hi)
    (hwin : hi - n < size) : bit (hi - n) = true ↔ seen n := by
  have hbit := h.bit (hi - n) hwin (Nat.sub_le hi n)
  rwa [Nat.sub_sub_self hle] at hbit

theorem Tracks.advance (h : Tracks size hi bit seen) {k : Nat} (hk : 0 < k)
    (hbit : ∀ d < size, bit' d = (decide (d = 0) || (decide (k ≤ d) && bit (d - k)))) :
    Tracks size (hi + k) bit' (fun n => seen n ∨ n = hi + k) where
  le := by
    rintro n (hn | rfl)
    · exact Nat.le_add_right_of_le (h.le n hn)
    · exact Nat.le_refl _
  bit := by
    intro d hd hle
    rw [hbit d hd]
    by_cases hzero : d = 0
    · simp [hzero]
    · by_cases hold : k ≤ d
      · have hback : hi + k - d = hi - (d - k) := by omega
        have hne : hi - (d - k) ≠ hi + k := by omega
        rw [hback]
        simpa [hzero, hold, hne] using h.bit (d - k) (by omega) (by omega)
      · -- the numbers jumped over
        have hnot : ¬ seen (hi + k - d) := fun hs => by
          have hle := h.le _ hs
          omega
        have hne : hi + k - d ≠ hi + k := by omega
        simp [hzero, hold, hnot, hne]

theorem Tracks.mark (h : Tracks size hi bit seen) {m : Nat} (hle : m ≤ hi)
    (hbit : ∀ d < size, bit' d = (bit d || decide (d = hi - m))) :
    Tracks size hi bit' (fun n => seen n ∨ n = m) where
  le := by
    rintro n (hn | rfl)
    · exact h.le n hn
    · exact hle
  bit := by
    intro d hd hdle
    have heq : d = hi - m ↔ hi - d = m := by omega
    rw [hbit d hd, Bool.or_eq_true, h.bit d hd hdle, decide_eq_true_iff, heq]

/-! ## Rows of 64 bits -/

theorem testBit_shiftLeft (a k : UInt64) (hk : k.toNat < 64) {d : Nat} (hd : d < 64) :
    (a <<< k).toNat.testBit d = (decide (k.toNat ≤ d) && a.toNat.testBit (d - k.toNat)) := by
  have hmod : (a <<< k).toNat = (a.toNat <<< k.toNat) % 2 ^ 64 := by
    rw [UInt64.toNat_shiftLeft, Nat.mod_eq_of_lt hk]
  rw [hmod, Nat.testBit_mod_two_pow, Nat.testBit_shiftLeft]
  simp [hd]

theorem testBit_one (d : Nat) : Nat.testBit 1 d = decide (d = 0) := by
  rw [Bool.eq_iff_iff, Nat.testBit_one_eq_true_iff_self_eq_zero, decide_eq_true_iff]

theorem testBit_one_shiftLeft (k : UInt64) (hk : k.toNat < 64) {d : Nat} (hd : d < 64) :
    ((1 : UInt64) <<< k).toNat.testBit d = decide (d = k.toNat) := by
  have hone : (1 : UInt64).toNat = 1 := rfl
  rw [testBit_shiftLeft 1 k hk hd, hone, testBit_one, ← Bool.decide_and, decide_eq_decide]
  omega

theorem and_one_shiftLeft (a k : UInt64) (hk : k.toNat < 64) :
    a &&& ((1 : UInt64) <<< k) = 0 ↔ a.toNat.testBit k.toNat = false := by
  rw [← UInt64.toNat_inj, UInt64.toNat_and]
  constructor
  · intro h
    have hbit : (a.toNat &&& ((1 : UInt64) <<< k).toNat).testBit k.toNat = false := by
      rw [h]
      exact Nat.zero_testBit _
    rwa [Nat.testBit_and, testBit_one_shiftLeft k hk hk, decide_eq_true rfl, Bool.and_true] at hbit
  · intro h
    apply Nat.eq_of_testBit_eq
    intro d
    rw [Nat.testBit_and]
    by_cases hd : d < 64
    · rw [testBit_one_shiftLeft k hk hd]
      by_cases heq : d = k.toNat
      · simp [heq, h]
      · simp [heq]
    · have hlt : a.toNat < 2 ^ d :=
        Nat.lt_of_lt_of_le a.toNat_lt (Nat.pow_le_pow_right (by omega) (by omega))
      rw [Nat.testBit_lt_two_pow hlt]
      simp

end Window
