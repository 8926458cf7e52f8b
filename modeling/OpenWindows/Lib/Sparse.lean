import Mathlib.Data.List.Range
import Mathlib.Data.Nat.Bitwise

/-!
# Arrays behind a bitmap

A sparse map from small numbers is kept as a bitmap and an array: the value of `n`
stands at the number of bits below `n`, its *rank*.  A value is added by shifting the
array up behind its rank, and taken out by shifting it down.  The array then lists the
values in the order of the bitmap.
-/

namespace Sparse

variable {α : Type*}

/-- The number of bits below `n`. -/
def rank (v n : Nat) : Nat := (List.range n).countP v.testBit

@[simp] theorem rank_zero (v : Nat) : rank v 0 = 0 := rfl

theorem rank_succ (v n : Nat) : rank v (n + 1) = rank v n + (v.testBit n).toNat := by
  unfold rank
  rw [List.range_succ, List.countP_append]
  cases h : v.testBit n <;> simp [h]

variable {n v w : Nat}

theorem rank_mono (v : Nat) {m : Nat} (h : n ≤ m) : rank v n ≤ rank v m := by
  induction h with
  | refl => exact Nat.le_refl _
  | step _ ih =>
    rw [rank_succ]
    exact Nat.le_add_right_of_le ih

theorem rank_lt {m : Nat} (hn : v.testBit n = true) (h : n < m) : rank v n < rank v m := by
  have hstep : rank v (n + 1) = rank v n + 1 := by rw [rank_succ, hn]; rfl
  have := rank_mono v (show n + 1 ≤ m from h)
  omega

theorem rank_le (v n : Nat) : rank v n ≤ n := by
  have h : rank v n ≤ (List.range n).length := List.countP_le_length
  rwa [List.length_range] at h

/-! ## Bits that are set and cleared -/

theorem testBit_insert (v n m : Nat) :
    (v ||| 2 ^ n).testBit m = (v.testBit m || decide (n = m)) := by
  rw [Nat.testBit_or, Nat.testBit_two_pow]

theorem rank_insert (hn : v.testBit n = false) (m : Nat) :
    rank (v ||| 2 ^ n) m = rank v m + if n < m then 1 else 0 := by
  induction m with
  | zero => simp
  | succ m ih =>
    rw [rank_succ, rank_succ, ih, testBit_insert]
    rcases Nat.lt_trichotomy n m with hlt | rfl | hgt
    · rw [if_pos hlt, if_pos (by omega)]
      simp [Nat.ne_of_lt hlt]
      omega
    · simp [hn]
    · rw [if_neg (by omega), if_neg (by omega)]
      simp [Nat.ne_of_gt hgt]

/-- The bitmap of `w` bits without one of them. -/
def clear (w v n : Nat) : Nat := v &&& (2 ^ w - 1 ^^^ 2 ^ n)

theorem testBit_clear (hv : v < 2 ^ w) (m : Nat) :
    (clear w v n).testBit m = (v.testBit m && !decide (n = m)) := by
  unfold clear
  rw [Nat.testBit_and, Nat.testBit_xor, Nat.testBit_two_pow, Nat.testBit_two_pow_sub_one]
  by_cases hm : m < w
  · by_cases hnm : n = m <;> simp [hm, hnm]
  · rw [Nat.testBit_lt_two_pow (Nat.lt_of_lt_of_le hv (Nat.pow_le_pow_right (by decide) (by omega)))]
    rfl

theorem rank_clear (hv : v < 2 ^ w) (hn : v.testBit n = true) (m : Nat) :
    rank (clear w v n) m + (if n < m then 1 else 0) = rank v m := by
  induction m with
  | zero => simp
  | succ m ih =>
    rw [rank_succ, rank_succ, testBit_clear hv]
    rcases Nat.lt_trichotomy n m with hlt | rfl | hgt
    · rw [if_pos hlt] at ih
      rw [if_pos (by omega)]
      simp [Nat.ne_of_lt hlt]
      omega
    · rw [if_neg (by omega)] at ih
      simp [hn]
      omega
    · rw [if_neg (by omega)] at ih
      rw [if_neg (by omega)]
      simp [Nat.ne_of_gt hgt]
      omega

/-! ## Shifting -/

/-- The loop that moves the places `pos` to `i - 1` up by one. -/
def shiftUp (pos : Nat) : Nat → (Nat → α) → Nat → α
  | 0, c => c
  | i + 1, c => if i + 1 > pos then shiftUp pos i (Function.update c (i + 1) (c i)) else c

/-- The loop that moves the places `i + 1` to `stop - 1` down by one, for some rounds. -/
def shiftDown (stop : Nat) : Nat → Nat → (Nat → α) → Nat → α
  | 0, _, c => c
  | k + 1, i, c =>
    if i + 1 < stop then shiftDown stop k (i + 1) (Function.update c i (c (i + 1))) else c

theorem shiftUp_apply (pos i : Nat) (c : Nat → α) (x : Nat) :
    shiftUp pos i c x = if pos < x ∧ x ≤ i then c (x - 1) else c x := by
  induction i generalizing c with
  | zero => rw [shiftUp, if_neg (by omega)]
  | succ i ih =>
    rw [shiftUp]
    split
    next hi =>
      rw [ih]
      by_cases hx : x = i + 1
      · subst hx
        rw [if_neg (by omega), if_pos (by omega), Function.update_self, Nat.add_sub_cancel]
      · rw [Function.update_of_ne hx]
        by_cases hlt : pos < x ∧ x ≤ i
        · rw [if_pos hlt, if_pos (by omega), Function.update_of_ne (by omega)]
        · rw [if_neg hlt, if_neg (by omega)]
    next hi => rw [if_neg (by omega)]

theorem shiftDown_apply (stop k i : Nat) (c : Nat → α) (x : Nat) (hk : stop ≤ i + 1 + k) :
    shiftDown stop k i c x = if i ≤ x ∧ x + 1 < stop then c (x + 1) else c x := by
  induction k generalizing i c with
  | zero => rw [shiftDown, if_neg (by omega)]
  | succ k ih =>
    rw [shiftDown]
    split
    next hi =>
      rw [ih (i + 1) _ (by omega)]
      by_cases hx : x = i
      · subst hx
        rw [if_neg (by omega), if_pos (by omega), Function.update_self]
      · rw [Function.update_of_ne hx]
        by_cases hlt : i + 1 ≤ x ∧ x + 1 < stop
        · rw [if_pos hlt, if_pos (by omega), Function.update_of_ne (by omega)]
        · rw [if_neg hlt, if_neg (by omega)]
    next hi => rw [if_neg (by omega)]

/-! ## Values -/

/-- The value of `n`. -/
def value (v : Nat) (c : Nat → α) (n : Nat) : Option α :=
  if v.testBit n then some (c (rank v n)) else none

/-- The array after a value is put in at `pos`, among the first `stop` places. -/
def insertAt (pos stop : Nat) (x : α) (c : Nat → α) : Nat → α :=
  Function.update (shiftUp pos stop c) pos x

/-- The array after the value at `pos` is taken out of the first `stop` places. -/
def eraseAt (pos stop : Nat) (x : α) (c : Nat → α) : Nat → α :=
  Function.update (shiftDown stop stop pos c) (stop - 1) x

theorem insertAt_apply (pos stop : Nat) (x : α) (c : Nat → α) (k : Nat) :
    insertAt pos stop x c k =
      if k = pos then x else if pos < k ∧ k ≤ stop then c (k - 1) else c k := by
  unfold insertAt
  rw [Function.update_apply, shiftUp_apply]

theorem eraseAt_apply (pos stop : Nat) (x : α) (c : Nat → α) (k : Nat) :
    eraseAt pos stop x c k =
      if k = stop - 1 then x else if pos ≤ k ∧ k + 1 < stop then c (k + 1) else c k := by
  unfold eraseAt
  rw [Function.update_apply, shiftDown_apply _ _ _ _ _ (by omega)]

theorem lt_of_testBit (hv : v < 2 ^ w) (hn : v.testBit n = true) : n < w := by
  by_contra hge
  rw [Nat.testBit_lt_two_pow (Nat.lt_of_lt_of_le hv
    (Nat.pow_le_pow_right (by decide) (Nat.le_of_not_lt hge)))] at hn
  cases hn

theorem value_insertAt (hv : v < 2 ^ w) (hn : v.testBit n = false) (x : α) (c : Nat → α) (m : Nat) :
    value (v ||| 2 ^ n) (insertAt (rank v n) (rank v w) x c) m =
      if m = n then some x else value v c m := by
  unfold value
  rw [testBit_insert, rank_insert hn, insertAt_apply]
  rcases Nat.lt_trichotomy m n with hlt | rfl | hgt
  · rw [decide_eq_false (Nat.ne_of_gt hlt), Bool.or_false, if_neg (Nat.not_lt_of_lt hlt),
      Nat.add_zero, if_neg (Nat.ne_of_lt hlt)]
    cases hm : v.testBit m with
    | false => rfl
    | true =>
      have hrank := rank_lt hm hlt
      rw [if_pos rfl, if_pos rfl, if_neg (Nat.ne_of_lt hrank), if_neg (by omega)]
  · rw [decide_eq_true rfl, Bool.or_true, if_pos rfl, if_neg (Nat.lt_irrefl m), if_pos rfl,
      Nat.add_zero, if_pos rfl]
  · rw [decide_eq_false (Nat.ne_of_lt hgt), Bool.or_false, if_pos hgt, if_neg (Nat.ne_of_gt hgt)]
    cases hm : v.testBit m with
    | false => rfl
    | true =>
      have hle := rank_mono v (Nat.le_of_lt hgt)
      have hlt := rank_lt hm (lt_of_testBit hv hm)
      rw [if_pos rfl, if_pos rfl, if_neg (by omega), if_pos (by omega), Nat.add_sub_cancel]

theorem value_eraseAt (hv : v < 2 ^ w) (hn : v.testBit n = true) (x : α) (c : Nat → α) (m : Nat) :
    value (clear w v n) (eraseAt (rank v n) (rank v w) x c) m =
      if m = n then none else value v c m := by
  have hcount := rank_lt hn (lt_of_testBit hv hn)
  have hrank := rank_clear hv hn m
  unfold value
  rw [testBit_clear hv, eraseAt_apply]
  rcases Nat.lt_trichotomy m n with hlt | rfl | hgt
  · rw [if_neg (Nat.not_lt_of_lt hlt), Nat.add_zero] at hrank
    rw [decide_eq_false (Nat.ne_of_gt hlt), Bool.not_false, Bool.and_true, hrank,
      if_neg (Nat.ne_of_lt hlt)]
    cases hm : v.testBit m with
    | false => rfl
    | true =>
      have hlow := rank_lt hm hlt
      rw [if_pos rfl, if_pos rfl, if_neg (by omega), if_neg (by omega)]
  · rw [decide_eq_true rfl, Bool.not_true, Bool.and_false, if_neg Bool.false_ne_true, if_pos rfl]
  · rw [if_pos hgt] at hrank
    rw [decide_eq_false (Nat.ne_of_lt hgt), Bool.not_false, Bool.and_true,
      if_neg (Nat.ne_of_gt hgt)]
    cases hm : v.testBit m with
    | false => rfl
    | true =>
      have hlow := rank_lt hn hgt
      have hhigh := rank_lt hm (lt_of_testBit hv hm)
      rw [if_pos rfl, if_pos rfl, if_neg (by omega), if_pos (by omega), hrank]

/-! ## Order -/

theorem filterMap_rank (v : Nat) (c : Nat → α) (n : Nat) :
    (List.range n).filterMap (value v c) = (List.range (rank v n)).map c := by
  induction n with
  | zero => rfl
  | succ n ih =>
    rw [List.range_succ, List.filterMap_append, ih, rank_succ]
    cases h : v.testBit n
    · simp [value, h]
    · simp [value, h, List.range_succ]

end Sparse
