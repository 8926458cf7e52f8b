import Mathlib.Data.List.Nodup
import Mathlib.Data.List.Perm.Subperm

/-!
# Recency lists

The distinct values that were used, the most recent first.  Using a value moves it
to the front.  The first `n` values are what a cache of `n` slots keeps, and they
can be followed without the rest of the list: a value among them moves to the
front, and any other pushes the last of them out.
-/

namespace Recency

variable {α : Type*} [DecidableEq α]

/-- Use a value. -/
def touch (l : List α) (b : α) : List α := b :: l.erase b

variable {l : List α} {b : α} {n : Nat}

theorem touch_nodup (h : l.Nodup) : (touch l b).Nodup :=
  List.nodup_cons.mpr ⟨h.not_mem_erase, h.erase b⟩

theorem take_erase_of_not_mem (h : b ∉ l.take n) : (l.erase b).take n = l.take n := by
  induction l generalizing n with
  | nil => rfl
  | cons x l ih =>
    cases n with
    | zero => rfl
    | succ n =>
      rw [List.take_succ_cons, List.mem_cons, not_or] at h
      rw [List.erase_cons_tail (by simpa using Ne.symm h.1), List.take_succ_cons,
        List.take_succ_cons, ih h.2]

theorem take_erase_of_mem (h : b ∈ l.take (n + 1)) :
    (l.erase b).take n = (l.take (n + 1)).erase b := by
  induction l generalizing n with
  | nil => simp at h
  | cons x l ih =>
    rw [List.take_succ_cons] at h ⊢
    by_cases hx : x = b
    · rw [hx, List.erase_cons_head, List.erase_cons_head]
    · have hmem : b ∈ l.take n := (List.mem_cons.mp h).resolve_left (Ne.symm hx)
      rw [List.erase_cons_tail (by simpa using hx), List.erase_cons_tail (by simpa using hx)]
      cases n with
      | zero => simp at hmem
      | succ n => rw [List.take_succ_cons, ih hmem]

/-- A value that is kept moves to the front. -/
theorem take_touch_of_mem (h : b ∈ l.take (n + 1)) :
    (touch l b).take (n + 1) = touch (l.take (n + 1)) b := by
  rw [touch, touch, List.take_succ_cons, take_erase_of_mem h]

/-- A value that is not kept pushes out the last one. -/
theorem take_touch_of_not_mem (h : b ∉ l.take (n + 1)) :
    (touch l b).take (n + 1) = b :: l.take n := by
  have hn : b ∉ l.take n := fun hb => h (List.take_subset_take_left l (Nat.le_succ n) hb)
  rw [touch, List.take_succ_cons, take_erase_of_not_mem hn]

theorem map_erase {β : Type*} [DecidableEq β] {f : α → β} (h : (l.map f).Nodup) (hb : b ∈ l) :
    (l.erase b).map f = (l.map f).erase (f b) := by
  induction l with
  | nil => simp at hb
  | cons x l ih =>
    rw [List.map_cons, List.nodup_cons] at h
    by_cases hx : x = b
    · rw [hx, List.erase_cons_head, List.map_cons, List.erase_cons_head]
    · have hmem : b ∈ l := (List.mem_cons.mp hb).resolve_left (Ne.symm hx)
      have hne : f x ≠ f b := fun heq => h.1 (heq ▸ List.mem_map_of_mem hmem)
      rw [List.erase_cons_tail (by simpa using hx), List.map_cons, List.map_cons,
        List.erase_cons_tail (by simpa using hne), ih h.2 hmem]

end Recency
