import Mathlib.Data.List.Basic

/-!
# Lists by position

`Segment xs i ys` says that the list `ys` stands in `xs` at position `i`.  A
code generator emits pieces one after the other, and a statement about a piece
is relative to the place where it stands in the whole program.

A loop that stores the value of each turn at an index of its own fills a table.
What stands at an index in the end is the value of the last turn that wrote there,
and an index that no turn computes keeps what it had.
-/

/-- `ys` stands in `xs` at position `i`. -/
def Segment {α : Type*} (xs : List α) (i : Nat) (ys : List α) : Prop :=
  ∃ pre post, xs = pre ++ ys ++ post ∧ pre.length = i

namespace Segment

variable {α : Type*} {xs ys zs : List α} {i : Nat} {y : α}

theorem self (xs : List α) : Segment xs 0 xs := ⟨[], [], by simp, rfl⟩

theorem head (h : Segment xs i (y :: ys)) : xs[i]? = some y := by
  obtain ⟨pre, post, rfl, rfl⟩ := h
  simp

theorem tail (h : Segment xs i (y :: ys)) : Segment xs (i + 1) ys := by
  obtain ⟨pre, post, rfl, rfl⟩ := h
  exact ⟨pre ++ [y], post, by simp, by simp⟩

theorem left (h : Segment xs i (ys ++ zs)) : Segment xs i ys := by
  obtain ⟨pre, post, rfl, rfl⟩ := h
  exact ⟨pre, zs ++ post, by simp, rfl⟩

theorem right (h : Segment xs i (ys ++ zs)) : Segment xs (i + ys.length) zs := by
  obtain ⟨pre, post, rfl, rfl⟩ := h
  exact ⟨pre ++ ys, post, by simp, by simp⟩

theorem le (h : Segment xs i ys) : i + ys.length ≤ xs.length := by
  obtain ⟨pre, post, rfl, rfl⟩ := h
  simp

theorem nil_iff : Segment xs i [] ↔ i ≤ xs.length := by
  constructor
  · intro h
    simpa using h.le
  · intro h
    exact ⟨xs.take i, xs.drop i, by simp, by simp [h]⟩

theorem cons_iff : Segment xs i (y :: ys) ↔ xs[i]? = some y ∧ Segment xs (i + 1) ys := by
  constructor
  · intro h
    exact ⟨h.head, h.tail⟩
  · intro ⟨hy, pre, post, hxs, hpre⟩
    have hlast : pre.take i ++ [y] = pre := by
      rw [hxs, List.append_assoc, List.getElem?_append_left (by omega)] at hy
      have htake := List.take_add_one (l := pre) (i := i)
      rw [hy, ← hpre, List.take_length] at htake
      exact htake.symm
    refine ⟨pre.take i, post, ?_, by simp [hpre]⟩
    calc xs = pre.take i ++ [y] ++ ys ++ post := by rw [hlast, hxs]
      _ = pre.take i ++ y :: ys ++ post := by simp

theorem append (h1 : Segment xs i ys) (h2 : Segment xs (i + ys.length) zs) :
    Segment xs i (ys ++ zs) := by
  induction ys generalizing i with
  | nil => exact h2
  | cons y ys ih =>
    obtain ⟨hy, hys⟩ := cons_iff.mp h1
    rw [List.length_cons, ← Nat.add_assoc, Nat.add_right_comm] at h2
    exact cons_iff.mpr ⟨hy, ih hys h2⟩

end Segment

namespace Scatter

variable {α : Type*}

/-- The first `n` turns of the loop. -/
def scatter (f : Nat → Nat) (g : Nat → α) (n : Nat) (t : List α) : List α :=
  (List.range n).foldl (fun t i => t.set (f i) (g i)) t

variable {f : Nat → Nat} {g : Nat → α} {n i p : Nat} {t : List α}

theorem scatter_succ (n : Nat) : scatter f g (n + 1) t = (scatter f g n t).set (f n) (g n) := by
  rw [scatter, List.range_succ, List.foldl_append]
  rfl

@[simp] theorem length_scatter : (scatter f g n t).length = t.length := by
  induction n with
  | zero => rfl
  | succ n ih => rw [scatter_succ, List.length_set, ih]

/-- The last turn that writes at an index decides. -/
theorem getElem?_scatter (hi : i < n) (hlt : f i < t.length)
    (hlast : ∀ j, i < j → j < n → f j ≠ f i) : (scatter f g n t)[f i]? = some (g i) := by
  induction n with
  | zero => cases hi
  | succ n ih =>
    rw [scatter_succ]
    rcases Nat.lt_succ_iff_lt_or_eq.mp hi with hi | rfl
    · rw [List.getElem?_set_ne (hlast n hi (Nat.lt_succ_self n))]
      exact ih hi fun j hij hjn => hlast j hij (Nat.lt_succ_of_lt hjn)
    · exact List.getElem?_set_self (by rwa [length_scatter])

/-- A loop whose turns write at different indices stores every value. -/
theorem getElem?_scatter_of_injOn (hf : ∀ i < n, ∀ j < n, f i = f j → i = j) (hi : i < n)
    (hlt : f i < t.length) : (scatter f g n t)[f i]? = some (g i) := by
  refine getElem?_scatter hi hlt fun j hij hjn heq => ?_
  exact absurd (hf j hjn i hi heq) (Nat.ne_of_gt hij)

end Scatter
