import Mathlib.Data.List.Nodup

/-!
# Linked lists

A linked list is a function `next` from a node to the node it points to.
`Visits next start l` says that following the links from `start` goes through the
nodes of `l` in order and then ends.  The nodes of a list that ends are distinct,
and a search of more steps than there are nodes finds exactly the nodes.
-/

namespace Linked

variable {α : Type*}

/-- Following the links from a start visits the nodes of a list and ends. -/
inductive Visits (next : α → Option α) : Option α → List α → Prop where
  | nil : Visits next none []
  | cons {x : α} {l : List α} : Visits next (next x) l → Visits next (some x) (x :: l)

/-- Follow the links for at most `n` nodes in search of one. -/
def search [DecidableEq α] (next : α → Option α) (y : α) : Nat → Option α → Bool
  | 0, _ => false
  | _ + 1, none => false
  | n + 1, some x => if x = y then true else search next y n (next x)

variable {next next' : α → Option α} {start : Option α} {l l' : List α} {x : α}

theorem Visits.unique (h : Visits next start l) (h' : Visits next start l') : l = l' := by
  induction h generalizing l' with
  | nil => cases h'; rfl
  | cons _ ih =>
    cases h' with
    | cons h' => rw [ih h']

/-- Only the links of the nodes matter. -/
theorem Visits.congr (h : Visits next start l) (hn : ∀ x ∈ l, next' x = next x) :
    Visits next' start l := by
  induction h with
  | nil => exact .nil
  | @cons x l _ ih =>
    refine .cons ?_
    rw [hn x List.mem_cons_self]
    exact ih fun y hy => hn y (List.mem_cons_of_mem _ hy)

theorem Visits.of_append {pre post : List α} (h : Visits next start (pre ++ x :: post)) :
    Visits next (some x) (x :: post) := by
  induction pre generalizing start with
  | nil =>
    cases h with
    | cons h => exact .cons h
  | cons y pre ih =>
    cases h with
    | cons h => exact ih h

theorem Visits.nodup (h : Visits next start l) : l.Nodup := by
  induction h with
  | nil => exact List.nodup_nil
  | @cons x l h ih =>
    refine List.nodup_cons.mpr ⟨fun hx => ?_, ih⟩
    obtain ⟨pre, post, rfl⟩ := List.append_of_mem hx
    -- both occurrences go on as the same list, but one rest is longer
    have heq := (Visits.cons h).unique h.of_append
    have hlen := congrArg List.length heq
    simp only [List.length_cons, List.length_append] at hlen
    omega

theorem Visits.start_none (h : Visits next none l) : l = [] := by
  cases h
  rfl

theorem Visits.tail (h : Visits next (some x) l) : ∃ k, l = x :: k ∧ Visits next (next x) k := by
  cases h with
  | cons h => exact ⟨_, rfl, h⟩

theorem search_eq_true [DecidableEq α] {y : α} {n : Nat} (h : Visits next start l)
    (hn : l.length < n) : search next y n start = true ↔ y ∈ l := by
  induction h generalizing n with
  | nil =>
    cases n with
    | zero => omega
    | succ n => simp [search]
  | @cons x l _ ih =>
    cases n with
    | zero => omega
    | succ n =>
      rw [search, List.mem_cons]
      split
      next hxy => simp [hxy]
      next hxy =>
        rw [ih (by simpa using hn)]
        constructor
        · exact .inr
        · rintro (rfl | hy)
          · exact absurd rfl hxy
          · exact hy

end Linked
