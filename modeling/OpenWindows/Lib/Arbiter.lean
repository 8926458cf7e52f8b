import Mathlib.Data.List.Nodup
import Mathlib.Data.List.Perm.Basic
import Mathlib.Data.List.Range

/-!
# Owners and pools

Entries of a table are numbered as they are added, and each owner keeps the list of the numbers
of its entries.  `Shares own n` says that the lists of the owners split the numbers below `n`:
each is in exactly one list, once.

A pool is a fixed list of values with a flag for each that tells whether it was taken.
`Taken pool used xs` says that the values `xs` were taken from the pool, each once.
-/

namespace Arbiter

/-! ## Owners -/

/-- The lists of the owners split the numbers below `n`. -/
def Shares (own : List (List Nat)) (n : Nat) : Prop := own.flatten.Perm (List.range n)

variable {own : List (List Nat)} {n : Nat}

theorem shares_nil : Shares [] 0 := List.Perm.refl []

variable {i r : Nat} {l : List Nat}

theorem Shares.lt (h : Shares own n) (hl : own[i]? = some l) (hr : r ∈ l) : r < n := by
  rw [← List.mem_range, ← h.mem_iff, List.mem_flatten]
  exact ⟨l, List.mem_of_getElem? hl, hr⟩

theorem Shares.nodup (h : Shares own n) : own.flatten.Nodup := h.nodup_iff.2 List.nodup_range

/-- No number has two owners. -/
theorem Shares.unique (h : Shares own n) {j : Nat} {l' : List Nat} (hl : own[i]? = some l)
    (hl' : own[j]? = some l') (hr : r ∈ l) (hr' : r ∈ l') : i = j := by
  obtain ⟨hi, rfl⟩ := List.getElem?_eq_some_iff.1 hl
  obtain ⟨hj, rfl⟩ := List.getElem?_eq_some_iff.1 hl'
  have hpair := (List.nodup_flatten.1 h.nodup).2
  by_contra hne
  rcases Nat.lt_or_gt_of_ne hne with hlt | hgt
  · exact List.pairwise_iff_getElem.1 hpair i j hi hj hlt hr hr'
  · exact List.pairwise_iff_getElem.1 hpair j i hj hi hgt hr' hr

theorem Shares.exists_owner (h : Shares own n) (hr : r < n) :
    ∃ (i : Nat) (l : List Nat), own[i]? = some l ∧ r ∈ l := by
  rw [← List.mem_range, ← h.mem_iff, List.mem_flatten] at hr
  obtain ⟨l, hl, hmem⟩ := hr
  obtain ⟨i, hi⟩ := List.mem_iff_getElem?.1 hl
  exact ⟨i, l, hi, hmem⟩

/-- An owner has a number once. -/
theorem Shares.nodup_getElem? (h : Shares own n) (hl : own[i]? = some l) : l.Nodup :=
  (List.nodup_flatten.1 h.nodup).1 l (List.mem_of_getElem? hl)

theorem Shares.snoc (h : Shares own n) (k : Nat) :
    Shares (own ++ [List.range' n k]) (n + k) := by
  unfold Shares
  rw [List.flatten_append, List.flatten_singleton, List.range_add, List.range'_eq_map_range]
  exact h.append_right _

theorem Shares.append_nils (h : Shares own n) {new : List (List Nat)} (hnew : ∀ l ∈ new, l = []) :
    Shares (own ++ new) n := by
  unfold Shares
  rw [List.flatten_append, List.flatten_eq_nil_iff.2 hnew, List.append_nil]
  exact h

theorem flatten_give (hi : i < own.length) :
    (own.modify i (· ++ [n])).flatten.Perm (own.flatten ++ [n]) := by
  induction own generalizing i with
  | nil => exact absurd hi (Nat.not_lt_zero i)
  | cons l own ih =>
    cases i with
    | zero =>
      rw [List.modify_zero_cons, List.flatten_cons, List.flatten_cons, List.append_assoc,
        List.append_assoc]
      exact List.perm_append_comm.append_left l
    | succ i =>
      rw [List.modify_succ_cons, List.flatten_cons, List.flatten_cons, List.append_assoc]
      exact (ih (Nat.lt_of_succ_lt_succ hi)).append_left l

/-- An owner gets the next number. -/
theorem Shares.give (h : Shares own n) (hi : i < own.length) :
    Shares (own.modify i (· ++ [n])) (n + 1) := by
  unfold Shares
  rw [List.range_succ]
  exact (flatten_give hi).trans (h.append_right [n])

/-! ## Pools -/

/-- The values `xs` were taken from the pool, each once. -/
structure Taken {α : Type*} (pool : List α) (used : List Bool) (xs : List α) : Prop where
  nodup : xs.Nodup
  mem : ∀ x ∈ xs, ∃ i : Nat, pool[i]? = some x ∧ used[i]? = some true

variable {α : Type*} {pool xs : List α} {used : List Bool}

theorem taken_nil : Taken pool used [] := ⟨List.nodup_nil, fun x hx => by cases hx⟩

theorem Taken.take (h : Taken pool used xs) (hpool : pool.Nodup) {x : α}
    (hfree : used[i]? = some false) (hx : pool[i]? = some x) :
    Taken pool (used.set i true) (xs ++ [x]) where
  nodup := by
    rw [List.nodup_append]
    refine ⟨h.nodup, List.nodup_singleton x, ?_⟩
    intro y hy z hz heq
    rw [heq, List.mem_singleton.1 hz] at hy
    obtain ⟨j, hj, hused⟩ := h.mem x hy
    have hij : i = j := by
      obtain ⟨hi, hix⟩ := List.getElem?_eq_some_iff.1 hx
      obtain ⟨hj', hjx⟩ := List.getElem?_eq_some_iff.1 hj
      exact (hpool.getElem_inj_iff).1 (hix.trans hjx.symm)
    subst hij
    rw [hfree] at hused
    cases hused
  mem := by
    intro y hy
    rcases List.mem_append.1 hy with hy | hy
    · obtain ⟨j, hj, hused⟩ := h.mem y hy
      refine ⟨j, hj, ?_⟩
      by_cases hij : i = j
      · subst hij
        exact List.getElem?_set_self (List.getElem?_eq_some_iff.1 hused).1
      · rw [List.getElem?_set_ne hij]
        exact hused
    · cases List.mem_singleton.1 hy
      exact ⟨i, hx, List.getElem?_set_self (List.getElem?_eq_some_iff.1 hfree).1⟩

theorem entry_unique {β : Type*} {rs : List β} {p : β → Bool} {f : β → α}
    (h : ((rs.filter p).map f).Nodup) {j : Nat} {x y : β} (hx : rs[i]? = some x)
    (hy : rs[j]? = some y) (hpx : p x = true) (hpy : p y = true) (hf : f x = f y) : i = j := by
  obtain ⟨hi, rfl⟩ := List.getElem?_eq_some_iff.1 hx
  obtain ⟨hj, rfl⟩ := List.getElem?_eq_some_iff.1 hy
  have hpair : rs.Pairwise fun x y => p x = true → p y = true → f x ≠ f y := by
    rw [← List.pairwise_filter, ← List.pairwise_map]
    exact h
  by_contra hne
  rcases Nat.lt_or_gt_of_ne hne with hlt | hgt
  · exact List.pairwise_iff_getElem.1 hpair i j hi hj hlt hpx hpy hf
  · exact List.pairwise_iff_getElem.1 hpair j i hj hi hgt hpy hpx hf.symm

end Arbiter
