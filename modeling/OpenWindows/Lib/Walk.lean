import Mathlib.Data.List.Induction
import Mathlib.Data.List.Nodup
import Mathlib.Data.Option.Basic

/-!
# Trees of labelled edges

Nodes with at most one edge for each label, `next : ι → α → Option ι`.  A word of
labels leads from a root to a node or nowhere.  `Tree next root` says that no node is
reached by two words, so that each node has one place.  Hanging a new node below a
place, or taking a childless node out, changes what is at one place only.
-/

namespace Walk

section

variable {ι α : Type*}

/-- The node that a word leads to. -/
def walk (next : ι → α → Option ι) : ι → List α → Option ι
  | i, [] => some i
  | i, a :: as =>
    match next i a with
    | none => none
    | some j => walk next j as

/-- No node is reached by two words. -/
def Tree (next : ι → α → Option ι) (root : ι) : Prop :=
  ∀ p q i, walk next root p = some i → walk next root q = some i → p = q

variable {next next' : ι → α → Option ι} {root i j : ι} {a : α} {p q : List α}

theorem walk_append (next : ι → α → Option ι) (i : ι) (p q : List α) :
    walk next i (p ++ q) = (walk next i p).bind fun j => walk next j q := by
  induction p generalizing i with
  | nil => rfl
  | cons a p ih =>
    rw [List.cons_append, walk, walk]
    cases next i a with
    | none => rfl
    | some j => exact ih j

theorem walk_concat (next : ι → α → Option ι) (i : ι) (p : List α) (a : α) :
    walk next i (p ++ [a]) = (walk next i p).bind fun j => next j a := by
  rw [walk_append]
  congr 1
  funext j
  rw [walk]
  cases next j a <;> rfl

theorem walk_concat_of (h : walk next root p = some i) (a : α) :
    walk next root (p ++ [a]) = next i a := by
  rw [walk_concat, h]
  rfl

/-- Only the edges of nodes that are reached matter. -/
theorem walk_congr (h : ∀ p i, walk next root p = some i → next' i = next i) (p : List α) :
    walk next' root p = walk next root p := by
  induction p using List.reverseRecOn with
  | nil => rfl
  | append_singleton p a ih =>
    rw [walk_concat, walk_concat, ih]
    cases hi : walk next root p with
    | none => rfl
    | some i =>
      show next' i a = next i a
      rw [h p i hi]

theorem concat_inj {b : α} : p ++ [a] = q ++ [b] ↔ p = q ∧ a = b := by
  constructor
  · intro h
    obtain ⟨h1, h2⟩ := List.append_inj' h rfl
    exact ⟨h1, by simpa using h2⟩
  · rintro ⟨rfl, rfl⟩
    rfl

theorem walk_edit [DecidableEq α] {r : Option ι} (htree : Tree next root)
    (hq : walk next root q = some i)
    (hold : ∀ k, next i a = some k → ∀ b, next k b = none)
    (hnew : ∀ k, r = some k → (∀ b, next' k b = none) ∧ ∀ p, walk next root p ≠ some k)
    (hat : ∀ b, next' i b = if b = a then r else next i b)
    (hother : ∀ k, k ≠ i → next i a ≠ some k → r ≠ some k → next' k = next k) (p : List α) :
    walk next' root p = if p = q ++ [a] then r else walk next root p := by
  have hqa : walk next root (q ++ [a]) = next i a := walk_concat_of hq a
  induction p using List.reverseRecOn with
  | nil => rw [if_neg (by simp)]; rfl
  | append_singleton p b ih =>
    rw [walk_concat, ih]
    by_cases hp : p = q ++ [a]
    · -- nothing is below the edge, before and after
      have hne : p ++ [b] ≠ q ++ [a] := by
        intro h
        have hlen := congrArg List.length h
        rw [hp] at hlen
        simp at hlen
      have hbelow : walk next root (p ++ [b]) = none := by
        rw [walk_concat, hp, hqa]
        cases hk : next i a with
        | none => rfl
        | some k => exact hold k hk b
      rw [if_pos hp, if_neg hne, hbelow]
      cases hr : r with
      | none => rfl
      | some k => exact (hnew k hr).1 b
    · rw [if_neg hp]
      by_cases hpq : p = q
      · subst hpq
        rw [hq]
        show next' i b = _
        rw [hat]
        by_cases hb : b = a
        · rw [if_pos hb, if_pos (by rw [hb])]
        · rw [if_neg hb, if_neg (fun h => hb (concat_inj.mp h).2), walk_concat_of hq]
      · rw [if_neg (fun h => hpq (concat_inj.mp h).1), walk_concat]
        cases hk : walk next root p with
        | none => rfl
        | some k =>
          have hi : k ≠ i := by
            rintro rfl
            exact hpq (htree p q k hk hq)
          have ho : next i a ≠ some k := fun h => hp (htree p (q ++ [a]) k hk (hqa.trans h))
          have hn : r ≠ some k := fun h => (hnew k h).2 p hk
          show next' k b = next k b
          rw [hother k hi ho hn]

theorem walk_hang [DecidableEq α] (htree : Tree next root) (hq : walk next root q = some i)
    (hfree : next i a = none) (hfresh : ∀ p, walk next root p ≠ some j)
    (hat : ∀ b, next' i b = if b = a then some j else next i b) (hleaf : ∀ b, next' j b = none)
    (hother : ∀ k, k ≠ i → k ≠ j → next' k = next k) (p : List α) :
    walk next' root p = if p = q ++ [a] then some j else walk next root p := by
  refine walk_edit htree hq ?_ ?_ hat (fun k hi _ hj => hother k hi fun h => hj (by rw [h])) p
  · intro k hk
    rw [hfree] at hk
    cases hk
  · intro k hk
    cases hk
    exact ⟨hleaf, hfresh⟩

theorem walk_prune [DecidableEq α] (htree : Tree next root) (hq : walk next root q = some i)
    (hedge : next i a = some j) (hleaf : ∀ b, next j b = none)
    (hat : ∀ b, next' i b = if b = a then none else next i b)
    (hother : ∀ k, k ≠ i → k ≠ j → next' k = next k) (p : List α) :
    walk next' root p = if p = q ++ [a] then none else walk next root p := by
  refine walk_edit htree hq ?_ ?_ hat
    (fun k hi hj _ => hother k hi fun h => hj (by rw [h, hedge])) p
  · intro k hk
    rw [hedge] at hk
    cases hk
    exact hleaf
  · intro k hk
    cases hk

theorem tree_hang [DecidableEq α] (htree : Tree next root) (hfresh : ∀ p, walk next root p ≠ some j)
    (h : ∀ p, walk next' root p = if p = q then some j else walk next root p) :
    Tree next' root := by
  intro p p' k hp hp'
  rw [h] at hp hp'
  split at hp
  next hpq =>
    cases hp
    split at hp'
    next hpq' => rw [hpq, hpq']
    · exact absurd hp' (hfresh p')
  · split at hp'
    · cases hp'
      exact absurd hp (hfresh p)
    · exact htree p p' k hp hp'

theorem tree_prune [DecidableEq α] (htree : Tree next root)
    (h : ∀ p, walk next' root p = if p = q then none else walk next root p) :
    Tree next' root := by
  intro p p' k hp hp'
  rw [h] at hp hp'
  split at hp
  · cases hp
  · split at hp'
    · cases hp'
    · exact htree p p' k hp hp'

end

/-! ## Exploring a tree with a stack

A walk over all nodes of a tree takes a node off the stack, pushes its children and
goes on.  `Explored next root done stack` says that the nodes `done` were taken off
and the nodes `stack` wait.  A child that is pushed was never seen before, and when
nothing waits all nodes that are reached are done.
-/

section

variable {ι α : Type*}

/-- The search so far. -/
structure Explored (next : ι → α → Option ι) (root : ι) (done stack : List ι) : Prop where
  nodup : (done ++ stack).Nodup
  start : root ∈ done ++ stack
  closed : ∀ i ∈ done, ∀ a j, next i a = some j → j ∈ done ++ stack
  origin : ∀ j ∈ done ++ stack, j = root ∨ ∃ i ∈ done, ∃ a, next i a = some j
  reached : ∀ j ∈ done ++ stack, ∃ p, walk next root p = some j

variable {next : ι → α → Option ι} {root cur j : ι} {a : α} {done stack : List ι}

theorem explored_root (next : ι → α → Option ι) (root : ι) : Explored next root [] [root] where
  nodup := List.nodup_singleton root
  start := List.mem_singleton.mpr rfl
  closed i hi := absurd hi List.not_mem_nil
  origin j hj := .inl (List.mem_singleton.mp hj)
  reached j hj := ⟨[], by rw [List.mem_singleton.mp hj]; rfl⟩

/-- A child of the node on top was never seen before. -/
theorem Explored.fresh (h : Explored next root done (cur :: stack)) (htree : Tree next root)
    (hedge : next cur a = some j) : j ∉ done ++ cur :: stack := by
  have hcur : cur ∈ done ++ cur :: stack := List.mem_append_right _ List.mem_cons_self
  have hnot : cur ∉ done := by
    intro hdone
    exact (List.nodup_append.mp h.nodup).2.2 cur hdone cur List.mem_cons_self rfl
  obtain ⟨p, hp⟩ := h.reached cur hcur
  have hj : walk next root (p ++ [a]) = some j := (walk_concat_of hp a).trans hedge
  intro hmem
  rcases h.origin j hmem with rfl | ⟨i, hi, b, hib⟩
  · -- the root has one place
    have hnil : p ++ [a] = [] := htree (p ++ [a]) [] j hj rfl
    simp at hnil
  · -- a node has one parent
    obtain ⟨q, hq⟩ := h.reached i (List.mem_append_left _ hi)
    have hj' : walk next root (q ++ [b]) = some j := (walk_concat_of hq b).trans hib
    obtain ⟨hpq, -⟩ := concat_inj.mp (htree _ _ j hj hj')
    rw [hpq, hq] at hp
    cases hp
    exact hnot hi

/-- The children of a node, in the order of some labels. -/
def kids (next : ι → α → Option ι) (labels : List α) (i : ι) : List ι := labels.filterMap (next i)

variable {labels : List α}

theorem mem_kids {i : ι} : j ∈ kids next labels i ↔ ∃ a ∈ labels, next i a = some j :=
  List.mem_filterMap

theorem nodup_kids {i : ι} {p : List α} (htree : Tree next root)
    (hi : walk next root p = some i) (hlabels : labels.Nodup) : (kids next labels i).Nodup := by
  refine List.Nodup.filterMap (fun a b k ha hb => ?_) hlabels
  have hpa : walk next root (p ++ [a]) = some k := (walk_concat_of hi a).trans ha
  have hpb : walk next root (p ++ [b]) = some k := (walk_concat_of hi b).trans hb
  exact (concat_inj.mp (htree _ _ k hpa hpb)).2

theorem Explored.step (h : Explored next root done (cur :: stack))
    (htree : Tree next root) (hlabels : labels.Nodup) (hall : ∀ a j, next cur a = some j → a ∈ labels) :
    Explored next root (cur :: done) ((kids next labels cur).reverse ++ stack) := by
  have hcur : cur ∈ done ++ cur :: stack := List.mem_append_right _ List.mem_cons_self
  obtain ⟨p, hp⟩ := h.reached cur hcur
  have hkids : ∀ {j}, j ∈ kids next labels cur → ∃ a, next cur a = some j := by
    intro j hj
    obtain ⟨a, -, ha⟩ := mem_kids.mp hj
    exact ⟨a, ha⟩
  have hmem : ∀ {j}, j ∈ cur :: done ++ ((kids next labels cur).reverse ++ stack) ↔
      j ∈ kids next labels cur ∨ j ∈ done ++ cur :: stack := by
    intro j
    simp only [List.cons_append, List.mem_cons, List.mem_append, List.mem_reverse]
    tauto
  refine ⟨?_, ?_, ?_, ?_, ?_⟩
  · have hperm : (cur :: done ++ ((kids next labels cur).reverse ++ stack)).Perm
        ((kids next labels cur).reverse ++ (done ++ cur :: stack)) := by
      refine (List.perm_append_comm_assoc ..).trans (List.Perm.append_left _ ?_)
      exact List.perm_middle.symm
    rw [hperm.nodup_iff, List.nodup_append]
    refine ⟨List.nodup_reverse.mpr (nodup_kids htree hp hlabels), h.nodup, fun i hi k hk => ?_⟩
    rintro rfl
    obtain ⟨a, ha⟩ := hkids (List.mem_reverse.mp hi)
    exact h.fresh htree ha hk
  · exact hmem.mpr (.inr h.start)
  · intro i hi a j hj
    rcases List.mem_cons.mp hi with rfl | hi
    · exact hmem.mpr (.inl (mem_kids.mpr ⟨a, hall a j hj, hj⟩))
    · exact hmem.mpr (.inr (h.closed i hi a j hj))
  · intro j hj
    rcases hmem.mp hj with hj | hj
    · exact .inr ⟨cur, List.mem_cons_self, hkids hj⟩
    · rcases h.origin j hj with hroot | ⟨i, hi, hedge⟩
      · exact .inl hroot
      · exact .inr ⟨i, List.mem_cons_of_mem _ hi, hedge⟩
  · intro j hj
    rcases hmem.mp hj with hj | hj
    · obtain ⟨a, ha⟩ := hkids hj
      exact ⟨p ++ [a], (walk_concat_of hp a).trans ha⟩
    · exact h.reached j hj

theorem Explored.complete (h : Explored next root done []) (i : ι) :
    i ∈ done ↔ ∃ p, walk next root p = some i := by
  have hclosed := h.closed
  have hstart := h.start
  have hreached := h.reached
  rw [List.append_nil] at hclosed hstart hreached
  constructor
  · exact hreached i
  · rintro ⟨p, hp⟩
    induction p using List.reverseRecOn generalizing i with
    | nil =>
      cases hp
      exact hstart
    | append_singleton p a ih =>
      rw [walk_concat] at hp
      cases hj : walk next root p with
      | none =>
        rw [hj] at hp
        cases hp
      | some j =>
        rw [hj] at hp
        exact hclosed j (ih j hj) a i hp

end

end Walk
