import Mathlib.Data.Set.Card
import OpenWindows.Vipm.Trie

/-!
# Removing a mapping

The pruning loop of `vipm_mapping_remove` goes up the parents of the path and takes
each empty node out.  Nodes that are in use above it stay, and no payload changes.
-/

namespace Vipm

open Sparse Walk

variable {t t' : Trie} {p q hole : List Nat} {i j node parent nib : Nat}

/-! ## Counting -/

/-- The nodes that are reached from the root. -/
def reachable (t : Trie) : Set Nat := { i | ∃ p, addr t p = some i }

theorem TrieInv.mem_reachable_iff (h : TrieInv t hole) (hi : i < maxNodes) :
    i ∈ reachable t ↔ i ∉ freeList t := by
  rw [h.free]
  constructor
  · rintro ⟨p, hp⟩ ⟨-, hun⟩
    exact hun p hp
  · intro hfree
    by_contra hun
    exact hfree ⟨hi, fun p hp => hun ⟨p, hp⟩⟩

theorem TrieInv.ncard_reachable (h : TrieInv t hole) : (reachable t).ncard = t.nodeCount := by
  have heq : reachable t = ↑(Finset.range maxNodes \ (freeList t).toFinset) := by
    ext i
    rw [Finset.coe_sdiff, Set.mem_sdiff, Finset.mem_coe, Finset.mem_coe, Finset.mem_range,
      List.mem_toFinset]
    constructor
    · rintro ⟨p, hp⟩
      exact ⟨h.bound hp, (h.mem_reachable_iff (h.bound hp)).mp ⟨p, hp⟩⟩
    · rintro ⟨hi, hfree⟩
      exact (h.mem_reachable_iff hi).mpr hfree
  have hsub : (freeList t).toFinset ⊆ Finset.range maxNodes := by
    intro i hi
    exact Finset.mem_range.mpr ((h.free i).mp (List.mem_toFinset.mp hi)).1
  have hcard : (freeList t).toFinset.card = t.freeTop := by
    rw [List.toFinset_card_of_nodup h.nodup, freeList, List.length_map, List.length_range]
  rw [heq, Set.ncard_coe_finset, Finset.card_sdiff_of_subset hsub, Finset.card_range, hcard]
  have := h.count
  omega

theorem TrieInv.nodeCount_pos (h : TrieInv t hole) : 0 < t.nodeCount := by
  have hfin : (reachable t).Finite := by
    refine (Finset.range maxNodes).finite_toSet.subset ?_
    rintro i ⟨p, hp⟩
    exact Finset.mem_coe.mpr (Finset.mem_range.mpr (h.bound hp))
  rw [← h.ncard_reachable, Set.ncard_pos hfin]
  exact ⟨t.root, [], rfl⟩

/-! ## One node -/

/-- An empty node is taken out. -/
def detach (t : Trie) (node parent nib : Nat) : Trie :=
  let t := t.setNode parent (vpNodeUnset (t.nodes parent) nib)
  let t := t.setNode node { t.nodes node with childBitmap := 0 }
  vpNodeFree { t with nodeCount := if t.nodeCount > 0 then t.nodeCount - 1 else t.nodeCount } node

theorem nodes_detach_parent (h : parent ≠ node) :
    (detach t node parent nib).nodes parent = vpNodeUnset (t.nodes parent) nib := by
  simp [detach, vpNodeFree, Trie.setNode, Function.update_of_ne h]

theorem nodes_detach_other (hp : i ≠ parent) (hn : i ≠ node) :
    (detach t node parent nib).nodes i = t.nodes i := by
  simp [detach, vpNodeFree, Trie.setNode, Function.update_of_ne hp, Function.update_of_ne hn]

theorem freeList_detach (t : Trie) (node parent nib : Nat) :
    freeList (detach t node parent nib) = freeList t ++ [node] := by
  show (List.range (t.freeTop + 1)).map (Function.update t.freeStack t.freeTop node) = _
  rw [List.range_succ, List.map_append, List.map_singleton, Function.update_self]
  congr 1
  refine List.map_congr_left fun i hi => ?_
  exact Function.update_of_ne (Nat.ne_of_lt (List.mem_range.mp hi)) ..

section Detach

variable (h : TrieInv t (q ++ [nib])) (hq : addr t q = some parent)
  (hnode : addr t (q ++ [nib]) = some node) (hzero : (t.nodes node).childBitmap = 0)

include h hq hnode

theorem TrieInv.parent_ne_node : parent ≠ node := by
  rintro rfl
  have hlen := congrArg List.length (h.tree_inj hq hnode)
  simp at hlen

include hzero

theorem TrieInv.addr_detach (p : List Nat) :
    addr (detach t node parent nib) p = if p = q ++ [nib] then none else addr t p := by
  have hne := h.parent_ne_node hq hnode
  have hedge : edge t parent nib = some node := (addr_concat hq nib).symm.trans hnode
  refine walk_prune h.tree hq hedge ?_ (fun b => ?_) (fun k hk hkn => ?_) p
  · exact childBitmap_eq_zero_iff.mp hzero
  · show child ((detach t node parent nib).nodes parent) b = _
    rw [nodes_detach_parent hne]
    exact child_vpNodeUnset (h.nodeOk hq) hedge b
  · funext b
    show child ((detach t node parent nib).nodes k) b = _
    rw [nodes_detach_other hk hkn]
    rfl

theorem TrieInv.detach_cases (hp : addr (detach t node parent nib) p = some i) :
    (p = q ∧ i = parent) ∨ (addr t p = some i ∧ p ≠ q ∧ p ≠ q ++ [nib] ∧ i ≠ parent ∧ i ≠ node) := by
  rw [h.addr_detach hq hnode hzero] at hp
  split at hp
  · cases hp
  next hpn =>
    by_cases hi : i = parent
    · subst hi
      exact .inl ⟨h.tree_inj hp hq, rfl⟩
    · refine .inr ⟨hp, ?_, hpn, hi, ?_⟩
      · rintro rfl
        rw [hq] at hp
        exact hi (Option.some.inj hp).symm
      · rintro rfl
        exact hpn (h.tree_inj hp hnode)

theorem TrieInv.detach : TrieInv (detach t node parent nib) q := by
  have hne := h.parent_ne_node hq hnode
  have hedge : edge t parent nib = some node := (addr_concat hq nib).symm.trans hnode
  have haddr := h.addr_detach hq hnode hzero
  have hcases := fun {p i} => h.detach_cases (p := p) (i := i) hq hnode hzero
  refine ⟨tree_prune h.tree haddr, ?_, ?_, ?_, ?_, ?_, ?_, ?_, ?_⟩
  · intro p i hp
    rcases hcases hp with ⟨rfl, -⟩ | ⟨hp, -⟩
    · exact h.depth hq
    · exact h.depth hp
  · intro p i hp
    rcases hcases hp with ⟨-, rfl⟩ | ⟨hp, -⟩
    · exact h.bound hq
    · exact h.bound hp
  · intro p i hp
    rcases hcases hp with ⟨-, rfl⟩ | ⟨hp, -, -, hi, hn⟩
    · rw [nodes_detach_parent hne]
      exact nodeOk_vpNodeUnset (h.nodeOk hq) hedge
    · rw [nodes_detach_other hi hn]
      exact h.nodeOk hp
  · intro p i hp hnil hhole
    rcases hcases hp with ⟨hpq, -⟩ | ⟨hp, -, hpn, hi, hn⟩
    · exact absurd hpq hhole
    · rw [nodes_detach_other hi hn]
      exact h.full hp hnil hpn
  · intro p i hp hentry
    rcases hcases hp with ⟨rfl, rfl⟩ | ⟨hp, -, -, hi, hn⟩
    · rw [nodes_detach_parent hne, Node.entry, payload_vpNodeUnset] at hentry
      exact h.leaf hq hentry
    · rw [nodes_detach_other hi hn] at hentry
      exact h.leaf hp hentry
  · rw [freeList_detach, List.nodup_append]
    refine ⟨h.nodup, List.nodup_singleton node, fun a ha b hb => ?_⟩
    rintro rfl
    rw [List.mem_singleton.mp hb] at ha
    exact ((h.free node).mp ha).2 _ hnode
  · intro i
    rw [freeList_detach, List.mem_append, List.mem_singleton, h.free]
    constructor
    · rintro (⟨hi, hun⟩ | rfl)
      · refine ⟨hi, fun p hp => ?_⟩
        rcases hcases hp with ⟨-, rfl⟩ | ⟨hp, -⟩
        · exact hun q hq
        · exact hun p hp
      · refine ⟨h.bound hnode, fun p hp => ?_⟩
        rcases hcases hp with ⟨-, hi⟩ | ⟨-, -, -, -, hn⟩
        · exact hne hi.symm
        · exact hn rfl
    · rintro ⟨hi, hun⟩
      by_cases hin : i = node
      · exact .inr hin
      · refine .inl ⟨hi, fun p hp => hun p ?_⟩
        rw [haddr, if_neg ?_, hp]
        rintro rfl
        rw [hnode] at hp
        exact hin (Option.some.inj hp).symm
  · show (if t.nodeCount > 0 then t.nodeCount - 1 else t.nodeCount) + (t.freeTop + 1) = maxNodes
    have hpos := h.nodeCount_pos
    have hcount := h.count
    rw [if_pos hpos]
    omega

theorem TrieInv.payloadAt_detach (hentry : (t.nodes node).entry = none) (p : List Nat) :
    payloadAt (Vipm.detach t node parent nib) p = payloadAt t p := by
  have hne := h.parent_ne_node hq hnode
  unfold payloadAt
  cases hp : addr (Vipm.detach t node parent nib) p with
  | none =>
    rw [h.addr_detach hq hnode hzero] at hp
    split at hp
    next hpn =>
      rw [hpn, hnode]
      exact hentry.symm
    · rw [hp]
      rfl
  | some i =>
    rcases h.detach_cases hq hnode hzero hp with ⟨rfl, rfl⟩ | ⟨hp, -, -, hi, hn⟩
    · rw [hq]
      show ((Vipm.detach t node i nib).nodes i).entry = (t.nodes i).entry
      rw [nodes_detach_parent hne, Node.entry, payload_vpNodeUnset]
      rfl
    · rw [hp]
      show ((Vipm.detach t node parent nib).nodes i).entry = (t.nodes i).entry
      rw [nodes_detach_other hi hn]

end Detach

/-! ## The loops -/

/-- The parents along a path, the lowest first. -/
def Parents (t : Trie) : List Nat → List (Nat × Nat) → Prop
  | q, [] => q = []
  | q, (i, nib) :: rest => ∃ q', q = q' ++ [nib] ∧ addr t q' = some i ∧ Parents t q' rest

theorem Parents.congr {parents : List (Nat × Nat)} (h : Parents t q parents)
    (haddr : ∀ p : List Nat, p.length < q.length → addr t' p = addr t p) : Parents t' q parents := by
  induction parents generalizing q with
  | nil => exact h
  | cons entry rest ih =>
    obtain ⟨q', rfl, hq', hrest⟩ := h
    rw [List.length_append, List.length_singleton] at haddr
    refine ⟨q', rfl, ?_, ih hrest fun p hp => haddr p (by omega)⟩
    rw [haddr q' (by omega), hq']

theorem TrieInv.parentsLoop_spec (h : TrieInv t hole) (hq : addr t q = some i)
    (parents : List (Nat × Nat)) (hparents : Parents t q parents) (nibs : List Nat) :
    (parentsLoop t i parents nibs = none ∧ addr t (q ++ nibs) = none) ∨
      ∃ j parents', parentsLoop t i parents nibs = some (j, parents') ∧
        addr t (q ++ nibs) = some j ∧ Parents t (q ++ nibs) parents' := by
  induction nibs generalizing q i parents with
  | nil =>
    rw [List.append_nil]
    exact .inr ⟨i, parents, rfl, hq, hparents⟩
  | cons nib nibs ih =>
    rw [parentsLoop]
    rcases h.step hq nib nibs with ⟨hnull, -, hnone⟩ | ⟨hsome, -, hnext⟩
    · rw [if_pos hnull]
      exact .inl ⟨rfl, hnone⟩
    · rw [if_neg hsome, List.append_cons]
      exact ih hnext _ ⟨q, rfl, hq, hparents⟩

theorem TrieInv.pruneLoop_spec (h : TrieInv t q) (hq : addr t q = some i)
    (parents : List (Nat × Nat)) (hparents : Parents t q parents) :
    TrieInv (pruneLoop t i parents) [] ∧
      ∀ p, payloadAt (pruneLoop t i parents) p = payloadAt t p := by
  induction parents generalizing t q i with
  | nil =>
    obtain rfl : q = [] := hparents
    exact ⟨h, fun _ => rfl⟩
  | cons entry rest ih =>
    obtain ⟨parent, nib⟩ := entry
    obtain ⟨q', rfl, hparent, hrest⟩ := hparents
    rw [pruneLoop, pruneNode]
    split
    next hempty =>
      obtain ⟨hzero, hpayload⟩ := hempty
      have haddr := h.addr_detach hparent hq hzero
      have hkeep : ∀ p : List Nat, p.length ≤ q'.length →
          addr (Vipm.detach t i parent nib) p = addr t p := by
        intro p hp
        rw [haddr, if_neg ?_]
        rintro rfl
        rw [List.length_append, List.length_singleton] at hp
        omega
      have hup : addr (Vipm.detach t i parent nib) q' = some parent := by
        rw [hkeep q' (Nat.le_refl _), hparent]
      obtain ⟨hinv, hpay⟩ := ih (h.detach hparent hq hzero) hup
        (hrest.congr fun p hp => hkeep p (Nat.le_of_lt hp))
      refine ⟨hinv, fun p => (hpay p).trans ?_⟩
      exact h.payloadAt_detach hparent hq hzero (entry_eq_none_iff.mpr hpayload) p
    next hfull =>
      refine ih (h.fill hq ?_ q') hparent hrest
      by_cases hzero : (t.nodes i).childBitmap = 0
      · exact .inr fun hentry => hfull ⟨hzero, entry_eq_none_iff.mp hentry⟩
      · exact .inl hzero

/-! ## The whole call -/

theorem TrieInv.removeTrie_spec (h : TrieInv t []) (key : Nat) :
    (payloadAt t (nibblesOf key) = none ∧ removeTrie t key = (.errNotFound, t)) ∨
      (payloadAt t (nibblesOf key) ≠ none ∧ ∃ t', removeTrie t key = (.ok, t') ∧ TrieInv t' [] ∧
        ∀ p, payloadAt t' p = if p = nibblesOf key then none else payloadAt t p) := by
  unfold removeTrie
  rcases h.parentsLoop_spec (addr_nil t) [] rfl (nibblesOf key) with
    ⟨hloop, haddr⟩ | ⟨i, parents, hloop, haddr, hparents⟩
  · rw [List.nil_append] at haddr
    rw [hloop, payloadAt, haddr]
    exact .inl ⟨rfl, rfl⟩
  · rw [List.nil_append] at haddr hparents
    rw [hloop, payloadAt, haddr]
    show ((t.nodes i).entry = none ∧ _) ∨ ((t.nodes i).entry ≠ none ∧ _)
    rw [ne_eq, entry_eq_none_iff]
    by_cases hpayload : (t.nodes i).payload = nullPayload
    · exact .inl ⟨hpayload, by simp only [if_pos hpayload]⟩
    · refine .inr ⟨hpayload, ?_⟩
      have hinv := (h.of_nil (nibblesOf key)).setPayload haddr (length_nibblesOf key) nullPayload
      obtain ⟨hinv', hpay⟩ := hinv.pruneLoop_spec (i := i)
        (by rw [addr_setPayload, haddr]) parents (hparents.congr fun p _ => addr_setPayload ..)
      refine ⟨_, by simp only [if_neg hpayload]; rfl, hinv', fun p => ?_⟩
      rw [hpay, h.payloadAt_setPayload haddr, if_pos rfl]

end Vipm
