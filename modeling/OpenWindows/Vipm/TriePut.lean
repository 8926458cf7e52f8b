import OpenWindows.Vipm.Trie

/-!
# Putting a mapping

The second loop of `vipm_mapping_put` hangs one free node after the other below the
path.  No payload changes on the way, and the nodes counted before are enough.
-/

namespace Vipm

open Sparse Walk

variable {t : Trie} {p q hole : List Nat} {i j cur nib nn : Nat}

/-! ## One node -/

/-- A free node is hung below a node. -/
def attach (t : Trie) (cur nib nn : Nat) : Trie :=
  let t := { t with freeTop := t.freeTop - 1 }
  let t := t.setNode nn Node.empty
  let t := t.setNode cur (vpNodeSet (t.nodes cur) nib nn)
  { t with nodeCount := t.nodeCount + 1 }

theorem freeList_attach (hfree : 0 < t.freeTop) (cur nib nn : Nat) :
    freeList t = freeList (attach t cur nib nn) ++ [t.freeStack (t.freeTop - 1)] := by
  obtain ⟨k, hk⟩ : ∃ k, t.freeTop = k + 1 := ⟨t.freeTop - 1, by omega⟩
  show (List.range t.freeTop).map t.freeStack = (List.range (t.freeTop - 1)).map t.freeStack ++ _
  rw [hk, List.range_succ, List.map_append]
  rfl

theorem TrieInv.addr_attach (h : TrieInv t q) (hq : addr t q = some cur) (hnib : nib < 16)
    (hnone : edge t cur nib = none) (hnn : ∀ p, addr t p ≠ some nn) (p : List Nat) :
    addr (attach t cur nib nn) p = if p = q ++ [nib] then some nn else addr t p := by
  have hne : cur ≠ nn := by
    rintro rfl
    exact hnn q hq
  refine walk_hang h.tree hq hnone hnn (fun b => ?_) (fun b => ?_) (fun k hk hkn => ?_) p
  · show child ((attach t cur nib nn).nodes cur) b = _
    simp only [attach, Trie.setNode, Function.update_self, Function.update_of_ne hne]
    exact child_vpNodeSet (h.nodeOk hq) hnib hnone nn b
  · show child ((attach t cur nib nn).nodes nn) b = _
    simp only [attach, Trie.setNode, Function.update_of_ne hne.symm, Function.update_self]
    exact child_empty b
  · funext b
    show child ((attach t cur nib nn).nodes k) b = _
    simp only [attach, Trie.setNode, Function.update_of_ne hk, Function.update_of_ne hkn]
    rfl

theorem nodes_attach_cur (h : cur ≠ nn) :
    (attach t cur nib nn).nodes cur = vpNodeSet (t.nodes cur) nib nn := by
  simp [attach, Trie.setNode, Function.update_of_ne h]

theorem nodes_attach_new (h : cur ≠ nn) : (attach t cur nib nn).nodes nn = Node.empty := by
  simp [attach, Trie.setNode, Function.update_of_ne h.symm]

theorem nodes_attach_other (hi : i ≠ cur) (hn : i ≠ nn) :
    (attach t cur nib nn).nodes i = t.nodes i := by
  simp [attach, Trie.setNode, Function.update_of_ne hi, Function.update_of_ne hn]

theorem TrieInv.attach_cases (h : TrieInv t q) (hq : addr t q = some cur) (hnib : nib < 16)
    (hnone : edge t cur nib = none) (hnn : ∀ p, addr t p ≠ some nn)
    (hp : addr (attach t cur nib nn) p = some i) :
    (p = q ++ [nib] ∧ i = nn) ∨ (p = q ∧ i = cur) ∨
      (addr t p = some i ∧ p ≠ q ∧ i ≠ cur ∧ i ≠ nn) := by
  rw [h.addr_attach hq hnib hnone hnn] at hp
  split at hp
  next hpq =>
    cases hp
    exact .inl ⟨hpq, rfl⟩
  · by_cases hi : i = cur
    · subst hi
      exact .inr (.inl ⟨h.tree_inj hp hq, rfl⟩)
    · refine .inr (.inr ⟨hp, ?_, hi, ?_⟩)
      · rintro rfl
        rw [hq] at hp
        exact hi (Option.some.inj hp).symm
      · rintro rfl
        exact hnn p hp

theorem mem_freeList_top (hfree : 0 < t.freeTop) : t.freeStack (t.freeTop - 1) ∈ freeList t :=
  List.mem_map.mpr ⟨t.freeTop - 1, List.mem_range.mpr (by omega), rfl⟩

theorem TrieInv.free_attach (h : TrieInv t q) (hq : addr t q = some cur) (hnib : nib < 16)
    (hnone : edge t cur nib = none) (hfree : 0 < t.freeTop)
    (hnn : nn = t.freeStack (t.freeTop - 1)) :
    (freeList (Vipm.attach t cur nib nn)).Nodup ∧
      ∀ i, i ∈ freeList (Vipm.attach t cur nib nn) ↔
        i < maxNodes ∧ ∀ p, addr (Vipm.attach t cur nib nn) p ≠ some i := by
  have haddr := h.addr_attach hq hnib hnone ((h.free nn).mp (hnn ▸ mem_freeList_top hfree)).2
  have hlist := freeList_attach hfree cur nib nn
  rw [← hnn] at hlist
  have hnodup := h.nodup
  rw [hlist, List.nodup_append] at hnodup
  refine ⟨hnodup.1, fun i => ?_⟩
  have hold := h.free i
  rw [hlist, List.mem_append, List.mem_singleton] at hold
  constructor
  · intro hi
    obtain ⟨hlt, hun⟩ := hold.mp (.inl hi)
    refine ⟨hlt, fun p hp => ?_⟩
    rw [haddr] at hp
    split at hp
    · cases hp
      exact hnodup.2.2 _ hi _ (List.mem_singleton.mpr rfl) rfl
    · exact hun p hp
  · rintro ⟨hlt, hun⟩
    have hnew : i ≠ nn := by
      rintro rfl
      exact hun (q ++ [nib]) (by rw [haddr, if_pos rfl])
    refine (hold.mpr ⟨hlt, fun p hp => hun p ?_⟩).resolve_right hnew
    rw [haddr, if_neg ?_, hp]
    rintro rfl
    rw [addr_concat hq, hnone] at hp
    cases hp

theorem TrieInv.attach (h : TrieInv t q) (hq : addr t q = some cur) (hlen : q.length < keyNibbles)
    (hnib : nib < 16) (hnone : edge t cur nib = none) (hfree : 0 < t.freeTop)
    (hnn : nn = t.freeStack (t.freeTop - 1)) : TrieInv (attach t cur nib nn) (q ++ [nib]) := by
  obtain ⟨hbound, hfresh⟩ := (h.free nn).mp (hnn ▸ mem_freeList_top hfree)
  have hne : cur ≠ nn := fun hc => hfresh q (hc ▸ hq)
  have haddr := h.addr_attach hq hnib hnone hfresh
  have hcases := fun {p i} => h.attach_cases (p := p) (i := i) hq hnib hnone hfresh
  obtain ⟨hnodup, hmem⟩ := h.free_attach hq hnib hnone hfree hnn
  refine ⟨tree_hang h.tree hfresh haddr, ?_, ?_, ?_, ?_, ?_, hnodup, hmem, ?_⟩
  · intro p i hp
    rcases hcases hp with ⟨rfl, -⟩ | ⟨rfl, -⟩ | ⟨hp, -⟩
    · rw [List.length_append, List.length_singleton]
      exact hlen
    · exact Nat.le_of_lt hlen
    · exact h.depth hp
  · intro p i hp
    rcases hcases hp with ⟨-, rfl⟩ | ⟨-, rfl⟩ | ⟨hp, -⟩
    · exact hbound
    · exact h.bound hq
    · exact h.bound hp
  · intro p i hp
    rcases hcases hp with ⟨-, rfl⟩ | ⟨-, rfl⟩ | ⟨hp, -, hi, hn⟩
    · rw [nodes_attach_new hne]
      exact nodeOk_empty
    · rw [nodes_attach_cur hne]
      exact nodeOk_vpNodeSet (h.nodeOk hq) hnib hnone (ne_nullIndex_of_lt hbound)
    · rw [nodes_attach_other hi hn]
      exact h.nodeOk hp
  · intro p i hp hne' hhole
    rcases hcases hp with ⟨hp, -⟩ | ⟨-, rfl⟩ | ⟨hp, hpq, hi, hn⟩
    · exact absurd hp hhole
    · -- the node has the new child
      rw [nodes_attach_cur hne]
      refine .inl fun hzero => ?_
      have hchild := childBitmap_eq_zero_iff.mp hzero nib
      rw [child_vpNodeSet (h.nodeOk hq) hnib hnone, if_pos rfl] at hchild
      cases hchild
    · rw [nodes_attach_other hi hn]
      exact h.full hp hne' hpq
  · intro p i hp hentry
    rcases hcases hp with ⟨-, rfl⟩ | ⟨rfl, rfl⟩ | ⟨hp, -, hi, hn⟩
    · rw [nodes_attach_new hne] at hentry
      exact absurd rfl hentry
    · rw [nodes_attach_cur hne, Node.entry, payload_vpNodeSet] at hentry
      exact h.leaf hq hentry
    · rw [nodes_attach_other hi hn] at hentry
      exact h.leaf hp hentry
  · show t.nodeCount + 1 + (t.freeTop - 1) = maxNodes
    have := h.count
    omega

theorem TrieInv.payloadAt_attach (h : TrieInv t q) (hq : addr t q = some cur) (hnib : nib < 16)
    (hnone : edge t cur nib = none) (hfresh : ∀ p, addr t p ≠ some nn) (p : List Nat) :
    payloadAt (Vipm.attach t cur nib nn) p = payloadAt t p := by
  have hne : cur ≠ nn := fun hc => hfresh q (hc ▸ hq)
  unfold payloadAt
  cases hp : addr (Vipm.attach t cur nib nn) p with
  | none =>
    rw [h.addr_attach hq hnib hnone hfresh] at hp
    split at hp
    · cases hp
    · rw [hp]; rfl
  | some i =>
    rcases h.attach_cases hq hnib hnone hfresh hp with ⟨rfl, rfl⟩ | ⟨rfl, rfl⟩ | ⟨hp, -, hi, hn⟩
    · rw [addr_concat hq, hnone]
      show ((Vipm.attach t cur nib i).nodes i).entry = none
      rw [nodes_attach_new hne]
      rfl
    · rw [hq]
      show ((Vipm.attach t i nib nn).nodes i).entry = (t.nodes i).entry
      rw [nodes_attach_cur hne, Node.entry, payload_vpNodeSet]
      rfl
    · rw [hp]
      show ((Vipm.attach t cur nib nn).nodes i).entry = (t.nodes i).entry
      rw [nodes_attach_other hi hn]

/-! ## The loop -/

theorem missingNodes_le (t : Trie) (cur : Nat) (nibs : List Nat) :
    missingNodes t cur nibs ≤ nibs.length := by
  induction nibs generalizing cur with
  | nil => exact Nat.le_refl _
  | cons nib nibs ih =>
    rw [missingNodes]
    split
    · exact Nat.le_refl _
    · exact Nat.le_succ_of_le (ih _)

theorem putLoop_attach (hfree : 0 < t.freeTop) (hnull : vpNodeGet (t.nodes cur) nib = nullIndex)
    (hnn : nn = t.freeStack (t.freeTop - 1)) (hne : nn ≠ nullIndex) (nibs : List Nat) :
    putLoop t cur (nib :: nibs) = putLoop (attach t cur nib nn) nn nibs := by
  subst hnn
  rw [putLoop]
  simp only [if_pos hnull, vpNodeAlloc, if_neg (Nat.ne_of_gt hfree), if_neg hne]
  rfl

theorem TrieInv.putLoop_spec (h : TrieInv t q) (hq : addr t q = some cur) {nibs : List Nat}
    (hnibs : ∀ nib ∈ nibs, nib < 16) (hlen : q.length + nibs.length ≤ keyNibbles)
    (hmissing : missingNodes t cur nibs ≤ t.freeTop) :
    ∃ i t', putLoop t cur nibs = (some i, t') ∧ TrieInv t' (q ++ nibs) ∧
      addr t' (q ++ nibs) = some i ∧ ∀ p, payloadAt t' p = payloadAt t p := by
  induction nibs generalizing t q cur with
  | nil =>
    rw [List.append_nil]
    exact ⟨cur, t, rfl, h, hq, fun _ => rfl⟩
  | cons nib nibs ih =>
    rw [List.append_cons]
    have hnib : nib < 16 := hnibs nib List.mem_cons_self
    have hrest : ∀ m ∈ nibs, m < 16 := fun m hm => hnibs m (List.mem_cons_of_mem _ hm)
    rw [List.length_cons] at hlen
    have hlen' : (q ++ [nib]).length + nibs.length ≤ keyNibbles := by
      rw [List.length_append, List.length_singleton]
      omega
    rw [missingNodes] at hmissing
    rcases h.step hq nib nibs with ⟨hnull, hnone, -⟩ | ⟨hsome, hedge, hnext⟩
    · rw [if_pos hnull, List.length_cons] at hmissing
      have hfree : 0 < t.freeTop := by omega
      obtain ⟨nn, hnn⟩ : ∃ nn, nn = t.freeStack (t.freeTop - 1) := ⟨_, rfl⟩
      obtain ⟨hbound, hfresh⟩ := (h.free nn).mp (hnn ▸ mem_freeList_top hfree)
      have hinv := h.attach hq (by omega) hnib hnone hfree hnn
      have haddr : addr (Vipm.attach t cur nib nn) (q ++ [nib]) = some nn := by
        rw [h.addr_attach hq hnib hnone hfresh, if_pos rfl]
      have hcount : missingNodes (Vipm.attach t cur nib nn) nn nibs ≤
          (Vipm.attach t cur nib nn).freeTop := by
        have hle := missingNodes_le (Vipm.attach t cur nib nn) nn nibs
        show _ ≤ t.freeTop - 1
        omega
      obtain ⟨i, t', hloop, hinv', haddr', hpay⟩ := ih hinv haddr hrest hlen' hcount
      rw [putLoop_attach hfree hnull hnn (ne_nullIndex_of_lt hbound)]
      refine ⟨i, t', hloop, hinv', haddr', fun p => ?_⟩
      rw [hpay, h.payloadAt_attach hq hnib hnone hfresh]
    · rw [if_neg hsome] at hmissing
      have hfull : (t.nodes cur).childBitmap ≠ 0 := by
        intro hzero
        have hchild := childBitmap_eq_zero_iff.mp hzero nib
        rw [show edge t cur nib = none from hchild] at hedge
        cases hedge
      rw [putLoop, if_neg hsome]
      exact ih (h.fill hq (.inl hfull) _) hnext hrest hlen' hmissing

/-! ## The whole call -/

theorem TrieInv.putTrie_spec (h : TrieInv t []) (key : Nat) {e : Nat} (he : e ≠ nullPayload) :
    putTrie t key e = (.banPoolExhausted, t) ∨
      ∃ t', putTrie t key e =
          (if payloadAt t (nibblesOf key) ≠ none then .errDuplicateMapping else .ok, t') ∧
        TrieInv t' [] ∧
        ∀ p, payloadAt t' p = if p = nibblesOf key then some e else payloadAt t p := by
  unfold putTrie
  split
  · exact .inl rfl
  next hmissing =>
    obtain ⟨i, t', hloop, hinv, haddr, hpay⟩ :=
      h.putLoop_spec (addr_nil t) nibblesOf_lt
        (by rw [length_nibblesOf, List.length_nil, Nat.zero_add]) (Nat.le_of_not_lt hmissing)
    rw [List.nil_append] at hinv haddr
    rw [hloop]
    refine .inr ⟨t'.setPayload i e, ?_, ?_, fun p => ?_⟩
    · have hhad : (t'.nodes i).payload ≠ nullPayload ↔ payloadAt t (nibblesOf key) ≠ none := by
        rw [← hpay, payloadAt, haddr]
        exact not_congr entry_eq_none_iff.symm
      simp only [hhad]
      rfl
    · refine (hinv.setPayload haddr (length_nibblesOf key) e).fill (i := i) ?_ (.inr ?_) []
      · rw [addr_setPayload, haddr]
      · rw [nodes_setPayload_self, entry_payload, if_neg he]
        exact Option.some_ne_none e
    · rw [hinv.payloadAt_setPayload haddr, hpay, if_neg he]

end Vipm
