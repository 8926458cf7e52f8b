import OpenWindows.Vipm.Mapping

/-!
# The integrity walk

A manager is *coherent* when its trie is well formed and maps exactly the keys of the
occupied entries to their slots.  `vipm_integrity_verify` (`vipm.c`) accepts every
coherent manager: the walk over the nodes sees each node that is reached once, and
each loop after it finds what the invariant says.
-/

namespace Vipm

open Sparse Walk

def Entry.key (e : Entry) : UInt64 := vipmKeyMake e.volumeId e.byteOffset

def place (key : UInt64) : List Nat := nibblesOf key.toNat

/-- The trie, the path table and the volume registry agree. -/
structure Coherent (m : Manager) : Prop where
  initialized : m.initialized = true
  trie : TrieInv m.trie []
  mapped : ∀ i < maxEntries, (m.entries i).occupied = true →
    payloadAt m.trie (place (m.entries i).key) = some i
  hashed : ∀ i < maxEntries, (m.entries i).occupied = true →
    (m.entries i).pathHash = vpFnv1a64 (m.entries i).path
  entryVolume : ∀ i < maxEntries, (m.entries i).occupied = true →
    (m.entries i).volumeId.toNat < maxVolumes
  payload : ∀ {p e}, payloadAt m.trie p = some e →
    e < maxEntries ∧ (m.entries e).occupied = true ∧ p = place (m.entries e).key
  count : m.entryCount.toNat = (List.range maxEntries).countP fun i => (m.entries i).occupied
  volumeBound : ∀ i < maxVolumes, (m.volumes i).registered = true →
    (m.volumes i).volumeId.toNat < maxVolumes
  volumesDistinct : ∀ i < maxVolumes, ∀ j < maxVolumes, (m.volumes i).registered = true →
    (m.volumes j).registered = true → (m.volumes i).volumeId = (m.volumes j).volumeId → i = j

variable {m : Manager}

/-! ## Keys -/

/-- The volume stands above the low forty bits of the offset. -/
theorem toNat_vipmKeyMake (v : UInt8) (o : UInt64) :
    (vipmKeyMake v o).toNat = v.toNat % 2 ^ 4 * 2 ^ 40 + o.toNat % 2 ^ 40 := by
  have hv : (v &&& 0x0F).toNat = v.toNat % 2 ^ 4 := by
    rw [UInt8.toNat_and]
    exact Nat.and_two_pow_sub_one_eq_mod v.toNat 4
  have ho : (o &&& 0x000000FFFFFFFFFF).toNat = o.toNat % 2 ^ 40 := by
    rw [UInt64.toNat_and]
    exact Nat.and_two_pow_sub_one_eq_mod o.toNat 40
  have htop : ((v &&& 0x0F).toUInt64 <<< 40).toNat = v.toNat % 2 ^ 4 * 2 ^ 40 := by
    rw [UInt64.toNat_shiftLeft, UInt8.toNat_toUInt64, hv, Nat.shiftLeft_eq]
    refine Nat.mod_eq_of_lt ?_
    have hlt := Nat.mod_lt v.toNat (Nat.two_pow_pos 4)
    show v.toNat % 2 ^ 4 * 2 ^ 40 < 2 ^ 64
    omega
  simp only [vipmKeyMake]
  rw [UInt64.toNat_or, htop, ho, Nat.mul_comm,
    Nat.two_pow_add_eq_or_of_lt (Nat.mod_lt _ (Nat.two_pow_pos 40))]

theorem vipmKeyMake_lt (v : UInt8) (o : UInt64) : (vipmKeyMake v o).toNat < 2 ^ 44 := by
  rw [toNat_vipmKeyMake]
  omega

theorem vipmKeyMake_eq_iff {v v' : UInt8} {o o' : UInt64} (hv : v.toNat < maxVolumes)
    (hv' : v'.toNat < maxVolumes) :
    vipmKeyMake v o = vipmKeyMake v' o' ↔ v = v' ∧ o.toNat % 2 ^ 40 = o'.toNat % 2 ^ 40 := by
  unfold maxVolumes at hv hv'
  rw [← UInt64.toNat_inj, toNat_vipmKeyMake, toNat_vipmKeyMake, ← UInt8.toNat_inj]
  omega

theorem place_eq_iff {v v' : UInt8} {o o' : UInt64} :
    place (vipmKeyMake v o) = place (vipmKeyMake v' o') ↔ vipmKeyMake v o = vipmKeyMake v' o' := by
  constructor
  · intro h
    exact UInt64.toNat.inj (nibblesOf_injective (vipmKeyMake_lt v o) (vipmKeyMake_lt v' o') h)
  · intro h
    rw [h]

theorem TrieInv.find_key {t : Trie} (h : TrieInv t []) (v : UInt8) (o : UInt64) {i : Nat}
    (hi : payloadAt t (place (vipmKeyMake v o)) = some i) :
    vpTrieFind t (vipmKeyMake v o).toNat = .ok i := by
  rw [h.vpTrieFind_eq (vipmKeyMake_lt v o), show Vipm.mapped t (vipmKeyMake v o) = some i from hi]

/-! ## The loops of the walk -/

theorem verifyChildren_eq {n : Node} (hn : NodeOk n) (nbs : List Nat) (visited : Nat → Bool)
    (stack : List Nat) (hbound : ∀ j ∈ nbs.filterMap (child n), j < maxNodes)
    (hfresh : ∀ j ∈ nbs.filterMap (child n), visited j = false)
    (hnodup : (nbs.filterMap (child n)).Nodup)
    (hroom : stack.length + (nbs.filterMap (child n)).length ≤ maxNodes) :
    ∃ visited', verifyChildren n nbs visited stack =
        .ok (visited', (nbs.filterMap (child n)).reverse ++ stack) ∧
      ∀ i, visited' i = true ↔ visited i = true ∨ i ∈ nbs.filterMap (child n) := by
  induction nbs generalizing visited stack with
  | nil => exact ⟨visited, rfl, fun i => by simp⟩
  | cons nb nbs ih =>
    rw [verifyChildren]
    cases hc : child n nb with
    | none =>
      rw [List.filterMap_cons_none hc] at hbound hfresh hnodup hroom ⊢
      rw [if_pos ((and_bit_eq_zero_iff _ _).mpr (child_eq_none_iff.mp hc))]
      exact ih visited stack hbound hfresh hnodup hroom
    | some j =>
      rw [List.filterMap_cons_some hc] at hbound hfresh hnodup hroom ⊢
      have hbit : ¬ n.childBitmap &&& 1 <<< nb = 0 := by
        rw [and_bit_eq_zero_iff]
        simp [testBit_of_child hc]
      have hget : vpNodeGet n nb = j := by rw [vpNodeGet_eq hn, hc]; rfl
      have hj := hbound j List.mem_cons_self
      rw [List.length_cons] at hroom
      simp only [if_neg hbit, hget]
      rw [if_neg (by simp [ne_nullIndex_of_lt hj, hj]),
        if_neg (by simp [hfresh j List.mem_cons_self]), if_neg (by omega)]
      have hrest : ∀ k ∈ nbs.filterMap (child n), Function.update visited j true k = false := by
        intro k hk
        rw [Function.update_of_ne (by rintro rfl; exact (List.nodup_cons.mp hnodup).1 hk)]
        exact hfresh k (List.mem_cons_of_mem _ hk)
      obtain ⟨visited', hloop, hvisited⟩ := ih (Function.update visited j true) (j :: stack)
        (fun k hk => hbound k (List.mem_cons_of_mem _ hk)) hrest (List.nodup_cons.mp hnodup).2
        (by rw [List.length_cons]; omega)
      refine ⟨visited', ?_, fun i => ?_⟩
      · rw [hloop, List.reverse_cons, List.append_assoc]
        rfl
      · rw [hvisited, List.mem_cons]
        by_cases hi : i = j
        · simp [hi]
        · simp [hi]

theorem length_le_maxNodes {l : List Nat} (hnodup : l.Nodup) (hbound : ∀ i ∈ l, i < maxNodes) :
    l.length ≤ maxNodes := by
  have hsub : l.toFinset ⊆ Finset.range maxNodes := by
    intro i hi
    exact Finset.mem_range.mpr (hbound i (List.mem_toFinset.mp hi))
  have hcard := Finset.card_le_card hsub
  rwa [List.toFinset_card_of_nodup hnodup, Finset.card_range] at hcard

theorem Coherent.verifyPayload_eq (h : Coherent m) {p : List Nat} {i : Nat}
    (hp : addr m.trie p = some i) : verifyPayload m (m.trie.nodes i) = .ok () := by
  unfold verifyPayload
  split
  · rfl
  next hnull =>
    have hpay : payloadAt m.trie p = some (m.trie.nodes i).payload := by
      unfold payloadAt
      rw [hp]
      exact if_neg hnull
    obtain ⟨hlt, hocc, -⟩ := h.payload hpay
    rw [if_neg (Nat.not_le_of_lt hlt)]
    simp [hocc, vipmKeyValid_iff.mpr (vipmKeyMake_lt _ _), h.hashed _ hlt hocc]

theorem Coherent.verifyNodes_done (h : Coherent m) {done : List Nat}
    (hexp : Explored (edge m.trie) m.trie.root done []) :
    done.length = m.trie.nodeCount ∧ ∀ i, i ∈ done ↔ i ∈ reachable m.trie := by
  have hnodup := hexp.nodup
  rw [List.append_nil] at hnodup
  have hset : reachable m.trie = ↑done.toFinset := by
    ext i
    rw [Finset.mem_coe, List.mem_toFinset, hexp.complete i]
    rfl
  refine ⟨?_, hexp.complete⟩
  rw [← h.trie.ncard_reachable, hset, Set.ncard_coe_finset, List.toFinset_card_of_nodup hnodup]

theorem Coherent.length_explored (h : Coherent m) {done stack : List Nat}
    (hexp : Explored (edge m.trie) m.trie.root done stack) :
    done.length + stack.length ≤ maxNodes := by
  rw [← List.length_append]
  refine length_le_maxNodes hexp.nodup fun i hi => ?_
  obtain ⟨p, hp⟩ := hexp.reached i hi
  exact h.trie.bound hp

theorem Coherent.verifyNodes_step (h : Coherent m) (rounds : Nat) {visited : Nat → Bool} {cur : Nat}
    {done stack : List Nat} (hexp : Explored (edge m.trie) m.trie.root done (cur :: stack))
    (hvisited : ∀ i, visited i = true ↔ i ∈ done ++ cur :: stack) (reachable : Nat) :
    ∃ visited' stack', verifyNodes m (rounds + 1) visited (cur :: stack) reachable =
        verifyNodes m rounds visited' stack' (reachable + 1) ∧
      Explored (edge m.trie) m.trie.root (cur :: done) stack' ∧
      ∀ i, visited' i = true ↔ i ∈ cur :: done ++ stack' := by
  have hcur : cur ∈ done ++ cur :: stack := List.mem_append_right _ List.mem_cons_self
  obtain ⟨p, hp⟩ := hexp.reached cur hcur
  have hok := h.trie.nodeOk hp
  have hstep := hexp.step h.trie.tree (List.nodup_range (n := 16)) fun a j hj =>
    List.mem_range.mpr (hok.lt_of_child hj)
  have hkid : ∀ j ∈ kids (edge m.trie) (List.range 16) cur, ∃ a, edge m.trie cur a = some j := by
    intro j hj
    obtain ⟨a, -, ha⟩ := mem_kids.mp hj
    exact ⟨a, ha⟩
  have hbound : ∀ j ∈ kids (edge m.trie) (List.range 16) cur, j < maxNodes := by
    intro j hj
    obtain ⟨a, ha⟩ := hkid j hj
    exact h.trie.bound ((addr_concat hp a).trans ha)
  have hfresh : ∀ j ∈ kids (edge m.trie) (List.range 16) cur, visited j = false := by
    intro j hj
    obtain ⟨a, ha⟩ := hkid j hj
    exact Bool.eq_false_iff.mpr fun hv => hexp.fresh h.trie.tree ha ((hvisited j).mp hv)
  have hroom : stack.length + (kids (edge m.trie) (List.range 16) cur).length ≤ maxNodes := by
    have hlength := h.length_explored hstep
    rw [List.length_cons, List.length_append, List.length_reverse] at hlength
    omega
  obtain ⟨visited', hchildren, hvisited'⟩ := verifyChildren_eq hok (List.range 16) visited stack
    hbound hfresh (nodup_kids h.trie.tree hp List.nodup_range) hroom
  have hpop : ¬ vpPopcount16 (m.trie.nodes cur).childBitmap > 16 := by
    rw [vpPopcount16_eq hok.bitmap]
    exact Nat.not_lt_of_le (rank_le _ 16)
  refine ⟨visited', _, ?_, hstep, fun i => ?_⟩
  · rw [verifyNodes]
    simp only [if_neg hpop, hchildren, h.verifyPayload_eq hp]
    rfl
  · rw [hvisited', hvisited]
    show i ∈ done ++ cur :: stack ∨ i ∈ kids (edge m.trie) (List.range 16) cur ↔ _
    simp only [List.cons_append, List.mem_cons, List.mem_append, List.mem_reverse]
    tauto

theorem Coherent.verifyNodes_eq (h : Coherent m) (rounds : Nat) (visited : Nat → Bool)
    (done stack : List Nat) (hexp : Explored (edge m.trie) m.trie.root done stack)
    (hvisited : ∀ i, visited i = true ↔ i ∈ done ++ stack)
    (hrounds : maxNodes ≤ rounds + done.length) :
    ∃ visited', verifyNodes m rounds visited stack done.length =
        .ok (visited', m.trie.nodeCount) ∧ ∀ i, visited' i = true ↔ i ∈ reachable m.trie := by
  induction rounds generalizing visited done stack with
  | zero =>
    cases stack with
    | nil =>
      obtain ⟨hcount, hreach⟩ := h.verifyNodes_done hexp
      refine ⟨visited, by rw [verifyNodes, hcount], fun i => ?_⟩
      rw [hvisited, List.append_nil, hreach]
    | cons cur stack =>
      -- all nodes of the pool are done already
      have hlength := h.length_explored hexp
      rw [List.length_cons] at hlength
      omega
  | succ rounds ih =>
    cases stack with
    | nil =>
      obtain ⟨hcount, hreach⟩ := h.verifyNodes_done hexp
      refine ⟨visited, by rw [verifyNodes, hcount], fun i => ?_⟩
      rw [hvisited, List.append_nil, hreach]
    | cons cur stack =>
      obtain ⟨visited', stack', hround, hexp', hvisited'⟩ :=
        h.verifyNodes_step rounds hexp hvisited done.length
      rw [hround]
      exact ih visited' (cur :: done) stack' hexp' hvisited' (by rw [List.length_cons]; omega)

theorem verifyFree_eq {visited : Nat → Bool} (free : List Nat) (inFree : Nat → Bool)
    (hbound : ∀ i ∈ free, i < maxNodes) (hvisited : ∀ i ∈ free, visited i = false)
    (hfresh : ∀ i ∈ free, inFree i = false) (hnodup : free.Nodup) :
    verifyFree visited free inFree = .ok () := by
  induction free generalizing inFree with
  | nil => rfl
  | cons fi rest ih =>
    obtain ⟨hnot, hnodup⟩ := List.nodup_cons.mp hnodup
    rw [verifyFree, if_neg (Nat.not_le_of_lt (hbound fi List.mem_cons_self)),
      if_neg (by simp [hvisited fi List.mem_cons_self]),
      if_neg (by simp [hfresh fi List.mem_cons_self])]
    refine ih (Function.update inFree fi true) (fun i hi => hbound i (List.mem_cons_of_mem _ hi))
      (fun i hi => hvisited i (List.mem_cons_of_mem _ hi)) (fun i hi => ?_) hnodup
    rw [Function.update_of_ne (by rintro rfl; exact hnot hi)]
    exact hfresh i (List.mem_cons_of_mem _ hi)

theorem Coherent.verifyEntries_eq (h : Coherent m) (slots : List Nat) (occupied : Nat)
    (hslots : ∀ i ∈ slots, i < maxEntries) :
    verifyEntries m slots occupied =
      .ok (occupied + slots.countP fun i => (m.entries i).occupied) := by
  induction slots generalizing occupied with
  | nil => rfl
  | cons i rest ih =>
    have hrest : ∀ j ∈ rest, j < maxEntries := fun j hj => hslots j (List.mem_cons_of_mem _ hj)
    have hi := hslots i List.mem_cons_self
    rw [verifyEntries, List.countP_cons]
    cases hocc : (m.entries i).occupied with
    | false => simpa [hocc] using ih occupied hrest
    | true =>
      have hfind := h.trie.find_key _ _ (h.mapped i hi hocc)
      simp only [hfind, h.hashed i hi hocc, ih (occupied + 1) hrest]
      simp [Nat.add_assoc, Nat.add_comm]

theorem Coherent.verifyVolumes_eq (h : Coherent m) (slots : List Nat)
    (hslots : ∀ i ∈ slots, i < maxVolumes) (hnodup : slots.Nodup) :
    verifyVolumes m slots = .ok () := by
  induction slots with
  | nil => rfl
  | cons i rest ih =>
    obtain ⟨hnot, hnodup⟩ := List.nodup_cons.mp hnodup
    have hrest : ∀ j ∈ rest, j < maxVolumes := fun j hj => hslots j (List.mem_cons_of_mem _ hj)
    rw [verifyVolumes]
    split
    · exact ih hrest hnodup
    next hreg =>
      have hreg : (m.volumes i).registered = true := by simpa using hreg
      rw [if_neg ?_]
      · exact ih hrest hnodup
      · intro hany
        obtain ⟨j, hj, hat⟩ := List.any_eq_true.mp hany
        obtain ⟨hjreg, hid⟩ : (m.volumes j).registered = true ∧
            (m.volumes j).volumeId = (m.volumes i).volumeId := by
          simpa [volumeAt] using hat
        have hij := h.volumesDistinct j (hrest j hj) i (hslots i List.mem_cons_self) hjreg hreg hid
        exact hnot (hij ▸ hj)

/-! ## The whole walk -/

theorem Coherent.verify_eq (h : Coherent m) : vipmIntegrityVerify m = .ok := by
  obtain ⟨visited, hnodes, hvisited⟩ := h.verifyNodes_eq maxNodes
    (Function.update (fun _ => false) m.trie.root true) [] [m.trie.root]
    (explored_root (edge m.trie) m.trie.root)
    (fun i => by simp [Function.update_apply]) (Nat.le_add_right _ _)
  have hfree : verifyFree visited (freeList m.trie) (fun _ => false) = .ok () := by
    refine verifyFree_eq _ _ (fun i hi => ((h.trie.free i).mp hi).1) (fun i hi => ?_)
      (fun _ _ => rfl) h.trie.nodup
    refine Bool.eq_false_iff.mpr fun hv => ?_
    exact (h.trie.mem_reachable_iff ((h.trie.free i).mp hi).1).mp ((hvisited i).mp hv) hi
  have hentries := h.verifyEntries_eq (List.range maxEntries) 0 fun i => List.mem_range.mp
  rw [Nat.zero_add, ← h.count] at hentries
  have hvolumes := h.verifyVolumes_eq (List.range maxVolumes) (fun i => List.mem_range.mp)
    List.nodup_range
  have hall : verifyAll m = .ok () := by
    unfold verifyAll
    rw [if_neg (by simp [h.initialized])]
    rw [List.length_nil] at hnodes
    unfold freeList at hfree
    simp only [hnodes, hfree, hentries, hvolumes, bind, Except.bind]
    simp
  unfold vipmIntegrityVerify
  rw [hall]

end Vipm
