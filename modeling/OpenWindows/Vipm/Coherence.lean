import OpenWindows.Lib.Slots
import OpenWindows.Vipm.Verify

/-!
# Coherence of the manager

Volume registrations, inserts, lookups and removes in any order (`vipm.c`).  A key has
only the low forty bits of an offset, and the guards of an insert compare whole
offsets.  As long as no insert meets an entry of its volume at another offset with the
same low bits, and every label fits its buffer, the manager stays coherent.
-/

namespace Vipm

open Slots StepSystem Walk

/-! ## Slots -/

variable {m : Manager} {v : UInt8} {path : CString} {o : UInt64} {slot : Nat}

theorem entryOf_iff {i : Nat} : entryOf m v i = true ↔
    (m.entries i).occupied = true ∧ (m.entries i).volumeId = v := by
  unfold entryOf
  rw [Bool.and_eq_true, beq_iff_eq]

theorem of_freeSlot (h : freeSlot m = some slot) :
    slot < maxEntries ∧ (m.entries slot).occupied = false := by
  have hmem := List.mem_of_find?_eq_some h
  have hfree := List.find?_some h
  exact ⟨List.mem_range.mp hmem, by simpa using hfree⟩

theorem of_findPath (h : findPath m v path = some slot) :
    slot < maxEntries ∧ (m.entries slot).occupied = true ∧ (m.entries slot).volumeId = v := by
  have hmem := List.mem_of_find?_eq_some h
  have hfound := List.find?_some h
  rw [Bool.and_eq_true, entryOf_iff] at hfound
  exact ⟨List.mem_range.mp hmem, hfound.1⟩

theorem Coherent.lt_of_hasVolume (h : Coherent m) (hv : hasVolume m v = true) :
    v.toNat < maxVolumes := by
  obtain ⟨i, hi, hat⟩ := List.any_eq_true.mp hv
  obtain ⟨hreg, rfl⟩ : (m.volumes i).registered = true ∧ (m.volumes i).volumeId = v := by
    simpa [volumeAt] using hat
  exact h.volumeBound i (List.mem_range.mp hi) hreg

theorem Coherent.entryCount_le (h : Coherent m) : m.entryCount.toNat ≤ maxEntries := by
  rw [h.count]
  exact List.countP_le_length.trans (Nat.le_of_eq List.length_range)

theorem Coherent.changeSlot (h : Coherent m) (hlt : slot < maxEntries) {m' : Manager}
    (hinit : m'.initialized = true) (hvolumes : m'.volumes = m.volumes) (htrie : TrieInv m'.trie [])
    (hkeep : ∀ i, i ≠ slot → m'.entries i = m.entries i)
    (hself : (m'.entries slot).occupied = true →
      payloadAt m'.trie (place (m'.entries slot).key) = some slot ∧
        (m'.entries slot).pathHash = vpFnv1a64 (m'.entries slot).path ∧
        (m'.entries slot).volumeId.toNat < maxVolumes)
    (hothers : ∀ i < maxEntries, i ≠ slot → (m.entries i).occupied = true →
      payloadAt m'.trie (place (m.entries i).key) = some i)
    (horigin : ∀ {p e}, payloadAt m'.trie p = some e →
      (e = slot ∧ (m'.entries slot).occupied = true ∧ p = place (m'.entries slot).key) ∨
        (e ≠ slot ∧ payloadAt m.trie p = some e))
    (hcount : m'.entryCount.toNat + (m.entries slot).occupied.toNat =
      m.entryCount.toNat + (m'.entries slot).occupied.toNat) : Coherent m' := by
  refine ⟨hinit, htrie, ?_, ?_, ?_, ?_, ?_, hvolumes ▸ h.volumeBound, hvolumes ▸ h.volumesDistinct⟩
  · intro i hi hocc
    by_cases his : i = slot
    · subst his
      exact (hself hocc).1
    · rw [hkeep i his] at hocc ⊢
      exact hothers i hi his hocc
  · intro i hi hocc
    by_cases his : i = slot
    · subst his
      exact (hself hocc).2.1
    · rw [hkeep i his] at hocc ⊢
      exact h.hashed i hi hocc
  · intro i hi hocc
    by_cases his : i = slot
    · subst his
      exact (hself hocc).2.2
    · rw [hkeep i his] at hocc ⊢
      exact h.entryVolume i hi hocc
  · intro p e hp
    rcases horigin hp with ⟨rfl, hocc, hplace⟩ | ⟨hne, hold⟩
    · exact ⟨hlt, hocc, hplace⟩
    · rw [hkeep e hne]
      exact h.payload hold
  · have hslots := countP_range_update (fun i => (m.entries i).occupied)
      (fun i => (m'.entries i).occupied) hlt (fun i hi => by rw [hkeep i hi])
    have hold := h.count
    omega

/-! ## The first state -/

theorem payloadAt_initTrie (p : List Nat) : payloadAt initTrie p = none := by
  unfold payloadAt
  rw [walk_edge_initTrie]
  split <;> rfl

theorem coherent_init (storage : Manager) : Coherent (vipmInitManager storage).2 := by
  have hfree : ∀ i < maxEntries, ((vipmInitManager storage).2.entries i).occupied = false := by
    intro i hi
    show (if i < maxEntries then { storage.entries i with occupied := false }
      else storage.entries i).occupied = false
    rw [if_pos hi]
  have hnone : ∀ i < maxVolumes, ((vipmInitManager storage).2.volumes i).registered = false := by
    intro i hi
    show (if i < maxVolumes then { storage.volumes i with registered := false }
      else storage.volumes i).registered = false
    rw [if_pos hi]
  refine ⟨rfl, trieInv_initTrie, ?_, ?_, ?_, ?_, ?_, ?_, ?_⟩
  · intro i hi hocc
    rw [hfree i hi] at hocc
    cases hocc
  · intro i hi hocc
    rw [hfree i hi] at hocc
    cases hocc
  · intro i hi hocc
    rw [hfree i hi] at hocc
    cases hocc
  · intro p e hp
    rw [show (vipmInitManager storage).2.trie = initTrie from rfl, payloadAt_initTrie] at hp
    cases hp
  · refine (List.countP_eq_zero.mpr fun i hi => ?_).symm
    rw [hfree i (List.mem_range.mp hi)]
    exact Bool.false_ne_true
  · intro i hi hreg
    rw [hnone i hi] at hreg
    cases hreg
  · intro i hi j _ hreg
    rw [hnone i hi] at hreg
    cases hreg

/-! ## Inserting -/

/-- No entry of the volume has another offset with the same low forty bits. -/
def offsetsApart (m : Manager) (v : UInt8) (o : UInt64) : Prop :=
  ∀ i < maxEntries, entryOf m v i = true →
    (m.entries i).byteOffset.toNat % 2 ^ 40 = o.toNat % 2 ^ 40 → (m.entries i).byteOffset = o

theorem Coherent.payloadAt_none (h : Coherent m) (hv : v.toNat < maxVolumes)
    (hapart : offsetsApart m v o) (hguard : findOffset m v o = none) :
    payloadAt m.trie (place (vipmKeyMake v o)) = none := by
  cases hp : payloadAt m.trie (place (vipmKeyMake v o)) with
  | none => rfl
  | some i =>
    obtain ⟨hi, hocc, hplace⟩ := h.payload hp
    obtain ⟨hvol, hlow⟩ :=
      (vipmKeyMake_eq_iff hv (h.entryVolume i hi hocc)).mp (place_eq_iff.mp hplace)
    have hof : entryOf m v i = true := entryOf_iff.mpr ⟨hocc, hvol.symm⟩
    have hoffset := hapart i hi hof hlow.symm
    have hnot := List.find?_eq_none.mp hguard i (List.mem_range.mpr hi)
    simp [hof, hoffset] at hnot

def inserted (m : Manager) (slot : Nat) (e : Entry) (t : Trie) : Manager :=
  { m with
    entries := Function.update m.entries slot e
    entryCount := m.entryCount + 1
    trie := t
    trieInserts := m.trieInserts + 1 }

def rolledBack (m : Manager) (slot : Nat) (e : Entry) : Manager :=
  { m with entries := Function.update m.entries slot e }

theorem Coherent.put_entry (h : Coherent m) (hslot : freeSlot m = some slot) (e : Entry)
    {m' : Manager} (hm' : m' = { m with
      entries := Function.update m.entries slot e
      entryCount := m.entryCount + 1 })
    (hnone : payloadAt m.trie (place e.key) = none) :
    vipmMappingPut m' e.key (UInt32.ofNat slot) = (.banPoolExhausted, m') ∨
      ∃ t, vipmMappingPut m' e.key (UInt32.ofNat slot) = (.ok, inserted m slot e t) ∧
        TrieInv t [] ∧
        ∀ p, payloadAt t p = if p = place e.key then some slot else payloadAt m.trie p := by
  obtain ⟨hlt, -⟩ := of_freeSlot hslot
  have hindex : (UInt32.ofNat slot).toNat = slot := by
    unfold maxEntries at hlt
    exact UInt32.toNat_ofNat_of_lt' (Nat.lt_trans hlt (by decide))
  have hinit : m'.initialized = true := by
    rw [hm']
    exact h.initialized
  have htrie : m'.trie = m.trie := by rw [hm']
  rcases vipmMappingPut_spec hinit (htrie ▸ h.trie) (vipmKeyMake_lt e.volumeId e.byteOffset)
    (by rw [hindex]; exact hlt) with hput | ⟨t, hput, hinv, hpay⟩
  · exact .inl hput
  · rw [htrie] at hput
    rw [htrie, hindex] at hpay
    have hnew : ¬ Vipm.mapped m.trie (vipmKeyMake e.volumeId e.byteOffset) ≠ none :=
      not_not.mpr hnone
    rw [if_neg hnew] at hput
    refine .inr ⟨t, hput.trans ?_, hinv, hpay⟩
    rw [hm']
    rfl

/-- An entry is the one that an insert writes. -/
structure Entry.Describes (e : Entry) (v : UInt8) (path : CString) (o : UInt64) (flags : UInt32) :
    Prop where
  occupied : e.occupied = true
  volume : e.volumeId = v
  path : e.path = path
  offset : e.byteOffset = o
  flags : e.flags = flags
  hashed : e.pathHash = vpFnv1a64 e.path
  valid : ∃ blen, vpValidatePath e.path = .ok (blen, e.codepointMeta)

theorem Coherent.insert_cases (h : Coherent m) (v : UInt8) (path : CString) (o : UInt64)
    (flags : UInt32)
    (hapart : (vpValidatePath path).isOk = true → (freeSlot m).isSome = true → offsetsApart m v o) :
    (∃ st, st ≠ .ok ∧ vipmFvipInsert m v path o flags = (st, m)) ∨
      (∃ slot e, freeSlot m = some slot ∧ e.occupied = false ∧
        vipmFvipInsert m v path o flags = (.banPoolExhausted, rolledBack m slot e)) ∨
      ∃ slot e t, freeSlot m = some slot ∧ e.Describes v path o flags ∧
        e.volumeId.toNat < maxVolumes ∧ payloadAt m.trie (place e.key) = none ∧ TrieInv t [] ∧
        (∀ p, payloadAt t p = if p = place e.key then some slot else payloadAt m.trie p) ∧
        vipmFvipInsert m v path o flags = (.ok, inserted m slot e t) := by
  unfold vipmFvipInsert
  rw [if_neg (by simp [h.initialized]), if_neg (by simp [vipmKeyValid_iff.mpr (vipmKeyMake_lt v o)])]
  split
  · exact .inl ⟨_, by decide, rfl⟩
  next hvol =>
    have hv : v.toNat < maxVolumes := h.lt_of_hasVolume (by simpa using hvol)
    cases hguard : findOffset m v o with
    | some i =>
      refine .inl ⟨_, ?_, rfl⟩
      split <;> decide
    | none =>
      rcases vpValidatePath_cases path with ⟨cps, hvalid⟩ | hvalid | hvalid
      · cases hslot : freeSlot m with
        | none =>
          rw [hvalid]
          exact .inl ⟨_, by decide, rfl⟩
        | some slot =>
          rw [hvalid]
          have hnone := h.payloadAt_none hv (hapart (by rw [hvalid]; rfl) (by rw [hslot]; rfl)) hguard
          obtain ⟨e, he⟩ : ∃ e : Entry, e =
              { path, byteOffset := o, flags, codepointMeta := cps
                pathHash := vpFnv1a64 path, volumeId := v, occupied := true } := ⟨_, rfl⟩
          have hkey : vipmKeyMake v o = e.key := by rw [he]; rfl
          rw [hkey] at hnone
          refine .inr ?_
          rcases h.put_entry hslot e rfl hnone with hput | ⟨t, hput, hinv, hpay⟩
          · refine .inl ⟨slot, { e with occupied := false }, rfl, rfl, ?_⟩
            simp only [← he, hkey, hput]
            simp [rolledBack]
          · have hdescribes : e.Describes v path o flags := by
              rw [he]
              exact ⟨rfl, rfl, rfl, rfl, rfl, rfl, _, hvalid⟩
            refine .inr ⟨slot, e, t, rfl, hdescribes, hdescribes.volume ▸ hv, hnone, hinv, hpay, ?_⟩
            simp only [← he, hkey, hput]
      · rw [hvalid]
        exact .inl ⟨_, by decide, rfl⟩
      · rw [hvalid]
        exact .inl ⟨_, by decide, rfl⟩

theorem Coherent.rolledBack (h : Coherent m) (hslot : freeSlot m = some slot) {e : Entry}
    (he : e.occupied = false) : Coherent (rolledBack m slot e) := by
  obtain ⟨hlt, hfree⟩ := of_freeSlot hslot
  have hself : (Vipm.rolledBack m slot e).entries slot = e := Function.update_self ..
  refine h.changeSlot hlt h.initialized rfl h.trie (fun i hi => Function.update_of_ne hi ..)
    (fun hocc => ?_) (fun i hi _ => h.mapped i hi) (fun {p i} hp => .inr ⟨?_, hp⟩) ?_
  · rw [hself, he] at hocc
    cases hocc
  · rintro rfl
    rw [(h.payload hp).2.1] at hfree
    cases hfree
  · rw [hself, he, hfree]
    rfl

theorem Coherent.inserted (h : Coherent m) (hslot : freeSlot m = some slot) {e : Entry} {t : Trie}
    (he : e.occupied = true) (hhash : e.pathHash = vpFnv1a64 e.path)
    (hvol : e.volumeId.toNat < maxVolumes) (hnone : payloadAt m.trie (place e.key) = none)
    (htrie : TrieInv t [])
    (hpay : ∀ p, payloadAt t p = if p = place e.key then some slot else payloadAt m.trie p) :
    Coherent (inserted m slot e t) := by
  obtain ⟨hlt, hfree⟩ := of_freeSlot hslot
  have hself : (Vipm.inserted m slot e t).entries slot = e := Function.update_self ..
  refine h.changeSlot hlt h.initialized rfl htrie (fun i hi => Function.update_of_ne hi ..)
    (fun _ => ?_) (fun i hi _ hocc => ?_) (fun {p i} hp => ?_) ?_
  · rw [hself]
    exact ⟨(hpay _).trans (if_pos rfl), hhash, hvol⟩
  · have hmapped := h.mapped i hi hocc
    refine (hpay _).trans ?_
    rw [if_neg ?_, hmapped]
    intro hplace
    rw [hplace, hnone] at hmapped
    cases hmapped
  · rw [hself]
    change payloadAt t p = some i at hp
    rw [hpay] at hp
    split at hp
    next hplace =>
      cases hp
      exact .inl ⟨rfl, he, hplace⟩
    · refine .inr ⟨?_, hp⟩
      rintro rfl
      rw [(h.payload hp).2.1] at hfree
      cases hfree
  · rw [hself, he, hfree]
    have hle := h.entryCount_le
    show (m.entryCount + 1).toNat + 0 = m.entryCount.toNat + 1
    rw [UInt16.toNat_add]
    unfold maxEntries at hle
    exact Nat.mod_eq_of_lt (show m.entryCount.toNat + 1 < 2 ^ 16 by omega)

/-! ## Removing -/

/-- The entry that `vipm_fvip_remove` leaves. -/
def Entry.blank : Entry :=
  { path := CString.empty, byteOffset := 0, flags := 0, codepointMeta := 0, pathHash := 0
    volumeId := 0, occupied := false }

/-- The manager after a remove that found the path. -/
def removed (m : Manager) (slot : Nat) (t : Trie) : Manager :=
  { m with
    entries := Function.update m.entries slot Entry.blank
    entryCount := m.entryCount - 1
    trie := t
    trieRemoves := m.trieRemoves + 1 }

theorem Coherent.remove_cases (h : Coherent m) (v : UInt8) (path : CString) :
    (findPath m v path = none ∧ vipmFvipRemove m v path = (.errNotFound, m)) ∨
      ∃ slot t, findPath m v path = some slot ∧ TrieInv t [] ∧
        (∀ p, payloadAt t p =
          if p = place (m.entries slot).key then none else payloadAt m.trie p) ∧
        vipmFvipRemove m v path = (.ok, removed m slot t) := by
  unfold vipmFvipRemove
  rw [if_neg (by simp [h.initialized])]
  cases hfound : findPath m v path with
  | none => exact .inl ⟨rfl, rfl⟩
  | some slot =>
    obtain ⟨hlt, hocc, rfl⟩ := of_findPath hfound
    have hmapped := h.mapped slot hlt hocc
    rcases vipmMappingRemove_spec h.initialized h.trie
      (vipmKeyMake_lt (m.entries slot).volumeId (m.entries slot).byteOffset) with
      ⟨hnone, -⟩ | ⟨-, t, hremove, hinv, hpay⟩
    · change payloadAt m.trie (place (m.entries slot).key) = none at hnone
      rw [hmapped] at hnone
      cases hnone
    · refine .inr ⟨slot, t, rfl, hinv, hpay, ?_⟩
      simp only [hremove]
      rfl

theorem Coherent.removed (h : Coherent m) (hlt : slot < maxEntries)
    (hocc : (m.entries slot).occupied = true) {t : Trie} (htrie : TrieInv t [])
    (hpay : ∀ p, payloadAt t p =
      if p = place (m.entries slot).key then none else payloadAt m.trie p) :
    Coherent (removed m slot t) := by
  have hself : (Vipm.removed m slot t).entries slot = Entry.blank := Function.update_self ..
  refine h.changeSlot hlt h.initialized rfl htrie (fun i hi => Function.update_of_ne hi ..)
    (fun hocc' => ?_) (fun i hi his hocc' => ?_) (fun {p i} hp => .inr ?_) ?_
  · rw [hself] at hocc'
    cases hocc'
  · have hmapped := h.mapped i hi hocc'
    refine (hpay _).trans ?_
    rw [if_neg ?_, hmapped]
    -- two slots have two keys
    intro hplace
    rw [hplace, h.mapped slot hlt hocc] at hmapped
    exact his (Option.some.inj hmapped).symm
  · change payloadAt t p = some i at hp
    rw [hpay] at hp
    split at hp
    · cases hp
    next hplace =>
      refine ⟨?_, hp⟩
      rintro rfl
      exact hplace (h.payload hp).2.2
  · rw [hself, hocc]
    have hpos : 1 ≤ m.entryCount.toNat := by
      rw [h.count]
      exact List.countP_pos_iff.mpr ⟨slot, List.mem_range.mpr hlt, hocc⟩
    show (m.entryCount - 1).toNat + 1 = m.entryCount.toNat + 0
    have hone : (1 : UInt16) ≤ m.entryCount := UInt16.le_iff_toNat_le.mpr hpos
    rw [UInt16.toNat_sub_of_le _ _ hone]
    exact Nat.sub_add_cancel hpos

end Vipm
