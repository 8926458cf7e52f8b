import OpenWindows.Lib.StepSystem
import OpenWindows.Vipm.Manager
import OpenWindows.Vipm.TriePut
import OpenWindows.Vipm.TrieRemove

/-!
# The trie is a finite map

`vipm_mapping_put`, `vipm_mapping_get` and `vipm_mapping_remove` (`vipm.c`) in any
order.  What a key maps to is read off the calls and their statuses.
-/

namespace Vipm

open StepSystem Walk

/-! ## The calls on a well-formed trie -/

section Calls

variable {t : Trie} {m : Manager} {key : UInt64}

theorem walk_edge_initTrie (p : List Nat) : addr initTrie p = if p = [] then some 255 else none := by
  cases p with
  | nil => rfl
  | cons nib p =>
    have hnone : edge initTrie initTrie.root nib = none := child_empty nib
    rw [if_neg (List.cons_ne_nil nib p)]
    unfold addr
    rw [walk, hnone]

theorem freeList_initTrie : freeList initTrie = List.range 255 := by
  show (List.range 255).map (fun i => i) = List.range 255
  exact List.map_id' _

theorem trieInv_initTrie : TrieInv initTrie [] := by
  have hroot : ∀ {p i}, addr initTrie p = some i → p = [] ∧ i = 255 := by
    intro p i hp
    rw [walk_edge_initTrie] at hp
    split at hp
    next hnil =>
      cases hp
      exact ⟨hnil, rfl⟩
    · cases hp
  refine ⟨?_, ?_, ?_, ?_, ?_, ?_, ?_, ?_, rfl⟩
  · intro p q i hp hq
    rw [(hroot hp).1, (hroot hq).1]
  · intro p i hp
    rw [(hroot hp).1]
    exact Nat.zero_le _
  · intro p i hp
    rw [(hroot hp).2]
    decide
  · intro p i _
    exact nodeOk_empty
  · intro p i hp hne
    exact absurd (hroot hp).1 hne
  · intro p i _ hentry
    exact absurd rfl hentry
  · rw [freeList_initTrie]
    exact List.nodup_range
  · intro i
    rw [freeList_initTrie, List.mem_range]
    constructor
    · intro hi
      refine ⟨Nat.lt_of_lt_of_le hi (by decide), fun p hp => ?_⟩
      rw [(hroot hp).2] at hi
      exact Nat.lt_irrefl _ hi
    · rintro ⟨hi, hun⟩
      have hne : i ≠ 255 := by
        rintro rfl
        exact hun [] rfl
      unfold maxNodes at hi
      omega

/-- What a key maps to. -/
def mapped (t : Trie) (key : UInt64) : Option Nat := payloadAt t (nibblesOf key.toNat)

theorem TrieInv.vpTrieFind_eq (h : TrieInv t []) (hkey : key.toNat < 2 ^ 44) :
    vpTrieFind t key.toNat =
      match mapped t key with
      | some e => .ok e
      | none => .error .errNotFound := by
  have hloop := h.findLoop_eq (addr_nil t) (nibblesOf key.toNat)
  rw [List.nil_append] at hloop
  unfold vpTrieFind mapped payloadAt
  rw [if_neg (by simp [vipmKeyValid_iff.mpr hkey]), hloop]
  cases addr t (nibblesOf key.toNat) with
  | none => rfl
  | some i =>
    by_cases hnull : (t.nodes i).payload = nullPayload
    · simp [Node.entry, hnull]
    · simp [Node.entry, hnull]

theorem mapped_update {t' : Trie} {r : Option Nat} (hkey : key.toNat < 2 ^ 44)
    (hpay : ∀ p, payloadAt t' p = if p = nibblesOf key.toNat then r else payloadAt t p)
    (key' : UInt64) (hkey' : key'.toNat < 2 ^ 44) :
    mapped t' key' = if key' = key then r else mapped t key' := by
  unfold mapped
  rw [hpay]
  by_cases hk : key' = key
  · rw [if_pos hk, if_pos (by rw [hk])]
  · rw [if_neg hk, if_neg fun hn => hk (UInt64.toNat.inj (nibblesOf_injective hkey' hkey hn))]

theorem vipmMappingPut_spec (hinit : m.initialized = true) (h : TrieInv m.trie [])
    (hkey : key.toNat < 2 ^ 44) {e : UInt32} (he : e.toNat < maxEntries) :
    vipmMappingPut m key e = (.banPoolExhausted, m) ∨
      ∃ t', vipmMappingPut m key e =
          (if mapped m.trie key ≠ none then .errDuplicateMapping else .ok,
            { m with trie := t', trieInserts := m.trieInserts + 1 }) ∧
        TrieInv t' [] ∧
        ∀ p, payloadAt t' p =
          if p = nibblesOf key.toNat then some e.toNat else payloadAt m.trie p := by
  have hnull : e.toNat ≠ nullPayload := by
    unfold maxEntries at he
    unfold nullPayload
    omega
  unfold vipmMappingPut
  rw [if_neg (by simp [hinit]), if_neg (by simp [vipmKeyValid_iff.mpr hkey]),
    if_neg (Nat.not_le_of_lt he)]
  rcases h.putTrie_spec key.toNat hnull with hput | ⟨t', hput, hinv, hpay⟩
  · rw [hput]
    exact .inl rfl
  · rw [hput]
    refine .inr ⟨t', ?_, hinv, hpay⟩
    unfold mapped
    by_cases hmapped : payloadAt m.trie (nibblesOf key.toNat) ≠ none
    · rw [if_pos hmapped]
    · rw [if_neg hmapped]

theorem vipmMappingGet_eq (hinit : m.initialized = true) (key : UInt64) :
    vipmMappingGet m key =
      (vpTrieFind m.trie key.toNat, { m with trieLookups := m.trieLookups + 1 }) := by
  unfold vipmMappingGet
  rw [if_neg (by simp [hinit])]

theorem vipmMappingRemove_spec (hinit : m.initialized = true) (h : TrieInv m.trie [])
    (hkey : key.toNat < 2 ^ 44) :
    (mapped m.trie key = none ∧ vipmMappingRemove m key = (.errNotFound, m)) ∨
      (mapped m.trie key ≠ none ∧ ∃ t', vipmMappingRemove m key =
          (.ok, { m with trie := t', trieRemoves := m.trieRemoves + 1 }) ∧
        TrieInv t' [] ∧
        ∀ p, payloadAt t' p = if p = nibblesOf key.toNat then none else payloadAt m.trie p) := by
  unfold vipmMappingRemove
  rw [if_neg (by simp [hinit]), if_neg (by simp [vipmKeyValid_iff.mpr hkey])]
  rcases h.removeTrie_spec key.toNat with ⟨hnone, hremove⟩ | ⟨hsome, t', hremove, hinv, hpay⟩
  · rw [hremove]
    exact .inl ⟨hnone, rfl⟩
  · rw [hremove]
    exact .inr ⟨hsome, t', rfl, hinv, hpay⟩

end Calls

/-! ## Runs -/

/-- A call of the mapping interface. -/
inductive MapCall where
  | put (key : UInt64) (entryIndex : UInt32)
  | get (key : UInt64)
  | remove (key : UInt64)

def MapCall.key : MapCall → UInt64
  | .put key _ => key
  | .get key => key
  | .remove key => key

def MapCall.exec (m : Manager) : MapCall → Status × Manager
  | .put key entryIndex => vipmMappingPut m key entryIndex
  | .get key =>
    match vipmMappingGet m key with
    | (.ok _, m) => (.ok, m)
    | (.error st, m) => (st, m)
  | .remove key => vipmMappingRemove m key

/-- A manager with the calls that were made and their statuses, the last one first. -/
structure MapUse where
  manager : Manager
  events : List (MapCall × Status)

def MapUse.next (u : MapUse) (call : MapCall) : MapUse :=
  let r := call.exec u.manager
  { manager := r.2, events := (call, r.1) :: u.events }

/-- The manager after `vipm_init_manager`. -/
def MapUse.init (storage : Manager) : MapUse :=
  { manager := (vipmInitManager storage).2, events := [] }

def MapUse.Valid (_ : MapUse) (call : MapCall) : Prop := call.key.toNat < 2 ^ 44

def lastPut (success : Status → Bool) (key : UInt64) : List (MapCall × Status) → Option Nat
  | [] => none
  | (.put k e, st) :: events =>
    if k = key ∧ success st then some e.toNat else lastPut success key events
  | (.get _, _) :: events => lastPut success key events
  | (.remove k, _) :: events => if k = key then none else lastPut success key events

/-- The statuses with which a put writes: `VIPM_ERR_DUPLICATE_MAPPING` is a warning that
the key was present. -/
def wrote (st : Status) : Bool := st == .ok || st == .errDuplicateMapping

/-- The manager maps the keys as the calls say. -/
structure MapUse.Inv (u : MapUse) : Prop where
  initialized : u.manager.initialized = true
  trie : TrieInv u.manager.trie []
  history : ∀ key : UInt64, key.toNat < 2 ^ 44 → mapped u.manager.trie key = lastPut wrote key u.events

theorem inv_init (storage : Manager) : (MapUse.init storage).Inv where
  initialized := rfl
  trie := trieInv_initTrie
  history key _ := by
    show payloadAt initTrie (nibblesOf key.toNat) = none
    unfold payloadAt
    rw [walk_edge_initTrie]
    split <;> rfl

variable {u : MapUse}

theorem MapUse.Inv.step {call : MapCall} {st : Status} {m : Manager}
    (hexec : call.exec u.manager = (st, m)) (hinit : m.initialized = true)
    (htrie : TrieInv m.trie [])
    (hmap : ∀ key : UInt64, key.toNat < 2 ^ 44 →
      mapped m.trie key = lastPut wrote key ((call, st) :: u.events)) : (u.next call).Inv := by
  unfold MapUse.next
  rw [hexec]
  exact ⟨hinit, htrie, hmap⟩

theorem MapUse.Inv.put (h : u.Inv) {key : UInt64} (hkey : key.toNat < 2 ^ 44)
    (e : UInt32) : (u.next (.put key e)).Inv := by
  by_cases he : e.toNat < maxEntries
  · rcases vipmMappingPut_spec h.initialized h.trie hkey he with hput | ⟨t', hput, hinv, hpay⟩
    · refine .step hput h.initialized h.trie fun key' hkey' => ?_
      rw [lastPut, if_neg (by simp [wrote])]
      exact h.history key' hkey'
    · refine .step hput h.initialized hinv fun key' hkey' => ?_
      have hwrote : wrote (if mapped u.manager.trie key ≠ none then .errDuplicateMapping else .ok) =
          true := by
        split <;> rfl
      simp only [mapped_update hkey hpay key' hkey', h.history key' hkey', lastPut, hwrote, and_true,
        eq_comm]
  · have hput : vipmMappingPut u.manager key e = (.errInvalidKey, u.manager) := by
      unfold vipmMappingPut
      rw [if_neg (by simp [h.initialized]), if_neg (by simp [vipmKeyValid_iff.mpr hkey]),
        if_pos (Nat.le_of_not_lt he)]
    refine .step hput h.initialized h.trie fun key' hkey' => ?_
    rw [lastPut, if_neg (by simp [wrote])]
    exact h.history key' hkey'

theorem MapUse.Inv.get (h : u.Inv) (key : UInt64) : (u.next (.get key)).Inv := by
  have hexec : ∃ st, MapCall.exec u.manager (.get key) =
      (st, { u.manager with trieLookups := u.manager.trieLookups + 1 }) := by
    rw [MapCall.exec, vipmMappingGet_eq h.initialized]
    cases vpTrieFind u.manager.trie key.toNat with
    | ok e | error st => exact ⟨_, rfl⟩
  obtain ⟨st, hexec⟩ := hexec
  exact .step hexec h.initialized h.trie h.history

theorem MapUse.Inv.remove (h : u.Inv) {key : UInt64} (hkey : key.toNat < 2 ^ 44) :
    (u.next (.remove key)).Inv := by
  rcases vipmMappingRemove_spec h.initialized h.trie hkey with
    ⟨hnone, hremove⟩ | ⟨-, t', hremove, hinv, hpay⟩
  · refine .step hremove h.initialized h.trie fun key' hkey' => ?_
    rw [lastPut]
    split
    next hk => rw [← hk, hnone]
    · exact h.history key' hkey'
  · refine .step hremove h.initialized hinv fun key' hkey' => ?_
    simp only [mapped_update hkey hpay key' hkey', h.history key' hkey', lastPut, eq_comm]

theorem inv_of_calls {storage : Manager} {calls : List MapCall}
    (h : Calls MapUse.Valid MapUse.next (MapUse.init storage) calls u) : u.Inv := by
  refine h.invariant (fun u call hu hvalid => ?_) (inv_init storage)
  cases call with
  | put key e => exact hu.put hvalid e
  | get key => exact hu.get key
  | remove key => exact hu.remove hvalid

/-! ## Refinement -/

/-- The trie is the finite map of the puts that succeeded, and its nodes are in order. -/
structure MapUse.Refines (success : Status → Bool) (u : MapUse) : Prop where
  get : ∀ key : UInt64, key.toNat < 2 ^ 44 →
    (vipmMappingGet u.manager key).1 =
      match lastPut success key u.events with
      | some e => .ok e
      | none => .error .errNotFound
  covers : ∀ i, i < maxNodes ↔ i ∈ reachable u.manager.trie ∨ i ∈ freeList u.manager.trie
  disjoint : ∀ i ∈ reachable u.manager.trie, i ∉ freeList u.manager.trie
  freeNodup : (freeList u.manager.trie).Nodup
  count : (reachable u.manager.trie).ncard = u.manager.trie.nodeCount
  inUse : ∀ i ∈ reachable u.manager.trie, i ≠ u.manager.trie.root →
    (u.manager.trie.nodes i).childBitmap ≠ 0 ∨ (u.manager.trie.nodes i).payload ≠ nullPayload
  sorted : ∀ i ∈ reachable u.manager.trie, (List.range 16).map (u.manager.trie.nodes i).children =
    ((List.range 16).map (vpNodeGet (u.manager.trie.nodes i))).filter (· ≠ nullIndex) ++
      List.replicate (16 - vpPopcount16 (u.manager.trie.nodes i).childBitmap) nullIndex
  exhausted : ∀ (key : UInt64) (e : UInt32), key.toNat < 2 ^ 44 →
    (vipmMappingPut u.manager key e).1 = .banPoolExhausted →
      (vipmMappingPut u.manager key e).2 = u.manager

theorem MapUse.Inv.put_exhausted (h : u.Inv) {key : UInt64} {e : UInt32}
    (hkey : key.toNat < 2 ^ 44) (hst : (vipmMappingPut u.manager key e).1 = .banPoolExhausted) :
    (vipmMappingPut u.manager key e).2 = u.manager := by
  by_cases he : e.toNat < maxEntries
  · rcases vipmMappingPut_spec h.initialized h.trie hkey he with hput | ⟨t', hput, -, -⟩
    · rw [hput]
    · rw [hput] at hst
      split at hst
      · cases hst
      · cases hst
  · unfold vipmMappingPut
    rw [if_neg (by simp [h.initialized]), if_neg (by simp [vipmKeyValid_iff.mpr hkey]),
      if_pos (Nat.le_of_not_lt he)]

/-- In every run with valid keys the trie is the finite map of the puts that wrote. -/
theorem mapping_refines (storage : Manager) (calls : List MapCall) (u : MapUse)
    (h : Calls MapUse.Valid MapUse.next (MapUse.init storage) calls u) : u.Refines wrote := by
  have hinv := inv_of_calls h
  have htrie := hinv.trie
  refine ⟨fun key hkey => ?_, fun i => ?_, ?_, htrie.nodup, htrie.ncard_reachable, ?_, ?_,
    fun key e hkey => hinv.put_exhausted hkey⟩
  · rw [vipmMappingGet_eq hinv.initialized, ← hinv.history key hkey]
    exact htrie.vpTrieFind_eq hkey
  · constructor
    · intro hi
      by_cases hfree : i ∈ freeList u.manager.trie
      · exact .inr hfree
      · exact .inl ((htrie.mem_reachable_iff hi).mpr hfree)
    · rintro (⟨p, hp⟩ | hfree)
      · exact htrie.bound hp
      · exact ((htrie.free i).mp hfree).1
  · rintro i ⟨p, hp⟩
    exact (htrie.mem_reachable_iff (htrie.bound hp)).mp ⟨p, hp⟩
  · rintro i ⟨p, hp⟩ hroot
    have hnil : p ≠ [] := by
      rintro rfl
      exact hroot (Option.some.inj hp).symm
    rcases htrie.full hp hnil hnil with hbitmap | hentry
    · exact .inl hbitmap
    · exact .inr fun hnull => hentry (entry_eq_none_iff.mpr hnull)
  · rintro i ⟨p, hp⟩
    exact children_eq_get (htrie.nodeOk hp)

def putTwice : MapUse := ((MapUse.init .zeroed).next (.put 0 1)).next (.put 0 2)

theorem calls_putTwice :
    Calls MapUse.Valid MapUse.next (MapUse.init .zeroed) [.put 0 1, .put 0 2] putTwice := by
  have hkey : (0 : UInt64).toNat < 2 ^ 44 := by decide
  have hone : Calls MapUse.Valid MapUse.next (MapUse.init .zeroed) ([] ++ [.put 0 1]) _ :=
    .snoc .nil hkey
  have htwo : Calls MapUse.Valid MapUse.next (MapUse.init .zeroed) ([.put 0 1] ++ [.put 0 2]) _ :=
    .snoc hone hkey
  exact htwo

theorem mapping_refines_putTwice : putTwice.Refines wrote :=
  mapping_refines .zeroed [.put 0 1, .put 0 2] putTwice calls_putTwice

/-- The second put is refused with a warning and writes all the same. -/
theorem duplicate_put_writes :
    Calls MapUse.Valid MapUse.next (MapUse.init .zeroed) [.put 0 1, .put 0 2] putTwice ∧
      putTwice.events.map Prod.snd = [.errDuplicateMapping, .ok] ∧
      lastPut (· == .ok) 0 putTwice.events = some 1 ∧
      (vipmMappingGet putTwice.manager 0).1 = .ok 2 ∧ ¬ putTwice.Refines (· == .ok) := by
  have hlast : lastPut (· == .ok) 0 putTwice.events = some 1 := by decide
  have hget : (vipmMappingGet putTwice.manager 0).1 = .ok 2 := by decide +kernel
  refine ⟨calls_putTwice, by decide, hlast, hget, fun h => ?_⟩
  have hclaim := h.get 0 (by decide)
  rw [hget, hlast] at hclaim
  cases hclaim

end Vipm
