import OpenWindows.Vipm.Runs

/-!
# The path table is a map

What was stored for a path of a volume is read off the calls and their statuses:
an insert that returns `VIPM_OK` stores an offset and flags, and a remove that
returns `VIPM_OK` takes them away.  `vipm_fvip_insert` looks for its path among
the entries at its own offset only.  A path that is inserted again at another
offset gets a second entry, a lookup returns the one in the lower slot, and a
remove leaves the other.

As long as no insert writes an entry for a path that the volume has already, and
none collides with the key of an entry, a lookup returns what was stored.
-/

namespace Vipm

open Slots StepSystem Walk

/-! ## What was stored -/

/-- The offsets and the flags that are stored for paths of volumes. -/
abbrev Contents := UInt8 × CString → Option (UInt64 × UInt32)

def FvipCall.record (contents : Contents) (call : FvipCall) (st : Status) : Contents :=
  match call, st with
  | .insert v path o flags, .ok => Function.update contents (v, path) (some (o, flags))
  | .remove v path, .ok => Function.update contents (v, path) none
  | _, _ => contents

/-- The manager and the map it stands for. -/
structure PathStore where
  manager : Manager
  contents : Contents

/-- A manager that `vipm_init_manager` made. -/
def PathStore.init (storage : Manager) : PathStore := ⟨(vipmInitManager storage).2, fun _ => none⟩

def PathStore.call (s : PathStore) (call : FvipCall) : PathStore :=
  match call.exec s.manager with
  | some (st, m) => ⟨m, call.record s.contents st⟩
  | none => s

/-- An insert comes to writing an entry. -/
structure Writes (m : Manager) (v : UInt8) (path : CString) (o : UInt64) : Prop where
  initialized : m.initialized = true
  volume : hasVolume m v = true
  offset : findOffset m v o = none
  valid : (vpValidatePath path).isOk = true
  free : (freeSlot m).isSome = true

/-- The condition of a call: a label that is written fits its buffer, and an insert that
writes is for a path that the volume does not have, at an offset that agrees with that of
no entry of the volume in the low forty bits. -/
def FvipCall.Fresh (m : Manager) : FvipCall → Prop
  | .register v _ label => LabelFits m v label
  | .insert v path o _ => Writes m v path o → findPath m v path = none ∧ offsetsApart m v o
  | .lookup _ _ => True
  | .remove _ _ => True

/-- Lookups answer with the map from volume and path. -/
structure PathStore.Sound (s : PathStore) : Prop where
  found : ∀ v path o flags, s.contents (v, path) = some (o, flags) →
    ∃ e, (vipmFvipLookup s.manager v path).1 = .ok e ∧ e.byteOffset = o ∧ e.flags = flags
  absent : ∀ v path, s.contents (v, path) = none →
    (vipmFvipLookup s.manager v path).1 = .error .errNotFound
  distinct : ∀ i j, i < maxEntries → j < maxEntries → (s.manager.entries i).occupied = true →
    (s.manager.entries j).occupied = true →
    (s.manager.entries i).volumeId = (s.manager.entries j).volumeId →
    (s.manager.entries i).path = (s.manager.entries j).path → i = j

/-! ## Finding a path -/

variable {m m' : Manager} {v v' : UInt8} {path path' : CString} {o : UInt64} {flags : UInt32}
  {slot : Nat} {e : Entry}

def Entry.Has (e : Entry) (v : UInt8) (path : CString) : Prop :=
  e.occupied = true ∧ e.volumeId = v ∧ e.path = path

/-- No two entries have one path of one volume. -/
def Distinct (m : Manager) : Prop :=
  ∀ i j v path, i < maxEntries → j < maxEntries → (m.entries i).Has v path →
    (m.entries j).Has v path → i = j

theorem entry_has_iff {i : Nat} :
    (entryOf m v i && vpPathEqual (m.entries i).path path) = true ↔ (m.entries i).Has v path := by
  simp [entryOf_iff, vpPathEqual_iff, Entry.Has, and_assoc]

theorem findPath_spec (h : findPath m v path = some slot) :
    slot < maxEntries ∧ (m.entries slot).Has v path := by
  obtain ⟨hlt, hhas⟩ := find?_range_spec h
  exact ⟨hlt, entry_has_iff.mp hhas⟩

theorem findPath_none_iff :
    findPath m v path = none ↔ ∀ i, i < maxEntries → ¬ (m.entries i).Has v path := by
  simp [findPath, List.find?_eq_none, ← entry_has_iff]

theorem Distinct.findPath_eq (h : Distinct m) (hlt : slot < maxEntries)
    (hhas : (m.entries slot).Has v path) : findPath m v path = some slot := by
  obtain ⟨i, hi⟩ : ∃ i, findPath m v path = some i :=
    find?_range_isSome hlt (entry_has_iff.mpr hhas)
  obtain ⟨hlt', hhas'⟩ := findPath_spec hi
  rw [hi, h i slot v path hlt' hlt hhas' hhas]

theorem findPath_update (hm : m'.entries = Function.update m.entries slot e)
    (hold : ¬ (m.entries slot).Has v path) (hnew : ¬ e.Has v path) :
    findPath m' v path = findPath m v path := by
  have hsame : ∀ i, (entryOf m' v i && vpPathEqual (m'.entries i).path path) =
      (entryOf m v i && vpPathEqual (m.entries i).path path) := by
    intro i
    rw [Bool.eq_iff_iff, entry_has_iff, entry_has_iff, hm]
    by_cases hi : i = slot
    · simp [hi, hold, hnew]
    · simp [hi]
  simp only [findPath, hsame]

/-! ## The invariant -/

/-- The manager holds the map. -/
structure PathStore.Inv (s : PathStore) : Prop where
  coherent : Coherent s.manager
  valid : ∀ i, i < maxEntries → (s.manager.entries i).occupied = true →
    ∃ blen, vpValidatePath (s.manager.entries i).path = .ok (blen, (s.manager.entries i).codepointMeta)
  distinct : Distinct s.manager
  contents : ∀ v path, s.contents (v, path) = (findPath s.manager v path).map fun i =>
    ((s.manager.entries i).byteOffset, (s.manager.entries i).flags)

theorem PathStore.Inv.lookup_eq {s : PathStore} (h : s.Inv) (v : UInt8) (path : CString) :
    (vipmFvipLookup s.manager v path).1 =
      match findPath s.manager v path with
      | none => .error .errNotFound
      | some i => .ok (s.manager.entries i) := by
  unfold vipmFvipLookup
  rw [if_neg (by simp [h.coherent.initialized])]
  cases hfound : findPath s.manager v path with
  | none => rfl
  | some i =>
    obtain ⟨hlt, hocc, rfl, rfl⟩ := findPath_spec hfound
    obtain ⟨blen, hvalid⟩ := h.valid i hlt hocc
    have hfind := h.coherent.trie.find_key _ _ (h.coherent.mapped i hlt hocc)
    simp [h.coherent.hashed i hlt hocc, hvalid, hfind]

theorem PathStore.Inv.sound {s : PathStore} (h : s.Inv) : s.Sound where
  found v path o flags hstored := by
    rw [h.contents, Option.map_eq_some_iff] at hstored
    obtain ⟨i, hfound, hentry⟩ := hstored
    obtain ⟨ho, hflags⟩ := Prod.mk.inj hentry
    refine ⟨s.manager.entries i, ?_, ho, hflags⟩
    rw [h.lookup_eq, hfound]
  absent v path hstored := by
    rw [h.contents, Option.map_eq_none_iff] at hstored
    rw [h.lookup_eq, hstored]
  distinct i j hi hj hocci hoccj hvolume hpath :=
    h.distinct i j _ _ hi hj ⟨hocci, rfl, rfl⟩ ⟨hoccj, hvolume.symm, hpath.symm⟩

theorem PathStore.Inv.replace {s : PathStore} (h : s.Inv) {contents : Contents} (hlt : slot < maxEntries)
    (hm : m'.entries = Function.update s.manager.entries slot e) (hcoherent : Coherent m')
    (hvalid : e.occupied = true → ∃ blen, vpValidatePath e.path = .ok (blen, e.codepointMeta))
    (hdistinct : ∀ v path, e.Has v path → ∀ i, i < maxEntries → i ≠ slot →
      ¬ (s.manager.entries i).Has v path)
    (hself : ∀ v path, e.Has v path → contents (v, path) = some (e.byteOffset, e.flags))
    (hgone : ∀ v path, (s.manager.entries slot).Has v path → ¬ e.Has v path →
      contents (v, path) = none)
    (hkeep : ∀ v path, ¬ (s.manager.entries slot).Has v path → ¬ e.Has v path →
      contents (v, path) = s.contents (v, path)) : PathStore.Inv ⟨m', contents⟩ := by
  have hslot : m'.entries slot = e := by rw [hm, Function.update_self]
  have hother : ∀ i, i ≠ slot → m'.entries i = s.manager.entries i := fun i hi => by
    rw [hm, Function.update_of_ne hi]
  have hdistinct' : Distinct m' := by
    intro i j v path hi hj hhasi hhasj
    by_cases his : i = slot <;> by_cases hjs : j = slot
    · rw [his, hjs]
    · rw [his, hslot] at hhasi
      rw [hother j hjs] at hhasj
      exact absurd hhasj (hdistinct v path hhasi j hj hjs)
    · rw [hjs, hslot] at hhasj
      rw [hother i his] at hhasi
      exact absurd hhasi (hdistinct v path hhasj i hi his)
    · rw [hother i his] at hhasi
      rw [hother j hjs] at hhasj
      exact h.distinct i j v path hi hj hhasi hhasj
  refine ⟨hcoherent, fun i hi hocc => ?_, hdistinct', fun v path => ?_⟩
  · by_cases his : i = slot
    · simp only [his, hslot] at hocc ⊢
      exact hvalid hocc
    · simp only [hother i his] at hocc ⊢
      exact h.valid i hi hocc
  · by_cases hnew : e.Has v path
    · have hfound : findPath m' v path = some slot := hdistinct'.findPath_eq hlt (hslot ▸ hnew)
      simp [hself v path hnew, hfound, hslot]
    · by_cases hold : (s.manager.entries slot).Has v path
      · have hfound : findPath m' v path = none := by
          refine findPath_none_iff.mpr fun i hi hhas => ?_
          by_cases his : i = slot
          · rw [his, hslot] at hhas
            exact hnew hhas
          · rw [hother i his] at hhas
            exact his (h.distinct i slot v path hi hlt hhas hold)
        simp [hgone v path hold hnew, hfound]
      · have hfound := findPath_update hm hold hnew
        simp only [hkeep v path hold hnew, h.contents, hfound]
        cases hi : findPath s.manager v path with
        | none => rfl
        | some i =>
          have his : i ≠ slot := by
            rintro rfl
            exact hold (findPath_spec hi).2
          simp [hother i his]

/-! ## Calls -/

theorem insert_of_not_writes (hinit : m.initialized = true) (flags : UInt32)
    (h : ¬ Writes m v path o) : ∃ st, st ≠ .ok ∧ vipmFvipInsert m v path o flags = (st, m) := by
  unfold vipmFvipInsert
  rw [if_neg (by simp [hinit]), if_neg (by simp [vipmKeyValid_iff.mpr (vipmKeyMake_lt v o)])]
  split
  · exact ⟨_, by decide, rfl⟩
  next hvolume =>
    cases hoffset : findOffset m v o with
    | some i =>
      refine ⟨_, ?_, rfl⟩
      split <;> decide
    | none =>
      rcases vpValidatePath_cases path with ⟨cps, hvalid⟩ | hvalid | hvalid
      · rw [hvalid]
        cases hfree : freeSlot m with
        | none => exact ⟨_, by decide, rfl⟩
        | some slot =>
          refine absurd ⟨hinit, by simpa using hvolume, hoffset, ?_, ?_⟩ h
          · rw [hvalid]
            rfl
          · rw [hfree]
            rfl
      · rw [hvalid]
        exact ⟨_, by decide, rfl⟩
      · rw [hvalid]
        exact ⟨_, by decide, rfl⟩

theorem FvipCall.record_of_ne_ok (contents : Contents) (call : FvipCall) {st : Status}
    (h : st ≠ .ok) : call.record contents st = contents := by
  unfold FvipCall.record
  split
  · exact absurd rfl h
  · exact absurd rfl h
  · rfl

variable {s : PathStore}

theorem PathStore.Inv.insert (h : s.Inv)
    (hfresh : (FvipCall.insert v path o flags).Fresh s.manager) :
    (s.call (.insert v path o flags)).Inv := by
  by_cases hwrites : Writes s.manager v path o
  · obtain ⟨hnone, hapart⟩ := hfresh hwrites
    rcases h.coherent.insert_cases v path o flags fun _ _ => hapart with
      ⟨st, hst, hinsert⟩ | ⟨slot, e, hslot, he, hinsert⟩ |
        ⟨slot, e, t, hslot, he, hvol, hpayload, htrie, hpay, hinsert⟩
    · simp only [PathStore.call, FvipCall.exec, hinsert, FvipCall.record_of_ne_ok _ _ hst]
      exact h
    · obtain ⟨hlt, hfree⟩ := of_freeSlot hslot
      have hno : ∀ v path, ¬ e.Has v path :=
        fun _ _ hhas => absurd (he.symm.trans hhas.1) Bool.false_ne_true
      have hold : ∀ v path, ¬ (s.manager.entries slot).Has v path :=
        fun _ _ hhas => absurd (hfree.symm.trans hhas.1) Bool.false_ne_true
      simp only [PathStore.call, FvipCall.exec, hinsert]
      refine h.replace hlt rfl (h.coherent.rolledBack hslot he)
        (fun hocc => absurd (he.symm.trans hocc) Bool.false_ne_true)
        (fun v path hhas => absurd hhas (hno v path)) (fun v path hhas => absurd hhas (hno v path))
        (fun v path hhas => absurd hhas (hold v path)) fun _ _ _ _ => ?_
      rw [FvipCall.record_of_ne_ok _ _ (by decide)]
    · obtain ⟨hlt, hfree⟩ := of_freeSlot hslot
      have hhas : ∀ v' path', e.Has v' path' → (v', path') = (v, path) := by
        rintro v' path' ⟨-, rfl, rfl⟩
        rw [he.volume, he.path]
      have hold : ∀ v path, ¬ (s.manager.entries slot).Has v path :=
        fun _ _ hhas => absurd (hfree.symm.trans hhas.1) Bool.false_ne_true
      simp only [PathStore.call, FvipCall.exec, hinsert, FvipCall.record]
      refine h.replace hlt rfl (h.coherent.inserted hslot he.occupied he.hashed hvol hpayload htrie hpay)
        (fun _ => he.valid) (fun v' path' hnew i hi _ => ?_) (fun v' path' hnew => ?_)
        (fun v' path' hhas => absurd hhas (hold v' path')) fun v' path' _ hnew => ?_
      · cases hhas v' path' hnew
        exact findPath_none_iff.mp hnone i hi
      · cases hhas v' path' hnew
        rw [Function.update_self, he.offset, he.flags]
      · refine Function.update_of_ne ?_ _ _
        intro heq
        cases heq
        exact hnew ⟨he.occupied, he.volume, he.path⟩
  · obtain ⟨st, hst, hinsert⟩ := insert_of_not_writes h.coherent.initialized flags hwrites
    simp only [PathStore.call, FvipCall.exec, hinsert, FvipCall.record_of_ne_ok _ _ hst]
    exact h

theorem PathStore.Inv.remove (h : s.Inv) (v : UInt8) (path : CString) :
    (s.call (.remove v path)).Inv := by
  rcases h.coherent.remove_cases v path with ⟨-, hremove⟩ | ⟨slot, t, hfound, htrie, hpay, hremove⟩
  · simp only [PathStore.call, FvipCall.exec, hremove, FvipCall.record]
    exact h
  · obtain ⟨hlt, hocc, hvolume, hpath⟩ := findPath_spec hfound
    have hno : ∀ v path, ¬ Entry.blank.Has v path := fun _ _ hhas => absurd hhas.1 Bool.false_ne_true
    simp only [PathStore.call, FvipCall.exec, hremove, FvipCall.record]
    refine h.replace hlt rfl (h.coherent.removed hlt hocc htrie hpay)
      (fun hocc => absurd hocc Bool.false_ne_true)
      (fun v path hhas => absurd hhas (hno v path)) (fun v path hhas => absurd hhas (hno v path))
      (fun v' path' hold _ => ?_) fun v' path' hold _ => ?_
    · rw [← hold.2.1, ← hold.2.2, hvolume, hpath, Function.update_self]
    · refine Function.update_of_ne ?_ _ _
      intro heq
      cases heq
      exact hold ⟨hocc, hvolume, hpath⟩

theorem PathStore.Inv.keep (h : s.Inv) (hm : m'.entries = s.manager.entries) (hcoherent : Coherent m') :
    PathStore.Inv ⟨m', s.contents⟩ := by
  have hfind : ∀ v path, findPath m' v path = findPath s.manager v path := by
    intro v path
    simp only [findPath, entryOf, hm]
  refine ⟨hcoherent, ?_, ?_, fun v path => ?_⟩
  · rw [show (PathStore.mk m' s.contents).manager.entries = s.manager.entries from hm]
    exact h.valid
  · intro i j v path
    rw [show (PathStore.mk m' s.contents).manager.entries = s.manager.entries from hm]
    exact h.distinct i j v path
  · rw [show (PathStore.mk m' s.contents).manager.entries = s.manager.entries from hm, hfind]
    exact h.contents v path

theorem PathStore.Inv.lookup (h : s.Inv) (v : UInt8) (path : CString) :
    (s.call (.lookup v path)).Inv := by
  obtain ⟨hits, misses, hsnd⟩ := vipmFvipLookup_snd s.manager v path
  have hkept := h.coherent.lookup v path
  cases hlookup : vipmFvipLookup s.manager v path with
  | mk r m' =>
    rw [hlookup] at hsnd hkept
    have hentries : m'.entries = s.manager.entries := by
      rw [show m' = _ from hsnd]
    cases r with
    | ok e | error st =>
      simp only [PathStore.call, FvipCall.exec, hlookup, FvipCall.record]
      exact h.keep hentries hkept

theorem vipmVolumeRegister_entries {base : UInt64} {label : CString} {st : Status}
    (h : vipmVolumeRegister m v base label = some (st, m')) : m'.entries = m.entries := by
  unfold vipmVolumeRegister at h
  split at h
  · cases h; rfl
  · split at h
    · cases h; rfl
    · split at h
      · cases h; rfl
      · split at h
        · cases h; rfl
        · split at h
          · cases h; rfl
          · split at h
            · cases h; rfl
            · cases h

theorem PathStore.Inv.register (h : s.Inv) (base : UInt64) {label : CString}
    (hfits : LabelFits s.manager v label) : (s.call (.register v base label)).Inv := by
  obtain ⟨st, m', hregister, hcoherent⟩ := h.coherent.register base hfits
  simp only [PathStore.call, FvipCall.exec, hregister, FvipCall.record]
  exact h.keep (vipmVolumeRegister_entries hregister) hcoherent

theorem PathStore.Inv.call (h : s.Inv) {call : FvipCall} (hfresh : call.Fresh s.manager) :
    (s.call call).Inv := by
  cases call with
  | register v base label => exact h.register base hfresh
  | insert v path o flags => exact h.insert hfresh
  | lookup v path => exact h.lookup v path
  | remove v path => exact h.remove v path

theorem PathStore.Inv.init (storage : Manager) : (PathStore.init storage).Inv := by
  have hfree : ∀ i, i < maxEntries → ((PathStore.init storage).manager.entries i).occupied = false := by
    intro i hi
    show (if i < maxEntries then { storage.entries i with occupied := false }
      else storage.entries i).occupied = false
    rw [if_pos hi]
  have hnone : ∀ v path, findPath (PathStore.init storage).manager v path = none := fun v path =>
    findPath_none_iff.mpr fun i hi hhas => nomatch (hfree i hi).symm.trans hhas.1
  refine ⟨coherent_init storage, fun i hi hocc => absurd ((hfree i hi).symm.trans hocc) nofun,
    fun i j v path hi _ hhas => absurd ((hfree i hi).symm.trans hhas.1) nofun, fun v path => ?_⟩
  rw [hnone]
  rfl

/-! ## Runs -/

/-- In a run whose calls meet their conditions, lookups return what was stored. -/
theorem pathMap_of_calls (storage : Manager) (calls : List FvipCall) (s : PathStore)
    (h : Calls (fun s call => call.Fresh s.manager) PathStore.call (.init storage) calls s) :
    s.Sound :=
  (h.invariant (fun _ _ hs hfresh => hs.call hfresh) (PathStore.Inv.init storage)).sound

/-- The file of `insertZero`, at another offset. -/
def insertMoved : FvipCall := .insert 0 (letter 0x61 noNul_a) 1 7

def removeZero : FvipCall := .remove 0 (letter 0x61 noNul_a)

def fileStored : PathStore := ((PathStore.init .zeroed).call registerZero).call insertZero

theorem pathMap_of_calls_moved :
    Calls (fun s call => call.Fresh s.manager) PathStore.call (.init .zeroed)
        [registerZero, insertZero, removeZero, insertMoved]
        ((fileStored.call removeZero).call insertMoved) ∧
      ((fileStored.call removeZero).call insertMoved).contents (0, letter 0x61 (by decide)) =
        some (1, 7) ∧
      ((fileStored.call removeZero).call insertMoved).Sound := by
  have hvolume : Calls (fun s call => call.Fresh s.manager) PathStore.call (.init .zeroed)
      ([] ++ [registerZero]) ((PathStore.init .zeroed).call registerZero) := by
    refine .snoc .nil fun _ _ _ => ?_
    decide
  have hfile : Calls (fun s call => call.Fresh s.manager) PathStore.call (.init .zeroed)
      ([registerZero] ++ [insertZero]) fileStored := by
    refine .snoc hvolume fun _ => ?_
    unfold offsetsApart
    decide
  have hremoved : Calls (fun s call => call.Fresh s.manager) PathStore.call (.init .zeroed)
      ([registerZero, insertZero] ++ [removeZero]) (fileStored.call removeZero) :=
    .snoc hfile trivial
  have hmoved : Calls (fun s call => call.Fresh s.manager) PathStore.call (.init .zeroed)
      ([registerZero, insertZero, removeZero] ++ [insertMoved])
      ((fileStored.call removeZero).call insertMoved) := by
    refine .snoc hremoved fun _ => ?_
    unfold offsetsApart
    decide +kernel
  exact ⟨hmoved, by decide +kernel, pathMap_of_calls .zeroed _ _ hmoved⟩

def PathStore.offsetOf (s : PathStore) (v : UInt8) (path : CString) : Option UInt64 :=
  (vipmFvipLookup s.manager v path).1.toOption.map (·.byteOffset)

/-- The file is inserted again at another offset without a remove.  A lookup
returns the old offset, and after one remove the file is still found. -/
theorem pathMap_inserted_twice :
    (([registerZero, insertZero, insertMoved] : List FvipCall).foldl PathStore.call
        (.init .zeroed)).offsetOf 0 (letter 0x61 (by decide)) = some 0 ∧
      ¬ (([registerZero, insertZero, insertMoved] : List FvipCall).foldl PathStore.call
        (.init .zeroed)).Sound ∧
      ¬ (([registerZero, insertZero, insertMoved, removeZero] : List FvipCall).foldl PathStore.call
        (.init .zeroed)).Sound := by
  have hoffset : (([registerZero, insertZero, insertMoved] : List FvipCall).foldl PathStore.call
      (.init .zeroed)).offsetOf 0 (letter 0x61 (by decide)) = some 0 := by decide +kernel
  have hleft : (([registerZero, insertZero, insertMoved, removeZero] : List FvipCall).foldl
      PathStore.call (.init .zeroed)).offsetOf 0 (letter 0x61 (by decide)) = some 1 := by
    decide +kernel
  refine ⟨hoffset, fun h => ?_, fun h => ?_⟩
  · obtain ⟨e, hlookup, he, -⟩ := h.found 0 (letter 0x61 noNul_a) 1 7 (by decide)
    rw [PathStore.offsetOf, hlookup] at hoffset
    exact absurd (he.symm.trans (Option.some.inj hoffset)) (by decide)
  · have hlookup := h.absent 0 (letter 0x61 (by decide)) (by decide +kernel)
    rw [PathStore.offsetOf, hlookup] at hleft
    cases hleft

end Vipm
