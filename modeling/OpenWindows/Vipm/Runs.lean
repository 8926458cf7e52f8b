import Mathlib.Data.UInt
import OpenWindows.Vipm.Coherence

/-!
# Runs of the path table

Every call of the path table that meets its condition keeps the manager coherent, so
the integrity walk accepts every state of a run, and an insert that fails hides no
path.
-/

namespace Vipm

open StepSystem Walk

variable {m : Manager} {v : UInt8} {path label : CString} {o : UInt64} {slot : Nat}

/-! ## Registering -/

def LabelFits (m : Manager) (v : UInt8) (label : CString) : Prop :=
  v.toNat < maxVolumes → hasVolume m v = false → (vpValidatePath label).isOk = true →
    label.bytes.length < labelMax

theorem Coherent.withVolume (h : Coherent m) (slot : Nat) {vol : Volume} (count : UInt8)
    (hbound : vol.volumeId.toNat < maxVolumes) (hnew : hasVolume m vol.volumeId = false) :
    Coherent { m with volumes := Function.update m.volumes slot vol, volumeCount := count } := by
  have hother : ∀ i < maxVolumes, (m.volumes i).registered = true →
      (m.volumes i).volumeId ≠ vol.volumeId := by
    intro i hi hreg
    have hnot := List.any_eq_false.mp hnew i (List.mem_range.mpr hi)
    simpa [volumeAt, hreg] using hnot
  refine ⟨h.initialized, h.trie, h.mapped, h.hashed, h.entryVolume, h.payload, h.count, ?_, ?_⟩
  · intro i hi hreg
    by_cases his : i = slot
    · subst his
      simpa using hbound
    · simp only [Function.update_of_ne his] at hreg ⊢
      exact h.volumeBound i hi hreg
  · intro i hi j hj hri hrj hid
    by_cases his : i = slot
    · subst his
      by_cases hjs : j = i
      · exact hjs.symm
      · simp only [Function.update_self, Function.update_of_ne hjs] at hrj hid
        exact absurd hid.symm (hother j hj hrj)
    · by_cases hjs : j = slot
      · subst hjs
        simp only [Function.update_self, Function.update_of_ne his] at hri hid
        exact absurd hid (hother i hi hri)
      · simp only [Function.update_of_ne his, Function.update_of_ne hjs] at hri hrj hid
        exact h.volumesDistinct i hi j hj hri hrj hid

theorem Coherent.register (h : Coherent m) (base : UInt64) (hfits : LabelFits m v label) :
    ∃ st m', vipmVolumeRegister m v base label = some (st, m') ∧ Coherent m' := by
  unfold vipmVolumeRegister
  rw [if_neg (by simp [h.initialized])]
  split
  · exact ⟨_, m, rfl, h⟩
  next hv =>
    have hv := Nat.lt_of_not_le hv
    rcases vpValidatePath_cases label with ⟨cps, hvalid⟩ | hvalid | hvalid
    · rw [hvalid]
      cases hhas : hasVolume m v with
      | true => exact ⟨_, m, rfl, h⟩
      | false =>
        have hlen := hfits hv hhas (by rw [hvalid]; rfl)
        cases hslot : (List.range maxVolumes).find? fun i => !(m.volumes i).registered with
        | none => exact ⟨_, m, rfl, h⟩
        | some slot =>
          simp only [if_pos hlen]
          exact ⟨_, _, rfl, h.withVolume slot (m.volumeCount + 1) hv hhas⟩
    · rw [hvalid]
      exact ⟨_, m, rfl, h⟩
    · rw [hvalid]
      exact ⟨_, m, rfl, h⟩

/-! ## Inserting and looking up -/

theorem Coherent.insert (h : Coherent m) (flags : UInt32)
    (hapart : (vpValidatePath path).isOk = true → (freeSlot m).isSome = true → offsetsApart m v o) :
    Coherent (vipmFvipInsert m v path o flags).2 := by
  rcases h.insert_cases v path o flags hapart with
    ⟨st, -, hinsert⟩ | ⟨slot, e, hslot, he, hinsert⟩ |
      ⟨slot, e, t, hslot, he, hvol, hnone, htrie, hpay, hinsert⟩
  · rw [hinsert]
    exact h
  · rw [hinsert]
    exact h.rolledBack hslot he
  · rw [hinsert]
    exact h.inserted hslot he.occupied he.hashed hvol hnone htrie hpay

theorem Coherent.remove (h : Coherent m) (v : UInt8) (path : CString) :
    Coherent (vipmFvipRemove m v path).2 := by
  rcases h.remove_cases v path with ⟨-, hremove⟩ | ⟨slot, t, hfound, htrie, hpay, hremove⟩
  · rw [hremove]
    exact h
  · obtain ⟨hlt, hocc, -⟩ := of_findPath hfound
    rw [hremove]
    exact h.removed hlt hocc htrie hpay

theorem vipmFvipLookup_snd (m : Manager) (v : UInt8) (path : CString) :
    ∃ hits misses,
      (vipmFvipLookup m v path).2 = { m with fvipHits := hits, fvipMisses := misses } := by
  unfold vipmFvipLookup
  split
  · exact ⟨m.fvipHits, m.fvipMisses, rfl⟩
  · cases findPath m v path with
    | none => exact ⟨m.fvipHits, m.fvipMisses + 1, rfl⟩
    | some i =>
      dsimp only
      repeat' split
      any_goals exact ⟨m.fvipHits, m.fvipMisses, rfl⟩
      exact ⟨m.fvipHits + 1, m.fvipMisses, rfl⟩

theorem Coherent.lookup (h : Coherent m) (v : UInt8) (path : CString) :
    Coherent (vipmFvipLookup m v path).2 := by
  obtain ⟨hits, misses, hsnd⟩ := vipmFvipLookup_snd m v path
  rw [hsnd]
  exact ⟨h.initialized, h.trie, h.mapped, h.hashed, h.entryVolume, h.payload, h.count,
    h.volumeBound, h.volumesDistinct⟩

theorem lookup_rolledBack (hslot : freeSlot m = some slot) {e : Entry} (he : e.occupied = false)
    (v : UInt8) (path : CString) :
    (vipmFvipLookup (rolledBack m slot e) v path).1 = (vipmFvipLookup m v path).1 := by
  obtain ⟨-, hfree⟩ := of_freeSlot hslot
  have hself : (rolledBack m slot e).entries slot = e := Function.update_self ..
  have hkeep : ∀ i, i ≠ slot → (rolledBack m slot e).entries i = m.entries i :=
    fun i hi => Function.update_of_ne hi ..
  have hfind : findPath (rolledBack m slot e) v path = findPath m v path := by
    unfold findPath
    congr 1
    funext i
    by_cases hi : i = slot
    · simp [entryOf, hi, hself, he, hfree]
    · simp [entryOf, hkeep i hi]
  unfold vipmFvipLookup
  rw [hfind, show (rolledBack m slot e).initialized = m.initialized from rfl]
  split
  · rfl
  · cases hfound : findPath m v path with
    | none => rfl
    | some i =>
      have hi : i ≠ slot := by
        rintro rfl
        rw [(of_findPath hfound).2.1] at hfree
        cases hfree
      simp only [hkeep i hi, show (rolledBack m slot e).trie = m.trie from rfl]
      split
      · rfl
      · split
        · rfl
        · split
          · rfl
          · split
            · rfl
            · split
              · rfl
              · rfl

/-! ## Runs -/

/-- The calls. -/
inductive FvipCall where
  | register (volumeId : UInt8) (baseSector : UInt64) (label : CString)
  | insert (volumeId : UInt8) (path : CString) (byteOffset : UInt64) (flags : UInt32)
  | lookup (volumeId : UInt8) (path : CString)
  | remove (volumeId : UInt8) (path : CString)

def FvipCall.exec (m : Manager) : FvipCall → Option (Status × Manager)
  | .register v base label => vipmVolumeRegister m v base label
  | .insert v path o flags => some (vipmFvipInsert m v path o flags)
  | .lookup v path =>
    match vipmFvipLookup m v path with
    | (.ok _, m) => some (.ok, m)
    | (.error st, m) => some (st, m)
  | .remove v path => some (vipmFvipRemove m v path)

def FvipCall.next (m : Manager) (call : FvipCall) : Manager :=
  match call.exec m with
  | some (_, m) => m
  | none => m

def FvipCall.Defined (m : Manager) (call : FvipCall) : Prop := (call.exec m).isSome = true

/-- The condition of a call: a label that is written fits its buffer, and an insert that
writes meets no entry of its volume at another offset with the same low forty bits. -/
def FvipCall.Meets (m : Manager) : FvipCall → Prop
  | .register v _ label => LabelFits m v label
  | .insert v path o _ =>
    (vpValidatePath path).isOk = true → (freeSlot m).isSome = true → offsetsApart m v o
  | .lookup _ _ => True
  | .remove _ _ => True

/-- An insert that fails leaves every lookup as it was. -/
def InsertsSafe (m : Manager) (v : UInt8) (path : CString) (o : UInt64) (flags : UInt32) : Prop :=
  (vipmFvipInsert m v path o flags).1 ≠ .ok → ∀ v' path',
    (vipmFvipLookup (vipmFvipInsert m v path o flags).2 v' path').1 = (vipmFvipLookup m v' path').1

theorem Coherent.exec (h : Coherent m) {call : FvipCall} (hmeets : call.Meets m) :
    ∃ st m', call.exec m = some (st, m') ∧ Coherent m' := by
  cases call with
  | register v base label => exact h.register base hmeets
  | insert v path o flags =>
    exact ⟨(vipmFvipInsert m v path o flags).1, _, rfl, h.insert flags hmeets⟩
  | lookup v path =>
    have hkeep := h.lookup v path
    cases hlookup : vipmFvipLookup m v path with
    | mk r m' =>
      rw [hlookup] at hkeep
      cases r with
      | ok e => exact ⟨.ok, m', by rw [FvipCall.exec, hlookup], hkeep⟩
      | error st => exact ⟨st, m', by rw [FvipCall.exec, hlookup], hkeep⟩
  | remove v path =>
    exact ⟨(vipmFvipRemove m v path).1, _, rfl, h.remove v path⟩

theorem Coherent.insertsSafe (h : Coherent m) (flags : UInt32)
    (hmeets : (FvipCall.insert v path o flags).Meets m) : InsertsSafe m v path o flags := by
  intro hst v' path'
  rcases h.insert_cases v path o flags hmeets with
    ⟨st, -, hinsert⟩ | ⟨slot, e, hslot, he, hinsert⟩ | ⟨slot, e, t, -, -, -, -, -, -, hinsert⟩
  · rw [hinsert]
  · rw [hinsert]
    exact lookup_rolledBack hslot he v' path'
  · rw [hinsert] at hst
    exact absurd rfl hst

/-- In a run whose calls meet their conditions, the walk accepts every state, an insert
that fails hides no path, and every such call has an outcome. -/
theorem coherent_of_calls (storage : Manager) (calls : List FvipCall) (m : Manager)
    (h : Calls FvipCall.Meets FvipCall.next (vipmInitManager storage).2 calls m) :
    vipmIntegrityVerify m = .ok ∧
      (∀ v path o flags, (FvipCall.insert v path o flags).Meets m → InsertsSafe m v path o flags) ∧
      ∀ call : FvipCall, call.Meets m → call.Defined m := by
  have hinv : Coherent m := by
    refine h.invariant (fun m call hm hmeets => ?_) (coherent_init storage)
    obtain ⟨st, m', hexec, hm'⟩ := hm.exec hmeets
    unfold FvipCall.next
    rw [hexec]
    exact hm'
  refine ⟨hinv.verify_eq, fun v path o flags hmeets => hinv.insertsSafe flags hmeets,
    fun call hmeets => ?_⟩
  obtain ⟨st, m', hexec, -⟩ := hinv.exec hmeets
  unfold FvipCall.Defined
  rw [hexec]
  rfl

/-! ## Keys that collide -/

def letter (c : UInt8) (h : 0 ∉ [c]) : CString := ⟨[c], h⟩

/-- The first volume is registered. -/
def registerZero : FvipCall := .register 0 0 (letter 0x41 (by decide))

theorem noNul_a : (0 : UInt8) ∉ [0x61] := by decide

/-- A file at the start of the volume. -/
def insertZero : FvipCall := .insert 0 (letter 0x61 noNul_a) 0 0

/-- A file at an offset with the same low forty bits. -/
def insertCollision : FvipCall := .insert 0 (letter 0x62 (by decide)) (2 ^ 40) 0

def oneVolume : Manager := registerZero.next (vipmInitManager .zeroed).2

def oneFile : Manager := insertZero.next oneVolume

theorem coherent_oneFile :
    vipmIntegrityVerify oneFile = .ok ∧
      (∀ v path o flags, (FvipCall.insert v path o flags).Meets oneFile →
        InsertsSafe oneFile v path o flags) ∧
      ∀ call : FvipCall, call.Meets oneFile → call.Defined oneFile := by
  have hvolume : Calls FvipCall.Meets FvipCall.next (vipmInitManager .zeroed).2
      ([] ++ [registerZero]) oneVolume := by
    refine .snoc .nil fun _ _ _ => ?_
    decide
  have hfile : Calls FvipCall.Meets FvipCall.next (vipmInitManager .zeroed).2
      ([registerZero] ++ [insertZero]) oneFile := by
    refine .snoc hvolume fun _ _ => ?_
    unfold offsetsApart
    decide
  exact coherent_of_calls .zeroed _ oneFile hfile

/-- The second file is refused, its entry is taken back and the mapping stays: the walk
fails and the first file is no longer found. -/
theorem collision_not_undone :
    vipmIntegrityVerify oneFile = .ok ∧
      (vipmFvipInsert oneFile 0 (letter 0x62 (by decide)) (2 ^ 40) 0).1 = .errDuplicateMapping ∧
      (vipmFvipLookup oneFile 0 (letter 0x61 (by decide))).1.isOk = true ∧
      (vipmFvipLookup (insertCollision.next oneFile) 0 (letter 0x61 (by decide))).1.isOk = false ∧
      vipmIntegrityVerify (insertCollision.next oneFile) = .banEntryCorrupt ∧
      ¬ ∀ calls m, Calls FvipCall.Defined FvipCall.next (vipmInitManager .zeroed).2 calls m →
        vipmIntegrityVerify m = .ok ∧ ∀ v path o flags, InsertsSafe m v path o flags := by
  have hverify : vipmIntegrityVerify (insertCollision.next oneFile) = .banEntryCorrupt := by
    decide +kernel
  refine ⟨by decide +kernel, by decide +kernel, by decide +kernel, by decide +kernel, hverify,
    fun hclaim => ?_⟩
  have hvolume : Calls FvipCall.Defined FvipCall.next (vipmInitManager .zeroed).2
      ([] ++ [registerZero]) oneVolume :=
    .snoc .nil (show (registerZero.exec _).isSome = true by decide +kernel)
  have hfile : Calls FvipCall.Defined FvipCall.next (vipmInitManager .zeroed).2
      ([registerZero] ++ [insertZero]) oneFile := .snoc hvolume rfl
  have hcollision : Calls FvipCall.Defined FvipCall.next (vipmInitManager .zeroed).2
      ([registerZero, insertZero] ++ [insertCollision]) (insertCollision.next oneFile) :=
    .snoc hfile rfl
  rw [(hclaim _ _ hcollision).1] at hverify
  cases hverify

end Vipm
