import OpenWindows.Classpnp.Buses

/-!
# Resources and their devices

The lists of resource indices split the resources among the devices, the interrupt lines and
DMA channels that were assigned are values taken from their pools, and an address range is the
one of its device.  A device without resources is the only kind that gets some: once it has left
the detected state it does not come back to it, whether it is disabled in between or not.
-/

namespace Classpnp

open Arbiter

/-! ## The invariant -/

/-- The values of the resources of one type. -/
def valuesOf (type : ResourceType) (value : Resource → Nat) (rs : List Resource) : List Nat :=
  (rs.filter fun r => r.type == type).map value

/-- The interrupt lines that were assigned. -/
def irqLines (rs : List Resource) : List Nat := valuesOf .irq Resource.irqNumber rs

/-- The DMA channels that were assigned. -/
def dmaChannels (rs : List Resource) : List Nat := valuesOf .dmaChannel Resource.baseLo rs

/-- The address range is the one of device `d`. -/
def Resource.MmioOf (d : Nat) (r : Resource) : Prop :=
  r.type = .mmio → r.baseLo = mmioBase + d * mmioStep ∧ r.length = mmioLength

/-- Every resource has one holder, and the pools mark what is held. -/
structure ResInv (C : Context) : Prop where
  shares : Shares (C.devices.map Device.resourceIndices) C.resources.length
  few : C.resources.length ≤ maxResources
  irq : Taken irqPool C.irqUsed (irqLines C.resources)
  dma : Taken dmaPool C.dmaUsed (dmaChannels C.resources)
  irqLength : C.irqUsed.length = irqPool.length
  dmaLength : C.dmaUsed.length = dmaPool.length
  devices : C.devices.length ≤ maxDevices
  mmio : ∀ (d r : Nat) (dev : Device) (res : Resource), C.devices[d]? = some dev →
    r ∈ dev.resourceIndices → C.resources[r]? = some res → res.MmioOf d

theorem resInv_init : ResInv init where
  shares := shares_nil
  few := Nat.zero_le _
  irq := taken_nil
  dma := taken_nil
  irqLength := rfl
  dmaLength := rfl
  devices := Nat.zero_le _
  mmio d r dev res hd := by cases hd

section Give

variable {C : Context} {d : Nat} {res : Resource} {f : Device → Device}

theorem valuesOf_concat (type : ResourceType) (value : Resource → Nat) (rs : List Resource)
    (res : Resource) :
    valuesOf type value (rs ++ [res]) =
      if res.type = type then valuesOf type value rs ++ [value res]
      else valuesOf type value rs := by
  unfold valuesOf
  rw [List.filter_append, List.map_append]
  by_cases h : res.type = type
  · rw [if_pos h, List.filter_singleton, beq_iff_eq.2 h]
    rfl
  · rw [if_neg h, List.filter_singleton, beq_eq_false_iff_ne.2 h]
    exact List.append_nil _

theorem map_resourceIndices_give (hsmall : C.resources.length < 2 ^ 8) :
    (C.give d res f).devices.map Device.resourceIndices =
      (C.devices.map Device.resourceIndices).modify d (· ++ [C.resources.length]) := by
  apply List.ext_getElem?
  intro i
  unfold Context.give
  rw [List.getElem?_map, List.getElem?_modify, List.getElem?_modify, List.getElem?_map,
    Nat.mod_eq_of_lt hsmall]
  cases C.devices[i]? with
  | none => rfl
  | some dev =>
    simp only [Option.map_eq_map, Option.map_some, Option.some.injEq]
    split
    · rfl
    · rfl

theorem ResInv.give (h : ResInv C) (hd : d < C.devices.length)
    (hroom : C.resources.length < maxResources) (hmmio : res.MmioOf d) {irqUsed dmaUsed : List Bool}
    (hirq : Taken irqPool irqUsed (irqLines (C.resources ++ [res])))
    (hdma : Taken dmaPool dmaUsed (dmaChannels (C.resources ++ [res])))
    (hirqLength : irqUsed.length = irqPool.length) (hdmaLength : dmaUsed.length = dmaPool.length) :
    ResInv { C.give d res f with irqUsed := irqUsed, dmaUsed := dmaUsed } where
  shares := by
    have hsmall : C.resources.length < 2 ^ 8 := by
      rw [maxResources] at hroom
      omega
    show Shares ((C.give d res f).devices.map _) (C.resources ++ [res]).length
    rw [map_resourceIndices_give hsmall, List.length_append, List.length_singleton]
    exact h.shares.give (by rw [List.length_map]; exact hd)
  few := by
    show (C.resources ++ [res]).length ≤ _
    rw [List.length_append, List.length_singleton]
    exact hroom
  irq := hirq
  dma := hdma
  irqLength := hirqLength
  dmaLength := hdmaLength
  devices := by
    show (C.devices.modify _ _).length ≤ _
    rw [List.length_modify]
    exact h.devices
  mmio := by
    have hsmall : C.resources.length < 2 ^ 8 := by
      rw [maxResources] at hroom
      omega
    intro d' r dev' res' hd' hr hres
    have hres' : (C.resources ++ [res])[r]? = some res' := hres
    have hdev' : (C.devices.modify d _)[d']? = some dev' := hd'
    rw [List.getElem?_modify] at hdev'
    obtain ⟨dev, hdev, rfl⟩ := Option.map_eq_some_iff.1 hdev'
    have hown : (C.devices.map Device.resourceIndices)[d']? = some dev.resourceIndices := by
      rw [List.getElem?_map, hdev]
      rfl
    have hold : r ∈ dev.resourceIndices → res'.MmioOf d' := by
      intro hmem
      rw [List.getElem?_append_left (h.shares.lt hown hmem)] at hres'
      exact h.mmio d' r dev res' hdev hmem hres'
    split at hr
    · next hdd =>
      subst hdd
      rcases List.mem_append.1 hr with hr | hr
      · exact hold hr
      · rw [List.mem_singleton, Nat.mod_eq_of_lt hsmall] at hr
        subst hr
        rw [List.getElem?_concat_length] at hres'
        cases hres'
        exact hmmio
    · exact hold hr

end Give

/-! ## Assignment -/

theorem irqPool_nodup : irqPool.Nodup := by decide

theorem dmaPool_nodup : dmaPool.Nodup := by decide

/-- At most `k` resources are assigned to device `d`, and the rest is kept. -/
structure Gives (d k : Nat) (C C' : Context) : Prop where
  inv : ResInv C'
  buses : C'.buses = C.buses
  links : C'.devices.map Device.busIdx = C.devices.map Device.busIdx
  length : C'.devices.length = C.devices.length
  others : ∀ i, i ≠ d → C'.devices[i]? = C.devices[i]?
  indices : ∀ dev dev', C.devices[d]? = some dev → C'.devices[d]? = some dev' →
    dev'.resourceIndices.length ≤ dev.resourceIndices.length + k

theorem Gives.same {d k : Nat} {C : Context} (h : ResInv C) : Gives d k C C where
  inv := h
  buses := rfl
  links := rfl
  length := rfl
  others _ _ := rfl
  indices dev dev' hdev hdev' := by
    rw [hdev] at hdev'
    cases hdev'
    exact Nat.le_add_right _ _

theorem Gives.trans {d k m : Nat} {C C₁ C₂ : Context} (h₁ : Gives d k C C₁)
    (h₂ : Gives d m C₁ C₂) : Gives d (k + m) C C₂ where
  inv := h₂.inv
  buses := h₂.buses.trans h₁.buses
  links := h₂.links.trans h₁.links
  length := h₂.length.trans h₁.length
  others i hi := (h₂.others i hi).trans (h₁.others i hi)
  indices dev dev₂ hdev hdev₂ := by
    have hlt : d < C₁.devices.length := by
      rw [h₁.length]
      exact (List.getElem?_eq_some_iff.1 hdev).1
    have hfirst := h₁.indices dev _ hdev (List.getElem?_eq_getElem hlt)
    have hsecond := h₂.indices _ dev₂ (List.getElem?_eq_getElem hlt) hdev₂
    omega

theorem map_busIdx_modify (devices : List Device) (d : Nat) {f : Device → Device}
    (hf : ∀ dev, (f dev).busIdx = dev.busIdx) :
    (devices.modify d f).map Device.busIdx = devices.map Device.busIdx := by
  apply List.ext_getElem?
  intro i
  rw [List.getElem?_map, List.getElem?_map, List.getElem?_modify]
  cases devices[i]? with
  | none => rfl
  | some dev =>
    simp only [Option.map_eq_map, Option.map_some, Option.some.injEq]
    split
    · exact hf dev
    · rfl

section Assign

variable {C : Context} {d : Nat}

theorem Gives.of_give {res : Resource} {f : Device → Device} {irqUsed dmaUsed : List Bool}
    (hinv : ResInv { C.give d res f with irqUsed := irqUsed, dmaUsed := dmaUsed })
    (hf : ∀ dev, (f dev).busIdx = dev.busIdx) :
    Gives d 1 C { C.give d res f with irqUsed := irqUsed, dmaUsed := dmaUsed } where
  inv := hinv
  buses := rfl
  links := map_busIdx_modify C.devices d hf
  length := List.length_modify ..
  others i hi := by
    show (C.devices.modify d _)[i]? = _
    rw [List.getElem?_modify]
    simp only [if_neg (Ne.symm hi), Option.map_eq_map, Option.map_id']
  indices dev dev' hdev hdev' := by
    replace hdev' : (C.devices.modify d _)[d]? = some dev' := hdev'
    rw [List.getElem?_modify_eq, hdev] at hdev'
    cases hdev'
    exact Nat.le_of_eq (List.length_append ..)

theorem assignMmio_gives (h : ResInv C) (hd : d < C.devices.length) :
    Gives d 1 C (assignMmio C d).1 := by
  unfold assignMmio
  split
  · next hroom =>
    have hdevices := h.devices
    rw [maxDevices] at hdevices
    have htype : (mmioResource d).type = .mmio := rfl
    have hmmio : (mmioResource d).MmioOf d := by
      intro _
      have hbase : (mmioResource d).baseLo = (mmioBase + d * mmioStep) % 2 ^ 32 := rfl
      rw [hbase, Nat.mod_eq_of_lt (by rw [mmioBase, mmioStep]; omega)]
      exact ⟨rfl, rfl⟩
    have hirq : Taken irqPool C.irqUsed (irqLines (C.resources ++ [mmioResource d])) := by
      rw [irqLines, valuesOf_concat, htype, if_neg (by decide)]
      exact h.irq
    have hdma : Taken dmaPool C.dmaUsed (dmaChannels (C.resources ++ [mmioResource d])) := by
      rw [dmaChannels, valuesOf_concat, htype, if_neg (by decide)]
      exact h.dma
    exact Gives.of_give (h.give hd hroom hmmio hirq hdma h.irqLength h.dmaLength) fun _ => rfl
  · exact Gives.same h

theorem free_place {pool : List Nat} {used : List Bool} {i : Nat}
    (hlength : used.length = pool.length) (hi : used.findIdx? (fun u => !u) = some i) :
    used[i]? = some false ∧ pool[i]? = some (pool.getD i 0) := by
  obtain ⟨hlt, hfree, -⟩ := List.findIdx?_eq_some_iff_getElem.1 hi
  constructor
  · rw [List.getElem?_eq_getElem hlt]
    simpa using hfree
  · rw [List.getElem?_eq_getElem (hlength ▸ hlt), ← List.getElem_eq_getD]

section Pool

variable {pool : List Nat} {used : List Bool} {res : Nat → Resource} {f : Nat → Device → Device}
  {mark : List Bool → Context → Context}

theorem assignFrom_gives (h : ResInv C)
    (hgive : ∀ i, used.findIdx? (fun u => !u) = some i → C.resources.length < maxResources →
      Gives d 1 C (mark (used.set i true) (C.give d (res (pool.getD i 0)) (f (pool.getD i 0))))) :
    Gives d 1 C (assignFrom C d pool used res f mark).1 := by
  unfold assignFrom
  split
  · exact Gives.same h
  · next i hi =>
    split
    · exact Gives.same h
    · next hroom => exact hgive i hi (Nat.lt_of_not_le hroom)

theorem assignFrom_false (h : (assignFrom C d pool used res f mark).2 = false) :
    (assignFrom C d pool used res f mark).1 = C := by
  unfold assignFrom at h ⊢
  split
  · rfl
  · next i hi =>
    split
    · rfl
    · next hroom =>
      simp only [hi, if_neg hroom] at h
      cases h

end Pool

theorem assignIrq_gives (h : ResInv C) (hd : d < C.devices.length) :
    Gives d 1 C (assignIrq C d).1 := by
  refine assignFrom_gives h fun i hi hroom => ?_
  obtain ⟨hfree, hline⟩ := free_place h.irqLength hi
  refine Gives.of_give (h.give hd hroom (fun htype => by cases htype) ?_ ?_
    (by rw [List.length_set]; exact h.irqLength) h.dmaLength) fun _ => rfl
  · rw [irqLines, valuesOf_concat, if_pos rfl]
    exact h.irq.take irqPool_nodup hfree hline
  · rw [dmaChannels, valuesOf_concat, if_neg nofun]
    exact h.dma

theorem assignDma_gives (h : ResInv C) (hd : d < C.devices.length) :
    Gives d 1 C (assignDma C d).1 := by
  refine assignFrom_gives h fun i hi hroom => ?_
  obtain ⟨hfree, hchannel⟩ := free_place h.dmaLength hi
  refine Gives.of_give (h.give hd hroom (fun htype => by cases htype) ?_ ?_ h.irqLength
    (by rw [List.length_set]; exact h.dmaLength)) fun _ => rfl
  · rw [irqLines, valuesOf_concat, if_neg nofun]
    exact h.irq
  · rw [dmaChannels, valuesOf_concat, if_pos rfl]
    exact h.dma.take dmaPool_nodup hfree hchannel

variable {assign : Context → Nat → Context × Bool}

theorem assignIf_gives {wanted : Bool}
    {s : Context × Bool} (h : ResInv s.1) (hgives : Gives d 1 s.1 (assign s.1 d).1) :
    Gives d 1 s.1 (assignIf wanted assign d s).1 := by
  cases wanted with
  | false => exact Gives.same h
  | true => exact hgives

theorem assignIf_false {wanted : Bool}
    {s : Context × Bool} (hassign : (assign s.1 d).2 = false → (assign s.1 d).1 = s.1)
    (h : (assignIf wanted assign d s).2 = false) :
    s.2 = false ∧ (assignIf wanted assign d s).1 = s.1 := by
  cases wanted with
  | false => exact ⟨h, rfl⟩
  | true =>
    obtain ⟨hs, hnone⟩ := Bool.or_eq_false_iff.1 h
    exact ⟨hs, hassign hnone⟩

theorem assignMmio_false (h : (assignMmio C d).2 = false) : (assignMmio C d).1 = C := by
  unfold assignMmio at h ⊢
  split
  · next hroom =>
    rw [if_pos hroom] at h
    cases h
  · rfl

end Assign

/-! ## States -/

def Device.Pending (dev : Device) : Prop :=
  dev.state = stateDetected ∨
    dev.state = stateDisabled ∧ dev.flags &&& flagPrevStateMask = stateDetected

/-- A device in order: its state fits the mask, it has no resources while it can get some, and
its resource indices fit the array. -/
structure Device.Tidy (dev : Device) : Prop where
  state : dev.state &&& flagPrevStateMask = dev.state
  pending : dev.Pending → dev.resourceIndices = []
  room : dev.resourceIndices.length ≤ maxResourcePerDev

theorem savedFlags_mask (flags state : UInt32) :
    savedFlags flags state &&& flagPrevStateMask = state &&& flagPrevStateMask := by
  have hapart : flagDisabled.toBitVec &&& flagPrevStateMask.toBitVec = 0 := by decide
  apply UInt32.toBitVec_inj.1
  ext i hi
  have hbit : (flagDisabled.toBitVec[i] && flagPrevStateMask.toBitVec[i]) = false := by
    rw [← BitVec.getElem_and, hapart]
    exact BitVec.getElem_zero hi
  simp only [savedFlags, UInt32.toBitVec_and, UInt32.toBitVec_or, UInt32.toBitVec_not,
    BitVec.getElem_and, BitVec.getElem_or, BitVec.getElem_not]
  cases hmask : flagPrevStateMask.toBitVec[i] with
  | false => rw [Bool.and_false, Bool.and_false]
  | true =>
    rw [hmask, Bool.and_true] at hbit
    rw [hbit, Bool.not_true, Bool.and_false, Bool.false_or, Bool.and_true, Bool.or_false]

/-- Every device in order. -/
def Tidy (C : Context) : Prop := ∀ dev ∈ C.devices, dev.Tidy

variable {dev : Device}

theorem Tidy.get {C : Context} (h : Tidy C) {d : Nat}
    (hd : C.devices[d]? = some dev) : dev.Tidy := h dev (List.mem_of_getElem? hd)

theorem Tidy.modify {C : Context} (h : Tidy C) {d : Nat} {f : Device → Device}
    (hd : C.devices[d]? = some dev) (hf : (f dev).Tidy) :
    ∀ dev' ∈ C.devices.modify d f, dev'.Tidy := by
  intro dev' hdev'
  obtain ⟨i, hi⟩ := List.mem_iff_getElem?.1 hdev'
  rw [List.getElem?_modify] at hi
  obtain ⟨dev'', hdev'', rfl⟩ := Option.map_eq_some_iff.1 hi
  split
  · next hdi =>
    subst hdi
    rw [hd] at hdev''
    cases hdev''
    exact hf
  · exact h.get hdev''

theorem detect_tidy (busType busIdx slot : Nat) : (detect busType busIdx slot).Tidy where
  state := by
    show stateDetected &&& flagPrevStateMask = stateDetected
    decide
  pending _ := rfl
  room := Nat.zero_le _

theorem Device.settled {state : UInt32} {driverName : List UInt8}
    (hroom : dev.resourceIndices.length ≤ maxResourcePerDev)
    (hmask : state &&& flagPrevStateMask = state) (hdetected : state ≠ stateDetected)
    (hdisabled : state ≠ stateDisabled) :
    Device.Tidy { dev with driverName := driverName, state := state } where
  state := hmask
  pending := by
    rintro (hp | hp)
    · exact absurd hp hdetected
    · exact absurd hp.1 hdisabled
  room := hroom

theorem Device.Tidy.disable (h : dev.Tidy) :
    Device.Tidy { dev with flags := savedFlags dev.flags dev.state, state := stateDisabled } where
  state := by
    show stateDisabled &&& flagPrevStateMask = stateDisabled
    decide
  pending := by
    intro hp
    apply h.pending
    cases hp with
    | inl hp => exact absurd hp (show stateDisabled ≠ stateDetected by decide)
    | inr hp =>
      have hflags := hp.2
      dsimp only at hflags
      rw [savedFlags_mask, h.state] at hflags
      exact .inl hflags
  room := h.room

theorem Device.Tidy.reenable (h : dev.Tidy) (hdisabled : dev.state = stateDisabled) :
    Device.Tidy { dev with
      flags := (dev.flags &&& ~~~flagDisabled) &&& ~~~flagPrevStateMask
      state := dev.flags &&& flagPrevStateMask } where
  state := by
    show (dev.flags &&& flagPrevStateMask) &&& flagPrevStateMask = dev.flags &&& flagPrevStateMask
    rw [UInt32.and_assoc, UInt32.and_self]
  pending := by
    intro hp
    apply h.pending
    cases hp with
    | inl hp => exact .inr ⟨hdisabled, hp⟩
    | inr hp =>
      have hflags := hp.2
      dsimp only at hflags
      rw [UInt32.and_assoc, show ~~~flagPrevStateMask &&& flagPrevStateMask = 0 by decide,
        UInt32.and_zero] at hflags
      exact absurd hflags (by decide)
  room := h.room

end Classpnp
