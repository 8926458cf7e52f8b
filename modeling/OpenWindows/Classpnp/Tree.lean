import OpenWindows.Classpnp.Runs

/-!
# The device tree

`Sound key typeOf s` is what a run promises of its tables, for a reading `key` of the pairs and a
reading `typeOf` of the types.  It holds after every run of the calls where a pair is read as the
context keeps it: by the low byte of the type, which is the type itself for every bus type there
is, and the first `CLASSPNP_BUS_ID_LEN` characters of the identifier.

It does not hold where the identifiers are read to their end.
-/

namespace Classpnp

open Arbiter

/-- The resource is one of device `d`. -/
def Context.Owns (C : Context) (d : Nat) (res : Resource) : Prop :=
  ∃ dev r, C.devices[d]? = some dev ∧ r ∈ dev.resourceIndices ∧ C.resources[r]? = some res

/-- The tables of a run belong together. -/
structure Sound {κ : Type} [DecidableEq κ] (key : Pair → κ) (typeOf : Nat → Nat) (s : System) :
    Prop where
  /-- There are as many buses as different pairs. -/
  count : s.ctx.buses.length = (s.pairs.map key).dedup.length
  /-- A device is listed once by the bus it names, which has its type, and by no other. -/
  listed : ∀ i dev, s.ctx.devices[i]? = some dev → ∃ b t, s.ctx.buses[dev.busIdx]? = some b ∧
    b.deviceIndices.count i = 1 ∧ s.types[i]? = some t ∧ b.busType = typeOf t ∧
    ∀ (j : Nat) (b' : Bus), s.ctx.buses[j]? = some b' → i ∈ b'.deviceIndices → j = dev.busIdx
  /-- Enumerating a bus again changes nothing. -/
  again : ∀ p ∈ s.pairs, ∀ t x, key (t, x) = key p → (enumerateBus s.ctx t (some x)).2 = s.ctx
  /-- No interrupt line is assigned to two devices. -/
  irq : ∀ d d' res res', s.ctx.Owns d res → s.ctx.Owns d' res' → res.type = .irq →
    res'.type = .irq → res.irqNumber = res'.irqNumber → d = d'
  /-- No DMA channel is assigned to two devices. -/
  dma : ∀ d d' res res', s.ctx.Owns d res → s.ctx.Owns d' res' → res.type = .dmaChannel →
    res'.type = .dmaChannel → res.baseLo = res'.baseLo → d = d'
  /-- The address ranges of two devices have no address in common. -/
  mmio : ∀ d d' res res', s.ctx.Owns d res → s.ctx.Owns d' res' → res.type = .mmio →
    res'.type = .mmio → d ≠ d' →
    ∀ a, res.baseLo ≤ a → a < res.baseLo + res.length →
      ¬ (res'.baseLo ≤ a ∧ a < res'.baseLo + res'.length)
  /-- Every resource has one device. -/
  owner : ∀ r, r < s.ctx.resources.length →
    ∃! d : Nat, ∃ dev : Device, s.ctx.devices[d]? = some dev ∧ r ∈ dev.resourceIndices

section Tables

variable {C : Context} {pairs : List Pair} {types : List Nat}

theorem BusInv.count {buses : List Bus} {links : List Nat} (h : BusInv buses links pairs types) :
    buses.length = (pairs.map Pair.key).dedup.length := by
  have hperm : (buses.map Bus.key).Perm (pairs.map Pair.key).dedup := by
    rw [List.perm_ext_iff_of_nodup h.nodup (List.nodup_dedup _)]
    intro k
    rw [h.pairs, List.mem_dedup]
  rw [← hperm.length_eq, List.length_map]

theorem BusInv.listed {buses : List Bus} {links : List Nat} (h : BusInv buses links pairs types)
    {i j : Nat} (hi : links[i]? = some j) :
    ∃ b t, buses[j]? = some b ∧ b.deviceIndices.count i = 1 ∧ types[i]? = some t ∧
      b.busType = t % 2 ^ 8 ∧
      ∀ (j' : Nat) (b' : Bus), buses[j']? = some b' → i ∈ b'.deviceIndices → j' = j := by
  have hlt : i < types.length := by
    rw [h.length]
    exact (List.getElem?_eq_some_iff.1 hi).1
  have ht : types[i]? = some types[i] := List.getElem?_eq_getElem hlt
  obtain ⟨b, hb, hmem⟩ := h.owner hi
  have hlist : (buses.map Bus.deviceIndices)[j]? = some b.deviceIndices := by
    rw [List.getElem?_map, hb]
    rfl
  refine ⟨b, types[i], hb, ?_, ht, h.typed i j types[i] b hi ht hb, ?_⟩
  · exact List.count_eq_one_of_mem (h.shares.nodup_getElem? hlist) hmem
  · intro j' b' hb' hmem'
    have hlink := h.linked j' i b' hb' hmem'
    rw [hi] at hlink
    cases hlink
    rfl

theorem enumerateBus_known {busType : Nat} {busId : CStr}
    (hany : C.buses.any (Bus.Is busType busId.chars) = true) :
    (enumerateBus C busType (some busId)).2 = C := by
  simp only [enumerateBus, hany, if_true]
  split
  · rfl
  · rfl

theorem ResInv.device_unique (h : ResInv C) {d d' r : Nat} {dev dev' : Device}
    (hd : C.devices[d]? = some dev) (hd' : C.devices[d']? = some dev')
    (hr : r ∈ dev.resourceIndices) (hr' : r ∈ dev'.resourceIndices) : d = d' := by
  apply h.shares.unique (i := d) (j := d') ?_ ?_ hr hr'
  · rw [List.getElem?_map, hd]
    rfl
  · rw [List.getElem?_map, hd']
    rfl

theorem ResInv.exists_device (h : ResInv C) {r : Nat} (hr : r < C.resources.length) :
    ∃! d : Nat, ∃ dev : Device, C.devices[d]? = some dev ∧ r ∈ dev.resourceIndices := by
  obtain ⟨d, l, hl, hmem⟩ := h.shares.exists_owner hr
  rw [List.getElem?_map] at hl
  obtain ⟨dev, hdev, rfl⟩ := Option.map_eq_some_iff.1 hl
  refine ⟨d, ⟨dev, hdev, hmem⟩, ?_⟩
  rintro d' ⟨dev', hdev', hmem'⟩
  exact h.device_unique hdev' hdev hmem' hmem

variable {d d' : Nat} {res res' : Resource}

theorem ResInv.value_unique (h : ResInv C) {type : ResourceType} {value : Resource → Nat}
    (hnodup : (valuesOf type value C.resources).Nodup) (hd : C.Owns d res) (hd' : C.Owns d' res')
    (htype : res.type = type) (htype' : res'.type = type) (hvalue : value res = value res') :
    d = d' := by
  obtain ⟨dev, r, hdev, hr, hres⟩ := hd
  obtain ⟨dev', r', hdev', hr', hres'⟩ := hd'
  have hsame : r = r' :=
    entry_unique hnodup hres hres' (beq_iff_eq.2 htype) (beq_iff_eq.2 htype') hvalue
  exact h.device_unique hdev hdev' hr (hsame ▸ hr')

theorem ResInv.mmio_apart (h : ResInv C)
    (hd : C.Owns d res) (hd' : C.Owns d' res') (htype : res.type = .mmio)
    (htype' : res'.type = .mmio) (hne : d ≠ d') {a : Nat} (hle : res.baseLo ≤ a)
    (hlt : a < res.baseLo + res.length) :
    ¬ (res'.baseLo ≤ a ∧ a < res'.baseLo + res'.length) := by
  obtain ⟨dev, r, hdev, hr, hres⟩ := hd
  obtain ⟨dev', r', hdev', hr', hres'⟩ := hd'
  obtain ⟨hbase, hlength⟩ := h.mmio d r dev res hdev hr hres htype
  obtain ⟨hbase', hlength'⟩ := h.mmio d' r' dev' res' hdev' hr' hres' htype'
  rw [hbase, hlength, mmioStep, mmioLength] at hlt
  rw [hbase, mmioStep] at hle
  rw [hbase', hlength', mmioStep, mmioLength]
  omega

end Tables

/-- After every run of the calls the tables belong together. -/
theorem tree_sound (ops : List Op) : Sound Pair.key (· % 2 ^ 8) (run ops) := by
  have hinv := run_inv ops
  constructor
  · exact hinv.buses.count
  · intro i dev hdev
    apply hinv.buses.listed
    rw [List.getElem?_map, hdev]
    rfl
  · intro p hp t x hkey
    apply enumerateBus_known
    rw [hinv.buses.any_iff (t, x), hkey]
    exact List.mem_map_of_mem hp
  · exact fun d d' res res' => hinv.resources.value_unique hinv.resources.irq.nodup
  · exact fun d d' res res' => hinv.resources.value_unique hinv.resources.dma.nodup
  · intro d d' res res' hd hd' htype htype' hne a
    exact hinv.resources.mmio_apart hd hd' htype htype' hne
  · exact fun r => hinv.resources.exists_device

/-- An identifier of seventeen characters. -/
def longId (last : UInt8) (h : 0 ≠ last) : CStr where
  chars := List.replicate busIdLen 97 ++ [last]
  noNul := by
    rw [List.mem_append, List.mem_replicate, List.mem_singleton]
    rintro (hzero | hzero)
    · exact absurd hzero.2 (by decide)
    · exact h hzero

/-- Two identifiers that differ in their seventeenth character name one bus. -/
theorem long_ids_one_bus : ¬ ∀ ops, Sound id id (run ops) := by
  intro h
  have hcount := (h [.enumerate busPci (some (longId 98 (by decide))),
    .enumerate busPci (some (longId 99 (by decide)))]).count
  revert hcount
  decide

end Classpnp
