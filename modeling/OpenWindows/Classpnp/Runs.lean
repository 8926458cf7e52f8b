import Mathlib.Data.List.Dedup
import OpenWindows.Classpnp.Resources
import OpenWindows.Lib.StepSystem

/-!
# Runs of the arbiter

The six calls in any order after `classpnp_init`.  Beside the context a run keeps the pairs that
were enumerated with success and the type that each device was enumerated under.

The context keeps the low byte of a type and the first `CLASSPNP_BUS_ID_LEN` characters of an
identifier, so that two buses that agree in both are one to it.
-/

namespace Classpnp

open Arbiter

/-! ## What a call keeps -/

/-- The whole invariant. -/
structure Inv (C : Context) (pairs : List Pair) (types : List Nat) : Prop where
  buses : BusInv C.buses (C.devices.map Device.busIdx) pairs types
  resources : ResInv C
  tidy : Tidy C

variable {C C' : Context} {d : Nat} {st : Status} {pairs : List Pair} {types : List Nat}

theorem ResInv.modify (h : ResInv C) {f : Device → Device} {stats : Stats}
    (hindices : ∀ dev, (f dev).resourceIndices = dev.resourceIndices) :
    ResInv { C with devices := C.devices.modify d f, stats := stats } :=
  { h with
    shares := by
      have hsame : (C.devices.modify d f).map Device.resourceIndices =
          C.devices.map Device.resourceIndices := by
        apply List.ext_getElem?
        intro i
        rw [List.getElem?_map, List.getElem?_map, List.getElem?_modify]
        cases C.devices[i]? with
        | none => rfl
        | some dev =>
          simp only [Option.map_eq_map, Option.map_some, Option.some.injEq]
          split
          · exact hindices dev
          · rfl
      dsimp only
      rw [hsame]
      exact h.shares
    devices := by
      dsimp only
      rw [List.length_modify]
      exact h.devices
    mmio := by
      intro d' r dev' res hd' hr hres
      dsimp only at hd'
      rw [List.getElem?_modify] at hd'
      obtain ⟨dev'', hdev'', rfl⟩ := Option.map_eq_some_iff.1 hd'
      refine h.mmio d' r dev'' res hdev'' ?_ hres
      split at hr
      · rw [hindices] at hr
        exact hr
      · exact hr }

theorem Inv.modify (h : Inv C pairs types) {dev : Device} {f : Device → Device} {stats : Stats}
    (hd : C.devices[d]? = some dev) (hbus : ∀ dev, (f dev).busIdx = dev.busIdx)
    (hindices : ∀ dev, (f dev).resourceIndices = dev.resourceIndices) (htidy : (f dev).Tidy) :
    Inv { C with devices := C.devices.modify d f, stats := stats } pairs types where
  buses := by
    dsimp only
    rw [map_busIdx_modify C.devices d hbus]
    exact h.buses
  resources := h.resources.modify hindices
  tidy := h.tidy.modify hd htidy

/-! ## Enumeration -/

theorem ResInv.addDevices (h : ResInv C) {new : List Device} {buses : List Bus} {stats : Stats}
    (hnew : ∀ dev ∈ new, dev.resourceIndices = [])
    (hfew : (C.devices ++ new).length ≤ maxDevices) :
    ResInv { C with devices := C.devices ++ new, buses := buses, stats := stats } :=
  { h with
    shares := by
      dsimp only
      rw [List.map_append]
      apply h.shares.append_nils
      intro l hl
      obtain ⟨dev, hdev, rfl⟩ := List.mem_map.1 hl
      exact hnew dev hdev
    devices := hfew
    mmio := by
      intro d r dev res hd hr hres
      dsimp only at hd
      rw [List.getElem?_append] at hd
      split at hd
      · exact h.mmio d r dev res hd hr hres
      · rw [hnew dev (List.mem_of_getElem? hd)] at hr
        cases hr }

theorem enumerateBus_spec (h : Inv C pairs types) {t : Nat} {busId : Option CStr}
    (henum : enumerateBus C t busId = (st, C')) :
    (st ≠ ok ∧ C' = C) ∨ ∃ x k, st = ok ∧ busId = some x ∧
      C'.devices.length = C.devices.length + k ∧
      Inv C' (pairs ++ [(t, x)]) (types ++ List.replicate k t) := by
  rcases enumerateBus_cases h.resources.devices t busId with
    ⟨st', hres, hne⟩ | ⟨x, rfl, hany, hres⟩ | ⟨x, new, rfl, hany, hroom, hnew, hlen, hres⟩
  · rw [hres] at henum
    cases henum
    exact .inl ⟨hne, rfl⟩
  · rw [hres] at henum
    cases henum
    refine .inr ⟨x, 0, rfl, rfl, rfl, ?_, h.resources, h.tidy⟩
    rw [List.replicate_zero, List.append_nil]
    exact h.buses.known (p := (t, x)) hany
  · rw [hres] at henum
    cases henum
    have hfresh : ∀ dev ∈ new, dev.resourceIndices = [] := by
      intro dev hdev
      obtain ⟨slot, rfl⟩ := hnew dev hdev
      rfl
    have hlinks : new.map Device.busIdx = List.replicate new.length C.buses.length := by
      rw [List.eq_replicate_iff, List.length_map]
      refine ⟨rfl, ?_⟩
      intro j hj
      obtain ⟨dev, hdev, rfl⟩ := List.mem_map.1 hj
      obtain ⟨slot, rfl⟩ := hnew dev hdev
      rw [maxBuses] at hroom
      exact Nat.mod_eq_of_lt (by omega)
    refine .inr ⟨x, new.length, rfl, rfl, List.length_append, ?_, ?_, ?_⟩
    · have hbuses := h.buses.new (p := (t, x)) (k := new.length) hany hroom
        (by rw [List.length_map, ← List.length_append]; exact hlen)
      rw [List.length_map] at hbuses
      dsimp only
      rw [List.map_append, hlinks]
      exact hbuses
    · exact h.resources.addDevices hfresh hlen
    · intro dev hdev
      rcases List.mem_append.1 hdev with hdev | hdev
      · exact h.tidy dev hdev
      · obtain ⟨slot, rfl⟩ := hnew dev hdev
        exact detect_tidy t C.buses.length slot

/-! ## Assignment -/

theorem assignResources_gives (h : ResInv C) (hd : d < C.devices.length) (mmio irq dma : Bool) :
    Gives d 3 C (assignIf dma assignDma d
      (assignIf irq assignIrq d (assignIf mmio assignMmio d (C, false)))).1 := by
  have hfirst : Gives d 1 C (assignIf mmio assignMmio d (C, false)).1 :=
    assignIf_gives (s := (C, false)) h (assignMmio_gives h hd)
  have hsecond : Gives d 2 C (assignIf irq assignIrq d (assignIf mmio assignMmio d (C, false))).1 :=
    hfirst.trans (assignIf_gives hfirst.inv (assignIrq_gives hfirst.inv (hfirst.length ▸ hd)))
  exact hsecond.trans
    (assignIf_gives hsecond.inv (assignDma_gives hsecond.inv (hsecond.length ▸ hd)))

theorem assignResources_false {mmio irq dma : Bool}
    (h : (assignIf dma assignDma d
      (assignIf irq assignIrq d (assignIf mmio assignMmio d (C, false)))).2 = false) :
    (assignIf dma assignDma d
      (assignIf irq assignIrq d (assignIf mmio assignMmio d (C, false)))).1 = C := by
  obtain ⟨hirq, hdma⟩ := assignIf_false assignFrom_false h
  obtain ⟨hmmio, hirq⟩ := assignIf_false assignFrom_false hirq
  obtain ⟨-, hmmio⟩ := assignIf_false assignMmio_false hmmio
  rw [hdma, hirq, hmmio]

theorem Inv.assign (h : Inv C pairs types) (hgives : Gives d 3 C C') {dev : Device} {stats : Stats}
    (hd : C.devices[d]? = some dev) (hdetected : dev.state = stateDetected) :
    Inv { C' with
      devices := C'.devices.modify d fun dev => { dev with state := stateResourcesAssigned }
      stats := stats } pairs types where
  buses := by
    dsimp only
    rw [map_busIdx_modify, hgives.links, hgives.buses]
    · exact h.buses
    · exact fun _ => rfl
  resources := hgives.inv.modify fun _ => rfl
  tidy := by
    intro dev₂ hdev₂
    obtain ⟨i, hi⟩ := List.mem_iff_getElem?.1 hdev₂
    dsimp only at hi
    rw [List.getElem?_modify] at hi
    obtain ⟨dev₁, hdev₁, rfl⟩ := Option.map_eq_some_iff.1 hi
    split
    · next hdi =>
      subst hdi
      have hold := hgives.indices dev dev₁ hd hdev₁
      rw [(h.tidy.get hd).pending (.inl hdetected), List.length_nil] at hold
      exact Device.settled (hold.trans (by rw [maxResourcePerDev]; omega)) (by decide) (by decide)
        (by decide)
    · next hdi =>
      rw [hgives.others i (Ne.symm hdi)] at hdev₁
      exact h.tidy.get hdev₁

theorem assignResources_spec (h : Inv C pairs types) (hassign : assignResources C d = (st, C')) :
    Inv C' pairs types := by
  unfold assignResources at hassign
  split at hassign
  · cases hassign
    exact h
  · next dev hdev =>
    split at hassign
    · cases hassign
      exact h
    · next hstate =>
      split at hassign
      · cases hassign
        exact h
      · have hgives := assignResources_gives h.resources (List.getElem?_eq_some_iff.1 hdev).1
        dsimp only at hassign
        split at hassign
        · next hnone =>
          cases hassign
          rw [Bool.not_eq_true'] at hnone
          rw [assignResources_false hnone]
          exact h
        · cases hassign
          exact h.assign (hgives _ _ _) hdev (not_not.1 hstate)

/-! ## Drivers and states -/

theorem bindDriver_spec {driverName : Option CStr} (h : Inv C pairs types)
    (hbind : bindDriver C d driverName = (st, C')) :
    Inv C' pairs types := by
  unfold bindDriver at hbind
  split at hbind
  · cases hbind
    exact h
  · next dev hdev =>
    split at hbind
    · cases hbind
      exact h
    · split at hbind
      · cases hbind
        exact h
      · split at hbind
        · cases hbind
          exact h
        · cases hbind
          exact h.modify hdev (fun _ => rfl) (fun _ => rfl)
            (Device.settled (h.tidy.get hdev).room (by decide) (by decide) (by decide))

theorem unbindDriver_spec (h : Inv C pairs types) (hunbind : unbindDriver C d = (st, C')) :
    Inv C' pairs types := by
  unfold unbindDriver at hunbind
  split at hunbind
  · cases hunbind
    exact h
  · next dev hdev =>
    split at hunbind
    · cases hunbind
      exact h
    · cases hunbind
      exact h.modify hdev (fun _ => rfl) (fun _ => rfl)
        (Device.settled (h.tidy.get hdev).room (by decide) (by decide) (by decide))

theorem disableDevice_spec (h : Inv C pairs types) (hdisable : disableDevice C d = (st, C')) :
    Inv C' pairs types := by
  unfold disableDevice at hdisable
  split at hdisable
  · cases hdisable
    exact h
  · next dev hdev =>
    split at hdisable
    · cases hdisable
      exact h
    · split at hdisable
      · cases hdisable
        exact h
      · cases hdisable
        exact h.modify hdev (fun _ => rfl) (fun _ => rfl) (h.tidy.get hdev).disable

theorem reenableDevice_spec (h : Inv C pairs types) (hreenable : reenableDevice C d = (st, C')) :
    Inv C' pairs types := by
  unfold reenableDevice at hreenable
  split at hreenable
  · cases hreenable
    exact h
  · next dev hdev =>
    split at hreenable
    · cases hreenable
      exact h
    · next hstate =>
      split at hreenable
      · cases hreenable
        exact h
      · cases hreenable
        exact h.modify hdev (fun _ => rfl) (fun _ => rfl)
          ((h.tidy.get hdev).reenable (not_not.1 hstate))

/-! ## Runs -/

/-- A call of the arbiter. -/
inductive Op where
  | enumerate (busType : Nat) (busId : Option CStr)
  | assign (d : Nat)
  | bind (d : Nat) (driverName : Option CStr)
  | unbind (d : Nat)
  | disable (d : Nat)
  | reenable (d : Nat)

def Op.exec : Op → Context → Status × Context
  | .enumerate t busId, C => enumerateBus C t busId
  | .assign d, C => assignResources C d
  | .bind d driverName, C => bindDriver C d driverName
  | .unbind d, C => unbindDriver C d
  | .disable d, C => disableDevice C d
  | .reenable d, C => reenableDevice C d

/-- The context beside what a run keeps. -/
structure System where
  ctx : Context
  /-- The pairs that were enumerated with success, in order. -/
  pairs : List Pair
  /-- The type that each device was enumerated under. -/
  types : List Nat

/-- One call, whatever it returns. -/
def System.next (s : System) (op : Op) : System where
  ctx := (op.exec s.ctx).2
  pairs :=
    match op with
    | .enumerate t (some x) => if (op.exec s.ctx).1 = ok then s.pairs ++ [(t, x)] else s.pairs
    | _ => s.pairs
  types :=
    match op with
    | .enumerate t _ =>
      s.types ++ List.replicate ((op.exec s.ctx).2.devices.length - s.ctx.devices.length) t
    | _ => s.types

/-- The calls in order after `classpnp_init`. -/
def run (ops : List Op) : System := ops.foldl System.next ⟨init, [], []⟩

theorem inv_init : Inv init [] [] where
  buses := busInv_init
  resources := resInv_init
  tidy dev hdev := by cases hdev

theorem next_inv {s : System} (h : Inv s.ctx s.pairs s.types) (op : Op) :
    Inv (s.next op).ctx (s.next op).pairs (s.next op).types := by
  cases op with
  | enumerate t busId =>
    have henum : enumerateBus s.ctx t busId = (_, _) := rfl
    rcases enumerateBus_spec h henum with ⟨hne, hsame⟩ | ⟨x, k, hok, rfl, hlen, hinv⟩
    · have hexec : ((Op.enumerate t busId).exec s.ctx).2 = s.ctx := hsame
      have hpairs : (s.next (.enumerate t busId)).pairs = s.pairs := by
        cases busId with
        | none => rfl
        | some x => exact if_neg hne
      have htypes : (s.next (.enumerate t busId)).types = s.types := by
        unfold System.next
        dsimp only
        rw [hexec, Nat.sub_self, List.replicate_zero, List.append_nil]
      have hctx : (s.next (.enumerate t busId)).ctx = s.ctx := hsame
      rw [hctx, hpairs, htypes]
      exact h
    · have hpairs : (s.next (.enumerate t (some x))).pairs = s.pairs ++ [(t, x)] := if_pos hok
      have htypes : (s.next (.enumerate t (some x))).types = s.types ++ List.replicate k t := by
        have hk : ((Op.enumerate t (some x)).exec s.ctx).2.devices.length =
            s.ctx.devices.length + k := hlen
        unfold System.next
        dsimp only
        rw [hk, Nat.add_sub_cancel_left]
      rw [hpairs, htypes]
      exact hinv
  | assign d => exact assignResources_spec h rfl
  | bind d driverName => exact bindDriver_spec h rfl
  | unbind d => exact unbindDriver_spec h rfl
  | disable d => exact disableDevice_spec h rfl
  | reenable d => exact reenableDevice_spec h rfl

theorem run_inv (ops : List Op) : Inv (run ops).ctx (run ops).pairs (run ops).types := by
  induction ops using List.reverseRecOn with
  | nil => exact inv_init
  | append_singleton ops op ih =>
    unfold run at ih ⊢
    rw [List.foldl_concat]
    exact next_inv ih op

end Classpnp
