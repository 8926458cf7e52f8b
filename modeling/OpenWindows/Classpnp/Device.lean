import Mathlib.Algebra.Group.Nat.Defs
import Mathlib.Data.List.Basic

/-!
# The plug-and-play arbiter

`classpnp_enumerate_bus` registers a bus and its simulated devices,
`classpnp_assign_resources` draws address ranges, interrupt lines and DMA channels for a device,
and the other calls move a device between its states.  Devices, buses and resources are numbered
as they are added; the flags of the two static pools are kept beside the context.

The counts of the tables are the lengths of the lists.
-/

namespace Classpnp

/-! ## Constants -/

/-- `classpnp_status_t`. -/
abbrev Status : Type := UInt32

def ok : Status := 0
def errNoCapacity : Status := 0x0011A000
def errNoResources : Status := 0x0011A001
def errInvalidState : Status := 0x0011A800
def errDriverNotBound : Status := 0x0011A801
def errInvalidCtx : Status := 0x0011AE00
def errInvalidIndex : Status := 0x0011AE01
def errNameTooLong : Status := 0x0011AE03

def maxDevices : Nat := 64
def maxBuses : Nat := 16
def maxResources : Nat := 32
def maxResourcePerDev : Nat := 8
def busIdLen : Nat := 16
def nameLen : Nat := 32

/-- `CLASSPNP_DRV_NAME_MAX`. -/
def drvNameMax : Nat := nameLen - 1

def busPci : Nat := 0
def busUsb : Nat := 1
def busIsa : Nat := 2
def busAcpic : Nat := 3
def busPlatform : Nat := 4

def stateUnknown : UInt32 := 0
def stateDetected : UInt32 := 1
def stateResourcesAssigned : UInt32 := 2
def stateDriverBound : UInt32 := 3
def stateDisabled : UInt32 := 5

def flagPrevStateMask : UInt32 := 0x1F
def flagDisabled : UInt32 := 0x80

def resFlagSharable : Nat := 0x01
def resFlagPrefetchable : Nat := 0x02
def resFlagOwfsMapped : Nat := 0x10

/-- `classpnp_irq_pool`. -/
def irqPool : List Nat := [3, 4, 5, 6, 7, 9, 10, 11, 12, 14]

/-- `classpnp_dma_pool`. -/
def dmaPool : List Nat := [3, 5, 6, 7]

def mmioBase : Nat := 0xF0000000
def mmioLength : Nat := 0x00100000
def mmioStep : Nat := 0x00100000
def owfsBlockSize : Nat := 0x1000

/-! ## Data -/

/-- A string of C. -/
structure CStr where
  chars : List UInt8
  noNul : 0 ∉ chars
  deriving DecidableEq

/-- `classpnp_resource_type_t`, the types that are assigned. -/
inductive ResourceType where
  | irq | mmio | dmaChannel
  deriving DecidableEq, Repr

/-- `classpnp_resource_t`. -/
structure Resource where
  type : ResourceType
  flags : Nat
  baseLo : Nat
  length : Nat
  irqNumber : Nat

/-- `classpnp_device_t`.  The states are the values of `classpnp_device_state_t`. -/
structure Device where
  busIdx : Nat
  parentBus : Nat
  state : UInt32
  vendorId : Nat
  deviceId : Nat
  deviceClass : Nat
  flags : UInt32
  resourceIndices : List Nat
  mmioBase : Nat
  mmioLength : Nat
  irq : Nat
  dmaChannel : Nat
  name : List UInt8
  driverName : List UInt8

/-- `classpnp_bus_t`. -/
structure Bus where
  busType : Nat
  busId : List UInt8
  deviceIndices : List Nat

/-- `classpnp_stats_t`. -/
structure Stats where
  totalEnumerations : UInt32
  totalResourceAssignments : UInt32
  totalDriverBinds : UInt32
  totalDriverUnbinds : UInt32
  totalDevicesDisabled : UInt32
  totalDevicesReenabled : UInt32

/-- `classpnp_context_t` with the static `classpnp_irq_used` and `classpnp_dma_used`. -/
structure Context where
  devices : List Device
  buses : List Bus
  resources : List Resource
  stats : Stats
  irqUsed : List Bool
  dmaUsed : List Bool

/-! ## Strings -/

/-- `classpnp_strncpy` into a buffer of `maxLen` bytes. -/
def strncpy (src : List UInt8) (maxLen : Nat) : List UInt8 :=
  src.take maxLen ++ List.replicate (maxLen - src.length) 0

/-- `classpnp_str_equal` from index `i` on, where `n` characters are left. -/
def strEqual (a b : List UInt8) : Nat → Nat → Bool
  | 0, _ => true
  | n + 1, i =>
    if a.getD i 0 ≠ b.getD i 0 then false
    else if a.getD i 0 = 0 then true
    else strEqual a b n (i + 1)

/-! ## Initialization -/

/-- `classpnp_init`. -/
def init : Context where
  devices := []
  buses := []
  resources := []
  stats := ⟨0, 0, 0, 0, 0, 0⟩
  irqUsed := irqPool.map fun _ => false
  dmaUsed := dmaPool.map fun _ => false

/-! ## Bus enumeration -/

/-- How many devices a bus of the type has. -/
def simCount (busType : Nat) : Nat :=
  if busType = busPci then 4
  else if busType = busUsb then 4
  else if busType = busIsa then 2
  else if busType = busAcpic then 1
  else if busType = busPlatform then 1
  else 1

/-- The vendor, device and class of a simulated device: `classpnp_simulate_pci_ids` and its
siblings. -/
def simulateIds (busType busIdx slot : Nat) : Nat × Nat × Nat :=
  if busType = busPci then
    ((0x1234 + busIdx * 0x4444) % 2 ^ 16, (0x1000 + busIdx * 0x0100 + slot) % 2 ^ 16, 0x010601)
  else if busType = busUsb then
    ((0x5678 + busIdx * 0x1111) % 2 ^ 16, (0x2000 + busIdx * 0x0100 + slot) % 2 ^ 16, 0x090000)
  else if busType = busIsa then (0x0001, (0x3000 + slot) % 2 ^ 16, 0x070100)
  else if busType = busAcpic then (0x0006, (0x4000 + slot) % 2 ^ 16, 0x080500)
  else if busType = busPlatform then (0x000F, (0x5000 + slot) % 2 ^ 16, 0x080900)
  else (0xFFFF, 0xFFFF, 0xFFFFFF)

/-- The name `devB_S`. -/
def simulateName (busIdx slot : Nat) : List UInt8 :=
  [100, 101, 118, 48 + UInt8.ofNat (busIdx % 10), 95, 48 + UInt8.ofNat (slot % 10)]

def detect (busType busIdx slot : Nat) : Device where
  busIdx := busIdx % 2 ^ 8
  parentBus := busIdx % 2 ^ 8
  state := stateDetected
  vendorId := (simulateIds busType busIdx slot).1
  deviceId := (simulateIds busType busIdx slot).2.1
  deviceClass := (simulateIds busType busIdx slot).2.2
  flags := 0
  resourceIndices := []
  mmioBase := 0
  mmioLength := 0
  irq := 0
  dmaChannel := 0
  name := strncpy (simulateName busIdx slot) nameLen
  driverName := strncpy [] nameLen

/-- The loop over the slots from `slot` on, of which `n` are left, with the devices and the
device indices of the bus so far. -/
def detectLoop (busType busIdx : Nat) :
    Nat → Nat → List Device → List Nat → List Device × List Nat
  | 0, _, devices, indices => (devices, indices)
  | n + 1, slot, devices, indices =>
    if devices.length ≥ maxDevices then (devices, indices)
    else
      detectLoop busType busIdx n (slot + 1) (devices ++ [detect busType busIdx slot])
        (indices ++ [devices.length % 2 ^ 8])

def Bus.Is (busType : Nat) (busId : List UInt8) (b : Bus) : Bool :=
  b.busType == busType % 2 ^ 8 && strEqual b.busId busId busIdLen 0

/-- `classpnp_enumerate_bus`. -/
def enumerateBus (C : Context) (busType : Nat) (busId : Option CStr) : Status × Context :=
  match busId with
  | none => (errInvalidCtx, C)
  | some busId =>
    if C.buses.length ≥ maxBuses then (errNoCapacity, C)
    else if C.buses.any (Bus.Is busType busId.chars) then (ok, C)
    else
      let (devices, indices) :=
        detectLoop busType C.buses.length (simCount busType) 0 C.devices []
      (ok, { C with
        devices := devices
        buses := C.buses ++ [⟨busType % 2 ^ 8, strncpy busId.chars busIdLen, indices⟩]
        stats := { C.stats with totalEnumerations := C.stats.totalEnumerations + 1 } })

/-! ## Resource assignment -/

/-- A resource is added to the table and to the device, which `f` updates. -/
def Context.give (C : Context) (d : Nat) (res : Resource) (f : Device → Device) : Context :=
  { C with
    resources := C.resources ++ [res]
    devices := C.devices.modify d fun dev =>
      { f dev with resourceIndices := dev.resourceIndices ++ [C.resources.length % 2 ^ 8] } }

/-- The address range of a device. -/
def mmioResource (d : Nat) : Resource :=
  let base := (mmioBase + d * mmioStep) % 2 ^ 32
  { type := .mmio
    flags :=
      if base / owfsBlockSize = mmioBase / owfsBlockSize then
        resFlagPrefetchable ||| resFlagOwfsMapped
      else resFlagPrefetchable
    baseLo := base
    length := mmioLength
    irqNumber := 0 }

/-- The address range for a device, if the table of resources has room. -/
def assignMmio (C : Context) (d : Nat) : Context × Bool :=
  if C.resources.length < maxResources then
    (C.give d (mmioResource d) fun dev =>
      { dev with mmioBase := (mmioResource d).baseLo, mmioLength := (mmioResource d).length }, true)
  else (C, false)

/-- The first free value of a pool for a device: `res` is the resource with the value, `f` what
it changes in the device, `mark` puts the flags of the pool back. -/
def assignFrom (C : Context) (d : Nat) (pool : List Nat) (used : List Bool) (res : Nat → Resource)
    (f : Nat → Device → Device) (mark : List Bool → Context → Context) : Context × Bool :=
  match used.findIdx? fun used => !used with
  | none => (C, false)
  | some i =>
    if C.resources.length ≥ maxResources then (C, false)
    else
      let value := pool.getD i 0
      (mark (used.set i true) (C.give d (res value) (f value)), true)

/-- The first free interrupt line for a device. -/
def assignIrq (C : Context) (d : Nat) : Context × Bool :=
  assignFrom C d irqPool C.irqUsed (fun line => ⟨.irq, resFlagSharable, 0, 0, line⟩)
    (fun line dev => { dev with irq := line }) fun used C => { C with irqUsed := used }

/-- The first free DMA channel for a device. -/
def assignDma (C : Context) (d : Nat) : Context × Bool :=
  assignFrom C d dmaPool C.dmaUsed (fun channel => ⟨.dmaChannel, 0, channel, 0, 0⟩)
    (fun channel dev => { dev with dmaChannel := channel }) fun used C => { C with dmaUsed := used }

/-- One kind of resource, for the bus types that `wanted` allows. -/
def assignIf (wanted : Bool) (assign : Context → Nat → Context × Bool) (d : Nat)
    (s : Context × Bool) : Context × Bool :=
  if wanted then ((assign s.1 d).1, s.2 || (assign s.1 d).2) else s

def wantsMmio (busType : Nat) : Bool :=
  busType == busPci || busType == busUsb || busType == busAcpic || busType == busPlatform

def wantsIrq (busType : Nat) : Bool :=
  busType == busIsa || busType == busUsb || busType == busAcpic || busType == busPlatform

/-- `classpnp_assign_resources`. -/
def assignResources (C : Context) (d : Nat) : Status × Context :=
  match C.devices[d]? with
  | none => (errInvalidIndex, C)
  | some dev =>
    if dev.state ≠ stateDetected then (errInvalidState, C)
    else if dev.resourceIndices.length ≥ maxResourcePerDev then (errNoResources, C)
    else
      -- the slots of the bus table behind the buses are zero
      let busType := (C.buses[dev.busIdx]?.map Bus.busType).getD 0
      let s := assignIf (wantsMmio busType) assignMmio d (C, false)
      let s := assignIf (wantsIrq busType) assignIrq d s
      let s := assignIf (busType == busIsa) assignDma d s
      if !s.2 then (errNoResources, s.1)
      else
        (ok, { s.1 with
          devices := s.1.devices.modify d fun dev => { dev with state := stateResourcesAssigned }
          stats := { s.1.stats with
            totalResourceAssignments := s.1.stats.totalResourceAssignments + 1 } })

/-! ## Drivers and states -/

/-- `classpnp_bind_driver`. -/
def bindDriver (C : Context) (d : Nat) (driverName : Option CStr) : Status × Context :=
  match C.devices[d]? with
  | none => (errInvalidIndex, C)
  | some dev =>
    match driverName with
    | none => (errInvalidCtx, C)
    | some driverName =>
      if dev.state ≠ stateResourcesAssigned then (errInvalidState, C)
      else if driverName.chars.length % 2 ^ 32 > drvNameMax then (errNameTooLong, C)
      else
        (ok, { C with
          devices := C.devices.modify d fun dev =>
            { dev with
              driverName := strncpy driverName.chars drvNameMax ++ [0]
              state := stateDriverBound }
          stats := { C.stats with totalDriverBinds := C.stats.totalDriverBinds + 1 } })

/-- `classpnp_unbind_driver`. -/
def unbindDriver (C : Context) (d : Nat) : Status × Context :=
  match C.devices[d]? with
  | none => (errInvalidIndex, C)
  | some dev =>
    if dev.state ≠ stateDriverBound then (errDriverNotBound, C)
    else
      (ok, { C with
        devices := C.devices.modify d fun dev =>
          { dev with driverName := strncpy [] nameLen, state := stateResourcesAssigned }
        stats := { C.stats with totalDriverUnbinds := C.stats.totalDriverUnbinds + 1 } })

def savedFlags (flags state : UInt32) : UInt32 :=
  ((flags &&& ~~~flagPrevStateMask) ||| (state &&& flagPrevStateMask)) ||| flagDisabled

/-- `classpnp_disable_device`. -/
def disableDevice (C : Context) (d : Nat) : Status × Context :=
  match C.devices[d]? with
  | none => (errInvalidIndex, C)
  | some dev =>
    if dev.state = stateDisabled then (errInvalidState, C)
    else if dev.state = stateUnknown then (errInvalidState, C)
    else
      (ok, { C with
        devices := C.devices.modify d fun dev =>
          { dev with flags := savedFlags dev.flags dev.state, state := stateDisabled }
        stats := { C.stats with totalDevicesDisabled := C.stats.totalDevicesDisabled + 1 } })

/-- `classpnp_reenable_device`. -/
def reenableDevice (C : Context) (d : Nat) : Status × Context :=
  match C.devices[d]? with
  | none => (errInvalidIndex, C)
  | some dev =>
    if dev.state ≠ stateDisabled then (errInvalidState, C)
    else if dev.flags &&& flagDisabled = 0 then (errInvalidState, C)
    else
      (ok, { C with
        devices := C.devices.modify d fun dev =>
          { dev with
            flags := (dev.flags &&& ~~~flagDisabled) &&& ~~~flagPrevStateMask
            state := dev.flags &&& flagPrevStateMask }
        stats := { C.stats with totalDevicesReenabled := C.stats.totalDevicesReenabled + 1 } })

end Classpnp
