import Mathlib.Data.List.Infix
import Mathlib.Data.List.Nodup
import OpenWindows.Engines.Shell

/-!
# The component registry and the managedcom engine

`meng_com_create` gives an instance the next value of a counter as its id and
keeps it in a table of sixteen slots, in which the id 0 marks a free slot.
`meng_com_resolve`, `meng_com_destroy` and `meng_com_invoke` look an id up in
that table.  The managedcom engine runs manifests of `create`, `resolv` and
`call` lines against a current instance that is kept from one manifest to the
next.

Three things let a call reach an instance that is not alive.  A lookup of the
id 0 finds a free slot, the current instance outlives its destruction, and the
counter may come round to an id that is still in use.  The condition on a call
excludes exactly these, and under it a handle is never confused with another.

Factories and methods are code of the host.  They act on the instance they are
given, leave its id alone and do not call the registry.  Out parameters are not
null.
-/

namespace Engines

open StepSystem

/-! ## Data -/

/-- `MENG_COM_MAX_FACTORIES`. -/
def comMaxFactories : Nat := 16

/-- `MENG_COM_MAX_INSTANCES`. -/
def comMaxInstances : Nat := 16

/-- `MENG_COM_MAX_IFACE`. -/
def comMaxIface : Nat := 8

/-- `meng_com_iface_t`: an interface id and the method pointers, 0 for none. -/
structure ComIface where
  iid : UInt32
  mslots : List UInt64
  deriving DecidableEq, Repr

/-- `meng_com_instance_t`, less the id.  `ifaces` is the whole array, of which
the first `ifaceCount` entries are in use. -/
structure ComBody where
  factory : UInt32
  data : UInt64
  ifaces : List ComIface
  ifaceCount : UInt32
  deriving DecidableEq, Repr

/-- `meng_com_instance_t`. -/
structure ComInstance where
  /-- 1-based handle, 0 for a free slot. -/
  id : UInt32
  body : ComBody
  deriving DecidableEq, Repr

/-- `meng_com_factory_t`. -/
structure ComFactory where
  key : UInt32
  create : UInt64
  owner : UInt64
  deriving DecidableEq, Repr

/-- The code of the host, over the rest `ω` of its state. -/
structure Callbacks (ω : Type) where
  /-- `meng_com_factory_fn`: the four characters, the instance and its id. -/
  create : UInt64 → List UInt8 → ComBody → UInt32 → ω → Status × ComBody × ω
  /-- `meng_com_method_fn`: the instance, the arguments and their number, with
  the value left in `result`. -/
  method : UInt64 → ComInstance → Option (List (BitVec 64)) → UInt32 → ω →
    Status × BitVec 64 × ComBody × ω
  /-- What a word buffer of the engine holds behind a word. -/
  residue : ω → List UInt8

/-- The variables of the registry. -/
structure Com (ω : Type) where
  factories : List ComFactory
  instances : List ComInstance
  size : instances.length = comMaxInstances
  nextId : UInt32
  /-- The slot `meng_com_current` points to. -/
  current : Option Nat
  currentIid : UInt32
  world : ω
  /-- Not a variable of the program: the ids that a successful create returned
  and that were not destroyed since. -/
  handles : List UInt32

/-- A slot at program start. -/
def ComInstance.empty : ComInstance where
  id := 0
  body :=
    { factory := 0, data := 0, ifaceCount := 0
      ifaces := List.replicate comMaxIface ⟨0, List.replicate comMaxIface 0⟩ }

variable {ω : Type}

/-- The registry at program start. -/
def Com.init (world : ω) : Com ω where
  factories := []
  instances := List.replicate comMaxInstances .empty
  size := List.length_replicate ..
  nextId := 1
  current := none
  currentIid := 0
  world := world
  handles := []

def Com.setSlot (c : Com ω) (i : Nat) (inst : ComInstance) : Com ω :=
  { c with instances := c.instances.set i inst, size := by rw [List.length_set, c.size] }

/-- The first slot with an id, as the lookups search it. -/
def Com.find (c : Com ω) (id : UInt32) : Option (Nat × ComInstance) :=
  match c.instances.findIdx? (·.id == id) with
  | some i => (c.instances[i]?).map fun inst => (i, inst)
  | none => none

/-! ## The registry -/

/-- `meng_com_factory_register`. -/
def mengComFactoryRegister (c : Com ω) (key : UInt32) (create owner : UInt64) : Status × Com ω :=
  if key = 0 ∨ create = 0 then (.errBadArg, c)
  else if c.factories.any (·.key == key) then (.errDuplicate, c)
  else if c.factories.length ≥ comMaxFactories then (.errShortOut, c)
  else (.ok, { c with factories := c.factories ++ [⟨key, create, owner⟩] })

/-- `meng_com_factory_lookup`. -/
def mengComFactoryLookup (c : Com ω) (key : UInt32) : Except Status ComFactory :=
  match c.factories.find? (·.key == key) with
  | some f => .ok f
  | none => .error .errNotFound

/-- The id the next instance gets. -/
def Com.newId (c : Com ω) : UInt32 := if c.nextId = 0 then 1 else c.nextId

/-- A slot as `meng_com_create` hands it to the factory. -/
def ComBody.fresh (b : ComBody) (key : UInt32) : ComBody where
  factory := key
  data := 0
  ifaces := b.ifaces.map fun f => { f with iid := 0 }
  ifaceCount := 0

/-- `meng_com_create`, with the id it returns. -/
def mengComCreate (E : Callbacks ω) (c : Com ω) (key : UInt32) (ccc : List UInt8) :
    Except Status UInt32 × Com ω :=
  match mengComFactoryLookup c key with
  | .error st => (.error st, c)
  | .ok f =>
    match c.find 0 with
    | none => (.error .errShortOut, c)
    | some (i, inst) =>
      let id := c.newId
      let (st, body, world) := E.create f.create ccc (inst.body.fresh key) id c.world
      let c := { c with nextId := id + 1, world := world }
      if st ≠ .ok then (.error st, c.setSlot i ⟨0, body⟩)
      else (.ok id, { c.setSlot i ⟨id, body⟩ with handles := c.handles ++ [id] })

/-- `meng_com_destroy`. -/
def mengComDestroy (c : Com ω) (id : UInt32) : Status × Com ω :=
  match c.find id with
  | some (i, inst) =>
    (.ok, { c.setSlot i { inst with id := 0 } with handles := c.handles.filter (· ≠ id) })
  | none => (.errNotFound, c)

/-- `meng_com_resolve`, with the slot it returns.  The interface id is not
looked at. -/
def mengComResolve (c : Com ω) (id _iid : UInt32) : Except Status Nat :=
  match c.find id with
  | some (i, _) => .ok i
  | none => .error .errNotFound

/-- An interface among those in use. -/
def ComBody.iface (b : ComBody) (iid : UInt32) : Option ComIface :=
  (b.ifaces.take b.ifaceCount.toNat).find? (·.iid == iid)

/-- `meng_com_invoke`, with the result of the method. -/
def mengComInvoke (E : Callbacks ω) (c : Com ω) (id iid slot : UInt32)
    (args : Option (List (BitVec 64))) (argc : UInt32) : Status × Option (BitVec 64) × Com ω :=
  if 0 < argc ∧ args = none then (.errBadArg, none, c)
  else
    match c.find id with
    | none => (.errNotFound, none, c)
    | some (i, inst) =>
      match inst.body.iface iid with
      | none => (.errNotFound, none, c)
      | some f =>
        if comMaxIface ≤ slot.toNat then (.errBadArg, none, c)
        else
          let fn := f.mslots.getD slot.toNat 0
          if fn = 0 then (.errBadArg, none, c)
          else
            let (st, result, body, world) := E.method fn inst args argc c.world
            (st, some result, { c.setSlot i { inst with body := body } with world := world })

/-! ## The engine -/

/-- `pack4cc`. -/
def pack4cc (s : List UInt8) : UInt32 :=
  (List.range 4).foldl (fun k i =>
    let c : UInt8 := if s.getD i 0 ≠ 0 then s.getD i 0 else 63
    k ||| (c.toUInt32 <<< UInt32.ofNat (i * 8))) 0

/-- `meng_fnv1a32`. -/
def mengFnv1a32 (s : List UInt8) : UInt32 :=
  s.foldl (fun h b => (h ^^^ b.toUInt32) * 16777619) 2166136261

/-- The lines of a manifest.  The count bounds their number. -/
def comLines : Nat → List UInt8 → List (List UInt8)
  | _, [] => []
  | 0, _ :: _ => []
  | n + 1, b :: bs =>
    (b :: bs).takeWhile (· ≠ 10) :: comLines n (((b :: bs).dropWhile (· ≠ 10)).drop 1)

/-- The words of a line: at most 127 bytes are kept, and a `#` starts a
comment. -/
def comWords (line : List UInt8) : List (List UInt8) :=
  mengSplit 8 (cString ((line.take 127).takeWhile (· ≠ 35)))

def chargeWords : Nat → Machine → Bool × Machine
  | 0, m => (true, m)
  | n + 1, m =>
    match mengMachineStep m with
    | (false, m) => (false, m)
    | (true, m) => chargeWords n m

/-- The four characters a `create` line passes on. -/
def createChars (E : Callbacks ω) (c : Com ω) (word : List UInt8) : List UInt8 :=
  (word ++ 0 :: E.residue c.world).take 4

/-- A `create` line. -/
def comCreateLine (E : Callbacks ω) (c : Com ω) (word : List UInt8) : Status × Com ω :=
  match mengComCreate E c (pack4cc (createChars E c word)) (createChars E c word) with
  | (.error st, c) => (st, c)
  | (.ok id, c) =>
    match mengComResolve c id 0 with
    | .ok i => (.ok, { c with current := some i, currentIid := 0 })
    | .error _ => (.errState, c)

/-- The instance `meng_com_current` points to. -/
def Com.currentInstance (c : Com ω) : Option ComInstance :=
  match c.current with
  | some i => c.instances[i]?
  | none => none

/-- A `resolv` line. -/
def comResolvLine (c : Com ω) (word : List UInt8) : Status × Com ω :=
  let iid := mengFnv1a32 word
  match c.currentInstance with
  | none => (.errState, c)
  | some inst =>
    if (inst.body.iface iid).isNone then (.errNotFound, c)
    else (.ok, { c with currentIid := iid })

/-- The integers of a list of words. -/
def parseArgs : List (List UInt8) → Except Status (List (BitVec 64))
  | [] => .ok []
  | w :: ws =>
    match parseI64 w with
    | .error _ => .error .errSyntax
    | .ok v =>
      match parseArgs ws with
      | .error st => .error st
      | .ok vs => .ok (v :: vs)

/-- A `call` line.  At most four arguments are read. -/
def comCallLine (E : Callbacks ω) (c : Com ω) (word : List UInt8) (rest : List (List UInt8)) :
    Status × Com ω :=
  match c.currentInstance with
  | none => (.errState, c)
  | some inst =>
    match parseI64 word with
    | .error _ => (.errSyntax, c)
    | .ok slot =>
      match parseArgs (rest.take 4) with
      | .error st => (st, c)
      | .ok args =>
        let (st, _, c) := mengComInvoke E c inst.id c.currentIid
          (UInt32.ofBitVec (slot.setWidth 32)) (some args) (UInt32.ofNat args.length)
        (st, c)

/-- The word `create`. -/
def createWord : List UInt8 := ascii ['c', 'r', 'e', 'a', 't', 'e']

/-- The word `resolv`. -/
def resolvWord : List UInt8 := ascii ['r', 'e', 's', 'o', 'l', 'v']

/-- The word `call`. -/
def callWord : List UInt8 := ascii ['c', 'a', 'l', 'l']

/-- A line of a manifest, with its words already charged. -/
def comLine (E : Callbacks ω) (c : Com ω) : List (List UInt8) → Status × Com ω
  | w :: word :: rest =>
    if w = createWord then comCreateLine E c word
    else if w = resolvWord then comResolvLine c word
    else if w = callWord then comCallLine E c word rest
    else (.errSyntax, c)
  | _ => (.errSyntax, c)

/-- The loop of `engine_com_run` over the lines. -/
def comRun (E : Callbacks ω) : List (List UInt8) → Machine → Com ω → Status × Machine × Com ω
  | [], m, c => (.ok, m, c)
  | line :: lines, m, c =>
    match comWords line with
    | [] => comRun E lines m c
    | words =>
      match chargeWords words.length m with
      | (false, m) => (.errTrap, m, c)
      | (true, m) =>
        match comLine E c words with
        | (.ok, c) => comRun E lines m c
        | (st, c) => (st, m, c)

/-- `engine_com_run`. -/
def engineComRun (E : Callbacks ω) (m : Machine) (manifest : List UInt8) (c : Com ω) :
    Status × Machine × Com ω :=
  comRun E (comLines manifest.length manifest) m c

end Engines
