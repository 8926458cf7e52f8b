import OpenWindows.Extensions.Sutf8
import OpenWindows.Vipm.Trie

/-!
# The manager

`vipm_manager_t` and the calls of `vipm.c`: paths and labels, the volume registry, the
mappings of the trie, the FVIP path table over them and the integrity walk.
-/

namespace Vipm

open Sutf8

/-! ## Paths and labels

Paths and labels are NUL-terminated SUTF-8 streams (`sutf8.h`).  `vp_validate_path`
decodes them codepoint by codepoint, and `vp_fnv1a64` hashes their bytes (`vipm.c`).
-/

/-- A string of C. -/
structure CString where
  bytes : List UInt8
  noNul : 0 ∉ bytes

instance : DecidableEq CString := fun a b =>
  decidable_of_iff (a.bytes = b.bytes)
    ⟨fun h => by cases a; cases b; cases h; rfl, congrArg CString.bytes⟩

theorem CString.noNul_nil : (0 : UInt8) ∉ ([] : List UInt8) := List.not_mem_nil

/-- The string of a buffer that is all zero. -/
def CString.empty : CString := ⟨[], CString.noNul_nil⟩

/-- `VIPM_PATH_MAX`. -/
def pathMax : Nat := 96

/-- `VIPM_LABEL_MAX`. -/
def labelMax : Nat := 48

/-! ### Validating -/

/-- The loop of `vp_validate_path`: the number of codepoints, or none for an invalid one.
Each round takes a byte at least, so there are no more rounds than bytes. -/
def validateLoop : Nat → List UInt8 → Nat → Option Nat
  | 0, _, count => some count
  | _ + 1, [], count => some count
  | rounds + 1, b :: rest, count =>
    let (cp, adv) := sutf8NextCodepoint (b :: rest)
    if adv = 0 then some count
    else if cp = sucsInvalidCodepoint then none
    else validateLoop rounds ((b :: rest).drop adv) (count + 1)

/-- `vp_validate_path`: the length and the number of codepoints. -/
def vpValidatePath (path : CString) : Except Status (Nat × Nat) :=
  let blen := path.bytes.length
  if blen ≥ pathMax then .error .errPathTooLong
  else
    match validateLoop blen path.bytes 0 with
    | none => .error .errInvalidSutf8
    | some cpcount => .ok (blen, cpcount)

/-! ### Hashing and comparing -/

/-- `vp_fnv1a64`. -/
def vpFnv1a64 (s : CString) : UInt64 :=
  s.bytes.foldl (fun h b => (h ^^^ b.toUInt64) * 0x100000001b3) 0xcbf29ce484222325

/-- The loop of `vp_path_equal`; the NUL after the last byte differs from every byte. -/
def pathEqualLoop : List UInt8 → List UInt8 → Bool
  | [], [] => true
  | a :: as, b :: bs => if a ≠ b then false else pathEqualLoop as bs
  | _, _ => false

/-- `vp_path_equal`. -/
def vpPathEqual (a b : CString) : Bool := pathEqualLoop a.bytes b.bytes

theorem pathEqualLoop_iff {as bs : List UInt8} : pathEqualLoop as bs = true ↔ as = bs := by
  induction as generalizing bs with
  | nil => cases bs <;> simp [pathEqualLoop]
  | cons a as ih =>
    cases bs with
    | nil => simp [pathEqualLoop]
    | cons b bs =>
      by_cases hab : a = b
      · simp [pathEqualLoop, hab, ih]
      · simp [pathEqualLoop, hab]

theorem vpPathEqual_iff {a b : CString} : vpPathEqual a b = true ↔ a = b := by
  cases a with
  | mk as ha =>
    cases b with
    | mk bs hb => simp [vpPathEqual, pathEqualLoop_iff]

theorem vpValidatePath_cases (path : CString) :
    (∃ cps, vpValidatePath path = .ok (path.bytes.length, cps)) ∨
      vpValidatePath path = .error .errPathTooLong ∨ vpValidatePath path = .error .errInvalidSutf8 := by
  simp only [vpValidatePath]
  split
  · exact .inr (.inl rfl)
  · cases validateLoop path.bytes.length path.bytes 0 with
    | none => exact .inr (.inr rfl)
    | some cps => exact .inl ⟨cps, rfl⟩

/-! ## The structures -/

/-- `vipm_fvip_entry_t`.  The buffer of the path is zero behind the string. -/
structure Entry where
  path : CString
  byteOffset : UInt64
  flags : UInt32
  codepointMeta : Nat
  pathHash : UInt64
  volumeId : UInt8
  occupied : Bool

/-- `vipm_volume_t`. -/
structure Volume where
  volumeId : UInt8
  baseSector : UInt64
  label : CString
  labelCodepoints : Nat
  registered : Bool

/-- `vipm_manager_t`. -/
structure Manager where
  trie : Trie
  volumes : Nat → Volume
  volumeCount : UInt8
  entries : Nat → Entry
  entryCount : UInt16
  initialized : Bool
  trieLookups : UInt64
  trieInserts : UInt64
  trieRemoves : UInt64
  trieMaxDepth : UInt64
  fvipHits : UInt64
  fvipMisses : UInt64

def Manager.zeroed : Manager where
  trie :=
    { nodes := fun _ => { childBitmap := 0, children := fun _ => 0, payload := 0 }
      freeStack := fun _ => 0, freeTop := 0, root := 0, nodeCount := 0 }
  volumes := fun _ =>
    { volumeId := 0, baseSector := 0, label := CString.empty, labelCodepoints := 0
      registered := false }
  volumeCount := 0
  entries := fun _ =>
    { path := CString.empty, byteOffset := 0, flags := 0, codepointMeta := 0, pathHash := 0
      volumeId := 0, occupied := false }
  entryCount := 0
  initialized := false
  trieLookups := 0
  trieInserts := 0
  trieRemoves := 0
  trieMaxDepth := 0
  fvipHits := 0
  fvipMisses := 0

/-- `VIPM_MAX_VOLUMES`. -/
def maxVolumes : Nat := 8

/-- `VIPM_FVIP_MAX_ENTRIES`. -/
def maxEntries : Nat := 64

/-- `vipm_key_make`. -/
def vipmKeyMake (volumeId : UInt8) (byteOffset : UInt64) : UInt64 :=
  let top := (volumeId &&& 0x0F).toUInt64 <<< 40
  top ||| (byteOffset &&& 0x000000FFFFFFFFFF)

/-- `vipm_init_manager`, on storage with any contents. -/
def vipmInitManager (m : Manager) : Status × Manager :=
  let m := { m with
    trie := initTrie
    volumeCount := 0
    entryCount := 0
    volumes := fun i => if i < maxVolumes then { m.volumes i with registered := false } else m.volumes i
    entries := fun i => if i < maxEntries then { m.entries i with occupied := false } else m.entries i
    trieLookups := 0
    trieInserts := 0
    trieRemoves := 0
    trieMaxDepth := 0
    fvipHits := 0
    fvipMisses := 0 }
  if m.trie.root = nullIndex then (.banPoolExhausted, m) else (.ok, { m with initialized := true })

/-! ## Volumes -/

/-- A slot of the registry holds the volume. -/
def volumeAt (m : Manager) (volumeId : UInt8) (i : Nat) : Bool :=
  (m.volumes i).registered && (m.volumes i).volumeId == volumeId

def hasVolume (m : Manager) (volumeId : UInt8) : Bool :=
  (List.range maxVolumes).any (volumeAt m volumeId)

/-- `vipm_volume_register`.  The length is checked against the bound of paths; a label
that does not fit its own buffer is written past the array, and the call has no outcome. -/
def vipmVolumeRegister (m : Manager) (volumeId : UInt8) (baseSector : UInt64) (label : CString) :
    Option (Status × Manager) :=
  if !m.initialized then some (.errNotInit, m)
  else if volumeId.toNat ≥ maxVolumes then some (.errInvalidKey, m)
  else
    match vpValidatePath label with
    | .error _ => some (.errLabelTooLong, m)
    | .ok (blen, cpcount) =>
      if hasVolume m volumeId then some (.banVolumeCorrupt, m)
      else
        match (List.range maxVolumes).find? fun i => !(m.volumes i).registered with
        | none => some (.errVolumeLimit, m)
        | some slot =>
          if blen < labelMax then
            some (.ok, { m with
              volumes := Function.update m.volumes slot
                { volumeId, baseSector, label, labelCodepoints := cpcount, registered := true }
              volumeCount := m.volumeCount + 1 })
          else none

/-! ## Mappings -/

/-- `vipm_mapping_put`. -/
def vipmMappingPut (m : Manager) (key : UInt64) (entryIndex : UInt32) : Status × Manager :=
  if !m.initialized then (.errNotInit, m)
  else if !vipmKeyValid key.toNat then (.errInvalidKey, m)
  else if entryIndex.toNat ≥ maxEntries then (.errInvalidKey, m)
  else
    match putTrie m.trie key.toNat entryIndex.toNat with
    | (.banPoolExhausted, t) => (.banPoolExhausted, { m with trie := t })
    | (st, t) => (st, { m with trie := t, trieInserts := m.trieInserts + 1 })

/-- `vipm_mapping_get`. -/
def vipmMappingGet (m : Manager) (key : UInt64) : Except Status Nat × Manager :=
  if !m.initialized then (.error .errNotInit, m)
  else (vpTrieFind m.trie key.toNat, { m with trieLookups := m.trieLookups + 1 })

/-- `vipm_mapping_remove`. -/
def vipmMappingRemove (m : Manager) (key : UInt64) : Status × Manager :=
  if !m.initialized then (.errNotInit, m)
  else if !vipmKeyValid key.toNat then (.errInvalidKey, m)
  else
    match removeTrie m.trie key.toNat with
    | (.ok, t) => (.ok, { m with trie := t, trieRemoves := m.trieRemoves + 1 })
    | (st, t) => (st, { m with trie := t })

/-! ## The path table -/

/-- A slot of the table holds an entry of the volume. -/
def entryOf (m : Manager) (volumeId : UInt8) (i : Nat) : Bool :=
  (m.entries i).occupied && (m.entries i).volumeId == volumeId

def findOffset (m : Manager) (volumeId : UInt8) (byteOffset : UInt64) : Option Nat :=
  (List.range maxEntries).find? fun i =>
    entryOf m volumeId i && (m.entries i).byteOffset == byteOffset

def findPath (m : Manager) (volumeId : UInt8) (path : CString) : Option Nat :=
  (List.range maxEntries).find? fun i =>
    entryOf m volumeId i && vpPathEqual (m.entries i).path path

def freeSlot (m : Manager) : Option Nat :=
  (List.range maxEntries).find? fun i => !(m.entries i).occupied

/-- `vipm_fvip_insert`. -/
def vipmFvipInsert (m : Manager) (volumeId : UInt8) (path : CString) (byteOffset : UInt64)
    (flags : UInt32) : Status × Manager :=
  if !m.initialized then (.errNotInit, m)
  else if !vipmKeyValid (vipmKeyMake volumeId byteOffset).toNat then (.errInvalidKey, m)
  else if !hasVolume m volumeId then (.errNotFound, m)
  else
    match findOffset m volumeId byteOffset with
    | some i =>
      (if vpPathEqual (m.entries i).path path then .errAlreadyExists else .errDuplicateMapping, m)
    | none =>
      match vpValidatePath path with
      | .error st => (st, m)
      | .ok (_, cpcount) =>
        match freeSlot m with
        | none => (.errTableFull, m)
        | some slot =>
          let entry : Entry :=
            { path, byteOffset, flags, codepointMeta := cpcount
              pathHash := vpFnv1a64 path, volumeId, occupied := true }
          let m := { m with
            entries := Function.update m.entries slot entry
            entryCount := m.entryCount + 1 }
          match vipmMappingPut m (vipmKeyMake volumeId byteOffset) (UInt32.ofNat slot) with
          | (.ok, m) => (.ok, m)
          | (st, m) =>
            (st, { m with
              entries := Function.update m.entries slot
                { m.entries slot with occupied := false }
              entryCount := m.entryCount - 1 })

/-- `vipm_fvip_lookup`. -/
def vipmFvipLookup (m : Manager) (volumeId : UInt8) (path : CString) :
    Except Status Entry × Manager :=
  if !m.initialized then (.error .errNotInit, m)
  else
    match findPath m volumeId path with
    | none => (.error .errNotFound, { m with fvipMisses := m.fvipMisses + 1 })
    | some i =>
      if (m.entries i).pathHash ≠ vpFnv1a64 path then (.error .banHashMismatch, m)
      else
        match vpValidatePath path with
        | .error st => (.error st, m)
        | .ok (_, cps) =>
          if (m.entries i).codepointMeta ≠ cps then (.error .banEntryCorrupt, m)
          else
            match vpTrieFind m.trie (vipmKeyMake volumeId (m.entries i).byteOffset).toNat with
            | .error _ => (.error .errIndexStale, m)
            | .ok trieIdx =>
              if trieIdx ≠ i then (.error .errIndexStale, m)
              else (.ok (m.entries i), { m with fvipHits := m.fvipHits + 1 })

/-- `vipm_fvip_remove`. -/
def vipmFvipRemove (m : Manager) (volumeId : UInt8) (path : CString) : Status × Manager :=
  if !m.initialized then (.errNotInit, m)
  else
    match findPath m volumeId path with
    | none => (.errNotFound, m)
    | some i =>
      let (st, m) := vipmMappingRemove m (vipmKeyMake volumeId (m.entries i).byteOffset)
      (st, { m with
        entries := Function.update m.entries i
          { path := CString.empty, byteOffset := 0, flags := 0, codepointMeta := 0, pathHash := 0
            volumeId := 0, occupied := false }
        entryCount := m.entryCount - 1 })

/-! ## The integrity walk -/

/-- The loop over the children of a node; the stack grows at the head. -/
def verifyChildren (n : Node) : List Nat → (Nat → Bool) → List Nat →
    Except Status ((Nat → Bool) × List Nat)
  | [], visited, stack => .ok (visited, stack)
  | nb :: nbs, visited, stack =>
    if n.childBitmap &&& 1 <<< nb = 0 then verifyChildren n nbs visited stack
    else
      let cidx := vpNodeGet n nb
      if cidx = nullIndex ∨ cidx ≥ maxNodes then .error .banNodeCorrupt
      else if visited cidx then .error .banNodeCorrupt
      else if stack.length ≥ maxNodes then .error .banNodeCorrupt
      else verifyChildren n nbs (Function.update visited cidx true) (cidx :: stack)

def verifyPayload (m : Manager) (n : Node) : Except Status Unit :=
  if n.payload = nullPayload then .ok ()
  else if n.payload ≥ maxEntries then .error .banNodeCorrupt
  else
    let e := m.entries n.payload
    if !e.occupied then .error .banEntryCorrupt
    else if !vipmKeyValid (vipmKeyMake e.volumeId e.byteOffset).toNat then .error .banEntryCorrupt
    else if e.pathHash ≠ vpFnv1a64 e.path then .error .banHashMismatch
    else .ok ()

def verifyNodes (m : Manager) : Nat → (Nat → Bool) → List Nat → Nat →
    Except Status ((Nat → Bool) × Nat)
  | _, visited, [], reachable => .ok (visited, reachable)
  | 0, visited, _ :: _, reachable => .ok (visited, reachable)
  | rounds + 1, visited, cur :: stack, reachable =>
    let n := m.trie.nodes cur
    if vpPopcount16 n.childBitmap > 16 then .error .banNodeCorrupt
    else
      match verifyChildren n (List.range 16) visited stack with
      | .error st => .error st
      | .ok (visited, stack) =>
        match verifyPayload m n with
        | .error st => .error st
        | .ok () => verifyNodes m rounds visited stack (reachable + 1)

/-- The loop over the free stack. -/
def verifyFree (visited : Nat → Bool) : List Nat → (Nat → Bool) → Except Status Unit
  | [], _ => .ok ()
  | fi :: rest, inFree =>
    if fi ≥ maxNodes then .error .banTableCorrupt
    else if visited fi then .error .banTableCorrupt
    else if inFree fi then .error .banTableCorrupt
    else verifyFree visited rest (Function.update inFree fi true)

/-- The loop over the entries: the number that are occupied. -/
def verifyEntries (m : Manager) : List Nat → Nat → Except Status Nat
  | [], occupied => .ok occupied
  | i :: rest, occupied =>
    let e := m.entries i
    if !e.occupied then verifyEntries m rest occupied
    else
      match vpTrieFind m.trie (vipmKeyMake e.volumeId e.byteOffset).toNat with
      | .error _ => .error .banEntryCorrupt
      | .ok trieIdx =>
        if trieIdx ≠ i then .error .errIndexStale
        else if e.pathHash ≠ vpFnv1a64 e.path then .error .banHashMismatch
        else verifyEntries m rest (occupied + 1)

def verifyVolumes (m : Manager) : List Nat → Except Status Unit
  | [] => .ok ()
  | i :: rest =>
    if !(m.volumes i).registered then verifyVolumes m rest
    else if rest.any (volumeAt m (m.volumes i).volumeId) then .error .banVolumeCorrupt
    else verifyVolumes m rest

/-- `vipm_integrity_verify`, up to the first check that fails. -/
def verifyAll (m : Manager) : Except Status Unit :=
  if !m.initialized then .error .errNotInit
  else do
    let start := Function.update (fun _ => false) m.trie.root true
    let (visited, reachable) ← verifyNodes m maxNodes start [m.trie.root] 0
    verifyFree visited ((List.range m.trie.freeTop).map m.trie.freeStack) fun _ => false
    if reachable ≠ m.trie.nodeCount then .error .banTableCorrupt
    let occupied ← verifyEntries m (List.range maxEntries) 0
    if occupied ≠ m.entryCount.toNat then .error .banEntryCorrupt
    verifyVolumes m (List.range maxVolumes)

/-- `vipm_integrity_verify`. -/
def vipmIntegrityVerify (m : Manager) : Status :=
  match verifyAll m with
  | .ok () => .ok
  | .error st => st

end Vipm
