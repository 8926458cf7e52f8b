import OpenWindows.Lib.StepSystem

/-!
# The registry

The key store of `owreg64.c`: an array of entries that the caller supplies, searched from
its start.  A handle is a slot number without a generation.
-/

namespace Owreg

/-- A NUL-terminated string: the bytes before the NUL. -/
structure Text where
  bytes : List UInt8
  noNul : 0 ∉ bytes

instance : DecidableEq Text := fun a b =>
  decidable_of_iff (a.bytes = b.bytes)
    ⟨fun h => by cases a; cases b; cases h; rfl, congrArg Text.bytes⟩

def Text.empty : Text := ⟨[], List.not_mem_nil⟩

/-- `OWREG64_KEY_MAX`. -/
def keyMax : Nat := 96

/-- `OWREG64_VALUE_MAX`. -/
def valueMax : Nat := 128

/-- `OWREG_OK`. -/
def statusOk : Int := 0

/-- `OWREG_ERR_PARAM`. -/
def errParam : Int := -1

/-- `OWREG_ERR_ACCESS`. -/
def errAccess : Int := -5

/-- `OWREG_ERR_TOOBIG`. -/
def errTooBig : Int := -6

/-- `OWREG_OPEN_WRITE`. -/
def openWrite : UInt32 := 0x02

/-- `OWREG_OPEN_CREATE`. -/
def openCreate : UInt32 := 0x04

/-! ## Strings -/

/-- The loop of `ow_strcmp`; past the end stands the NUL. -/
def strcmpLoop : List UInt8 → List UInt8 → Int
  | a :: as, b :: bs => if a = b then strcmpLoop as bs else (a.toNat : Int) - b.toNat
  | [], bs => 0 - ((bs.headD 0).toNat : Int)
  | a :: _, [] => a.toNat

/-- `ow_strcmp`. -/
def owStrcmp (a b : Text) : Int := strcmpLoop a.bytes b.bytes

/-- `ow_strncpy` to a buffer of `cap + 1` bytes. -/
def owStrncpy (src : Text) (cap : Nat) : Text :=
  ⟨src.bytes.take cap, fun h => src.noNul (List.mem_of_mem_take h)⟩

/-- `ow_key_char_ok`. -/
def keyCharOk (c : UInt8) : Bool :=
  if 97 ≤ c ∧ c ≤ 122 then true
  else if 65 ≤ c ∧ c ≤ 90 then true
  else if 48 ≤ c ∧ c ≤ 57 then true
  else c == 46 || c == 95 || c == 45

/-- The loop of `ow_key_valid`. -/
def keyCharsOk : List UInt8 → Bool
  | [] => true
  | c :: rest =>
    if !keyCharOk c then false
    else if c = 46 ∧ rest.headD 0 = 46 then false
    else keyCharsOk rest

/-- `ow_key_valid`. -/
def keyValid (key : Text) : Bool :=
  match key.bytes with
  | [] => false
  | c :: rest =>
    if (c :: rest).length ≥ keyMax then false
    else if c = 46 ∨ (c :: rest).getLast (List.cons_ne_nil c rest) = 46 then false
    else keyCharsOk (c :: rest)

/-! ## The store -/

/-- `owreg_entry_t`. -/
structure Entry where
  inUse : Bool
  key : Text
  value : Text
deriving DecidableEq

/-- `owreg_store_t` with its entries. -/
structure Store where
  entries : Nat → Entry
  capacity : UInt32
  count : UInt32

/-- `owreg_handle_t`; `store` says whether the pointer is not NULL. -/
structure Handle where
  store : Bool
  index : UInt32
  writable : Bool
  valid : Bool
deriving DecidableEq

/-- The cast of a slot number to `int32_t`. -/
def toInt32 (i : Nat) : Int :=
  if i % 0x100000000 < 0x80000000 then (i % 0x100000000 : Nat)
  else (i % 0x100000000 : Nat) - 0x100000000

/-- `owreg_find_index`. -/
def findIndex (store : Store) (key : Text) : Int :=
  match (List.range store.capacity.toNat).find? fun i =>
      (store.entries i).inUse && owStrcmp (store.entries i).key key == 0 with
  | some i => toInt32 i
  | none => -1

/-- `owreg_free_index`. -/
def freeIndex (store : Store) : Int :=
  match (List.range store.capacity.toNat).find? fun i => !(store.entries i).inUse with
  | some i => toInt32 i
  | none => -1

/-- `owreg_bad_handle`. -/
def badHandle : Handle := ⟨false, 0, false, false⟩

/-- `owreg_handle_entry`: the slot, or none for NULL. -/
def handleEntry (store : Store) (handle : Handle) : Option Nat :=
  if !handle.valid ∨ !handle.store then none
  else if handle.index ≥ store.capacity then none
  else some handle.index.toNat

/-- `owreg_store_init`. -/
def storeInit (entries : Nat → Entry) (capacity : UInt32) : Store where
  entries i := if i < capacity.toNat then ⟨false, .empty, .empty⟩ else entries i
  capacity := capacity
  count := 0

/-- `owreg_open`. -/
def owregOpen (store : Store) (key : Option Text) (flags : UInt32) : Handle × Store :=
  match key with
  | none => (badHandle, store)
  | some key =>
    if !keyValid key then (badHandle, store)
    else
      let handle (index : Int) : Handle :=
        ⟨true, UInt32.ofNat index.toNat, flags &&& openWrite != 0, true⟩
      let index := findIndex store key
      if index < 0 then
        if flags &&& openCreate = 0 then (badHandle, store)
        else
          let index := freeIndex store
          if index < 0 then (badHandle, store)
          else
            let entry : Entry := ⟨true, owStrncpy key (keyMax - 1), .empty⟩
            (handle index,
              { store with
                entries := Function.update store.entries index.toNat entry
                count := store.count + 1 })
      else (handle index, store)

/-- `owreg_close`. -/
def owregClose (handle : Handle) : Bool × Handle :=
  if !handle.valid then (false, handle) else (true, badHandle)

/-- `owreg_read` to a buffer of the given size, none for NULL: the result and what is copied. -/
def owregRead (store : Store) (handle : Handle) (out : Option Nat) : Int × Option Text :=
  match handleEntry store handle, out with
  | some i, some outCap =>
    if outCap = 0 then (errParam, none)
    else
      let len := (store.entries i).value.bytes.length
      if len + 1 > outCap then (errTooBig, none)
      else (len, some (owStrncpy (store.entries i).value (outCap - 1)))
  | _, _ => (errParam, none)

/-- `owreg_write`. -/
def owregWrite (store : Store) (handle : Handle) (value : Option Text) : Int × Store :=
  match handleEntry store handle, value with
  | some i, some value =>
    if !handle.writable then (errAccess, store)
    else if value.bytes.length ≥ valueMax then (errTooBig, store)
    else
      let entry := { store.entries i with value := owStrncpy value (valueMax - 1) }
      (statusOk, { store with entries := Function.update store.entries i entry })
  | _, _ => (errParam, store)

/-- `owreg_delete`. -/
def owregDelete (store : Store) (key : Option Text) : Bool × Store :=
  match key with
  | none => (false, store)
  | some key =>
    let index := findIndex store key
    if index < 0 then (false, store)
    else
      (true,
        { store with
          entries := Function.update store.entries index.toNat ⟨false, .empty, .empty⟩
          count := if store.count > 0 then store.count - 1 else store.count })

/-! ## What the searches find -/

theorem strcmpLoop_eq_zero {as bs : List UInt8} (ha : 0 ∉ as) (hb : 0 ∉ bs) :
    strcmpLoop as bs = 0 ↔ as = bs := by
  induction as generalizing bs with
  | nil =>
    cases bs with
    | nil => simp [strcmpLoop]
    | cons b bs =>
      have hne : b.toNat ≠ 0 := by
        intro h
        exact hb (by simp [← UInt8.toNat_inj, h])
      simp [strcmpLoop, hne]
  | cons a as ih =>
    have hne : a.toNat ≠ 0 := by
      intro h
      exact ha (by simp [← UInt8.toNat_inj, h])
    cases bs with
    | nil => simp [strcmpLoop, hne]
    | cons b bs =>
      rw [strcmpLoop]
      split
      next hab =>
        rw [ih (fun h => ha (List.mem_cons_of_mem _ h)) (fun h => hb (List.mem_cons_of_mem _ h))]
        simp [hab]
      next hab =>
        have : a.toNat ≠ b.toNat := fun h => hab (UInt8.toNat_inj.1 h)
        constructor
        · intro h
          omega
        · intro h
          simp only [List.cons.injEq] at h
          exact absurd h.1 hab

theorem owStrcmp_eq_zero {a b : Text} : owStrcmp a b = 0 ↔ a = b := by
  cases a
  cases b
  simp [owStrcmp, strcmpLoop_eq_zero, *]

theorem toInt32_of_lt {i : Nat} (h : i < 0x80000000) : toInt32 i = i := by
  rw [toInt32, Nat.mod_eq_of_lt (by omega), if_pos h]

theorem toInt32_neg {i : Nat} (h : 0x80000000 ≤ i) (h' : i < 0x100000000) : toInt32 i < 0 := by
  rw [toInt32, Nat.mod_eq_of_lt h', if_neg (by omega)]
  omega

theorem owStrncpy_key {key : Text} (h : keyValid key = true) : owStrncpy key (keyMax - 1) = key := by
  cases key with
  | mk bytes noNul =>
    cases bytes with
    | nil => simp [keyValid] at h
    | cons c rest =>
      have hlt : ¬ (c :: rest).length ≥ keyMax := by
        simp only [keyValid] at h
        split at h
        · simp at h
        next hlt => exact hlt
      have htake : (c :: rest).take (keyMax - 1) = c :: rest :=
        List.take_of_length_le (by simp only [keyMax] at hlt ⊢; omega)
      simp only [owStrncpy, htake]

theorem owStrncpy_value {value : Text} {cap : Nat} (h : value.bytes.length ≤ cap) :
    owStrncpy value cap = value := by
  cases value with
  | mk bytes noNul => simp only [owStrncpy, List.take_of_length_le h]

/-- The slots a live key is in. -/
def Live (store : Store) (i : Nat) : Prop :=
  i < store.capacity.toNat ∧ (store.entries i).inUse = true

/-- Live keys lie where a slot number is a valid `int32_t`. -/
def InReach (store : Store) : Prop := ∀ i, Live store i → i < 0x80000000

theorem findIndex_cases {store : Store} (h : InReach store) (key : Text) :
    (∃ i, findIndex store key = (i : Nat) ∧ i < 0x80000000 ∧ Live store i ∧
        (store.entries i).key = key) ∨
      (findIndex store key < 0 ∧ ∀ i, Live store i → (store.entries i).key ≠ key) := by
  unfold findIndex
  split
  next i hfind =>
    have hlt := List.mem_range.1 (List.mem_of_find?_eq_some hfind)
    have hi := List.find?_some hfind
    simp only [Bool.and_eq_true, beq_iff_eq, owStrcmp_eq_zero] at hi
    have hreach := h i ⟨hlt, hi.1⟩
    exact .inl ⟨i, toInt32_of_lt hreach, hreach, ⟨hlt, hi.1⟩, hi.2⟩
  next hfind =>
    refine .inr ⟨by decide, ?_⟩
    intro i hi hkey
    have hnot := List.find?_eq_none.1 hfind i (List.mem_range.2 hi.1)
    simp [hi.2, owStrcmp_eq_zero, hkey] at hnot

theorem freeIndex_cases (store : Store) :
    (∃ i, freeIndex store = (i : Nat) ∧ i < 0x80000000 ∧ i < store.capacity.toNat ∧
        (store.entries i).inUse = false) ∨ freeIndex store < 0 := by
  unfold freeIndex
  split
  next i hfind =>
    have hlt := List.mem_range.1 (List.mem_of_find?_eq_some hfind)
    have hi := List.find?_some hfind
    have hcap := store.capacity.toNat_lt
    rcases Nat.lt_or_ge i 0x80000000 with hreach | hreach
    · exact .inl ⟨i, toInt32_of_lt hreach, hreach, hlt, by simpa using hi⟩
    · exact .inr (toInt32_neg hreach (by omega))
  · exact .inr (by decide)

end Owreg
