import OpenWindows.Lib.StepSystem
import OpenWindows.Sentinel.Context

/-!
# The recovery log in its buffer

`dc_log_append` writes an entry of 24 bytes and copies the message behind the
entries, into a table of strings.  The log does not keep the size of its buffer, and an
entry has 16 bits for the place of its message.
-/

namespace Sentinel.Log

open Memory Bytes StepSystem

/-! ## The functions -/

/-- A NUL-terminated string, without the NUL. -/
structure Message where
  bytes : List UInt8
  noNul : 0 ∉ bytes

/-- The string stands at an address. -/
def StringAt (m : Mem) (a : Nat) (s : Message) : Prop :=
  load m a s.bytes.length = s.bytes ∧ m (a + s.bytes.length) = 0

/-- Bytes written to addresses, one after the other. -/
abbrev Stores := List (Nat × List UInt8)

def storeAll (m : Mem) (stores : Stores) : Mem := stores.foldl (fun m s => store m s.1 s.2) m

/-- `dc_recovery_log_t` -/
structure DcRecoveryLog where
  entries : Nat
  capacity : Nat
  count : Nat
  stringTableOffset : Nat
  stringTableUsed : Nat

/-- The arguments of `dc_log_append`. -/
structure LogCall where
  type : Nat
  bancode : Nat
  directiveIndex : Nat
  message : Message
  detail : Nat

/-- `dc_log_init`, with what it writes -/
def dcLogInit (buffer maxEntries bufferSize : Nat) : Stores × DcRecoveryLog :=
  ([(buffer, List.replicate bufferSize 0)],
    { entries := buffer, capacity := maxEntries, count := 0
      stringTableOffset := maxEntries * 24 % 2 ^ 32, stringTableUsed := 0 })

/-- `dc_strlen`; `none` where its count wraps and it never comes to the NUL. -/
def dcStrlen (s : Message) : Option Nat :=
  if s.bytes.length < 2 ^ 32 then some s.bytes.length else none

/-- `table_capacity` -/
def tableCapacity (log : DcRecoveryLog) : Nat :=
  let entryArea := log.capacity * 24 % 2 ^ 32
  if entryArea < 0xFFFFFFFF then 0xFFFFFFFF - entryArea else 0

def appendStores (log : DcRecoveryLog) (c : LogCall) (needed : Nat) : Stores :=
  let e := log.entries + 24 * log.count
  [(e, leBytes 8 0), (e + 8, leBytes 4 c.bancode), (e + 12, leBytes 1 c.type),
    (e + 13, leBytes 1 c.directiveIndex), (e + 14, leBytes 2 log.stringTableUsed),
    (e + 16, leBytes 4 c.detail),
    (log.entries + log.stringTableOffset + log.stringTableUsed,
      (c.message.bytes ++ [0]).take needed)]

/-- `dc_log_append`: what it writes, the log after it, and what it returns -/
def dcLogAppend (log : DcRecoveryLog) (c : LogCall) : Option (Stores × DcRecoveryLog × Bool) :=
  if log.capacity ≤ log.count then some ([], log, false)
  else do
    let msgLen ← dcStrlen c.message
    let needed := (msgLen + 1) % 2 ^ 32
    if tableCapacity log < (log.stringTableUsed + needed) % 2 ^ 32 then return ([], log, false)
    return (appendStores log c needed,
      { log with
        stringTableUsed := (log.stringTableUsed + needed) % 2 ^ 32, count := log.count + 1 }, true)

/-! ## Runs -/

/-- The memory, a log, and the messages of the appends that succeeded. -/
structure LogUse where
  mem : Mem
  log : DcRecoveryLog
  messages : List Message

def LogUse.start (m : Mem) (buffer maxEntries bufferSize : Nat) : LogUse :=
  ⟨storeAll m (dcLogInit buffer maxEntries bufferSize).1,
    (dcLogInit buffer maxEntries bufferSize).2, []⟩

def LogUse.next (u : LogUse) (c : LogCall) : LogUse :=
  match dcLogAppend u.log c with
  | some (stores, log, ok) =>
    ⟨storeAll u.mem stores, log, if ok then u.messages ++ [c.message] else u.messages⟩
  | none => u

/-- `message_offset` of an entry. -/
def LogUse.messageOffset (u : LogUse) (i : Nat) : Nat :=
  loadNum u.mem (u.log.entries + 24 * i + 14) 2

/-- The message of every entry stands where the entry says. -/
def LogUse.Reads (u : LogUse) : Prop :=
  u.log.count = u.messages.length ∧
    ∀ i s, u.messages[i]? = some s →
      StringAt u.mem (u.log.entries + u.log.stringTableOffset + u.messageOffset i) s

/-- There is an entry left, and room for the message. -/
def Fits (bufferSize : Nat) (log : DcRecoveryLog) (c : LogCall) : Prop :=
  log.count < log.capacity ∧
    24 * log.capacity + log.stringTableUsed + c.message.bytes.length + 1 ≤ bufferSize

/-- What an append does. -/
structure Outcome (bufferSize : Nat) (u : LogUse) (c : LogCall) (stores : Stores)
    (log : DcRecoveryLog) (ok : Bool) : Prop where
  returns : dcLogAppend u.log c = some (stores, log, ok)
  inside : ∀ s ∈ stores, u.log.entries ≤ s.1 ∧ s.1 + s.2.length ≤ u.log.entries + bufferSize
  unfit : ¬ Fits bufferSize u.log c → ok = false
  refused : ok = false → stores = [] ∧ log = u.log
  reads : ok = true → (u.next c).Reads

/-- The append returns, writes inside the buffer, and every message can be read back. -/
def KeepsLog (bufferSize : Nat) (u : LogUse) (c : LogCall) : Prop :=
  ∃ stores log ok, Outcome bufferSize u c stores log ok

/-- A message that the code takes in has room, and its place has 16 bits, or the string at
the place that is left of it is the message. -/
def RoomFor (bufferSize : Nat) (u : LogUse) (c : LogCall) : Prop :=
  u.log.count < u.log.capacity →
    (c.message.bytes.length < 2 ^ 32 →
      (u.log.stringTableUsed + (c.message.bytes.length + 1) % 2 ^ 32) % 2 ^ 32 ≤
        tableCapacity u.log) →
    Fits bufferSize u.log c ∧
      (u.log.stringTableUsed < 2 ^ 16 ∨
        StringAt u.mem
          (u.log.entries + u.log.stringTableOffset + u.log.stringTableUsed % 2 ^ 16) c.message)

/-! ## Strings and stores -/

variable {m m' : Mem} {P : Nat → Prop} {a o n bufferSize : Nat} {s : Message} {u : LogUse}
  {c : LogCall}

theorem sameOn_storeAll {stores : Stores}
    (h : ∀ s ∈ stores, ∀ x, P x → x < s.1 ∨ s.1 + s.2.length ≤ x) :
    SameOn P m (storeAll m stores) := by
  induction stores generalizing m with
  | nil => exact .refl P m
  | cons s rest ih =>
    have hhead : SameOn P m (store m s.1 s.2) := sameOn_store (h s List.mem_cons_self)
    exact hhead.trans (ih fun t ht => h t (List.mem_cons_of_mem s ht))

theorem StringAt.congr (h : SameOn P m m')
    (hP : ∀ x, a ≤ x → x ≤ a + s.bytes.length → P x) : StringAt m' a s ↔ StringAt m a s := by
  unfold StringAt
  rw [h.load_eq fun x hlo hhi => hP x hlo (Nat.le_of_lt hhi),
    h _ (hP _ (Nat.le_add_right ..) (Nat.le_refl _))]

theorem StringAt.end_le (h : StringAt m (a + o) s) (hend : m (a + n) = 0) (ho : o ≤ n) :
    o + s.bytes.length ≤ n := by
  by_contra hlt
  have hi : n - o < s.bytes.length := by omega
  have hbyte : s.bytes[n - o] = 0 := by
    have hlen : n - o < (load m (a + o) s.bytes.length).length := by rwa [length_load]
    have hget : (load m (a + o) s.bytes.length)[n - o] = m (a + n) := by
      simp only [load, List.getElem_map, List.getElem_range]
      congr 1
      omega
    have hbytes := h.1
    rw [← hend, ← hget]
    simp only [hbytes]
  exact s.noNul (hbyte ▸ List.getElem_mem hi)

theorem stringAt_store (m : Mem) (a : Nat) (s : Message) :
    StringAt (store m a (s.bytes ++ [0])) a s := by
  obtain ⟨hbytes, hnul⟩ := load_append (load_store_self m a (s.bytes ++ [0]))
  rw [List.length_singleton, load_succ] at hnul
  exact ⟨hbytes, (List.cons.inj hnul).1⟩

/-! ## An append that is taken in -/

/-- The string table starts behind the entries and ends with a NUL, and every message is
in it. -/
structure Holds (bufferSize : Nat) (u : LogUse) : Prop where
  table : u.log.stringTableOffset = 24 * u.log.capacity
  room : u.log.count ≤ u.log.capacity
  used : 24 * u.log.capacity + u.log.stringTableUsed ≤ bufferSize
  ends : ∀ {n}, u.log.stringTableUsed = n + 1 →
    u.mem (u.log.entries + u.log.stringTableOffset + n) = 0
  places : ∀ {i}, i < u.log.count → u.messageOffset i < u.log.stringTableUsed
  reads : u.Reads

theorem Holds.end_lt (h : Holds bufferSize u)
    (hs : StringAt u.mem (u.log.entries + u.log.stringTableOffset + o) s)
    (ho : o < u.log.stringTableUsed) : o + s.bytes.length < u.log.stringTableUsed := by
  obtain ⟨n, hn⟩ : ∃ n, u.log.stringTableUsed = n + 1 :=
    ⟨u.log.stringTableUsed - 1, by omega⟩
  have := hs.end_le (h.ends hn) (by omega)
  omega

/-- What an append leaves as it was: the other entries and the table so far. -/
def LogUse.Older (u : LogUse) (x : Nat) : Prop :=
  x < u.log.entries + u.log.stringTableOffset + u.log.stringTableUsed ∧
    (x < u.log.entries + 24 * u.log.count ∨ u.log.entries + 24 * u.log.count + 24 ≤ x)

/-- The memory after an append of a message that has room. -/
structure Appended (u : LogUse) (c : LogCall) (m' : Mem) : Prop where
  older : SameOn u.Older u.mem m'
  place : loadNum m' (u.log.entries + 24 * u.log.count + 14) 2 = u.log.stringTableUsed % 2 ^ 16
  string : StringAt m' (u.log.entries + u.log.stringTableOffset + u.log.stringTableUsed) c.message

theorem Holds.appended (h : Holds bufferSize u) (hcount : u.log.count < u.log.capacity) :
    Appended u c (storeAll u.mem (appendStores u.log c (c.message.bytes.length + 1))) := by
  have htable := h.table
  have hbytes : (c.message.bytes ++ [0]).take (c.message.bytes.length + 1) =
      c.message.bytes ++ [0] := List.take_of_length_le (by simp)
  refine ⟨sameOn_storeAll fun s hs x hx => ?_, ?_, ?_⟩
  · obtain ⟨hlt, hx⟩ := hx
    simp only [appendStores, List.mem_cons, List.not_mem_nil, or_false] at hs
    rcases hs with rfl | rfl | rfl | rfl | rfl | rfl | rfl <;>
      simp only [length_leBytes] <;> omega
  · -- the detail and the message come after the place
    let front : Mem := storeAll u.mem ((appendStores u.log c (c.message.bytes.length + 1)).take 4)
    let back : Stores := (appendStores u.log c (c.message.bytes.length + 1)).drop 5
    show loadNum (storeAll (storeNum front _ 2 _) back) _ 2 = _
    have hback : SameOn (Span (u.log.entries + 24 * u.log.count + 14)
          (u.log.entries + 24 * u.log.count + 16))
        (storeNum front (u.log.entries + 24 * u.log.count + 14) 2 u.log.stringTableUsed)
        (storeAll (storeNum front (u.log.entries + 24 * u.log.count + 14) 2
          u.log.stringTableUsed) back) := by
      refine sameOn_storeAll fun s hs x hx => ?_
      obtain ⟨hlo, hhi⟩ := hx
      simp only [back, appendStores, List.drop_succ_cons, List.drop_zero, List.mem_cons,
        List.not_mem_nil, or_false] at hs
      rcases hs with rfl | rfl <;> simp only [length_leBytes] <;> omega
    rw [hback.loadNum_eq fun x hlo hhi => ⟨hlo, hhi⟩, loadNum_storeNum_self]
    rfl
  · show StringAt (store _ _ ((c.message.bytes ++ [0]).take _)) _ _
    rw [hbytes]
    exact stringAt_store ..

theorem mod_place_lt {used : Nat} (h : ¬ used < 2 ^ 16) : used % 2 ^ 16 < used := by omega

theorem Appended.next {m' : Mem} {log : DcRecoveryLog} (h : Holds bufferSize u)
    (ha : Appended u c m') (hfit : Fits bufferSize u.log c)
    (hplace : u.log.stringTableUsed < 2 ^ 16 ∨
      StringAt u.mem
        (u.log.entries + u.log.stringTableOffset + u.log.stringTableUsed % 2 ^ 16) c.message)
    (hlog : log = { u.log with
      stringTableUsed := u.log.stringTableUsed + c.message.bytes.length + 1
      count := u.log.count + 1 }) :
    Holds bufferSize ⟨m', log, u.messages ++ [c.message]⟩ := by
  subst hlog
  obtain ⟨hcount, hroom⟩ := hfit
  have htable := h.table
  have hlength := h.reads.1
  have hoffset : ∀ i < u.log.count,
      loadNum m' (u.log.entries + 24 * i + 14) 2 = u.messageOffset i := fun i hi =>
    ha.older.loadNum_eq fun x hlo hhi => ⟨by omega, by omega⟩
  -- a string of the table is left as it was
  have hkept : ∀ {o s}, StringAt u.mem (u.log.entries + u.log.stringTableOffset + o) s →
      o < u.log.stringTableUsed →
      StringAt m' (u.log.entries + u.log.stringTableOffset + o) s := by
    intro o s hs ho
    have hend := h.end_lt hs ho
    exact (StringAt.congr ha.older fun x hlo hhi => ⟨by omega, by omega⟩).mpr hs
  refine ⟨htable, hcount, ?_, ?_, ?_, ?_, ?_⟩
  · show 24 * u.log.capacity + (u.log.stringTableUsed + c.message.bytes.length + 1) ≤ bufferSize
    omega
  · intro n hn
    have hn : u.log.stringTableUsed + c.message.bytes.length + 1 = n + 1 := hn
    obtain rfl : n = u.log.stringTableUsed + c.message.bytes.length := by omega
    have hnul := ha.string.2
    rwa [Nat.add_assoc _ u.log.stringTableUsed] at hnul
  · intro i hi
    have hi : i < u.log.count + 1 := hi
    show loadNum m' _ 2 < u.log.stringTableUsed + c.message.bytes.length + 1
    rcases Nat.lt_succ_iff_lt_or_eq.mp hi with hi | rfl
    · have hlt := h.places hi
      have heq : loadNum m' (u.log.entries + 24 * i + 14) 2 = u.messageOffset i := hoffset i hi
      show loadNum m' (u.log.entries + 24 * i + 14) 2 < _
      omega
    · have hle := Nat.mod_le u.log.stringTableUsed (2 ^ 16)
      have heq := ha.place
      show loadNum m' (u.log.entries + 24 * u.log.count + 14) 2 < _
      omega
  · show u.log.count + 1 = _
    rw [List.length_append, List.length_singleton, hlength]
  · intro i s hs
    show StringAt m' (u.log.entries + u.log.stringTableOffset +
      loadNum m' (u.log.entries + 24 * i + 14) 2) s
    have hs : (u.messages ++ [c.message])[i]? = some s := hs
    rcases Nat.lt_or_ge i u.messages.length with hi | hi
    · rw [List.getElem?_append_left hi] at hs
      rw [← hlength] at hi
      rw [hoffset i hi]
      exact hkept (h.reads.2 i s hs) (h.places hi)
    · have hlast : i = u.messages.length ∧ s = c.message := by
        rw [List.getElem?_append_right hi, List.getElem?_singleton] at hs
        split at hs
        next hzero => exact ⟨by omega, (Option.some.inj hs).symm⟩
        · cases hs
      obtain ⟨rfl, rfl⟩ := hlast
      rw [← hlength, ha.place]
      by_cases h16 : u.log.stringTableUsed < 2 ^ 16
      · rw [Nat.mod_eq_of_lt h16]
        exact ha.string
      · exact hkept (hplace.resolve_left h16) (mod_place_lt h16)

theorem Holds.tableCapacity_eq (h : Holds bufferSize u) (hsize : bufferSize < 2 ^ 32) :
    tableCapacity u.log = 0xFFFFFFFF - 24 * u.log.capacity := by
  have hused := h.used
  have hmod : u.log.capacity * 24 % 2 ^ 32 = 24 * u.log.capacity := by
    rw [Nat.mul_comm, Nat.mod_eq_of_lt (by omega)]
  rw [tableCapacity, hmod]
  split
  · rfl
  · omega

theorem dcLogAppend_eq (hcount : u.log.count < u.log.capacity)
    (hlen : c.message.bytes.length < 2 ^ 32) :
    dcLogAppend u.log c =
      if tableCapacity u.log <
          (u.log.stringTableUsed + (c.message.bytes.length + 1) % 2 ^ 32) % 2 ^ 32 then
        some ([], u.log, false)
      else some (appendStores u.log c ((c.message.bytes.length + 1) % 2 ^ 32),
        { u.log with
          stringTableUsed :=
            (u.log.stringTableUsed + (c.message.bytes.length + 1) % 2 ^ 32) % 2 ^ 32
          count := u.log.count + 1 }, true) := by
  have hstrlen : dcStrlen c.message = some c.message.bytes.length := if_pos hlen
  rw [dcLogAppend, if_neg (Nat.not_le_of_lt hcount), hstrlen]
  rfl

theorem Holds.append_fits (h : Holds bufferSize u) (hsize : bufferSize < 2 ^ 32)
    (hfit : Fits bufferSize u.log c) :
    dcLogAppend u.log c = some (appendStores u.log c (c.message.bytes.length + 1),
      { u.log with
        stringTableUsed := u.log.stringTableUsed + c.message.bytes.length + 1
        count := u.log.count + 1 }, true) := by
  obtain ⟨hcount, hroom⟩ := hfit
  have hneeded : (c.message.bytes.length + 1) % 2 ^ 32 = c.message.bytes.length + 1 :=
    Nat.mod_eq_of_lt (by omega)
  have hsum : (u.log.stringTableUsed + (c.message.bytes.length + 1)) % 2 ^ 32 =
      u.log.stringTableUsed + c.message.bytes.length + 1 := Nat.mod_eq_of_lt (by omega)
  have htaken : ¬ tableCapacity u.log < u.log.stringTableUsed + c.message.bytes.length + 1 := by
    rw [h.tableCapacity_eq hsize]
    omega
  rw [dcLogAppend_eq hcount (by omega), hneeded, hsum, if_neg htaken]

theorem Holds.stores_inside (h : Holds bufferSize u) (hfit : Fits bufferSize u.log c)
    {t : Nat × List UInt8}
    (ht : t ∈ appendStores u.log c (c.message.bytes.length + 1)) :
    u.log.entries ≤ t.1 ∧ t.1 + t.2.length ≤ u.log.entries + bufferSize := by
  obtain ⟨hcount, hroom⟩ := hfit
  have htable := h.table
  simp only [appendStores, List.mem_cons, List.not_mem_nil, or_false] at ht
  rcases ht with rfl | rfl | rfl | rfl | rfl | rfl | rfl <;>
    simp only [length_leBytes, List.length_take, List.length_append, List.length_singleton] <;>
    omega

theorem next_of_refused (h : dcLogAppend u.log c = some ([], u.log, false)) : u.next c = u := by
  rw [LogUse.next, h]
  rfl

theorem Holds.next_of_fits (h : Holds bufferSize u) (hsize : bufferSize < 2 ^ 32)
    (hfit : Fits bufferSize u.log c) :
    u.next c = ⟨storeAll u.mem (appendStores u.log c (c.message.bytes.length + 1)),
      { u.log with
        stringTableUsed := u.log.stringTableUsed + c.message.bytes.length + 1
        count := u.log.count + 1 }, u.messages ++ [c.message]⟩ := by
  rw [LogUse.next, h.append_fits hsize hfit]
  rfl

theorem Holds.refused_or_fits (h : Holds bufferSize u) (hsize : bufferSize < 2 ^ 32)
    (hroom : RoomFor bufferSize u c) :
    (dcLogAppend u.log c = some ([], u.log, false) ∧ ¬ Fits bufferSize u.log c) ∨
      (Fits bufferSize u.log c ∧ Holds bufferSize (u.next c)) := by
  rcases Nat.lt_or_ge u.log.count u.log.capacity with hcount | hcount
  · by_cases hacc : c.message.bytes.length < 2 ^ 32 →
        (u.log.stringTableUsed + (c.message.bytes.length + 1) % 2 ^ 32) % 2 ^ 32 ≤
          tableCapacity u.log
    · obtain ⟨hfit, hplace⟩ := hroom hcount hacc
      rw [h.next_of_fits hsize hfit]
      exact .inr ⟨hfit, (h.appended hcount).next h hfit hplace rfl⟩
    · obtain ⟨hlen, hfull⟩ := Classical.not_imp.mp hacc
      have hrefused := dcLogAppend_eq hcount hlen
      rw [if_pos (Nat.lt_of_not_le hfull)] at hrefused
      refine .inl ⟨hrefused, fun hfit => ?_⟩
      rw [h.append_fits hsize hfit] at hrefused
      cases hrefused
  · exact .inl ⟨if_pos hcount, fun hfit => absurd hfit.1 (Nat.not_lt_of_le hcount)⟩

theorem Holds.next (h : Holds bufferSize u) (hsize : bufferSize < 2 ^ 32)
    (hroom : RoomFor bufferSize u c) : Holds bufferSize (u.next c) := by
  rcases h.refused_or_fits hsize hroom with ⟨hrefused, -⟩ | ⟨-, hnext⟩
  · rw [next_of_refused hrefused]
    exact h
  · exact hnext

theorem Holds.next_entries (h : Holds bufferSize u) (hsize : bufferSize < 2 ^ 32)
    (hroom : RoomFor bufferSize u c) : (u.next c).log.entries = u.log.entries := by
  rcases h.refused_or_fits hsize hroom with ⟨hrefused, -⟩ | ⟨hfit, -⟩
  · rw [next_of_refused hrefused]
  · rw [h.next_of_fits hsize hfit]

theorem Holds.keepsLog (h : Holds bufferSize u) (hsize : bufferSize < 2 ^ 32)
    (hroom : RoomFor bufferSize u c) : KeepsLog bufferSize u c := by
  rcases h.refused_or_fits hsize hroom with ⟨hrefused, -⟩ | ⟨hfit, hnext⟩
  · exact ⟨_, _, _, ⟨hrefused, nofun, fun _ => rfl, fun _ => ⟨rfl, rfl⟩, nofun⟩⟩
  · exact ⟨_, _, _, ⟨h.append_fits hsize hfit, fun t ht => h.stores_inside hfit ht,
      fun hnot => absurd hfit hnot, nofun, fun _ => hnext.reads⟩⟩

theorem Holds.roomFor (h : Holds bufferSize u) (hsize : bufferSize < 2 ^ 32)
    (hk : KeepsLog bufferSize u c) : RoomFor bufferSize u c := by
  intro hcount hacc
  obtain ⟨stores, log, ok, hout⟩ := hk
  have hreturns := hout.returns
  have hlen : c.message.bytes.length < 2 ^ 32 := by
    by_contra hlong
    have hstrlen : dcStrlen c.message = none := if_neg hlong
    rw [dcLogAppend, if_neg (Nat.not_le_of_lt hcount), hstrlen] at hreturns
    cases hreturns
  rw [dcLogAppend_eq hcount hlen, if_neg (Nat.not_lt_of_le (hacc hlen))] at hreturns
  obtain rfl : true = ok := congrArg (·.2.2) (Option.some.inj hreturns)
  have hfit : Fits bufferSize u.log c := by
    by_contra hnot
    cases hout.unfit hnot
  refine ⟨hfit, ?_⟩
  by_cases h16 : u.log.stringTableUsed < 2 ^ 16
  · exact .inl h16
  · -- the message is read at what is left of its place, and the table there is the old one
    refine .inr ?_
    have ha := h.appended hcount (c := c)
    have hreads := hout.reads rfl
    rw [h.next_of_fits hsize hfit] at hreads
    have hlast := hreads.2 u.messages.length c.message List.getElem?_concat_length
    rw [← h.reads.1] at hlast
    have hs : StringAt (storeAll u.mem (appendStores u.log c (c.message.bytes.length + 1)))
        (u.log.entries + u.log.stringTableOffset +
          loadNum (storeAll u.mem (appendStores u.log c (c.message.bytes.length + 1)))
            (u.log.entries + 24 * u.log.count + 14) 2) c.message := hlast
    rw [ha.place] at hs
    have htable := h.table
    have hlt := mod_place_lt h16
    obtain ⟨n, hn⟩ : ∃ n, u.log.stringTableUsed = n + 1 :=
      ⟨u.log.stringTableUsed - 1, by omega⟩
    have hend := ha.older (u.log.entries + u.log.stringTableOffset + n) ⟨by omega, by omega⟩
    rw [h.ends hn] at hend
    have hle := hs.end_le hend (by omega)
    exact (StringAt.congr ha.older fun x hlo hhi => ⟨by omega, by omega⟩).mp hs

/-! ## Every run -/

theorem holds_start (m : Mem) {buffer maxEntries : Nat} (hsize : bufferSize < 2 ^ 32)
    (hroom : maxEntries * 24 ≤ bufferSize) :
    Holds bufferSize (.start m buffer maxEntries bufferSize) := by
  have htable : maxEntries * 24 % 2 ^ 32 = maxEntries * 24 := Nat.mod_eq_of_lt (by omega)
  refine ⟨htable.trans (Nat.mul_comm ..), Nat.zero_le _, ?_, nofun, nofun, rfl, nofun⟩
  show 24 * maxEntries + 0 ≤ bufferSize
  omega

/-- In every run whose appends met the condition, the log is in its buffer, and the next
append returns, writes inside the buffer, changes nothing where it does not fit and
leaves every message readable, exactly when it meets the condition. -/
theorem log_kept_iff {m : Mem} {buffer maxEntries : Nat} {calls : List LogCall}
    (hsize : bufferSize < 2 ^ 32) (hentries : maxEntries * 24 ≤ bufferSize)
    (hrun : Calls (RoomFor bufferSize) LogUse.next (.start m buffer maxEntries bufferSize) calls u)
    (c : LogCall) :
    (∀ t ∈ (dcLogInit buffer maxEntries bufferSize).1,
        buffer ≤ t.1 ∧ t.1 + t.2.length ≤ buffer + bufferSize) ∧
      u.log.entries = buffer ∧ (KeepsLog bufferSize u c ↔ RoomFor bufferSize u c) := by
  obtain ⟨h, hbase⟩ : Holds bufferSize u ∧ u.log.entries = buffer :=
    hrun.invariant (P := fun u => Holds bufferSize u ∧ u.log.entries = buffer)
      (fun u c h hroom => ⟨h.1.next hsize hroom, (h.1.next_entries hsize hroom).trans h.2⟩)
      ⟨holds_start m hsize hentries, rfl⟩
  refine ⟨fun t ht => ?_, hbase, fun hk => h.roomFor hsize hk, fun hroom => h.keepsLog hsize hroom⟩
  rw [List.mem_singleton.mp ht, List.length_replicate]
  exact ⟨Nat.le_refl _, Nat.le_refl _⟩

/-- A call with the message `a`. -/
def letterCall : LogCall :=
  { type := 0, bancode := 0, directiveIndex := 0, message := ⟨[97], by decide⟩, detail := 0 }

/-- The second of two messages with room for both. -/
theorem log_kept_letters :
    KeepsLog 56 ((LogUse.start (fun _ => 0) 0x1000 2 56).next letterCall) letterCall := by
  have hfirst : RoomFor 56 (.start (fun _ => 0) 0x1000 2 56) letterCall :=
    fun _ _ => ⟨⟨by decide, by decide⟩, .inl (by decide)⟩
  have hsecond : RoomFor 56 ((LogUse.start (fun _ => 0) 0x1000 2 56).next letterCall) letterCall :=
    fun _ _ => ⟨⟨by decide, by decide⟩, .inl (by decide)⟩
  exact (log_kept_iff (by decide) (by decide) (.snoc .nil hfirst) letterCall).2.2.mpr hsecond

/-- With a buffer that the entries fill, the first message is written behind it. -/
theorem log_overrun : 1 * 24 ≤ 24 ∧ ¬ KeepsLog 24 (.start (fun _ => 0) 0x1000 1 24) letterCall := by
  refine ⟨by decide, ?_⟩
  rintro ⟨stores, log, ok, hout⟩
  have hstores : stores = appendStores (dcLogInit 0x1000 1 24).2 letterCall 2 :=
    congrArg (·.1) (Option.some.inj hout.returns).symm
  have hinside := (hout.inside (0x1018, [97, 0]) (by rw [hstores]; decide)).2
  exact absurd hinside (by decide)

end Sentinel.Log
