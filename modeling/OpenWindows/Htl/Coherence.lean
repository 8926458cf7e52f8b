import OpenWindows.Htl.Cache
import OpenWindows.Lib.WriteBack

/-!
# Coherence of the block cache

The valid entries are the lines of a write-back cache whose keys are pairs of a device and a
block, and whose store is what the drivers hold.  The memory that the two stand for is one plain
array of blocks for each device.

The scan of `cache_find` ends at `count`, and its result is an `int32_t`.  The invariant keeps
the valid entries below `count`, and a capacity of at most `2 ^ 31` keeps the result from
turning negative.
-/

namespace Htl

open WriteBack

/-! ## Entries as lines -/

/-- A device and a block of it. -/
abbrev Key : Type := Nat × Nat

def CacheEntry.line (e : CacheEntry) : Option (Line Key (Option Block)) :=
  if e.valid then some ⟨(e.deviceIdx, e.blockNum), some e.data, e.dirty⟩ else none

def lines (es : List CacheEntry) (i : Nat) : Option (Line Key (Option Block)) :=
  es[i]?.bind CacheEntry.line

abbrev Arrays : Type := List (Nat → Block)

/-- What the drivers hold. -/
def stores (devices : List Device) : Arrays := devices.map Device.store

def Arrays.block (A : Arrays) (k : Key) : Option Block := A[k.1]?.map fun f => f k.2

def Arrays.write (A : Arrays) (d b : Nat) (data : Block) : Arrays :=
  A.modify d fun f => Function.update f b data

variable {e : CacheEntry} {l : Line Key (Option Block)} {es : List CacheEntry} {i : Nat}

theorem CacheEntry.line_of_valid (h : e.valid = true) :
    e.line = some ⟨(e.deviceIdx, e.blockNum), some e.data, e.dirty⟩ := if_pos h

theorem CacheEntry.line_key {k : Key} (h : e.valid = true)
    (hkey : (e.deviceIdx, e.blockNum) = k) : e.line = some ⟨k, some e.data, e.dirty⟩ := by
  rw [CacheEntry.line_of_valid h, hkey]

theorem CacheEntry.line_eq_some (h : e.line = some l) :
    e.valid = true ∧ l = ⟨(e.deviceIdx, e.blockNum), some e.data, e.dirty⟩ := by
  unfold CacheEntry.line at h
  split at h
  · next hvalid =>
    cases h
    exact ⟨hvalid, rfl⟩
  · cases h

theorem lines_of_getElem? (h : es[i]? = some e) : lines es i = e.line := by
  rw [lines, h, Option.bind_some]

theorem lines_eq_some (h : lines es i = some l) : ∃ e, es[i]? = some e ∧ e.valid = true ∧
      l = ⟨(e.deviceIdx, e.blockNum), some e.data, e.dirty⟩ := by
  obtain ⟨e, he, hl⟩ := Option.bind_eq_some_iff.1 h
  obtain ⟨hvalid, hline⟩ := CacheEntry.line_eq_some hl
  exact ⟨e, he, hvalid, hline⟩

theorem lines_set (h : i < es.length) (e : CacheEntry) :
    lines (es.set i e) = Function.update (lines es) i e.line := by
  funext j
  by_cases hji : j = i
  · subst hji
    rw [Function.update_self, lines, List.getElem?_set_self h, Option.bind_some]
  · rw [Function.update_of_ne hji, lines, lines, List.getElem?_set_ne (Ne.symm hji)]

theorem modify_eq_set {α : Type} {l : List α} {a : α} (h : l[i]? = some a) (f : α → α) :
    l.modify i f = l.set i (f a) := by
  rw [List.modify_eq_set_getElem?, h]
  rfl

theorem Arrays.block_write {A : Arrays} {d : Nat} (b : Nat) (data : Block) (h : d < A.length) :
    (A.write d b data).block = Function.update A.block (d, b) (some data) := by
  funext k
  obtain ⟨d', b'⟩ := k
  unfold Arrays.block Arrays.write
  rw [List.getElem?_modify]
  by_cases hd : d = d'
  · subst hd
    simp only [if_true, Option.map_eq_map, List.getElem?_eq_getElem h, Option.map_some]
    by_cases hb : b' = b
    · subst hb
      rw [Function.update_self, Function.update_self]
    · have hne : ((d, b') : Key) ≠ (d, b) := fun hk => hb (Prod.mk.inj hk).2
      rw [Function.update_of_ne hne, Function.update_of_ne hb, List.getElem?_eq_getElem h,
        Option.map_some]
  · have hne : ((d', b') : Key) ≠ (d, b) := fun hk => hd (Prod.mk.inj hk).1.symm
    rw [Function.update_of_ne hne]
    simp only [if_neg hd, Option.map_eq_map, Option.map_id']

theorem Arrays.block_eraseIdx (A : Arrays) (d : Nat) (k : Key) :
    Arrays.block (A.eraseIdx d) k = if k.1 < d then A.block k else A.block (k.1 + 1, k.2) := by
  unfold Arrays.block
  rw [List.getElem?_eraseIdx]
  split
  · rfl
  · rfl

theorem Arrays.block_append_of_ne {A : Arrays} (f : Nat → Block) {k : Key} (h : k.1 ≠ A.length) :
    Arrays.block (A ++ [f]) k = A.block k := by
  unfold Arrays.block
  rw [List.getElem?_append]
  split
  · rfl
  · next hlt =>
    rw [List.getElem?_eq_none (show A.length ≤ k.1 by omega), List.getElem?_singleton,
      if_neg (by omega)]

theorem Arrays.block_append_self (A : Arrays) (f : Nat → Block) (b : Nat) :
    Arrays.block (A ++ [f]) (A.length, b) = some (f b) := by
  unfold Arrays.block
  rw [List.getElem?_concat_length, Option.map_some]

theorem Arrays.lt_of_block {A : Arrays} {k : Key} {data : Block} (h : A.block k = some data) :
    k.1 < A.length := by
  obtain ⟨f, hf, -⟩ := Option.map_eq_some_iff.1 h
  exact (List.getElem?_eq_some_iff.1 hf).1

/-- The update leaves what the drivers hold. -/
theorem stores_modify_of_same (devices : List Device) (d : Nat) {f : Device → Device}
    (h : ∀ dev, (f dev).store = dev.store) : stores (devices.modify d f) = stores devices := by
  apply List.ext_getElem?
  intro i
  unfold stores
  rw [List.getElem?_map, List.getElem?_map, List.getElem?_modify]
  cases devices[i]? with
  | none => rfl
  | some dev =>
    simp only [Option.map_eq_map, Option.map_some]
    split
    · rw [h]
    · rfl

theorem stores_account (C : Context) (d : Nat) (f : Stats → Stats) :
    stores (C.account d f).devices = stores C.devices :=
  stores_modify_of_same C.devices d fun _ => rfl

theorem stores_write (devices : List Device) (d b : Nat) (data : Block) :
    stores (devices.modify d fun dev => { dev with store := Function.update dev.store b data }) =
      (stores devices).write d b data := by
  apply List.ext_getElem?
  intro i
  unfold stores Arrays.write
  rw [List.getElem?_map, List.getElem?_modify, List.getElem?_modify, List.getElem?_map]
  cases devices[i]? with
  | none => rfl
  | some dev =>
    simp only [Option.map_eq_map, Option.map_some]
    split
    · rfl
    · rfl

/-! ## Finding an entry -/

theorem asInt32_of_lt (h : i < 2 ^ 31) : asInt32 i = i := by
  unfold asInt32
  rw [BitVec.toInt_eq_toNat_of_lt, BitVec.toNat_ofNat, Nat.mod_eq_of_lt (by omega)]
  rw [BitVec.toNat_ofNat, Nat.mod_eq_of_lt (by omega)]
  omega

/-- The valid entries are among the first `count`. -/
structure Cache.Within (c : Cache) : Prop where
  below : ∀ {i e}, c.entries[i]? = some e → e.valid = true → i < c.count
  count_le : c.count ≤ c.entries.length

theorem CacheEntry.is_iff {d b : Nat} (hd : d < 2 ^ 8) :
    e.Is d b = true ↔ e.valid = true ∧ (e.deviceIdx, e.blockNum) = (d, b) := by
  rw [CacheEntry.Is, Nat.mod_eq_of_lt hd, Bool.and_eq_true, Bool.and_eq_true, beq_iff_eq,
    beq_iff_eq, and_assoc, Prod.mk.injEq]

section Find

variable {c : Cache} {d b : Nat}

theorem cacheFind_cases (hw : c.Within) (hcap : c.entries.length ≤ 2 ^ 31) (hd : d < 2 ^ 8) :
    (∃ i e, cacheFind c d b = (i : Nat) ∧ c.entries[i]? = some e ∧ e.valid = true ∧
        (e.deviceIdx, e.blockNum) = (d, b)) ∨
      cacheFind c d b = -1 ∧ Misses (lines c.entries) (d, b) := by
  unfold cacheFind
  cases h : (c.entries.take c.count).findIdx? (CacheEntry.Is d b) with
  | some i =>
    obtain ⟨hi, his, -⟩ := List.findIdx?_eq_some_iff_getElem.1 h
    obtain ⟨hvalid, hkey⟩ := (CacheEntry.is_iff hd).1 his
    rw [List.length_take] at hi
    have hget : c.entries[i]? = some (c.entries.take c.count)[i] := by
      rw [List.getElem_take]
      exact List.getElem?_eq_getElem (by omega)
    exact .inl ⟨i, _, asInt32_of_lt (by omega), hget, hvalid, hkey⟩
  | none =>
    refine .inr ⟨rfl, ?_⟩
    intro i l hl hkey
    obtain ⟨e, he, hvalid, rfl⟩ := lines_eq_some hl
    have hmem : e ∈ c.entries.take c.count := by
      rw [List.mem_take_iff_getElem]
      have hlt := hw.below he hvalid
      obtain ⟨hi, rfl⟩ := List.getElem?_eq_some_iff.1 he
      exact ⟨i, by omega, rfl⟩
    have his := List.findIdx?_eq_none_iff.1 h e hmem
    rw [(CacheEntry.is_iff hd).2 ⟨hvalid, hkey⟩] at his
    cases his

end Find

/-! ## Inserting an entry -/

theorem oldestClean_eq_some {i j oldest : Nat} {victim : Option Nat}
    (h : oldestClean es i victim oldest = some j) :
    victim = some j ∨ ∃ k e, j = i + k ∧ es[k]? = some e ∧ e.dirty = false := by
  induction es generalizing i victim oldest with
  | nil => exact .inl h
  | cons e es ih =>
    rw [oldestClean] at h
    have hback : ∀ {victim : Option Nat}, (victim = some j ∨
        ∃ k e', j = i + 1 + k ∧ es[k]? = some e' ∧ e'.dirty = false) →
        victim = some j ∨ ∃ k e', j = i + k ∧ (e :: es)[k]? = some e' ∧ e'.dirty = false := by
      intro victim hcases
      cases hcases with
      | inl hv => exact .inl hv
      | inr hk =>
        obtain ⟨k, e', hj, he', hclean⟩ := hk
        exact .inr ⟨k + 1, e', by omega, by rw [List.getElem?_cons_succ]; exact he', hclean⟩
    split at h
    · next hclean =>
      cases hback (ih h) with
      | inl hv =>
        cases hv
        refine .inr ⟨0, e, rfl, rfl, ?_⟩
        simpa using hclean.1
      | inr hk => exact .inr hk
    · exact hback (ih h)

theorem cacheInsert_cases {c : Cache} (hw : c.Within) (d b : Nat) (data : Block) (order : Nat) :
    (∃ st, cacheInsert c d b data order = (st, c) ∧ st ≠ htlOk) ∨
      ∃ i c', cacheInsert c d b data order = (htlOk, c') ∧ i < c.entries.length ∧
        Free (lines c.entries) i ∧ i < c'.count ∧ c.count ≤ c'.count ∧
        c'.count ≤ c.entries.length ∧
        c'.entries = c.entries.set i ⟨b, false, true, d % 2 ^ 8, order, data⟩ := by
  have hcount := hw.count_le
  unfold cacheInsert
  dsimp only
  split
  · exact .inl ⟨_, rfl, by decide⟩
  · next hne =>
    cases hfind : c.entries.findIdx? fun e => !e.valid with
    | some i =>
      obtain ⟨hi, hinvalid, hbefore⟩ := List.findIdx?_eq_some_iff_getElem.1 hfind
      have hle : i ≤ c.count := by
        by_contra hlt
        have hget : c.entries[c.count]? = some c.entries[c.count] :=
          List.getElem?_eq_getElem (by omega)
        have hvalid : c.entries[c.count].valid = true := by
          simpa using hbefore c.count (by omega)
        exact Nat.lt_irrefl _ (hw.below hget hvalid)
      have hfree : Free (lines c.entries) i := by
        intro l hl
        obtain ⟨e, he, hvalid, -⟩ := lines_eq_some hl
        rw [List.getElem?_eq_getElem hi] at he
        cases he
        rw [hvalid] at hinvalid
        cases hinvalid
      refine .inr ⟨i, _, rfl, hi, hfree, ?_, ?_, ?_, rfl⟩
      · dsimp only
        split
        · omega
        · omega
      · dsimp only
        split
        · omega
        · omega
      · dsimp only
        split
        · omega
        · omega
    | none =>
      cases hvictim : oldestClean c.entries 0 none (2 ^ 32 - 1) with
      | none => exact .inl ⟨_, rfl, by decide⟩
      | some i =>
        rcases oldestClean_eq_some hvictim with hv | ⟨k, e, hj, he, hclean⟩
        · cases hv
        · rw [Nat.zero_add] at hj
          subst hj
          obtain ⟨hi, hget⟩ := List.getElem?_eq_some_iff.1 he
          have hvalid : e.valid = true := by
            have hall := List.findIdx?_eq_none_iff.1 hfind e (hget ▸ List.getElem_mem hi)
            simpa using hall
          refine .inr ⟨i, _, rfl, hi, ?_, hw.below he hvalid, Nat.le_refl _, hcount, rfl⟩
          intro l hl
          rw [lines_of_getElem? he, CacheEntry.line_of_valid hvalid] at hl
          cases hl
          exact hclean

/-! ## The invariant -/

/-- The blocks of the device are blocks of the cache, and their number is a `uint32_t`. -/
def Device.Full (dev : Device) : Prop :=
  dev.blockSize = htlCacheDataSize ∧ dev.totalBlocks < 2 ^ 32

/-- The context stands for the arrays `A`. -/
structure Inv (C : Context) (A : Arrays) : Prop where
  coherent : Coherent (lines C.cache.entries) (stores C.devices).block A.block
  within : C.cache.Within
  capacity : C.cache.entries.length ≤ 2 ^ 31
  devices : A.length = C.devices.length
  few : C.devices.length ≤ htlMaxDevices
  full : ∀ dev ∈ C.devices, dev.Full

section Parts

variable {C : Context} {A : Arrays}

theorem full_modify {devices : List Device} (h : ∀ dev ∈ devices, dev.Full) (d : Nat)
    {f : Device → Device} (hf : ∀ dev, dev.Full → (f dev).Full) :
    ∀ dev ∈ devices.modify d f, dev.Full := by
  intro dev hdev
  obtain ⟨i, hi⟩ := List.mem_iff_getElem?.1 hdev
  rw [List.getElem?_modify] at hi
  obtain ⟨dev', hdev', rfl⟩ := Option.map_eq_some_iff.1 hi
  have hfull := h dev' (List.mem_of_getElem? hdev')
  split
  · exact hf dev' hfull
  · exact hfull

theorem Inv.account (h : Inv C A) (d : Nat) (f : Stats → Stats) : Inv (C.account d f) A where
  coherent := by
    rw [stores_account]
    exact h.coherent
  within := h.within
  capacity := h.capacity
  devices := by
    rw [Context.account, List.length_modify]
    exact h.devices
  few := by
    rw [Context.account, List.length_modify]
    exact h.few
  full := full_modify h.full d fun _ hfull => hfull

theorem Inv.small (h : Inv C A) {d : Nat} {dev : Device} (hd : C.devices[d]? = some dev) :
    d < C.devices.length ∧ d < 2 ^ 8 := by
  have hlt := (List.getElem?_eq_some_iff.1 hd).1
  have hfew := h.few
  rw [htlMaxDevices] at hfew
  exact ⟨hlt, by omega⟩

theorem stores_block {d : Nat} {dev : Device} (hd : C.devices[d]? = some dev) (b : Nat) :
    (stores C.devices).block (d, b) = some (dev.store b) := by
  unfold Arrays.block stores
  rw [List.getElem?_map, hd]
  rfl

theorem Cache.Within.set {c : Cache} (h : c.Within) {i : Nat} {e : CacheEntry} {n : Nat}
    (hi : i < n) (hle : c.count ≤ n) (hn : n ≤ c.entries.length) (hits misses : Nat) :
    Cache.Within ⟨c.entries.set i e, n, hits, misses⟩ where
  below := by
    intro j e' he' hvalid
    rw [List.getElem?_set] at he'
    split at he'
    · next hij =>
      subst hij
      exact hi
    · exact Nat.lt_of_lt_of_le (h.below he' hvalid) hle
  count_le := by
    rw [List.length_set]
    exact hn

theorem Inv.of_cache (h : Inv C A) {c : Cache} {A' : Arrays} {n : Nat}
    (hcoherent : Coherent (lines c.entries) (stores C.devices).block A'.block) (hwithin : c.Within)
    (hlength : c.entries.length = C.cache.entries.length) (hA : A'.length = A.length) :
    Inv { C with cache := c, accessCounter := n } A' where
  coherent := hcoherent
  within := hwithin
  capacity := by
    rw [hlength]
    exact h.capacity
  devices := hA.trans h.devices
  few := h.few
  full := h.full

end Parts

end Htl
