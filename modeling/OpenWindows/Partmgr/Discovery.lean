import OpenWindows.Partmgr.Table

/-!
# What a scan finds

A GPT that is refused leaves the table as it was.  One that is accepted is listed
from its first sixteen slots only, so the listing is complete when the slots after
them are empty, or when the sixteen are all used.  The walk over the extended chain
reads one sector for each link and stops after sixty-four.
-/

namespace Partmgr

open Bytes Memory Logged

variable {C : Type} {reader : Reader C}

/-! ## The extended chain -/

theorem atMost_readSectors (lba : UInt64) (count : UInt32) :
    AtMost 1 (readSectors reader lba count) := fun _ => Nat.le_refl 1

theorem atMost_pmFollowExtended (base : UInt64) (links : Nat) (current : UInt64) :
    AtMost links (pmFollowExtended reader base links current) := by
  induction links generalizing current with
  | zero => exact AtMost.pure _
  | succ links ih =>
    rw [pmFollowExtended, Nat.add_comm]
    refine AtMost.bind (atMost_readSectors current 1) fun ebr => ?_
    cases ebr with
    | none => exact AtMost.pure _
    | some ebr =>
      refine AtMost.ite (AtMost.pure _) ?_
      exact AtMost.bind_zero (AtMost.change _) fun _ => AtMost.ite (AtMost.pure _) (ih _)

theorem atMost_partmgrReadMbr (sector : Mem) : AtMost maxEbrChain (partmgrReadMbr reader sector) := by
  refine AtMost.bind_zero (AtMost.look _) fun _ => AtMost.ite (AtMost.pure _) ?_
  refine AtMost.bind_zero (AtMost.change _) fun _ => AtMost.ite (AtMost.pure _) ?_
  refine AtMost.bind_zero (AtMost.change _) fun _ => AtMost.bind_zero (AtMost.look _) fun _ => ?_
  refine AtMost.bind_zero (AtMost.change _) fun _ => ?_
  split
  · exact AtMost.pure _
  next base _ =>
    exact AtMost.bind (k := 0) (atMost_pmFollowExtended base maxEbrChain base) fun _ => AtMost.pure _

/-! ## Slots -/

/-- A slot has a type GUID that is not zero. -/
def used (gpt : Mem) (entrySize i : Nat) : Bool := !pmGuidIsZero gpt (i * entrySize)

def usedSlots (gpt : Mem) (entrySize n : Nat) : List Nat :=
  (List.range n).filter (used gpt entrySize)

/-- The table entries for some slots. -/
def listed (gpt : Mem) (entrySize : Nat) (slots : List Nat) : List Entry :=
  slots.mapIdx fun k i => gptEntry gpt (i * entrySize) (k + 1)

/-- The slots after the first sixteen are empty, or the first sixteen are all used. -/
def FrontLoaded (gpt : Mem) (entrySize n : Nat) : Prop :=
  (∀ i, maxEntries ≤ i → i < n → used gpt entrySize i = false) ∨
    ∀ i < maxEntries, used gpt entrySize i = true

theorem length_listed (gpt : Mem) (entrySize : Nat) (slots : List Nat) :
    (listed gpt entrySize slots).length = slots.length := List.length_mapIdx

theorem foldl_storeGptSlot (gpt : Mem) (entrySize k : Nat) :
    (List.range k).foldl (storeGptSlot gpt entrySize) [] =
      listed gpt entrySize (usedSlots gpt entrySize k) := by
  induction k with
  | zero => rfl
  | succ k ih =>
    rw [List.range_succ, List.foldl_append, ih]
    unfold usedSlots
    rw [List.range_succ, List.filter_append]
    show storeGptSlot gpt entrySize (listed gpt entrySize (usedSlots gpt entrySize k)) k = _
    rw [storeGptSlot]
    split
    next hzero =>
      have hunused : used gpt entrySize k = false := by simp [used, hzero]
      simp [hunused, usedSlots]
    next hzero =>
      have hused : used gpt entrySize k = true := by simpa [used] using hzero
      rw [length_listed]
      simp [hused, listed, usedSlots, List.mapIdx_append]

theorem usedSlots_split (gpt : Mem) (entrySize n : Nat) :
    usedSlots gpt entrySize n = usedSlots gpt entrySize (min n maxEntries) ++
      ((List.range (n - maxEntries)).map fun i => maxEntries + i).filter
        (used gpt entrySize) := by
  unfold usedSlots
  rw [← List.filter_append]
  congr 1
  by_cases h : n ≤ maxEntries
  · rw [Nat.min_eq_left h, Nat.sub_eq_zero_of_le h]
    simp
  · rw [Nat.min_eq_right (by omega), ← List.range_add, Nat.add_sub_cancel' (by omega)]

theorem length_usedSlots_le (gpt : Mem) (entrySize k : Nat) :
    (usedSlots gpt entrySize k).length ≤ k := by
  have h := List.length_filter_le (used gpt entrySize) (List.range k)
  rwa [List.length_range] at h

theorem listed_front_iff (gpt : Mem) (entrySize n : Nat) :
    listed gpt entrySize (usedSlots gpt entrySize (min n maxEntries)) =
        listed gpt entrySize ((usedSlots gpt entrySize n).take maxEntries) ↔
      FrontLoaded gpt entrySize n := by
  have hfront : (usedSlots gpt entrySize (min n maxEntries)).length ≤ maxEntries :=
    Nat.le_trans (length_usedSlots_le ..) (Nat.min_le_right ..)
  rw [usedSlots_split gpt entrySize n, List.take_append, List.take_of_length_le hfront]
  constructor
  · intro h
    have hlen := congrArg List.length h
    rw [length_listed, length_listed, List.length_append, List.length_take] at hlen
    by_cases hfull : (usedSlots gpt entrySize (min n maxEntries)).length = maxEntries
    · refine .inr fun i hi => ?_
      have hall := List.length_filter_eq_length_iff.mp
        (Nat.le_antisymm (List.length_filter_le ..) (by
          rw [List.length_range]
          exact Nat.le_trans (Nat.min_le_right n maxEntries) (Nat.le_of_eq hfull.symm)))
      have hmin := length_usedSlots_le gpt entrySize (min n maxEntries)
      exact hall i (List.mem_range.mpr (by omega))
    · refine .inl fun i hlo hhi => by_contra fun hne => ?_
      have hused : used gpt entrySize i = true := by simpa using hne
      have hmem : i ∈ ((List.range (n - maxEntries)).map fun i => maxEntries + i).filter
          (used gpt entrySize) := by
        refine List.mem_filter.mpr ⟨List.mem_map.mpr ⟨i - maxEntries, ?_, ?_⟩, hused⟩
        · exact List.mem_range.mpr (by omega)
        · omega
      have hpos := List.length_pos_of_mem hmem
      omega
  · rintro (hempty | hall)
    · have hnil : ((List.range (n - maxEntries)).map fun i => maxEntries + i).filter
          (used gpt entrySize) = [] := by
        refine List.filter_eq_nil_iff.mpr fun i hi => ?_
        obtain ⟨k, hk, rfl⟩ := List.mem_map.mp hi
        have := List.mem_range.mp hk
        simpa using hempty (maxEntries + k) (by omega) (by omega)
      rw [hnil, List.take_nil, List.append_nil]
    · by_cases h : n ≤ maxEntries
      · rw [Nat.sub_eq_zero_of_le h]
        simp
      · have hfull : (usedSlots gpt entrySize (min n maxEntries)).length = maxEntries := by
          rw [Nat.min_eq_right (by omega)]
          have hself : usedSlots gpt entrySize maxEntries = List.range maxEntries :=
            List.filter_eq_self.mpr fun i hi => hall i (List.mem_range.mp hi)
          rw [hself, List.length_range]
        rw [hfull, Nat.sub_self, List.take_zero, List.append_nil]

variable {entrySize n total : Nat} {m m' : Mem} {ok : Access Unit → Prop} {header : Mem}

theorem usedSlots_congr
    (h : SameOn (fun x => x < total) m m') (hsize : 128 ≤ entrySize) (hn : n * entrySize ≤ total) :
    usedSlots m' entrySize n = usedSlots m entrySize n := by
  refine List.filter_congr fun i hi => ?_
  have hi' := List.mem_range.mp hi
  have hslot : (i + 1) * entrySize ≤ total := Nat.le_trans (Nat.mul_le_mul_right _ hi') hn
  have hload : load m' (i * entrySize) 16 = load m (i * entrySize) 16 :=
    h.load_eq fun x _ hx => by
      rw [Nat.succ_mul] at hslot
      omega
  simp only [used, pmGuidIsZero, hload]

theorem gptEntry_congr {src total index : Nat}
    (h : SameOn (fun x => x < total) m m') (hsrc : src + 128 ≤ total) :
    gptEntry m' src index = gptEntry m src index := by
  have hload : ∀ {a k : Nat}, a + k ≤ src + 128 → load m' a k = load m a k :=
    fun ha => h.load_eq fun x _ hx => by omega
  have hname : ((List.range 36).map fun c => UInt16.ofNat (loadNum m' (src + 56 + c * 2) 2)) =
      (List.range 36).map fun c => UInt16.ofNat (loadNum m (src + 56 + c * 2) 2) := by
    refine List.map_congr_left fun c hc => ?_
    have hc' := List.mem_range.mp hc
    rw [loadNum, loadNum, hload (by omega)]
  have hword : ∀ {a : Nat}, a + 8 ≤ src + 128 → pmRd64le m' a = pmRd64le m a := by
    intro a ha
    rw [pmRd64le, pmRd64le, loadNum, loadNum, hload ha]
  rw [gptEntry, gptEntry, hword (a := src + 32) (by omega), hword (a := src + 40) (by omega), hname,
    hload (a := src) (by omega), hload (a := src + 16) (by omega)]

theorem listed_congr
    (h : SameOn (fun x => x < total) m m') (hsize : 128 ≤ entrySize) (hn : n * entrySize ≤ total)
    {slots : List Nat} (hslots : ∀ i ∈ slots, i < n) :
    listed m' entrySize slots = listed m entrySize slots := by
  refine List.ext_getElem (by simp [listed]) fun k h1 h2 => ?_
  simp only [listed, List.getElem_mapIdx]
  have hk : k < slots.length := by simpa [listed] using h1
  have hi := hslots _ (List.getElem_mem hk)
  have hslot : (slots[k] + 1) * entrySize ≤ total := Nat.le_trans (Nat.mul_le_mul_right _ hi) hn
  rw [Nat.succ_mul] at hslot
  exact gptEntry_congr h (by omega)

/-! ## Reading the GPT -/

def arrayBytes (header : Mem) : UInt32 := pmRd32le header 80 * pmRd32le header 84

/-- The reader gives this table, and its checksums are right. -/
structure OnDisk (reader : Reader C) (ctx : C) (header entries : Mem) : Prop where
  headerRead : (reader ctx 1 1).1 = some header
  headerOk : checkGptHeader header = none
  entriesRead : (reader (reader ctx 1 1).2 (pmRd64le header 72)
    ((arrayBytes header + (512 - 1)) / 512)).1 = some entries
  checksum : pmCrc32 (load entries 0 (arrayBytes header).toNat) = pmRd32le header 88

theorem OnDisk.unique {ctx : C} {h₁ e₁ h₂ e₂ : Mem} (hd₁ : OnDisk reader ctx h₁ e₁)
    (hd₂ : OnDisk reader ctx h₂ e₂) : h₁ = h₂ ∧ e₁ = e₂ := by
  obtain rfl := Option.some.inj (hd₁.headerRead.symm.trans hd₂.headerRead)
  exact ⟨rfl, Option.some.inj (hd₁.entriesRead.symm.trans hd₂.entriesRead)⟩

/-- The tests on the number and the size of the slots. -/
structure Sized (header : Mem) : Prop where
  size : ¬ (pmRd32le header 84 < 128 ∨ pmRd32le header 80 = 0)
  count : ¬ pmRd32le header 80 > gptMaxBytes / pmRd32le header 84

/-- What a call leaves: the table as it was, or one that is listed from the front of
the entry array.  It succeeds whenever the disk has a GPT that fits. -/
def Outcome (reader : Reader C) (pm : Pm C) (status : Status) (after : Pm C) : Prop :=
  (status ≠ .ok → after.table = pm.table) ∧
    (status = .ok → ∃ header entries,
      (pm.initialized = true ∧ OnDisk reader pm.ctx header entries ∧ Sized header) ∧
      after.table.entries = listed entries (pmRd32le header 84).toNat
        (usedSlots entries (pmRd32le header 84).toNat
          (min (pmRd32le header 80).toNat maxEntries))) ∧
    ∀ header entries, pm.initialized = true → OnDisk reader pm.ctx header entries → Sized header →
      status = .ok

theorem outcome_refused {pm after : Pm C} {status : Status} (hs : status ≠ .ok)
    (h : after.table = pm.table)
    (hno : ∀ header entries, pm.initialized = true → OnDisk reader pm.ctx header entries →
      Sized header → False) : Outcome reader pm status after :=
  ⟨fun _ => h, fun he => absurd he hs, fun header entries hi hd hsz =>
    (hno header entries hi hd hsz).elim⟩

theorem spec_readSectors (hok : ∀ a, ok a) (pm : Pm C) (lba : UInt64) (count : UInt32) :
    Spec ok (fun s => s = pm) (readSectors reader lba count) fun r s =>
      r = (reader pm.ctx lba count).1 ∧ s = { pm with ctx := (reader pm.ctx lba count).2 } := by
  rintro s rfl
  exact ⟨fun a _ => hok a, rfl, rfl⟩

theorem readGptChunks_eq (lba : UInt64) {sectors : Nat} (hpos : 0 < sectors) (hle : sectors ≤ 32) :
    readGptChunks reader lba sectors 0 = do
      match ← readSectors reader lba (UInt32.ofNat sectors) with
      | none => return .errIo
      | some data =>
        Run.change fun pm => { pm with staging := store pm.staging 0 (load data 0 (sectors * 512)) }
        return .ok := by
  rw [readGptChunks, if_pos hpos]
  have hmin : min (sectors - 0) 32 = sectors := by omega
  have hlba : lba + UInt64.ofNat 0 = lba := by simp
  have hdone : readGptChunks reader lba sectors sectors = (return .ok) := by
    rw [readGptChunks, if_neg (Nat.lt_irrefl _)]
  simp only [hmin, hlba, Nat.zero_mul, Nat.zero_add]
  refine bind_congr fun r => ?_
  cases r with
  | none => rfl
  | some data =>
    show (Run.change _ >>= fun _ => readGptChunks reader lba sectors sectors) = _
    rw [hdone]

theorem arrayBytes_bounds (h : Sized header) : 128 ≤ (pmRd32le header 84).toNat ∧
      (arrayBytes header).toNat = (pmRd32le header 80).toNat * (pmRd32le header 84).toNat ∧
      0 < (arrayBytes header).toNat ∧ (arrayBytes header).toNat ≤ 16384 := by
  have hsize := not_or.mp h.size
  have hmin : 128 ≤ (pmRd32le header 84).toNat :=
    UInt32.le_iff_toNat_le.mp (UInt32.not_lt.mp hsize.1)
  have hpos : 0 < (pmRd32le header 80).toNat := by
    refine Nat.pos_of_ne_zero fun h0 => hsize.2 (UInt32.toNat_inj.mp h0)
  have hle := UInt32.le_iff_toNat_le.mp (UInt32.not_lt.mp h.count)
  rw [UInt32.toNat_div] at hle
  change (pmRd32le header 80).toNat ≤ 16384 / (pmRd32le header 84).toNat at hle
  have hprod : (pmRd32le header 80).toNat * (pmRd32le header 84).toNat ≤ 16384 :=
    (Nat.le_div_iff_mul_le (by omega)).mp hle
  have htotal : (arrayBytes header).toNat =
      (pmRd32le header 80).toNat * (pmRd32le header 84).toNat := by
    rw [arrayBytes, UInt32.toNat_mul]
    exact Nat.mod_eq_of_lt (by omega)
  have hne : 0 < (pmRd32le header 80).toNat * (pmRd32le header 84).toNat :=
    Nat.mul_pos hpos (by omega)
  exact ⟨hmin, htotal, by omega, by omega⟩

theorem spec_pmReadGptEntries (hok : ∀ a, ok a) (pm : Pm C) (lba : UInt64)
    {total : UInt32} (hpos : 0 < total.toNat) (hle : total.toNat ≤ 16384) :
    Spec ok (fun s => s = pm) (pmReadGptEntries reader lba total) fun r s =>
      s.table = pm.table ∧
        match (reader pm.ctx lba ((total + (512 - 1)) / 512)).1 with
        | none => r ≠ .ok
        | some entries => r = .ok ∧ SameOn (fun x => x < total.toNat) entries s.staging := by
  have hsectors : ((total + (512 - 1)) / 512).toNat = (total.toNat + 511) / 512 := by
    rw [UInt32.toNat_div, UInt32.toNat_add]
    change (total.toNat + 511) % 2 ^ 32 / 512 = _
    omega
  refine Spec.ite (fun hbig => ?_) fun _ => ?_
  · have hbig' := UInt32.lt_iff_toNat_lt.mp hbig
    change 16384 < total.toNat at hbig'
    omega
  rw [readGptChunks_eq lba (by omega) (by omega), UInt32.ofNat_toNat]
  refine Spec.bind (spec_readSectors hok pm lba _) fun r => Spec.of_fact (fun _ hs => hs.1) fun hr => ?_
  rw [← hr]
  cases r with
  | none =>
    refine Spec.pure fun s hs => ⟨?_, fun h => (nomatch h)⟩
    rw [hs.2]
  | some data =>
    refine Spec.bind (Spec.change (Q := fun _ s => s.table = pm.table ∧
      SameOn (fun x => x < total.toNat) data s.staging) fun s hs => ⟨?_, fun x hx => ?_⟩)
      fun _ => Spec.pure fun s hs => ⟨hs.1, rfl, hs.2⟩
    · rw [hs.2]
    · have hbytes : x < ((total + (512 - 1)) / 512).toNat * 512 := by
        rw [hsectors]
        omega
      show store s.staging 0 (load data 0 _) x = data x
      rw [store, if_pos (by rw [length_load]; omega), Nat.sub_zero,
        List.getD_eq_getElem _ _ (by rw [length_load]; exact hbytes)]
      simp [load]

theorem checkGptHeader_ne_ok {status : Status}
    (h : checkGptHeader header = some status) : status ≠ .ok := by
  simp only [checkGptHeader] at h
  split at h
  · cases h
    decide
  · split at h
    · cases h
      decide
    · split at h
      · cases h
        decide
      · cases h

theorem spec_accept {pm : Pm C} (hinit : pm.initialized = true)
    (hread : (reader pm.ctx 1 1).1 = some header) (hcheck : checkGptHeader header = none)
    (hsized : Sized header) :
    Spec (fun _ => True)
      (fun s => some header = (reader pm.ctx 1 1).1 ∧ s = { pm with ctx := (reader pm.ctx 1 1).2 })
      (do
        let status ← pmReadGptEntries reader (pmRd64le header 72) (arrayBytes header)
        if status ≠ .ok then return status
        let gpt ← Run.look fun pm => pm.staging
        if pmCrc32 (load gpt 0 (arrayBytes header).toNat) ≠ pmRd32le header 88 then return .errCrc
        changeTable fun _ =>
          { style := .gpt, valid := true, protectiveMbr := true, diskGuid := load header 56 16
            entries := (List.range (min (pmRd32le header 80).toNat maxEntries)).foldl
              (storeGptSlot gpt (pmRd32le header 84).toNat) [] }
        return .ok)
      (Outcome reader pm) := by
  obtain ⟨hmin, htotal, hpos, hle⟩ := arrayBytes_bounds hsized
  have hsame : ∀ {header' entries}, OnDisk reader pm.ctx header' entries → header' = header :=
    fun hd => Option.some.inj (hd.headerRead.symm.trans hread)
  refine Spec.bind (Spec.mono (spec_pmReadGptEntries (fun _ => trivial)
    { pm with ctx := (reader pm.ctx 1 1).2 } (pmRd64le header 72) hpos hle)
    (fun s hs => hs.2) fun _ _ hs => hs) fun status => ?_
  cases hentries : (reader (reader pm.ctx 1 1).2 (pmRd64le header 72)
      ((arrayBytes header + (512 - 1)) / 512)).1 with
  | none =>
    dsimp only
    refine Spec.of_fact (fun _ hs => hs.2) fun hstatus => ?_
    rw [if_pos hstatus]
    refine Spec.pure fun s hs => outcome_refused hstatus hs.1 fun header' entries _ hd _ => ?_
    have hread' := hd.entriesRead
    rw [hsame hd, hentries] at hread'
    cases hread'
  | some entries =>
    dsimp only
    refine Spec.of_fact (fun _ hs => hs.2.1) fun hstatus => ?_
    rw [if_neg (not_not.mpr hstatus)]
    refine Spec.bind (Spec.look (Q := fun (gpt : Mem) (s : Pm C) => s.table = pm.table ∧
      SameOn (fun x => x < (arrayBytes header).toNat) entries gpt)
      fun s hs => ⟨hs.1, hs.2.2⟩) fun gpt => Spec.of_fact (fun _ hs => hs.2) fun hgpt => ?_
    rw [hgpt.load_eq fun x _ hx => by omega]
    refine Spec.ite (fun hcrc => Spec.pure fun s hs => ?_) fun hcrc => ?_
    · refine outcome_refused (by decide) hs.1 fun header' entries' _ hd _ => hcrc ?_
      obtain rfl := hsame hd
      have heq := Option.some.inj (hd.entriesRead.symm.trans hentries)
      rw [← heq]
      exact hd.checksum
    · refine Spec.bind (Q := fun _ s => Outcome reader pm .ok s) (Spec.change fun s hs => ?_)
        fun _ => Spec.pure fun s hs => hs
      refine ⟨fun h => absurd rfl h, fun _ => ⟨header, entries, ⟨hinit, ?_, hsized⟩, ?_⟩,
        fun _ _ _ _ _ => rfl⟩
      · exact ⟨hread, hcheck, hentries, not_not.mp hcrc⟩
      · have hfront : min (pmRd32le header 80).toNat maxEntries * (pmRd32le header 84).toNat ≤
            (arrayBytes header).toNat := by
          rw [htotal]
          exact Nat.mul_le_mul_right _ (Nat.min_le_left ..)
        show (List.range _).foldl _ [] = _
        rw [foldl_storeGptSlot, usedSlots_congr hgpt hmin hfront]
        refine listed_congr hgpt hmin hfront fun i hi => ?_
        exact List.mem_range.mp (List.mem_filter.mp hi).1

theorem spec_partmgrReadGpt (reader : Reader C) (pm : Pm C) :
    Spec (fun _ => True) (fun s => s = pm) (partmgrReadGpt reader) (Outcome reader pm) := by
  refine Spec.bind (Q := fun initialized s => initialized = pm.initialized ∧ s = pm)
    (Spec.look fun s hs => ⟨by rw [hs], hs⟩) fun initialized => ?_
  refine Spec.ite (fun hi => Spec.pure fun s hs => ?_) fun hi => ?_
  · refine outcome_refused (by decide) (by rw [hs.2]) fun _ _ hinit _ _ => ?_
    rw [hs.1, hinit] at hi
    exact absurd hi (by decide)
  refine Spec.of_fact (fun _ hs => hs.1) fun hinit => ?_
  have hinit' : pm.initialized = true := by
    rw [← hinit]
    simpa using hi
  refine Spec.bind (Spec.mono (spec_readSectors (fun _ => trivial) pm 1 1) (fun _ hs => hs.2)
    fun _ _ hs => hs) fun r => Spec.of_fact (fun _ hs => hs.1) fun hr => ?_
  have hrefuse : ∀ {status : Status}, status ≠ .ok →
      (∀ header entries, pm.initialized = true → OnDisk reader pm.ctx header entries →
        Sized header → False) →
      Spec (fun _ => True) (fun s => r = (reader pm.ctx 1 1).1 ∧
        s = { pm with ctx := (reader pm.ctx 1 1).2 }) (pure status : Action C Status)
        (Outcome reader pm) := by
    intro status hne hno
    refine Spec.pure fun s hs => outcome_refused hne ?_ hno
    rw [hs.2]
  cases r with
  | none =>
    refine hrefuse (by decide) fun header entries _ hd _ => ?_
    cases hr.trans hd.headerRead
  | some header =>
    -- the header that the reader gives is the one on the disk
    have hsame : ∀ {header' entries}, OnDisk reader pm.ctx header' entries → header' = header :=
      fun hd => Option.some.inj (hd.headerRead.symm.trans hr.symm)
    cases hcheck : checkGptHeader header with
    | some status =>
      simp only [hcheck]
      refine hrefuse (checkGptHeader_ne_ok hcheck) fun header' entries _ hd _ => ?_
      have hok := hd.headerOk
      rw [hsame hd, hcheck] at hok
      cases hok
    | none =>
      simp only [hcheck]
      refine Spec.ite (fun hsize => hrefuse (by decide) fun header' entries _ hd hsz => ?_)
        fun hsize => ?_
      · rw [hsame hd] at hsz
        exact hsz.size hsize
      refine Spec.ite (fun hcount => hrefuse (by decide) fun header' entries _ hd hsz => ?_)
        fun hcount => ?_
      · rw [hsame hd] at hsz
        exact hsz.count hcount
      exact spec_accept hinit' hr.symm hcheck ⟨hsize, hcount⟩

/-! ## Discovery -/

/-- What a discovery that is complete and atomic does: a GPT that is accepted is listed
with its first used slots, a call that fails changes nothing, a scan keeps the MBR
when the GPT fails, and the walk over the extended chain is bounded. -/
structure Discovers (reader : Reader C) (pm : Pm C) : Prop where
  complete : Run.value (partmgrReadGpt reader) pm = .ok → ∃ header entries,
    OnDisk reader pm.ctx header entries ∧
      (Run.state (partmgrReadGpt reader) pm).table.entries =
        listed entries (pmRd32le header 84).toNat
          ((usedSlots entries (pmRd32le header 84).toNat (pmRd32le header 80).toNat).take maxEntries)
  atomic : Run.value (partmgrReadGpt reader) pm ≠ .ok →
    (Run.state (partmgrReadGpt reader) pm).table = pm.table
  fallback : ∀ sector, pm.initialized = true → (reader pm.ctx 0 1).1 = some sector →
    let read := { pm with ctx := (reader pm.ctx 0 1).2 }
    let mbr := Run.state (partmgrReadMbr reader sector) read
    Run.value (partmgrReadMbr reader sector) read = .ok →
    Run.value (partmgrReadGpt reader) mbr ≠ .ok →
      (Run.state (partmgrScan reader) pm).table = mbr.table
  chain : ∀ sector, (Run.log (partmgrReadMbr reader sector) pm).length ≤ maxEbrChain

theorem readGpt_atomic (reader : Reader C) (pm : Pm C)
    (h : Run.value (partmgrReadGpt reader) pm ≠ .ok) :
    (Run.state (partmgrReadGpt reader) pm).table = pm.table :=
  (spec_partmgrReadGpt reader pm pm rfl).2.1 h

theorem scan_fallback (reader : Reader C) (pm : Pm C) (sector : Mem)
    (hinit : pm.initialized = true) (hread : (reader pm.ctx 0 1).1 = some sector)
    (hmbr : Run.value (partmgrReadMbr reader sector) { pm with ctx := (reader pm.ctx 0 1).2 } = .ok)
    (hgpt : Run.value (partmgrReadGpt reader)
      (Run.state (partmgrReadMbr reader sector) { pm with ctx := (reader pm.ctx 0 1).2 }) ≠ .ok) :
    (Run.state (partmgrScan reader) pm).table =
      (Run.state (partmgrReadMbr reader sector) { pm with ctx := (reader pm.ctx 0 1).2 }).table := by
  have hkeep := readGpt_atomic reader _ hgpt
  generalize hm : Run.state (partmgrReadMbr reader sector) { pm with ctx := (reader pm.ctx 0 1).2 } =
    mbr at hgpt hkeep ⊢
  have hspec : Spec (fun _ => True) (fun s => s = pm) (partmgrScan reader)
      fun _ s => s.table = mbr.table := by
    refine Spec.bind (Q := fun initialized s => initialized = true ∧ s = pm)
      (Spec.look fun s hs => ⟨by rw [hs, hinit], hs⟩) fun initialized => ?_
    refine Spec.of_fact (fun _ hs => hs.1) fun hi => ?_
    rw [if_neg (by simp [hi])]
    refine Spec.bind (Spec.mono (spec_readSectors (fun _ => trivial) pm 0 1) (fun _ hs => hs.2)
      fun _ _ hs => hs) fun r => Spec.of_fact (fun _ hs => hs.1) fun hr => ?_
    cases hr.trans hread
    refine Spec.bind (Q := fun status s => status = .ok ∧ s = mbr) ?_ fun status => ?_
    · rintro s ⟨-, rfl⟩
      exact ⟨fun _ _ => trivial, hmbr, hm⟩
    refine Spec.of_fact (fun _ hs => hs.1) fun hstatus => ?_
    rw [if_neg (not_not.mpr hstatus)]
    refine Spec.bind (Q := fun _ s => s = mbr) (Spec.look fun s hs => hs.2) fun protective => ?_
    refine Spec.ite (fun _ => ?_) fun _ => ?_
    · refine Spec.bind (Q := fun _ s => s.table = mbr.table) ?_ fun _ => Spec.pure fun s hs => hs
      rintro s rfl
      exact ⟨fun _ _ => trivial, hkeep⟩
    · exact Spec.pure fun s hs => by rw [hs]
  exact (hspec pm rfl).2

/-- Discovery is complete and atomic exactly for a GPT whose slots after the first
sixteen are empty, or whose first sixteen slots are all used. -/
theorem discovers_iff (reader : Reader C) (pm : Pm C) :
    Discovers reader pm ↔
      ∀ header entries, pm.initialized = true → OnDisk reader pm.ctx header entries →
        Sized header →
          FrontLoaded entries (pmRd32le header 84).toNat (pmRd32le header 80).toNat := by
  obtain ⟨-, hok, haccept⟩ := (spec_partmgrReadGpt reader pm pm rfl).2
  constructor
  · intro hd header entries hinit hdisk hsized
    have hvalue := haccept header entries hinit hdisk hsized
    obtain ⟨h₁, e₁, hdisk₁, hall⟩ := hd.complete hvalue
    obtain ⟨h₂, e₂, ⟨-, hdisk₂, -⟩, hfront⟩ := hok hvalue
    obtain ⟨rfl, rfl⟩ := hdisk.unique hdisk₁
    obtain ⟨rfl, rfl⟩ := hdisk.unique hdisk₂
    exact (listed_front_iff ..).mp (hfront.symm.trans hall)
  · intro hfull
    refine ⟨fun hvalue => ?_, readGpt_atomic reader pm, fun sector hinit hread => ?_, fun sector => ?_⟩
    · obtain ⟨header, entries, ⟨hinit, hdisk, hsized⟩, hfront⟩ := hok hvalue
      refine ⟨header, entries, hdisk, hfront.trans ?_⟩
      exact (listed_front_iff ..).mpr (hfull header entries hinit hdisk hsized)
    · exact scan_fallback reader pm sector hinit hread
    · exact atMost_partmgrReadMbr sector pm

/-! ## A partition in the seventeenth slot -/

/-- An entry array of seventeen slots, only the last of them used. -/
def sparseEntries : Mem := store (fun _ => 0) 2048 [1]

/-- Its header without checksums: 92 bytes, the array of 17 slots of 128 bytes at 2. -/
def sparseFields : Mem :=
  store (fun _ => 0) 0
    ([0x45, 0x46, 0x49, 0x20, 0x50, 0x41, 0x52, 0x54, 0, 0, 1, 0, 92] ++ List.replicate 59 0 ++
      [2, 0, 0, 0, 0, 0, 0, 0, 17, 0, 0, 0, 128])

/-- The header with the checksum of the array. -/
def sparseArray : Mem := storeNum sparseFields 88 4 (pmCrc32 (load sparseEntries 0 2176)).toNat

def sparseHeader : Mem := storeNum sparseArray 16 4 (pmCrc32 (load sparseArray 0 92)).toNat

/-- A disk with the header in sector 1 and the array from sector 2. -/
def sparseReader : Reader Unit := fun _ lba _ =>
  (some (if lba = 1 then sparseHeader else sparseEntries), ())

/-- A manager after `partmgr_init`. -/
def sparsePm : Pm Unit :=
  { ctx := (), table := Table.zero, staging := fun _ => 0, initialized := true }

theorem pmRd32le_storeNum (m : Mem) (a : Nat) (v : UInt32) :
    pmRd32le (storeNum m a 4 v.toNat) a = v := ofNat_loadNum32 (loadNum_storeNum_self ..)

theorem sparseHeader_fields :
    pmRd32le sparseHeader 12 = 92 ∧ pmRd32le sparseHeader 80 = 17 ∧ pmRd32le sparseHeader 84 = 128 ∧
      pmRd64le sparseHeader 72 = 2 ∧
      pmRd32le sparseHeader 88 = pmCrc32 (load sparseEntries 0 2176) ∧
      pmRd32le sparseHeader 16 = pmCrc32 (load sparseArray 0 92) := by
  refine ⟨?_, ?_, ?_, ?_, ?_, pmRd32le_storeNum ..⟩
  · simp (disch := decide) only [pmRd32le, sparseHeader, sparseArray, loadNum_storeNum_of_disjoint]
    decide
  · simp (disch := decide) only [pmRd32le, sparseHeader, sparseArray, loadNum_storeNum_of_disjoint]
    decide
  · simp (disch := decide) only [pmRd32le, sparseHeader, sparseArray, loadNum_storeNum_of_disjoint]
    decide
  · simp (disch := decide) only [pmRd64le, sparseHeader, sparseArray, loadNum_storeNum_of_disjoint]
    decide
  · rw [pmRd32le, sparseHeader, loadNum_storeNum_of_disjoint (by decide)]
    exact pmRd32le_storeNum ..

theorem checkGptHeader_sparse : checkGptHeader sparseHeader = none := by
  obtain ⟨hsize, -, -, -, -, hcrc⟩ := sparseHeader_fields
  have hsig : load sparseHeader 0 8 = [0x45, 0x46, 0x49, 0x20, 0x50, 0x41, 0x52, 0x54] := by
    have h : load sparseHeader 0 8 = load sparseFields 0 8 := by
      refine SameOn.load_eq (P := fun x => x < 8) (fun x hx => ?_) fun x _ hx => hx
      rw [sparseHeader, storeNum_of_outside (by omega), sparseArray, storeNum_of_outside (by omega)]
    rw [h]
    decide
  have hclear : storeNum sparseHeader 16 4 0 = sparseArray := by
    rw [sparseHeader, storeNum_storeNum]
    refine storeNum_zero fun x hlo hhi => ?_
    rw [sparseArray, storeNum_of_outside (by omega)]
    obtain ⟨k, rfl⟩ : ∃ k, x = 16 + k := ⟨x - 16, by omega⟩
    have hall : ∀ k : Fin 4, sparseFields (16 + k) = 0 := by decide
    exact hall ⟨k, by omega⟩
  simp only [checkGptHeader]
  rw [if_neg (not_not.mpr hsig), hsize, if_neg (by decide), hclear, hcrc]
  exact if_neg (not_not.mpr rfl)

theorem sparse_onDisk : OnDisk sparseReader () sparseHeader sparseEntries := by
  obtain ⟨-, hcount, hsize, hlba, hcrc, -⟩ := sparseHeader_fields
  have htotal : arrayBytes sparseHeader = 2176 := by
    rw [arrayBytes, hcount, hsize]
    decide
  refine ⟨rfl, checkGptHeader_sparse, ?_, ?_⟩
  · rw [hlba]
    rfl
  · rw [htotal, hcrc]
    rfl

/-- The partition in the seventeenth slot is not found. -/
theorem sparse_not_found : ¬ Discovers sparseReader sparsePm := by
  obtain ⟨-, hcount, hsize, -⟩ := sparseHeader_fields
  intro hd
  obtain ⟨-, hok, haccept⟩ := (spec_partmgrReadGpt sparseReader sparsePm sparsePm rfl).2
  have hsized : Sized sparseHeader := by
    constructor
    · rw [hcount, hsize]
      decide
    · rw [hcount, hsize]
      decide
  have hvalue := haccept sparseHeader sparseEntries rfl sparse_onDisk hsized
  obtain ⟨h₁, e₁, hdisk₁, hall⟩ := hd.complete hvalue
  obtain ⟨h₂, e₂, ⟨-, hdisk₂, -⟩, hfront⟩ := hok hvalue
  obtain ⟨rfl, rfl⟩ := sparse_onDisk.unique hdisk₁
  obtain ⟨rfl, rfl⟩ := sparse_onDisk.unique hdisk₂
  have hlen := congrArg List.length (hfront.symm.trans hall)
  rw [length_listed, length_listed, hcount, hsize] at hlen
  exact absurd hlen (by decide)

end Partmgr
