import OpenWindows.Bdmp.Format

/-!
# A dump reads back

What `bdmp_build` lays out is described region by region.  Sealing changes the two
checksum fields only, and the validator's five passes see the bytes the producer
hashed while both fields were zero.  So a dump that was built is valid in every
buffer that holds it, and its frame, traps and memory are the inputs.
-/

namespace Bdmp

open Bytes Memory Logged

/-! ## Words -/

variable {m : Mem}

theorem loadNum_of_load {a n v : Nat} (h : load m a n = leBytes n v) :
    loadNum m a n = v % 256 ^ n := by
  rw [loadNum, h, leNum_leBytes]

theorem length_wordBytes (w : UInt64) : (wordBytes w).length = 8 := length_leBytes ..

theorem length_trapBytes (t : TrapRecord) : t.bytes.length = 24 := by
  simp [TrapRecord.bytes, length_wordBytes]

theorem toNat_bdmpBodyMinOffset {n : UInt32} (hn : n ≤ bdmpMaxTraps) :
    (bdmpBodyMinOffset n).toNat = 432 + 24 * n.toNat := by
  have hall : ∀ k : Fin 65, (bdmpBodyMinOffset (UInt32.ofNat k)).toNat = 432 + 24 * k := by decide
  have hlt : n.toNat < 65 := Nat.lt_succ_of_le (UInt32.le_iff_toNat_le.mp hn)
  have h := hall ⟨n.toNat, hlt⟩
  rwa [UInt32.ofNat_toNat] at h

/-! ## Records -/

theorem bdmpCpuFrame_eq {frame : CpuFrame} (h : load m 0x100 176 = frame.bytes) :
    bdmpCpuFrame m = frame := by
  have hreg : ∀ i (hi : i < 22),
      UInt64.ofNat (loadNum m (0x100 + 8 * i) 8) = frame.words.get ⟨i, hi⟩ := by
    intro i hi
    have hlen : i < frame.words.length := hi
    exact ofNat_loadNum64 (loadNum_of_load (load_record length_wordBytes h hlen))
  exact CpuFrame.ext
    (hreg 0 (by decide)) (hreg 1 (by decide)) (hreg 2 (by decide)) (hreg 3 (by decide))
    (hreg 4 (by decide)) (hreg 5 (by decide)) (hreg 6 (by decide)) (hreg 7 (by decide))
    (hreg 8 (by decide)) (hreg 9 (by decide)) (hreg 10 (by decide)) (hreg 11 (by decide))
    (hreg 12 (by decide)) (hreg 13 (by decide)) (hreg 14 (by decide)) (hreg 15 (by decide))
    (hreg 16 (by decide)) (hreg 17 (by decide)) (hreg 18 (by decide)) (hreg 19 (by decide))
    (hreg 20 (by decide)) (hreg 21 (by decide))

theorem bdmpTraps_eq {i : Nat} {t : TrapRecord}
    (h : load m (432 + 24 * i) 24 = t.bytes) : bdmpTraps m i = t := by
  obtain ⟨hbancode, h⟩ := load_of_append (k := 20) (length_leBytes 4 _) h
  obtain ⟨hslot, h⟩ := load_of_append (k := 16) (length_leBytes 4 _) h
  obtain ⟨htime, hip⟩ := load_of_append (k := 8) (length_wordBytes _) h
  exact TrapRecord.ext
    (ofNat_loadNum32 (loadNum_of_load hbancode)) (ofNat_loadNum32 (loadNum_of_load hslot))
    (ofNat_loadNum64 (loadNum_of_load htime)) (ofNat_loadNum64 (loadNum_of_load hip))

/-! ## The layout -/

section LayOut

variable {out : Mem} {values : HeaderValues} {frame : CpuFrame}
  {traps : Option (Nat → TrapRecord)} {n : UInt32} {mem : Option (Nat → UInt8)}
  {memSize memOff total : UInt32}

theorem length_frameBytes (frame : CpuFrame) : frame.bytes.length = 176 := by
  simp [CpuFrame.bytes, CpuFrame.words, length_wordBytes]

theorem length_trapTable_some (ts : Nat → TrapRecord) (n : Nat) :
    (trapBytes (some ts) n).length = 24 * n := by
  simp [trapBytes, length_flatMap_record length_trapBytes]

theorem length_trapTable (traps : Option (Nat → TrapRecord)) (n : Nat) :
    (trapBytes traps n).length ≤ 24 * n := by
  cases traps with
  | none => exact Nat.zero_le _
  | some ts => exact (length_trapTable_some ts n).le

theorem length_memBytes (mem : Option (Nat → UInt8)) (n : Nat) : (memBytes mem n).length ≤ n := by
  cases mem with
  | none => exact Nat.zero_le _
  | some bs => simp [memBytes]

variable {x : Nat}

theorem writeHeader_of_le (hx : 0x44 ≤ x) :
    writeHeader m values n memOff memSize total x = m x := by
  simp (disch := omega) only [writeHeader, storeNum_of_outside]

/-- The offsets of a dump that was not refused. -/
structure Fits (n memSize memOff total : UInt32) : Prop where
  offset : memOff.toNat = 432 + 24 * n.toNat
  size : total.toNat = memOff.toNat + memSize.toNat

theorem layOut_of_total_le (h : Fits n memSize memOff total) (hx : total.toNat ≤ x) :
    layOut out values frame traps n mem memSize memOff total x = out x := by
  have hoff := h.offset
  have hsize := h.size
  have htraps := length_trapTable traps n.toNat
  have hmem := length_memBytes mem memSize.toNat
  have hframe := length_frameBytes frame
  have htable : bdmpTrapTableOffset.toNat = 432 := rfl
  simp only [layOut]
  rw [store_of_outside (by omega), store_of_outside (by omega), store_of_outside (by omega),
    writeHeader_of_le (by omega), store_of_outside (by simpa using hx)]

theorem layOut_of_lt (h : Fits n memSize memOff total) (hx : x < 0x100) :
    layOut out values frame traps n mem memSize memOff total x =
      writeHeader (store out 0 (List.replicate total.toNat 0)) values n memOff memSize total x := by
  have hoff := h.offset
  have htable : bdmpTrapTableOffset.toNat = 432 := rfl
  simp only [layOut]
  rw [store_of_outside (by omega), store_of_outside (by omega), store_of_outside (by omega)]

theorem cleared {k : Nat} (hx : x < k) : store out 0 (List.replicate k 0) x = 0 := by
  unfold store
  rw [if_pos (by simpa using hx), List.getD_eq_getElem _ _ (by simpa using hx),
    List.getElem_replicate]

theorem layOut_padding (h : Fits n memSize memOff total) (hlo : 0x44 ≤ x)
    (hhi : x < 0x100) : layOut out values frame traps n mem memSize memOff total x = 0 := by
  have hoff := h.offset
  have hsize := h.size
  rw [layOut_of_lt h hhi, writeHeader_of_le hlo]
  exact cleared (by omega)

theorem load_layOut_frame (h : Fits n memSize memOff total) :
    load (layOut out values frame traps n mem memSize memOff total) 0x100 176 = frame.bytes := by
  have hoff := h.offset
  have htable : bdmpTrapTableOffset.toNat = 432 := rfl
  simp only [layOut]
  rw [(sameOn_store (P := fun x => x < 432) fun x hx => .inl (by omega)).load_eq (fun x _ hx => hx),
    (sameOn_store (P := fun x => x < 432) fun x hx => .inl (by omega)).load_eq (fun x _ hx => hx),
    ← length_frameBytes frame, load_store_self]

theorem load_layOut_traps (out : Mem) (values : HeaderValues) (frame : CpuFrame)
    (mem : Option (Nat → UInt8)) (h : Fits n memSize memOff total) (ts : Nat → TrapRecord) :
    load (layOut out values frame (some ts) n mem memSize memOff total) 432 (24 * n.toNat) =
      ((List.range n.toNat).map ts).flatMap TrapRecord.bytes := by
  have hoff := h.offset
  simp only [layOut]
  rw [(sameOn_store (P := fun x => x < memOff.toNat) fun x hx => .inl hx).load_eq
    (fun x _ hx => by omega), ← length_trapTable_some ts]
  exact load_store_self ..

theorem layOut_memory {bs : Nat → UInt8} {i : Nat} (hi : i < memSize.toNat) :
    layOut out values frame traps n (some bs) memSize memOff total (memOff.toNat + i) = bs i := by
  simp only [layOut, memBytes, store]
  rw [if_pos (by simpa using hi), Nat.add_sub_cancel_left,
    List.getD_eq_getElem _ _ (by simpa using hi), List.getElem_map, List.getElem_range]

theorem loadNum_layOut (h : Fits n memSize memOff total) {a k : Nat} (ha : a + k ≤ 0x100) :
    loadNum (layOut out values frame traps n mem memSize memOff total) a k =
      loadNum (writeHeader (store out 0 (List.replicate total.toNat 0)) values n memOff memSize
        total) a k :=
  SameOn.loadNum_eq (P := fun x => x < 0x100) (fun x hx => layOut_of_lt h hx) fun x _ hx => by omega

end LayOut

/-! ## Sealing -/

theorem toNat_mod_word (v : UInt32) : v.toNat % 256 ^ 4 = v.toNat := Nat.mod_eq_of_lt v.toNat_lt

/-- A byte of neither checksum. -/
def Plain (x : Nat) : Prop := x < 0x0C ∨ (0x10 ≤ x ∧ x < 0x40) ∨ 0x44 ≤ x

theorem sameOn_sealDump (m : Mem) (total : UInt32) : SameOn Plain m (sealDump m total) := by
  intro x hx
  unfold Plain at hx
  simp only [sealDump]
  rw [storeNum_of_outside (by omega), storeNum_of_outside (by omega)]

theorem load_sealDump {total : UInt32} (htotal : 0x44 ≤ total.toNat)
    (hheader : load m 0x0C 4 = [0, 0, 0, 0]) (hdump : load m 0x40 4 = [0, 0, 0, 0]) :
    load (sealDump m total) 0 0x0C ++ ([0, 0, 0, 0] ++ (load (sealDump m total) 0x10 0x30 ++
      ([0, 0, 0, 0] ++ load (sealDump m total) 0x44 (total.toNat - 0x44)))) =
        load m 0 total.toNat := by
  obtain ⟨rest, hrest⟩ : ∃ rest, total.toNat = 0x0C + (4 + (0x30 + (4 + rest))) :=
    ⟨total.toNat - 0x44, by omega⟩
  have hsame := sameOn_sealDump m total
  rw [hsame.load_eq (fun x _ hx => .inl (by omega)),
    hsame.load_eq (fun x hlo hx => .inr (.inl ⟨hlo, by omega⟩)),
    hsame.load_eq (fun x hlo _ => .inr (.inr hlo)),
    hrest, load_add, load_add, load_add, load_add]
  simp only [Nat.zero_add, Nat.reduceAdd]
  rw [hheader, hdump]
  simp [← Nat.add_assoc]

theorem checksums_sealDump (m : Mem) (total : UInt32) :
    UInt32.ofNat (loadNum (sealDump m total) 0x0C 4) =
        bdmpCrc32c (load (sealDump m total) 0x10 0xF0) ∧
      UInt32.ofNat (loadNum (sealDump m total) 0x40 4) = bdmpCrc32c (load m 0 total.toNat) := by
  constructor
  · have hload : load (sealDump m total) 0x10 0xF0 =
        load (storeNum m 0x40 4 (bdmpCrc32c (load m 0 total.toNat)).toNat) 0x10 0xF0 :=
      (sameOn_storeNum (P := fun x => 0x10 ≤ x) fun x hx => .inr hx).load_eq fun x hx _ => hx
    rw [hload]
    exact ofNat_loadNum32 (loadNum_storeNum_self ..)
  · refine ofNat_loadNum32 ?_
    rw [sealDump, loadNum_storeNum_of_disjoint (by decide), loadNum_storeNum_self]

/-! ## The round trip -/

section RoundTrip

variable {out out' : Mem} {cap : UInt32} {frame : Option CpuFrame}
  {traps : Option (Nat → TrapRecord)} {n : UInt32} {values : HeaderValues}
  {mem : Option (Nat → UInt8)} {memSize total : UInt32}

theorem bdmpBuild_eq
    (h : bdmpBuild out cap frame traps n values mem memSize = (out', total)) (ht : 0 < total) :
    ∃ f, frame = some f ∧ n ≤ bdmpMaxTraps ∧ (n ≠ 0 → traps.isSome) ∧ (memSize ≠ 0 → mem.isSome) ∧
      Fits n memSize (bdmpBodyMinOffset n) total ∧
      out' = sealDump (layOut out values f traps n mem memSize (bdmpBodyMinOffset n) total) total := by
  have hrefuse : ∀ {P : Prop}, (out, (0 : UInt32)) = (out', total) → P := by
    intro P heq
    rw [← (Prod.mk.inj heq).2] at ht
    exact absurd ht (by decide)
  cases frame with
  | none => exact hrefuse h
  | some f =>
    simp only [bdmpBuild] at h
    split at h
    · exact hrefuse h
    next hn =>
      split at h
      · exact hrefuse h
      next htraps =>
        split at h
        · exact hrefuse h
        next hmem =>
          split at h
          · exact hrefuse h
          next hwrap =>
            split at h
            · exact hrefuse h
            · obtain ⟨hout, htotal⟩ := Prod.mk.inj h
              have hle : n ≤ bdmpMaxTraps := UInt32.not_lt.mp hn
              have hoff := toNat_bdmpBodyMinOffset hle
              refine ⟨f, rfl, hle, ?_, ?_, ⟨hoff, ?_⟩, ?_⟩
              · intro h0
                cases traps with
                | none => exact absurd ⟨h0, rfl⟩ htraps
                | some ts => rfl
              · intro h0
                cases mem with
                | none => exact absurd ⟨h0, rfl⟩ hmem
                | some bs => rfl
              · -- the sum did not wrap, or it would be below the offset
                rw [← htotal]
                rw [UInt32.lt_iff_toNat_lt] at hwrap
                rw [UInt32.toNat_add] at hwrap ⊢
                have := memSize.toNat_lt
                omega
              · rw [← htotal, hout]

theorem load_zero_field {a : Nat} (h : loadNum m a 4 = 0) : load m a 4 = [0, 0, 0, 0] := by
  have hbytes := leBytes_leNum (load m a 4)
  rw [length_load] at hbytes
  rw [← hbytes, show leNum (load m a 4) = 0 from h]
  rfl

variable {f : CpuFrame} {memOff : UInt32}

theorem header_layOut (out : Mem) (values : HeaderValues) (f : CpuFrame)
    (traps : Option (Nat → TrapRecord)) (mem : Option (Nat → UInt8))
    (h : Fits n memSize memOff total) :
    let m := layOut out values f traps n mem memSize memOff total
    (loadNum m 0x00 4 = bdmpMagic.toNat ∧ loadNum m 0x04 2 = bdmpFormatVersion.toNat ∧
      loadNum m 0x06 2 = bdmpHeaderSize.toNat) ∧ loadNum m 0x0C 4 = 0 ∧ loadNum m 0x40 4 = 0 ∧
    loadNum m 0x08 4 = total.toNat ∧ loadNum m 0x28 4 = n.toNat ∧
    loadNum m 0x34 4 = memOff.toNat ∧ loadNum m 0x38 8 = memSize.toNat := by
  have hsize : memSize.toNat % 256 ^ 8 = memSize.toNat :=
    Nat.mod_eq_of_lt (Nat.lt_trans memSize.toNat_lt (by decide))
  simp (disch := decide) only [loadNum_layOut h, writeHeader, loadNum_storeNum_of_disjoint,
    loadNum_storeNum_self, toNat_mod_word, hsize]
  decide

theorem loadNum_sealDump (m : Mem) (total : UInt32) {a k : Nat}
    (ha : a + k ≤ 0x0C ∨ (0x10 ≤ a ∧ a + k ≤ 0x40)) :
    loadNum (sealDump m total) a k = loadNum m a k :=
  (sameOn_sealDump m total).loadNum_eq fun x hlo hhi => by
    unfold Plain
    omega

theorem header_sealDump (out : Mem) (values : HeaderValues) (f : CpuFrame)
    (traps : Option (Nat → TrapRecord)) (mem : Option (Nat → UInt8))
    (h : Fits n memSize memOff total) :
    let m := sealDump (layOut out values f traps n mem memSize memOff total) total
    dumpSize m = total ∧ trapCountOf m = n ∧ memoryDumpOffset m = memOff ∧
      memoryDumpSize m = memSize.toUInt64 := by
  obtain ⟨-, -, -, htotal, hn, hoff, hsize⟩ :=
    header_layOut out values f traps mem h
  simp (disch := decide) only [dumpSize, trapCountOf, memoryDumpOffset, memoryDumpSize,
    loadNum_sealDump, htotal, hn, hoff, hsize, UInt32.ofNat_toNat, true_and]
  exact UInt64.toNat_inj.mp (by simp)

theorem checksums_fit (htotal : 0x44 ≤ total.toNat) (hheader : loadNum m 0x0C 4 = 0)
    (hdump : loadNum m 0x40 4 = 0) :
    let sealed := sealDump m total
    bdmpCrc32c (load sealed 0x10 0xF0) = UInt32.ofNat (loadNum sealed 0x0C 4) ∧
      bdmpCrc32c (load sealed 0 0x0C ++ ([0, 0, 0, 0] ++ (load sealed 0x10 0x30 ++
        ([0, 0, 0, 0] ++ load sealed 0x44 (total - 0x44).toNat)))) =
          UInt32.ofNat (loadNum sealed 0x40 4) := by
  have htail : (total - 0x44).toNat = total.toNat - 0x44 :=
    UInt32.toNat_sub_of_le _ _ (UInt32.le_iff_toNat_le.mpr htotal)
  constructor
  · exact (checksums_sealDump _ _).1.symm
  · rw [htail, load_sealDump htotal (load_zero_field hheader) (load_zero_field hdump)]
    exact (checksums_sealDump _ _).2.symm

theorem valid_sealDump (h : Fits n memSize memOff total) (hn : n ≤ bdmpMaxTraps)
    (hoff : memOff = bdmpBodyMinOffset n) {len : UInt32} (hlen : total ≤ len) :
    Valid (sealDump (layOut out values f traps n mem memSize memOff total) total) len := by
  obtain ⟨⟨hmagic, hversion, hheader⟩, hchecksum, hdump, -⟩ :=
    header_layOut out values f traps mem h
  obtain ⟨htotal, htraps, hmemOff, hmemSize⟩ :=
    header_sealDump out values f traps mem h
  have hoffset := h.offset
  have hsize := h.size
  have hge : bdmpHeaderSize ≤ total := UInt32.le_iff_toNat_le.mpr (by
    have : bdmpHeaderSize.toNat = 256 := rfl
    omega)
  obtain ⟨hheaderFits, hdumpFits⟩ := checksums_fit (show 0x44 ≤ total.toNat by omega) hchecksum hdump
  refine ⟨UInt32.le_trans hge hlen, ?_, ?_, ?_, ?_, ?_, ?_, ?_, ?_, ?_, ?_, ?_⟩
  · rw [loadNum_sealDump _ _ (by decide), hmagic]
    rfl
  · rw [loadNum_sealDump _ _ (by decide), hversion]
    rfl
  · rw [loadNum_sealDump _ _ (by decide), hheader]
    rfl
  · rw [htotal]
    exact hge
  · rw [htotal]
    exact hlen
  · rw [htraps]
    exact hn
  · rw [htraps, hmemOff, hoff]
    exact UInt32.le_refl _
  · rw [hmemOff, htotal, UInt32.le_iff_toNat_le]
    omega
  · rw [hmemOff, htotal, hmemSize, UInt64.le_iff_toNat_le, UInt64.toNat_add,
      UInt32.toNat_toUInt64, UInt32.toNat_toUInt64, UInt32.toNat_toUInt64]
    omega
  · exact hheaderFits
  · rw [htotal]
    exact hdumpFits

theorem sealDump_of_le (m : Mem) (total : UInt32) {x : Nat} (hx : 0x44 ≤ x) :
    sealDump m total x = m x := sameOn_sealDump m total x (.inr (.inr hx))

theorem load_sealDump_of_le (m : Mem) (total : UInt32) {a : Nat} (ha : 0x44 ≤ a) (k : Nat) :
    load (sealDump m total) a k = load m a k :=
  (sameOn_sealDump m total).load_eq fun _ hlo _ => .inr (.inr (Nat.le_trans ha hlo))

/-- A dump that `bdmp_build` has built is valid in every buffer that holds it.  Its
frame, traps and memory are the inputs, its padding is zero, and nothing is written
past its end. -/
theorem build_round_trip {out out' : Mem} {cap : UInt32} {frame : Option CpuFrame}
    {traps : Option (Nat → TrapRecord)} {n : UInt32} {values : HeaderValues}
    {mem : Option (Nat → UInt8)} {memSize total : UInt32}
    (h : bdmpBuild out cap frame traps n values mem memSize = (out', total)) (ht : 0 < total) :
    (∀ len, total ≤ len → Run.value (bdmpValidate out' len) () = true) ∧
      some (bdmpCpuFrame out') = frame ∧
      (trapCountOf out' = n ∧
        ∀ i < n.toNat, some (bdmpTraps out' i) = traps.map fun ts => ts i) ∧
      ((memoryDumpSize out').toNat = memSize.toNat ∧
        ∀ i < (memoryDumpSize out').toNat, some (bdmpMemory out' i) = mem.map fun bs => bs i) ∧
      ((∀ x, 0x44 ≤ x → x < 0x100 → out' x = 0) ∧
        ∀ x, 432 + 24 * n.toNat ≤ x → x < (memoryDumpOffset out').toNat → out' x = 0) ∧
      ∀ x, total.toNat ≤ x → out' x = out x := by
  obtain ⟨f, rfl, hn, htraps, hmem, hfits, rfl⟩ := bdmpBuild_eq h ht
  obtain ⟨-, hcount, hoff, hsize⟩ :=
    header_sealDump out values f traps mem hfits
  have hsize' := (congrArg UInt64.toNat hsize).trans (UInt32.toNat_toUInt64 _)
  have hoffset := hfits.offset
  have htotal := hfits.size
  refine ⟨fun len hlen => value_bdmpValidate.mpr (valid_sealDump hfits hn rfl hlen), ?_,
    ⟨hcount, fun i hi => ?_⟩, ⟨hsize', fun i hi => ?_⟩, ⟨fun x hlo hhi => ?_, fun x hlo hhi => ?_⟩,
    fun x hx => ?_⟩
  · refine congrArg some (bdmpCpuFrame_eq ?_)
    rw [load_sealDump_of_le _ _ (by decide)]
    exact load_layOut_frame hfits
  · have hpos : n ≠ 0 := by
      rintro rfl
      exact absurd hi (Nat.not_lt_zero _)
    obtain ⟨ts, rfl⟩ := Option.isSome_iff_exists.mp (htraps hpos)
    refine congrArg some (bdmpTraps_eq ?_)
    rw [load_sealDump_of_le _ _ (by omega)]
    have hrecord := load_layOut_traps out values f mem hfits ts
    have hlen : ((List.range n.toNat).map ts).length = n.toNat := by simp
    have hi' := load_record length_trapBytes (by rw [hlen, hrecord]) (hlen.symm ▸ hi)
    rwa [List.getElem_map, List.getElem_range] at hi'
  · rw [hsize'] at hi
    have hpos : memSize ≠ 0 := by
      rintro rfl
      exact absurd hi (Nat.not_lt_zero _)
    obtain ⟨bs, rfl⟩ := Option.isSome_iff_exists.mp (hmem hpos)
    rw [bdmpMemory, hoff, sealDump_of_le _ _ (by omega), layOut_memory hi]
    rfl
  · rw [sealDump_of_le _ _ hlo]
    exact layOut_padding hfits hlo hhi
  · rw [hoff] at hhi
    omega
  · rw [sealDump_of_le _ _ (by omega)]
    exact layOut_of_total_le hfits hx

/-- A dump of one trap and three bytes of memory. -/
theorem build_round_trip_one :
    let built := bdmpBuild (fun _ => 7) 4096 (some ⟨1, 2, 3, 4, 5, 6, 7, 8, 9, 10, 11, 12, 13, 14, 15,
        16, 17, 18, 19, 20, 21, 22⟩) (some fun _ => ⟨0xBA, 1, 2, 3⟩) 1 ⟨0xBAD, 0, 5, 6⟩
        (some fun i => UInt8.ofNat (10 + i)) 3
    built.2 = 459 ∧ Run.value (bdmpValidate built.1 500) () = true ∧
      bdmpTraps built.1 0 = ⟨0xBA, 1, 2, 3⟩ ∧ built.1 459 = 7 := by
  intro built
  have hsize : built.2 = 459 := rfl
  obtain ⟨hvalid, -, ⟨-, htraps⟩, -, -, hend⟩ :=
    build_round_trip (Prod.ext rfl hsize : built = (built.1, 459)) (by decide)
  exact ⟨hsize, hvalid 500 (by decide), Option.some.inj (htraps 0 (by decide)),
    hend 459 (by decide)⟩

end RoundTrip

/-! ## What the validator lets through

`bdmp_validate` never reads past the buffer.  Its layout tests bound the memory
region by a sum of 64 bits that may wrap, they do not ask for an aligned offset, and
they let bytes follow the region.  An accepted dump has the documented layout exactly
when two tests that the code does not make would pass.
-/

section

/-- An access below the length of the buffer. -/
def Within (len : UInt32) (a : Access Unit) : Prop := a.addr + a.size ≤ len.toNat

/-- A dump as `bdmp_format.h` has it: nothing was read past the buffer, the memory
region lies inside the dump, is aligned, and ends it. -/
structure Sound (buf : Mem) (len : UInt32) : Prop where
  reads : ∀ a ∈ Run.log (bdmpValidate buf len) (), Within len a
  inside : (memoryDumpOffset buf).toNat + (memoryDumpSize buf).toNat ≤ (dumpSize buf).toNat
  aligned : 8 ∣ (memoryDumpOffset buf).toNat
  whole : (dumpSize buf).toNat = (memoryDumpOffset buf).toNat + (memoryDumpSize buf).toNat

/-- The two tests that are missing: the low bits of the offset are clear, and the size
is what the dump has left after it. -/
def ExactLayout (buf : Mem) : Prop :=
  memoryDumpOffset buf &&& 7 = 0 ∧
    memoryDumpSize buf = (dumpSize buf - memoryDumpOffset buf).toUInt64

variable {buf : Mem} {len : UInt32}

/-! ### Reads -/

variable {a : Nat}

theorem fetch_spec {n : Nat} (h : a + n ≤ len.toNat) :
    Spec (Within len) (fun _ => True) (fetch buf a n) fun _ _ => True :=
  Spec.read h fun _ _ => trivial

theorem fetch16_spec (h : a + 2 ≤ len.toNat) :
    Spec (Within len) (fun _ => True) (fetch16 buf a) fun _ _ => True :=
  Spec.map (fetch_spec h)

theorem fetch32_spec (h : a + 4 ≤ len.toNat) :
    Spec (Within len) (fun _ => True) (fetch32 buf a) fun _ _ => True :=
  Spec.map (fetch_spec h)

theorem fetch64_spec (h : a + 8 ≤ len.toNat) :
    Spec (Within len) (fun _ => True) (fetch64 buf a) fun _ _ => True :=
  Spec.map (fetch_spec h)

theorem stop_spec (b : Bool) :
    Spec (Within len) (fun _ => True) (pure b : Reads Bool) fun _ _ => True :=
  Spec.pure fun _ _ => trivial

theorem checkDump_spec {total : UInt32} (htotal : bdmpHeaderSize ≤ total) (hlen : total ≤ len) :
    Spec (Within len) (fun _ => True) (checkDump buf total) fun _ _ => True := by
  have hlo : 256 ≤ total.toNat := UInt32.le_iff_toNat_le.mp htotal
  have hhi := UInt32.le_iff_toNat_le.mp hlen
  have htail : (total - 0x44).toNat = total.toNat - 0x44 :=
    UInt32.toNat_sub_of_le _ _ (UInt32.le_iff_toNat_le.mpr (by
      show 0x44 ≤ total.toNat
      omega))
  refine Spec.bind (fetch_spec (by omega)) fun _ => Spec.bind (fetch_spec (by omega)) fun _ =>
    Spec.bind (fetch_spec (by omega)) fun _ => Spec.bind (fetch32_spec (by omega)) fun _ => ?_
  exact Spec.ite (fun _ => stop_spec _) fun _ => stop_spec _

theorem bdmpValidate_spec (buf : Mem) (len : UInt32) :
    Spec (Within len) (fun _ => True) (bdmpValidate buf len) fun _ _ => True := by
  refine Spec.ite (fun _ => stop_spec _) fun hsize => ?_
  have hlen : 256 ≤ len.toNat := UInt32.le_iff_toNat_le.mp (UInt32.not_lt.mp hsize)
  refine Spec.bind (fetch32_spec (by omega)) fun _ => Spec.ite (fun _ => stop_spec _) fun _ => ?_
  refine Spec.bind (fetch16_spec (by omega)) fun _ => Spec.ite (fun _ => stop_spec _) fun _ => ?_
  refine Spec.bind (fetch16_spec (by omega)) fun _ => Spec.ite (fun _ => stop_spec _) fun _ => ?_
  refine Spec.bind (fetch32_spec (by omega)) fun total => Spec.ite (fun _ => stop_spec _)
    fun htotal => ?_
  rw [not_or] at htotal
  refine Spec.bind (fetch32_spec (by omega)) fun _ => Spec.ite (fun _ => stop_spec _) fun _ => ?_
  refine Spec.bind (fetch32_spec (by omega)) fun _ => Spec.ite (fun _ => stop_spec _) fun _ => ?_
  refine Spec.ite (fun _ => stop_spec _) fun _ => ?_
  refine Spec.bind (fetch64_spec (by omega)) fun _ => Spec.ite (fun _ => stop_spec _) fun _ => ?_
  refine Spec.bind (fetch_spec (by omega)) fun _ => Spec.bind (fetch32_spec (by omega)) fun _ => ?_
  exact Spec.ite (fun _ => stop_spec _) fun _ =>
    checkDump_spec (UInt32.not_lt.mp htotal.1) (UInt32.not_lt.mp htotal.2)

/-! ### Layout -/

theorem and_seven_eq_zero_iff (x : UInt32) : x &&& 7 = 0 ↔ 8 ∣ x.toNat := by
  rw [← UInt32.toNat_inj, UInt32.toNat_and, Nat.dvd_iff_mod_eq_zero]
  show x.toNat &&& 2 ^ 3 - 1 = 0 ↔ _
  rw [Nat.and_two_pow_sub_one_eq_mod]

/-- An accepted dump has the documented layout exactly when the missing tests pass. -/
theorem accepted_sound_iff {buf : Mem} {len : UInt32}
    (h : Run.value (bdmpValidate buf len) () = true) : Sound buf len ↔ ExactLayout buf := by
  have hle := (value_bdmpValidate.mp h).offsetLe
  have hle' := UInt32.le_iff_toNat_le.mp hle
  have hrest : ((dumpSize buf - memoryDumpOffset buf).toUInt64).toNat =
      (dumpSize buf).toNat - (memoryDumpOffset buf).toNat := by
    rw [UInt32.toNat_toUInt64, UInt32.toNat_sub_of_le _ _ hle]
  constructor
  · intro hs
    have hwhole := hs.whole
    refine ⟨(and_seven_eq_zero_iff _).mpr hs.aligned, UInt64.toNat_inj.mp ?_⟩
    rw [hrest]
    omega
  · rintro ⟨halign, hsize⟩
    have hsize' := (congrArg UInt64.toNat hsize).trans hrest
    exact
      { reads := (bdmpValidate_spec buf len () trivial).1
        inside := by omega
        aligned := (and_seven_eq_zero_iff _).mp halign
        whole := by omega }

/-! ### A forged dump -/

/-- A dump of 440 bytes whose memory region of `2^64 - 1` bytes starts at 433, so that
its end wraps to 432, before the checksums. -/
def forgedLayout : Mem :=
  storeNum (writeHeader (fun _ => 0) ⟨0, 0, 0, 0⟩ 0 433 0 440) 0x38 8 (2 ^ 64 - 1)

def forgedDump : Mem := sealDump forgedLayout 440

theorem forgedDump_fields :
    dumpSize forgedDump = 440 ∧ trapCountOf forgedDump = 0 ∧ memoryDumpOffset forgedDump = 433 ∧
      memoryDumpSize forgedDump = 0xFFFFFFFFFFFFFFFF := by
  simp (disch := decide) only [dumpSize, trapCountOf, memoryDumpOffset, memoryDumpSize, forgedDump,
    loadNum_sealDump]
  decide

theorem valid_forgedDump : Valid forgedDump 440 := by
  obtain ⟨htotal, htraps, hoff, hsize⟩ := forgedDump_fields
  obtain ⟨hheader, hdump⟩ := checksums_fit (m := forgedLayout) (show 0x44 ≤ (440 : UInt32).toNat by decide)
    (by decide) (by decide)
  refine ⟨by decide, ?_, ?_, ?_, ?_, ?_, ?_, ?_, ?_, ?_, hheader, ?_⟩
  · rw [forgedDump, loadNum_sealDump _ _ (by decide)]
    decide
  · rw [forgedDump, loadNum_sealDump _ _ (by decide)]
    decide
  · rw [forgedDump, loadNum_sealDump _ _ (by decide)]
    decide
  · rw [htotal]
    decide
  · rw [htotal]
    decide
  · rw [htraps]
    decide
  · rw [htraps, hoff]
    decide
  · rw [htotal, hoff]
    decide
  · rw [htotal, hoff, hsize]
    decide
  · rw [htotal]
    exact hdump

/-- It is accepted, and its region is neither inside the dump, nor aligned, nor the
rest of it. -/
theorem forged_accepted :
    Run.value (bdmpValidate forgedDump 440) () = true ∧ ¬ Sound forgedDump 440 := by
  refine ⟨value_bdmpValidate.mpr valid_forgedDump, fun hs => ?_⟩
  have hinside := hs.inside
  obtain ⟨htotal, -, hoff, hsize⟩ := forgedDump_fields
  rw [htotal, hoff, hsize] at hinside
  exact absurd hinside (by decide)

/-- A dump that was built has the documented layout. -/
theorem built_sound :
    let built := bdmpBuild (fun _ => 7) 4096 (some ⟨1, 2, 3, 4, 5, 6, 7, 8, 9, 10, 11, 12, 13, 14, 15,
        16, 17, 18, 19, 20, 21, 22⟩) (some fun _ => ⟨0xBA, 1, 2, 3⟩) 1 ⟨0xBAD, 0, 5, 6⟩
        (some fun i => UInt8.ofNat (10 + i)) 3
    Run.value (bdmpValidate built.1 500) () = true ∧ Sound built.1 500 := by
  intro built
  obtain ⟨f, -, hn, -, -, hfits, hout⟩ :=
    bdmpBuild_eq (Prod.ext rfl rfl : built = (built.1, 459)) (by decide)
  obtain ⟨htotal, -, hoff, hsize⟩ := header_sealDump (fun _ => 7) ⟨0xBAD, 0, 5, 6⟩ f
    (some fun _ => ⟨0xBA, 1, 2, 3⟩) (some fun i => UInt8.ofNat (10 + i)) hfits
  rw [← hout] at htotal hoff hsize
  have hvalid : Run.value (bdmpValidate built.1 500) () = true := by
    rw [hout]
    exact value_bdmpValidate.mpr (valid_sealDump hfits hn rfl (by decide))
  refine ⟨hvalid, (accepted_sound_iff hvalid).mpr ⟨?_, ?_⟩⟩
  · rw [hoff]
    decide
  · rw [hsize, htotal, hoff]
    decide

end

end Bdmp
