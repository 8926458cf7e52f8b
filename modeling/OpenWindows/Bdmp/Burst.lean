import OpenWindows.Bdmp.RoundTrip

/-!
# Corrupted dumps

A dump that `bdmp_build` built is no longer valid when some of its bits changed and the
changed ones are among 32 in a row, in the order in which the checksum takes them: each byte
from its lowest bit on.  A change of the size is caught by the layout test, and of the
two checksums there is always one that covers all of the change.
-/

namespace Bdmp

open Bytes Memory Logged Crc

/-! ## The checksum -/

theorem bdmpCrc32c_eq (data : List UInt8) :
    bdmpCrc32c data = branchPass 0x82F63B78 0xFFFFFFFF data ^^^ 0xFFFFFFFF := by
  rw [bdmpCrc32c, bdmpCrc32cPass, maskedPass_eq]
  refine UInt32.toBitVec_inj.mp ?_
  rw [UInt32.toBitVec_xor]
  exact BitVec.xor_allOnes.symm

theorem toNat_bdmpCrc32c (data : List UInt8) : (bdmpCrc32c data).toNat = crc32c data := by
  rw [bdmpCrc32c_eq, toNat_branchPass]

variable {m m' : Mem} {n s a k x y : Nat}

theorem burst_load_eq (hb : Burst n s 32 m m') (ha : a + k ≤ n)
    (h : bdmpCrc32c (load m' a k) = bdmpCrc32c (load m a k)) : load m' a k = load m a k :=
  hb.load_eq_of_crc32c ha (by rw [← toNat_bdmpCrc32c, h, toNat_bdmpCrc32c])

/-! ## Bytes that differ -/

theorem burst_far (hb : Burst n s 32 m m') (hx : x < n) (h : m' x ≠ m x) (hy : y < n)
    (hfar : x + 4 < y ∨ y + 4 < x) : m' y = m y := by
  by_contra hne
  have := hb.ne hx h
  have := hb.ne hy hne
  omega

theorem exists_ne_of_load_ne (h : load m' a k ≠ load m a k) : ∃ x, a ≤ x ∧ x < a + k ∧ m' x ≠ m x := by
  by_contra hall
  refine h (List.map_congr_left fun i hi => not_not.mp fun hne => hall ⟨a + i, ?_, ?_, hne⟩)
  · exact Nat.le_add_right ..
  · exact Nat.add_lt_add_left (List.mem_range.mp hi) a

theorem eq_of_load_eq (h : load m' a k = load m a k) (hlo : a ≤ x) (hhi : x < a + k) :
    m' x = m x := by
  have hget := congrArg (fun l : List UInt8 => l[x - a]?) h
  simp only [load, List.getElem?_map] at hget
  rw [List.getElem?_range (by omega), Option.map_some, Option.map_some,
    Nat.add_sub_cancel' hlo] at hget
  exact Option.some.inj hget

theorem load_eq_of_ofNat (h : UInt32.ofNat (loadNum m' a 4) = UInt32.ofNat (loadNum m a 4)) :
    load m' a 4 = load m a 4 := by
  have hlt : ∀ m : Mem, loadNum m a 4 < 2 ^ 32 := by
    intro m
    have hnum := leNum_lt (load m a 4)
    rwa [length_load] at hnum
  have heq := congrArg UInt32.toNat h
  rw [UInt32.toNat_ofNat', UInt32.toNat_ofNat', Nat.mod_eq_of_lt (hlt m'),
    Nat.mod_eq_of_lt (hlt m)] at heq
  exact leNum_inj (by rw [length_load, length_load]) heq

/-! ## The dump with zeros for its checksums -/

/-- The dump as it was hashed. -/
def blanked (m : Mem) : Mem := storeNum (storeNum m 0x0C 4 0) 0x40 4 0

theorem sameOn_blanked (m : Mem) : SameOn Plain m (blanked m) := by
  intro x hx
  unfold Plain at hx
  rw [blanked, storeNum_of_outside (by omega), storeNum_of_outside (by omega)]

theorem load_blanked (m : Mem) {total : Nat} (htotal : 0x44 ≤ total) :
    load m 0 0x0C ++ ([0, 0, 0, 0] ++ (load m 0x10 0x30 ++
      ([0, 0, 0, 0] ++ load m 0x44 (total - 0x44)))) = load (blanked m) 0 total := by
  obtain ⟨rest, hrest⟩ : ∃ rest, total = 0x0C + (4 + (0x30 + (4 + rest))) :=
    ⟨total - 0x44, by omega⟩
  have hsame := sameOn_blanked m
  have hheader : loadNum (blanked m) 0x0C 4 = 0 := by
    rw [blanked, loadNum_storeNum_of_disjoint (by decide), loadNum_storeNum_self]
    rfl
  have hdump : loadNum (blanked m) 0x40 4 = 0 := by
    rw [blanked, loadNum_storeNum_self]
    rfl
  rw [hrest, load_add, load_add, load_add, load_add]
  simp only [Nat.zero_add, Nat.reduceAdd]
  rw [load_zero_field hheader, load_zero_field hdump,
    hsame.load_eq (fun x _ hx => .inl (by omega)),
    hsame.load_eq (fun x hlo hx => .inr (.inl ⟨hlo, by omega⟩)),
    hsame.load_eq (fun x hlo _ => .inr (.inr hlo))]
  simp [← Nat.add_assoc]

theorem burst_blanked (hb : Burst n s k m m') : Burst n s k (blanked m) (blanked m') := by
  intro a ha j hj hout
  have hstore : ∀ {m m' : Mem} (b : Nat), Burst n s k m m' →
      Burst n s k (storeNum m b 4 0) (storeNum m' b 4 0) := by
    intro m m' b hb a ha j hj hout
    unfold storeNum store
    split
    · rfl
    · exact hb a ha j hj hout
  exact hstore 0x40 (hstore 0x0C hb) a ha j hj hout

/-! ## The two checksums -/

section Sealed

variable {total : UInt32} {start : Nat}

theorem dumpSize_eq (hb : Burst total.toNat start 32 m m') (hm : dumpSize m = total)
    (hend : (memoryDumpOffset m).toNat + (memoryDumpSize m).toNat = total.toNat)
    (hfits : (memoryDumpOffset m).toNat + (memoryDumpSize m).toNat < 2 ^ 64)
    (hge : 0x44 ≤ total.toNat) (hv : Valid m' total) : dumpSize m' = total := by
  by_contra hne
  have hload : load m' 0x08 4 ≠ load m 0x08 4 := by
    intro heq
    rw [← hm, dumpSize, dumpSize, loadNum, loadNum, heq] at hne
    exact hne rfl
  obtain ⟨x, hlo, hhi, hx⟩ := exists_ne_of_load_ne hload
  have hfar : SameOn (Span 0x34 0x40) m m' := fun y hy =>
    burst_far hb (by omega) hx (Nat.lt_of_lt_of_le hy.2 (by omega)) (by have := hy.1; omega)
  have hoffset : memoryDumpOffset m' = memoryDumpOffset m := by
    rw [memoryDumpOffset, memoryDumpOffset, hfar.loadNum_eq fun y h1 h2 => ⟨h1, by omega⟩]
  have hsize : memoryDumpSize m' = memoryDumpSize m := by
    rw [memoryDumpSize, memoryDumpSize, hfar.loadNum_eq fun y h1 h2 => ⟨by omega, h2⟩]
  have hinside := hv.inside
  rw [hoffset, hsize, UInt64.le_iff_toNat_le, UInt64.toNat_add, UInt32.toNat_toUInt64,
    UInt32.toNat_toUInt64, Nat.mod_eq_of_lt hfits, hend] at hinside
  exact hne (UInt32.le_antisymm hv.totalLe (UInt32.le_iff_toNat_le.mpr hinside))

theorem plain_eq (hb : Burst total.toNat start 32 m m') (hge : 0x44 ≤ total.toNat)
    (hm : Valid m total) (hm' : Valid m' total) (hsize : dumpSize m = total)
    (hsize' : dumpSize m' = total) (hfield : load m' 0x40 4 = load m 0x40 4) (hx : Plain x)
    (hlt : x < total.toNat) : m' x = m x := by
  have htail : (total - 0x44).toNat = total.toNat - 0x44 :=
    UInt32.toNat_sub_of_le _ _ (UInt32.le_iff_toNat_le.mpr hge)
  have hcrc := hm.dumpChecksum
  have hcrc' := hm'.dumpChecksum
  rw [hsize, htail, load_blanked m hge] at hcrc
  rw [hsize', htail, load_blanked m' hge, loadNum, hfield] at hcrc'
  have hload := burst_load_eq (burst_blanked hb) (by rw [Nat.zero_add]) (hcrc'.trans hcrc.symm)
  have heq := eq_of_load_eq hload (Nat.zero_le x) (by rwa [Nat.zero_add])
  rwa [sameOn_blanked m' x hx, sameOn_blanked m x hx] at heq

theorem not_valid_burst (hb : Burst total.toNat start 32 m m') (hm : Valid m total)
    (hsize : dumpSize m = total)
    (hend : (memoryDumpOffset m).toNat + (memoryDumpSize m).toNat = total.toNat)
    (hx : x < total.toNat) (hne : m' x ≠ m x) : ¬ Valid m' total := by
  intro hm'
  have hlen : 256 ≤ total.toNat := UInt32.le_iff_toNat_le.mp hm.lenLe
  have hlt := total.toNat_lt
  have hge : 0x44 ≤ total.toNat := by omega
  have hsize' := dumpSize_eq hb hsize hend (by omega) hge hm'
  by_cases hfield : load m' 0x0C 4 = load m 0x0C 4
  · -- the header checksum covers the dump checksum
    have hcrc := hm.headerChecksum
    have hcrc' := hm'.headerChecksum
    rw [loadNum, hfield] at hcrc'
    have hheader := burst_load_eq hb (by omega) (hcrc'.trans hcrc.symm)
    have hdump : load m' 0x40 4 = load m 0x40 4 :=
      List.map_congr_left fun i hi => by
        have := List.mem_range.mp hi
        exact eq_of_load_eq hheader (by omega) (by omega)
    by_cases hplain : Plain x
    · exact hne (plain_eq hb hge hm hm' hsize hsize' hdump hplain hx)
    · unfold Plain at hplain
      by_cases hlow : x < 0x10
      · exact hne (eq_of_load_eq hfield (by omega) (by omega))
      · exact hne (eq_of_load_eq hheader (by omega) (by omega))
  · -- the burst is near the header checksum, so the dump checksum is as it was
    obtain ⟨y, hlo, hhi, hy⟩ := exists_ne_of_load_ne hfield
    have hdump : load m' 0x40 4 = load m 0x40 4 :=
      List.map_congr_left fun i hi => by
        have := List.mem_range.mp hi
        exact burst_far hb (by omega) hy (by omega) (by omega)
    have hheader : load m' 0x10 0xF0 = load m 0x10 0xF0 :=
      List.map_congr_left fun i hi => by
        have := List.mem_range.mp hi
        by_cases hin : 0x40 ≤ 0x10 + i ∧ 0x10 + i < 0x44
        · exact eq_of_load_eq hdump hin.1 hin.2
        · exact plain_eq hb hge hm hm' hsize hsize' hdump (by unfold Plain; omega) (by omega)
    have hcrc := hm.headerChecksum
    have hcrc' := hm'.headerChecksum
    rw [hheader, hcrc] at hcrc'
    exact hfield (load_eq_of_ofNat hcrc'.symm)

end Sealed

/-- No dump that `bdmp_build` built is accepted after an error of at most 32 bits in a
row. -/
theorem burst_rejected {out out' corrupted : Mem} {cap : UInt32} {frame : Option CpuFrame}
    {traps : Option (Nat → TrapRecord)} {n : UInt32} {values : HeaderValues}
    {mem : Option (Nat → UInt8)} {memSize total : UInt32} {start : Nat}
    (h : bdmpBuild out cap frame traps n values mem memSize = (out', total)) (ht : 0 < total)
    (hburst : Burst total.toNat start 32 out' corrupted)
    (hne : ∃ x < total.toNat, corrupted x ≠ out' x) :
    Run.value (bdmpValidate corrupted total) () = false := by
  obtain ⟨f, -, hn, -, -, hfits, rfl⟩ := bdmpBuild_eq h ht
  obtain ⟨x, hx, hne⟩ := hne
  obtain ⟨hsize, -, hoffset, hmem⟩ := header_sealDump out values f traps mem hfits
  refine Bool.eq_false_of_not_eq_true fun hok => ?_
  refine not_valid_burst hburst (valid_sealDump hfits hn rfl (UInt32.le_refl total)) hsize ?_ hx hne
    (value_bdmpValidate.mp hok)
  rw [hoffset, hmem, UInt32.toNat_toUInt64, hfits.size]

/-- A dump of no traps and three bytes with one bit changed in the header checksum. -/
theorem burst_rejected_header :
    let built := bdmpBuild (fun _ => 7) 4096 (some ⟨1, 2, 3, 4, 5, 6, 7, 8, 9, 10, 11, 12, 13, 14, 15,
        16, 17, 18, 19, 20, 21, 22⟩) none 0 ⟨0xBAD, 0, 5, 6⟩ (some fun i => UInt8.ofNat (10 + i)) 3
    Run.value (bdmpValidate (store built.1 0x0C [built.1 0x0C ^^^ 1]) 435) () = false := by
  intro built
  have hflip : built.1 0x0C ^^^ 1 ≠ built.1 0x0C := by
    intro heq
    have hone : (1 : UInt8) = 0 := by
      calc (1 : UInt8) = built.1 0x0C ^^^ (built.1 0x0C ^^^ 1) := by
            rw [← UInt8.xor_assoc, UInt8.xor_self, UInt8.zero_xor]
        _ = 0 := by rw [heq, UInt8.xor_self]
    exact absurd hone (by decide)
  have hburst : Burst (435 : UInt32).toNat 0x60 32 built.1
      (store built.1 0x0C [built.1 0x0C ^^^ 1]) := by
    intro a _ j _ hout
    rw [store_of_outside (by rw [List.length_singleton]; omega)]
  have hself : store built.1 0x0C [built.1 0x0C ^^^ 1] 0x0C = built.1 0x0C ^^^ 1 := if_pos (by decide)
  exact burst_rejected (Prod.ext rfl rfl : built = (built.1, 435)) (by decide) hburst
    ⟨0x0C, by decide, hself ▸ hflip⟩

end Bdmp
