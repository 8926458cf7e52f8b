import OpenWindows.Bdmp.Burst
import OpenWindows.Owelf.Loader
import OpenWindows.Sentinel.Context

/-!
# The copies of CRC-32C

`owhash64.c`, `owelf64.c`, `damage_control.c` and `bdmp_core.h` each have a CRC-32C of
their own.  They agree, with one exception: `dc_crc32c_skip` computes the end of the
field that it takes as zero in 32 bits, and skips nothing where that wraps.
-/

namespace Crc32c

open Memory Crc

/-! ## The functions -/

/-- `owhash_crc32c`; `none` is a null pointer with a length that is not zero. -/
def owhashCrc32c (crc : UInt32) (data : Option (List UInt8)) : UInt32 :=
  match data with
  | none => crc
  | some data => branchPass 0x82F63B78 (crc ^^^ 0xFFFFFFFF) data ^^^ 0xFFFFFFFF

/-- `owelf_crc32c` -/
def owelfCrc32c (data : List UInt8) : UInt32 := branchPass 0x82F63B78 0xFFFFFFFF data ^^^ 0xFFFFFFFF

/-- `dc_crc32c` -/
def dcCrc32c (data : List UInt8) : UInt32 := branchPass 0x82F63B78 0xFFFFFFFF data ^^^ 0xFFFFFFFF

/-- A loop from byte `i` on that takes some bytes as zero. -/
def skipPass (skip : Nat → Bool) : Nat → UInt32 → List UInt8 → UInt32
  | _, crc, [] => crc
  | i, crc, b :: data =>
    let b := if skip i then 0 else b
    skipPass skip (i + 1) ((branchShift 0x82F63B78)^[8] (crc ^^^ b.toUInt32)) data

/-- `owelf_compute_checksum`; `none` is a null pointer. -/
def owelfComputeChecksum (file : Option (List UInt8)) : UInt32 :=
  match file with
  | none => 0
  | some file =>
    skipPass (fun i => decide (0x2C ≤ i ∧ i < 0x2C + 4)) 0 0xFFFFFFFF file ^^^ 0xFFFFFFFF

/-- `dc_crc32c_skip` -/
def dcCrc32cSkip (data : List UInt8) (skipOff skipLen : UInt32) : UInt32 :=
  let skipEnd := skipOff + skipLen
  skipPass (fun i => decide (skipOff.toNat ≤ i ∧ i < skipEnd.toNat)) 0 0xFFFFFFFF data ^^^ 0xFFFFFFFF

/-! ## The skipped bytes -/

variable {skip : Nat → Bool} {i off n : Nat} {crc : UInt32} {data : List UInt8}

/-- The data with zeros for the bytes of a field. -/
def zeroed (off n : Nat) (data : List UInt8) : List UInt8 :=
  data.mapIdx fun i b => if off ≤ i ∧ i < off + n then 0 else b

theorem skipPass_eq (skip : Nat → Bool) (i : Nat) (crc : UInt32) (data : List UInt8) :
    skipPass skip i crc data =
      branchPass 0x82F63B78 crc (data.mapIdx fun k b => if skip (i + k) then 0 else b) := by
  induction data generalizing i crc with
  | nil => rfl
  | cons b data ih =>
    rw [skipPass, ih, List.mapIdx_cons]
    have hrest : (data.mapIdx fun k b => if skip (i + 1 + k) then (0 : UInt8) else b) =
        data.mapIdx fun k b => if skip (i + (k + 1)) then 0 else b := by
      congr 1
      funext k b
      rw [Nat.add_assoc, Nat.add_comm 1 k]
    rw [hrest]
    rfl

theorem skipPass_field (off n : Nat) (crc : UInt32) (data : List UInt8) :
    skipPass (fun i => decide (off ≤ i ∧ i < off + n)) 0 crc data =
      branchPass 0x82F63B78 crc (zeroed off n data) := by
  rw [skipPass_eq, zeroed]
  congr 2
  funext k b
  rw [Nat.zero_add]
  exact if_congr decide_eq_true_iff rfl rfl

theorem zeroed_of_le (h : data.length ≤ off) : zeroed off n data = data := by
  refine List.ext_getElem (by rw [zeroed, List.length_mapIdx]) fun i h1 h2 => ?_
  simp only [zeroed, List.getElem_mapIdx]
  rw [if_neg (by omega)]

theorem mapIdx_zeros {f : Nat → UInt8 → UInt8} (hf : ∀ i, f i 0 = 0) (k : Nat) :
    (List.replicate k 0).mapIdx f = List.replicate k 0 := by
  refine List.ext_getElem (by simp) fun i h1 h2 => ?_
  rw [List.getElem_mapIdx, List.getElem_replicate, hf]

theorem zeroed_zero : zeroed off 0 data = data := by
  refine List.ext_getElem (by rw [zeroed, List.length_mapIdx]) fun i h1 h2 => ?_
  simp only [zeroed, List.getElem_mapIdx]
  rw [if_neg (by omega)]

/-! ## The copies agree -/

/-- All copies give one check value for the data, the running one also in parts, and with
a field of zeros where the field is skipped. -/
structure CopiesAgree (data : List UInt8) (off n : UInt32) : Prop where
  owelf : owelfCrc32c data = owhashCrc32c 0 (some data)
  dc : dcCrc32c data = owhashCrc32c 0 (some data)
  bdmp : Bdmp.bdmpCrc32c data = owhashCrc32c 0 (some data)
  parts : ∀ crc front back, owhashCrc32c (owhashCrc32c crc (some front)) (some back) =
    owhashCrc32c crc (some (front ++ back))
  checksum : owelfComputeChecksum (some data) = owhashCrc32c 0 (some (zeroed 0x2C 4 data))
  skip : dcCrc32cSkip data off n = owhashCrc32c 0 (some (zeroed off.toNat n.toNat data))

theorem owhashCrc32c_zero (data : List UInt8) :
    owhashCrc32c 0 (some data) = branchPass 0x82F63B78 0xFFFFFFFF data ^^^ 0xFFFFFFFF := by
  rw [owhashCrc32c, UInt32.zero_xor]

theorem owhashCrc32c_append (crc : UInt32) (front back : List UInt8) :
    owhashCrc32c (owhashCrc32c crc (some front)) (some back) =
      owhashCrc32c crc (some (front ++ back)) := by
  have happend : branchPass 0x82F63B78 (crc ^^^ 0xFFFFFFFF) (front ++ back) =
      branchPass 0x82F63B78 (branchPass 0x82F63B78 (crc ^^^ 0xFFFFFFFF) front) back :=
    List.foldl_append
  simp only [owhashCrc32c]
  rw [UInt32.xor_assoc, UInt32.xor_self, UInt32.xor_zero, happend]

theorem copiesAgree_of_skip {off n : UInt32}
    (h : dcCrc32cSkip data off n = owhashCrc32c 0 (some (zeroed off.toNat n.toNat data))) :
    CopiesAgree data off n where
  owelf := (owhashCrc32c_zero data).symm
  dc := (owhashCrc32c_zero data).symm
  bdmp := (Bdmp.bdmpCrc32c_eq data).trans (owhashCrc32c_zero data).symm
  parts := owhashCrc32c_append
  checksum := by
    rw [owelfComputeChecksum, skipPass_field, owhashCrc32c_zero]
  skip := h

theorem dcCrc32cSkip_of_lt {off n : UInt32} (h : off.toNat + n.toNat < 2 ^ 32) (data : List UInt8) :
    dcCrc32cSkip data off n = owhashCrc32c 0 (some (zeroed off.toNat n.toNat data)) := by
  have hend : (off + n).toNat = off.toNat + n.toNat := by
    rw [UInt32.toNat_add, Nat.mod_eq_of_lt h]
  rw [dcCrc32cSkip, hend, skipPass_field, owhashCrc32c_zero]

theorem dcCrc32cSkip_of_le {off n : UInt32} (h : 2 ^ 32 ≤ off.toNat + n.toNat)
    (data : List UInt8) : dcCrc32cSkip data off n = owhashCrc32c 0 (some data) := by
  have hlt := n.toNat_lt
  have hlt' := off.toNat_lt
  have hend : (off + n).toNat ≤ off.toNat := by
    rw [UInt32.toNat_add]
    omega
  have hskip : (fun i => decide (off.toNat ≤ i ∧ i < (off + n).toNat)) =
      fun i => decide (0 ≤ i ∧ i < 0 + 0) := by
    funext i
    exact decide_eq_decide.mpr ⟨fun hi => by omega, fun hi => by omega⟩
  rw [dcCrc32cSkip, hskip, skipPass_field, zeroed_zero, owhashCrc32c_zero]

/-- One byte between zeros is told from a zero. -/
theorem owhashCrc32c_one (pre post : List UInt8) :
    owhashCrc32c 0 (some (pre ++ ([1] ++ post))) ≠ owhashCrc32c 0 (some (pre ++ ([0] ++ post))) := by
  intro h
  have hcrc := congrArg UInt32.toNat h
  rw [owhashCrc32c_zero, owhashCrc32c_zero, toNat_branchPass, toNat_branchPass,
    crc32c_eq_iff] at hcrc
  have hmsb : castagnoli.msb = true := by decide
  have hlen : ([1] : List UInt8).length = ([0] : List UInt8).length := rfl
  have hone : ([1] : List UInt8) = [0] :=
    (pass_middle_iff hmsb _ pre post hlen (by decide)).mp hcrc
  exact absurd hone (by decide)

/-- For all data of a length the copies agree exactly when the end of the skipped field
does not wrap or the field starts behind the data. -/
theorem copies_agree_iff (len : Nat) (off n : UInt32) :
    (∀ data : List UInt8, data.length = len → CopiesAgree data off n) ↔
      off.toNat + n.toNat < 2 ^ 32 ∨ len ≤ off.toNat := by
  constructor
  · intro h
    by_contra hnot
    obtain ⟨hwrap, hlen⟩ := not_or.mp hnot
    obtain ⟨k, rfl⟩ : ∃ k, len = off.toNat + (1 + k) := ⟨len - off.toNat - 1, by omega⟩
    have hlt := off.toNat_lt
    -- a one at the start of the field is neither skipped nor a zero
    have hlength : (List.replicate off.toNat (0 : UInt8) ++ ([1] ++ List.replicate k 0)).length =
        off.toNat + (1 + k) := by
      rw [List.length_append, List.length_append, List.length_replicate, List.length_replicate,
        List.length_singleton]
    have hskip := (h _ hlength).skip
    have hzero : zeroed off.toNat n.toNat
          (List.replicate off.toNat 0 ++ ([1] ++ List.replicate k 0)) =
        List.replicate off.toNat 0 ++ ([0] ++ List.replicate k 0) := by
      rw [zeroed, List.mapIdx_append, List.mapIdx_append, mapIdx_zeros fun _ => ite_self _,
        mapIdx_zeros fun _ => ite_self _, List.mapIdx_singleton, List.length_replicate,
        Nat.zero_add, if_pos ⟨Nat.le_refl _, by omega⟩]
    rw [hzero, dcCrc32cSkip_of_le (Nat.le_of_not_lt hwrap)] at hskip
    exact owhashCrc32c_one _ _ hskip
  · rintro (hend | hlen) data rfl
    · exact copiesAgree_of_skip (dcCrc32cSkip_of_lt hend data)
    · refine copiesAgree_of_skip ?_
      rcases Nat.lt_or_ge (off.toNat + n.toNat) (2 ^ 32) with hend | hend
      · exact dcCrc32cSkip_of_lt hend data
      · rw [dcCrc32cSkip_of_le hend, zeroed_of_le hlen]

/-- A field of the second of two bytes that ends at `2 ^ 32` is not skipped. -/
theorem skip_wraps : ¬ CopiesAgree [1, 1] 1 0xFFFFFFFF := by
  intro h
  have hzero : zeroed (1 : UInt32).toNat (0xFFFFFFFF : UInt32).toNat [1, 1] = [1, 0] := by decide
  have hskip := h.skip
  rw [hzero, dcCrc32cSkip_of_le (by decide)] at hskip
  exact owhashCrc32c_one [1] [] hskip

/-! ## The checksums of the images -/

theorem toNat_dcCrc32c (image : Mem) (offset length : Nat) :
    (dcCrc32c (load image offset length)).toNat = Sentinel.dcCrc32c image offset length :=
  toNat_branchPass _

theorem toNat_dcCrc32cSkip (image : Mem) (length : Nat) :
    (dcCrc32cSkip (load image 0 length) 0x58 4).toNat =
      Sentinel.dcCrc32cSkip image length 0x58 4 := by
  have hzero : zeroed 0x58 4 (load image 0 length) = (List.range length).map fun i =>
      if 0x58 ≤ i ∧ i < 0x58 + 4 then 0 else image i := by
    refine List.ext_getElem (by simp [zeroed]) fun i h1 h2 => ?_
    simp [zeroed, load]
  rw [dcCrc32cSkip_of_lt (by decide), owhashCrc32c_zero, toNat_branchPass]
  exact congrArg crc32c hzero

theorem run_owelfComputeChecksum {U : Type} (file : Mem) (size : UInt64) (s : Owelf.State U) :
    ((Owelf.owelfComputeChecksum file size).run s).1 =
      .ok (owelfComputeChecksum (some (load file 0 size.toNat))) := by
  have hchecksum : owelfComputeChecksum (some (load file 0 size.toNat)) =
      UInt32.ofNat (crc32c (zeroed 0x2C 4 (load file 0 size.toNat))) := by
    rw [owelfComputeChecksum, skipPass_field, ← toNat_branchPass, UInt32.ofNat_toNat]
  rw [hchecksum]
  rfl

end Crc32c
