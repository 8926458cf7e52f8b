import Mathlib.Tactic.IntervalCases
import OpenWindows.Sentinel.Context

/-!
# Sealing an image

The format has a writer store two checksums: with `image_checksum` zero, the CRC of
the whole file goes to `image_checksum`, and the CRC of the bytes `0x10..0x7F` goes
to `header_checksum`.  Each field lies inside the range of the other checksum.  The
one that is stored first is therefore spoilt by the other, except when the other
store changes nothing.
-/

namespace Sentinel

open Memory Crc

/-- The file with `image_checksum` zero. -/
def unsealed (image : Mem) : Mem := storeNum image 0x58 4 0

/-- Store the checksum of the whole file. -/
def sealFile (image : Mem) (imageSize : Nat) : Mem :=
  storeNum image 0x58 4 (dcCrc32c (unsealed image) 0 imageSize)

def sealHeader (image : Mem) : Mem := storeNum image 0x0C 4 (dcCrc32c image 0x10 0x70)

/-- Which checksum is stored first. -/
inductive SealOrder where
  | imageFirst
  | headerFirst

/-- Sealing, from `image_checksum` zero. -/
def sealImage (image : Mem) (imageSize : Nat) : SealOrder → Mem
  | .imageFirst => sealHeader (sealFile (unsealed image) imageSize)
  | .headerFirst => sealFile (sealHeader (unsealed image)) imageSize

/-- `dc_context_init` accepts the image. -/
def Accepted (image : Mem) (imageSize : Nat) : Prop :=
  ∀ config log, ∃ ctx, dcContextInit image imageSize config log = .ok ctx

/-- When the store that comes second changes nothing that the first checksum
covers: the header checksum was in place already, or the file's checksum is zero. -/
def SealsItself (image : Mem) (imageSize : Nat) : SealOrder → Prop
  | .imageFirst =>
    loadNum image 0x0C 4 = dcCrc32c (sealFile (unsealed image) imageSize) 0x10 0x70
  | .headerFirst => dcCrc32c (sealHeader (unsealed image)) 0 imageSize = 0

variable {image image' : Mem} {imageSize : Nat}

/-! ## What the checks see -/

/-- A byte of neither checksum field. -/
def Plaintext (x : Nat) : Prop := x < 0x0C ∨ (0x10 ≤ x ∧ x < 0x58) ∨ 0x5C ≤ x

theorem readHeader_eq (h : SameOn Plaintext image image') :
    readHeader image' =
      { readHeader image with
        headerChecksum := loadNum image' 0x0C 4
        imageChecksum := loadNum image' 0x58 4 } := by
  have hload : ∀ {a n : Nat}, (a + n ≤ 0x0C ∨ (0x10 ≤ a ∧ a + n ≤ 0x58)) →
      loadNum image' a n = loadNum image a n := by
    intro a n ha
    refine h.loadNum_eq fun x hlo hhi => ?_
    unfold Plaintext
    omega
  simp (disch := omega) only [readHeader, hload]

theorem Structural.congr (hs : Structural image imageSize) (h : SameOn Plaintext image image') :
    Structural image' imageSize := by
  unfold Structural
  rw [readHeader_eq h]
  exact hs

theorem accepted_iff (hs : Structural image imageSize) :
    Accepted image imageSize ↔
      dcValidateHeaderChecksum (readHeader image) image = true ∧
        dcValidateImageChecksum (readHeader image) image imageSize = true := by
  constructor
  · intro h
    obtain ⟨ctx, hctx⟩ := h
      { maxRetryPerTrigger := 0, abortOnFirstFail := false, verboseLogging := false }
      { entries := [], capacity := 0, stringTableUsed := 0 }
    obtain ⟨-, hc, hi, -⟩ := dcContextInit_eq_ok.mp hctx
    exact ⟨hc, hi⟩
  · rintro ⟨hc, hi⟩ config log
    exact ⟨_, dcContextInit_eq_ok.mpr ⟨hs, hc, hi, rfl⟩⟩

/-- The checksum of the file does not see its own field. -/
theorem dcCrc32cSkip_eq (image : Mem) (n : Nat) :
    dcCrc32cSkip image n 0x58 4 = dcCrc32c (unsealed image) 0 n := by
  unfold dcCrc32cSkip dcCrc32c load
  congr 1
  refine List.map_congr_left fun i _ => ?_
  rw [Nat.zero_add]
  unfold unsealed storeNum store
  rw [length_leBytes]
  by_cases hi : 0x58 ≤ i ∧ i < 0x58 + 4
  · rw [if_pos hi, if_pos hi]
    obtain ⟨k, rfl⟩ : ∃ k, i = 0x58 + k := ⟨i - 0x58, by omega⟩
    rw [Nat.add_sub_cancel_left]
    have hk : k < 4 := by omega
    interval_cases k <;> rfl
  · rw [if_neg hi, if_neg hi]

/-! ## The two orders -/

theorem sameOn_sealFile (image : Mem) (n : Nat) : SameOn Plaintext image (sealFile image n) :=
  sameOn_storeNum fun x hx => by
    unfold Plaintext at hx
    omega

theorem sameOn_sealHeader (image : Mem) : SameOn Plaintext image (sealHeader image) :=
  sameOn_storeNum fun x hx => by
    unfold Plaintext at hx
    omega

theorem sameOn_unsealed (image : Mem) : SameOn Plaintext image (unsealed image) :=
  sameOn_storeNum fun x hx => by
    unfold Plaintext at hx
    omega

theorem sameOn_sealImage (image : Mem) (n : Nat) (order : SealOrder) :
    SameOn Plaintext image (sealImage image n order) := by
  cases order with
  | imageFirst =>
    exact ((sameOn_unsealed image).trans (sameOn_sealFile _ n)).trans (sameOn_sealHeader _)
  | headerFirst =>
    exact ((sameOn_unsealed image).trans (sameOn_sealHeader _)).trans (sameOn_sealFile _ n)

theorem loadNum_storeNum_word (image : Mem) (a : Nat) {v : Nat} (hv : v < 2 ^ 32) :
    loadNum (storeNum image a 4 v) a 4 = v := by
  rw [loadNum_storeNum_self]
  exact Nat.mod_eq_of_lt hv

/-- Taking the file's checksum out again. -/
theorem unsealed_storeNum (image : Mem) (v : Nat) :
    unsealed (storeNum image 0x58 4 v) = unsealed image := storeNum_storeNum ..

theorem storeNum_comm (image : Mem) {a b v w : Nat} (h : a + 4 ≤ b ∨ b + 4 ≤ a) :
    storeNum (storeNum image a 4 v) b 4 w = storeNum (storeNum image b 4 w) a 4 v := by
  funext x
  unfold storeNum store
  simp only [length_leBytes]
  split
  · rw [if_neg (by omega)]
  · rfl

theorem unsealed_unsealed (image : Mem) : unsealed (unsealed image) = unsealed image :=
  unsealed_storeNum image 0

theorem unsealed_storeHeader (image : Mem) (v : Nat) :
    unsealed (storeNum image 0x0C 4 v) = storeNum (unsealed image) 0x0C 4 v :=
  storeNum_comm image (by decide)

theorem dcCrc32c_storeHeader (image : Mem) (v : Nat) :
    dcCrc32c (storeNum image 0x0C 4 v) 0x10 0x70 = dcCrc32c image 0x10 0x70 := by
  have hload : load (storeNum image 0x0C 4 v) 0x10 0x70 = load image 0x10 0x70 :=
    (sameOn_storeNum (P := fun x => 0x10 ≤ x) fun x hx => .inr hx).load_eq fun x hx _ => hx
  rw [dcCrc32c, hload]
  rfl

theorem dcCrc32c_storeNum_iff (image : Mem) {s n a v : Nat} (hlo : s ≤ a) (hhi : a + 4 ≤ s + n)
    (hv : v < 2 ^ 32) :
    dcCrc32c (storeNum image a 4 v) s n = dcCrc32c image s n ↔ loadNum image a 4 = v :=
  crc32c_storeNum_iff image hlo hhi hv

theorem Structural.size_le (hs : Structural image imageSize) : 128 ≤ imageSize := by
  by_contra hlt
  have hh := hs.1
  rw [checkHeader, if_pos (by omega)] at hh
  cases hh

theorem accepted_imageFirst_iff (hs : Structural image imageSize) :
    Accepted (sealImage image imageSize .imageFirst) imageSize ↔
      SealsItself image imageSize .imageFirst := by
  have hsize := hs.size_le
  have hc : dcCrc32c (unsealed image) 0 imageSize < 2 ^ 32 := crc32c_lt _
  have hh : dcCrc32c (sealFile (unsealed image) imageSize) 0x10 0x70 < 2 ^ 32 := crc32c_lt _
  have hfile : sealFile (unsealed image) imageSize =
      storeNum (unsealed image) 0x58 4 (dcCrc32c (unsealed image) 0 imageSize) := by
    rw [sealFile, unsealed_unsealed]
  have hheader : loadNum (sealImage image imageSize .imageFirst) 0x0C 4 =
      dcCrc32c (sealFile (unsealed image) imageSize) 0x10 0x70 := loadNum_storeNum_word _ _ hh
  have himage : loadNum (sealImage image imageSize .imageFirst) 0x58 4 =
      dcCrc32c (unsealed image) 0 imageSize := by
    rw [sealImage, sealHeader, loadNum_storeNum_of_disjoint (by decide), hfile]
    exact loadNum_storeNum_word _ _ hc
  -- without the file's checksum, sealing has changed the header's checksum only
  have hunseal : unsealed (sealImage image imageSize .imageFirst) =
      storeNum (unsealed image) 0x0C 4 (dcCrc32c (sealFile (unsealed image) imageSize) 0x10 0x70) := by
    rw [sealImage, sealHeader, unsealed_storeHeader]
    congr 1
    rw [hfile, unsealed_storeNum, unsealed_unsealed]
  have hfield : loadNum (unsealed image) 0x0C 4 = loadNum image 0x0C 4 :=
    loadNum_storeNum_of_disjoint (by decide)
  rw [accepted_iff (hs.congr (sameOn_sealImage image imageSize .imageFirst)),
    readHeader_eq (sameOn_sealImage image imageSize .imageFirst), hheader, himage]
  simp only [dcValidateHeaderChecksum, dcValidateImageChecksum, dcCrc32cSkip_eq, beq_iff_eq, hunseal]
  rw [sealImage, sealHeader, dcCrc32c_storeHeader,
    dcCrc32c_storeNum_iff _ (Nat.zero_le _) (by omega) hh, hfield]
  exact and_iff_right rfl

theorem accepted_headerFirst_iff (hs : Structural image imageSize) :
    Accepted (sealImage image imageSize .headerFirst) imageSize ↔
      SealsItself image imageSize .headerFirst := by
  have hc : dcCrc32c (sealHeader (unsealed image)) 0 imageSize < 2 ^ 32 := crc32c_lt _
  have hh : dcCrc32c (unsealed image) 0x10 0x70 < 2 ^ 32 := crc32c_lt _
  have hunseal : unsealed (sealHeader (unsealed image)) = sealHeader (unsealed image) := by
    rw [sealHeader, unsealed_storeHeader, unsealed_unsealed]
  have hfile : sealImage image imageSize .headerFirst =
      storeNum (sealHeader (unsealed image)) 0x58 4
        (dcCrc32c (sealHeader (unsealed image)) 0 imageSize) := by
    rw [sealImage, sealFile, hunseal]
  have hswap : sealImage image imageSize .headerFirst =
      storeNum (storeNum (unsealed image) 0x58 4
        (dcCrc32c (sealHeader (unsealed image)) 0 imageSize)) 0x0C 4
        (dcCrc32c (unsealed image) 0x10 0x70) := by
    rw [hfile, sealHeader, storeNum_comm _ (by decide)]
  have hheader : loadNum (sealImage image imageSize .headerFirst) 0x0C 4 =
      dcCrc32c (unsealed image) 0x10 0x70 := by
    rw [hswap]
    exact loadNum_storeNum_word _ _ hh
  have himage : loadNum (sealImage image imageSize .headerFirst) 0x58 4 =
      dcCrc32c (sealHeader (unsealed image)) 0 imageSize := by
    rw [hfile]
    exact loadNum_storeNum_word _ _ hc
  have hunseal' : unsealed (sealImage image imageSize .headerFirst) =
      sealHeader (unsealed image) := by
    rw [hfile, unsealed_storeNum, hunseal]
  have hfield : loadNum (unsealed image) 0x58 4 = 0 := loadNum_storeNum_word _ _ (by decide)
  rw [accepted_iff (hs.congr (sameOn_sealImage image imageSize .headerFirst)),
    readHeader_eq (sameOn_sealImage image imageSize .headerFirst), hheader, himage]
  simp only [dcValidateHeaderChecksum, dcValidateImageChecksum, dcCrc32cSkip_eq, beq_iff_eq,
    hunseal', and_true]
  rw [hswap, dcCrc32c_storeHeader, dcCrc32c_storeNum_iff _ (by decide) (by decide) hc, hfield]
  exact eq_comm

/-- An image that passes the structural checks is accepted after sealing exactly
when the second store changes nothing that the first checksum covers. -/
theorem sealed_accepted_iff {image : Mem} {imageSize : Nat} (hs : Structural image imageSize)
    (order : SealOrder) :
    Accepted (sealImage image imageSize order) imageSize ↔ SealsItself image imageSize order := by
  cases order with
  | imageFirst => exact accepted_imageFirst_iff hs
  | headerFirst => exact accepted_headerFirst_iff hs

/-- A script of 129 bytes without directives, with the given `header_checksum`. -/
def emptyScript (headerChecksum : Nat) : Mem :=
  storeNum (store (fun _ => 0) 0
    [76, 84, 78, 83, 1, 0, 128, 0, 129, 0, 0, 0, 0, 0, 0, 0, 0, 160, 17, 0, 7, 0, 0, 0, 0, 0, 0, 0,
     0, 0, 0, 0, 0, 0, 0, 0, 128, 0, 0, 0, 128, 0, 0, 0, 128, 0, 0, 0, 128]) 0x0C 4 headerChecksum

theorem structural_emptyScript_zero : Structural (emptyScript 0) 129 := by
  constructor <;> decide

set_option maxRecDepth 8000 in
theorem emptyScript_checksums :
    dcCrc32c (unsealed (emptyScript 0)) 0 129 = 3537106764 ∧
      dcCrc32c (unsealed (emptyScript 0)) 0x10 0x70 = 1826062311 := by
  constructor
  · rw [dcCrc32c, crc32c_eq]
    decide
  · rw [dcCrc32c, crc32c_eq]
    decide

set_option maxRecDepth 8000 in
/-- Neither order gives an image that is accepted. -/
theorem sealed_rejected :
    Structural (emptyScript 0) 129 ∧
      ∀ order, ¬ Accepted (sealImage (emptyScript 0) 129 order) 129 := by
  refine ⟨structural_emptyScript_zero, fun order => ?_⟩
  cases order with
  | imageFirst =>
    rw [accepted_imageFirst_iff structural_emptyScript_zero, SealsItself, sealFile,
      unsealed_unsealed, emptyScript_checksums.1, dcCrc32c, crc32c_eq]
    decide
  | headerFirst =>
    rw [accepted_headerFirst_iff structural_emptyScript_zero, SealsItself, sealHeader,
      emptyScript_checksums.2, dcCrc32c, crc32c_eq]
    decide

set_option maxRecDepth 8000 in
/-- A script whose `header_checksum` is what sealing will make of it. -/
theorem sealed_accepted_fixed :
    Accepted (sealImage (emptyScript 3583166800) 129 .imageFirst) 129 := by
  have hs : Structural (emptyScript 3583166800) 129 := by
    constructor <;> decide
  have hfile : dcCrc32c (unsealed (emptyScript 3583166800)) 0 129 = 1356232667 := by
    rw [dcCrc32c, crc32c_eq]
    decide
  refine (sealed_accepted_iff hs .imageFirst).mpr ?_
  rw [SealsItself, sealFile, unsealed_unsealed, hfile, dcCrc32c, crc32c_eq]
  decide

end Sentinel
