import OpenWindows.Owelf.Loader

/-!
# Loading a file

The reads of a file do not depend on the state, so each of them gives a fixed value.
The checks of `owelf_parse_header` and of each section bound what follows.  The loop
over the sections keeps the buffer equal to the sections so far, laid over zeros.
-/

namespace Owelf

open Bytes Memory Logged

variable {U α β : Type} {input : Input}

def headerOf (file : Mem) : HeaderInfo where
  magic := UInt32.ofNat (loadNum file 0x00 4)
  version := UInt32.ofNat (loadNum file 0x04 4)
  flags := UInt32.ofNat (loadNum file 0x08 4)
  entryPoint := UInt32.ofNat (loadNum file 0x0C 4)
  sectionCount := UInt32.ofNat (loadNum file 0x10 4)
  importCount := UInt32.ofNat (loadNum file 0x14 4)
  exportCount := UInt32.ofNat (loadNum file 0x18 4)
  imageSize := UInt64.ofNat (loadNum file 0x1C 8)
  stackSize := UInt32.ofNat (loadNum file 0x24 4)
  heapSize := UInt32.ofNat (loadNum file 0x28 4)
  checksum := UInt32.ofNat (loadNum file 0x2C 4)
  subsystem := UInt32.ofNat (loadNum file 0x30 4)

/-- The section-table entry at an index. -/
def sectionOf (file : Mem) (i : Nat) : Section where
  type := UInt32.ofNat (loadNum file (256 + i * 40) 4)
  flags := UInt32.ofNat (loadNum file (256 + i * 40 + 4) 4)
  virtualAddr := UInt64.ofNat (loadNum file (256 + i * 40 + 8) 8)
  fileOffset := UInt64.ofNat (loadNum file (256 + i * 40 + 16) 8)
  size := UInt64.ofNat (loadNum file (256 + i * 40 + 24) 8)
  checksum := UInt32.ofNat (loadNum file (256 + i * 40 + 32) 4)
  reserved := UInt32.ofNat (loadNum file (256 + i * 40 + 36) 4)

/-- The file is read below its size only, and the buffer is touched below
`image_size` only, when that is within the capacity. -/
def Allowed (input : Input) (a : Access Region) : Prop :=
  match a.region with
  | .file => a.isWrite = false ∧ a.addr + a.size ≤ input.size.toNat
  | .buffer =>
    (headerOf input.file).imageSize ≤ input.capacity ∧
      a.addr + a.size ≤ (headerOf input.file).imageSize.toNat

variable {P : State U → Prop} {Q : α → State U → Prop} {T : β → State U → Prop}
  {E : Stop → State U → Prop} {f : α → Loader U β}

/-! ## Rules for the primitives -/

theorem checked_fail {s : Status} (h : ∀ st, P st → E (.status s) st) :
    Checked (Allowed input) P (fail s : Loader U α) Q E := Checked.throw h

theorem checked_fail_bind {s : Status} (h : ∀ st, P st → E (.status s) st) :
    Checked (Allowed input) P ((fail s : Loader U α) >>= f) T E :=
  Checked.bind (Q := fun _ _ => False) (checked_fail h) fun _ _ hs => hs.elim

variable {a n i : Nat}

theorem checked_readFile_bind {f : List UInt8 → Loader U β} (h : a + n ≤ input.size.toNat)
    (hf : Checked (Allowed input) P (f (load input.file a n)) T E) :
    Checked (Allowed input) P (readFile input.file a n >>= f) T E :=
  Checked.bind_eq (Checked.lift (Spec.read ⟨rfl, h⟩ fun _ hs => ⟨rfl, hs⟩)) hf

theorem checked_rdU32_bind {f : UInt32 → Loader U β} (h : a + 4 ≤ input.size.toNat)
    (hf : Checked (Allowed input) P (f (UInt32.ofNat (loadNum input.file a 4))) T E) :
    Checked (Allowed input) P (rdU32 input.file a >>= f) T E :=
  Checked.bind_eq (checked_readFile_bind h (Checked.pure fun _ hs => ⟨rfl, hs⟩)) hf

theorem checked_rdU64_bind {f : UInt64 → Loader U β} (h : a + 8 ≤ input.size.toNat)
    (hf : Checked (Allowed input) P (f (UInt64.ofNat (loadNum input.file a 8))) T E) :
    Checked (Allowed input) P (rdU64 input.file a >>= f) T E :=
  Checked.bind_eq (checked_readFile_bind h (Checked.pure fun _ hs => ⟨rfl, hs⟩)) hf

theorem checked_readBuffer_bind {f : List UInt8 → Loader U β}
    (hcap : (headerOf input.file).imageSize ≤ input.capacity)
    (h : a + n ≤ (headerOf input.file).imageSize.toNat)
    (hf : ∀ bs, bs.length = n → Checked (Allowed input) P (f bs) T E) :
    Checked (Allowed input) P (readBuffer a n >>= f) T E := by
  refine Checked.bind (Q := fun v s => v.length = n ∧ P s)
    (Checked.lift (Spec.read ⟨hcap, h⟩ fun s hs => ⟨length_load .., hs⟩)) fun v => ?_
  refine Checked.of_fact (fun _ hs => hs.1) fun hv => ?_
  exact (hf v hv).mono (fun _ hs => hs.2) fun _ _ hs => hs

theorem checked_writeBuffer {bs : List UInt8} {Q : Unit → State U → Prop}
    (hcap : (headerOf input.file).imageSize ≤ input.capacity)
    (h : a + bs.length ≤ (headerOf input.file).imageSize.toNat)
    (hQ : ∀ s, P s → Q () { s with buffer := store s.buffer a bs }) :
    Checked (Allowed input) P (writeBuffer a bs) Q E :=
  Checked.lift (Spec.write ⟨hcap, h⟩ hQ)

theorem checked_changeImage {g : Image → Image} {Q : Unit → State U → Prop}
    (hQ : ∀ s, P s → Q () { s with image := g s.image }) :
    Checked (Allowed input) P (changeImage g) Q E :=
  Checked.lift (Spec.change hQ)

/-! ## The header -/

/-- What `owelf_parse_header` has checked. -/
structure HeaderOk (input : Input) : Prop where
  sections : (headerOf input.file).sectionCount.toNat ≤ 64
  imports : (headerOf input.file).importCount.toNat ≤ 128
  tables : 256 + (headerOf input.file).sectionCount.toNat * 40 +
    (headerOf input.file).importCount.toNat * 24 ≤ input.size.toNat

theorem toNat_tableEnd {header : HeaderInfo} (hs : header.sectionCount.toNat ≤ 64) :
    (256 + header.sectionCount.toUInt64 * 40).toNat = 256 + header.sectionCount.toNat * 40 := by
  simp only [UInt64.toNat_add, UInt64.toNat_mul, UInt32.toNat_toUInt64, UInt64.reduceToNat]
  omega

theorem toNat_importEnd {header : HeaderInfo} (hs : header.sectionCount.toNat ≤ 64)
    (hi : header.importCount.toNat ≤ 128) :
    (256 + header.sectionCount.toUInt64 * 40 + header.importCount.toUInt64 * 24).toNat =
      256 + header.sectionCount.toNat * 40 + header.importCount.toNat * 24 := by
  rw [UInt64.toNat_add, toNat_tableEnd hs]
  simp only [UInt64.toNat_mul, UInt32.toNat_toUInt64, UInt64.reduceToNat]
  omega

theorem checked_parseHeader (hE : ∀ s st, P st → E (.status s) st) :
    Checked (Allowed input) P (owelfParseHeader input.file input.size)
      (fun info st => (info = headerOf input.file ∧ HeaderOk input) ∧ P st) E := by
  refine Checked.ite (fun _ => checked_fail_bind (hE _)) fun hsize => ?_
  have hlen : 256 ≤ input.size.toNat := UInt64.le_iff_toNat_le.mp (UInt64.not_lt.mp hsize)
  refine checked_rdU32_bind (by omega) (Checked.ite (fun _ => checked_fail_bind (hE _)) fun _ => ?_)
  refine checked_rdU32_bind (by omega) (Checked.ite (fun _ => checked_fail_bind (hE _)) fun _ => ?_)
  refine checked_rdU32_bind (by omega) (checked_rdU32_bind (by omega) ?_)
  refine checked_rdU32_bind (by omega) (checked_rdU32_bind (by omega) ?_)
  refine checked_rdU32_bind (by omega) (checked_rdU64_bind (by omega) ?_)
  refine checked_rdU32_bind (by omega) (checked_rdU32_bind (by omega) ?_)
  refine checked_rdU32_bind (by omega) (checked_rdU32_bind (by omega) ?_)
  refine Checked.ite (fun _ => checked_fail_bind (hE _)) fun hsections => ?_
  refine Checked.ite (fun _ => checked_fail_bind (hE _)) fun himports => ?_
  refine Checked.ite (fun _ => checked_fail_bind (hE _)) fun _ => ?_
  refine Checked.ite (fun _ => checked_fail_bind (hE _)) fun _ => ?_
  refine Checked.ite (fun _ => checked_fail_bind (hE _)) fun _ => ?_
  refine Checked.ite (fun _ => checked_fail_bind (hE _)) fun hend => ?_
  refine Checked.pure fun st hst => ⟨⟨rfl, ?_⟩, hst⟩
  have hs : (headerOf input.file).sectionCount.toNat ≤ 64 :=
    UInt32.le_iff_toNat_le.mp (UInt32.not_lt.mp hsections)
  have hi : (headerOf input.file).importCount.toNat ≤ 128 :=
    UInt32.le_iff_toNat_le.mp (UInt32.not_lt.mp himports)
  have hend' := UInt64.le_iff_toNat_le.mp (UInt64.not_lt.mp hend)
  exact ⟨hs, hi, toNat_importEnd hs hi ▸ hend'⟩

theorem checked_validate (hE : ∀ s st, P st → E (.status s) st) :
    Checked (Allowed input) P (owelfValidate input.file input.size)
      (fun info st => (info = headerOf input.file ∧ HeaderOk input) ∧ P st) E := by
  refine Checked.bind (checked_parseHeader hE) fun info => Checked.of_fact (fun _ hs => hs.1) fun hinfo => ?_
  refine Checked.bind (Q := fun _ st => P st) (checked_readFile_bind (by omega)
    (Checked.pure fun _ hs => hs.2)) fun computed => ?_
  refine Checked.ite (fun _ => checked_fail_bind (hE _)) fun _ => ?_
  exact Checked.pure fun st hst => ⟨hinfo, hst⟩

/-! ## Sections -/

theorem checked_decodeSection_bind {f : Section → Loader U β}
    (h : 256 + (i + 1) * 40 ≤ input.size.toNat)
    (hf : Checked (Allowed input) P (f (sectionOf input.file i)) T E) :
    Checked (Allowed input) P (owelfDecodeSection input.file 256 i >>= f) T E := by
  refine Checked.bind_eq ?_ hf
  have he : (256 : UInt32).toNat + i * 40 = 256 + i * 40 := rfl
  unfold owelfDecodeSection
  rw [he]
  refine checked_rdU32_bind (by omega) (checked_rdU32_bind (by omega) ?_)
  refine checked_rdU64_bind (by omega) (checked_rdU64_bind (by omega) ?_)
  refine checked_rdU64_bind (by omega) (checked_rdU32_bind (by omega) ?_)
  refine checked_rdU32_bind (by omega) ?_
  exact Checked.pure fun st hst => ⟨rfl, hst⟩

/-- What `owelf_load` has checked for a section. -/
structure SectionOk (input : Input) (sec : Section) : Prop where
  image : sec.virtualAddr.toNat + sec.size.toNat ≤ (headerOf input.file).imageSize.toNat
  file : sec.type ≠ 0x04 → sec.fileOffset.toNat + sec.size.toNat ≤ input.size.toNat

/-- The bytes of a section: those of the file, zeros for `OWELF_SECTION_BSS`. -/
def sectionBytes (file : Mem) (sec : Section) : List UInt8 :=
  if sec.type = 0x04 then List.replicate sec.size.toNat 0
  else load file sec.fileOffset.toNat sec.size.toNat

/-- The first `n` sections laid over a buffer, in the order of the table. -/
def overlay (file : Mem) (m : Mem) : Nat → Mem
  | 0 => m
  | n + 1 =>
    store (overlay file m n) (sectionOf file n).virtualAddr.toNat
      (sectionBytes file (sectionOf file n))

theorem length_sectionBytes (file : Mem) (sec : Section) :
    (sectionBytes file sec).length = sec.size.toNat := by
  unfold sectionBytes
  split
  · exact List.length_replicate
  · exact length_load ..

/-- A sum that is not below its first part has not wrapped. -/
theorem toNat_add_of_le {x y : UInt64} (h : ¬ x + y < x) : (x + y).toNat = x.toNat + y.toNat := by
  rw [UInt64.lt_iff_toNat_lt, UInt64.toNat_add] at h
  rw [UInt64.toNat_add]
  have := x.toNat_lt
  have := y.toNat_lt
  omega

theorem checked_loadSection (m : Mem) (image : Image)
    (hcap : (headerOf input.file).imageSize ≤ input.capacity)
    (htable : 256 + (i + 1) * 40 ≤ input.size.toNat)
    (hE : ∀ s st, st.image = image → (st.buffer = m ∨
      (SectionOk input (sectionOf input.file i) ∧ st.buffer = store m
        (sectionOf input.file i).virtualAddr.toNat
        (sectionBytes input.file (sectionOf input.file i)))) → E (.status s) st) :
    Checked (Allowed input) (fun st : State U => st.image = image ∧ st.buffer = m)
      (loadSection input.file input.size input.capacity (headerOf input.file).imageSize i)
      (fun _ st => SectionOk input (sectionOf input.file i) ∧ st.image = image ∧
        st.buffer = store m (sectionOf input.file i).virtualAddr.toNat
          (sectionBytes input.file (sectionOf input.file i))) E := by
  have hE0 : ∀ s st, (st.image = image ∧ st.buffer = m) → E (.status s) st :=
    fun s st hst => hE s st hst.1 (.inl hst.2)
  refine checked_decodeSection_bind htable ?_
  generalize sectionOf input.file i = sec at hE ⊢
  refine Checked.ite (fun _ => checked_fail_bind (hE0 _)) fun hwrap => ?_
  refine Checked.ite (fun _ => checked_fail_bind (hE0 _)) fun himage => ?_
  refine Checked.ite (fun _ => checked_fail_bind (hE0 _)) fun _ => ?_
  have hend := UInt64.le_iff_toNat_le.mp (UInt64.not_lt.mp himage)
  rw [toNat_add_of_le hwrap] at hend
  refine Checked.ite (fun hbss => ?_) fun hbss => ?_
  · refine checked_writeBuffer hcap (by simpa using hend) fun st hst => ?_
    refine ⟨⟨hend, fun hne => absurd hbss hne⟩, hst.1, ?_⟩
    rw [sectionBytes, if_pos hbss, hst.2]
  · refine Checked.ite (fun _ => checked_fail_bind (hE0 _)) fun hfile => ?_
    rw [not_or] at hfile
    have hfileEnd := UInt64.le_iff_toNat_le.mp (UInt64.not_lt.mp hfile.2)
    rw [toNat_add_of_le hfile.1] at hfileEnd
    have hok : SectionOk input sec := ⟨hend, fun _ => hfileEnd⟩
    have hbytes : sectionBytes input.file sec =
        load input.file sec.fileOffset.toNat sec.size.toNat := if_neg hbss
    refine checked_readFile_bind hfileEnd (Checked.bind
      (Q := fun _ st => st.image = image ∧ st.buffer = store m sec.virtualAddr.toNat
        (sectionBytes input.file sec))
      (checked_writeBuffer hcap (by rw [length_load]; exact hend) fun st hst => ?_) fun _ => ?_)
    · exact ⟨hst.1, by rw [hbytes, hst.2]⟩
    · refine Checked.ite (fun _ => ?_) fun _ => Checked.pure fun st hst => ⟨hok, hst⟩
      refine checked_readBuffer_bind hcap hend fun copied _ => ?_
      exact Checked.ite (fun _ => checked_fail fun st hst => hE _ st hst.1 (.inr ⟨hok, hst.2⟩))
        fun _ => Checked.pure fun st hst => ⟨hok, hst⟩

/-! ## The whole load -/

theorem overlay_of_le {m : Mem} {x : Nat} (hok : ∀ i < n, SectionOk input (sectionOf input.file i))
    (hx : (headerOf input.file).imageSize.toNat ≤ x) : overlay input.file m n x = m x := by
  induction n with
  | zero => rfl
  | succ n ih =>
    have hn := (hok n (Nat.lt_succ_self n)).image
    rw [overlay, store_of_outside (.inr (by rw [length_sectionBytes]; omega))]
    exact ih fun i hi => hok i (Nat.lt_succ_of_lt hi)

/-- What lies under the sections is seen where they leave it. -/
theorem overlay_congr {m m' : Mem} {x : Nat} (h : m x = m' x) :
    overlay input.file m n x = overlay input.file m' n x := by
  induction n with
  | zero => exact h
  | succ n ih =>
    rw [overlay, overlay, store, store]
    split
    · rfl
    · exact ih

/-- The image once a load has succeeded. -/
structure Ready (input : Input) (image : Image) : Prop where
  fileSize : image.fileSize = input.size
  capacity : image.capacity = input.capacity
  header : image.header = headerOf input.file
  sectionTable : image.sectionTableOff = 256
  importTable : image.importTableOff.toNat = 256 + (headerOf input.file).sectionCount.toNat * 40
  headerOk : HeaderOk input
  fits : (headerOf input.file).imageSize ≤ input.capacity
  sections : ∀ i < (headerOf input.file).sectionCount.toNat,
    SectionOk input (sectionOf input.file i)

def placedImage (input : Input) : Image :=
  let header := headerOf input.file
  let importTableOff := (256 + header.sectionCount.toUInt64 * 40).toUInt32
  { fileSize := input.size, capacity := input.capacity, header, sectionTableOff := 256
    importTableOff
    stringTableOff := (importTableOff.toUInt64 + header.importCount.toUInt64 * 24).toUInt32
    delta := 0, loaded := false }

theorem ready_placedImage (hheader : HeaderOk input)
    (hcap : (headerOf input.file).imageSize ≤ input.capacity)
    (hok : ∀ i < (headerOf input.file).sectionCount.toNat,
      SectionOk input (sectionOf input.file i)) :
    Ready input { placedImage input with loaded := true } where
  fileSize := rfl
  capacity := rfl
  header := rfl
  sectionTable := rfl
  importTable := by
    have hsections := hheader.sections
    simp only [placedImage, UInt64.toNat_toUInt32, UInt64.toNat_add, UInt64.toNat_mul,
      UInt32.toNat_toUInt64, UInt64.reduceToNat]
    omega
  headerOk := hheader
  fits := hcap
  sections := hok

theorem checked_load (input : Input) (m : Mem) :
    Checked (Allowed input) (fun st : State U => st.buffer = m)
      (owelfLoad input.file input.size input.capacity)
      (fun _ st => (Ready input st.image ∧ st.image.loaded = true) ∧
        st.buffer = overlay input.file
          (store m 0 (List.replicate (headerOf input.file).imageSize.toNat 0))
          (headerOf input.file).sectionCount.toNat)
      (fun e st => e ≠ .rounds ∧ st.image.loaded = false ∧
        ∀ x, (headerOf input.file).imageSize.toNat ≤ x → st.buffer x = m x) := by
  refine Checked.bind (Q := fun _ st => st.image = Image.zero ∧ st.buffer = m)
    (checked_changeImage fun st hst => ⟨rfl, hst⟩) fun _ => ?_
  have hfail : ∀ (s : Status) (st : State U), (st.image = Image.zero ∧ st.buffer = m) →
      (Stop.status s ≠ .rounds ∧ st.image.loaded = false ∧
        ∀ x, (headerOf input.file).imageSize.toNat ≤ x → st.buffer x = m x) := by
    rintro s st ⟨himage, hbuffer⟩
    exact ⟨Stop.noConfusion, by rw [himage]; rfl, fun x _ => by rw [hbuffer]⟩
  refine Checked.bind (checked_validate hfail) fun info => ?_
  refine Checked.of_fact (fun _ hs => hs.1) fun ⟨hinfo, hheader⟩ => ?_
  subst hinfo
  refine Checked.ite (fun _ => checked_fail_bind fun st hst => hfail _ st hst.2) fun hrange => ?_
  have hcap : (headerOf input.file).imageSize ≤ input.capacity := UInt64.not_lt.mp hrange
  refine Checked.bind (Q := fun _ st => st.image = placedImage input ∧ st.buffer = m)
    (checked_changeImage fun st hst => ⟨rfl, hst.2.2⟩) fun _ => ?_
  refine Checked.bind (Q := fun _ st => st.image = placedImage input ∧
      st.buffer = store m 0 (List.replicate (headerOf input.file).imageSize.toNat 0))
    (checked_writeBuffer hcap (by simp) fun st hst => ⟨hst.1, by rw [hst.2]⟩) fun _ => ?_
  have hclear : ∀ x, (headerOf input.file).imageSize.toNat ≤ x →
      store m 0 (List.replicate (headerOf input.file).imageSize.toNat 0) x = m x :=
    fun x hx => store_of_outside (.inr (by simpa using hx))
  generalize store m 0 (List.replicate (headerOf input.file).imageSize.toNat 0) = clear at hclear ⊢
  -- after `k` rounds the first `k` sections are checked and lie over the zeros
  refine Checked.bind (Checked.mono (Checked.forM
    (fun k (st : State U) => (∀ i < k, SectionOk input (sectionOf input.file i)) ∧
      st.image = placedImage input ∧ st.buffer = overlay input.file clear k)
    (List.range (headerOf input.file).sectionCount.toNat) 0 ?_)
      (fun st hst => ⟨fun i hi => absurd hi (by omega), hst⟩) fun _ _ hst => hst) fun _ => ?_
  rotate_left
  · refine checked_changeImage fun st hst => ?_
    obtain ⟨hok, himage, hbuffer⟩ := hst
    rw [Nat.zero_add, List.length_range] at hok hbuffer
    rw [himage]
    exact ⟨⟨ready_placedImage hheader hcap hok, rfl⟩, hbuffer⟩
  · intro k hk
    rw [List.length_range] at hk
    have htables := hheader.tables
    have hget : (List.range (headerOf input.file).sectionCount.toNat).get
        ⟨k, by rwa [List.length_range]⟩ = k := by simp
    rw [Nat.zero_add, hget]
    refine Checked.of_fact (fun _ hs => hs.1) fun hok => ?_
    refine Checked.mono (checked_loadSection (overlay input.file clear k) (placedImage input) hcap
      (by omega) ?_) (fun st hst => hst.2) fun _ st hst => ?_
    · intro s st himage hbuffer
      refine ⟨Stop.noConfusion, by rw [himage]; rfl, fun x hx => ?_⟩
      rcases hbuffer with hbuffer | ⟨hsec, hbuffer⟩
      · rw [hbuffer, overlay_of_le hok hx, hclear x hx]
      · have himg := hsec.image
        rw [hbuffer, store_of_outside (.inr (by rw [length_sectionBytes]; omega)),
          overlay_of_le hok hx, hclear x hx]
    · refine ⟨fun i hi => ?_, hst.2⟩
      rcases Nat.lt_succ_iff_lt_or_eq.mp hi with hi | rfl
      · exact hok i hi
      · exact hst.1

/-! ## Accepted files -/

/-- The bytes of a file with zeros for its checksum. -/
def unsealed (bytes : List UInt8) : List UInt8 :=
  bytes.mapIdx fun i b => if 0x2C ≤ i ∧ i < 0x2C + 4 then 0 else b

/-- A section that `owelf_load` copies without an error. -/
structure SectionAccepted (input : Input) (sec : Section) : Prop extends SectionOk input sec where
  checksum : sec.type ≠ 0x04 →
    UInt32.ofNat (Crc.crc32c (load input.file sec.fileOffset.toNat sec.size.toNat)) = sec.checksum

/-- A file that `owelf_load` loads without an error. -/
structure Accepted (input : Input) : Prop extends HeaderOk input where
  magic : (headerOf input.file).magic = 0x4F575831
  version : (headerOf input.file).version = 1
  notEmpty : (headerOf input.file).imageSize ≠ 0
  entry : (headerOf input.file).entryPoint.toNat < (headerOf input.file).imageSize.toNat
  checksum : UInt32.ofNat (Crc.crc32c (unsealed (load input.file 0 input.size.toNat))) =
    (headerOf input.file).checksum
  fits : (headerOf input.file).imageSize ≤ input.capacity
  accepted : ∀ i < (headerOf input.file).sectionCount.toNat,
    SectionAccepted input (sectionOf input.file i)

/-- A computation without an error. -/
abbrev Succeeds (input : Input) (P : State U → Prop) (x : Loader U α) (Q : α → State U → Prop) :
    Prop := Checked (Allowed input) P x Q fun _ _ => False

/-- A test that is not met. -/
theorem Succeeds.pass {c : Prop} [Decidable c] {x y : Loader U α} (hc : ¬ c)
    (hy : Succeeds input P y Q) : Succeeds input P (if c then x else y) Q :=
  Checked.ite (fun h => absurd h hc) fun _ => hy

theorem Succeeds.pass_lt {a b : UInt64} {x y : Loader U α} (hle : b.toNat ≤ a.toNat)
    (hy : Succeeds input P y Q) : Succeeds input P (if a < b then x else y) Q :=
  .pass (UInt64.not_lt.mpr (UInt64.le_iff_toNat_le.mpr hle)) hy

theorem succeeds_parseHeader (h : Accepted input) :
    Succeeds input P (owelfParseHeader input.file input.size)
      fun info st => info = headerOf input.file ∧ P st := by
  have htables := h.tables
  have hsections := h.sections
  have himports := h.imports
  have hentry := h.entry
  refine Succeeds.pass_lt (by change 256 ≤ _; omega) ?_
  refine checked_rdU32_bind (by omega) (Succeeds.pass (not_not.mpr h.magic) ?_)
  refine checked_rdU32_bind (by omega) (Succeeds.pass (not_not.mpr h.version) ?_)
  refine checked_rdU32_bind (by omega) (checked_rdU32_bind (by omega) ?_)
  refine checked_rdU32_bind (by omega) (checked_rdU32_bind (by omega) ?_)
  refine checked_rdU32_bind (by omega) (checked_rdU64_bind (by omega) ?_)
  refine checked_rdU32_bind (by omega) (checked_rdU32_bind (by omega) ?_)
  refine checked_rdU32_bind (by omega) (checked_rdU32_bind (by omega) ?_)
  have hsections' : (headerOf input.file).sectionCount ≤ 64 := UInt32.le_iff_toNat_le.mpr hsections
  have himports' : (headerOf input.file).importCount ≤ 128 := UInt32.le_iff_toNat_le.mpr himports
  have hentry' : (headerOf input.file).entryPoint.toUInt64 < (headerOf input.file).imageSize := by
    rw [UInt64.lt_iff_toNat_lt, UInt32.toNat_toUInt64]
    exact hentry
  refine Succeeds.pass (UInt32.not_lt.mpr hsections') ?_
  refine Succeeds.pass (UInt32.not_lt.mpr himports') ?_
  refine Succeeds.pass h.notEmpty ?_
  refine Succeeds.pass (UInt64.not_le.mpr hentry') ?_
  have htable : (256 + (headerOf input.file).sectionCount.toUInt64 * 40).toNat ≤
      input.size.toNat := by
    rw [toNat_tableEnd hsections]
    omega
  have himport : (256 + (headerOf input.file).sectionCount.toUInt64 * 40 +
      (headerOf input.file).importCount.toUInt64 * 24).toNat ≤ input.size.toNat := by
    rw [toNat_importEnd hsections himports]
    omega
  refine Succeeds.pass_lt htable (Succeeds.pass_lt himport ?_)
  exact Checked.pure fun st hst => ⟨rfl, hst⟩

theorem succeeds_validate (h : Accepted input) :
    Succeeds input P (owelfValidate input.file input.size)
      fun info st => info = headerOf input.file ∧ P st := by
  refine Checked.bind_eq (succeeds_parseHeader h) ?_
  refine Checked.bind_eq (checked_readFile_bind (by omega)
    (Checked.pure fun _ hs => ⟨rfl, hs⟩)) ?_
  exact Succeeds.pass (not_not.mpr h.checksum) (Checked.pure fun st hst => ⟨rfl, hst⟩)

theorem succeeds_loadSection (h : Accepted input) {image : Image}
    (hi : i < (headerOf input.file).sectionCount.toNat) :
    Succeeds input (fun st : State U => st.image = image)
      (loadSection input.file input.size input.capacity (headerOf input.file).imageSize i)
      fun _ st => st.image = image := by
  have htables := h.tables
  obtain ⟨⟨himage, hfile⟩, hchecksum⟩ := h.accepted i hi
  refine checked_decodeSection_bind (by omega) ?_
  generalize sectionOf input.file i = sec at himage hfile hchecksum ⊢
  have hfits := UInt64.le_iff_toNat_le.mp h.fits
  have hend : (sec.virtualAddr + sec.size).toNat = sec.virtualAddr.toNat + sec.size.toNat := by
    have := (headerOf input.file).imageSize.toNat_lt
    rw [UInt64.toNat_add]
    omega
  refine Succeeds.pass_lt (by omega) ?_
  refine Succeeds.pass_lt (by omega) ?_
  refine Succeeds.pass_lt (by omega) ?_
  refine Checked.ite (fun _ => checked_writeBuffer h.fits (by simpa using himage)
    fun _ hst => hst) fun hbss => ?_
  have hfileEnd := hfile hbss
  have hfileSum : (sec.fileOffset + sec.size).toNat = sec.fileOffset.toNat + sec.size.toNat := by
    have := input.size.toNat_lt
    rw [UInt64.toNat_add]
    omega
  refine Succeeds.pass (not_or.mpr ⟨UInt64.not_lt.mpr (UInt64.le_iff_toNat_le.mpr (by omega)),
    UInt64.not_lt.mpr (UInt64.le_iff_toNat_le.mpr (by omega))⟩) ?_
  have hroom : sec.virtualAddr.toNat +
      (load input.file sec.fileOffset.toNat sec.size.toNat).length ≤
        (headerOf input.file).imageSize.toNat := by
    rw [length_load]
    exact himage
  refine checked_readFile_bind hfileEnd (Checked.bind
    (Q := fun _ st => load st.buffer sec.virtualAddr.toNat sec.size.toNat =
      load input.file sec.fileOffset.toNat sec.size.toNat ∧ st.image = image)
    (checked_writeBuffer h.fits hroom fun st hst => ⟨?_, hst⟩) fun _ => ?_)
  · have hself := load_store_self st.buffer sec.virtualAddr.toNat
      (load input.file sec.fileOffset.toNat sec.size.toNat)
    rw [length_load] at hself
    exact hself
  · refine Checked.ite (fun _ => ?_) fun _ => Checked.pure fun _ hst => hst.2
    refine Checked.bind_eq (v := load input.file sec.fileOffset.toNat sec.size.toNat)
      (Checked.lift (Spec.read ⟨h.fits, himage⟩ fun st hst => ⟨hst.1, hst⟩)) ?_
    exact Succeeds.pass (not_not.mpr (hchecksum hbss)) (Checked.pure fun _ hst => hst.2)

theorem succeeds_load (h : Accepted input) :
    Succeeds input (fun _ : State U => True) (owelfLoad input.file input.size input.capacity)
      fun _ st => st.image = { placedImage input with loaded := true } := by
  refine Checked.bind (Q := fun _ _ => True) (checked_changeImage fun _ _ => trivial) fun _ => ?_
  refine Checked.bind_eq (succeeds_validate h) (Succeeds.pass (UInt64.not_lt.mpr h.fits) ?_)
  refine Checked.bind (Q := fun _ st => st.image = placedImage input)
    (checked_changeImage fun _ _ => rfl) fun _ => ?_
  refine Checked.bind (Q := fun _ st => st.image = placedImage input)
    (checked_writeBuffer h.fits (by simp) fun _ hst => hst) fun _ => ?_
  refine Checked.bind (Checked.forM (fun _ (st : State U) => st.image = placedImage input) _ 0
    fun i hi => ?_) fun _ => checked_changeImage fun st hst => by rw [hst]
  rw [List.length_range] at hi
  have hget : (List.range (headerOf input.file).sectionCount.toNat).get
      ⟨i, by rwa [List.length_range]⟩ = i := by simp
  rw [hget]
  exact succeeds_loadSection h hi

theorem load_accepted (h : Accepted input) (st : State U) :
    Run.value (owelfLoad input.file input.size input.capacity).run st = .ok () ∧
      (Run.state (owelfLoad input.file input.size input.capacity).run st).image =
        { placedImage input with loaded := true } := by
  have hload := (succeeds_load h st trivial).2
  cases hvalue : Run.value (owelfLoad input.file input.size input.capacity).run st with
  | ok _ =>
    rw [hvalue] at hload
    exact ⟨rfl, hload⟩
  | error e =>
    rw [hvalue] at hload
    exact hload.elim

/-! ## Sealed files -/

/-- A file with its checksum put in. -/
def sealFile (file : Mem) (size : UInt64) : Mem :=
  storeNum file 0x2C 4 (Crc.crc32c (unsealed (load file 0 size.toNat)))

theorem unsealed_sealFile (file : Mem) (size : UInt64) :
    unsealed (load (sealFile file size) 0 size.toNat) = unsealed (load file 0 size.toNat) := by
  refine List.ext_getElem (by simp [unsealed]) fun i h1 h2 => ?_
  simp only [unsealed, load, List.getElem_mapIdx, List.getElem_map, List.getElem_range]
  refine if_ctx_congr Iff.rfl (fun _ => rfl) fun hi => ?_
  exact storeNum_of_outside (by omega)

theorem checksum_sealFile (file : Mem) (size : UInt64) :
    UInt32.ofNat (Crc.crc32c (unsealed (load (sealFile file size) 0 size.toNat))) =
      (headerOf (sealFile file size)).checksum := by
  have hlt : Crc.crc32c (unsealed (load file 0 size.toNat)) < 256 ^ 4 := Crc.crc32c_lt _
  have hchecksum : (headerOf (sealFile file size)).checksum =
      UInt32.ofNat (loadNum (sealFile file size) 0x2C 4) := rfl
  rw [unsealed_sealFile, hchecksum, sealFile, loadNum_storeNum_self, Nat.mod_eq_of_lt hlt]

end Owelf
