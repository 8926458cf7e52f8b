import OpenWindows.Owelf.Safety

/-!
# Relocation as changes in place

A relocation table is a list of fixups, each a place in the image and the number that is
added to it.  Where the places are apart from each other and from the table, a relocation
is one change at each place, and two of them compose place by place.  `OWELF_RELOC_HIGH`
adds the upper half of the bias, which loses the carry from the lower half.
-/

namespace Owelf

open Bytes Memory Logged

variable {U : Type} {input : Input}

/-! ## Fixups -/

/-- An entry of the relocation table. -/
structure Fixup where
  target : UInt64
  type : Nat

/-- The bytes that an entry patches. -/
def Fixup.place (f : Fixup) : Place where
  addr := f.target.toNat
  width :=
    match RelocType.ofNat f.type with
    | none => 0
    | some t => t.width

/-- What an entry makes of the number at its place. -/
def Fixup.patch (delta : Int64) (f : Fixup) (v : Nat) : Nat :=
  match RelocType.ofNat f.type with
  | none => v
  | some t => t.patch delta v

/-- The entry at an index of a block. -/
def fixupAt (m : Mem) (base : Nat) (page : UInt32) (k : Nat) : Fixup :=
  let word := loadNum m (base + 8 + k * 2) 2
  { target := page.toUInt64 + UInt64.ofNat (word % 2 ^ 12), type := word / 2 ^ 12 }

/-- The entries of the blocks from a position on. -/
def blockFixups (m : Mem) (payload : Nat) (len : UInt64) : Nat → UInt64 → List Fixup
  | 0, _ => []
  | rounds + 1, pos =>
    let page := UInt32.ofNat (loadNum m (payload + pos.toNat) 4)
    let bsize := UInt32.ofNat (loadNum m (payload + pos.toNat + 4) 4)
    if pos + 8 ≤ len ∧ 8 ≤ bsize ∧ pos + bsize.toUInt64 ≤ len then
      (List.range ((bsize.toUInt64 - 8) / 2).toNat).map (fixupAt m (payload + pos.toNat) page) ++
        blockFixups m payload len rounds (pos + bsize.toUInt64)
    else []

variable {len pos : UInt64} {m b : Mem} {payload rounds : Nat}

theorem blockFixups_of_le {bsize : UInt32}
    (hbsize : UInt32.ofNat (loadNum m (payload + pos.toNat + 4) 4) = bsize)
    (hmore : pos + 8 ≤ len) (hmin : 8 ≤ bsize) (hend : pos + bsize.toUInt64 ≤ len) :
    blockFixups m payload len (rounds + 1) pos =
      (List.range ((bsize.toUInt64 - 8) / 2).toNat).map (fixupAt m (payload + pos.toNat)
          (UInt32.ofNat (loadNum m (payload + pos.toNat) 4))) ++
        blockFixups m payload len rounds (pos + bsize.toUInt64) := by
  subst hbsize
  exact if_pos ⟨hmore, hmin, hend⟩

theorem blockFixups_of_not_le
    (hmore : ¬ pos + 8 ≤ len) : blockFixups m payload len (rounds + 1) pos = [] :=
  if_neg fun h => hmore h.1

/-- The section that holds the table. -/
def relocSection (file : Mem) : Option Section :=
  ((List.range (headerOf file).sectionCount.toNat).map (sectionOf file)).find? fun sec =>
    sec.type = 0x05

/-- Where the table stands in the image. -/
def Section.place (sec : Section) : Place := ⟨sec.virtualAddr.toNat, sec.size.toNat⟩

/-- The entries of a table. -/
def Section.fixups (sec : Section) (m : Mem) : List Fixup :=
  blockFixups m sec.virtualAddr.toNat sec.size (sec.size.toNat / 8 + 1) 0

def imageFixups (file m : Mem) : List Fixup :=
  match relocSection file with
  | none => []
  | some sec => sec.fixups m

def TargetsApart (file m : Mem) : Prop :=
  ∀ sec, relocSection file = some sec →
    PairwiseApart Fixup.place (sec.fixups m) ∧
      ∀ f ∈ sec.fixups m, f.place.Apart sec.place

/-! ## The walk over the table -/

def State.withBuffer (st : State U) (b : Mem) : State U := { st with buffer := b }

variable {st : State U}

theorem gives_readBuffer {a n : Nat} {bs : List UInt8}
    (h : load st.buffer a n = bs) : Gives (readBuffer a n) st bs st := h ▸ Gives.lift _ st

theorem gives_fail_bind {α β : Type} {s : Status} {f : α → Loader U β} {st' : State U} {b : β} :
    Gives ((fail s : Loader U α) >>= f) st b st' := Gives.bind_throw _

theorem Fixup.change_eq {f : Fixup} {t : RelocType} (htype : RelocType.ofNat f.type = some t)
    (delta : Int64) (b : Mem) :
    change Fixup.place (Fixup.patch delta) b f =
      store b f.target.toNat
        (leBytes t.width (t.patch delta (leNum (load b f.target.toNat t.width)))) := by
  have hplace : f.place = ⟨f.target.toNat, t.width⟩ := by
    rw [Fixup.place, htype]
  rw [change, hplace, Fixup.patch, htype]
  rfl

theorem gives_applyReloc (st : State U) (b : Mem) (f : Fixup) (delta : Int64) :
    Gives (owelfApplyReloc f.target f.type delta) (st.withBuffer b) ()
      (st.withBuffer (change Fixup.place (Fixup.patch delta) b f)) := by
  unfold owelfApplyReloc
  split
  · exact Gives.throw _
  next htype =>
    rw [Fixup.change_eq htype]
    have hempty : store b f.target.toNat [] = b :=
      funext fun x => store_of_outside (Nat.lt_or_ge x _)
    exact hempty.symm ▸ Gives.pure () _
  next t _ htype =>
    rw [Fixup.change_eq htype]
    refine Gives.bind (Gives.lift _ _) (Gives.ite (fun _ => gives_fail_bind) fun _ => ?_)
    exact Gives.bind (gives_readBuffer rfl) (Gives.lift _ _)

theorem load_table {len : Nat}
    (hsame : SameOn (Place.mk payload len).Covers m b) (pos k n : Nat) (hk : pos + k + n ≤ len) :
    load b (payload + pos + k) n = load m (payload + pos + k) n :=
  hsame.load_eq fun x h1 h2 =>
    ⟨by change payload ≤ x; omega, by change x < payload + len; omega⟩

theorem gives_relocEntries {table : Place} (st : State U) {base : Nat} (page : UInt32)
    (delta : Int64) (ks : List Nat)
    (hword : ∀ k ∈ ks, table.addr ≤ base + 8 + k * 2 ∧
      base + 8 + k * 2 + 2 ≤ table.addr + table.width)
    (hapart : ∀ k ∈ ks, (fixupAt m base page k).place.Apart table)
    (hsame : SameOn table.Covers m b) :
    Gives (ks.forM (relocEntry base page delta)) (st.withBuffer b) ()
      (st.withBuffer (changeAll Fixup.place (Fixup.patch delta) b
        (ks.map (fixupAt m base page)))) := by
  induction ks generalizing b with
  | nil => exact Gives.pure () _
  | cons k ks ih =>
    have hread : load b (base + 8 + k * 2) 2 = load m (base + 8 + k * 2) 2 := by
      have hspan := hword k List.mem_cons_self
      refine hsame.load_eq fun x h1 h2 => ⟨by omega, by omega⟩
    have hentry : Gives (relocEntry base page delta k) (st.withBuffer b) ()
        (st.withBuffer (change Fixup.place (Fixup.patch delta) b (fixupAt m base page k))) := by
      exact Gives.bind (gives_readBuffer hread)
        (gives_applyReloc st b (fixupAt m base page k) delta)
    refine Gives.bind hentry (ih (fun j hj => hword j (List.mem_cons_of_mem k hj))
      (fun j hj => hapart j (List.mem_cons_of_mem k hj)) fun x hx => ?_)
    rw [← hsame x hx]
    exact Place.set_of_outside fun hcovers => hapart k List.mem_cons_self x hcovers hx

theorem gives_relocBlocks (st : State U)
    (hlen : len.toNat ≤ 2 ^ 63) (delta : Int64) (hpos : pos ≤ len)
    (hapart : ∀ f ∈ blockFixups m payload len rounds pos,
      f.place.Apart ⟨payload, len.toNat⟩)
    (hsame : SameOn (Place.mk payload len.toNat).Covers m b) :
    Gives (relocBlocks payload len delta rounds pos) (st.withBuffer b) ()
      (st.withBuffer (changeAll Fixup.place (Fixup.patch delta) b
        (blockFixups m payload len rounds pos))) := by
  induction rounds generalizing pos b with
  | zero => exact Gives.throw _
  | succ rounds ih =>
    rw [relocBlocks]
    refine Gives.ite (fun hmore => ?_) fun hmore => ?_
    · have hmore' := toNat_head_le hlen hpos hmore
      refine Gives.bind (gives_readBuffer (load_table hsame pos.toNat 0 4 (by omega)))
        (Gives.bind (gives_readBuffer (load_table hsame pos.toNat 4 4 (by omega))) ?_)
      obtain ⟨bsize, hbsize⟩ : ∃ bsize, UInt32.ofNat
          (leNum (load m (payload + pos.toNat + 4) 4)) = bsize := ⟨_, rfl⟩
      rw [hbsize]
      refine Gives.ite (fun _ => gives_fail_bind) fun hblock => ?_
      rw [not_or] at hblock
      have hmin := UInt32.not_lt.mp hblock.1
      have hend := UInt64.not_lt.mp hblock.2
      obtain ⟨hmin', hnext, hstop, hcount⟩ := blockFits hlen hpos hmin hend
      rw [blockFixups_of_le hbsize hmore hmin hend] at hapart ⊢
      rw [changeAll_append]
      refine Gives.bind (gives_relocEntries st _ delta _ (fun k hk => ?_) (fun k hk => ?_) hsame)
        (ih hend (fun f hf => hapart f (List.mem_append_right _ hf)) ?_)
      · rw [hcount] at hk
        have hk' := List.mem_range.mp hk
        exact ⟨by change payload ≤ _; omega, by change _ ≤ payload + len.toNat; omega⟩
      · exact hapart _ (List.mem_append_left _ (List.mem_map_of_mem hk))
      · exact sameOn_changeAll hsame fun f hf => hapart f (List.mem_append_left _ hf)
    · rw [blockFixups_of_not_le hmore]
      exact Gives.ite (fun _ => Gives.throw _) fun _ => Gives.pure () _

/-- The entries depend on the table only. -/
theorem blockFixups_congr {m' : Mem}
    (hlen : len.toNat ≤ 2 ^ 63) (hsame : SameOn (Place.mk payload len.toNat).Covers m m')
    (hpos : pos ≤ len) :
    blockFixups m' payload len rounds pos = blockFixups m payload len rounds pos := by
  induction rounds generalizing pos with
  | zero => rfl
  | succ rounds ih =>
    by_cases hmore : pos + 8 ≤ len
    · have hmore' := toNat_head_le hlen hpos hmore
      have hpage : loadNum m' (payload + pos.toNat) 4 = loadNum m (payload + pos.toNat) 4 :=
        congrArg leNum (load_table hsame pos.toNat 0 4 (by omega))
      have hsize : loadNum m' (payload + pos.toNat + 4) 4 =
          loadNum m (payload + pos.toNat + 4) 4 :=
        congrArg leNum (load_table hsame pos.toNat 4 4 (by omega))
      simp only [blockFixups, hpage, hsize]
      generalize UInt32.ofNat (loadNum m (payload + pos.toNat + 4) 4) = bsize
      refine if_ctx_congr Iff.rfl (fun hblock => ?_) fun _ => rfl
      obtain ⟨-, hmin, hend⟩ := hblock
      obtain ⟨hmin', hnext, hstop, hcount⟩ := blockFits hlen hpos hmin hend
      rw [ih hend]
      congr 1
      refine List.map_congr_left fun k hk => ?_
      rw [hcount] at hk
      have hk' := List.mem_range.mp hk
      have hword : loadNum m' (payload + pos.toNat + 8 + k * 2) 2 =
          loadNum m (payload + pos.toNat + 8 + k * 2) 2 := by
        have hspan := load_table hsame pos.toNat (8 + k * 2) 2 (by omega)
        rw [← Nat.add_assoc] at hspan
        exact congrArg leNum hspan
      rw [fixupAt, fixupAt, hword]
    · rw [blockFixups_of_not_le hmore, blockFixups_of_not_le hmore]

/-! ## A relocation -/

theorem gives_findSection (st : State U) (file : Mem) (type : UInt32) (is : List Nat) :
    Gives (owelfFindSection file 256 type is) st
      ((is.map (sectionOf file)).find? fun sec => sec.type = type) st := by
  induction is with
  | nil => exact Gives.pure _ st
  | cons i is ih =>
    have hdecode : Gives (owelfDecodeSection file 256 i) st (sectionOf file i) st :=
      fun r hr => ⟨(Except.ok.inj hr).symm, rfl⟩
    rw [owelfFindSection, List.map_cons, List.find?_cons]
    refine Gives.bind hdecode ?_
    by_cases htype : (sectionOf file i).type = type
    · rw [if_pos htype, decide_eq_true htype]
      exact Gives.pure _ st
    · rw [if_neg htype, decide_eq_false htype]
      exact ih

def State.relocated (file : Mem) (delta : Int64) (st : State U) : State U :=
  { st with
    buffer := changeAll Fixup.place (Fixup.patch delta) st.buffer (imageFixups file st.buffer)
    image := { st.image with delta := st.image.delta + delta } }

theorem relocSection_size {image : Image} (hready : Ready input image) {sec : Section}
    (hsec : relocSection input.file = some sec) : sec.size.toNat ≤ 2 ^ 63 := by
  have htype : sec.type = 0x05 := by
    have h := List.find?_some (p := fun sec : Section => decide (sec.type = 0x05)) hsec
    exact of_decide_eq_true h
  obtain ⟨i, hi, rfl⟩ := List.mem_map.mp (List.mem_of_find?_eq_some hsec)
  have hok := hready.sections i (List.mem_range.mp hi)
  have himage := hok.image
  have hfile := hok.file (by rw [htype]; decide)
  have hfits := input.fits
  have hcap := UInt64.le_iff_toNat_le.mp hready.fits
  omega

theorem gives_relocate (hready : Ready input st.image)
    (hapart : TargetsApart input.file st.buffer) (delta : Int64) :
    Gives (owelfRelocate input.file delta) st () (st.relocated input.file delta) := by
  have hfind := gives_findSection st input.file 0x05
    (List.range (headerOf input.file).sectionCount.toNat)
  rw [← hready.header, ← hready.sectionTable] at hfind
  have hsection : ((List.range st.image.header.sectionCount.toNat).map
      (sectionOf input.file)).find? (fun sec => decide (sec.type = 0x05)) =
      relocSection input.file := by
    rw [relocSection, hready.header]
  rw [hsection] at hfind
  refine Gives.bind (Gives.lift _ st) (Gives.ite (fun _ => gives_fail_bind) fun _ => ?_)
  refine Gives.bind hfind ?_
  unfold State.relocated imageFixups
  cases hsec : relocSection input.file with
  | none => exact Gives.lift _ st
  | some sec =>
    refine Gives.bind (gives_relocBlocks st (relocSection_size hready hsec) delta
      (UInt64.le_iff_toNat_le.mpr (Nat.zero_le _)) (hapart sec hsec).2
      (SameOn.refl _ st.buffer)) ?_
    exact Gives.lift _ _

/-! ## Two relocations -/

/-- The lower halves of two biases add up without a carry. -/
def NoCarry (d d' : Int64) : Prop :=
  d.toUInt64.toNat % 2 ^ 16 + d'.toUInt64.toNat % 2 ^ 16 < 2 ^ 16

instance (d d' : Int64) : Decidable (NoCarry d d') := inferInstanceAs (Decidable (_ < _))

/-- What a type adds to its number. -/
def RelocType.bias (delta : Int64) : RelocType → Nat
  | .high => delta.toUInt64.toNat / 2 ^ 16
  | _ => delta.toUInt64.toNat

theorem RelocType.patch_mod (t : RelocType) (delta : Int64) (v : Nat) :
    t.patch delta v % 256 ^ t.width = (v + t.bias delta) % 256 ^ t.width := by
  cases t with
  | absolute => rw [width, Nat.pow_zero, Nat.mod_one, Nat.mod_one]
  | high =>
    have hupper : (delta.toUInt64 >>> 16).toNat = delta.toUInt64.toNat / 2 ^ 16 := by
      rw [UInt64.toNat_shiftRight, Nat.shiftRight_eq_div_pow]
      rfl
    simp only [patch, bias, width, UInt16.toNat_add, UInt16.toNat_ofNat', UInt64.toNat_toUInt16,
      hupper]
    omega
  | low =>
    have hlow : (delta.toUInt64 &&& 0xFFFF).toNat = delta.toUInt64.toNat % 2 ^ 16 :=
      Nat.and_two_pow_sub_one_eq_mod _ 16
    simp only [patch, bias, width, UInt16.toNat_add, UInt16.toNat_ofNat', UInt64.toNat_toUInt16,
      hlow]
    omega
  | highlow =>
    have hlow : (delta.toUInt64 &&& 0xFFFFFFFF).toNat = delta.toUInt64.toNat % 2 ^ 32 :=
      Nat.and_two_pow_sub_one_eq_mod _ 32
    simp only [patch, bias, width, UInt32.toNat_add, UInt32.toNat_ofNat', UInt64.toNat_toUInt32,
      hlow]
    omega
  | dir64 =>
    simp only [patch, bias, width, UInt64.toNat_add, UInt64.toNat_ofNat']
    omega

theorem RelocType.patch_patch_iff (t : RelocType) (d d' : Int64) (v : Nat) :
    t.patch d' (t.patch d v % 256 ^ t.width) % 256 ^ t.width =
        t.patch (d + d') v % 256 ^ t.width ↔
      (t = .high → NoCarry d d') := by
  have hd := d.toUInt64.toNat_lt
  have hd' := d'.toUInt64.toNat_lt
  have hsum : (d + d').toUInt64.toNat = (d.toUInt64.toNat + d'.toUInt64.toNat) % 2 ^ 64 := by
    rw [Int64.toUInt64_add, UInt64.toNat_add]
  rw [patch_mod, patch_mod, patch_mod, NoCarry]
  cases t with
  | high =>
    simp only [bias, width, hsum, true_implies]
    omega
  | absolute | low | highlow | dir64 =>
    simp only [bias, width, hsum, reduceCtorEq, false_implies, iff_true]
    omega

theorem Fixup.patch_patch_iff (f : Fixup) (d d' : Int64) (v : Nat) :
    f.patch d' (f.patch d v % 256 ^ f.place.width) % 256 ^ f.place.width =
        f.patch (d + d') v % 256 ^ f.place.width ↔
      (f.type = 1 → NoCarry d d') := by
  have htype : f.type = 1 ↔ RelocType.ofNat f.type = some .high := by
    unfold RelocType.ofNat
    split <;> simp_all
  rw [htype, place]
  unfold patch
  cases RelocType.ofNat f.type with
  | none => simp [Nat.mod_one]
  | some t =>
    rw [Option.some.injEq]
    exact t.patch_patch_iff d d' v

theorem Fixup.patch_zero (f : Fixup) (v : Nat) :
    f.patch 0 v % 256 ^ f.place.width = v % 256 ^ f.place.width := by
  rw [place]
  unfold patch
  cases RelocType.ofNat f.type with
  | none => rfl
  | some t =>
    have hbias : t.bias 0 = 0 := by cases t <;> rfl
    exact (t.patch_mod 0 v).trans (by rw [hbias, Nat.add_zero])

theorem imageFixups_relocated (hready : Ready input st.image)
    (hapart : TargetsApart input.file st.buffer) (delta : Int64) :
    imageFixups input.file (st.relocated input.file delta).buffer =
      imageFixups input.file st.buffer := by
  unfold State.relocated imageFixups
  cases hsec : relocSection input.file with
  | none => rfl
  | some sec =>
    refine blockFixups_congr (relocSection_size hready hsec) ?_
      (UInt64.le_iff_toNat_le.mpr (Nat.zero_le _))
    exact sameOn_changeAll (SameOn.refl _ st.buffer) (hapart sec hsec).2

theorem pairwiseApart_imageFixups {file : Mem} (hapart : TargetsApart file m) :
    PairwiseApart Fixup.place (imageFixups file m) := by
  unfold imageFixups
  cases hsec : relocSection file with
  | none => exact List.Pairwise.nil
  | some sec => exact (hapart sec hsec).1

theorem relocated_relocated_iff (hready : Ready input st.image)
    (hapart : TargetsApart input.file st.buffer) (d d' : Int64) :
    (st.relocated input.file d).relocated input.file d' = st.relocated input.file (d + d') ↔
      ∀ f ∈ imageFixups input.file st.buffer, f.type = 1 → NoCarry d d' := by
  have hpairwise := pairwiseApart_imageFixups hapart
  have hfixups := imageFixups_relocated hready hapart d
  have hdelta : st.image.delta + d + d' = st.image.delta + (d + d') := Int64.add_assoc ..
  have hbuffer := changeAll_changeAll_eq_iff (f := Fixup.patch d) (g := Fixup.patch d')
    (h := Fixup.patch (d + d')) (m := st.buffer) hpairwise
  have hstate : (st.relocated input.file d).relocated input.file d' =
        st.relocated input.file (d + d') ↔
      changeAll Fixup.place (Fixup.patch d') (changeAll Fixup.place (Fixup.patch d) st.buffer
          (imageFixups input.file st.buffer)) (imageFixups input.file st.buffer) =
        changeAll Fixup.place (Fixup.patch (d + d')) st.buffer
          (imageFixups input.file st.buffer) := by
    rw [State.relocated, hfixups]
    simp [State.relocated, hdelta]
  rw [hstate, hbuffer]
  exact forall₂_congr fun f _ => f.patch_patch_iff d d' _

theorem relocated_zero (hapart : TargetsApart input.file st.buffer) :
    st.relocated input.file 0 = st := by
  have hbuffer := changeAll_eq_self (f := Fixup.patch 0) (pairwiseApart_imageFixups hapart)
    fun f _ => (f.patch_zero _).trans (Nat.mod_eq_of_lt (f.place.get_lt st.buffer))
  have hdelta : st.image.delta + 0 = st.image.delta := Int64.add_zero _
  rw [State.relocated, hbuffer, hdelta]

def Relocates (input : Input) (delta : Int64) (st st' : State U) : Prop :=
  Run.value ((Call.relocate delta).run input).run st = .ok () ∧
    Run.state ((Call.relocate delta).run input).run st = st'

theorem Relocates.eq {st' : State U} {delta : Int64} (h : Relocates input delta st st')
    (hready : Ready input st.image) (hapart : TargetsApart input.file st.buffer) :
    st' = st.relocated input.file delta :=
  h.2.symm.trans (gives_relocate hready hapart delta () h.1).2

theorem Relocates.of_ok {delta : Int64} (hready : Ready input st.image)
    (hapart : TargetsApart input.file st.buffer)
    (hok : Run.value ((Call.relocate delta).run input).run st = .ok ()) :
    Relocates input delta st (st.relocated input.file delta) :=
  ⟨hok, (gives_relocate hready hapart delta () hok).2⟩

theorem TargetsApart.relocated (hready : Ready input st.image)
    (hapart : TargetsApart input.file st.buffer) (delta : Int64) :
    TargetsApart input.file (st.relocated input.file delta).buffer := by
  intro sec hsec
  have hfixups := imageFixups_relocated hready hapart delta
  unfold imageFixups at hfixups
  simp only [hsec] at hfixups
  rw [hfixups]
  exact hapart sec hsec

/-! ## An image with an upper half -/

/-- A block with an `OWELF_RELOC_HIGH` at 12 and an `OWELF_RELOC_DIR64` at 14. -/
def tableBytes : List UInt8 := [0, 0, 0, 0, 12, 0, 0, 0, 0x0C, 0x10, 0x0E, 0x40]

def tableHeader (checksum : UInt32) : HeaderInfo where
  magic := 0x4F575831
  version := 1
  flags := 0
  entryPoint := 0
  sectionCount := 1
  importCount := 0
  exportCount := 0
  imageSize := 22
  stackSize := 0
  heapSize := 0
  checksum := checksum
  subsystem := 0

def tableSection : Section where
  type := 0x05
  flags := 0
  virtualAddr := 0
  fileOffset := 296
  size := 12
  checksum := 0x229343
  reserved := 0

def tableFile : Mem :=
  store (store (store (fun _ => 0) 0
    [0x31, 0x58, 0x57, 0x4F, 1, 0, 0, 0, 0, 0, 0, 0, 0, 0, 0, 0, 1, 0, 0, 0, 0, 0, 0, 0, 0, 0, 0, 0, 22])
    256 [5, 0, 0, 0, 0, 0, 0, 0, 0, 0, 0, 0, 0, 0, 0, 0, 0x28, 1, 0, 0, 0, 0, 0, 0,
      12, 0, 0, 0, 0, 0, 0, 0, 0x43, 0x93, 0x22])
    296 tableBytes

def tableInput : Input where
  file := sealFile tableFile 308
  size := 308
  capacity := 22
  fits := by decide

def tableState : State Unit where
  buffer := store (store (fun _ => 0) 0 (List.replicate 22 0)) 0 tableBytes
  image := { placedImage tableInput with loaded := true }
  user := ()

theorem headerOf_tableInput :
    headerOf tableInput.file = tableHeader (headerOf tableInput.file).checksum := rfl

theorem sectionOf_tableInput : sectionOf tableInput.file 0 = tableSection := rfl

theorem load_tableInput : load tableInput.file 296 12 = tableBytes := by decide

theorem accepted_tableInput : Accepted tableInput := by
  have hheader := headerOf_tableInput
  have hcrc : UInt32.ofNat (Crc.crc32c tableBytes) = 0x229343 := by
    rw [Crc.crc32c_eq]
    decide
  have hsection : SectionAccepted tableInput tableSection := by
    refine ⟨⟨?_, fun _ => ?_⟩, fun _ => ?_⟩
    · rw [hheader]
      decide
    · decide
    · exact (congrArg (fun bs => UInt32.ofNat (Crc.crc32c bs)) load_tableInput).trans hcrc
  constructor
  case accepted =>
    intro i hi
    rw [hheader] at hi
    obtain rfl : i = 0 := Nat.lt_one_iff.mp hi
    exact sectionOf_tableInput ▸ hsection
  case checksum => exact checksum_sealFile tableFile 308
  case toHeaderOk =>
    constructor <;> rw [hheader] <;> decide
  all_goals
    rw [hheader]
    decide

theorem reached_tableState : Reached tableInput tableState := by
  have hcount : (headerOf tableInput.file).sectionCount.toNat = 1 := by
    rw [headerOf_tableInput]
    rfl
  have hsize : (headerOf tableInput.file).imageSize.toNat = 22 := by
    rw [headerOf_tableInput]
    rfl
  have hbytes : sectionBytes tableInput.file tableSection = tableBytes := load_tableInput
  have hstate : loadedState tableInput = tableState := by
    rw [loadedState, hcount, hsize, overlay, overlay, sectionOf_tableInput, hbytes]
    rfl
  exact hstate ▸ accepted_tableInput.reached

theorem imageFixups_tableState :
    imageFixups tableInput.file tableState.buffer = [⟨12, 1⟩, ⟨14, 4⟩] := rfl

theorem targetsApart_tableState : TargetsApart tableInput.file tableState.buffer := by
  intro sec hsec
  obtain rfl : tableSection = sec := Option.some.inj hsec
  have hfixups : tableSection.fixups tableState.buffer = [⟨12, 1⟩, ⟨14, 4⟩] := imageFixups_tableState
  rw [hfixups]
  constructor
  · refine List.pairwise_pair.mpr fun x hx hx' => ?_
    have h1 : x < 12 + 2 := hx.2
    have h2 : 14 ≤ x := hx'.1
    omega
  · intro f hf x hx hx'
    have hlow : 12 ≤ x := by
      rcases List.mem_pair.mp hf with rfl | rfl
      · exact hx.1
      · exact Nat.le_trans (by decide) hx.1
    have hhigh : x < 0 + 12 := hx'.2
    omega

theorem relocates_tableState :
    let st1 := tableState.relocated tableInput.file 0x8000
    Relocates tableInput 0x8000 tableState st1 ∧
      Relocates tableInput 0x8000 st1 (st1.relocated tableInput.file 0x8000) ∧
      Relocates tableInput (0x8000 + 0x8000) tableState
        (tableState.relocated tableInput.file (0x8000 + 0x8000)) := by
  have hready : Ready tableInput tableState.image := reached_tableState.ready rfl
  have hapart := targetsApart_tableState
  exact ⟨.of_ok hready hapart (by decide),
    .of_ok { hready with } (TargetsApart.relocated hready hapart _) (by decide),
    .of_ok hready hapart (by decide)⟩

/-- In every loaded image whose targets are apart, two relocations that succeed leave the
state of one by their sum exactly when no `OWELF_RELOC_HIGH` entry misses a carry.  So do a
bias and its opposite, which leave the state as it was. -/
theorem relocate_compose {st st1 st2 st' : State U} {d d' : Int64} (hst : Reached input st)
    (hloaded : st.image.loaded = true) (hapart : TargetsApart input.file st.buffer)
    (h1 : Relocates input d st st1) (h2 : Relocates input d' st1 st2)
    (h : Relocates input (d + d') st st') :
    (st2 = st' ↔ ∀ f ∈ imageFixups input.file st.buffer, f.type = 1 → NoCarry d d') ∧
      (d + d' = 0 →
        (st2 = st ↔ ∀ f ∈ imageFixups input.file st.buffer, f.type = 1 → NoCarry d d')) := by
  have hready := hst.ready hloaded
  obtain rfl := h1.eq hready hapart
  have hready' : Ready input (st.relocated input.file d).image := { hready with }
  obtain rfl := h2.eq hready' (TargetsApart.relocated hready hapart d)
  obtain rfl := h.eq hready hapart
  refine ⟨relocated_relocated_iff hready hapart d d', fun hzero => ?_⟩
  rw [← relocated_relocated_iff hready hapart d d', hzero, relocated_zero hapart]

/-- By half of `2 ^ 16` twice there is a carry. -/
theorem relocate_compose_table :
    let st1 := tableState.relocated tableInput.file 0x8000
    st1.relocated tableInput.file 0x8000 ≠
      tableState.relocated tableInput.file (0x8000 + 0x8000) := by
  intro st1 heq
  obtain ⟨h1, h2, h⟩ := relocates_tableState
  have hcarry := (relocate_compose reached_tableState rfl targetsApart_tableState h1 h2 h).1.mp heq
  rw [imageFixups_tableState] at hcarry
  have hnocarry : NoCarry 0x8000 0x8000 := hcarry ⟨12, 1⟩ List.mem_cons_self rfl
  exact absurd hnocarry (by decide)

/-- The upper half of the sum is one more than the sum of the upper halves. -/
theorem relocate_carries :
    ∃ st1 st2 st' : State Unit, Reached tableInput tableState ∧ tableState.image.loaded = true ∧
      TargetsApart tableInput.file tableState.buffer ∧ Relocates tableInput 0x8000 tableState st1 ∧
      Relocates tableInput 0x8000 st1 st2 ∧ Relocates tableInput (0x8000 + 0x8000) tableState st' ∧
      st2.buffer ≠ st'.buffer := by
  obtain ⟨h1, h2, h⟩ := relocates_tableState
  refine ⟨_, _, _, reached_tableState, rfl, targetsApart_tableState, h1, h2, h, fun heq => ?_⟩
  have hbyte := congrFun heq 12
  exact absurd hbyte (by decide)

end Owelf
