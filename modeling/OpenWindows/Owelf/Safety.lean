import OpenWindows.Owelf.Load

/-!
# What the loader touches

Relocations and imports work on an image that a load has left, so the bounds that
the load checked still hold.  The relocation table is read from the buffer while it
is patched: nothing is assumed of what a read gives, only that a block does not reach
past the section.  Every sequence of calls stays within the file and the image.
-/

namespace Owelf

open Bytes Memory Logged

variable {U α β : Type} {input : Input} {m : Mem} {image : Image}

/-- Past `image_size` the buffer is as it was. -/
def Untouched (input : Input) (m : Mem) (st : State U) : Prop :=
  ∀ x, (headerOf input.file).imageSize.toNat ≤ x → st.buffer x = m x

/-- Between calls: a loaded image is what a load left. -/
def Inv (input : Input) (m : Mem) (st : State U) : Prop :=
  (st.image.loaded = true → Ready input st.image) ∧ Untouched input m st

/-- Inside a call: the image stays. -/
def Kept (input : Input) (m : Mem) (image : Image) (st : State U) : Prop :=
  st.image = image ∧ Untouched input m st

/-- A call ends with a status, and the image stays. -/
def Ended (input : Input) (m : Mem) (image : Image) (e : Stop) (st : State U) : Prop :=
  e ≠ .rounds ∧ Kept input m image st

theorem Kept.ended {st : State U} (h : Kept input m image st) (s : Status) :
    Ended input m image (.status s) st := ⟨Stop.noConfusion, h⟩

variable {Q : β → State U → Prop} {E : Stop → State U → Prop}

theorem kept_fail_bind {s : Status} {f : α → Loader U β} :
    Checked (Allowed input) (Kept input m image) (fail s >>= f) Q (Ended input m image) :=
  checked_fail_bind fun _ hst => hst.ended s

theorem kept_fail {s : Status} {Q : α → State U → Prop} :
    Checked (Allowed input) (Kept input m image) (fail s : Loader U α) Q (Ended input m image) :=
  checked_fail fun _ hst => hst.ended s

theorem kept_getImage_bind {f : Image → Loader U β}
    (hf : Checked (Allowed input) (Kept input m image) (f image) Q E) :
    Checked (Allowed input) (Kept input m image) (getImage >>= f) Q E :=
  Checked.bind_eq (Checked.lift (Spec.look fun _ hst => ⟨hst.1, hst⟩)) hf

theorem kept_writeBuffer {a : Nat} {bs : List UInt8} (hcap : (headerOf input.file).imageSize ≤ input.capacity)
    (h : a + bs.length ≤ (headerOf input.file).imageSize.toNat) :
    Checked (Allowed input) (Kept input m image) (writeBuffer a bs : Loader U Unit)
      (fun _ => Kept input m image) (Ended input m image) := by
  refine checked_writeBuffer hcap h fun st hst => ⟨hst.1, fun x hx => ?_⟩
  rw [← hst.2 x hx]
  exact store_of_outside (.inr (by omega))

theorem kept_forM {body : Nat → Loader U Unit} (n : Nat)
    (h : ∀ i < n, Checked (Allowed input) (Kept input m image) (body i)
      (fun _ => Kept input m image) (Ended input m image)) :
    Checked (Allowed input) (Kept input m image) ((List.range n).forM body)
      (fun _ => Kept input m image) (Ended input m image) := by
  refine Checked.forM (fun _ => Kept input m image) (List.range n) 0 fun i hi => ?_
  have hi' : i < n := by rwa [List.length_range] at hi
  have hget : (List.range n).get ⟨i, hi⟩ = i := by simp
  rw [hget]
  exact h i hi'

theorem checked_loaded {f : Image → Loader U Unit}
    (hf : ∀ image, image.loaded = true → Ready input image →
      Checked (Allowed input) (Kept input m image) (f image) (fun _ => Inv input m)
        (Ended input m image)) :
    Checked (Allowed input) (Inv input m)
      (do
        let image ← getImage
        if !image.loaded then fail .errNotLoaded
        f image)
      (fun _ => Inv input m) (fun e st => e ≠ .rounds ∧ Inv input m st) := by
  refine Checked.bind (Q := fun image st => (image.loaded = true → Ready input image) ∧
      Kept input m image st)
    (Checked.lift (Spec.look fun st hst => ⟨hst.1, rfl, hst.2⟩)) fun image => ?_
  refine Checked.of_fact (fun _ hs => hs.1) fun hready => ?_
  refine Checked.ite (fun _ => checked_fail_bind fun st hst => ?_) fun hloaded => ?_
  · obtain ⟨-, rfl, hst⟩ := hst
    exact ⟨Stop.noConfusion, hready, hst⟩
  · have hl : image.loaded = true := by simpa using hloaded
    refine Checked.mono (Checked.mono_error (hf image hl (hready hl)) fun e st hst => ?_)
      (fun st hst => hst.2) fun _ _ hst => hst
    obtain ⟨hne, rfl, hst⟩ := hst
    exact ⟨hne, hready, hst⟩

/-! ## Relocations -/

theorem kept_findSection (hready : Ready input image) (type : UInt32) {is : List Nat}
    (his : ∀ i ∈ is, i < (headerOf input.file).sectionCount.toNat) :
    Checked (Allowed input) (Kept input m image)
      (owelfFindSection input.file image.sectionTableOff type is : Loader U (Option Section))
      (fun r st => (∀ sec, r = some sec → SectionOk input sec ∧ sec.type = type) ∧
        Kept input m image st) (Ended input m image) := by
  have htables := hready.headerOk.tables
  induction is with
  | nil => exact Checked.pure fun st hst => ⟨fun _ h => (nomatch h), hst⟩
  | cons i is ih =>
    have hi := his i List.mem_cons_self
    rw [owelfFindSection, hready.sectionTable]
    refine checked_decodeSection_bind (by omega) (Checked.ite (fun htype => ?_) fun _ => ?_)
    · refine Checked.pure fun st hst => ⟨fun sec hsec => ?_, hst⟩
      cases hsec
      exact ⟨hready.sections i hi, htype⟩
    · have hrest := ih fun j hj => his j (List.mem_cons_of_mem i hj)
      rwa [hready.sectionTable] at hrest

theorem kept_applyReloc (hready : Ready input image) (target : UInt64) (type : Nat)
    (delta : Int64) :
    Checked (Allowed input) (Kept input m image) (owelfApplyReloc target type delta : Loader U Unit)
      (fun _ => Kept input m image) (Ended input m image) := by
  unfold owelfApplyReloc
  split
  · exact kept_fail
  · exact Checked.pure fun _ hst => hst
  next t _ _ =>
    refine kept_getImage_bind (Checked.ite (fun _ => kept_fail_bind) fun hrange => ?_)
    rw [not_or, not_or, hready.header] at hrange
    have hend := UInt64.le_iff_toNat_le.mp (UInt64.not_lt.mp hrange.2.1)
    have hwidth : (UInt64.ofNat t.width).toNat = t.width := by cases t <;> rfl
    rw [toNat_add_of_le hrange.1, hwidth] at hend
    refine checked_readBuffer_bind hready.fits hend fun v _ => ?_
    exact kept_writeBuffer hready.fits (by rw [length_leBytes]; exact hend)

variable {len pos : UInt64}

theorem toNat_head_le (hlen : len.toNat ≤ 2 ^ 63) (hpos : pos ≤ len)
    (hmore : pos + 8 ≤ len) : pos.toNat + 8 ≤ len.toNat := by
  have hpos' := UInt64.le_iff_toNat_le.mp hpos
  have h := UInt64.le_iff_toNat_le.mp hmore
  rw [UInt64.toNat_add] at h
  change (pos.toNat + 8) % 2 ^ 64 ≤ len.toNat at h
  omega

/-- The size of a block that does not reach past the table. -/
structure BlockFits (len pos : UInt64) (bsize : UInt32) : Prop where
  min : 8 ≤ bsize.toNat
  next : (pos + bsize.toUInt64).toNat = pos.toNat + bsize.toNat
  stop : pos.toNat + bsize.toNat ≤ len.toNat
  count : ((bsize.toUInt64 - 8) / 2).toNat = (bsize.toNat - 8) / 2

theorem blockFits {bsize : UInt32} (hlen : len.toNat ≤ 2 ^ 63)
    (hpos : pos ≤ len) (hmin : 8 ≤ bsize) (hend : pos + bsize.toUInt64 ≤ len) :
    BlockFits len pos bsize := by
  have hpos' := UInt64.le_iff_toNat_le.mp hpos
  have hmin' : 8 ≤ bsize.toNat := UInt32.le_iff_toNat_le.mp hmin
  have hsize := bsize.toNat_lt
  have hsum : (pos + bsize.toUInt64).toNat = pos.toNat + bsize.toNat := by
    rw [UInt64.toNat_add, UInt32.toNat_toUInt64]
    omega
  refine ⟨hmin', hsum, hsum ▸ UInt64.le_iff_toNat_le.mp hend, ?_⟩
  rw [UInt64.toNat_div, UInt64.toNat_sub_of_le, UInt32.toNat_toUInt64]
  · rfl
  · rw [UInt64.le_iff_toNat_le, UInt32.toNat_toUInt64]
    exact hmin'

/-- The walk stays inside the section, whatever the table has become, and ends. -/
theorem kept_relocBlocks (hready : Ready input image) {payload : Nat}
    (hpayload : payload + len.toNat ≤ (headerOf input.file).imageSize.toNat)
    (hlen : len.toNat ≤ 2 ^ 63) (delta : Int64) {rounds : Nat}
    (hpos : pos ≤ len) (hrounds : len.toNat - pos.toNat < 8 * rounds) :
    Checked (Allowed input) (Kept input m image)
      (relocBlocks payload len delta rounds pos : Loader U Unit)
      (fun _ => Kept input m image) (Ended input m image) := by
  induction rounds generalizing pos with
  | zero => omega
  | succ rounds ih =>
    have hpos' := UInt64.le_iff_toNat_le.mp hpos
    rw [relocBlocks]
    refine Checked.ite (fun hmore => ?_) fun _ => ?_
    · have hmore' := toNat_head_le hlen hpos hmore
      refine checked_readBuffer_bind hready.fits (by omega) fun page _ => ?_
      refine checked_readBuffer_bind hready.fits (by omega) fun size _ => ?_
      generalize UInt32.ofNat (leNum size) = bsize
      refine Checked.ite (fun _ => kept_fail_bind) fun hblock => ?_
      rw [not_or] at hblock
      have hend := UInt64.not_lt.mp hblock.2
      obtain ⟨hmin, hnext, hstop, hcount⟩ :=
        blockFits hlen hpos (UInt32.not_lt.mp hblock.1) hend
      refine Checked.bind (kept_forM _ fun k hk => ?_) fun _ => ?_
      · rw [hcount] at hk
        refine checked_readBuffer_bind hready.fits (by omega) fun word _ => ?_
        exact kept_applyReloc hready _ _ delta
      · exact ih hend (by omega)
    · exact Checked.ite (fun _ => kept_fail) fun _ => Checked.pure fun _ hst => hst

theorem checked_relocate (input : Input) (m : Mem) (delta : Int64) :
    Checked (Allowed input) (Inv input m) (owelfRelocate input.file delta : Loader U Unit)
      (fun _ => Inv input m) (fun e st => e ≠ .rounds ∧ Inv input m st) := by
  refine checked_loaded fun image hloaded hready => ?_
  have hmove : ∀ st : State U, Kept input m image st →
      Inv input m { st with image := { st.image with delta := st.image.delta + delta } } := by
    rintro st ⟨rfl, hst⟩
    exact ⟨fun _ => { hready with }, hst⟩
  refine Checked.bind (kept_findSection hready 0x05 fun i hi => ?_) fun found => ?_
  · rw [hready.header] at hi
    exact List.mem_range.mp hi
  refine Checked.of_fact (fun _ hs => hs.1) fun hfound => ?_
  cases found with
  | none => exact checked_changeImage fun st hst => hmove st hst.2
  | some sec =>
    obtain ⟨hsec, htype⟩ := hfound sec rfl
    have himage := hsec.image
    have hfile := hsec.file (by rw [htype]; decide)
    have hfits := input.fits
    have hcap := UInt64.le_iff_toNat_le.mp hready.fits
    refine Checked.bind (Checked.mono (kept_relocBlocks hready himage (by omega) delta
      (UInt64.le_iff_toNat_le.mpr (Nat.zero_le _)) (by
        show sec.size.toNat - 0 < _
        omega)) (fun st hst => hst.2) fun _ _ hst => hst) fun _ => ?_
    exact checked_changeImage hmove

/-! ## Imports -/

theorem kept_callResolver_bind {resolver : Resolver U} {name symbol : UInt64}
    {f : Option UInt64 → Loader U β}
    (hf : ∀ r, Checked (Allowed input) (Kept input m image) (f r) Q E) :
    Checked (Allowed input) (Kept input m image) (callResolver resolver name symbol >>= f) Q E :=
  Checked.bind (Checked.lift fun _ hst => ⟨fun _ ha => (nomatch ha), hst⟩) hf

theorem kept_resolveSymbol (hready : Ready input image) (resolver : Resolver U) (imp : Import)
    (modulePos : UInt64) {j : Nat} (hj : j < 2 ^ 32) :
    Checked (Allowed input) (Kept input m image)
      (resolveSymbol input.file image resolver imp modulePos j)
      (fun _ => Kept input m image) (Ended input m image) := by
  have hj' : (UInt64.ofNat j).toNat = j := by
    rw [UInt64.toNat_ofNat']
    omega
  -- offsets of 32 bits and indices below `2^32` do not wrap in 64 bits
  have hslot : ∀ (off : UInt32) {k : UInt64}, k.toNat ≤ 8 →
      (off.toUInt64 + UInt64.ofNat j * k + k).toNat = off.toNat + j * k.toNat + k.toNat := by
    intro off k hk
    have hoff := off.toNat_lt
    have hmul : j * k.toNat ≤ 2 ^ 32 * 8 := Nat.mul_le_mul (by omega) hk
    rw [UInt64.toNat_add, UInt64.toNat_add, UInt64.toNat_mul, UInt32.toNat_toUInt64, hj']
    omega
  have hslot' : ∀ (off : UInt32) {k : UInt64}, k.toNat ≤ 8 →
      (off.toUInt64 + UInt64.ofNat j * k).toNat = off.toNat + j * k.toNat := by
    intro off k hk
    have hoff := off.toNat_lt
    have hmul : j * k.toNat ≤ 2 ^ 32 * 8 := Nat.mul_le_mul (by omega) hk
    rw [UInt64.toNat_add, UInt64.toNat_mul, UInt32.toNat_toUInt64, hj']
    omega
  refine Checked.ite (fun _ => kept_fail_bind) fun hname => ?_
  have hnameEnd := UInt64.le_iff_toNat_le.mp (UInt64.not_lt.mp hname)
  rw [hready.fileSize, hslot _ (by decide)] at hnameEnd
  refine checked_rdU32_bind (by rw [hslot' _ (by decide)]; exact hnameEnd) ?_
  refine Checked.ite (fun _ => kept_fail_bind) fun _ => kept_callResolver_bind fun r => ?_
  cases r with
  | none => exact kept_fail
  | some address =>
    refine Checked.ite (fun _ => kept_fail_bind) fun hiat => ?_
    rw [not_or, hready.header] at hiat
    have hiatEnd := UInt64.le_iff_toNat_le.mp (UInt64.not_lt.mp hiat.1)
    rw [hslot _ (by decide)] at hiatEnd
    refine kept_writeBuffer hready.fits ?_
    rw [length_leBytes, hslot' _ (by decide)]
    exact hiatEnd

theorem kept_resolveImport (hready : Ready input image) (resolver : Resolver U) {i : Nat}
    (hi : i < (headerOf input.file).importCount.toNat) :
    Checked (Allowed input) (Kept input m image) (resolveImport input.file image resolver i)
      (fun _ => Kept input m image) (Ended input m image) := by
  have htables := hready.headerOk.tables
  have htable := hready.importTable
  refine checked_rdU32_bind (by omega) (checked_rdU32_bind (by omega) ?_)
  refine checked_rdU32_bind (by omega) (checked_rdU32_bind (by omega) ?_)
  refine checked_rdU32_bind (by omega) (checked_rdU32_bind (by omega) ?_)
  refine Checked.ite (fun _ => kept_fail_bind) fun _ => ?_
  refine kept_forM _ fun j hj => kept_resolveSymbol hready resolver _ _ ?_
  exact Nat.lt_trans hj (UInt32.toNat_lt _)

theorem checked_resolveImports (input : Input) (m : Mem) (resolver : Resolver U) :
    Checked (Allowed input) (Inv input m) (owelfResolveImports input.file resolver)
      (fun _ => Inv input m) (fun e st => e ≠ .rounds ∧ Inv input m st) := by
  refine checked_loaded fun image hloaded hready => ?_
  refine Checked.mono (kept_forM _ fun i hi => ?_) (fun _ hst => hst) fun _ st hst => ?_
  · rw [hready.header] at hi
    exact kept_resolveImport hready resolver hi
  · obtain ⟨rfl, hst⟩ := hst
    exact ⟨fun _ => hready, hst⟩

/-! ## Sequences of calls -/

theorem checked_call (input : Input) (m : Mem) (c : Call U) :
    Checked (Allowed input) (Inv input m) (c.run input) (fun _ => Inv input m)
      (fun e st => e ≠ .rounds ∧ Inv input m st) := by
  cases c with
  | load =>
    refine Checked.of_start (fun st => st.buffer) fun b => ?_
    refine Checked.of_fact
      (p := ∀ x, (headerOf input.file).imageSize.toNat ≤ x → b x = m x) ?_ fun hb => ?_
    · rintro st ⟨rfl, hst⟩
      exact hst.2
    refine Checked.mono (Checked.mono_error (checked_load input b) ?_) (fun st hst => hst.1) ?_
    · rintro e st ⟨hne, hloaded, hbuffer⟩
      refine ⟨hne, fun h => absurd (hloaded.symm.trans h) Bool.false_ne_true, fun x hx => ?_⟩
      rw [hbuffer x hx, hb x hx]
    · rintro _ st ⟨⟨hready, -⟩, hbuffer⟩
      refine ⟨fun _ => hready, fun x hx => ?_⟩
      rw [hbuffer, overlay_of_le hready.sections hx, store_of_outside (.inr (by simpa using hx)),
        hb x hx]
  | relocate delta => exact checked_relocate input m delta
  | resolveImports resolver => exact checked_resolveImports input m resolver

theorem spec_runCalls (input : Input) (m : Mem) (calls : List (Call U)) :
    Spec (Allowed input) (Inv input m) (runCalls input calls) fun statuses st =>
      (∀ r ∈ statuses, r ≠ .error .rounds) ∧ Inv input m st := by
  induction calls with
  | nil => exact Spec.pure fun st hst => ⟨fun _ hr => (nomatch hr), hst⟩
  | cons c calls ih =>
    refine Spec.bind (Q := fun r st => r ≠ .error .rounds ∧ Inv input m st)
      (Spec.mono (checked_call input m c) (fun _ hst => hst) fun r st hst => ?_) fun r => ?_
    · cases r with
      | ok _ => exact ⟨fun he => (nomatch he), hst⟩
      | error e => exact ⟨fun he => hst.1 (Except.error.inj he), hst.2⟩
    · refine Spec.of_fact (fun _ hst => hst.1) fun hr => ?_
      refine Spec.bind (Spec.mono ih (fun _ hst => hst.2) fun _ _ hst => hst) fun statuses => ?_
      exact Spec.pure fun st hst => ⟨List.forall_mem_cons.mpr ⟨hr, hst.1⟩, hst.2⟩

def Reached (input : Input) (st : State U) : Prop :=
  ∃ (start : State U) (calls : List (Call U)), start.image.loaded = false ∧
    Run.state (runCalls input calls) start = st

theorem Reached.call {start : State U} (hstart : start.image.loaded = false) (c : Call U) :
    Reached input (Run.state (c.run input).run start) := ⟨start, [c], hstart, rfl⟩

/-- What a load of an accepted file leaves, over zeros. -/
def loadedState (input : Input) : State Unit where
  buffer := overlay input.file
    (store (fun _ => 0) 0 (List.replicate (headerOf input.file).imageSize.toNat 0))
    (headerOf input.file).sectionCount.toNat
  image := { placedImage input with loaded := true }
  user := ()

theorem Accepted.reached (h : Accepted input) : Reached input (loadedState input) := by
  obtain ⟨start, hstart, hzero⟩ : ∃ start : State Unit, start.image.loaded = false ∧
      start.buffer = fun _ => 0 := ⟨⟨fun _ => 0, Image.zero, ()⟩, rfl, rfl⟩
  have hload := load_accepted h start
  have hbuffer := ((checked_load input fun _ => 0).of_ok hzero hload.1).2
  have hstate : ∀ st : State Unit, st.image = (loadedState input).image →
      st.buffer = (loadedState input).buffer → st = loadedState input := by
    rintro ⟨buffer, image, user⟩ rfl rfl
    rfl
  have hend : Run.state (Call.load.run input).run start = loadedState input :=
    hstate _ hload.2 hbuffer
  exact hend ▸ Reached.call hstart .load

theorem Reached.ready {st : State U} (h : Reached input st) (hloaded : st.image.loaded = true) :
    Ready input st.image := by
  obtain ⟨start, calls, hstart, rfl⟩ := h
  have hinv : Inv input start.buffer start :=
    ⟨fun hl => absurd (hstart.symm.trans hl) Bool.false_ne_true, fun _ _ => rfl⟩
  exact (spec_runCalls input start.buffer calls start hinv).2.2.1 hloaded

/-- Every sequence of calls reads the file below its size only, touches the buffer
below `image_size` only and ends each call with a status.  After a load that succeeds
the image is the sections laid over zeros in the order of the table. -/
theorem loader_safe (input : Input) (st : State U) (calls : List (Call U)) :
    let start := { st with image := { st.image with loaded := false } }
    (∀ a ∈ Run.log (runCalls input calls) start, Allowed input a) ∧
      (∀ r ∈ Run.value (runCalls input calls) start, r ≠ .error .rounds) ∧
      (∀ x, (headerOf input.file).imageSize.toNat ≤ x →
        (Run.state (runCalls input calls) start).buffer x = st.buffer x) ∧
      ∀ before : State U, Run.value (Call.run input .load).run before = .ok () →
        ∀ x < (headerOf input.file).imageSize.toNat,
          (Run.state (Call.run input .load).run before).buffer x =
            overlay input.file (fun _ => 0) (headerOf input.file).sectionCount.toNat x := by
  intro start
  have hstart : Inv input st.buffer start :=
    ⟨fun h => absurd h Bool.false_ne_true, fun _ _ => rfl⟩
  obtain ⟨hlog, hstatuses, -, hbuffer⟩ := spec_runCalls input st.buffer calls start hstart
  refine ⟨hlog, hstatuses, hbuffer, fun before hok x hx => ?_⟩
  obtain ⟨-, hafter⟩ := (checked_load input before.buffer).of_ok rfl hok
  change (Run.state (Call.run input .load).run before).buffer = _ at hafter
  rw [hafter]
  refine overlay_congr ?_
  rw [store, if_pos (by simpa using hx), List.getD_eq_getElem _ _ (by simpa using hx),
    List.getElem_replicate]

end Owelf
