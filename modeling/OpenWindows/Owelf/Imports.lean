import OpenWindows.Owelf.Safety

/-!
# What the resolver is asked

`owelf_resolve_imports` walks over the import table and over the symbols of each entry,
and hands two names of the file to the resolver.  Only the first byte of a name is known
to lie in the file: a name may run past the end.  The answers reach their slots in the
image, as long as no two slots share a byte.
-/

namespace Owelf

open Bytes Memory Logged

variable {U : Type} {input : Input} {file : Mem} {image : Image}

/-! ## The import table -/

/-- The entry of the import table at an index. -/
def importOf (file : Mem) (image : Image) (i : Nat) : Import where
  moduleNameOff := UInt32.ofNat (loadNum file (image.importTableOff.toNat + i * 24 + 0) 4)
  symbolTableOff := UInt32.ofNat (loadNum file (image.importTableOff.toNat + i * 24 + 4) 4)
  iatOff := UInt32.ofNat (loadNum file (image.importTableOff.toNat + i * 24 + 8) 4)
  symbolCount := UInt32.ofNat (loadNum file (image.importTableOff.toNat + i * 24 + 12) 4)
  checksum := UInt32.ofNat (loadNum file (image.importTableOff.toNat + i * 24 + 16) 4)
  reserved := UInt32.ofNat (loadNum file (image.importTableOff.toNat + i * 24 + 20) 4)

def modulePos (file : Mem) (image : Image) (i : Nat) : UInt64 :=
  image.stringTableOff.toUInt64 + (importOf file image i).moduleNameOff.toUInt64

/-- Where the offset of a symbol's name stands. -/
def nameSlot (imp : Import) (j : Nat) : UInt64 :=
  imp.symbolTableOff.toUInt64 + UInt64.ofNat j * 4

def symbolPos (file : Mem) (image : Image) (imp : Import) (j : Nat) : UInt64 :=
  image.stringTableOff.toUInt64 + (UInt32.ofNat (loadNum file (nameSlot imp j).toNat 4)).toUInt64

/-- Where the address of a symbol goes. -/
def iatSlot (imp : Import) (j : Nat) : UInt64 := imp.iatOff.toUInt64 + UInt64.ofNat j * 8

/-- The tests before the resolver is called for a symbol. -/
def NameOk (file : Mem) (image : Image) (imp : Import) (j : Nat) : Prop :=
  ¬ nameSlot imp j + 4 > image.fileSize ∧ ¬ symbolPos file image imp j ≥ image.fileSize

/-- The tests before the address of a symbol is written. -/
def SlotOk (image : Image) (imp : Import) (j : Nat) : Prop :=
  ¬ (iatSlot imp j + 8 > image.header.imageSize ∨ iatSlot imp j + 8 > image.capacity)

def entrySymbols (file : Mem) (image : Image) (i : Nat) : List (Nat × Nat) :=
  (List.range (importOf file image i).symbolCount.toNat).map fun j => (i, j)

/-- The symbols of the first entries, in the order in which they are looked up. -/
def symbolsBefore (file : Mem) (image : Image) (n : Nat) : List (Nat × Nat) :=
  (List.range n).flatMap (entrySymbols file image)

def slotPlace (file : Mem) (image : Image) (d : Nat × Nat) : Place where
  addr := (iatSlot (importOf file image d.1) d.2).toNat
  width := 8

/-- No two slots of the import table share a byte. -/
def SlotsApart (file : Mem) (image : Image) : Prop :=
  PairwiseApart (slotPlace file image)
    (symbolsBefore file image image.header.importCount.toNat)

/-- The imports before symbol `j` of module `i` were fine. -/
structure Passed (file : Mem) (image : Image) (i j : Nat) : Prop where
  modules : ∀ k ≤ i, modulePos file image k < image.fileSize
  before : ∀ k < i, ∀ l < (importOf file image k).symbolCount.toNat,
    NameOk file image (importOf file image k) l ∧ SlotOk image (importOf file image k) l
  earlier : ∀ l < j,
    NameOk file image (importOf file image i) l ∧ SlotOk image (importOf file image i) l

/-- The walk comes to a symbol, and both of its names start in the file. -/
structure Visited (file : Mem) (image : Image) (i j : Nat) : Prop
    extends Passed file image i j where
  entry : i < image.header.importCount.toNat
  symbol : j < (importOf file image i).symbolCount.toNat
  name : NameOk file image (importOf file image i) j

/-! ## The calls -/

/-- A call of the resolver and its answer. -/
structure Lookup where
  moduleName : UInt64
  symbol : UInt64
  address : Option UInt64
deriving DecidableEq

/-- A resolver that also writes down its calls. -/
def recorded (resolver : Resolver U) : Resolver (U × List Lookup) := fun moduleName symbol user =>
  let answer := resolver moduleName symbol user.1
  (answer.1, answer.2, user.2 ++ [⟨moduleName, symbol, answer.1⟩])

/-- A state with nothing written down. -/
def State.recording (st : State U) : State (U × List Lookup) :=
  { buffer := st.buffer, image := st.image, user := (st.user, []) }

/-- A triple without an obligation for the accesses. -/
abbrev Free {α : Type} (P : State U → Prop) (x : Loader U α) (Q : α → State U → Prop)
    (E : Stop → State U → Prop) : Prop := Checked (fun _ => True) P x Q E

section Rules

variable {α β : Type} {P : State U → Prop} {Q : Unit → State U → Prop} {T : β → State U → Prop}
  {E : Stop → State U → Prop}

theorem free_fail {s : Status} (h : ∀ st, P st → E (.status s) st) :
    Free P (fail s : Loader U β) T E := Checked.throw h

theorem free_fail_bind {s : Status} {f : α → Loader U β} (h : ∀ st, P st → E (.status s) st) :
    Free P ((fail s : Loader U α) >>= f) T E :=
  Checked.bind (Q := fun _ _ => False) (free_fail h) fun _ _ hs => hs.elim

theorem free_rdU32_bind {a : Nat} {f : UInt32 → Loader U β}
    (hf : Free P (f (UInt32.ofNat (loadNum file a 4))) T E) : Free P (rdU32 file a >>= f) T E :=
  Checked.bind_eq (fun _ hs => ⟨fun _ _ => trivial, rfl, hs⟩) hf

def State.asked (st : State U) (resolver : Resolver U) (moduleName symbol : UInt64) : State U :=
  { st with user := (resolver moduleName symbol st.user).2 }

/-- The image after an address was written. -/
def State.patched (st : State U) (slot address : UInt64) : State U :=
  { st with buffer := store st.buffer slot.toNat (leBytes 8 address.toNat) }

theorem free_resolveSymbol {resolver : Resolver U} {imp : Import} {pos : UInt64} {j : Nat}
    (hname : ¬ NameOk file image imp j → ∀ st, P st → E (.status .errImport) st)
    (hnone : NameOk file image imp j → ∀ st, P st →
      (resolver pos (symbolPos file image imp j) st.user).1 = none →
        E (.status .errResolve) (st.asked resolver pos (symbolPos file image imp j)))
    (hslot : NameOk file image imp j → ¬ SlotOk image imp j → ∀ st, P st →
      E (.status .errImport) (st.asked resolver pos (symbolPos file image imp j)))
    (hok : NameOk file image imp j → SlotOk image imp j → ∀ st, P st → ∀ address,
      (resolver pos (symbolPos file image imp j) st.user).1 = some address →
        Q () ((st.asked resolver pos (symbolPos file image imp j)).patched
          (iatSlot imp j) address)) :
    Free P (resolveSymbol file image resolver imp pos j) Q E := by
  refine Checked.ite (fun h => free_fail_bind (hname fun hn => hn.1 h)) fun h1 => ?_
  refine free_rdU32_bind (Checked.ite (fun h => free_fail_bind (hname fun hn => hn.2 h)) fun h2 => ?_)
  have hn : NameOk file image imp j := ⟨h1, h2⟩
  refine Checked.bind (Q := fun answer st' => ∃ st, P st ∧
      answer = (resolver pos (symbolPos file image imp j) st.user).1 ∧
      st' = st.asked resolver pos (symbolPos file image imp j))
    (fun st hst => ⟨fun _ _ => trivial, st, hst, rfl, rfl⟩) fun answer => ?_
  cases answer with
  | none =>
    refine free_fail ?_
    rintro _ ⟨st, hst, hanswer, rfl⟩
    exact hnone hn st hst hanswer.symm
  | some address =>
    refine Checked.ite (fun h => free_fail_bind ?_) fun h => ?_
    · rintro _ ⟨st, hst, -, rfl⟩
      exact hslot hn (not_not.mpr h) st hst
    · rintro _ ⟨st, hst, hanswer, rfl⟩
      exact ⟨fun _ _ => trivial, hok hn h st hst address hanswer.symm⟩

theorem free_resolveImport {resolver : Resolver U} {i : Nat}
    (hmodule : ¬ modulePos file image i < image.fileSize →
      ∀ st, P st → E (.status .errImport) st)
    (hsymbols : modulePos file image i < image.fileSize →
      Free P ((List.range (importOf file image i).symbolCount.toNat).forM
        (resolveSymbol file image resolver (importOf file image i) (modulePos file image i))) Q E) :
    Free P (resolveImport file image resolver i) Q E := by
  refine free_rdU32_bind (free_rdU32_bind (free_rdU32_bind ?_))
  refine free_rdU32_bind (free_rdU32_bind (free_rdU32_bind ?_))
  exact Checked.ite (fun h => free_fail_bind (hmodule (UInt64.not_lt.mpr h)))
    fun h => hsymbols (UInt64.not_le.mp h)

/-- A loop over indices. -/
theorem free_forM {body : Nat → Loader U Unit} (I : Nat → State U → Prop) (n : Nat)
    (h : ∀ i < n, Free (I i) (body i) (fun _ => I (i + 1)) E) :
    Free (I 0) ((List.range n).forM body) (fun _ => I n) E := by
  have hloop : Free (I 0) ((List.range n).forM body) (fun _ => I (0 + (List.range n).length)) E := by
    refine Checked.forM I (List.range n) 0 fun i hi => ?_
    rw [List.length_range] at hi
    have hget : (List.range n).get ⟨i, by rwa [List.length_range]⟩ = i := by simp
    rw [hget, Nat.zero_add]
    exact h i hi
  rwa [Nat.zero_add, List.length_range] at hloop

end Rules

/-! ## What was asked and written -/

/-- A symbol with the address that was found. -/
abbrev Found := (Nat × Nat) × UInt64

/-- The call that found an address. -/
def lookupOf (file : Mem) (image : Image) (w : Found) : Lookup where
  moduleName := modulePos file image w.1.1
  symbol := symbolPos file image (importOf file image w.1.1) w.1.2
  address := some w.2

/-- The symbols were looked up in order, and each address was written to its slot. -/
def Walked (file : Mem) (image : Image) (b : Mem) (ds : List (Nat × Nat))
    (st : State (U × List Lookup)) : Prop :=
  ∃ ws : List Found, ws.map Prod.fst = ds ∧ st.user.2 = ws.map (lookupOf file image) ∧
    st.buffer = changeAll (fun w => slotPlace file image w.1) (fun w _ => w.2.toNat) b ws

/-- The resolver was asked for symbols that the walk comes to. -/
def Told (file : Mem) (image : Image) (st : State (U × List Lookup)) : Prop :=
  ∀ l ∈ st.user.2, ∃ i j, Visited file image i j ∧ l.moduleName = modulePos file image i ∧
    l.symbol = symbolPos file image (importOf file image i) j

section Steps

variable {b : Mem} {ds : List (Nat × Nat)} {st : State (U × List Lookup)} {i j : Nat}

theorem Told.asked (h : Told file image st) (hv : Visited file image i j)
    (resolver : Resolver U) :
    Told file image (st.asked (recorded resolver) (modulePos file image i)
      (symbolPos file image (importOf file image i) j)) := by
  intro l hl
  rcases List.mem_append.mp hl with hl | hl
  · exact h l hl
  · obtain rfl := List.mem_singleton.mp hl
    exact ⟨i, j, hv, rfl, rfl⟩

theorem Walked.next (h : Walked file image b ds st) (resolver : Resolver U) {address : UInt64}
    (hanswer : (recorded resolver (modulePos file image i)
      (symbolPos file image (importOf file image i) j) st.user).1 = some address) :
    Walked file image b (ds ++ [(i, j)])
      ((st.asked (recorded resolver) (modulePos file image i)
        (symbolPos file image (importOf file image i) j)).patched
          (iatSlot (importOf file image i) j) address) := by
  obtain ⟨ws, rfl, hlog, hbuffer⟩ := h
  refine ⟨ws ++ [((i, j), address)], List.map_append, ?_, ?_⟩
  · rw [List.map_append, ← hlog, List.map_singleton, lookupOf, ← hanswer]
    rfl
  · rw [changeAll_append, ← hbuffer]
    rfl

theorem symbolsBefore_succ (n : Nat) :
    symbolsBefore file image (n + 1) = symbolsBefore file image n ++ entrySymbols file image n := by
  rw [symbolsBefore, List.range_succ, List.flatMap_append, List.flatMap_singleton]
  rfl

end Steps

/-- Between two symbols of an entry. -/
structure Between (file : Mem) (image : Image) (b : Mem) (i j : Nat)
    (st : State (U × List Lookup)) : Prop extends Passed file image i j where
  walked : Walked file image b
    (symbolsBefore file image i ++ (List.range j).map fun k => (i, k)) st
  told : Told file image st

/-- Between two entries. -/
structure Entered (file : Mem) (image : Image) (b : Mem) (i : Nat)
    (st : State (U × List Lookup)) : Prop where
  modules : ∀ k < i, modulePos file image k < image.fileSize
  before : ∀ k < i, ∀ l < (importOf file image k).symbolCount.toNat,
    NameOk file image (importOf file image k) l ∧ SlotOk image (importOf file image k) l
  walked : Walked file image b (symbolsBefore file image i) st
  told : Told file image st

section Walk

variable {b : Mem} {i j : Nat} (resolver : Resolver U)

theorem between_symbol (hi : i < image.header.importCount.toNat)
    (hj : j < (importOf file image i).symbolCount.toNat) :
    Free (Between file image b i j)
      (resolveSymbol file image (recorded resolver) (importOf file image i)
        (modulePos file image i) j)
      (fun _ => Between file image b i (j + 1)) (fun _ => Told file image) := by
  refine free_resolveSymbol (fun _ st h => h.told) (fun hn st h _ => ?_) (fun hn _ st h => ?_)
    fun hn hs st h address hanswer => ?_
  · exact h.told.asked ⟨h.toPassed, hi, hj, hn⟩ resolver
  · exact h.told.asked ⟨h.toPassed, hi, hj, hn⟩ resolver
  · have htold := h.told.asked ⟨h.toPassed, hi, hj, hn⟩ resolver
    refine ⟨⟨h.modules, h.before, fun l hl => ?_⟩, ?_, htold⟩
    · rcases Nat.lt_succ_iff_lt_or_eq.mp hl with hl | rfl
      · exact h.earlier l hl
      · exact ⟨hn, hs⟩
    · rw [List.range_succ, List.map_append, ← List.append_assoc]
      exact h.walked.next resolver hanswer

theorem entered_import (hi : i < image.header.importCount.toNat) :
    Free (Entered file image b i) (resolveImport file image (recorded resolver) i)
      (fun _ => Entered file image b (i + 1)) (fun _ => Told file image) := by
  refine free_resolveImport (fun _ st h => h.told) fun hmodule => ?_
  refine Checked.mono (free_forM (Between file image b i) _ fun j hj =>
    between_symbol resolver hi hj) (fun st h => ?_) fun _ st h => ?_
  · refine ⟨⟨fun k hk => ?_, h.before, fun l hl => absurd hl (Nat.not_lt_zero l)⟩, ?_, h.told⟩
    · rcases Nat.lt_or_eq_of_le hk with hk | rfl
      · exact h.modules k hk
      · exact hmodule
    · rw [List.range_zero, List.map_nil, List.append_nil]
      exact h.walked
  · refine ⟨fun k hk => h.modules k (Nat.le_of_lt_succ hk), fun k hk => ?_, ?_, h.told⟩
    · rcases Nat.lt_succ_iff_lt_or_eq.mp hk with hk | rfl
      · exact h.before k hk
      · exact h.earlier
    · rw [symbolsBefore_succ]
      exact h.walked

theorem resolveImports_told (file : Mem) {st : State U} (hloaded : st.image.loaded = true) :
    Free (fun s => s = st.recording) (owelfResolveImports file (recorded resolver))
      (fun _ s => Entered file st.image st.buffer st.image.header.importCount.toNat s)
      (fun _ => Told file st.image) := by
  refine Checked.bind_eq (v := st.image) (Checked.lift (Spec.look fun s hs => ⟨hs ▸ rfl, hs⟩)) ?_
  refine Checked.ite (fun h => absurd h (by simp [hloaded])) fun _ => ?_
  refine Checked.mono (free_forM (Entered file st.image st.buffer) _ fun i hi =>
    entered_import resolver hi) ?_ fun _ _ h => h
  rintro _ rfl
  refine ⟨fun k hk => absurd hk (Nat.not_lt_zero k), fun k hk => absurd hk (Nat.not_lt_zero k),
    ⟨[], rfl, rfl, rfl⟩, fun l hl => ?_⟩
  exact absurd hl List.not_mem_nil

end Walk

/-! ## Every symbol that the walk comes to -/

/-- A resolver that finds everything. -/
def always (U : Type) : Resolver U := fun _ _ user => (some 0, user)

def Asked (file : Mem) (image : Image) (i j : Nat) (st : State (U × List Lookup)) : Prop :=
  ∃ l ∈ st.user.2, l.moduleName = modulePos file image i ∧
    l.symbol = symbolPos file image (importOf file image i) j

/-- A symbol stands before a place of the walk. -/
def Past (i j : Nat) (k l : Nat) : Prop := i < k ∨ i = k ∧ j < l

section Visits

variable {i j k l : Nat} {st : State (U × List Lookup)}

theorem Asked.asked (h : Asked file image i j st) (resolver : Resolver U)
    (moduleName symbol : UInt64) :
    Asked file image i j (st.asked (recorded resolver) moduleName symbol) := by
  obtain ⟨lookup, hmem, hl⟩ := h
  exact ⟨lookup, List.mem_append_left _ hmem, hl⟩

theorem Asked.self (resolver : Resolver U) (st : State (U × List Lookup)) :
    Asked file image i j (st.asked (recorded resolver) (modulePos file image i)
      (symbolPos file image (importOf file image i) j)) :=
  ⟨_, List.mem_append_right _ (List.mem_singleton.mpr rfl), rfl, rfl⟩

theorem Visited.name_of_not_past (h : Visited file image i j)
    (hl : l < (importOf file image k).symbolCount.toNat) (hpast : ¬ Past i j k l) :
    NameOk file image (importOf file image k) l := by
  obtain ⟨hle, hlast⟩ := not_or.mp hpast
  rcases Nat.lt_or_eq_of_le (Nat.le_of_not_lt hle) with hk | rfl
  · exact (h.before k hk l hl).1
  · rcases Nat.lt_or_eq_of_le (Nat.le_of_not_lt fun hlt => hlast ⟨rfl, hlt⟩) with hl | rfl
    · exact (h.earlier l hl).1
    · exact h.name

theorem Visited.slot_of_not_past (h : Visited file image i j)
    (hl : l < (importOf file image k).symbolCount.toNat) (hpast : ¬ Past i j k (l + 1)) :
    SlotOk image (importOf file image k) l := by
  obtain ⟨hle, hlast⟩ := not_or.mp hpast
  rcases Nat.lt_or_eq_of_le (Nat.le_of_not_lt hle) with hk | rfl
  · exact (h.before k hk l hl).2
  · have hlt : l < j := Nat.lt_of_not_le fun hge => hlast ⟨rfl, Nat.lt_succ_of_le hge⟩
    exact (h.earlier l hlt).2

theorem past_succ (h : Past i j k (l + 1)) : Past i j k l ∨ i = k ∧ j = l := by
  rcases h with h | ⟨h, hlt⟩
  · exact .inl (.inl h)
  · rcases Nat.lt_succ_iff_lt_or_eq.mp hlt with hlt | hlt
    · exact .inl (.inr ⟨h, hlt⟩)
    · exact .inr ⟨h, hlt⟩

theorem asked_symbol (h : Visited file image i j)
    (hl : l < (importOf file image k).symbolCount.toNat) :
    Free (fun st => Past i j k l → Asked file image i j st)
      (resolveSymbol file image (recorded (always U)) (importOf file image k)
        (modulePos file image k) l)
      (fun _ st => Past i j k (l + 1) → Asked file image i j st)
      (fun _ => Asked file image i j) := by
  have hnext : ∀ st : State (U × List Lookup), (Past i j k l → Asked file image i j st) →
      Past i j k (l + 1) → Asked file image i j (st.asked (recorded (always U))
        (modulePos file image k) (symbolPos file image (importOf file image k) l)) := by
    intro st hst hpast
    rcases past_succ hpast with hpast | ⟨rfl, rfl⟩
    · exact (hst hpast).asked ..
    · exact Asked.self _ st
  refine free_resolveSymbol (fun hn st hst => ?_) (fun _ st _ hnone => nomatch hnone)
    (fun _ hs st hst => ?_) fun _ _ st hst _ _ => hnext st hst
  · by_contra hnot
    exact hn (h.name_of_not_past hl fun hpast => hnot (hst hpast))
  · by_contra hnot
    exact hs (h.slot_of_not_past hl fun hpast => hnot (hnext st hst hpast))

theorem asked_import (h : Visited file image i j) (k : Nat) :
    Free (fun st => Past i j k 0 → Asked file image i j st)
      (resolveImport file image (recorded (always U)) k)
      (fun _ st => Past i j (k + 1) 0 → Asked file image i j st)
      (fun _ => Asked file image i j) := by
  refine free_resolveImport (fun hmodule st hst => hst (.inl ?_)) fun _ => ?_
  · exact Nat.lt_of_not_le fun hle => hmodule (h.modules k hle)
  · refine Checked.mono (free_forM (fun l st => Past i j k l → Asked file image i j st) _
      fun l hl => asked_symbol h hl) (fun _ hst => hst) fun _ st hst hpast => hst ?_
    rcases hpast with hlt | ⟨-, hlt⟩
    · rcases Nat.lt_succ_iff_lt_or_eq.mp hlt with hlt | rfl
      · exact .inl hlt
      · exact .inr ⟨rfl, h.symbol⟩
    · exact absurd hlt (Nat.not_lt_zero j)

theorem resolveImports_asked {st : State U} (hloaded : st.image.loaded = true)
    (h : Visited file st.image i j) :
    Free (fun s => s = st.recording) (owelfResolveImports file (recorded (always U)))
      (fun _ => Asked file st.image i j) (fun _ => Asked file st.image i j) := by
  refine Checked.bind_eq (v := st.image) (Checked.lift (Spec.look fun s hs => ⟨hs ▸ rfl, hs⟩)) ?_
  refine Checked.ite (fun h => absurd h (by simp [hloaded])) fun _ => ?_
  refine Checked.mono (free_forM (fun k s => Past i j k 0 → Asked file st.image i j s) _
    fun k _ => asked_import h k) (fun s _ hpast => ?_) fun _ s hs => hs (.inl h.entry)
  rcases hpast with hlt | ⟨-, hlt⟩
  · exact absurd hlt (Nat.not_lt_zero i)
  · exact absurd hlt (Nat.not_lt_zero j)

end Visits

/-! ## Names and slots -/

/-- A string that starts in the file ends in it. -/
def Terminated (input : Input) (pos : UInt64) : Prop :=
  ∃ x, pos.toNat ≤ x ∧ x < input.size.toNat ∧ input.file x = 0

/-- Every name that the resolver gets ends in the file, and after a call that succeeds
each slot holds what the resolver answered for its symbol. -/
structure ImportsRight (input : Input) (st : State U) (resolver : Resolver U) : Prop where
  names : ∀ l ∈ (Run.state ((Call.resolveImports (recorded resolver)).run input).run
      st.recording).user.2,
    Terminated input l.moduleName ∧ Terminated input l.symbol
  slots : Run.value ((Call.resolveImports (recorded resolver)).run input).run st.recording = .ok () →
    SlotsApart input.file st.image →
      List.Forall₂ (fun d l => l.moduleName = modulePos input.file st.image d.1 ∧
          l.symbol = symbolPos input.file st.image (importOf input.file st.image d.1) d.2 ∧
          l.address = some (UInt64.ofNat ((slotPlace input.file st.image d).get
            (Run.state ((Call.resolveImports (recorded resolver)).run input).run
              st.recording).buffer)))
        (symbolsBefore input.file st.image st.image.header.importCount.toNat)
        (Run.state ((Call.resolveImports (recorded resolver)).run input).run st.recording).user.2

theorem Walked.slots {b : Mem} {ds : List (Nat × Nat)} {st : State (U × List Lookup)}
    (h : Walked file image b ds st) (hapart : PairwiseApart (slotPlace file image) ds) :
    List.Forall₂ (fun d l => l.moduleName = modulePos file image d.1 ∧
        l.symbol = symbolPos file image (importOf file image d.1) d.2 ∧
        l.address = some (UInt64.ofNat ((slotPlace file image d).get st.buffer)))
      ds st.user.2 := by
  obtain ⟨ws, rfl, hlog, hbuffer⟩ := h
  rw [hlog, hbuffer]
  have hws : PairwiseApart (fun w : Found => slotPlace file image w.1) ws := by
    rwa [PairwiseApart, List.pairwise_map] at hapart
  refine List.forall₂_map_left_iff.mpr (List.forall₂_map_right_iff.mpr ?_)
  refine List.forall₂_same.mpr fun w hw => ⟨rfl, rfl, ?_⟩
  have hget := get_changeAll (f := fun w : Found => fun _ => w.2.toNat) (m := b) hws hw
  have hlt : w.2.toNat < 256 ^ 8 := w.2.toNat_lt
  rw [hget, slotPlace, Nat.mod_eq_of_lt hlt, UInt64.ofNat_toNat]
  rfl

theorem Free.log {α : Type} {P : State U → Prop} {x : Loader U α} {R : State U → Prop}
    (h : Free P x (fun _ => R) fun _ => R) {st : State U} (hst : P st) : R (Run.state x.run st) := by
  have hpost := (h st hst).2
  cases hvalue : Run.value x.run st with
  | ok _ | error _ => rwa [hvalue] at hpost

/-- All names that the resolver gets end in the file, and the slots are right, exactly when
the two names of every symbol that the walk comes to end in the file. -/
theorem imports_right_iff {st : State U} (hloaded : st.image.loaded = true) :
    (∀ resolver, ImportsRight input st resolver) ↔
      ∀ i j, Visited input.file st.image i j →
        Terminated input (modulePos input.file st.image i) ∧
          Terminated input (symbolPos input.file st.image (importOf input.file st.image i) j) := by
  constructor
  · intro hright i j hv
    obtain ⟨l, hl, hmodule, hsymbol⟩ := (resolveImports_asked hloaded hv).log rfl
    have hnames := (hright (always U)).names l hl
    rwa [hmodule, hsymbol] at hnames
  · intro hnames resolver
    have hwalk := resolveImports_told resolver input.file hloaded
    constructor
    · intro l hl
      have htold : Told input.file st.image (Run.state ((Call.resolveImports
          (recorded resolver)).run input).run st.recording) :=
        Free.log (Checked.mono hwalk (fun _ hs => hs) fun _ _ h => h.told) rfl
      obtain ⟨i, j, hv, hmodule, hsymbol⟩ := htold l hl
      rw [hmodule, hsymbol]
      exact hnames i j hv
    · intro hok hapart
      exact (hwalk.of_ok rfl hok).walked.slots hapart

/-! ## A file with one name -/

/-- The header of a file with one import, for an image of eight bytes, and the import: both
names start at 284. -/
def importFile (name : List UInt8) : Mem :=
  store (store (store (fun _ => 0) 0
    [0x31, 0x58, 0x57, 0x4F, 1, 0, 0, 0, 0, 0, 0, 0, 0, 0, 0, 0, 0, 0, 0, 0, 1, 0, 0, 0, 0, 0, 0, 0, 8])
    256 [4, 0, 0, 0, 0x18, 1, 0, 0, 0, 0, 0, 0, 1, 0, 0, 0, 0, 0, 0, 0, 0, 0, 0, 0, 4])
    284 name

/-- The name ends in the file. -/
def endedInput : Input where
  file := sealFile (importFile [0x41, 0]) 286
  size := 286
  capacity := 8
  fits := by decide

/-- The name runs past the end of the file. -/
def openInput : Input where
  file := sealFile (importFile [0x41]) 285
  size := 285
  capacity := 8
  fits := by decide

def importHeader (checksum : UInt32) : HeaderInfo where
  magic := 0x4F575831
  version := 1
  flags := 0
  entryPoint := 0
  sectionCount := 0
  importCount := 1
  exportCount := 0
  imageSize := 8
  stackSize := 0
  heapSize := 0
  checksum := checksum
  subsystem := 0

theorem headerOf_openInput :
    headerOf openInput.file = importHeader (headerOf openInput.file).checksum := rfl

theorem accepted_openInput : Accepted openInput := by
  have hheader := headerOf_openInput
  constructor
  case accepted =>
    intro i hi
    rw [hheader] at hi
    exact absurd hi (Nat.not_lt_zero i)
  case checksum => exact checksum_sealFile (importFile [0x41]) 285
  case toHeaderOk =>
    constructor <;> rw [hheader] <;> decide
  all_goals
    rw [hheader]
    decide

theorem imports_right_ended :
    ImportsRight endedInput (loadedState endedInput) (always Unit) := by
  refine (imports_right_iff rfl).mpr (fun i j hv => ?_) (always Unit)
  have hi : i < 1 := hv.entry
  obtain rfl : i = 0 := Nat.lt_one_iff.mp hi
  have hj : j < 1 := hv.symbol
  obtain rfl : j = 0 := Nat.lt_one_iff.mp hj
  exact ⟨⟨285, by decide, by decide, by decide⟩,
    ⟨285, by decide, by decide, by decide⟩⟩

/-- Both names of a loaded file may run past its end. -/
theorem name_past_end :
    Reached openInput (loadedState openInput) ∧ (loadedState openInput).image.loaded = true ∧
      ¬ ImportsRight openInput (loadedState openInput) (always Unit) := by
  refine ⟨accepted_openInput.reached, rfl, fun h => ?_⟩
  have hcall : (Run.state ((Call.resolveImports (recorded (always Unit))).run openInput).run
      (loadedState openInput).recording).user.2 = [⟨284, 284, some 0⟩] := by decide
  obtain ⟨x, hlow, hhigh, hzero⟩ := (h.names ⟨284, 284, some 0⟩ (hcall ▸ List.mem_cons_self)).1
  obtain rfl : x = 284 := by
    have h1 : 284 ≤ x := hlow
    have h2 : x < 285 := hhigh
    omega
  exact absurd hzero (by decide)

end Owelf
