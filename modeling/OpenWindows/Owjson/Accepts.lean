import OpenWindows.Owjson.Surrogates

/-!
# Which texts are accepted

The parser against `Valid`.  It lets some invalid texts pass (`Lenient`): it does not check
the bytes of a string, a number may start with superfluous zeros, an exponent is cut at six
digits, an empty container may stand one level too deep, and a dropped escape makes room in
the pool.  It refuses some valid ones (`Refused`): a high surrogate in front of an escape of
two characters is an error, and so is a long exponent that the digits of the fraction make
up for.  `isSome_iff_valid` says that these are all.
-/

namespace Owjson

/-! ## Readings -/

variable {F : Forest Label} {p : Production} {s t : List UInt8}

theorem Derives.wf (h : Derives p F s t) : ∀ items ∈ allStrings F, ∀ i ∈ items, i.Wf := by
  have hempty : ∀ k : Kind, k.isContainer = true → Label.strings ⟨none, k⟩ = [] := by
    intro k hk
    cases k with
    | array | object => rfl
    | null | bool _ | number _ | string _ => cases hk
  induction h with
  | @scalar k _ _ hk hwf _ =>
    intro items hi
    cases k with
    | string items' =>
      have hitems : items = items' := by simpa [Forest.leaf, Label.strings] using hi
      rw [hitems]
      exact hwf
    | null | bool _ | number _ | array | object => simp [Forest.leaf, Label.strings] at hi
  | emptyArray | emptyObject => simp [Forest.leaf, Label.strings]
  | array _ _ _ _ ih | object _ _ _ _ ih => simpa [Label.strings] using ih
  | lastElement _ ih => exact ih
  | element _ _ _ ih ih' =>
    simp only [allStrings_cons, allStrings_nil, List.append_nil, List.mem_append] at ih ⊢
    rintro items (hi | hi | hi)
    · exact ih items (.inl hi)
    · exact ih items (.inr hi)
    · exact ih' items hi
  | @lastMember key k _ _ _ _ _ hwf _ _ _ ih =>
    have hstrings : Label.strings ⟨some key, k⟩ = key :: Label.strings ⟨none, k⟩ := rfl
    simp only [allStrings_cons, allStrings_nil, List.append_nil, List.mem_append, hstrings,
      List.mem_cons] at ih ⊢
    rintro items ((rfl | hi) | hi)
    · exact hwf
    · exact ih items (.inl hi)
    · exact ih items (.inr hi)
  | @member key k _ _ _ _ _ _ _ _ hwf _ _ _ _ _ ih ih' =>
    have hstrings : Label.strings ⟨some key, k⟩ = key :: Label.strings ⟨none, k⟩ := rfl
    simp only [allStrings_cons, allStrings_nil, List.append_nil, List.mem_append, hstrings,
      List.mem_cons] at ih ⊢
    rintro items ((rfl | hi) | hi | hi)
    · exact hwf
    · exact ih items (.inl hi)
    · exact ih items (.inr hi)
    · exact ih' items hi

/-- Only containers contain anything. -/
theorem Derives.height_le (h : Derives p F s t) : F.height ≤ nesting F + 1 := by
  induction h with
  | scalar | emptyArray | emptyObject => simp [Forest.leaf, Forest.height]
  | array _ _ _ _ ih | object _ _ _ _ ih =>
    simp only [Forest.height, nesting, Kind.isContainer, if_true]
    omega
  | lastElement _ ih => exact ih
  | element _ _ _ ih ih' | lastMember _ _ _ _ ih | member _ _ _ _ _ _ ih ih' =>
    simp only [Forest.height, nesting] at *
    omega

/-- What is stored is no longer than what is denoted. -/
theorem length_slots_le {strings : List (List Item)} (hwf : ∀ items ∈ strings, ∀ i ∈ items, i.Wf) :
    (slots strings).length ≤ (strings.flatMap fun items => decode items ++ [0]).length := by
  induction strings with
  | nil => exact Nat.le_refl 0
  | cons items strings ih =>
    have hle := (keeps_stored (hwf items List.mem_cons_self)).length_le
    have hrest := ih fun x hx => hwf x (List.mem_cons_of_mem items hx)
    rw [slots_cons, List.flatMap_cons]
    simp only [List.length_append, List.length_singleton]
    omega

theorem pool_stored (F : Forest Label) : pool stored F = 0 :: slots (allStrings F) := rfl

theorem length_pool_stored_le
    (h : Derives p F s t) : (pool stored F).length ≤ (pool decode F).length :=
  Nat.succ_le_succ (length_slots_le h.wf)

/-! ## Where the parser departs from the grammar -/

/-- What the parser lets pass though it is not valid. -/
inductive Lenient (text : List UInt8) (F : Forest Label) : Prop
  | bytes : ¬ IsUtf8 text → Lenient text F
  | zeros (l : Label) (n : NumberText) : l ∈ F.toList → l.kind = .number n → ¬ n.Plain → Lenient text F
  | scale (l : Label) (n : NumberText) : l ∈ F.toList → l.kind = .number n →
      ¬ powerInRange (n.scale decimal) → Lenient text F
  | depth : maxDepth < nesting F → Lenient text F
  | dropped : stringPool < (pool decode F).length → Lenient text F

/-- What makes the parser refuse a text though it has room for it. -/
inductive Refused (F : Forest Label) : Prop
  | escape (items : List Item) : items ∈ allStrings F → readable items = false → Refused F
  | exponent (l : Label) (n : NumberText) : l ∈ F.toList → l.kind = .number n →
      ¬ powerInRange (n.scale exponentLoop) → Refused F

/-- The text has a reading that fits the node pool and that is lenient but not refused, within the
limits the parser goes by, or refused but not lenient. -/
def Departs (text : List UInt8) : Prop :=
  ∃ F, Reads text F ∧ F.size ≤ maxNodes ∧
    (Lenient text F ∧ ¬ Refused F ∧ F.height ≤ maxDepth + 1 ∧ (pool stored F).length ≤ stringPool ∨
      Refused F ∧ ¬ Lenient text F)

theorem pow10Ok_iff (x : Int) : pow10Ok x = true ↔ powerInRange x := by
  simp only [pow10Ok, powerInRange, Bool.or_eq_true, decide_eq_true_eq, not_or]
  omega

theorem not_refused_iff : ¬ Refused F ↔ ∀ l ∈ F.toList, l.Ok := by
  constructor
  · intro h l hl
    refine ⟨fun items hi => ?_, fun n hn => ?_⟩
    · cases hread : readable items with
      | true => rfl
      | false => exact absurd (.escape items (List.mem_flatMap.2 ⟨l, hl, hi⟩) hread) h
    · refine (pow10Ok_iff _).2 (Classical.byContradiction fun hno => h (.exponent l n hl hn hno))
  · intro h hr
    cases hr with
    | escape items hi hread =>
      obtain ⟨l, hl, hil⟩ := List.mem_flatMap.1 hi
      rw [(h l hl).1 items hil] at hread
      cases hread
    | exponent l n hl hn hno => exact hno ((pow10Ok_iff _).1 ((h l hl).2 n hn))

theorem not_lenient_iff {text : List UInt8} : ¬ Lenient text F ↔
    IsUtf8 text ∧ (∀ l ∈ F.toList, l.Strict) ∧ nesting F ≤ maxDepth ∧
      (pool decode F).length ≤ stringPool := by
  constructor
  · intro h
    refine ⟨Classical.byContradiction fun hno => h (.bytes hno), fun l hl n hn => ⟨?_, ?_⟩, ?_, ?_⟩
    · exact Classical.byContradiction fun hno => h (.zeros l n hl hn hno)
    · exact Classical.byContradiction fun hno => h (.scale l n hl hn hno)
    · exact Nat.le_of_not_lt fun hno => h (.depth hno)
    · exact Nat.le_of_not_lt fun hno => h (.dropped hno)
  · rintro ⟨hutf8, hstrict, hdepth, hpool⟩ h
    cases h with
    | bytes hno => exact hno hutf8
    | zeros l n hl hn hno => exact hno (hstrict l hl n hn).1
    | scale l n hl hn hno => exact hno (hstrict l hl n hn).2
    | depth hno => exact Nat.not_lt.2 hdepth hno
    | dropped hno => exact Nat.not_lt.2 hpool hno

theorem owjsonParse_isSome {text : List UInt8} : (owjsonParse text).isSome = true ↔
    ∃ F, Reads text F ∧ F.size ≤ maxNodes ∧ ¬ Refused F ∧ F.height ≤ maxDepth + 1 ∧
      (pool stored F).length ≤ stringPool := by
  rw [Option.isSome_iff_exists]
  constructor
  · rintro ⟨d, hd⟩
    obtain ⟨k, F, hreads, hheight, hfits, -⟩ := owjsonParse_iff.1 hd
    refine ⟨_, hreads, by simpa using hfits.nodes, not_refused_iff.2 hfits.labels, ?_, ?_⟩
    · exact Nat.max_le.2 ⟨Nat.succ_le_succ hheight, Nat.zero_le _⟩
    · rw [pool_stored, List.length_cons, Nat.add_comm]
      exact hfits.strings
  · rintro ⟨F, hreads, hsize, hok, hheight, hpool⟩
    obtain ⟨k, G, rfl⟩ : ∃ k G, F = .cons ⟨none, k⟩ G .nil := by
      obtain ⟨u, s, w, -, -, -, hd⟩ := hreads
      exact hd.value_shape
    rw [pool_stored, List.length_cons, Nat.add_comm] at hpool
    exact ⟨_, owjsonParse_iff.2 ⟨k, G, hreads, Nat.le_of_succ_le_succ (Nat.max_le.1 hheight).1,
      ⟨by simpa using hsize, hpool, not_refused_iff.1 hok⟩, rfl⟩⟩

/-- The parser accepts just the valid texts, apart from those that depart. -/
theorem isSome_iff_valid (text : List UInt8) :
    ((owjsonParse text).isSome = true ↔ Valid text) ↔ ¬ Departs text := by
  rw [owjsonParse_isSome]
  constructor
  · rintro hiff ⟨F, hreads, hsize, ⟨hlen, hok, hheight, hpool⟩ | ⟨href, hlen⟩⟩
    · obtain ⟨hutf8, G, hG, hstrict, hdepth, -, hpool'⟩ := hiff.1 ⟨F, hreads, hsize, hok, hheight, hpool⟩
      rw [hG.unique hreads] at hstrict hdepth hpool'
      exact not_lenient_iff.2 ⟨hutf8, hstrict, hdepth, hpool'⟩ hlen
    · obtain ⟨hutf8, hstrict, hdepth, hpool⟩ := not_lenient_iff.1 hlen
      obtain ⟨G, hG, -, hok, -⟩ := hiff.2 ⟨hutf8, F, hreads, hstrict, hdepth, hsize, hpool⟩
      rw [hG.unique hreads] at hok
      exact hok href
  · intro hno
    constructor
    · rintro ⟨F, hreads, hsize, hok, hheight, hpool⟩
      have hlen : ¬ Lenient text F := fun hlen =>
        hno ⟨F, hreads, hsize, .inl ⟨hlen, hok, hheight, hpool⟩⟩
      obtain ⟨hutf8, hstrict, hdepth, hpool'⟩ := not_lenient_iff.1 hlen
      exact ⟨hutf8, F, hreads, hstrict, hdepth, hsize, hpool'⟩
    · rintro ⟨hutf8, F, hreads, hstrict, hdepth, hsize, hpool⟩
      have hlen : ¬ Lenient text F := not_lenient_iff.2 ⟨hutf8, hstrict, hdepth, hpool⟩
      obtain ⟨u, s, w, -, -, -, hd⟩ := id hreads
      refine ⟨F, hreads, hsize, fun href => hno ⟨F, hreads, hsize, .inr ⟨href, hlen⟩⟩, ?_, ?_⟩
      · exact Nat.le_trans hd.height_le (Nat.succ_le_succ hdepth)
      · exact Nat.le_trans (length_pool_stored_le hd) hpool

/-- `01` is accepted and is not JSON. -/
theorem leading_zero_accepted :
    ¬ ((owjsonParse [0x30, 0x31]).isSome = true ↔ Valid [0x30, 0x31]) := by
  intro hiff
  obtain ⟨-, F, hreads, hstrict, -⟩ := hiff.1 (by decide)
  have hscan : scanText 1 [0x30, 0x31] =
      some (.leaf ⟨none, .number ⟨false, [0x30, 0x31], none, none⟩⟩) := by decide
  rw [hreads.unique (scanText_eq_some.1 hscan).1] at hstrict
  have hplain := (hstrict _ List.mem_cons_self _ rfl).1
  exact absurd (hplain rfl) (by decide)

end Owjson
