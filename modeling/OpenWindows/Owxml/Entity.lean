import OpenWindows.Lib.Utf8

/-!
# Character references

`xml_decode_entity` accumulates the digits of a numeric reference in 32 bits and encodes
what comes out by its size alone.  It succeeds on every reference, so the ones that denote
no scalar value become other bytes.
-/

namespace Owxml

/-! ## The decoder

The text of a parser is what stands from `pos` to `len`. -/

/-- `xml_peek`. -/
def xmlPeek (p : List UInt8) : Option UInt8 := p.head?

/-- `xml_match`: the text behind the literal. -/
def xmlMatch (p literal : List UInt8) : Option (List UInt8) :=
  if literal.isPrefixOf p then some (p.drop literal.length) else none

/-- `xml_encode_utf8`. -/
def xmlEncodeUtf8 (cp : UInt32) : List UInt8 := Utf8.layout cp.toNat

/-- `d` of the loop over the digits, where none leaves the loop. -/
def digit (hex : Bool) (c : UInt8) : Option UInt32 :=
  if 48 ≤ c ∧ c ≤ 57 then some (c.toUInt32 - 48)
  else if hex ∧ 97 ≤ c ∧ c ≤ 102 then some (c.toUInt32 - 97 + 10)
  else if hex ∧ 65 ≤ c ∧ c ≤ 70 then some (c.toUInt32 - 65 + 10)
  else none

/-- The loop over the digits: `cp`, `any` and the text behind them. -/
def digitsLoop (hex : Bool) : UInt32 → Bool → List UInt8 → UInt32 × Bool × List UInt8
  | cp, any, [] => (cp, any, [])
  | cp, any, c :: p =>
    match digit hex c with
    | none => (cp, any, c :: p)
    | some d => digitsLoop hex (cp * (if hex then 16 else 10) + d) true p

/-- The numeric case of `xml_decode_entity`, behind the `#`. -/
def decodeNumeric (p : List UInt8) : Option (List UInt8 × List UInt8) :=
  let hex := xmlPeek p = some 120 ∨ xmlPeek p = some 88
  let (cp, any, rest) := digitsLoop hex 0 false (if hex then p.drop 1 else p)
  if !any ∨ xmlPeek rest ≠ some 59 then none
  else some (xmlEncodeUtf8 cp, rest.drop 1)

/-- `buf` and `n` of `xml_decode_entity` and the text behind the reference. -/
def decode (p : List UInt8) : Option (List UInt8 × List UInt8) :=
  match xmlMatch p [97, 109, 112, 59] with
  | some rest => some ([38], rest)
  | none =>
    match xmlMatch p [108, 116, 59] with
    | some rest => some ([60], rest)
    | none =>
      match xmlMatch p [103, 116, 59] with
      | some rest => some ([62], rest)
      | none =>
        match xmlMatch p [113, 117, 111, 116, 59] with
        | some rest => some ([34], rest)
        | none =>
          match xmlMatch p [97, 112, 111, 115, 59] with
          | some rest => some ([39], rest)
          | none => if xmlPeek p = some 35 then decodeNumeric (p.drop 1) else none

/-- `xml_decode_entity`: `out` and the text behind the reference. -/
def xmlDecodeEntity (p : List UInt8) (cap : Nat) : Option (List UInt8 × List UInt8) :=
  match decode p with
  | none => none
  | some (buf, rest) => if buf.length > cap then none else some (buf, rest)

/-! ## References -/

/-- A numeric character reference: the `x` or `X` of a hexadecimal one and the digits. -/
structure Reference where
  mark : Option UInt8
  digits : List UInt8
  marked : ∀ x ∈ mark, x = 120 ∨ x = 88
  written : digits ≠ []
  digital : ∀ c ∈ digits, (digit mark.isSome c).isSome

/-- The text of a reference behind the `&`. -/
def Reference.text (r : Reference) : List UInt8 := 35 :: (r.mark.toList ++ (r.digits ++ [59]))

/-- The number that digits write behind a number. -/
def valueFrom (hex : Bool) (v : Nat) (digits : List UInt8) : Nat :=
  digits.foldl (fun v c => v * (if hex then 16 else 10) + ((digit hex c).getD 0).toNat) v

/-- The number that a reference writes. -/
def Reference.value (r : Reference) : Nat := valueFrom r.mark.isSome 0 r.digits

/-- A reference is decoded if it denotes a code point, and to the UTF-8 encoding of that. -/
structure Reference.Right (r : Reference) : Prop where
  succeeds : ∀ rest cap, 4 ≤ cap →
    ((xmlDecodeEntity (r.text ++ rest) cap).isSome ↔ 1 ≤ r.value ∧ r.value ≤ 0x10FFFF)
  encoded : ∀ rest cap out left, 4 ≤ cap →
    xmlDecodeEntity (r.text ++ rest) cap = some (out, left) →
    ∃ c : Char, c.val.toNat = r.value ∧ out = String.utf8EncodeChar c ∧ left = rest

/-! ## Decoding a reference -/

theorem digitsLoop_append {hex : Bool} {ds : List UInt8} (h : ∀ c ∈ ds, (digit hex c).isSome)
    (v : Nat) (any : Bool) (rest : List UInt8) :
    digitsLoop hex (UInt32.ofNat v) any (ds ++ 59 :: rest) =
      (UInt32.ofNat (valueFrom hex v ds), any || !ds.isEmpty, 59 :: rest) := by
  induction ds generalizing v any with
  | nil => cases hex <;> simp [digitsLoop, digit, valueFrom]
  | cons c ds ih =>
    obtain ⟨hc, hds⟩ := List.forall_mem_cons.mp h
    obtain ⟨d, hd⟩ := Option.isSome_iff_exists.mp hc
    have hacc : UInt32.ofNat v * (if hex then 16 else 10) + d =
        UInt32.ofNat (v * (if hex then 16 else 10) + d.toNat) := by
      cases hex <;> simp [UInt32.ofNat_add, UInt32.ofNat_mul]
    rw [List.cons_append, digitsLoop, hd]
    dsimp only
    rw [hacc, ih hds]
    simp [valueFrom, hd]

theorem digit_mark (hex : Bool) {c : UInt8} (h : c = 120 ∨ c = 88) : digit hex c = none := by
  rcases h with rfl | rfl
  · cases hex <;> decide
  · cases hex <;> decide

theorem decodeNumeric_text (r : Reference) (rest : List UInt8) :
    decodeNumeric (r.mark.toList ++ (r.digits ++ 59 :: rest)) =
      some (Utf8.layout (UInt32.ofNat r.value).toNat, rest) := by
  obtain ⟨mark, digits, marked, written, digital⟩ := r
  obtain ⟨d, ds, rfl⟩ := List.exists_cons_of_ne_nil written
  have hloop : digitsLoop mark.isSome 0 false (d :: ds ++ 59 :: rest) = _ :=
    digitsLoop_append digital 0 false rest
  cases mark with
  | none =>
    have hplain : ¬ (d = 120 ∨ d = 88) := fun h => by
      have hd := digital d List.mem_cons_self
      rw [digit_mark _ h] at hd
      cases hd
    simp only [List.cons_append, Option.isSome_none] at hloop
    simp [decodeNumeric, xmlPeek, hplain, hloop, xmlEncodeUtf8, Reference.value]
  | some x =>
    have hx := marked x rfl
    simp only [List.cons_append, Option.isSome_some] at hloop
    simp [decodeNumeric, xmlPeek, hx, hloop, xmlEncodeUtf8, Reference.value]

theorem xmlDecodeEntity_text (r : Reference) (rest : List UInt8) {cap : Nat} (hcap : 4 ≤ cap) :
    xmlDecodeEntity (r.text ++ rest) cap =
      some (Utf8.layout (UInt32.ofNat r.value).toNat, rest) := by
  have hdecode : decode (r.text ++ rest) =
      some (Utf8.layout (UInt32.ofNat r.value).toNat, rest) := by
    simpa [decode, Reference.text, xmlMatch, xmlPeek] using decodeNumeric_text r rest
  rw [xmlDecodeEntity, hdecode]
  exact if_neg (Nat.not_lt.mpr ((Utf8.length_layout_le _).trans hcap))

/-- Exactly the references to scalar values above zero are decoded as they should be. -/
theorem reference_right_iff (r : Reference) :
    r.Right ↔ r.value ≠ 0 ∧ r.value.isValidChar := by
  constructor
  · intro h
    have hrun := xmlDecodeEntity_text r [] (Nat.le_refl 4)
    have hrange := (h.succeeds [] 4 (Nat.le_refl 4)).mp (Option.isSome_iff_exists.mpr ⟨_, hrun⟩)
    obtain ⟨c, hc, -, -⟩ := h.encoded [] 4 _ _ (Nat.le_refl 4) hrun
    exact ⟨Nat.pos_iff_ne_zero.mp hrange.1, hc ▸ c.valid⟩
  · rintro ⟨hzero, hvalid⟩
    have hmax : r.value < 0x110000 := by
      rcases hvalid with h | h
      · omega
      · exact h.2
    have hcp : (UInt32.ofNat r.value).toNat = r.value :=
      UInt32.toNat_ofNat_of_lt' (Nat.lt_of_lt_of_le hmax (by decide))
    refine ⟨fun rest cap hcap => ?_, fun rest cap out left hcap hout => ?_⟩
    · rw [xmlDecodeEntity_text r rest hcap]
      exact ⟨fun _ => ⟨Nat.pos_of_ne_zero hzero, Nat.lt_succ_iff.mp hmax⟩, fun _ => rfl⟩
    · rw [xmlDecodeEntity_text r rest hcap, hcp, Utf8.layout_eq hvalid] at hout
      simp only [Option.some.injEq, Prod.mk.injEq] at hout
      exact ⟨Char.ofNat r.value, Utf8.toNat_char hvalid, hout.1.symm, hout.2.symm⟩

/-- `4294967361;` is decoded, and to the letter of number 65. -/
theorem reference_wraps :
    ∃ r : Reference, r.text = 35 :: ([52, 50, 57, 52, 57, 54, 55, 51, 54, 49] ++ [59]) ∧
      r.value = 2 ^ 32 + 65 ∧ xmlDecodeEntity r.text 4 = some ([65], []) ∧ ¬ r.Right := by
  refine ⟨⟨none, [52, 50, 57, 52, 57, 54, 55, 51, 54, 49], by simp, by simp,
    List.all_eq_true.mp (by decide)⟩, rfl, by decide, by decide, fun h => ?_⟩
  have hrange := (h.succeeds [] 4 (Nat.le_refl 4)).mp (by decide)
  exact absurd hrange.2 (by decide)

end Owxml
