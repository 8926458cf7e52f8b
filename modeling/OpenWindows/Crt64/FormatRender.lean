import Mathlib.Data.List.TakeWhile
import OpenWindows.Crt64.FormatIso

/-!
# The integer conversions of the formatter

A directive is read back from its text, its argument gives the sign and the magnitude of the
value, and what is put for it is a field.  That field is the prescribed one up to a leading zero,
the zero fill and the width, and each of them goes wrong under a condition of its own.
-/

namespace Crt64

open Memory

variable {D : IntDirective} {a : FmtArg} {v : Int}

/-! ## Reading the text -/

/-- A loop over the characters of `p` stops at this text. -/
def Stops (p : UInt8 → Bool) (l : List UInt8) : Prop := ∃ c t, l = c :: t ∧ p c = false

theorem fmtWhile_all {α : Type} {p : UInt8 → Bool} {step : α → UInt8 → α} {cs l : List UInt8}
    (hcs : ∀ c ∈ cs, p c = true) (hl : Stops p l) (x : α) :
    fmtWhile p step x (cs ++ l) = .ok (cs.foldl step x, l) := by
  obtain ⟨c, t, rfl, hc⟩ := hl
  rw [fmtWhile_ok hc, List.takeWhile_eq_self_iff.mpr hcs, List.dropWhile_eq_nil_iff.mpr hcs,
    List.nil_append]

def IntDirective.flagSet (D : IntDirective) : FmtFlags where
  left := .minus ∈ D.flags
  plus := .plus ∈ D.flags
  space := .space ∈ D.flags
  alt := .hash ∈ D.flags
  zero := .zero ∈ D.flags

/-- `llen` of a length modifier. -/
def LengthMod.llen : LengthMod → Nat
  | none | hh | h => 0
  | l => 1
  | ll => 2
  | j | z | t => 3

def IntDirective.read (D : IntDirective) : Directive where
  flags := D.flagSet
  width := D.fieldWidth % 2 ^ 32
  havePrec := D.precision.isSome
  prec := D.precision.getD 0 % 2 ^ 32
  llen := D.length.llen
  spec := D.conv.char

theorem isFlag_char (f : Flag) : isFlag f.char = true := by cases f <;> rfl

theorem foldl_add_flags (fs : List Flag) (F : FmtFlags) :
    (fs.map Flag.char).foldl FmtFlags.add F =
      { left := F.left || .minus ∈ fs
        plus := F.plus || .plus ∈ fs
        space := F.space || .space ∈ fs
        alt := F.alt || .hash ∈ fs
        zero := F.zero || .zero ∈ fs } := by
  induction fs generalizing F with
  | nil => simp
  | cons f fs ih =>
    rw [List.map_cons, List.foldl_cons, ih]
    cases f <;> simp [Flag.char, FmtFlags.add]

theorem isDigit_digitsOf (ds : List (Fin 10)) : ∀ c ∈ digitsOf ds, isDigit c = true := by
  have hdigit : ∀ d : Fin 10, isDigit (UInt8.ofNat (48 + d.val)) = true := by decide
  intro c hc
  obtain ⟨d, -, rfl⟩ := List.mem_map.mp hc
  exact hdigit d

theorem decimal_digitsOf (ds : List (Fin 10)) : decimal (digitsOf ds) = numeral ds := by
  have hdigit : ∀ d : Fin 10, (UInt8.ofNat (48 + d.val)).toNat - 48 = d.val := by decide
  rw [decimal, digitsOf, numeral, List.foldl_map]
  simp only [hdigit]

theorem fmtDigits_digitsOf {l : List UInt8} (hl : Stops isDigit l) (ds : List (Fin 10)) :
    fmtDigits (digitsOf ds ++ l) = .ok (numeral ds % 2 ^ 32, l) := by
  rw [fmtDigits, fmtWhile_all (isDigit_digitsOf ds) hl, foldl_addDigit, decimal_digitsOf]

theorem fmtLength_text {l : List UInt8} (hl : Stops isLength l) (m : LengthMod) :
    fmtLength (m.text ++ l) = .ok (m.llen, l) := by
  rw [fmtLength, fmtWhile_all (by cases m <;> decide +kernel) hl]
  cases m <;> rfl

theorem lengthText_stops (D : IntDirective) (rest : List UInt8) :
    ∃ c t, D.length.text ++ (D.conv.char :: rest) = c :: t ∧
      isFlag c = false ∧ isDigit c = false ∧ c ≠ 46 := by
  cases D.length with
  | none => cases D.conv <;> exact ⟨_, _, rfl, by decide⟩
  | _ => exact ⟨_, _, rfl, by decide⟩

theorem precText_stops (D : IntDirective) (rest : List UInt8) :
    ∃ c t, D.precText ++ (D.length.text ++ (D.conv.char :: rest)) = c :: t ∧
      isFlag c = false ∧ isDigit c = false := by
  rw [IntDirective.precText]
  cases D.prec with
  | none =>
    obtain ⟨c, t, h, hflag, hdigit, -⟩ := lengthText_stops D rest
    exact ⟨c, t, h, hflag, hdigit⟩
  | some ds => exact ⟨_, _, rfl, by decide⟩

theorem widthText_stops (D : IntDirective) (rest : List UInt8) :
    Stops isFlag
      (digitsOf D.width ++ (D.precText ++ (D.length.text ++ (D.conv.char :: rest)))) := by
  have hdigit : ∀ d : Fin 10, d ≠ 0 → isFlag (UInt8.ofNat (48 + d.val)) = false := by decide
  have hhead := D.width_head
  cases hw : D.width with
  | nil =>
    obtain ⟨c, t, h, hflag, -⟩ := precText_stops D rest
    exact ⟨c, t, h, hflag⟩
  | cons d ds =>
    rw [hw, List.head?_cons] at hhead
    exact ⟨_, _, rfl, hdigit d fun h => hhead (congrArg some h)⟩

theorem fmtPrec_precText (D : IntDirective) (rest : List UInt8) :
    fmtPrec (D.precText ++ (D.length.text ++ (D.conv.char :: rest))) =
      .ok ((D.precision.isSome, D.precision.getD 0 % 2 ^ 32),
        D.length.text ++ (D.conv.char :: rest)) := by
  obtain ⟨c, t, h, -, hdigit, hdot⟩ := lengthText_stops D rest
  rw [IntDirective.precText, IntDirective.precision]
  cases D.prec with
  | none =>
    rw [List.nil_append, h, fmtPrec, if_neg hdot]
    rfl
  | some ds =>
    rw [List.cons_append, fmtPrec, if_pos rfl, fmtDigits_digitsOf ⟨c, t, h, hdigit⟩]
    rfl

theorem readDirective_spelling (D : IntDirective) (rest : List UInt8) :
    readDirective (D.spelling ++ rest) = .ok (D.read, rest) := by
  have hflags : fmtFlags (D.flags.map Flag.char ++
      (digitsOf D.width ++ (D.precText ++ (D.length.text ++ (D.conv.char :: rest))))) =
      .ok (D.flagSet, digitsOf D.width ++ (D.precText ++ (D.length.text ++
        (D.conv.char :: rest)))) := by
    have hall : ∀ c ∈ D.flags.map Flag.char, isFlag c = true := by
      intro c hc
      obtain ⟨f, -, rfl⟩ := List.mem_map.mp hc
      exact isFlag_char f
    rw [fmtFlags, fmtWhile_all hall (widthText_stops D rest), foldl_add_flags]
    simp [IntDirective.flagSet]
  have hlength : Stops isLength (D.conv.char :: rest) :=
    ⟨_, _, rfl, by cases D.conv <;> decide⟩
  obtain ⟨c, t, h, -, hdigit⟩ := precText_stops D rest
  simp only [readDirective, IntDirective.spelling, List.append_assoc, List.singleton_append, hflags,
    fmtDigits_digitsOf ⟨c, t, h, hdigit⟩, fmtPrec_precText, fmtLength_text hlength, fmtNext, bind,
    Except.bind]
  rfl

/-! ## The value -/

theorem bmod_eq_of_emod_eq {n v : Int} {m : Nat} (h : n % (2 * m) = v % (2 * m))
    (hv : -m ≤ v ∧ v < m) : Int.bmod n (2 * m) = v := by
  have hbmod : Int.bmod n (2 * m) = Int.bmod v (2 * m) := by
    rw [Int.bmod_def, Int.bmod_def]
    push_cast
    rw [h]
  rw [hbmod]
  exact Int.bmod_eq_of_le (by push_cast; omega) (by push_cast; omega)

theorem magnitude_eq (sv : Int64) :
    (magnitude sv).1 = decide (sv.toInt < 0) ∧ (magnitude sv).2.toNat = sv.toInt.natAbs := by
  have hbits : sv.toInt = Int.bmod sv.toUInt64.toNat (2 ^ 64) :=
    BitVec.toInt_eq_toNat_bmod sv.toBitVec
  have hlt := sv.toUInt64.toNat_lt
  rw [Int.bmod_def] at hbits
  rw [magnitude]
  split
  next hmin =>
    subst hmin
    exact ⟨rfl, rfl⟩
  next hmin =>
    have hne : sv.toInt ≠ -2 ^ 63 := fun h => hmin (Int64.toInt_inj.mp h)
    split
    next hneg =>
      have hneg : sv.toInt < 0 := Int64.lt_iff_toInt_lt.mp hneg
      refine ⟨by simp [hneg], ?_⟩
      rw [Int64.toUInt64_neg, UInt64.toNat_neg, UInt64.size]
      omega
    next hneg =>
      have hneg : ¬ sv.toInt < 0 := fun h => hneg (Int64.lt_iff_toInt_lt.mpr h)
      exact ⟨by simp [hneg], by dsimp only; omega⟩

theorem LengthMod.llen_bits (m : LengthMod) :
    m.llen = 0 ∧ (m.bits = 8 ∨ m.bits = 16 ∨ m.bits = 32) ∨
      (m.llen = 1 ∨ m.llen = 2 ∨ m.llen = 3) ∧ m.bits = 64 := by
  cases m <;> decide

theorem toInt_signed (hsigned : D.conv.signed = true) (hrange : D.InRange v) (ha : D.Passes a v) :
    (a.signed D.length.llen).toInt = v := by
  rw [IntDirective.InRange, if_pos hsigned] at hrange
  rw [IntDirective.Passes] at ha
  rcases D.length.llen_bits with ⟨hllen, hbits⟩ | ⟨hllen, hbits⟩
  · have hcut : a.bits.toUInt32.toInt32.toInt = Int.bmod a.bits.toUInt32.toNat (2 * 2 ^ 31) :=
      BitVec.toInt_eq_toNat_bmod a.bits.toUInt32.toBitVec
    rw [hllen, FmtArg.signed, if_neg (by decide), if_neg (by decide), Int32.toInt_toInt64, hcut,
      UInt64.toNat_toUInt32]
    refine bmod_eq_of_emod_eq ?_ ?_
    · rcases hbits with h | h | h <;> rw [h] at ha <;> norm_num at ha ⊢ <;> exact ha
    · rcases hbits with h | h | h <;> rw [h] at hrange <;> norm_num at hrange ⊢ <;> omega
  · have hwide : a.bits.toInt64.toInt = Int.bmod a.bits.toNat (2 * 2 ^ 63) :=
      BitVec.toInt_eq_toNat_bmod a.bits.toBitVec
    have hsigned : a.signed D.length.llen = a.bits.toInt64 := by
      rcases hllen with h | h | h <;> rw [h] <;> rfl
    rw [hbits] at ha hrange
    rw [hsigned, hwide]
    exact bmod_eq_of_emod_eq ha hrange

theorem toNat_unsigned (hsigned : D.conv.signed = false) (hrange : D.InRange v)
    (ha : D.Passes a v) : (a.unsigned D.length.llen).toNat = v.natAbs := by
  rw [IntDirective.InRange, if_neg (by simp [hsigned])] at hrange
  rw [IntDirective.Passes] at ha
  rcases D.length.llen_bits with ⟨hllen, hbits⟩ | ⟨hllen, hbits⟩
  · rw [hllen, FmtArg.unsigned, if_neg (by decide), if_neg (by decide), UInt32.toNat_toUInt64,
      UInt64.toNat_toUInt32]
    rcases hbits with h | h | h <;> rw [h] at ha hrange <;> norm_num at ha hrange <;> omega
  · have hunsigned : a.unsigned D.length.llen = a.bits := by
      rcases hllen with h | h | h <;> rw [h] <;> rfl
    have hlt := a.bits.toNat_lt
    rw [hbits] at ha hrange
    rw [hunsigned]
    norm_num at ha hrange
    omega

theorem fmtFetch_signed {d : Directive} (h : d.spec = 100 ∨ d.spec = 105) (a : FmtArg) :
    fmtFetch d a = some
      { spec := d.spec, alt := d.flags.alt, zero := d.flags.zero
        neg := (magnitude (a.signed d.llen)).1, uv := (magnitude (a.signed d.llen)).2 } := by
  rcases h with h | h <;> simp [fmtFetch, h]

theorem fmtFetch_unsigned {d : Directive}
    (h : d.spec = 117 ∨ d.spec = 111 ∨ d.spec = 120 ∨ d.spec = 88) (a : FmtArg) :
    fmtFetch d a = some
      { spec := d.spec, alt := d.flags.alt, zero := d.flags.zero, uv := a.unsigned d.llen } := by
  rcases h with h | h | h | h <;> simp [fmtFetch, h]

/-- What the chain over `spec` sets for a directive. -/
def IntDirective.converted (D : IntDirective) (v : Int) (uv : UInt64) : Conversion where
  spec := D.conv.char
  alt := .hash ∈ D.flags
  zero := .zero ∈ D.flags
  neg := v < 0
  uv := uv

theorem fmtFetch_read (hrange : D.InRange v) (ha : D.Passes a v) :
    ∃ uv : UInt64, uv.toNat = v.natAbs ∧ fmtFetch D.read a = some (D.converted v uv) := by
  cases hsigned : D.conv.signed with
  | true =>
    have hv := toInt_signed hsigned hrange ha
    obtain ⟨hneg, huv⟩ := magnitude_eq (a.signed D.length.llen)
    rw [hv] at hneg huv
    have hspec : D.conv.char = 100 ∨ D.conv.char = 105 := by
      cases hconv : D.conv <;> simp [hconv, IntConv.signed, IntConv.char] at hsigned ⊢
    refine ⟨_, huv, ?_⟩
    rw [fmtFetch_signed hspec, IntDirective.converted, ← hneg]
    rfl
  | false =>
    have hneg : ¬ v < 0 := by
      rw [IntDirective.InRange, if_neg (by simp [hsigned])] at hrange
      omega
    have hspec : D.conv.char = 117 ∨ D.conv.char = 111 ∨ D.conv.char = 120 ∨
        D.conv.char = 88 := by
      cases hconv : D.conv <;> simp [hconv, IntConv.signed, IntConv.char] at hsigned ⊢
    refine ⟨_, toNat_unsigned hsigned hrange ha, ?_⟩
    rw [fmtFetch_unsigned hspec, IntDirective.converted, decide_eq_false hneg]
    rfl

/-! ## The prefix and the digits -/

theorem radix_converted (D : IntDirective) (v : Int) (uv : UInt64) :
    (D.converted v uv).radix = D.conv.radix ∧ (D.converted v uv).upper = D.conv.upper := by
  rw [IntDirective.converted, Conversion.radix, Conversion.upper]
  cases D.conv <;> exact ⟨rfl, rfl⟩

theorem toNat_ne_zero {uv : UInt64} (huv : uv.toNat = v.natAbs) : uv ≠ 0 ↔ v ≠ 0 := by
  rw [Ne, ← UInt64.toNat_inj, huv, UInt64.toNat_zero, Int.natAbs_eq_zero]

theorem fmtPrefix_converted {uv : UInt64} (huv : uv.toNat = v.natAbs) :
    fmtPrefix D.read (D.converted v uv) =
      if D.OctalAlt ∧ v ≠ 0 then [48] else D.isoPrefix v := by
  have hzero := toNat_ne_zero huv
  rw [fmtPrefix, (radix_converted D v uv).1, (radix_converted D v uv).2]
  rw [IntDirective.converted, IntDirective.isoPrefix]
  cases hconv : D.conv <;>
    simp [hconv, IntConv.char, IntConv.radix, IntConv.upper, hzero, IntDirective.read,
      IntDirective.flagSet, IntDirective.OctalAlt]

theorem uintText_eq (radix : Nat) (upper : Bool) (n : Nat) :
    uintText radix upper n =
      List.replicate (1 - (Nat.digits radix n).length) 48 ++ digitsText radix upper n := by
  rw [uintText]
  split
  next h => simp [h, digitsText]
  next h =>
    have hpos : 0 < (Nat.digits radix n).length :=
      List.length_pos_iff.mpr (Nat.digits_ne_nil_iff_ne_zero.mpr h)
    rw [show 1 - (Nat.digits radix n).length = 0 by omega]
    rfl

theorem numberText_read (hprec : ∀ p ∈ D.precision, p ≤ 20) (n : Nat) :
    numberText D.read D.conv.radix D.conv.upper n =
      List.replicate (max 1 (D.precision.getD 1) - (Nat.digits D.conv.radix n).length) 48 ++
        digitsText D.conv.radix D.conv.upper n := by
  have hlen : (uintText D.conv.radix D.conv.upper n).length =
      max 1 (Nat.digits D.conv.radix n).length := by
    rw [uintText_eq, List.length_append, List.length_replicate, length_digitsText]
    omega
  simp only [numberText, IntDirective.read, hlen]
  cases hp : D.precision with
  | none => simpa [hp] using uintText_eq ..
  | some p =>
    have hp20 := hprec p hp
    rw [uintText_eq, ← List.append_assoc, List.replicate_append_replicate]
    simp only [Option.isSome_some, if_true, Option.getD_some]
    congr 2
    omega

def IntDirective.ExtraZero (D : IntDirective) (v : Int) : Prop :=
  (D.precision = some 0 ∧ v = 0 ∧ ¬ D.OctalAlt) ∨
    (D.OctalAlt ∧ v ≠ 0 ∧ (Nat.digits 8 v.natAbs).length < D.precision.getD 0)

instance : Decidable (D.ExtraZero v) := inferInstanceAs (Decidable (_ ∨ _))

theorem replicate_ite (c : Prop) [Decidable c] :
    (if c then [(48 : UInt8)] else []) = List.replicate (if c then 1 else 0) 48 := by
  split <;> rfl

theorem zeros_put :
    (if D.OctalAlt ∧ v ≠ 0 then 1 else 0) +
        (max 1 (D.precision.getD 1) - (Nat.digits D.conv.radix v.natAbs).length) =
      (if D.ExtraZero v then 1 else 0) +
        (D.minDigits v.natAbs - (Nat.digits D.conv.radix v.natAbs).length) := by
  have hlen : (Nat.digits D.conv.radix v.natAbs).length = 0 ↔ v = 0 := by
    rw [List.length_eq_zero_iff, Nat.digits_eq_nil_iff_eq_zero, Int.natAbs_eq_zero]
  have hoctal : D.OctalAlt → D.conv.radix = 8 := by
    rintro ⟨hconv, -⟩
    rw [hconv]
    rfl
  have hdefault : D.precision.getD 0 = D.precision.getD 1 ∨
      D.precision.getD 0 = 0 ∧ D.precision.getD 1 = 1 := by
    cases D.precision <;> simp
  by_cases hoct : D.OctalAlt
  · have hextra : D.ExtraZero v ↔
        v ≠ 0 ∧ (Nat.digits 8 v.natAbs).length < D.precision.getD 0 := by
      simp [IntDirective.ExtraZero, hoct]
    rw [hoctal hoct] at hlen ⊢
    simp only [IntDirective.minDigits, hextra, hoct, true_and, if_true]
    split_ifs <;> omega
  · have hextra : D.ExtraZero v ↔ D.precision.getD 1 = 0 ∧ v = 0 := by
      cases hp : D.precision <;> simp [IntDirective.ExtraZero, hoct, hp]
    simp only [IntDirective.minDigits, hextra, hoct, false_and, if_false]
    split_ifs <;> omega

theorem digits_put (hprec : ∀ p ∈ D.precision, p ≤ 20) :
    (if D.OctalAlt ∧ v ≠ 0 then [48] else []) ++
        numberText D.read D.conv.radix D.conv.upper v.natAbs =
      (if D.ExtraZero v then [48] else []) ++ D.isoDigits v.natAbs := by
  rw [numberText_read hprec, IntDirective.isoDigits, length_digitsText, replicate_ite,
    replicate_ite, ← List.append_assoc, ← List.append_assoc, List.replicate_append_replicate,
    List.replicate_append_replicate, zeros_put]

/-! ## The field -/

def IntDirective.codeText (D : IntDirective) (v : Int) : List UInt8 :=
  fieldText (D.fieldWidth % 2 ^ 32) (.minus ∈ D.flags) (.zero ∈ D.flags) (D.isoPrefix v)
    ((if D.ExtraZero v then [48] else []) ++ D.isoDigits v.natAbs)

theorem fmtDirective_read {args : Nat → FmtArg} {ap : Nat} (hrange : D.InRange v)
    (ha : D.Passes (args ap) v) (hprec : ∀ p ∈ D.precision, p ≤ 20) (cap : Nat) (o : FmtOut) :
    fmtDirective cap args D.read ap o = .ok (ap + 1, fmtCopy cap (D.codeText v) o) := by
  obtain ⟨uv, huv, hfetch⟩ := fmtFetch_read hrange ha
  have hspec : (D.converted v uv).spec ≠ 99 ∧ (D.converted v uv).spec ≠ 115 := by
    show D.conv.char ≠ 99 ∧ D.conv.char ≠ 115
    cases D.conv <;> decide
  have hbody : fmtBody D.read (D.converted v uv) (args ap) =
      .ok (numberText D.read D.conv.radix D.conv.upper v.natAbs) := by
    rw [fmtBody_ok, bodyText, if_neg hspec.1, if_neg hspec.2, (radix_converted D v uv).1,
      (radix_converted D v uv).2, ← huv]
    · rfl
    · intro _ _ hhave
      obtain ⟨p, hp⟩ := Option.isSome_iff_exists.mp hhave
      have hp20 := hprec p hp
      show D.precision.getD 0 % 2 ^ 32 ≤ 24
      rw [hp, Option.getD_some]
      omega
  have hfield : fieldText (D.fieldWidth % 2 ^ 32) (.minus ∈ D.flags) (.zero ∈ D.flags)
      (if D.OctalAlt ∧ v ≠ 0 then [48] else D.isoPrefix v)
      (numberText D.read D.conv.radix D.conv.upper v.natAbs) = D.codeText v := by
    rw [IntDirective.codeText, ← digits_put hprec]
    split
    next hoct =>
      have hpre : D.isoPrefix v = [] := by
        rw [IntDirective.isoPrefix, hoct.1.1]
      rw [fieldText_zero_first, hpre]
      rfl
    · rfl
  rw [fmtDirective, hfetch]
  simp only [hbody, bind, Except.bind, fmtLayout_eq, fmtPrefix_converted huv]
  rw [← hfield]
  rfl

/-! ## Comparing fields -/

theorem space_not_mem_digits (D : IntDirective) (n : Nat) : (32 : UInt8) ∉ D.isoDigits n := by
  have hchar : ∀ (upper : Bool) (d : Fin 16), digitChar upper d.val ≠ 32 := by decide
  have hradix : 1 < D.conv.radix ∧ D.conv.radix ≤ 16 := by cases D.conv <;> decide
  rw [IntDirective.isoDigits, List.mem_append, not_or]
  refine ⟨fun h => absurd (List.eq_of_mem_replicate h) (by decide), fun h => ?_⟩
  rw [digitsText, List.mem_reverse] at h
  obtain ⟨d, hd, heq⟩ := List.mem_map.mp h
  have hlt := Nat.digits_lt_base hradix.1 hd
  exact hchar _ ⟨d, by omega⟩ heq

theorem length_isoPrefix_le (D : IntDirective) (v : Int) : (D.isoPrefix v).length ≤ 2 := by
  rw [IntDirective.isoPrefix]
  split <;> (try split_ifs) <;> decide

theorem natAbs_lt (hrange : D.InRange v) : v.natAbs < 2 ^ 64 := by
  rw [IntDirective.InRange] at hrange
  split at hrange
  · cases hlen : D.length <;> norm_num [hlen, LengthMod.bits] at hrange <;> omega
  · cases hlen : D.length <;> norm_num [hlen, LengthMod.bits] at hrange <;> omega

theorem length_isoDigits_le (hrange : D.InRange v) (hprec : ∀ p ∈ D.precision, p ≤ 20) :
    (D.isoDigits v.natAbs).length ≤ 23 := by
  have hdigits : ∀ radix, 8 ≤ radix → (Nat.digits radix v.natAbs).length ≤ 22 :=
    fun radix hradix => length_digits_le hradix (natAbs_lt hrange)
  have hradix := hdigits D.conv.radix (by cases D.conv <;> decide)
  have hoctal := hdigits 8 le_rfl
  have hp : D.precision.getD 1 ≤ 20 := by
    cases h : D.precision with
    | none => decide
    | some p => exact hprec p h
  rw [IntDirective.isoDigits, List.length_append, List.length_replicate, length_digitsText,
    IntDirective.minDigits]
  split <;> omega

variable {w : Nat} {left zero : Bool} {pre body : List UInt8}

theorem fieldText_ne_cons (hbody : (32 : UInt8) ∉ body) :
    fieldText w left zero pre (48 :: body) ≠ fieldText w left false pre body := by
  intro h
  have hlen := congrArg List.length h
  have hcount := congrArg (List.count 32) h
  rw [length_fieldText, length_fieldText, List.length_cons] at hlen
  rw [count_space_fieldText (by simpa using hbody), count_space_fieldText hbody, spaceFill,
    spaceFill, List.length_cons] at hcount
  cases zero <;> cases left <;> simp at hcount <;> omega

theorem fieldText_zero_iff (hbody : (32 : UInt8) ∉ body) :
    fieldText w left true pre body = fieldText w left false pre body ↔
      left = true ∨ w ≤ pre.length + body.length := by
  constructor
  · intro h
    have hcount := congrArg (List.count 32) h
    rw [count_space_fieldText hbody, count_space_fieldText hbody, spaceFill, spaceFill] at hcount
    cases left <;> simp at hcount ⊢
    omega
  · rintro (rfl | h)
    · rfl
    · rw [fieldText, fieldText, Nat.sub_eq_zero_of_le h]
      simp

theorem fieldText_ne_wide {zero' : Bool} {body' : List UInt8} (hw : 2 ^ 32 ≤ w)
    (hshort : pre.length + body'.length < 2 ^ 32) :
    fieldText (w % 2 ^ 32) left zero pre body' ≠ fieldText w left zero' pre body := by
  intro h
  have hlen := congrArg List.length h
  rw [length_fieldText, length_fieldText] at hlen
  omega

/-- The values and directives for which the prescribed text is put. -/
structure IntDirective.Exact (D : IntDirective) (v : Int) : Prop where
  /-- The width fits into a `uint32_t`. -/
  width : D.fieldWidth < 2 ^ 32
  /-- No zero of precision zero, unless it is in the alternative octal form. -/
  nothing : D.precision = some 0 → v = 0 → D.OctalAlt
  /-- No leading zeros from a precision in the alternative octal form. -/
  octal : D.OctalAlt → v ≠ 0 → D.precision.getD 0 ≤ (Nat.digits 8 v.natAbs).length
  /-- With a precision, the `0` flag has nothing to fill. -/
  fill : .zero ∈ D.flags → .minus ∉ D.flags → D.precision ≠ none →
    D.fieldWidth ≤ (D.isoPrefix v).length + (D.isoDigits v.natAbs).length

theorem extraZero_iff (D : IntDirective) (v : Int) :
    ¬ D.ExtraZero v ↔ (D.precision = some 0 → v = 0 → D.OctalAlt) ∧
      (D.OctalAlt → v ≠ 0 → D.precision.getD 0 ≤ (Nat.digits 8 v.natAbs).length) := by
  simp only [IntDirective.ExtraZero, not_or, not_and, not_not, not_lt]

theorem ExtraZero.precision (h : D.ExtraZero v) : D.precision ≠ none := by
  rcases h with ⟨hp, -⟩ | ⟨-, -, hp⟩
  · simp [hp]
  · rintro hnone
    simp [hnone] at hp

theorem codeText_eq_iff (hrange : D.InRange v) (hprec : ∀ p ∈ D.precision, p ≤ 20) :
    D.codeText v = D.isoText v ↔ D.Exact v := by
  have hspace := space_not_mem_digits D v.natAbs
  rw [IntDirective.codeText, IntDirective.isoText]
  constructor
  · intro h
    have hw : D.fieldWidth < 2 ^ 32 := by
      by_contra hw
      have hpre := length_isoPrefix_le D v
      have hbody := length_isoDigits_le hrange hprec
      refine fieldText_ne_wide (Nat.le_of_not_lt hw) ?_ h
      split <;> simp <;> omega
    rw [Nat.mod_eq_of_lt hw] at h
    have hextra : ¬ D.ExtraZero v := by
      intro hextra
      have hiso : decide (.zero ∈ D.flags ∧ D.precision = none) = false :=
        decide_eq_false fun hz => ExtraZero.precision hextra hz.2
      rw [if_pos hextra, hiso] at h
      exact fieldText_ne_cons hspace h
    obtain ⟨hnothing, hoctal⟩ := (extraZero_iff D v).mp hextra
    refine ⟨hw, hnothing, hoctal, fun hzero hminus hp => ?_⟩
    have hiso : decide (.zero ∈ D.flags ∧ D.precision = none) = false :=
      decide_eq_false fun hz => hp hz.2
    rw [if_neg hextra, decide_eq_true hzero, hiso, decide_eq_false hminus] at h
    exact ((fieldText_zero_iff hspace).mp h).resolve_left Bool.false_ne_true
  · rintro ⟨hw, hnothing, hoctal, hfill⟩
    rw [Nat.mod_eq_of_lt hw, if_neg ((extraZero_iff D v).mpr ⟨hnothing, hoctal⟩), List.nil_append]
    by_cases hzero : .zero ∈ D.flags ∧ D.precision ≠ none
    · have hiso : decide (.zero ∈ D.flags ∧ D.precision = none) = false :=
        decide_eq_false fun hz => hzero.2 hz.2
      rw [decide_eq_true hzero.1, hiso, fieldText_zero_iff hspace]
      by_cases hminus : .minus ∈ D.flags
      · exact .inl (decide_eq_true hminus)
      · exact .inr (hfill hzero.1 hminus hzero.2)
    · have hiff : .zero ∈ D.flags ∧ D.precision = none ↔ .zero ∈ D.flags := by
        refine ⟨And.left, fun h => ⟨h, ?_⟩⟩
        by_contra hp
        exact hzero ⟨h, hp⟩
      rw [decide_eq_decide.mpr hiff]

/-! ## The call -/

theorem fmtLoop_literal {cap : Nat} {args : Nat → FmtArg} {lit : List UInt8}
    (hlit : ∀ c ∈ lit, c ≠ 0 ∧ c ≠ 37) (fuel : Nat) (p : List UInt8) (ap : Nat) (o : FmtOut) :
    fmtLoop cap args (lit.length + fuel) (lit ++ p) ap o =
      fmtLoop cap args fuel p ap (fmtCopy cap lit o) := by
  induction lit generalizing o with
  | nil => rw [List.length_nil, Nat.zero_add]; rfl
  | cons c lit ih =>
    rw [List.forall_mem_cons] at hlit
    rw [List.length_cons, Nat.add_right_comm, List.cons_append, fmtLoop, if_neg hlit.1.1,
      if_pos hlit.1.2, ih hlit.2]
    rfl

/-- A call with one directive between two literal texts puts the prescribed text just under the
conditions of `Exact`. -/
theorem owSnprintf_iso_iff (D : IntDirective) (v : Int) (args : Nat → FmtArg)
    (lit lit' : List UInt8) (hlit : ∀ c ∈ lit ++ lit', c ≠ 0 ∧ c ≠ 37)
    (hprec : ∀ p ∈ D.precision, p ≤ 20) (hrange : D.InRange v) (hargs : D.Passes (args 0) v) :
    (∀ out cap, owSnprintf out cap (lit ++ D.text ++ lit' ++ [0]) args =
      .ok (printed out cap (lit ++ D.isoText v ++ lit'))) ↔ D.Exact v := by
  have hcall : ∀ out cap, owSnprintf out cap (lit ++ D.text ++ lit' ++ [0]) args =
      .ok (printed out cap (lit ++ D.codeText v ++ lit')) := by
    intro out cap
    refine owSnprintf_of_loop out cap fun cap o => ?_
    rw [List.forall_mem_append] at hlit
    have hlen : (lit ++ D.text ++ lit' ++ [0]).length =
        lit.length + (lit'.length + (D.spelling.length + 1) + 1) := by
      simp only [List.length_append, IntDirective.text, List.length_cons, List.length_nil]
      omega
    rw [hlen, List.append_assoc, List.append_assoc, fmtLoop_literal hlit.1, IntDirective.text,
      List.cons_append, fmtLoop, if_neg (by decide), if_neg (by decide), readDirective_spelling]
    simp only [fmtDirective_read hrange hargs hprec, bind, Except.bind]
    rw [fmtLoop_literal hlit.2, fmtCopy_append, fmtCopy_append]
    rfl
  rw [← codeText_eq_iff hrange hprec]
  constructor
  · intro h
    have heq := printed_injective fun out cap =>
      Except.ok.inj ((hcall out cap).symm.trans (h out cap))
    simpa using heq
  · intro h out cap
    rw [hcall, h]

/-- `%#06x` of 255. -/
theorem owSnprintf_iso_iff_hex :
    owSnprintf (some blank) 8 ([] ++ [37, 35, 48, 54, 120] ++ [] ++ [0]) (fun _ => ⟨255, none⟩) =
      .ok (printed (some blank) 8 [48, 120, 48, 48, 102, 102]) :=
  (owSnprintf_iso_iff ⟨[.hash, .zero], [6], by decide, none, .none, .x⟩ 255 (fun _ => ⟨255, none⟩)
    [] [] (by simp) (by decide) (by decide) (by decide)).mpr
    ⟨by decide, by decide, by decide, by decide⟩ (some blank) 8

/-- `%05.3d`. -/
def paddedThree : IntDirective := ⟨[.zero], [5], by decide, some [3], .none, .d⟩

/-- Of 7, `%05.3d` makes `00007` where two spaces and `007` are prescribed. -/
theorem owSnprintf_zero_fill :
    paddedThree.InRange 7 ∧ paddedThree.Passes ⟨7, none⟩ 7 ∧
      paddedThree.isoText 7 = [32, 32, 48, 48, 55] ∧
      owSnprintf (some blank) 8 (paddedThree.text ++ [0]) (fun _ => ⟨7, none⟩) ≠
        .ok (printed (some blank) 8 (paddedThree.isoText 7)) := by
  refine ⟨by decide, by decide, by decide, fun h => ?_⟩
  have hfirst := congrArg (fun r => (r.toOption.bind Prod.fst).map fun m => m 0) h
  revert hfirst
  decide

end Crt64
