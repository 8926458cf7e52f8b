import OpenWindows.Extensions.Sutf8
import OpenWindows.Lib.Utf8

/-!
# The SUTF-16 transformation

The codecs of `sutf16.h` and `sust16.h`: a codepoint of the 31-bit space becomes one word, or
two of which the first has its top bit set; and the words become bytes in either order.
-/

namespace Sutf16

open Sutf8

/-! ## Words -/

/-- `sutf16_encode_char`: the words that are written, none for an error. -/
def sutf16EncodeChar (cp size : Nat) : List UInt16 :=
  if !sucsIsValid cp then []
  else if cp ≤ 0x7FFF then
    if size < 1 then [] else [UInt16.ofNat (cp &&& 0x7FFF)]
  else if size < 2 then []
  else [UInt16.ofNat (0x8000 ||| ((cp >>> 16) &&& 0x7FFF)), UInt16.ofNat (cp &&& 0xFFFF)]

/-- What the decoders make of two words. -/
def joined (w0 w1 : UInt16) : Option Nat :=
  let cp := (w0 &&& 0x7FFF).toNat <<< 16 ||| w1.toNat
  if cp ≤ 0x7FFF then none else if !sucsIsValid cp then none else some cp

/-- What the decoders make of one word. -/
def literal (w0 : UInt16) : Option Nat := if !sucsIsValid w0.toNat then none else some w0.toNat

/-- `sutf16_decode_char`: the codepoint and the words it takes, or none for an error. -/
def sutf16DecodeChar : List UInt16 → Option (Nat × Nat)
  | [] => none
  | w0 :: ws =>
    if w0 &&& 0x8000 ≠ 0 then ws.head?.bind fun w1 => (joined w0 w1).map (·, 2)
    else (literal w0).map (·, 1)

/-! ## Bytes -/

/-- Two bytes, the high one first or last. -/
def inOrder (big : Bool) (hi lo : UInt8) : List UInt8 := if big then [hi, lo] else [lo, hi]

def wordOf (big : Bool) (a b : UInt8) : UInt16 :=
  if big then a.toUInt16 <<< 8 ||| b.toUInt16 else a.toUInt16 ||| b.toUInt16 <<< 8

/-- The encoders of `sust16.h`. -/
def encodeBytes (big : Bool) (cp size : Nat) : List UInt8 :=
  if !sucsIsValid cp then []
  else if cp ≤ 0x7FFF then
    if size < 2 then []
    else inOrder big (UInt8.ofNat ((cp >>> 8) &&& 0x7F)) (UInt8.ofNat (cp &&& 0xFF))
  else if size < 4 then []
  else
    let w0 := UInt16.ofNat (0x8000 ||| ((cp >>> 16) &&& 0x7FFF))
    let w1 := UInt16.ofNat (cp &&& 0xFFFF)
    inOrder big (w0 >>> 8).toUInt8 w0.toUInt8 ++ inOrder big (w1 >>> 8).toUInt8 w1.toUInt8

/-- The word at the front of the bytes. -/
def wordAt (big : Bool) : List UInt8 → Option UInt16
  | a :: b :: _ => some (wordOf big a b)
  | _ => none

/-- The decoders of `sust16.h`. -/
def decodeBytes (big : Bool) (bs : List UInt8) : Option (Nat × Nat) :=
  (wordAt big bs).bind fun w0 =>
    if w0 &&& 0x8000 ≠ 0 then
      (wordAt big (bs.drop 2)).bind fun w1 => (joined w0 w1).map (·, 4)
    else (literal w0).map (·, 2)

/-- `sust16_encode_bytes_be`, and `sust16_encode_bytes`. -/
def sust16EncodeBytesBe : Nat → Nat → List UInt8 := encodeBytes true

/-- `sust16_decode_bytes_be`, and `sust16_decode_bytes`. -/
def sust16DecodeBytesBe : List UInt8 → Option (Nat × Nat) := decodeBytes true

/-- `sust16_encode_bytes_le`. -/
def sust16EncodeBytesLe : Nat → Nat → List UInt8 := encodeBytes false

/-- `sust16_decode_bytes_le`. -/
def sust16DecodeBytesLe : List UInt8 → Option (Nat × Nat) := decodeBytes false

/-! ## Streams -/

variable {α : Type} {cp n : Nat} {w w0 w1 : UInt16} {big : Bool}

/-- A stream is decoded codepoint by codepoint, with a bound on their number. -/
def decodeLoop (decode : List α → Option (Nat × Nat)) : Nat → List α → Option (List Nat)
  | _, [] => some []
  | 0, _ :: _ => none
  | left + 1, s => (decode s).bind fun r => (decodeLoop decode left (s.drop r.2)).map (r.1 :: ·)

def decodeStream (decode : List α → Option (Nat × Nat)) (s : List α) : Option (List Nat) :=
  decodeLoop decode s.length s

/-- Every codepoint reads back. -/
structure Codec (encode : Nat → List α) (decode : List α → Option (Nat × Nat)) : Prop where
  pos : ∀ cp, sucsIsValid cp = true → 0 < (encode cp).length
  back : ∀ cp, sucsIsValid cp = true → ∀ rest,
    decode (encode cp ++ rest) = some (cp, (encode cp).length)

variable {decode : List α → Option (Nat × Nat)} {encode : Nat → List α}

theorem Codec.decodeLoop
    (h : Codec encode decode) {cps : List Nat} (hcps : ∀ cp ∈ cps, sucsIsValid cp = true) :
    ∀ {left : Nat}, (cps.flatMap encode).length ≤ left →
      decodeLoop decode left (cps.flatMap encode) = some cps := by
  induction cps with
  | nil => exact fun {left} _ => by cases left <;> rfl
  | cons cp cps ih =>
    intro left hleft
    have hpos := h.pos cp (hcps cp List.mem_cons_self)
    have hback := h.back cp (hcps cp List.mem_cons_self) (cps.flatMap encode)
    rw [List.flatMap_cons, List.length_append] at hleft
    obtain ⟨left, rfl⟩ : ∃ k, left = k + 1 := ⟨left - 1, by omega⟩
    obtain ⟨a, as, heq⟩ := List.exists_cons_of_length_pos hpos
    have hturn : Sutf16.decodeLoop decode (left + 1) (encode cp ++ cps.flatMap encode) =
        (decode (encode cp ++ cps.flatMap encode)).bind fun r =>
          (Sutf16.decodeLoop decode left ((encode cp ++ cps.flatMap encode).drop r.2)).map (r.1 :: ·) := by
      rw [heq]
      rfl
    rw [List.flatMap_cons, hturn, hback, Option.bind_some, List.drop_left,
      ih (fun c hc => hcps c (List.mem_cons_of_mem _ hc)) (by omega)]
    rfl

theorem Codec.decodeStream
    (h : Codec encode decode) {cps : List Nat} (hcps : ∀ cp ∈ cps, sucsIsValid cp = true) :
    decodeStream decode (cps.flatMap encode) = some cps := h.decodeLoop hcps (Nat.le_refl _)

/-! ## One word or two -/

theorem marker_iff (w : UInt16) : w &&& 0x8000 ≠ 0 ↔ 0x8000 ≤ w.toNat := by
  have hlt := w.toNat_lt
  have hbit : w.toNat &&& 2 ^ 15 = (w.toNat.testBit 15).toNat * 2 ^ 15 := Nat.and_two_pow ..
  rw [ne_eq, ← UInt16.toNat_inj, UInt16.toNat_and]
  show ¬ w.toNat &&& 2 ^ 15 = 0 ↔ _
  rw [hbit, Nat.testBit_eq_decide_div_mod_eq]
  by_cases h : 0x8000 ≤ w.toNat
  · rw [decide_eq_true (by omega)]
    simp [h]
  · rw [decide_eq_false (by omega)]
    simp [h]

theorem joined_bits (w0 w1 : UInt16) :
    (w0 &&& 0x7FFF).toNat <<< 16 ||| w1.toNat = w0.toNat % 2 ^ 15 * 2 ^ 16 + w1.toNat := by
  have hlow : (w0 &&& 0x7FFF).toNat = w0.toNat % 2 ^ 15 := Nat.and_two_pow_sub_one_eq_mod _ 15
  rw [← Nat.shiftLeft_add_eq_or_of_lt w1.toNat_lt, Nat.shiftLeft_eq, hlow]

theorem literal_eq (h : ¬ 0x8000 ≤ w.toNat) : literal w = some w.toNat := by
  rw [literal, sucsIsValid_of_lt (by omega)]
  rfl

/-- A codepoint has one word or two. -/
theorem encode_cases (h : sucsIsValid cp = true) :
    (cp ≤ 0x7FFF ∧ (UInt16.ofNat cp).toNat = cp ∧
        ∀ size, 1 ≤ size → sutf16EncodeChar cp size = [UInt16.ofNat cp]) ∨
      (0x7FFF < cp ∧ ∃ w0 w1 : UInt16, 0x8000 ≤ w0.toNat ∧ w0.toNat % 2 ^ 15 * 2 ^ 16 + w1.toNat = cp ∧
        w0 = UInt16.ofNat (0x8000 ||| ((cp >>> 16) &&& 0x7FFF)) ∧ w1 = UInt16.ofNat (cp &&& 0xFFFF) ∧
        ∀ size, 2 ≤ size → sutf16EncodeChar cp size = [w0, w1]) := by
  have hle := sucsIsValid_le h
  have hvalid : ¬ (!sucsIsValid cp) = true := by simp [h]
  by_cases hshort : cp ≤ 0x7FFF
  · have hand : cp &&& 0x7FFF = cp := by
      rw [show (0x7FFF : Nat) = 2 ^ 15 - 1 from rfl, Nat.and_two_pow_sub_one_eq_mod]
      omega
    refine .inl ⟨hshort, ?_, fun size hsize => ?_⟩
    · rw [UInt16.toNat_ofNat']
      omega
    · rw [sutf16EncodeChar, if_neg hvalid, if_pos hshort, if_neg (by omega), hand]
  · have hhi : 0x8000 ||| ((cp >>> 16) &&& 0x7FFF) = cp / 2 ^ 16 + 2 ^ 15 := by
      rw [show (0x7FFF : Nat) = 2 ^ 15 - 1 from rfl, Nat.and_two_pow_sub_one_eq_mod,
        Nat.shiftRight_eq_div_pow, Nat.mod_eq_of_lt (by omega)]
      exact Utf8.or_mark (i := 15) 1 (by omega)
    have hlo : cp &&& 0xFFFF = cp % 2 ^ 16 := Nat.and_two_pow_sub_one_eq_mod _ 16
    refine .inr ⟨by omega, _, _, ?_, ?_, rfl, rfl, fun size hsize => ?_⟩
    · rw [hhi, UInt16.toNat_ofNat']
      omega
    · rw [hhi, hlo, UInt16.toNat_ofNat', UInt16.toNat_ofNat']
      omega
    · rw [sutf16EncodeChar, if_neg hvalid, if_neg hshort, if_neg (by omega)]

theorem joined_eq (hcp : w0.toNat % 2 ^ 15 * 2 ^ 16 + w1.toNat = cp) (hlong : 0x7FFF < cp)
    (h : sucsIsValid cp = true) : joined w0 w1 = some cp := by
  simp only [joined, joined_bits, hcp]
  rw [if_neg (by omega), if_neg (by simp [h])]

theorem joined_spec (h : joined w0 w1 = some cp) (hmark : 0x8000 ≤ w0.toNat) :
    sucsIsValid cp = true ∧ sutf16EncodeChar cp 2 = [w0, w1] := by
  simp only [joined, joined_bits] at h
  split at h
  · cases h
  next hlong =>
    split at h
    · cases h
    next hvalid =>
      have hjoined := Option.some.inj h
      rw [hjoined] at hlong hvalid
      have hv : sucsIsValid cp = true := by simpa using hvalid
      refine ⟨hv, ?_⟩
      obtain ⟨hshort, -⟩ | ⟨-, v0, v1, hmark', hcp, -, -, henc⟩ := encode_cases hv
      · omega
      · rw [henc 2 (Nat.le_refl 2)]
        have h0 := v0.toNat_lt
        have h1 := v1.toNat_lt
        have h2 := w0.toNat_lt
        have h3 := w1.toNat_lt
        have hw0 : v0.toNat = w0.toNat := by omega
        have hw1 : v1.toNat = w1.toNat := by omega
        rw [UInt16.toNat_inj.mp hw0, UInt16.toNat_inj.mp hw1]

theorem literal_spec (h : literal w = some cp) (hmark : ¬ 0x8000 ≤ w.toNat) :
    sucsIsValid cp = true ∧ sutf16EncodeChar cp 1 = [w] := by
  rw [literal_eq hmark] at h
  obtain rfl := Option.some.inj h
  have hv : sucsIsValid w.toNat = true := sucsIsValid_of_lt (by omega)
  refine ⟨hv, ?_⟩
  obtain ⟨-, -, henc⟩ | ⟨hlong, -⟩ := encode_cases hv
  · rw [henc 1 (Nat.le_refl 1), UInt16.ofNat_toNat]
  · omega

/-! ## The bytes of a word -/

def bytesOf (big : Bool) (w : UInt16) : List UInt8 := inOrder big (w >>> 8).toUInt8 w.toUInt8

theorem toNat_wordOf (big : Bool) (a b : UInt8) :
    (wordOf big a b).toNat = if big then a.toNat * 2 ^ 8 + b.toNat else b.toNat * 2 ^ 8 + a.toNat := by
  have hor (hi lo : UInt8) : (hi.toUInt16 <<< 8 ||| lo.toUInt16).toNat = hi.toNat * 2 ^ 8 + lo.toNat := by
    have h := hi.toNat_lt
    have hshift : (hi.toUInt16 <<< 8).toNat = hi.toNat <<< 8 := by
      rw [UInt16.toNat_shiftLeft, UInt8.toNat_toUInt16, Nat.shiftLeft_eq, Nat.shiftLeft_eq]
      show hi.toNat * 2 ^ 8 % 2 ^ 16 = _
      omega
    rw [UInt16.toNat_or, hshift, UInt8.toNat_toUInt16, ← Nat.shiftLeft_add_eq_or_of_lt lo.toNat_lt,
      Nat.shiftLeft_eq]
  cases big with
  | true => exact hor a b
  | false =>
    rw [wordOf, if_neg (by decide), UInt16.or_comm]
    exact hor b a

theorem toNat_high (w : UInt16) : (w >>> 8).toUInt8.toNat = w.toNat / 2 ^ 8 := by
  have h := w.toNat_lt
  rw [UInt16.toNat_toUInt8, UInt16.toNat_shiftRight, Nat.shiftRight_eq_div_pow]
  show w.toNat / 2 ^ 8 % 2 ^ 8 = _
  omega

theorem bytesOf_wordOf (big : Bool) (a b : UInt8) : bytesOf big (wordOf big a b) = [a, b] := by
  have ha := a.toNat_lt
  have hb := b.toNat_lt
  have hword := toNat_wordOf big a b
  have hhigh := toNat_high (wordOf big a b)
  have hlow := UInt16.toNat_toUInt8 (wordOf big a b)
  cases big with
  | true =>
    simp only [if_true] at hword
    rw [bytesOf, inOrder, if_pos rfl, UInt8.toNat_inj.mp (hhigh.trans (by omega : _ = a.toNat)),
      UInt8.toNat_inj.mp (hlow.trans (by omega : _ = b.toNat))]
  | false =>
    simp only [Bool.false_eq_true, if_false] at hword
    rw [bytesOf, inOrder, if_neg (by decide), UInt8.toNat_inj.mp (hhigh.trans (by omega : _ = b.toNat)),
      UInt8.toNat_inj.mp (hlow.trans (by omega : _ = a.toNat))]

theorem exists_bytesOf (big : Bool) (w : UInt16) :
    ∃ a b, bytesOf big w = [a, b] ∧ wordOf big a b = w := by
  have hhigh := toNat_high w
  have hlow := UInt16.toNat_toUInt8 w
  cases big with
  | true =>
    refine ⟨_, _, rfl, UInt16.toNat_inj.mp ?_⟩
    rw [toNat_wordOf, if_pos rfl]
    omega
  | false =>
    refine ⟨_, _, rfl, UInt16.toNat_inj.mp ?_⟩
    rw [toNat_wordOf, if_neg (by decide)]
    omega

/-- The words of the bytes, without a last single one. -/
def wordsOf (big : Bool) : List UInt8 → List UInt16
  | a :: b :: bs => wordOf big a b :: wordsOf big bs
  | _ => []

theorem wordsOf_append (big : Bool) (ws : List UInt16) (bs : List UInt8) :
    wordsOf big (ws.flatMap (bytesOf big) ++ bs) = ws ++ wordsOf big bs := by
  induction ws with
  | nil => rfl
  | cons w ws ih =>
    obtain ⟨a, b, hbytes, hword⟩ := exists_bytesOf big w
    rw [List.flatMap_cons, hbytes]
    exact congrArg₂ List.cons hword ih

theorem take_wordsOf {bs : List UInt8} (h : n ≤ (wordsOf big bs).length) :
    bs.take (2 * n) = ((wordsOf big bs).take n).flatMap (bytesOf big) := by
  induction n generalizing bs with
  | zero => rfl
  | succ n ih =>
    match bs with
    | a :: b :: bs =>
      rw [wordsOf, List.take_succ_cons, List.flatMap_cons, bytesOf_wordOf,
        ← ih (Nat.le_of_succ_le_succ h)]
      rfl
    | [] => cases h
    | [_] => cases h

theorem encodeBytes_eq (big : Bool) (cp size : Nat) :
    encodeBytes big cp (2 * size) = (sutf16EncodeChar cp size).flatMap (bytesOf big) := by
  unfold encodeBytes sutf16EncodeChar
  split
  · rfl
  · split
    next hshort =>
      by_cases hsize : size < 1
      · rw [if_pos hsize, if_pos (by omega)]
        rfl
      · rw [if_neg hsize, if_neg (by omega), List.flatMap_singleton, bytesOf]
        have hhigh : UInt8.ofNat ((cp >>> 8) &&& 0x7F) = (UInt16.ofNat (cp &&& 0x7FFF) >>> 8).toUInt8 := by
          rw [← UInt8.toNat_inj, toNat_high, UInt8.toNat_ofNat', UInt16.toNat_ofNat',
            show (0x7F : Nat) = 2 ^ 7 - 1 from rfl, show (0x7FFF : Nat) = 2 ^ 15 - 1 from rfl,
            Nat.and_two_pow_sub_one_eq_mod, Nat.and_two_pow_sub_one_eq_mod, Nat.shiftRight_eq_div_pow]
          omega
        have hlow : UInt8.ofNat (cp &&& 0xFF) = (UInt16.ofNat (cp &&& 0x7FFF)).toUInt8 := by
          rw [← UInt8.toNat_inj, UInt16.toNat_toUInt8, UInt8.toNat_ofNat', UInt16.toNat_ofNat',
            show (0xFF : Nat) = 2 ^ 8 - 1 from rfl, show (0x7FFF : Nat) = 2 ^ 15 - 1 from rfl,
            Nat.and_two_pow_sub_one_eq_mod, Nat.and_two_pow_sub_one_eq_mod]
          omega
        rw [hhigh, hlow]
    · by_cases hsize : size < 2
      · rw [if_pos hsize, if_pos (by omega)]
        rfl
      · rw [if_neg hsize, if_neg (by omega), List.flatMap_cons, List.flatMap_singleton]
        rfl

theorem decodeBytes_eq (big : Bool) (bs : List UInt8) :
    decodeBytes big bs = (sutf16DecodeChar (wordsOf big bs)).map fun r => (r.1, 2 * r.2) := by
  match bs with
  | [] => rfl
  | [_] => rfl
  | a :: b :: bs =>
    have hsecond : (wordsOf big bs).head? = wordAt big bs := by
      match bs with
      | [] => rfl
      | [_] => rfl
      | _ :: _ :: _ => rfl
    rw [wordsOf, sutf16DecodeChar, hsecond, decodeBytes, wordAt, Option.bind_some]
    split
    · show (wordAt big bs).bind _ = _
      rw [Option.map_bind]
      simp only [Function.comp_def, Option.map_map]
    · rw [Option.map_map]; rfl

/-! ## The codecs -/

theorem codec_words : Codec (sutf16EncodeChar · 2) sutf16DecodeChar := by
  constructor
  · intro cp h
    obtain ⟨-, -, henc⟩ | ⟨-, w0, w1, -, -, -, -, henc⟩ := encode_cases h
    · rw [henc 2 (by decide)]
      exact Nat.one_pos
    · rw [henc 2 (Nat.le_refl 2)]
      exact Nat.two_pos
  · intro cp h rest
    obtain ⟨hshort, hnat, henc⟩ | ⟨hlong, w0, w1, hmark, hcp, -, -, henc⟩ := encode_cases h
    · have hsmall : ¬ 0x8000 ≤ (UInt16.ofNat cp).toNat := by omega
      rw [henc 2 (by decide), List.singleton_append, sutf16DecodeChar, if_neg ((marker_iff _).not.mpr hsmall),
        literal_eq hsmall, hnat]
      rfl
    · rw [henc 2 (Nat.le_refl 2), List.cons_append, sutf16DecodeChar, if_pos ((marker_iff w0).mpr hmark)]
      simp only [List.cons_append, List.head?_cons, Option.bind_some, joined_eq hcp hlong h]
      rfl

theorem length_flatMap_bytesOf (big : Bool) (ws : List UInt16) :
    (ws.flatMap (bytesOf big)).length = 2 * ws.length := by
  have hlen (w : UInt16) : (bytesOf big w).length = 2 := by cases big <;> rfl
  induction ws with
  | nil => rfl
  | cons w ws ih =>
    rw [List.flatMap_cons, List.length_append, hlen, ih, List.length_cons]
    omega

theorem codec_bytes (big : Bool) : Codec (encodeBytes big · 4) (decodeBytes big) := by
  constructor
  · intro cp h
    have hpos := codec_words.pos cp h
    show 0 < (encodeBytes big cp (2 * 2)).length
    rw [encodeBytes_eq, length_flatMap_bytesOf]
    omega
  · intro cp h rest
    show decodeBytes big (encodeBytes big cp (2 * 2) ++ rest) = some (cp, (encodeBytes big cp (2 * 2)).length)
    rw [encodeBytes_eq, decodeBytes_eq, wordsOf_append, codec_words.back cp h, length_flatMap_bytesOf]
    rfl

theorem sutf16DecodeChar_spec {ws : List UInt16} (h : sutf16DecodeChar ws = some (cp, n)) :
    sucsIsValid cp = true ∧ n ≤ ws.length ∧ ws.take n = sutf16EncodeChar cp n := by
  cases ws with
  | nil => cases h
  | cons w0 ws =>
    rw [sutf16DecodeChar] at h
    split at h
    next hmark =>
      cases ws with
      | nil => cases h
      | cons w1 ws =>
        obtain ⟨c, hc, heq⟩ := Option.map_eq_some_iff.mp h
        cases heq
        obtain ⟨hv, henc⟩ := joined_spec hc ((marker_iff w0).mp hmark)
        exact ⟨hv, Nat.le_add_left 2 _, henc.symm⟩
    next hmark =>
      obtain ⟨c, hc, heq⟩ := Option.map_eq_some_iff.mp h
      cases heq
      obtain ⟨hv, henc⟩ := literal_spec hc fun hle => hmark ((marker_iff w0).mpr hle)
      exact ⟨hv, Nat.le_add_left 1 _, henc.symm⟩

theorem decodeBytes_spec {bs : List UInt8} (h : decodeBytes big bs = some (cp, n)) :
    sucsIsValid cp = true ∧ n ≤ bs.length ∧ bs.take n = encodeBytes big cp n := by
  rw [decodeBytes_eq, Option.map_eq_some_iff] at h
  obtain ⟨⟨c, m⟩, hdec, heq⟩ := h
  cases heq
  obtain ⟨hv, hm, htake⟩ := sutf16DecodeChar_spec hdec
  have hbytes := take_wordsOf hm
  have hlen := congrArg List.length hbytes
  rw [length_flatMap_bytesOf, List.length_take, List.length_take] at hlen
  dsimp only
  refine ⟨hv, by omega, ?_⟩
  rw [encodeBytes_eq, hbytes, htake]

/-- Every stream of valid codepoints is decoded to them, whatever is accepted is the encoding of
what it gives, and the streams of bytes are those of the words in either order. -/
theorem sutf16_canonical :
    (∀ cps : List Nat, (∀ cp ∈ cps, sucsIsValid cp = true) →
      decodeStream sutf16DecodeChar (cps.flatMap (sutf16EncodeChar · 2)) = some cps ∧
      decodeStream sust16DecodeBytesBe (cps.flatMap (sust16EncodeBytesBe · 4)) = some cps ∧
      decodeStream sust16DecodeBytesLe (cps.flatMap (sust16EncodeBytesLe · 4)) = some cps) ∧
    (∀ ws cp n, sutf16DecodeChar ws = some (cp, n) →
      sucsIsValid cp = true ∧ n ≤ ws.length ∧ ws.take n = sutf16EncodeChar cp n) ∧
    (∀ bs cp n, sust16DecodeBytesBe bs = some (cp, n) →
      sucsIsValid cp = true ∧ n ≤ bs.length ∧ bs.take n = sust16EncodeBytesBe cp n) ∧
    (∀ bs cp n, sust16DecodeBytesLe bs = some (cp, n) →
      sucsIsValid cp = true ∧ n ≤ bs.length ∧ bs.take n = sust16EncodeBytesLe cp n) ∧
    ∀ cp size, sust16EncodeBytesBe cp (2 * size) = (sutf16EncodeChar cp size).flatMap (bytesOf true) ∧
      sust16EncodeBytesLe cp (2 * size) = (sutf16EncodeChar cp size).flatMap (bytesOf false) :=
  ⟨fun _ hcps => ⟨codec_words.decodeStream hcps, (codec_bytes true).decodeStream hcps,
      (codec_bytes false).decodeStream hcps⟩,
    fun _ _ _ => sutf16DecodeChar_spec, fun _ _ _ => decodeBytes_spec, fun _ _ _ => decodeBytes_spec,
    fun cp size => ⟨encodeBytes_eq true cp size, encodeBytes_eq false cp size⟩⟩

end Sutf16
