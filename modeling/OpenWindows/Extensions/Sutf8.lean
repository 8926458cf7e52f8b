import Mathlib.Data.Nat.Bitwise
import Mathlib.Tactic.IntervalCases

/-!
# The SUTF-8 transformation

The codec of `sutf8.h`: a codepoint of the 31-bit space becomes one to six bytes.  The
decoder reads the bytes of a number in base 64.  The encoder fills an array of groups of
six bits and then leaves out the second lowest group, so what it writes is the number
exactly for the codepoints whose upper groups are all the same (`Aligned`).
-/

namespace Sutf8

/-! ## Decoding -/

/-- `SUCS_INVALID_CODEPOINT`. -/
def sucsInvalidCodepoint : Nat := 0x7FFFFFFF

/-- `SUCS_MAX_CODEPOINT`. -/
def sucsMaxCodepoint : Nat := 0x7FFFFFFF

/-- `sucs_is_valid`. -/
def sucsIsValid (cp : Nat) : Bool :=
  if cp > sucsMaxCodepoint then false
  else if 0x7FFFFFF0 ≤ cp ∧ cp ≤ 0x7FFFFFFE then false
  else if cp = sucsInvalidCodepoint then false
  else true

/-- The bits of a first byte and the length that it announces. -/
def leadByte (b0 : UInt8) : Option (Nat × Nat) :=
  if b0 < 0x80 then some (b0.toNat, 1)
  else if b0 &&& 0xE0 = 0xC0 then some ((b0 &&& 0x1F).toNat, 2)
  else if b0 &&& 0xF0 = 0xE0 then some ((b0 &&& 0x0F).toNat, 3)
  else if b0 &&& 0xF8 = 0xF0 then some ((b0 &&& 0x07).toNat, 4)
  else if b0 &&& 0xFC = 0xF8 then some ((b0 &&& 0x03).toNat, 5)
  else if b0 &&& 0xFE = 0xFC then some ((b0 &&& 0x01).toNat, 6)
  else none

def continueLoop (cp : Nat) : List UInt8 → Option Nat
  | [] => some cp
  | bc :: rest =>
    if bc &&& 0xC0 ≠ 0x80 then none else continueLoop (cp <<< 6 ||| (bc &&& 0x3F).toNat) rest

/-- An encoding that is longer than it has to be. -/
def overlong (len cp : Nat) : Bool :=
  (len == 2 && decide (cp < 0x80)) || (len == 3 && decide (cp < 0x800)) ||
    (len == 4 && decide (cp < 0x10000)) || (len == 5 && decide (cp < 0x200000)) ||
    (len == 6 && decide (cp < 0x04000000))

/-- `sutf8_decode_char`: the codepoint and the bytes it takes, or none for an error. -/
def sutf8DecodeChar : List UInt8 → Option (Nat × Nat)
  | [] => none
  | b0 :: rest =>
    match leadByte b0 with
    | none => none
    | some (bits, len) =>
      if rest.length + 1 < len then none
      else
        match continueLoop bits (rest.take (len - 1)) with
        | none => none
        | some cp =>
          if overlong len cp then none
          else if cp > sucsMaxCodepoint ∨ !sucsIsValid cp then none
          else some (cp, len)

/-- `sutf8_next_codepoint`: the codepoint and the bytes to skip. -/
def sutf8NextCodepoint : List UInt8 → Nat × Nat
  | [] => (sucsInvalidCodepoint, 0)
  | b :: rest =>
    if b = 0 then (sucsInvalidCodepoint, 0)
    else
      match sutf8DecodeChar (b :: rest) with
      | none => (sucsInvalidCodepoint, 1)
      | some (cp, adv) => (cp, adv)

/-! ## Encoding -/

/-- `sutf8_codepoint_length`. -/
def sutf8CodepointLength (cp : Nat) : Nat :=
  if !sucsIsValid cp then 0
  else if cp ≤ 0x7F then 1
  else if cp ≤ 0x7FF then 2
  else if cp ≤ 0xFFFF then 3
  else if cp ≤ 0x0010FFFF then 4
  else if cp ≤ 0x03FFFFFF then 5
  else 6

/-- The loop that fills `groups`: the groups from number `gcount` on. -/
def fillGroups : Nat → Nat → Nat → List UInt8
  | 0, _, _ => []
  | left + 1, gcount, tmp =>
    (if gcount = 0 then UInt8.ofNat (tmp &&& 0x3F) else UInt8.ofNat ((tmp &&& 0x3F) ||| 0x80)) ::
      fillGroups left (gcount + 1) (tmp >>> 6)

/-- `sutf8_encode_char`: the bytes written to a buffer of `bufSize` bytes, none for an error. -/
def sutf8EncodeChar (cp bufSize : Nat) : List UInt8 :=
  if !sucsIsValid cp then []
  else
    let len := sutf8CodepointLength cp
    if len = 0 ∨ bufSize < len then []
    else
      let groups (k : Nat) : UInt8 := (fillGroups len 0 cp).getD k 0
      match len with
      | 1 => [UInt8.ofNat cp]
      | 2 => [UInt8.ofNat (0xC0 ||| (cp >>> 6 &&& 0x1F)), groups 0]
      | 3 => [UInt8.ofNat (0xE0 ||| (cp >>> 12 &&& 0x0F)), groups 2, groups 0 ||| 0x80]
      | 4 => [UInt8.ofNat (0xF0 ||| (cp >>> 18 &&& 0x07)), groups 3, groups 2, groups 0 ||| 0x80]
      | 5 =>
        [UInt8.ofNat (0xF8 ||| (cp >>> 24 &&& 0x03)), groups 4, groups 3, groups 2,
          groups 0 ||| 0x80]
      | _ =>
        [UInt8.ofNat (0xFC ||| (cp >>> 30 &&& 0x01)), groups 5, groups 4, groups 3, groups 2,
          groups 0 ||| 0x80]

/-! ## Bytes -/

theorem of_forall_byte {p : UInt8 → Prop} (h : ∀ i : Fin 256, p (UInt8.ofNat i)) (b : UInt8) : p b := by
  simpa using h ⟨b.toNat, b.toNat_lt⟩

/-- The first byte of a sequence of `len` bytes with the bits `t`. -/
def leadOf (len t : Nat) : UInt8 :=
  match len with
  | 1 => UInt8.ofNat t
  | 2 => UInt8.ofNat (0xC0 ||| t)
  | 3 => UInt8.ofNat (0xE0 ||| t)
  | 4 => UInt8.ofNat (0xF0 ||| t)
  | 5 => UInt8.ofNat (0xF8 ||| t)
  | _ => UInt8.ofNat (0xFC ||| t)

/-- How many values the bits of a first byte have. -/
def leadRoom (len : Nat) : Nat :=
  match len with
  | 1 => 0x80
  | 2 => 0x20
  | 3 => 0x10
  | 4 => 0x08
  | 5 => 0x04
  | _ => 0x02

/-- A continuation byte with the bits `x`. -/
def tailOf (x : Nat) : UInt8 := UInt8.ofNat (x ||| 0x80)

set_option maxRecDepth 8000 in
theorem leadByte_cases {b : UInt8} {t len : Nat} (h : leadByte b = some (t, len)) :
    1 ≤ len ∧ len ≤ 6 ∧ t < leadRoom len ∧ b = leadOf len t := by
  have table : ∀ i : Fin 256, ∀ r ∈ leadByte (UInt8.ofNat i),
      1 ≤ r.2 ∧ r.2 ≤ 6 ∧ r.1 < leadRoom r.2 ∧ UInt8.ofNat i = leadOf r.2 r.1 := by
    decide
  exact of_forall_byte (p := fun b => ∀ r ∈ leadByte b,
    1 ≤ r.2 ∧ r.2 ≤ 6 ∧ r.1 < leadRoom r.2 ∧ b = leadOf r.2 r.1) table b _ h

theorem leadByte_leadOf (len t : Nat) (h1 : 1 ≤ len) (h6 : len ≤ 6) (ht : t < leadRoom len) :
    leadByte (leadOf len t) = some (t, len) := by
  have table : ∀ n : Fin 6, ∀ t < leadRoom (n.val + 1),
      leadByte (leadOf (n.val + 1) t) = some (t, n.val + 1) := by
    decide
  have hn := table ⟨len - 1, by omega⟩
  simp only [Nat.sub_add_cancel h1] at hn
  exact hn t ht

theorem tailOf_spec {x : Nat} (hx : x < 64) :
    tailOf x &&& 0xC0 = 0x80 ∧ (tailOf x &&& 0x3F).toNat = x ∧ tailOf x ||| 0x80 = tailOf x := by
  have table : ∀ x < 64, tailOf x &&& 0xC0 = 0x80 ∧ (tailOf x &&& 0x3F).toNat = x ∧
      tailOf x ||| 0x80 = tailOf x := by
    decide
  exact table x hx

set_option maxRecDepth 8000 in
theorem tail_unique {b : UInt8} (h : b &&& 0xC0 = 0x80) : b = tailOf (b &&& 0x3F).toNat := by
  have table : ∀ i : Fin 256, UInt8.ofNat i &&& 0xC0 = 0x80 →
      UInt8.ofNat i = tailOf (UInt8.ofNat i &&& 0x3F).toNat := by
    decide
  exact of_forall_byte (p := fun b => b &&& 0xC0 = 0x80 → b = tailOf (b &&& 0x3F).toNat) table b h

set_option maxRecDepth 8000 in
theorem tail_lt (b : UInt8) : (b &&& 0x3F).toNat < 64 :=
  of_forall_byte (p := fun b => (b &&& 0x3F).toNat < 64) (by decide) b

theorem shift_or (cp : Nat) {x : Nat} (hx : x < 64) : cp <<< 6 ||| x = cp * 64 + x := by
  rw [← Nat.shiftLeft_add_eq_or_of_lt (i := 6) (by simpa using hx), Nat.shiftLeft_eq]

/-! ## The decoder reads a number -/

/-- The number with the given upper part and digits in base 64. -/
def ofDigits (top : Nat) (digits : List Nat) : Nat :=
  digits.foldl (fun v x => v * 64 + x) top

@[simp] theorem ofDigits_nil (top : Nat) : ofDigits top [] = top := rfl

@[simp] theorem ofDigits_cons (top x : Nat) (xs : List Nat) :
    ofDigits top (x :: xs) = ofDigits (top * 64 + x) xs := rfl

theorem continueLoop_map {xs : List Nat} (hxs : ∀ x ∈ xs, x < 64) (top : Nat) :
    continueLoop top (xs.map tailOf) = some (ofDigits top xs) := by
  induction xs generalizing top with
  | nil => rfl
  | cons x xs ih =>
    obtain ⟨hc, hv, -⟩ := tailOf_spec (hxs x List.mem_cons_self)
    simp [continueLoop, hc, hv, shift_or top (hxs x List.mem_cons_self),
      ih fun y hy => hxs y (List.mem_cons_of_mem x hy)]

variable {bs : List UInt8}

theorem continueLoop_eq_some {top v : Nat} (h : continueLoop top bs = some v) :
    ∃ xs, (∀ x ∈ xs, x < 64) ∧ bs = xs.map tailOf ∧ v = ofDigits top xs := by
  induction bs generalizing top with
  | nil => exact ⟨[], by simp, rfl, by simpa [continueLoop, eq_comm] using h⟩
  | cons b bs ih =>
    simp only [continueLoop, ne_eq, ite_not] at h
    split at h
    next hb =>
      obtain ⟨xs, hxs, rfl, rfl⟩ := ih h
      refine ⟨(b &&& 0x3F).toNat :: xs, ?_, ?_, ?_⟩
      · exact List.forall_mem_cons.2 ⟨tail_lt b, hxs⟩
      · rw [List.map_cons, ← tail_unique hb]
      · rw [ofDigits_cons, shift_or top (tail_lt b)]
    · simp at h

theorem ofDigits_injective {xs ys : List Nat} {s t : Nat} (hlen : xs.length = ys.length)
    (hxs : ∀ x ∈ xs, x < 64) (hys : ∀ y ∈ ys, y < 64) (h : ofDigits s xs = ofDigits t ys) :
    s = t ∧ xs = ys := by
  induction xs generalizing ys s t with
  | nil =>
    cases ys with
    | nil => exact ⟨h, rfl⟩
    | cons y ys => simp at hlen
  | cons x xs ih =>
    cases ys with
    | nil => simp at hlen
    | cons y ys =>
      simp only [List.mem_cons, forall_eq_or_imp] at hxs hys
      obtain ⟨htop, rfl⟩ := ih (by simpa using hlen) hxs.2 hys.2 h
      simp only at htop
      obtain ⟨rfl, rfl⟩ : s = t ∧ x = y := by omega
      exact ⟨rfl, rfl⟩

theorem ofDigits_lt {xs : List Nat} (hxs : ∀ x ∈ xs, x < 64) (top : Nat) :
    ofDigits top xs < (top + 1) * 64 ^ xs.length := by
  induction xs generalizing top with
  | nil => simp
  | cons x xs ih =>
    rw [List.forall_mem_cons] at hxs
    have hx : top * 64 + x + 1 ≤ (top + 1) * 64 := by omega
    calc ofDigits (top * 64 + x) xs
      _ < (top * 64 + x + 1) * 64 ^ xs.length := ih hxs.2 _
      _ ≤ (top + 1) * 64 * 64 ^ xs.length := Nat.mul_le_mul_right _ hx
      _ = (top + 1) * 64 ^ (x :: xs).length := by
          rw [List.length_cons, Nat.pow_succ', Nat.mul_assoc]

/-- What the decoder makes of a number that it has read from `len` bytes. -/
def accept (len cp : Nat) : Option (Nat × Nat) :=
  if overlong len cp then none
  else if cp > sucsMaxCodepoint ∨ !sucsIsValid cp then none
  else some (cp, len)

theorem sutf8DecodeChar_lead (t : Nat) (xs : List Nat) (ht : t < leadRoom (xs.length + 1))
    (h6 : xs.length < 6) (hxs : ∀ x ∈ xs, x < 64) (suffix : List UInt8) :
    sutf8DecodeChar (leadOf (xs.length + 1) t :: (xs.map tailOf ++ suffix)) =
      accept (xs.length + 1) (ofDigits t xs) := by
  have htake : (xs.map tailOf ++ suffix).take xs.length = xs.map tailOf := by
    simp
  simp [sutf8DecodeChar, leadByte_leadOf _ t (by omega) (by omega) ht, htake, continueLoop_map hxs,
    accept]

theorem sutf8DecodeChar_cases {cp len : Nat} (h : sutf8DecodeChar bs = some (cp, len)) :
    ∃ b rest t, bs = b :: rest ∧ leadByte b = some (t, len) ∧ len ≤ bs.length ∧
      continueLoop t (rest.take (len - 1)) = some cp ∧ overlong len cp = false ∧
      sucsIsValid cp = true := by
  cases bs with
  | nil => simp [sutf8DecodeChar] at h
  | cons b rest =>
    simp only [sutf8DecodeChar] at h
    cases hlead : leadByte b with
    | none => simp [hlead] at h
    | some lead =>
      obtain ⟨t, l⟩ := lead
      simp only [hlead] at h
      split at h
      · simp at h
      next hroom =>
        cases hloop : continueLoop t (rest.take (l - 1)) with
        | none => simp [hloop] at h
        | some v =>
          simp only [hloop] at h
          split at h
          · simp at h
          next hlong =>
            split at h
            · simp at h
            next hvalid =>
              cases h
              refine ⟨b, rest, t, rfl, hlead, ?_, hloop, ?_, ?_⟩
              · simpa using hroom
              · simpa using hlong
              · simp only [not_or, Bool.not_eq_true, Bool.not_eq_false'] at hvalid
                exact hvalid.2

theorem sutf8DecodeChar_len_pos {cp len : Nat}
    (h : sutf8DecodeChar bs = some (cp, len)) : 0 < len := by
  obtain ⟨b, rest, t, -, hlead, -⟩ := sutf8DecodeChar_cases h
  exact (leadByte_cases hlead).1

/-- Each codepoint has one accepted sequence of a length. -/
theorem sutf8DecodeChar_take_unique {bs cs : List UInt8} {cp len : Nat}
    (hb : sutf8DecodeChar bs = some (cp, len)) (hc : sutf8DecodeChar cs = some (cp, len)) :
    bs.take len = cs.take len := by
  obtain ⟨b, bs', s, rfl, hbl, hblen, hbv, -⟩ := sutf8DecodeChar_cases hb
  obtain ⟨c, cs', t, rfl, hcl, hclen, hcv, -⟩ := sutf8DecodeChar_cases hc
  obtain ⟨hpos, -, -, hbe⟩ := leadByte_cases hbl
  obtain ⟨-, -, -, hce⟩ := leadByte_cases hcl
  simp only [List.length_cons] at hblen hclen
  obtain ⟨n, rfl⟩ : ∃ n, len = n + 1 := ⟨len - 1, by omega⟩
  obtain ⟨xs, hxs, hbx, hcp⟩ := continueLoop_eq_some hbv
  obtain ⟨ys, hys, hcy, rfl⟩ := continueLoop_eq_some hcv
  rw [Nat.add_sub_cancel] at hbx hcy
  have hxl : xs.length = n := by
    rw [← List.length_map (f := tailOf), ← hbx, List.length_take]; omega
  have hyl : ys.length = n := by
    rw [← List.length_map (f := tailOf), ← hcy, List.length_take]; omega
  obtain ⟨rfl, rfl⟩ := ofDigits_injective (hxl.trans hyl.symm) hxs hys hcp.symm
  rw [List.take_succ_cons, List.take_succ_cons, hbx, hcy, hbe, hce]

/-! ## What the encoder writes -/

/-- Group `k` of six bits. -/
def sixBits (cp k : Nat) : Nat := cp / 64 ^ k % 64

/-- The groups that follow the first byte of a codepoint of three bytes or more: all but the
second lowest. -/
def keptGroups (len cp : Nat) : List Nat :=
  ((List.range (len - 2)).reverse.map fun k => sixBits cp (k + 2)) ++ [sixBits cp 0]

theorem sixBits_shift (cp k : Nat) : sixBits (cp >>> 6) k = sixBits cp (k + 1) := by
  rw [sixBits, sixBits, Nat.shiftRight_eq_div_pow, Nat.div_div_eq_div_mul, Nat.pow_succ' (m := 64)]

theorem sixBits_lt (cp k : Nat) : sixBits cp k < 64 := Nat.mod_lt _ (by decide)

theorem sixBits_zero (cp : Nat) : sixBits cp 0 = cp &&& 0x3F := by
  rw [sixBits, pow_zero, Nat.div_one]
  exact (Nat.and_two_pow_sub_one_eq_mod cp 6).symm

theorem fillGroups_get (left k gcount tmp : Nat) (hk : k < left) (h0 : 0 < gcount + k) :
    (fillGroups left gcount tmp).getD k 0 = tailOf (sixBits tmp k) := by
  induction left generalizing gcount tmp k with
  | zero => omega
  | succ left ih =>
    cases k with
    | zero =>
      have hg : gcount ≠ 0 := by omega
      rw [fillGroups, List.getD_cons_zero, if_neg hg, tailOf, sixBits_zero]
    | succ k =>
      rw [fillGroups, List.getD_cons_succ, ih _ _ _ (by omega) (by omega), sixBits_shift]

theorem fillGroups_zero (left tmp : Nat) (h : 0 < left) :
    (fillGroups left 0 tmp).getD 0 0 ||| 0x80 = tailOf (sixBits tmp 0) := by
  cases left with
  | zero => omega
  | succ left =>
    rw [fillGroups, List.getD_cons_zero, if_pos rfl, tailOf, sixBits_zero, UInt8.ofNat_or]
    rfl

variable {cp : Nat}

theorem sucsIsValid_le (hv : sucsIsValid cp = true) : cp ≤ 0x7FFFFFFF := by
  by_contra h
  simp [sucsIsValid, sucsMaxCodepoint, Nat.lt_of_not_le h] at hv

theorem lead_bits (cp i j : Nat) (h : cp < 2 ^ (i + j)) :
    cp >>> i &&& (2 ^ j - 1) = cp / 2 ^ i := by
  rw [Nat.and_two_pow_sub_one_eq_mod, Nat.shiftRight_eq_div_pow]
  exact Nat.mod_eq_of_lt (Nat.div_lt_of_lt_mul (by rwa [Nat.pow_add] at h))

theorem codepointLength_cases (hv : sucsIsValid cp = true) (h : 0x7FF < cp) :
    (cp ≤ 0xFFFF ∧ sutf8CodepointLength cp = 3) ∨
      (0xFFFF < cp ∧ cp ≤ 0x10FFFF ∧ sutf8CodepointLength cp = 4) ∨
      (0x10FFFF < cp ∧ cp ≤ 0x3FFFFFF ∧ sutf8CodepointLength cp = 5) ∨
      (0x3FFFFFF < cp ∧ sutf8CodepointLength cp = 6) := by
  have h1 : ¬ cp ≤ 0x7F := by omega
  have h2 : ¬ cp ≤ 0x7FF := by omega
  simp only [sutf8CodepointLength, hv, Bool.not_true, Bool.false_eq_true, if_false, h1, h2]
  split_ifs <;> simp <;> omega

variable {size : Nat}

theorem sutf8EncodeChar_long (hv : sucsIsValid cp = true) (h : 0x7FF < cp)
    (hs : sutf8CodepointLength cp ≤ size) :
    sutf8EncodeChar cp size =
      leadOf (sutf8CodepointLength cp) (cp / 64 ^ (sutf8CodepointLength cp - 1)) ::
        (keptGroups (sutf8CodepointLength cp) cp).map tailOf := by
  have hle := sucsIsValid_le hv
  simp only [sutf8EncodeChar, hv, Bool.not_true, Bool.false_eq_true, if_false]
  rcases codepointLength_cases hv h with ⟨h3, hl⟩ | ⟨h3, h4, hl⟩ | ⟨h4, h5, hl⟩ | ⟨h5, hl⟩ <;>
    rw [hl] at hs ⊢ <;> rw [if_neg (by omega)]
  · have hlead := lead_bits cp 12 4 (by omega)
    have h2 := fillGroups_get 3 2 0 cp (by decide) (by decide)
    have h0 := fillGroups_zero 3 cp (by decide)
    simp only [Nat.reducePow, Nat.reduceSub] at hlead
    simp only [h2, h0, hlead]
    rfl
  · have hlead := lead_bits cp 18 3 (by omega)
    have h3 := fillGroups_get 4 3 0 cp (by decide) (by decide)
    have h2 := fillGroups_get 4 2 0 cp (by decide) (by decide)
    have h0 := fillGroups_zero 4 cp (by decide)
    simp only [Nat.reducePow, Nat.reduceSub] at hlead
    simp only [h3, h2, h0, hlead]
    rfl
  · have hlead := lead_bits cp 24 2 (by omega)
    have h4 := fillGroups_get 5 4 0 cp (by decide) (by decide)
    have h3 := fillGroups_get 5 3 0 cp (by decide) (by decide)
    have h2 := fillGroups_get 5 2 0 cp (by decide) (by decide)
    have h0 := fillGroups_zero 5 cp (by decide)
    simp only [Nat.reducePow, Nat.reduceSub] at hlead
    simp only [h4, h3, h2, h0, hlead]
    rfl
  · have hlead := lead_bits cp 30 1 (by omega)
    have h5 := fillGroups_get 6 5 0 cp (by decide) (by decide)
    have h4 := fillGroups_get 6 4 0 cp (by decide) (by decide)
    have h3 := fillGroups_get 6 3 0 cp (by decide) (by decide)
    have h2 := fillGroups_get 6 2 0 cp (by decide) (by decide)
    have h0 := fillGroups_zero 6 cp (by decide)
    simp only [Nat.reducePow, Nat.reduceSub] at hlead
    simp only [h5, h4, h3, h2, h0, hlead]
    rfl

theorem sucsIsValid_of_lt (h : cp < 0x7FFFFFF0) : sucsIsValid cp = true := by
  have h1 : ¬ cp > 0x7FFFFFFF := by omega
  have h2 : ¬ (0x7FFFFFF0 ≤ cp ∧ cp ≤ 0x7FFFFFFE) := by omega
  have h3 : ¬ cp = 0x7FFFFFFF := by omega
  simp only [sucsIsValid, sucsMaxCodepoint, sucsInvalidCodepoint, h1, h2, h3, if_false]

theorem sutf8EncodeChar_one (h : cp ≤ 0x7F) (hs : 1 ≤ size) :
    sutf8EncodeChar cp size = [leadOf 1 cp] := by
  have hv : sucsIsValid cp = true := sucsIsValid_of_lt (by omega)
  have hl : sutf8CodepointLength cp = 1 := by simp [sutf8CodepointLength, hv, h]
  have hsz : ¬ size = 0 := by omega
  simp [sutf8EncodeChar, hv, hl, hsz, leadOf]

theorem sutf8EncodeChar_two (h : 0x7F < cp) (h' : cp ≤ 0x7FF) (hs : 2 ≤ size) :
    sutf8EncodeChar cp size = [leadOf 2 (cp / 64), UInt8.ofNat (cp &&& 0x3F)] := by
  have hv : sucsIsValid cp = true := sucsIsValid_of_lt (by omega)
  have hl : sutf8CodepointLength cp = 2 := by
    have : ¬ cp ≤ 0x7F := by omega
    simp [sutf8CodepointLength, hv, h', this]
  have hsz : ¬ (2 = 0 ∨ size < 2) := by omega
  have hlead := lead_bits cp 6 5 (by omega)
  simp only [Nat.reducePow, Nat.reduceSub] at hlead
  simp only [sutf8EncodeChar, hv, Bool.not_true, Bool.false_eq_true, if_false, hl, hsz, hlead]
  rfl

/-! ## Where the two sides meet -/

/-- The groups of six bits above the lowest are all the same; a codepoint of one byte has none,
and one of two bytes is never written with a continuation byte. -/
def Aligned (cp : Nat) : Prop :=
  cp ≤ 0x7F ∨ 0x7FF < cp ∧ ∀ k < sutf8CodepointLength cp, 1 ≤ k →
    sixBits cp k = sixBits cp (sutf8CodepointLength cp - 1)

instance (cp : Nat) : Decidable (Aligned cp) := by unfold Aligned; infer_instance

theorem ofDigits_sixBits (cp n : Nat) :
    ofDigits (cp / 64 ^ n) ((List.range n).reverse.map (sixBits cp)) = cp := by
  induction n with
  | zero => simp
  | succ n ih =>
    have hstep : cp / 64 ^ (n + 1) * 64 + sixBits cp n = cp / 64 ^ n := by
      rw [sixBits, pow_succ, ← Nat.div_div_eq_div_mul, Nat.div_add_mod']
    rw [List.range_succ, List.reverse_append, List.reverse_singleton, List.singleton_append,
      List.map_cons, ofDigits_cons, hstep, ih]

theorem groups_all_eq {f : Nat → Nat} {m : Nat} (h : ∀ k < m, f (k + 2) = f (k + 1)) :
    ∀ k ≤ m, f (k + 1) = f (m + 1) := by
  intro k hk
  induction m with
  | zero => rw [Nat.le_zero.1 hk]
  | succ m ih =>
    rcases Nat.le_succ_iff.1 hk with hk | rfl
    · rw [ih (fun k hk => h k (by omega)) hk, h m (by omega)]
    · rfl

theorem kept_eq_iff (hv : sucsIsValid cp = true) (h : 0x7FF < cp) :
    ofDigits (cp / 64 ^ (sutf8CodepointLength cp - 1)) (keptGroups (sutf8CodepointLength cp) cp) = cp ↔
      Aligned cp := by
  have hone : ¬ cp ≤ 0x7F := by omega
  obtain ⟨m, hm⟩ : ∃ m, sutf8CodepointLength cp = m + 2 := by
    rcases codepointLength_cases hv h with ⟨-, hl⟩ | ⟨-, -, hl⟩ | ⟨-, -, hl⟩ | ⟨-, hl⟩ <;> rw [hl]
    exacts [⟨1, rfl⟩, ⟨2, rfl⟩, ⟨3, rfl⟩, ⟨4, rfl⟩]
  have hall := ofDigits_sixBits cp (m + 1)
  rw [List.range_succ_eq_map, List.reverse_cons, List.map_append, List.map_singleton] at hall
  simp only [Aligned, hone, false_or, h, true_and, hm, keptGroups, Nat.add_sub_cancel,
    Nat.reduceSubDiff]
  constructor
  · intro heq
    have hlists := (ofDigits_injective (by simp) (by simp [sixBits_lt, or_imp, forall_and])
      (by simp [sixBits_lt, or_imp, forall_and]) (heq.trans hall.symm)).2
    have hk : ∀ k < m, sixBits cp (k + 2) = sixBits cp (k + 1) := by
      simpa using hlists
    intro k hk2 hk1
    obtain ⟨k, rfl⟩ : ∃ j, k = j + 1 := ⟨k - 1, by omega⟩
    exact groups_all_eq hk k (by omega)
  · intro hg
    have hmap : (List.range m).reverse.map (fun k => sixBits cp (k + 2)) =
        (List.range m).reverse.map (fun k => sixBits cp (k + 1)) := by
      apply List.map_congr_left
      intro k hk
      have hk : k < m := by simpa using hk
      rw [hg (k + 2) (by omega) (by omega), hg (k + 1) (by omega) (by omega)]
    rw [hmap]
    refine Eq.trans ?_ hall
    simp only [← List.map_reverse, List.map_map, Function.comp_def, Nat.succ_eq_add_one]

theorem accept_eq_some {len v cp l : Nat} (h : accept len v = some (cp, l)) : v = cp ∧ len = l := by
  simp only [accept] at h
  split at h
  · simp at h
  · split at h
    · simp at h
    · simpa using h

theorem Aligned.not_overlong (hv : sucsIsValid cp = true) (h : Aligned cp) :
    overlong (sutf8CodepointLength cp) cp = false := by
  rcases h with h | ⟨h, hg⟩
  · simp [sutf8CodepointLength, hv, h, overlong]
  · rcases codepointLength_cases hv h with ⟨h3, hl⟩ | ⟨h3, h4, hl⟩ | ⟨h4, h5, hl⟩ | ⟨h5, hl⟩ <;>
      rw [hl] at hg ⊢
    · simp [overlong]; omega
    · simp [overlong]; omega
    · have hlow := hg 3 (by decide) (by decide)
      simp [sixBits] at hlow
      simp [overlong]; omega
    · simp [overlong]; omega

theorem accept_self {len cp : Nat} (hv : sucsIsValid cp = true) (ho : overlong len cp = false) :
    accept len cp = some (cp, len) := by
  have hle := sucsIsValid_le hv
  have hmax : ¬ cp > sucsMaxCodepoint := by simpa [sucsMaxCodepoint] using hle
  simp [accept, hv, ho, hmax]

theorem sutf8EncodeChar_length (hv : sucsIsValid cp = true) (hs : sutf8CodepointLength cp ≤ size) :
    (sutf8EncodeChar cp size).length = sutf8CodepointLength cp := by
  by_cases h1 : cp ≤ 0x7F
  · have hl : sutf8CodepointLength cp = 1 := by simp [sutf8CodepointLength, hv, h1]
    rw [hl] at hs ⊢
    rw [sutf8EncodeChar_one h1 hs, List.length_singleton]
  · by_cases h2 : cp ≤ 0x7FF
    · have hl : sutf8CodepointLength cp = 2 := by simp [sutf8CodepointLength, hv, h1, h2]
      rw [hl] at hs ⊢
      rw [sutf8EncodeChar_two (by omega) h2 hs, List.length_cons, List.length_singleton]
    · rw [sutf8EncodeChar_long hv (by omega) hs]
      rcases codepointLength_cases hv (by omega) with ⟨-, hl⟩ | ⟨-, -, hl⟩ | ⟨-, -, hl⟩ | ⟨-, hl⟩ <;>
        simp [hl, keptGroups]

theorem decode_encode (hv : sucsIsValid cp = true)
    (hs : sutf8CodepointLength cp ≤ size) (suffix : List UInt8) :
    (sutf8DecodeChar (sutf8EncodeChar cp size ++ suffix) = some (cp, sutf8CodepointLength cp) ↔
      Aligned cp) ∧
    ∀ v l, sutf8DecodeChar (sutf8EncodeChar cp size ++ suffix) = some (v, l) →
      l = sutf8CodepointLength cp := by
  by_cases h1 : cp ≤ 0x7F
  · have hl : sutf8CodepointLength cp = 1 := by simp [sutf8CodepointLength, hv, h1]
    have hdec := sutf8DecodeChar_lead cp [] (by simp [leadRoom]; omega) (by decide)
      (by simp) suffix
    rw [hl] at hs ⊢
    rw [sutf8EncodeChar_one h1 hs]
    simp only [List.length_nil, Nat.zero_add, List.map_nil, List.nil_append, ofDigits_nil] at hdec
    rw [List.singleton_append, hdec, accept_self hv (by simp [overlong])]
    simp [Aligned, h1]
  · by_cases h2 : cp ≤ 0x7FF
    · have hl : sutf8CodepointLength cp = 2 := by simp [sutf8CodepointLength, hv, h1, h2]
      have hlead := leadByte_leadOf 2 (cp / 64) (by decide) (by decide)
        (by simp [leadRoom]; omega)
      have hbare : UInt8.ofNat (cp &&& 0x3F) &&& 0xC0 ≠ 0x80 := by
        have table : ∀ x < 64, UInt8.ofNat x &&& 0xC0 ≠ 0x80 := by decide
        exact table _ (by rw [← sixBits_zero]; exact sixBits_lt cp 0)
      have hnone : sutf8DecodeChar (sutf8EncodeChar cp size ++ suffix) = none := by
        rw [hl] at hs
        rw [sutf8EncodeChar_two (by omega) h2 hs]
        generalize UInt8.ofNat (cp &&& 0x3F) = b at hbare
        simp [sutf8DecodeChar, hlead, continueLoop, hbare]
      rw [hnone]
      have : ¬ Aligned cp := by
        rw [Aligned]; omega
      simp [this]
    · have hlong : 0x7FF < cp := by omega
      have hle := sucsIsValid_le hv
      obtain ⟨n, hn, hn6, hk, hroom⟩ : ∃ n, sutf8CodepointLength cp = n + 1 ∧ n < 6 ∧
          (keptGroups (n + 1) cp).length = n ∧ cp / 64 ^ n < leadRoom (n + 1) := by
        rcases codepointLength_cases hv hlong with ⟨_, hl⟩ | ⟨_, _, hl⟩ | ⟨_, _, hl⟩ | ⟨_, hl⟩
        · exact ⟨2, hl, by decide, by simp [keptGroups], by simp [leadRoom]; omega⟩
        · exact ⟨3, hl, by decide, by simp [keptGroups], by simp [leadRoom]; omega⟩
        · exact ⟨4, hl, by decide, by simp [keptGroups], by simp [leadRoom]; omega⟩
        · exact ⟨5, hl, by decide, by simp [keptGroups], by simp [leadRoom]; omega⟩
      have hkept : ∀ x ∈ keptGroups (n + 1) cp, x < 64 := by
        intro x hx
        simp only [keptGroups, List.mem_append, List.mem_map, List.mem_singleton] at hx
        rcases hx with ⟨k, -, rfl⟩ | rfl <;> exact sixBits_lt _ _
      have hdec := sutf8DecodeChar_lead (cp / 64 ^ n) (keptGroups (n + 1) cp)
        (by rw [hk]; exact hroom) (by rw [hk]; exact hn6) hkept suffix
      have hiff := kept_eq_iff hv hlong
      rw [sutf8EncodeChar_long hv hlong hs, List.cons_append]
      rw [hk] at hdec
      rw [hn, Nat.add_sub_cancel] at hiff ⊢
      rw [hdec]
      constructor
      · constructor
        · intro h
          exact hiff.1 (accept_eq_some h).1
        · intro h
          rw [hiff.2 h]
          exact accept_self hv (hn ▸ h.not_overlong hv)
      · intro v l h
        exact (accept_eq_some h).2.symm

theorem decode_len {cp len : Nat} (h : sutf8DecodeChar bs = some (cp, len))
    (ha : Aligned cp) : len = sutf8CodepointLength cp := by
  obtain ⟨b, rest, t, rfl, hlead, hlen, hloop, hlong, hv⟩ := sutf8DecodeChar_cases h
  obtain ⟨hpos, hsix, ht, -⟩ := leadByte_cases hlead
  obtain ⟨xs, hxs, htake, hcp⟩ := continueLoop_eq_some hloop
  have hn : xs.length = len - 1 := by
    rw [← List.length_map (f := tailOf), ← htake, List.length_take]
    simp only [List.length_cons] at hlen
    omega
  have hlt : cp < leadRoom len * 64 ^ (len - 1) := by
    rw [hcp, ← hn]
    exact Nat.lt_of_lt_of_le (ofDigits_lt hxs t) (Nat.mul_le_mul_right _ ht)
  have halign := ha.not_overlong hv
  rcases ha with ha | ⟨ha, -⟩
  · have hl : sutf8CodepointLength cp = 1 := by simp [sutf8CodepointLength, hv, ha]
    rw [hl]
    interval_cases len <;> simp [overlong] at hlong ⊢ <;> omega
  · rcases codepointLength_cases hv ha with ⟨_, hl⟩ | ⟨_, _, hl⟩ | ⟨_, _, hl⟩ | ⟨_, hl⟩ <;>
      rw [hl] at halign ⊢ <;>
      interval_cases len <;> simp [overlong, leadRoom] at hlong hlt halign ⊢ <;> omega

/-! ## The codec -/

/-- The calls of `sutf8_decode_char` over a stream: its codepoints, or none where a call fails.
Each call takes a byte at least, so there are no more calls than bytes. -/
def decodeStream : Nat → List UInt8 → Option (List Nat)
  | _, [] => some []
  | 0, _ :: _ => none
  | calls + 1, b :: rest =>
    match sutf8DecodeChar (b :: rest) with
    | none => none
    | some (cp, len) => (decodeStream calls ((b :: rest).drop len)).map (cp :: ·)

def encodeStream (cps : List Nat) : List UInt8 :=
  cps.flatMap fun cp => sutf8EncodeChar cp (sutf8CodepointLength cp)

theorem codepointLength_pos (hv : sucsIsValid cp = true) :
    0 < sutf8CodepointLength cp := by
  simp only [sutf8CodepointLength, hv, Bool.not_true, Bool.false_eq_true, if_false]
  split_ifs <;> decide

theorem encodeStream_cons (cp : Nat) (cps : List Nat) : encodeStream (cp :: cps) =
    sutf8EncodeChar cp (sutf8CodepointLength cp) ++ encodeStream cps :=
  List.flatMap_cons

theorem length_le_encodeStream {cps : List Nat} (hv : ∀ cp ∈ cps, sucsIsValid cp = true) :
    cps.length ≤ (encodeStream cps).length := by
  induction cps with
  | nil => simp
  | cons cp cps ih =>
    rw [List.forall_mem_cons] at hv
    have hpos := codepointLength_pos hv.1
    have htail := ih hv.2
    rw [encodeStream_cons, List.length_append, sutf8EncodeChar_length hv.1 le_rfl,
      List.length_cons]
    omega

theorem decodeStream_encodeStream {cps : List Nat} (hv : ∀ cp ∈ cps, sucsIsValid cp = true)
    {calls : Nat} (hc : cps.length ≤ calls) :
    decodeStream calls (encodeStream cps) = some cps ↔ ∀ cp ∈ cps, Aligned cp := by
  induction cps generalizing calls with
  | nil => cases calls <;> simp [encodeStream, decodeStream]
  | cons cp cps ih =>
    rw [List.forall_mem_cons] at hv ⊢
    obtain ⟨calls, rfl⟩ : ∃ n, calls = n + 1 := ⟨calls - 1, by simp at hc; omega⟩
    have hlen := sutf8EncodeChar_length hv.1 le_rfl
    obtain ⟨hiff, hsame⟩ := decode_encode hv.1 le_rfl (encodeStream cps)
    rw [encodeStream_cons]
    cases hbytes : sutf8EncodeChar cp (sutf8CodepointLength cp) ++ encodeStream cps with
    | nil =>
      have := codepointLength_pos hv.1
      simp only [List.append_eq_nil_iff] at hbytes
      simp [hbytes.1] at hlen
      omega
    | cons b rest =>
      rw [hbytes] at hiff hsame
      simp only [decodeStream]
      cases hdec : sutf8DecodeChar (b :: rest) with
      | none =>
        rw [hdec] at hiff
        simp only [reduceCtorEq, false_iff] at hiff
        simp [hiff]
      | some r =>
        obtain ⟨v, l⟩ := r
        obtain rfl := hsame v l hdec
        have hdrop : (b :: rest).drop (sutf8CodepointLength cp) = encodeStream cps := by
          rw [← hbytes, List.drop_left' hlen]
        simp only [hdrop, hdec, Option.some.injEq, Prod.mk.injEq, and_true] at hiff ⊢
        rw [← hiff, ← ih hv.2 (by simpa using hc)]
        simp [and_comm]

/-- For every codepoint, every stream that the decoder accepts and every list of codepoints:
the two sides of the codec are inverse there exactly when the codepoints are aligned. -/
theorem inverse_iff_aligned (cp : Nat) (bytes : List UInt8) (cps : List Nat) :
    (sucsIsValid cp = true → ∀ bufSize, sutf8CodepointLength cp ≤ bufSize →
      (sutf8EncodeChar cp bufSize).length = sutf8CodepointLength cp ∧
      ∀ suffix, sutf8DecodeChar (sutf8EncodeChar cp bufSize ++ suffix) =
        some (cp, sutf8CodepointLength cp) ↔ Aligned cp) ∧
    (∀ v len, sutf8DecodeChar bytes = some (v, len) →
      (bytes.take len = sutf8EncodeChar v (sutf8CodepointLength v) ↔ Aligned v)) ∧
    ((∀ c ∈ cps, sucsIsValid c = true) →
      (decodeStream (encodeStream cps).length (encodeStream cps) = some cps ↔
        ∀ c ∈ cps, Aligned c)) := by
  refine ⟨?_, ?_, ?_⟩
  · intro hv bufSize hs
    exact ⟨sutf8EncodeChar_length hv hs, fun suffix => (decode_encode hv hs suffix).1⟩
  · intro v len h
    obtain ⟨-, -, -, -, -, -, -, -, hv⟩ := sutf8DecodeChar_cases h
    constructor
    · intro heq
      obtain ⟨hiff, hsame⟩ := decode_encode hv le_rfl (bytes.drop len)
      rw [← heq, List.take_append_drop] at hiff hsame
      obtain rfl := hsame v len h
      exact hiff.1 h
    · intro ha
      obtain rfl := decode_len h ha
      have hself := (decode_encode hv le_rfl []).1.2 ha
      rw [List.append_nil] at hself
      have hlen := sutf8EncodeChar_length hv le_rfl
      rw [sutf8DecodeChar_take_unique h hself, List.take_of_length_le hlen.le]
  · intro hv
    exact decodeStream_encodeStream hv (length_le_encodeStream hv)

/-- `U+0080` is written as `C2 00`, which no decoder accepts. -/
theorem u0080_lost : sucsIsValid 0x80 = true ∧
    sutf8EncodeChar 0x80 2 = [0xC2, 0x00] ∧ sutf8DecodeChar [0xC2, 0x00] = none ∧
    sutf8DecodeChar [0xC2, 0x80] = some (0x80, 2) := by
  decide

end Sutf8
