import Mathlib.Data.Nat.Bitwise

/-!
# The layout of UTF-8

Encoders of C code lay the bits of a number out in one to four bytes by its size alone.
For a scalar value that is its UTF-8 encoding.
-/

namespace Utf8

/-- The bytes that an encoder without a check writes for a number. -/
def layout (cp : Nat) : List UInt8 :=
  if cp < 0x80 then [UInt8.ofNat cp]
  else if cp < 0x800 then
    [UInt8.ofNat (0xC0 ||| cp >>> 6), UInt8.ofNat (0x80 ||| (cp &&& 0x3F))]
  else if cp < 0x10000 then
    [UInt8.ofNat (0xE0 ||| cp >>> 12), UInt8.ofNat (0x80 ||| ((cp >>> 6) &&& 0x3F)),
      UInt8.ofNat (0x80 ||| (cp &&& 0x3F))]
  else
    [UInt8.ofNat (0xF0 ||| cp >>> 18), UInt8.ofNat (0x80 ||| ((cp >>> 12) &&& 0x3F)),
      UInt8.ofNat (0x80 ||| ((cp >>> 6) &&& 0x3F)), UInt8.ofNat (0x80 ||| (cp &&& 0x3F))]

theorem length_layout_le (cp : Nat) : (layout cp).length ≤ 4 := by
  unfold layout
  split
  · exact Nat.le_add_left 1 3
  · split
    · exact Nat.le_add_left 2 2
    · split
      · exact Nat.le_add_left 3 1
      · exact Nat.le_refl 4

theorem or_mark (a : Nat) {i x : Nat} (hx : x < 2 ^ i) : 2 ^ i * a ||| x = x + 2 ^ i * a := by
  rw [← Nat.two_pow_add_eq_or_of_lt hx, Nat.add_comm]

theorem low_bits (x : Nat) : x &&& 0x3F = x % 0x40 := Nat.and_two_pow_sub_one_eq_mod x 6

theorem tail_eq (x : Nat) : 0x80 ||| (x &&& 0x3F) = x % 64 + 0x80 := by
  rw [low_bits]
  exact or_mark (i := 6) 2 (Nat.mod_lt x (by decide))

variable {cp : Nat}

theorem lead2_eq (h : cp < 0x800) : 0xC0 ||| cp >>> 6 = cp / 64 % 32 + 0xC0 := by
  rw [Nat.shiftRight_eq_div_pow, Nat.mod_eq_of_lt (by omega)]
  exact or_mark (i := 5) 6 (by omega)

theorem lead3_eq (h : cp < 0x10000) : 0xE0 ||| cp >>> 12 = cp / 4096 % 16 + 0xE0 := by
  rw [Nat.shiftRight_eq_div_pow, Nat.mod_eq_of_lt (by omega)]
  exact or_mark (i := 4) 14 (by omega)

theorem lead4_eq (h : cp < 0x200000) : 0xF0 ||| cp >>> 18 = cp / 262144 % 8 + 0xF0 := by
  rw [Nat.shiftRight_eq_div_pow, Nat.mod_eq_of_lt (by omega)]
  exact or_mark (i := 3) 30 (by omega)

theorem toNat_char (h : cp.isValidChar) : (Char.ofNat cp).val.toNat = cp := by
  rw [Char.ofNat, dif_pos h]
  rfl

theorem layout_eq (h : cp.isValidChar) : layout cp = String.utf8EncodeChar (Char.ofNat cp) := by
  have hmax : cp < 0x110000 := by
    rcases h with h | h
    · omega
    · exact h.2
  rw [String.utf8EncodeChar, layout, toNat_char h]
  by_cases h1 : cp < 0x80
  · rw [if_pos h1, if_pos (show cp ≤ 0x7F by omega)]
  · rw [if_neg h1, if_neg (show ¬ cp ≤ 0x7F by omega)]
    by_cases h2 : cp < 0x800
    · rw [if_pos h2, if_pos (show cp ≤ 0x7FF by omega), lead2_eq h2, tail_eq]
    · rw [if_neg h2, if_neg (show ¬ cp ≤ 0x7FF by omega)]
      by_cases h3 : cp < 0x10000
      · rw [if_pos h3, if_pos (show cp ≤ 0xFFFF by omega), lead3_eq h3, tail_eq, tail_eq,
          Nat.shiftRight_eq_div_pow]
      · rw [if_neg h3, if_neg (show ¬ cp ≤ 0xFFFF by omega), lead4_eq (by omega), tail_eq,
          tail_eq, tail_eq, Nat.shiftRight_eq_div_pow, Nat.shiftRight_eq_div_pow]

end Utf8
