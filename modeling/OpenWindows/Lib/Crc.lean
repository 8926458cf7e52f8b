import Mathlib.Data.BitVec
import OpenWindows.Lib.Memory

/-!
# Cyclic redundancy checks

A reflected CRC register of width `w` for a polynomial `poly`: a byte is added to
the low end and the register is shifted down eight times, adding the polynomial
for every bit that falls out.  Shifting is linear, and it loses nothing when the
highest bit of the polynomial is set.  A run over at most `w` bits is a shift of the
register with all of them added at once.  So the register after some bytes tells
the register before them, and tells apart the values of any `w` bits in the middle: a
burst of at most `w` bits changes it.
-/

namespace Crc

open Bytes Memory

variable {w : Nat} {poly : BitVec w}

def shift (poly crc : BitVec w) : BitVec w :=
  if crc.getLsbD 0 then (crc >>> 1) ^^^ poly else crc >>> 1

def byte (poly crc : BitVec w) (b : UInt8) : BitVec w :=
  (shift poly)^[8] (crc ^^^ BitVec.ofNat w b.toNat)

/-- The register after some bytes. -/
def pass (poly crc : BitVec w) (bs : List UInt8) : BitVec w := bs.foldl (byte poly) crc

theorem pass_append (crc : BitVec w) (as bs : List UInt8) :
    pass poly crc (as ++ bs) = pass poly (pass poly crc as) bs := List.foldl_append

/-! ## Shifting -/

theorem shift_xor (x y : BitVec w) :
    shift poly (x ^^^ y) = shift poly x ^^^ shift poly y := by
  unfold shift
  rw [BitVec.getLsbD_xor, BitVec.ushiftRight_xor_distrib]
  cases x.getLsbD 0 <;> cases y.getLsbD 0
  · simp
  · simp [BitVec.xor_assoc]
  · simp [BitVec.xor_assoc, BitVec.xor_comm poly]
  · simp only [bne_self_eq_false, Bool.false_eq_true, if_false, if_true]
    calc (x >>> 1) ^^^ (y >>> 1)
        = (x >>> 1) ^^^ (y >>> 1) ^^^ (poly ^^^ poly) := by rw [BitVec.xor_self, BitVec.xor_zero]
      _ = (x >>> 1) ^^^ poly ^^^ ((y >>> 1) ^^^ poly) := by ac_rfl

theorem iterate_shift_xor (n : Nat) (x y : BitVec w) :
    (shift poly)^[n] (x ^^^ y) = (shift poly)^[n] x ^^^ (shift poly)^[n] y := by
  induction n generalizing x y with
  | zero => rfl
  | succ n ih => rw [Function.iterate_succ_apply, shift_xor, ih, Function.iterate_succ_apply,
      Function.iterate_succ_apply]

theorem msb_shift (hpoly : poly.msb = true) (x : BitVec w) :
    (shift poly x).msb = x.getLsbD 0 := by
  have hzero : (x >>> 1).msb = false := by
    rw [BitVec.msb_ushiftRight]
    simp
  unfold shift
  split
  next h => rw [BitVec.msb_xor, hzero, hpoly, h]; rfl
  next h => rw [hzero]; simpa using h

theorem shift_injective (hpoly : poly.msb = true) :
    Function.Injective (shift poly) := by
  intro x y h
  have hbit : x.getLsbD 0 = y.getLsbD 0 := by
    rw [← msb_shift hpoly, ← msb_shift hpoly, h]
  have hrest : x >>> 1 = y >>> 1 := by
    unfold shift at h
    rw [hbit] at h
    split at h
    · exact (BitVec.xor_left_inj poly).mp h
    · exact h
  refine BitVec.eq_of_getLsbD_eq fun i hi => ?_
  cases i with
  | zero => exact hbit
  | succ i =>
    have hi' := congrArg (fun z => BitVec.getLsbD z i) hrest
    simpa [BitVec.getLsbD_ushiftRight, Nat.add_comm] using hi'

/-- A register whose low bits are clear only moves down. -/
theorem iterate_shift_shiftLeft (poly : BitVec w) {n k v : Nat} (hv : v * 2 ^ n < 2 ^ w) (hk : k ≤ n) :
    (shift poly)^[k] (BitVec.ofNat w (v * 2 ^ n)) = BitVec.ofNat w (v * 2 ^ (n - k)) := by
  induction k with
  | zero => rfl
  | succ k ih =>
    obtain ⟨d, rfl⟩ : ∃ d, n = k + 1 + d := ⟨n - (k + 1), by omega⟩
    rw [Function.iterate_succ_apply', ih (by omega)]
    have hd : k + 1 + d - k = d + 1 := by omega
    have hd' : k + 1 + d - (k + 1) = d := by omega
    rw [hd, hd']
    have hbound : v * 2 ^ (d + 1) < 2 ^ w :=
      Nat.lt_of_le_of_lt (Nat.mul_le_mul_left v (Nat.pow_le_pow_right (by decide) (by omega))) hv
    have heven : v * 2 ^ (d + 1) = v * 2 ^ d * 2 := by rw [Nat.pow_succ, Nat.mul_assoc]
    have hlow : (BitVec.ofNat w (v * 2 ^ (d + 1))).getLsbD 0 = false := by
      rw [BitVec.getLsbD_ofNat, heven]
      simp [Nat.testBit_zero]
    unfold shift
    rw [hlow, if_neg (by decide)]
    apply BitVec.eq_of_toNat_eq
    rw [BitVec.toNat_ushiftRight, BitVec.toNat_ofNat, BitVec.toNat_ofNat,
      Nat.mod_eq_of_lt hbound, Nat.mod_eq_of_lt (by omega), heven, Nat.shiftRight_one]
    omega

/-! ## Runs over bytes -/

theorem add_mul_two_pow {n x : Nat} (hx : x < 2 ^ n) (v : Nat) :
    x + v * 2 ^ n = x ^^^ (v * 2 ^ n) := by
  refine Nat.eq_of_testBit_eq fun i => ?_
  rw [Nat.testBit_xor, Nat.testBit_mul_two_pow, Nat.add_comm, Nat.mul_comm,
    Nat.testBit_two_pow_mul_add v hx]
  split
  next h => simp [Nat.not_le_of_lt h]
  next h =>
    rw [Nat.testBit_lt_two_pow (Nat.lt_of_lt_of_le hx (Nat.pow_le_pow_right (by decide) (by omega)))]
    simp [Nat.le_of_not_lt h]

theorem ofNat_xor (x y : Nat) : BitVec.ofNat w (x ^^^ y) = BitVec.ofNat w x ^^^ BitVec.ofNat w y := by
  refine BitVec.eq_of_getLsbD_eq fun i hi => ?_
  simp [hi]

theorem pass_eq {bs : List UInt8} (hbs : 8 * bs.length ≤ w) (crc : BitVec w) :
    pass poly crc bs = (shift poly)^[8 * bs.length] (crc ^^^ BitVec.ofNat w (leNum bs)) := by
  induction bs generalizing crc with
  | nil => simp [pass, leNum]
  | cons b bs ih =>
    rw [List.length_cons] at hbs
    have hlt : leNum bs * 2 ^ 8 < 2 ^ w := by
      have hnum := leNum_lt bs
      rw [show (256 : Nat) = 2 ^ 8 from rfl, ← Nat.pow_mul] at hnum
      calc leNum bs * 2 ^ 8 < 2 ^ (8 * bs.length) * 2 ^ 8 :=
            Nat.mul_lt_mul_of_pos_right hnum (by decide)
        _ = 2 ^ (8 * bs.length + 8) := (Nat.pow_add ..).symm
        _ ≤ 2 ^ w := Nat.pow_le_pow_right (by decide) (by omega)
    have hmove := iterate_shift_shiftLeft poly hlt (Nat.le_refl 8)
    rw [Nat.sub_self, Nat.pow_zero, Nat.mul_one] at hmove
    have hsplit : BitVec.ofNat w (leNum (b :: bs)) =
        BitVec.ofNat w b.toNat ^^^ BitVec.ofNat w (leNum bs * 2 ^ 8) := by
      rw [leNum, Nat.mul_comm 256, show (256 : Nat) = 2 ^ 8 from rfl,
        add_mul_two_pow b.toNat_lt, ofNat_xor]
    show pass poly (byte poly crc b) bs = _
    rw [ih (by omega), byte, hsplit, ← BitVec.xor_assoc, List.length_cons, Nat.mul_succ,
      Function.iterate_add_apply, iterate_shift_xor 8 (crc ^^^ _), hmove]

theorem pass_injective (hpoly : poly.msb = true) (bs : List UInt8) :
    Function.Injective fun crc => pass poly crc bs := by
  induction bs with
  | nil => exact fun _ _ h => h
  | cons b bs ih =>
    intro x y h
    have hbyte := (shift_injective hpoly).iterate 8 (ih h)
    exact (BitVec.xor_left_inj _).mp hbyte

variable {as bs : List UInt8} {crc : BitVec w}

/-- Bytes of at most the register's width are told apart. -/
theorem pass_left_injective (hpoly : poly.msb = true)
    (hlen : as.length = bs.length) (has : 8 * as.length ≤ w)
    (h : pass poly crc as = pass poly crc bs) : as = bs := by
  rw [pass_eq has, pass_eq (hlen ▸ has), ← hlen] at h
  have hnum := (BitVec.xor_right_inj crc).mp ((shift_injective hpoly).iterate _ h)
  have hlt : ∀ {cs : List UInt8}, 8 * cs.length ≤ w → leNum cs < 2 ^ w := by
    intro cs hcs
    have hcs' := leNum_lt cs
    rw [show (256 : Nat) = 2 ^ 8 from rfl, ← Nat.pow_mul] at hcs'
    exact Nat.lt_of_lt_of_le hcs' (Nat.pow_le_pow_right (by decide) hcs)
  have heq := congrArg BitVec.toNat hnum
  rw [BitVec.toNat_ofNat, BitVec.toNat_ofNat, Nat.mod_eq_of_lt (hlt has),
    Nat.mod_eq_of_lt (hlt (hlen ▸ has))] at heq
  exact leNum_inj hlen heq

/-- The register tells apart what stands between equal bytes. -/
theorem pass_middle_iff (hpoly : poly.msb = true) (crc : BitVec w)
    (pre post : List UInt8) (hlen : as.length = bs.length)
    (has : 8 * as.length ≤ w) :
    pass poly crc (pre ++ (as ++ post)) = pass poly crc (pre ++ (bs ++ post)) ↔ as = bs := by
  constructor
  · intro h
    rw [pass_append, pass_append, pass_append, pass_append] at h
    exact pass_left_injective hpoly hlen has (pass_injective hpoly post h)
  · rintro rfl
    rfl

/-! ## Bits in the order of the register -/

/-- The number of some bits, the lowest first. -/
def bitNum : List Bool → Nat
  | [] => 0
  | b :: l => b.toNat + 2 * bitNum l

/-- The register after some bits. -/
def bitPass (poly crc : BitVec w) (l : List Bool) : BitVec w :=
  l.foldl (fun crc b => shift poly (crc ^^^ BitVec.ofNat w b.toNat)) crc

def byteBits (b : UInt8) : List Bool := (List.range 8).map b.toNat.testBit

def bits (bs : List UInt8) : List Bool := bs.flatMap byteBits

theorem bits_cons (b : UInt8) (bs : List UInt8) : bits (b :: bs) = byteBits b ++ bits bs := rfl

theorem length_byteBits (b : UInt8) : (byteBits b).length = 8 := by simp [byteBits]

theorem bitNum_lt (l : List Bool) : bitNum l < 2 ^ l.length := by
  induction l with
  | nil => exact Nat.one_pos
  | cons b l ih =>
    have hb := b.toNat_lt
    rw [bitNum, List.length_cons, Nat.pow_succ]
    omega

variable {l : List Bool} {cs : List UInt8}

theorem bitNum_inj {l' : List Bool} (hlen : l.length = l'.length) (h : bitNum l = bitNum l') :
    l = l' := by
  induction l generalizing l' with
  | nil => exact (List.length_eq_zero_iff.mp hlen.symm).symm
  | cons b l ih =>
    cases l' with
    | nil => cases hlen
    | cons b' l' =>
      rw [bitNum, bitNum] at h
      have hb := b.toNat_lt
      have hb' := b'.toNat_lt
      have hbit : b.toNat = b'.toNat := by omega
      have hhead : b = b' := by cases b <;> cases b' <;> first | rfl | cases hbit
      rw [hhead, ih (Nat.succ.inj hlen) (by omega)]

theorem bitNum_testBit (n x : Nat) : bitNum ((List.range n).map x.testBit) = x % 2 ^ n := by
  induction n generalizing x with
  | zero => exact (Nat.mod_one x).symm
  | succ n ih =>
    have hrest : (List.range n).map (x.testBit ∘ Nat.succ) = (List.range n).map (x / 2).testBit :=
      List.map_congr_left fun i _ => Nat.testBit_succ x i
    rw [List.range_succ_eq_map, List.map_cons, List.map_map, hrest, bitNum, ih, Nat.pow_succ',
      Nat.mod_mul, Nat.testBit_zero]
    congr 1
    rcases Nat.mod_two_eq_zero_or_one x with h | h <;> simp [h]

theorem bitNum_byteBits (b : UInt8) : bitNum (byteBits b) = b.toNat := by
  rw [byteBits, bitNum_testBit]
  exact Nat.mod_eq_of_lt b.toNat_lt

theorem bitPass_eq (hl : l.length ≤ w) (crc : BitVec w) :
    bitPass poly crc l = (shift poly)^[l.length] (crc ^^^ BitVec.ofNat w (bitNum l)) := by
  induction l generalizing crc with
  | nil => simp [bitPass, bitNum]
  | cons b l ih =>
    rw [List.length_cons] at hl
    have hlt : bitNum l * 2 ^ 1 < 2 ^ w := by
      calc bitNum l * 2 ^ 1 < 2 ^ l.length * 2 ^ 1 :=
            Nat.mul_lt_mul_of_pos_right (bitNum_lt l) (by decide)
        _ = 2 ^ (l.length + 1) := (Nat.pow_add ..).symm
        _ ≤ 2 ^ w := Nat.pow_le_pow_right (by decide) hl
    have hmove := iterate_shift_shiftLeft poly hlt (Nat.le_refl 1)
    rw [Nat.sub_self, Nat.pow_zero, Nat.mul_one, Function.iterate_one] at hmove
    have hsplit : BitVec.ofNat w (bitNum (b :: l)) =
        BitVec.ofNat w b.toNat ^^^ BitVec.ofNat w (bitNum l * 2 ^ 1) := by
      rw [bitNum, Nat.mul_comm 2, ← ofNat_xor]
      exact congrArg _ (add_mul_two_pow (n := 1) b.toNat_lt (bitNum l))
    show bitPass poly (shift poly (crc ^^^ BitVec.ofNat w b.toNat)) l = _
    rw [ih (by omega), hsplit, ← BitVec.xor_assoc, List.length_cons, Function.iterate_succ_apply,
      shift_xor (crc ^^^ _), hmove]

theorem bitPass_append (crc : BitVec w) (l l' : List Bool) :
    bitPass poly crc (l ++ l') = bitPass poly (bitPass poly crc l) l' := List.foldl_append

theorem pass_eq_bitPass (hw : 8 ≤ w) (crc : BitVec w) (bs : List UInt8) :
    pass poly crc bs = bitPass poly crc (bits bs) := by
  induction bs generalizing crc with
  | nil => rfl
  | cons b bs ih =>
    have hlen : (byteBits b).length ≤ w := by rwa [length_byteBits]
    have hbyte : byte poly crc b = bitPass poly crc (byteBits b) := by
      rw [bitPass_eq hlen, length_byteBits, bitNum_byteBits, byte]
    show pass poly (byte poly crc b) bs = _
    rw [ih, hbyte, bits_cons, bitPass_append]

theorem bitPass_injective (hpoly : poly.msb = true) (l : List Bool) :
    Function.Injective fun crc => bitPass poly crc l := by
  induction l with
  | nil => exact fun _ _ h => h
  | cons b l ih => exact fun x y h => (BitVec.xor_left_inj _).mp (shift_injective hpoly (ih h))

theorem bitPass_middle (hpoly : poly.msb = true)
    {pre post l' : List Bool} (hlen : l.length = l'.length) (hl : l.length ≤ w)
    (h : bitPass poly crc (pre ++ (l ++ post)) = bitPass poly crc (pre ++ (l' ++ post))) :
    l = l' := by
  rw [bitPass_append, bitPass_append, bitPass_append, bitPass_append] at h
  have hmid : bitPass poly (bitPass poly crc pre) l = bitPass poly (bitPass poly crc pre) l' :=
    bitPass_injective hpoly post h
  have hl' : l'.length ≤ w := hlen ▸ hl
  rw [bitPass_eq hl, bitPass_eq hl', ← hlen] at hmid
  have hnum := (BitVec.xor_right_inj _).mp ((shift_injective hpoly).iterate _ hmid)
  have heq := congrArg BitVec.toNat hnum
  have hlt : bitNum l < 2 ^ w :=
    Nat.lt_of_lt_of_le (bitNum_lt l) (Nat.pow_le_pow_right (by decide) hl)
  have hlt' : bitNum l' < 2 ^ w :=
    Nat.lt_of_lt_of_le (bitNum_lt l') (Nat.pow_le_pow_right (by decide) hl')
  rw [BitVec.toNat_ofNat, BitVec.toNat_ofNat, Nat.mod_eq_of_lt hlt, Nat.mod_eq_of_lt hlt'] at heq
  exact bitNum_inj hlen heq

/-! ## Bursts -/

theorem length_bits (bs : List UInt8) : (bits bs).length = 8 * bs.length := by
  induction bs with
  | nil => rfl
  | cons b bs ih =>
    rw [bits_cons, List.length_append, length_byteBits, ih, List.length_cons]
    omega

theorem getElem?_bits (bs : List UInt8) {a j : Nat} (hj : j < 8) :
    (bits bs)[8 * a + j]? = bs[a]?.map fun b => b.toNat.testBit j := by
  induction bs generalizing a with
  | nil => rfl
  | cons b bs ih =>
    have hlen := length_byteBits b
    rw [bits_cons]
    cases a with
    | zero =>
      rw [List.getElem?_append_left (by omega)]
      simp [byteBits, hj]
    | succ a =>
      rw [List.getElem?_append_right (by omega), hlen, List.getElem?_cons_succ, ← ih]
      congr 1
      omega

theorem exists_testBit_ne {b c : UInt8} (h : b ≠ c) :
    ∃ j < 8, b.toNat.testBit j ≠ c.toNat.testBit j := by
  by_contra hall
  refine h (UInt8.toNat_inj.mp (Nat.eq_of_testBit_eq fun j => ?_))
  by_cases hj : j < 8
  · exact not_not.mp fun hne => hall ⟨j, hj, hne⟩
  · have hle : 2 ^ 8 ≤ 2 ^ j := Nat.pow_le_pow_right (by decide) (Nat.le_of_not_lt hj)
    rw [Nat.testBit_lt_two_pow (Nat.lt_of_lt_of_le b.toNat_lt hle),
      Nat.testBit_lt_two_pow (Nat.lt_of_lt_of_le c.toNat_lt hle)]

theorem bits_injective (h : bits bs = bits cs) : bs = cs := by
  refine List.ext_getElem? fun a => ?_
  have hbit : ∀ j < 8, (bs[a]?.map fun b => b.toNat.testBit j) =
      cs[a]?.map fun b => b.toNat.testBit j := by
    intro j hj
    rw [← getElem?_bits bs hj, ← getElem?_bits cs hj, h]
  cases hb : bs[a]? with
  | none =>
    cases hc : cs[a]? with
    | none => rfl
    | some c => simpa [hb, hc] using hbit 0 (by decide)
  | some b =>
    cases hc : cs[a]? with
    | none => simpa [hb, hc] using hbit 0 (by decide)
    | some c =>
      have hall : ∀ j < 8, b.toNat.testBit j = c.toNat.testBit j := by
        intro j hj
        simpa [hb, hc] using hbit j hj
      refine congrArg some (not_not.mp fun hne => ?_)
      obtain ⟨j, hj, hbit⟩ := exists_testBit_ne hne
      exact hbit (hall j hj)

theorem pass_burst (hw : 8 ≤ w) (hpoly : poly.msb = true) (hlen : bs.length = cs.length) {s : Nat}
    (h : ∀ i, i < s ∨ s + w ≤ i → (bits bs)[i]? = (bits cs)[i]?)
    (heq : pass poly crc bs = pass poly crc cs) : bs = cs := by
  have hlen' : (bits bs).length = (bits cs).length := by rw [length_bits, length_bits, hlen]
  have hpre : (bits bs).take s = (bits cs).take s := by
    refine List.ext_getElem? fun i => ?_
    rw [List.getElem?_take, List.getElem?_take]
    split
    next hi => exact h i (.inl hi)
    · rfl
  have hpost : ((bits bs).drop s).drop w = ((bits cs).drop s).drop w := by
    refine List.ext_getElem? fun i => ?_
    rw [List.drop_drop, List.drop_drop, List.getElem?_drop, List.getElem?_drop]
    exact h _ (.inr (Nat.le_add_right ..))
  have hsplit : ∀ l : List Bool, l = l.take s ++ ((l.drop s).take w ++ (l.drop s).drop w) := by
    intro l
    rw [List.take_append_drop, List.take_append_drop]
  rw [pass_eq_bitPass hw, pass_eq_bitPass hw, hsplit (bits bs), hsplit (bits cs), ← hpre,
    ← hpost] at heq
  have hmid := bitPass_middle hpoly
    (by simp only [List.length_take, List.length_drop, hlen']) (List.length_take_le ..) heq
  refine bits_injective ?_
  rw [hsplit (bits bs), hsplit (bits cs), hpre, hmid, hpost]

/-- The first `n` bytes of two memories differ in `k` bits from bit `s` on at most. -/
def Burst (n s k : Nat) (m m' : Mem) : Prop :=
  ∀ a < n, ∀ j < 8, 8 * a + j < s ∨ s + k ≤ 8 * a + j →
    (m' a).toNat.testBit j = (m a).toNat.testBit j

variable {m m' : Mem} {n s a k : Nat}

theorem Burst.ne (hb : Burst n s k m m') (hx : x < n) (h : m' x ≠ m x) :
    s < 8 * x + 8 ∧ 8 * x < s + k := by
  obtain ⟨j, hj, hne⟩ := exists_testBit_ne h
  have hin : ¬ (8 * x + j < s ∨ s + k ≤ 8 * x + j) := fun hout => hne (hb x hx j hj hout)
  omega

theorem Burst.load_eq (hb : Burst n s w m m') (hw : 8 ≤ w) (hpoly : poly.msb = true)
    (ha : a + k ≤ n)
    (heq : pass poly crc (load m' a k) = pass poly crc (load m a k)) :
    load m' a k = load m a k := by
  refine pass_burst hw hpoly (by rw [length_load, length_load]) (s := s - 8 * a) (fun i hi => ?_) heq
  obtain ⟨b, j, hj, rfl⟩ : ∃ b j, j < 8 ∧ i = 8 * b + j :=
    ⟨i / 8, i % 8, Nat.mod_lt _ (by decide), (Nat.div_add_mod i 8).symm⟩
  rw [getElem?_bits _ hj, getElem?_bits _ hj]
  by_cases hbk : b < k
  · have hget : ∀ m : Mem, (load m a k)[b]? = some (m (a + b)) := by
      intro m
      simp [load, hbk]
    rw [hget, hget, Option.map_some, Option.map_some, hb (a + b) (by omega) j hj (by omega)]
  · rw [List.getElem?_eq_none (by rw [length_load]; omega),
      List.getElem?_eq_none (by rw [length_load]; omega)]

/-! ## Words of 32 bits -/

def maskedShift (poly crc : UInt32) : UInt32 := (crc >>> 1) ^^^ (poly &&& (0 - (crc &&& 1)))

/-- A run of such shifts over some bytes. -/
def maskedPass (poly crc : UInt32) (bs : List UInt8) : UInt32 :=
  bs.foldl (fun crc b => (maskedShift poly)^[8] (crc ^^^ b.toUInt32)) crc

/-- One shift of a word, with a branch on the bit that falls out. -/
def branchShift (poly crc : UInt32) : UInt32 :=
  if crc &&& 1 ≠ 0 then (crc >>> 1) ^^^ poly else crc >>> 1

/-- A run of such shifts over some bytes. -/
def branchPass (poly crc : UInt32) (bs : List UInt8) : UInt32 :=
  bs.foldl (fun crc b => (branchShift poly)^[8] (crc ^^^ b.toUInt32)) crc

theorem toBitVec_and_one (crc : UInt32) :
    (crc &&& 1).toBitVec = if crc.toBitVec.getLsbD 0 then 1#32 else 0#32 := by
  rw [UInt32.toBitVec_and]
  refine (BitVec.and_one_eq_setWidth_ofBool_getLsbD (x := crc.toBitVec)).trans ?_
  cases crc.toBitVec.getLsbD 0 <;> rfl

theorem toBitVec_shiftRight_one (crc : UInt32) : (crc >>> 1).toBitVec = crc.toBitVec >>> 1 := by
  rw [UInt32.toBitVec_shiftRight]
  rfl

theorem toBitVec_branchShift (poly crc : UInt32) :
    (branchShift poly crc).toBitVec = shift poly.toBitVec crc.toBitVec := by
  have hbit := toBitVec_and_one crc
  unfold branchShift shift
  cases h : crc.toBitVec.getLsbD 0 with
  | false =>
    rw [h] at hbit
    have hzero : crc &&& 1 = 0 := UInt32.toBitVec_inj.mp hbit
    rw [if_neg (not_not.mpr hzero), if_neg (by decide), toBitVec_shiftRight_one]
  | true =>
    rw [h] at hbit
    have hone : crc &&& 1 = 1 := UInt32.toBitVec_inj.mp hbit
    rw [if_pos (by rw [hone]; decide), if_pos rfl, UInt32.toBitVec_xor, toBitVec_shiftRight_one]

theorem maskedShift_eq (poly crc : UInt32) : maskedShift poly crc = branchShift poly crc := by
  have hbit := toBitVec_and_one crc
  unfold maskedShift branchShift
  cases h : crc.toBitVec.getLsbD 0 with
  | false =>
    rw [h] at hbit
    have hzero : crc &&& 1 = 0 := UInt32.toBitVec_inj.mp hbit
    rw [if_neg (not_not.mpr hzero), hzero]
    simp
  | true =>
    rw [h] at hbit
    have hone : crc &&& 1 = 1 := UInt32.toBitVec_inj.mp hbit
    have hall : poly &&& (0 - 1) = poly := by
      refine UInt32.toBitVec_inj.mp ?_
      rw [UInt32.toBitVec_and]
      exact BitVec.and_allOnes
    rw [if_pos (by rw [hone]; decide), hone, hall]

theorem maskedPass_eq (poly crc : UInt32) (bs : List UInt8) :
    maskedPass poly crc bs = branchPass poly crc bs := by
  have hshift : maskedShift poly = branchShift poly := funext (maskedShift_eq poly)
  rw [maskedPass, branchPass, hshift]

theorem toBitVec_iterate (poly crc : UInt32) (n : Nat) :
    ((branchShift poly)^[n] crc).toBitVec = (shift poly.toBitVec)^[n] crc.toBitVec := by
  induction n generalizing crc with
  | zero => rfl
  | succ n ih => rw [Function.iterate_succ_apply, Function.iterate_succ_apply, ih,
      toBitVec_branchShift]

theorem toBitVec_branchPass (poly crc : UInt32) (bs : List UInt8) :
    (branchPass poly crc bs).toBitVec = pass poly.toBitVec crc.toBitVec bs := by
  induction bs generalizing crc with
  | nil => rfl
  | cons b bs ih =>
    have hbyte : ((branchShift poly)^[8] (crc ^^^ b.toUInt32)).toBitVec =
        byte poly.toBitVec crc.toBitVec b := by
      have hb : b.toUInt32.toBitVec = BitVec.ofNat 32 b.toNat := by
        refine BitVec.eq_of_toNat_eq ?_
        have hlt := b.toNat_lt
        rw [BitVec.toNat_ofNat, Nat.mod_eq_of_lt (by omega)]
        exact UInt8.toNat_toUInt32 b
      rw [toBitVec_iterate, byte, UInt32.toBitVec_xor, hb]
    show (branchPass poly ((branchShift poly)^[8] (crc ^^^ b.toUInt32)) bs).toBitVec = _
    rw [ih, hbyte]
    rfl

/-! ## CRC-32C -/

/-- The reflected Castagnoli polynomial. -/
def castagnoli : BitVec 32 := 0x82F63B78#32

/-- The check value of some bytes. -/
def crc32c (bs : List UInt8) : Nat := (pass castagnoli 0xFFFFFFFF#32 bs ^^^ 0xFFFFFFFF#32).toNat

/-- A run on numbers, which is evaluated one byte at a time. -/
def passNat (poly : BitVec w) : List UInt8 → Nat → Nat
  | [], n => n
  | b :: bs, n =>
    match (byte poly (BitVec.ofNat w n) b).toNat with
    | 0 => passNat poly bs 0
    | k + 1 => passNat poly bs (k + 1)

theorem passNat_eq (bs : List UInt8) (crc : BitVec w) :
    passNat poly bs crc.toNat = (pass poly crc bs).toNat := by
  induction bs generalizing crc with
  | nil => rfl
  | cons b bs ih =>
    have hstep : passNat poly (b :: bs) crc.toNat = passNat poly bs (byte poly crc b).toNat := by
      rw [passNat, BitVec.ofNat_toNat, BitVec.setWidth_eq]
      cases (byte poly crc b).toNat <;> rfl
    rw [hstep, ih]
    rfl

theorem crc32c_eq (bs : List UInt8) :
    crc32c bs = passNat castagnoli bs 0xFFFFFFFF ^^^ 0xFFFFFFFF := by
  rw [crc32c, BitVec.toNat_xor, ← passNat_eq]
  rfl

/-- A run over words gives the check value. -/
theorem toNat_branchPass (bs : List UInt8) :
    (branchPass 0x82F63B78 0xFFFFFFFF bs ^^^ 0xFFFFFFFF).toNat = crc32c bs := by
  have hpass := toBitVec_branchPass 0x82F63B78 0xFFFFFFFF bs
  show (branchPass 0x82F63B78 0xFFFFFFFF bs ^^^ 0xFFFFFFFF).toBitVec.toNat = _
  rw [UInt32.toBitVec_xor, hpass]
  rfl

theorem crc32c_eq_iff :
    crc32c bs = crc32c cs ↔ pass castagnoli 0xFFFFFFFF#32 bs = pass castagnoli 0xFFFFFFFF#32 cs := by
  rw [crc32c, crc32c, BitVec.toNat_inj, BitVec.xor_left_inj]

theorem crc32c_lt (bs : List UInt8) : crc32c bs < 2 ^ 32 := BitVec.isLt _

theorem crc32c_middle_iff (pre post : List UInt8) (has : as.length = 4) (hbs : bs.length = 4) :
    crc32c (pre ++ (as ++ post)) = crc32c (pre ++ (bs ++ post)) ↔ as = bs := by
  rw [crc32c_eq_iff]
  exact pass_middle_iff (by decide) _ pre post (has.trans hbs.symm) (by omega)

theorem Burst.load_eq_of_crc32c (hb : Burst n s 32 m m')
    (ha : a + k ≤ n) (h : crc32c (load m' a k) = crc32c (load m a k)) :
    load m' a k = load m a k :=
  hb.load_eq (by decide) (by decide) ha (crc32c_eq_iff.mp h)

theorem crc32c_storeNum_iff (m : Mem) {v : Nat} (hlo : s ≤ a) (hhi : a + 4 ≤ s + n)
    (hv : v < 2 ^ 32) :
    crc32c (load (storeNum m a 4 v) s n) = crc32c (load m s n) ↔ loadNum m a 4 = v := by
  obtain ⟨pre, rfl⟩ : ∃ pre, a = s + pre := ⟨a - s, by omega⟩
  obtain ⟨post, rfl⟩ : ∃ post, n = pre + (4 + post) := ⟨n - pre - 4, by omega⟩
  have hsplit : ∀ m : Mem, load m s (pre + (4 + post)) =
      load m s pre ++ (load m (s + pre) 4 ++ load m (s + pre + 4) post) := by
    intro m
    rw [load_add, load_add]
  have hpre : load (storeNum m (s + pre) 4 v) s pre = load m s pre :=
    (sameOn_storeNum (P := Span s (s + pre)) fun x hx => .inl hx.2).load_eq
      fun x h1 h2 => ⟨h1, h2⟩
  have hpost : load (storeNum m (s + pre) 4 v) (s + pre + 4) post = load m (s + pre + 4) post :=
    (sameOn_storeNum (P := fun x => s + pre + 4 ≤ x) fun x hx => .inr hx).load_eq
      fun x h1 _ => h1
  have hself : load (storeNum m (s + pre) 4 v) (s + pre) 4 = leBytes 4 v := by
    have h := load_store_self m (s + pre) (leBytes 4 v)
    rwa [length_leBytes] at h
  rw [hsplit, hsplit, hpre, hpost, hself, crc32c_middle_iff _ _ (by simp) (by simp)]
  constructor
  · intro h
    rw [loadNum, ← h, leNum_leBytes]
    exact Nat.mod_eq_of_lt hv
  · intro h
    have hload := leBytes_leNum (load m (s + pre) 4)
    rw [length_load] at hload
    rw [← h, loadNum, hload]

end Crc
