import OpenWindows.Lib.BitPoly

/-!
# The checksums of `owzip64.c`

`owzip_crc32` keeps a reflected register between its conditioning by an exclusive or
with all ones, and `owzip_adler32` keeps two sums modulo 65521.  A call goes on where the
call before it ended.  The register of the CRC is the remainder of the message by the
IEEE polynomial.
-/

namespace Owzip

open Polynomial BitPoly Crc

/-- `owzip_crc32`; `data` is `none` for a null pointer. -/
def owzipCrc32 (crc : UInt32) (data : Option (List UInt8)) (len : Nat) : UInt32 :=
  if data.isNone ∧ len ≠ 0 then crc
  else branchPass 0xEDB88320 (crc ^^^ 0xFFFFFFFF) ((data.getD []).take len) ^^^ 0xFFFFFFFF

/-- One turn of the loop of `owzip_adler32` on `a` and `b`. -/
def adlerTurn (s : UInt32 × UInt32) (x : UInt8) : UInt32 × UInt32 :=
  let a := (s.1 + x.toUInt32) % 65521
  (a, (s.2 + a) % 65521)

/-- The two halves of the value. -/
def adlerHalves (adler : UInt32) : UInt32 × UInt32 := (adler &&& 0xFFFF, (adler >>> 16) &&& 0xFFFF)

/-- `owzip_adler32`; `data` is `none` for a null pointer. -/
def owzipAdler32 (adler : UInt32) (data : Option (List UInt8)) (len : Nat) : UInt32 :=
  if data.isNone ∧ len ≠ 0 then adler
  else
    let s := ((data.getD []).take len).foldl adlerTurn (adlerHalves adler)
    (s.2 <<< 16) ||| s.1

/-! ## Calls one after the other -/

variable {x y : List UInt8}

theorem owzipCrc32_eq (crc : UInt32) (x : List UInt8) :
    owzipCrc32 crc (some x) x.length = branchPass 0xEDB88320 (crc ^^^ 0xFFFFFFFF) x ^^^ 0xFFFFFFFF := by
  simp [owzipCrc32]

theorem owzipCrc32_append (crc : UInt32) (x y : List UInt8) :
    owzipCrc32 (owzipCrc32 crc (some x) x.length) (some y) y.length =
      owzipCrc32 crc (some (x ++ y)) (x ++ y).length := by
  rw [owzipCrc32_eq, owzipCrc32_eq, owzipCrc32_eq, UInt32.xor_assoc, UInt32.xor_self, UInt32.xor_zero,
    branchPass, branchPass, branchPass, List.foldl_append]

theorem owzipAdler32_eq (adler : UInt32) (x : List UInt8) :
    owzipAdler32 adler (some x) x.length =
      ((x.foldl adlerTurn (adlerHalves adler)).2 <<< 16) |||
        (x.foldl adlerTurn (adlerHalves adler)).1 := by
  simp [owzipAdler32]

theorem toNat_pack {s : UInt32 × UInt32} (h1 : s.1.toNat < 2 ^ 16) (h2 : s.2.toNat < 2 ^ 16) :
    ((s.2 <<< 16) ||| s.1).toNat = s.2.toNat * 2 ^ 16 + s.1.toNat := by
  rw [UInt32.toNat_or, UInt32.toNat_shiftLeft]
  have hshift : s.2.toNat <<< 16 < 2 ^ 32 := by
    rw [Nat.shiftLeft_eq]
    omega
  show s.2.toNat <<< 16 % 2 ^ 32 ||| s.1.toNat = _
  rw [Nat.mod_eq_of_lt hshift, ← Nat.shiftLeft_add_eq_or_of_lt h1, Nat.shiftLeft_eq]

theorem toNat_and_low (a : UInt32) : (a &&& 0xFFFF).toNat = a.toNat % 2 ^ 16 := by
  rw [UInt32.toNat_and]
  exact Nat.and_two_pow_sub_one_eq_mod a.toNat 16

theorem adlerHalves_pack {s : UInt32 × UInt32} (h1 : s.1.toNat < 2 ^ 16) (h2 : s.2.toNat < 2 ^ 16) :
    adlerHalves ((s.2 <<< 16) ||| s.1) = s := by
  have hpack := toNat_pack h1 h2
  refine Prod.ext (UInt32.toNat_inj.mp ?_) (UInt32.toNat_inj.mp ?_)
  · show (((s.2 <<< 16) ||| s.1) &&& 0xFFFF).toNat = _
    rw [toNat_and_low, hpack]
    omega
  · show ((((s.2 <<< 16) ||| s.1) >>> 16) &&& 0xFFFF).toNat = _
    rw [toNat_and_low, UInt32.toNat_shiftRight, hpack]
    show (s.2.toNat * 2 ^ 16 + s.1.toNat) >>> 16 % 2 ^ 16 = _
    rw [Nat.shiftRight_eq_div_pow]
    omega

/-- Two halves of 16 bits. -/
def Halves (s : UInt32 × UInt32) : Prop := s.1.toNat < 2 ^ 16 ∧ s.2.toNat < 2 ^ 16

theorem halves_adlerHalves (adler : UInt32) : Halves (adlerHalves adler) := by
  refine ⟨?_, ?_⟩
  · rw [adlerHalves, toNat_and_low]
    exact Nat.mod_lt _ (by decide)
  · rw [adlerHalves, toNat_and_low]
    exact Nat.mod_lt _ (by decide)

theorem Halves.turn (s : UInt32 × UInt32) (x : UInt8) : Halves (adlerTurn s x) := by
  have hmod : ∀ a : UInt32, (a % 65521).toNat < 2 ^ 16 := by
    intro a
    rw [UInt32.toNat_mod]
    exact Nat.lt_trans (Nat.mod_lt _ (by decide)) (by decide)
  exact ⟨hmod _, hmod _⟩

theorem Halves.foldl {s : UInt32 × UInt32} (h : Halves s) (x : List UInt8) :
    Halves (x.foldl adlerTurn s) := by
  induction x generalizing s with
  | nil => exact h
  | cons b x ih => exact ih (.turn s b)

theorem owzipAdler32_append (adler : UInt32) (x y : List UInt8) :
    owzipAdler32 (owzipAdler32 adler (some x) x.length) (some y) y.length =
      owzipAdler32 adler (some (x ++ y)) (x ++ y).length := by
  have h := (halves_adlerHalves adler).foldl x
  rw [owzipAdler32_eq, owzipAdler32_eq, owzipAdler32_eq, adlerHalves_pack h.1 h.2,
    List.foldl_append]

/-! ## The IEEE polynomial -/

/-- The polynomial of IEEE 802.3. -/
noncomputable def ieee : (ZMod 2)[X] :=
  X ^ 32 + X ^ 26 + X ^ 23 + X ^ 22 + X ^ 16 + X ^ 12 + X ^ 11 + X ^ 10 + X ^ 8 + X ^ 7 + X ^ 5 +
    X ^ 4 + X ^ 2 + X + 1

theorem generator_eq : generator 0xEDB88320#32 = ieee := by
  have hbits : ∀ i < 32, (0xEDB88320#32).getMsbD i =
      decide (i ∈ [26, 23, 22, 16, 12, 11, 10, 8, 7, 5, 4, 2, 1, 0]) := by decide
  rw [generator, modulus, ofBits_congr hbits, ofBits_mem (by decide) (by decide), ieee]
  simp only [List.map_cons, List.map_nil, List.sum_cons, List.sum_nil]
  ring

/-- The word of 32 ones with which the register is conditioned. -/
noncomputable def ones : (ZMod 2)[X] := ∑ i ∈ Finset.range 32, X ^ i

theorem regPoly_not (c : UInt32) : regPoly (c ^^^ 0xFFFFFFFF).toBitVec = regPoly c.toBitVec + ones := by
  have hones : ones = ofBits 32 fun _ => true := rfl
  rw [hones, regPoly, regPoly, ← ofBits_xor]
  refine ofBits_congr fun i hi => ?_
  have hall : (0xFFFFFFFF : UInt32).toBitVec = BitVec.allOnes 32 := rfl
  rw [UInt32.toBitVec_xor, hall, BitVec.getMsbD_xor, BitVec.getMsbD_allOnes, decide_eq_true hi]

/-- The value for a message is its remainder, with ones added before and after. -/
theorem regPoly_owzipCrc32 (x : List UInt8) :
    regPoly (owzipCrc32 0 (some x) x.length).toBitVec + ones =
      (X ^ (8 * x.length) * ones + X ^ 32 * message (bits x)) %ₘ ieee := by
  have hstart : regPoly ((0 : UInt32) ^^^ 0xFFFFFFFF).toBitVec = ones := by
    rw [regPoly_not]
    exact (congrArg (· + ones) ((ofBits_congr (by decide)).trans (ofBits_false 32))).trans (zero_add _)
  rw [owzipCrc32_eq, regPoly_not, add_assoc, add_self, add_zero, toBitVec_branchPass,
    regPoly_pass (by decide), hstart]
  exact congrArg _ generator_eq

/-- A call on the rest goes on where the call before it ended, for every starting value,
and the CRC of a message is its remainder by the IEEE polynomial. -/
theorem checksums_compose :
    (∀ crc x y, owzipCrc32 (owzipCrc32 crc (some x) x.length) (some y) y.length =
      owzipCrc32 crc (some (x ++ y)) (x ++ y).length) ∧
    (∀ adler x y, owzipAdler32 (owzipAdler32 adler (some x) x.length) (some y) y.length =
      owzipAdler32 adler (some (x ++ y)) (x ++ y).length) ∧
    ∀ x, regPoly (owzipCrc32 0 (some x) x.length).toBitVec + ones =
      (X ^ (8 * x.length) * ones + X ^ 32 * message (bits x)) %ₘ ieee :=
  ⟨owzipCrc32_append, owzipAdler32_append, regPoly_owzipCrc32⟩

/-- The CRC of the letter `a`. -/
example : owzipCrc32 0 (some [97]) 1 = 0xE8B7BE43 := by decide

end Owzip
