import Mathlib.Data.Nat.Bitwise
import Mathlib.Tactic.IntervalCases
import OpenWindows.Lib.BitPoly
import OpenWindows.Crypto.AesInverse

/-!
# GHASH as arithmetic of polynomials

Sixteen bytes are a polynomial, the highest bit of the first byte being the constant
term.  A turn of `owc_gh_mul` adds the vector for a bit of the multiplier and then
multiplies it by `X`, so the loop is the product modulo `X^128 + X^7 + X^2 + X + 1`, and
GHASH is the value of the polynomial of its blocks at the key.
-/

namespace Crypto

open Polynomial BitPoly Words Stream

/-! ## Bits -/

/-- Bit `k` of a block, the highest bit of the first byte first. -/
def gcmBit (b : List UInt8) (k : Nat) : Bool := (byteAt b (k / 8)).toNat.testBit (7 - k % 8)

/-- The polynomial of a block; bytes that are missing are zero. -/
noncomputable def blockPoly (b : List UInt8) : (ZMod 2)[X] := ofBits 128 (gcmBit b)

/-- The polynomial of an `owc_gh_t`. -/
noncomputable def ghPoly (g : Gh) : (ZMod 2)[X] := blockPoly (ghStore g)

/-- The bits of `0xE1` at the front. -/
def gcmTaps (k : Nat) : Bool := decide (k ∈ [7, 2, 1, 0])

/-- The polynomial of GCM. -/
noncomputable def gcmModulus : (ZMod 2)[X] := X ^ 128 + X ^ 7 + X ^ 2 + X + 1

theorem modulus_gcmTaps : modulus 128 gcmTaps = gcmModulus := by
  have htaps : ofBits 128 gcmTaps = _ := ofBits_mem (l := [7, 2, 1, 0]) (by decide) (by simp)
  unfold modulus gcmModulus
  simp only [htaps, List.map_cons, List.map_nil, List.sum_cons, List.sum_nil, pow_one, pow_zero,
    add_zero, ← add_assoc]

variable {a b : List UInt8} {i j k : Nat}

theorem testBit_get32 (p : List UInt8) (hi : i < 32) :
    (get32 p).toNat.testBit i = (p.getD (3 - i / 8) 0).toNat.testBit (i % 8) := by
  show (get32 p).toBitVec.getLsbD i = (p.getD (3 - i / 8) 0).toBitVec.getLsbD (i % 8)
  rw [get32]
  simp only [UInt32.toBitVec_or, UInt32.toBitVec_shiftLeft, UInt8.toBitVec_toUInt32,
    BitVec.getLsbD_or]
  interval_cases i <;> simp

theorem testBit_get64 (p : List UInt8) (hi : i < 64) :
    (get64 p).toNat.testBit i = (p.getD (7 - i / 8) 0).toNat.testBit (i % 8) := by
  have hword : (get64 p).toNat.testBit i =
      ((get32 p).toBitVec.setWidth 64 <<< 32 ||| (get32 (p.drop 4)).toBitVec.setWidth 64).getLsbD i :=
    rfl
  rw [hword, BitVec.getLsbD_or, BitVec.getLsbD_shiftLeft, BitVec.getLsbD_setWidth,
    BitVec.getLsbD_setWidth]
  rcases Nat.lt_or_ge i 32 with hlow | hhigh
  · have hbyte := testBit_get32 (p.drop 4) hlow
    rw [List.getD_eq_getElem?_getD, List.getElem?_drop, ← List.getD_eq_getElem?_getD,
      show 4 + (3 - i / 8) = 7 - i / 8 by omega] at hbyte
    simp only [hi, hlow, decide_true, Bool.not_true, Bool.and_false, Bool.false_and, Bool.false_or,
      Bool.true_and]
    exact hbyte
  · have hbyte := testBit_get32 p (i := i - 32) (by omega)
    rw [show 3 - (i - 32) / 8 = 7 - i / 8 by omega, show (i - 32) % 8 = i % 8 by omega] at hbyte
    have hzero : (get32 (p.drop 4)).toBitVec.getLsbD i = false := BitVec.getLsbD_of_ge _ _ hhigh
    simp only [hi, Nat.not_lt_of_le hhigh, show i - 32 < 64 by omega, hzero, decide_true, decide_false,
      Bool.not_false, Bool.and_self, Bool.true_and, Bool.and_false, Bool.or_false]
    exact hbyte

theorem testBit_move (u v : UInt8) (hk : k < 8) :
    ((u >>> 1) ||| (v <<< 7)).toNat.testBit (7 - k) =
      if k = 0 then v.toNat.testBit 0 else u.toNat.testBit (8 - k) := by
  have hbits : ((u >>> 1) ||| (v <<< 7)).toNat.testBit (7 - k) =
      (u.toBitVec >>> 1 ||| v.toBitVec <<< 7).getLsbD (7 - k) := rfl
  rw [hbits]
  show _ = if k = 0 then v.toBitVec.getLsbD 0 else u.toBitVec.getLsbD (8 - k)
  interval_cases k <;> simp

/-- The bits of a block as the loop of `owc_gh_mul` tests them. -/
theorem mask_ne_zero_iff {v : UInt8} (hk : k < 8) :
    v &&& ((0x80 : UInt8) >>> UInt8.ofNat k) ≠ 0 ↔ v.toNat.testBit (7 - k) = true := by
  have hmask : (((0x80 : UInt8) >>> UInt8.ofNat k)).toNat = 2 ^ (7 - k) := by
    interval_cases k <;> rfl
  rw [Ne, ← UInt8.toNat_inj, UInt8.toNat_and, hmask, Nat.and_two_pow]
  cases v.toNat.testBit (7 - k) <;> simp

/-- The bits of a word in front. -/
theorem gcmBit_put64 (v : UInt64) (rest : List UInt8) (hk : k < 64) :
    gcmBit (put64 v ++ rest) k = v.toNat.testBit (63 - k) := by
  have hbit := testBit_get64 (put64 v ++ rest) (i := 63 - k) (by omega)
  rw [get64_put64, show 7 - (63 - k) / 8 = k / 8 by omega, show (63 - k) % 8 = 7 - k % 8 by omega]
    at hbit
  exact hbit.symm

theorem gcmBit_append {p : List UInt8} (q : List UInt8) (hp : p.length = 8) (hk : 64 ≤ k) :
    gcmBit (p ++ q) k = gcmBit q (k - 64) := by
  have hbyte : byteAt (p ++ q) (k / 8) = byteAt q ((k - 64) / 8) := by
    rw [byteAt, byteAt, List.getD_append_right _ _ _ _ (by omega), hp]
    congr 1
    omega
  rw [gcmBit, gcmBit, hbyte]
  congr 1
  omega

theorem gcmBit_ghStore (g : Gh) (hk : k < 128) :
    gcmBit (ghStore g) k =
      if k < 64 then g.hi.toNat.testBit (63 - k) else g.lo.toNat.testBit (127 - k) := by
  rw [ghStore]
  split
  next hlow => exact gcmBit_put64 g.hi _ hlow
  next hhigh =>
    have hlo := gcmBit_put64 g.lo [] (k := k - 64) (by omega)
    rw [gcmBit_append _ (length_put64 _) (Nat.le_of_not_lt hhigh), ← List.append_nil (put64 g.lo), hlo]
    congr 1
    omega

theorem gcmBit_ghLoad (b : List UInt8) (hk : k < 128) :
    gcmBit (ghStore (ghLoad b)) k = gcmBit b k := by
  rw [gcmBit_ghStore _ hk, ghLoad]
  split
  next hlow =>
    rw [testBit_get64 b (by omega), show 7 - (63 - k) / 8 = k / 8 by omega,
      show (63 - k) % 8 = 7 - k % 8 by omega]
    rfl
  next hhigh =>
    rw [testBit_get64 _ (by omega), List.getD_eq_getElem?_getD, List.getElem?_drop,
      ← List.getD_eq_getElem?_getD, show 8 + (7 - (127 - k) / 8) = k / 8 by omega,
      show (127 - k) % 8 = 7 - k % 8 by omega]
    rfl

theorem ghPoly_ghLoad (b : List UInt8) : ghPoly (ghLoad b) = blockPoly b :=
  ofBits_congr fun _ hk => gcmBit_ghLoad b hk

/-! ## The multiplication -/

theorem byteAt_set (v : List UInt8) (u : UInt8) (h : 0 < v.length) (j : Nat) :
    byteAt (v.set 0 u) j = if j = 0 then u else byteAt v j := by
  cases v with
  | nil => cases h
  | cons b v => cases j <;> rfl

theorem gcmBit_ghShift (v : List UInt8) (hk : k < 128) :
    gcmBit (ghShift v) k =
      ((decide (0 < k) && gcmBit v (k - 1)) ^^ (gcmBit v 127 && gcmTaps k)) := by
  unfold ghShift
  dsimp only
  obtain ⟨w, hw⟩ : ∃ w, w = (List.range 16).map fun j =>
      if j = 0 then byteAt v 0 >>> 1 else (byteAt v j >>> 1) ||| (byteAt v (j - 1) <<< 7) := ⟨_, rfl⟩
  rw [← hw]
  have hmove : gcmBit w k = (decide (0 < k) && gcmBit v (k - 1)) := by
    rw [gcmBit, hw, byteAt_map_range _ (by omega), gcmBit]
    by_cases hzero : k % 8 = 0
    · split
      next hj =>
        have hk : k = 0 := by omega
        subst hk
        have hbit := testBit_move (byteAt v 0) 0 (k := 0) (by decide)
        simpa using hbit
      next hj =>
        rw [testBit_move _ _ (Nat.mod_lt k (by decide)), if_pos hzero, decide_eq_true (by omega),
          Bool.true_and, show (k - 1) / 8 = k / 8 - 1 by omega, show 7 - (k - 1) % 8 = 0 by omega]
    · have hprev : (k - 1) / 8 = k / 8 := by omega
      have hplace : 7 - (k - 1) % 8 = 8 - k % 8 := by omega
      rw [hprev, hplace, decide_eq_true (by omega), Bool.true_and]
      split
      next hj =>
        have hbit := testBit_move (byteAt v 0) 0 (Nat.mod_lt k (by decide))
        rw [if_neg hzero] at hbit
        rw [hj]
        simpa using hbit
      next hj => rw [testBit_move _ _ (Nat.mod_lt k (by decide)), if_neg hzero]
  have hlow : byteAt v 15 &&& 1 ≠ 0 ↔ gcmBit v 127 = true := mask_ne_zero_iff (k := 7) (by decide)
  cases hfed : gcmBit v 127 with
  | false =>
    rw [if_neg (fun h => by rw [hlow.mp h] at hfed; cases hfed), hmove, Bool.false_and, Bool.xor_false]
  | true =>
    have htap : gcmTaps k = (decide (k / 8 = 0) && (0xE1 : UInt8).toNat.testBit (7 - k % 8)) := by
      by_cases hj : k / 8 = 0
      · have hfirst : k < 8 := by omega
        interval_cases k <;> rfl
      · rw [decide_eq_false hj, Bool.false_and, gcmTaps]
        exact decide_eq_false (by simp only [List.mem_cons, List.not_mem_nil, or_false]; omega)
    rw [if_pos (hlow.mpr hfed), ← hmove, Bool.true_and, htap, gcmBit, gcmBit,
      byteAt_set _ _ (by rw [hw]; simp)]
    split
    next hj =>
      rw [UInt8.toNat_xor, Nat.testBit_xor, hj]
      rfl
    next hj => rw [decide_eq_false hj, Bool.false_and, Bool.xor_false]

theorem gcmBit_xorBytes (ha : a.length = 16) (hb : b.length = 16) (hk : k < 128) :
    gcmBit (xorBytes a b) k = (gcmBit a k ^^ gcmBit b k) := by
  have hbyte : byteAt (xorBytes a b) (k / 8) = byteAt a (k / 8) ^^^ byteAt b (k / 8) := by
    have hka : k / 8 < a.length := by omega
    have hkb : k / 8 < b.length := by omega
    simp [byteAt, xorBytes, hka, hkb]
  rw [gcmBit, hbyte, UInt8.toNat_xor, Nat.testBit_xor]
  rfl

@[simp] theorem length_ghShift (v : List UInt8) : (ghShift v).length = 16 := by
  unfold ghShift
  dsimp only
  split <;> simp

/-- After `n` turns the vector is the multiplicand times `X ^ n`, and the sum its product
with the first `n` bits of the multiplier. -/
structure Multiplied (x y : List UInt8) (n : Nat) (t : List UInt8 × List UInt8) : Prop where
  sumLength : t.1.length = 16
  vectorLength : t.2.length = 16
  vector : Cong (modulus 128 gcmTaps) (blockPoly t.2) (X ^ n * blockPoly y)
  sum : Cong (modulus 128 gcmTaps) (blockPoly t.1) (ofBits n (gcmBit x) * blockPoly y)

variable {x y : List UInt8} {n : Nat} {t : List UInt8 × List UInt8}

theorem Multiplied.turn (h : Multiplied x y n t) :
    Multiplied x y (n + 1) (ghMulTurn x t n) := by
  have hmask := mask_ne_zero_iff (v := byteAt x (n / 8)) (Nat.mod_lt n (by decide))
  refine ⟨?_, length_ghShift _, ?_, ?_⟩
  · unfold ghMulTurn
    dsimp only
    split
    · rw [length_xorBytes, h.sumLength, h.vectorLength, Nat.min_self]
    · exact h.sumLength
  · have hshift : Cong (modulus 128 gcmTaps) (blockPoly (ghShift t.2)) (X * blockPoly t.2) :=
      cong_shift (by decide) fun k hk => gcmBit_ghShift t.2 hk
    rw [pow_succ', mul_assoc]
    exact hshift.trans (h.vector.mul_left X)
  · rw [ofBits_succ, add_mul]
    unfold ghMulTurn
    dsimp only
    by_cases hbit : gcmBit x n = true
    · have hxor : blockPoly (xorBytes t.1 t.2) = blockPoly t.1 + blockPoly t.2 := by
        rw [blockPoly, blockPoly, blockPoly, ← ofBits_xor]
        exact ofBits_congr fun k hk => gcmBit_xorBytes h.sumLength h.vectorLength hk
      rw [if_pos (hmask.mpr hbit), if_pos hbit, hxor]
      exact h.sum.add h.vector
    · rw [if_neg fun hne => hbit (hmask.mp hne), if_neg hbit, zero_mul, add_zero]
      exact h.sum

theorem blockPoly_zero : blockPoly (List.replicate 16 0) = 0 := by
  rw [blockPoly, ← ofBits_false 128]
  refine ofBits_congr fun k hk => ?_
  have hbyte : byteAt (List.replicate 16 0) (k / 8) = 0 := by
    rw [byteAt, List.getD_replicate _ (by omega)]
  rw [gcmBit, hbyte]
  exact Nat.zero_testBit _

theorem multiplied_foldl (x y : List UInt8) (hy : y.length = 16) (n : Nat) :
    Multiplied x y n ((List.range n).foldl (ghMulTurn x) (List.replicate 16 0, y)) := by
  induction n with
  | zero =>
    refine ⟨rfl, hy, ?_, ?_⟩
    · rw [pow_zero, one_mul]
      exact .refl _ _
    · show Cong _ (blockPoly (List.replicate 16 0)) _
      rw [blockPoly_zero, ofBits, Finset.sum_range_zero, zero_mul]
      exact .refl _ _
  | succ n ih =>
    rw [List.range_succ, List.foldl_concat]
    exact ih.turn

theorem cong_ghMul (x y : Gh) :
    Cong (modulus 128 gcmTaps) (ghPoly (ghMul x y)) (ghPoly x * ghPoly y) := by
  rw [ghMul, ghPoly_ghLoad]
  exact (multiplied_foldl (ghStore x) (ghStore y) rfl 128).sum

/-- The sum of two values. -/
def ghXor (x y : Gh) : Gh := ⟨x.hi ^^^ y.hi, x.lo ^^^ y.lo⟩

theorem ghPoly_ghXor (x y : Gh) : ghPoly (ghXor x y) = ghPoly x + ghPoly y := by
  rw [ghPoly, ghPoly, ghPoly, blockPoly, blockPoly, blockPoly, ← ofBits_xor]
  refine ofBits_congr fun k hk => ?_
  rw [gcmBit_ghStore _ hk, gcmBit_ghStore _ hk, gcmBit_ghStore _ hk]
  split
  · rw [ghXor, UInt64.toNat_xor, Nat.testBit_xor]
  · rw [ghXor, UInt64.toNat_xor, Nat.testBit_xor]

theorem eq_mod_gcmModulus {g : Gh} {p : (ZMod 2)[X]}
    (h : Cong (modulus 128 gcmTaps) (ghPoly g) p) : ghPoly g = p %ₘ gcmModulus := by
  rw [← modulus_gcmTaps]
  exact Cong.eq_modByMonic (n := 128) (f := gcmBit (ghStore g)) h

/-- Values with congruent polynomials are equal. -/
theorem gh_ext {x y : Gh} (h : Cong (modulus 128 gcmTaps) (ghPoly x) (ghPoly y)) : x = y := by
  have hbit : ∀ k < 128, gcmBit (ghStore x) k = gcmBit (ghStore y) k :=
    Cong.ofBits_inj (n := 128) h
  have hword : ∀ {v v' : UInt64}, (∀ k < 64, v.toNat.testBit (63 - k) = v'.toNat.testBit (63 - k)) →
      v = v' := by
    intro v v' hv
    refine UInt64.toNat_inj.mp (Nat.eq_of_testBit_eq fun i => ?_)
    rcases Nat.lt_or_ge i 64 with hi | hi
    · have := hv (63 - i) (by omega)
      rwa [show 63 - (63 - i) = i by omega] at this
    · have hpow : 2 ^ 64 ≤ 2 ^ i := Nat.pow_le_pow_right (by decide) hi
      rw [Nat.testBit_lt_two_pow (Nat.lt_of_lt_of_le v.toNat_lt hpow),
        Nat.testBit_lt_two_pow (Nat.lt_of_lt_of_le v'.toNat_lt hpow)]
  have hhi : x.hi = y.hi := hword fun k hk => by
    have := hbit k (by omega)
    rwa [gcmBit_ghStore _ (by omega), gcmBit_ghStore _ (by omega), if_pos hk, if_pos hk] at this
  have hlo : x.lo = y.lo := hword fun k hk => by
    have := hbit (64 + k) (by omega)
    rwa [gcmBit_ghStore _ (by omega), gcmBit_ghStore _ (by omega), if_neg (by omega),
      if_neg (by omega), show 127 - (64 + k) = 63 - k by omega] at this
  cases x
  cases y
  exact congrArg₂ Gh.mk hhi hlo

theorem ghMul_comm (x y : Gh) : ghMul x y = ghMul y x := by
  refine gh_ext ((cong_ghMul x y).trans ?_)
  rw [mul_comm]
  exact (cong_ghMul y x).symm

theorem ghMul_assoc (x y z : Gh) : ghMul (ghMul x y) z = ghMul x (ghMul y z) := by
  have hleft := (cong_ghMul (ghMul x y) z).trans ((cong_ghMul x y).mul_right (ghPoly z))
  have hright := (cong_ghMul x (ghMul y z)).trans ((cong_ghMul y z).mul_left (ghPoly x))
  rw [mul_assoc] at hleft
  exact gh_ext (hleft.trans hright.symm)

theorem ghMul_ghXor (x y z : Gh) : ghMul (ghXor x y) z = ghXor (ghMul x z) (ghMul y z) := by
  refine gh_ext ((cong_ghMul (ghXor x y) z).trans ?_)
  rw [ghPoly_ghXor, ghPoly_ghXor, add_mul]
  exact ((cong_ghMul x z).add (cong_ghMul y z)).symm

/-! ## The hash -/

/-- The sum of the blocks times descending powers of the key, down to the key itself. -/
noncomputable def evaluate (key : (ZMod 2)[X]) : List (ZMod 2)[X] → (ZMod 2)[X]
  | [] => 0
  | block :: blocks => block * key ^ (blocks.length + 1) + evaluate key blocks

/-- The blocks of some data; the last one may be short. -/
def gcmBlocks (data : List UInt8) : List (List UInt8) :=
  (List.range ((data.length + 15) / 16)).map fun q => (data.drop (16 * q)).take 16

/-- The block of the two lengths in bits, each in 64 bits. -/
def lengthBit (aadlen clen k : Nat) : Bool :=
  if k < 64 then (8 * aadlen).testBit (63 - k) else (8 * clen).testBit (127 - k)

/-- The polynomials that GHASH evaluates. -/
noncomputable def gcmPolys (aad ct : List UInt8) : List (ZMod 2)[X] :=
  (gcmBlocks aad).map blockPoly ++ ((gcmBlocks ct).map blockPoly ++
    [ofBits 128 (lengthBit aad.length ct.length)])

variable {h s : Gh}

theorem cong_ghStep (h s : Gh) (blk : List UInt8) :
    Cong (modulus 128 gcmTaps) (ghPoly (ghStep h s blk)) ((ghPoly s + blockPoly blk) * ghPoly h) := by
  rw [← ghPoly_ghLoad blk, ← ghPoly_ghXor]
  exact cong_ghMul (ghXor s (ghLoad blk)) h

theorem cong_foldl (h s : Gh) (blks : List (List UInt8)) :
    Cong (modulus 128 gcmTaps) (ghPoly (blks.foldl (ghStep h) s))
      (ghPoly s * ghPoly h ^ blks.length + evaluate (ghPoly h) (blks.map blockPoly)) := by
  induction blks generalizing s with
  | nil =>
    rw [List.length_nil, pow_zero, mul_one, List.map_nil, evaluate, add_zero]
    exact .refl _ (ghPoly s)
  | cons blk blks ih =>
    have hsum : (ghPoly s + blockPoly blk) * ghPoly h * ghPoly h ^ blks.length +
        evaluate (ghPoly h) (blks.map blockPoly) =
        ghPoly s * ghPoly h ^ (blk :: blks).length +
          evaluate (ghPoly h) ((blk :: blks).map blockPoly) := by
      rw [List.map_cons, evaluate, List.length_map, List.length_cons, pow_succ]
      ring
    rw [← hsum]
    exact (ih (ghStep h s blk)).trans (((cong_ghStep h s blk).mul_right _).add (.refl _ _))

/-- The blocks that the loops of `owc_ghash` step over. -/
def stepBlocks (data : List UInt8) : List (List UInt8) :=
  (List.range (data.length / 16)).map (fun q => data.drop (16 * q)) ++
    if data.length % 16 ≠ 0 then [padBlock data] else []

theorem ghBlocks_eq (h s : Gh) (data : List UInt8) :
    ghBlocks h s data = (stepBlocks data).foldl (ghStep h) s := by
  unfold ghBlocks stepBlocks
  rw [List.foldl_append, List.foldl_map]
  dsimp only
  split <;> rfl

theorem blockPoly_take (b : List UInt8) : blockPoly (b.take 16) = blockPoly b := by
  refine ofBits_congr fun k hk => ?_
  have hbyte : byteAt (b.take 16) (k / 8) = byteAt b (k / 8) := by
    rw [byteAt, byteAt, List.getD_eq_getElem?_getD, List.getElem?_take_of_lt (by omega),
      ← List.getD_eq_getElem?_getD]
  rw [gcmBit, gcmBit, hbyte]

theorem blockPoly_padBlock (data : List UInt8) :
    blockPoly (padBlock data) = blockPoly (data.drop (16 * (data.length / 16))) := by
  refine ofBits_congr fun k _ => ?_
  have hbyte : ∀ (p : List UInt8) (n j : Nat), byteAt (p ++ List.replicate n 0) j = byteAt p j := by
    intro p n j
    rcases Nat.lt_or_ge j p.length with hj | hj
    · simp [byteAt, List.getElem?_append_left hj]
    · simp only [byteAt, List.getD_eq_getElem?_getD, List.getElem?_append_right hj,
        List.getElem?_eq_none hj, List.getElem?_replicate]
      split <;> rfl
  rw [padBlock_eq, gcmBit, gcmBit, hbyte]

theorem map_stepBlocks (data : List UInt8) :
    (stepBlocks data).map blockPoly = (gcmBlocks data).map blockPoly := by
  have hfull : ∀ n, ((List.range n).map fun q => data.drop (16 * q)).map blockPoly =
      ((List.range n).map fun q => (data.drop (16 * q)).take 16).map blockPoly := by
    intro n
    rw [List.map_map, List.map_map]
    refine List.map_congr_left fun q _ => ?_
    rw [Function.comp_apply, Function.comp_apply, blockPoly_take]
  unfold stepBlocks gcmBlocks
  split
  next hrem =>
    have hcount : (data.length + 15) / 16 = data.length / 16 + 1 := by omega
    rw [hcount, ← hfull, List.range_succ, List.map_append, List.map_append, List.map_append,
      List.map_singleton, List.map_singleton, List.map_singleton, blockPoly_padBlock]
  next hrem =>
    have hcount : (data.length + 15) / 16 = data.length / 16 := by omega
    rw [hcount, ← hfull, List.append_nil]

theorem testBit_bits (n : Nat) (hi : i < 64) :
    (UInt64.ofNat n * 8).toNat.testBit i = (8 * n).testBit i := by
  have hnat : (UInt64.ofNat n * 8).toNat = 8 * n % 2 ^ 64 := by
    rw [UInt64.toNat_mul, UInt64.toNat_ofNat']
    show n % 2 ^ 64 * 8 % 2 ^ 64 = _
    omega
  rw [hnat, Nat.testBit_mod_two_pow, decide_eq_true hi, Bool.true_and]

theorem blockPoly_lengths (aadlen clen : Nat) :
    blockPoly (put64 (UInt64.ofNat aadlen * 8) ++ put64 (UInt64.ofNat clen * 8)) =
      ofBits 128 (lengthBit aadlen clen) := by
  refine ofBits_congr fun k hk => ?_
  have hbit := gcmBit_ghStore ⟨UInt64.ofNat aadlen * 8, UInt64.ofNat clen * 8⟩ hk
  refine hbit.trans ?_
  unfold lengthBit
  split
  · exact testBit_bits aadlen (by omega)
  · exact testBit_bits clen (by omega)

theorem ghPoly_ghash (h aad ct : List UInt8) :
    ghPoly (ghash h aad ct) = evaluate (blockPoly h) (gcmPolys aad ct) %ₘ gcmModulus := by
  obtain ⟨lens, hlens⟩ : ∃ lens, lens =
      put64 (UInt64.ofNat aad.length * 8) ++ put64 (UInt64.ofNat ct.length * 8) := ⟨_, rfl⟩
  have hfold : ghash h aad ct =
      (stepBlocks aad ++ (stepBlocks ct ++ [lens])).foldl (ghStep (ghLoad h)) ⟨0, 0⟩ := by
    rw [List.foldl_append, List.foldl_append, ← ghBlocks_eq, ← ghBlocks_eq, hlens]
    rfl
  have hpolys : (stepBlocks aad ++ (stepBlocks ct ++ [lens])).map blockPoly = gcmPolys aad ct := by
    rw [List.map_append, List.map_append, map_stepBlocks, map_stepBlocks, List.map_singleton, hlens,
      blockPoly_lengths]
    rfl
  have hzero : ghPoly ⟨0, 0⟩ = 0 := blockPoly_zero
  have hcong := cong_foldl (ghLoad h) ⟨0, 0⟩ (stepBlocks aad ++ (stepBlocks ct ++ [lens]))
  rw [hzero, zero_mul, zero_add, hpolys, ghPoly_ghLoad, ← hfold] at hcong
  exact eq_mod_gcmModulus hcong

/-- `owc_gh_mul` is the product of polynomials modulo the polynomial of GCM, so it is
commutative, associative and distributive, and `owc_ghash` is the value of the
polynomial of its blocks. -/
theorem ghash_field :
    Function.Injective ghPoly ∧
    (∀ x y, ghPoly (ghMul x y) = (ghPoly x * ghPoly y) %ₘ gcmModulus) ∧
    (∀ x y, ghMul x y = ghMul y x) ∧
    (∀ x y z, ghMul (ghMul x y) z = ghMul x (ghMul y z)) ∧
    (∀ x y z, ghMul (ghXor x y) z = ghXor (ghMul x z) (ghMul y z)) ∧
    ∀ h aad ct, ghPoly (ghash h aad ct) =
      evaluate (blockPoly h) (gcmPolys aad ct) %ₘ gcmModulus := by
  refine ⟨fun x y heq => gh_ext ?_, fun x y => ?_, ghMul_comm, ghMul_assoc,
    ghMul_ghXor, ghPoly_ghash⟩
  · rw [heq]
    exact .refl _ (ghPoly y)
  · exact eq_mod_gcmModulus (cong_ghMul x y)

end Crypto
