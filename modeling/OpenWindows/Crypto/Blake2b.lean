import Mathlib.Data.List.GetD
import OpenWindows.Crypto.Poly1305Lanes
import OpenWindows.Crypto.Sha512

/-!
# BLAKE2b of `owcrypt`

`owcrypt_blake2b` runs over the whole input in one call.  Each turn of its loop takes up to 128
bytes, counts them, and compresses them.  The last turn is flagged.
-/

namespace Crypto

open Bytes

/-! ## The function -/

/-- `owc_blake2b_iv`. -/
def blake2bIv : List UInt64 :=
  [0x6a09e667f3bcc908, 0xbb67ae8584caa73b, 0x3c6ef372fe94f82b, 0xa54ff53a5f1d36f1,
   0x510e527fade682d1, 0x9b05688c2b3e6c1f, 0x1f83d9abfb41bd6b, 0x5be0cd19137e2179]

/-- `owc_blake2b_sigma`. -/
def blake2bSigma : List (List Nat) :=
  [[0, 1, 2, 3, 4, 5, 6, 7, 8, 9, 10, 11, 12, 13, 14, 15],
   [14, 10, 4, 8, 9, 15, 13, 6, 1, 12, 0, 2, 11, 7, 5, 3],
   [11, 8, 12, 0, 5, 2, 15, 13, 10, 14, 3, 6, 7, 1, 9, 4],
   [7, 9, 3, 1, 13, 12, 11, 14, 2, 6, 5, 10, 4, 0, 15, 8],
   [9, 0, 5, 7, 2, 4, 10, 15, 14, 1, 11, 12, 6, 8, 3, 13],
   [2, 12, 6, 10, 0, 11, 8, 3, 4, 13, 7, 5, 15, 14, 1, 9],
   [12, 5, 1, 15, 14, 13, 4, 10, 0, 7, 6, 3, 9, 2, 8, 11],
   [13, 11, 7, 14, 12, 1, 3, 9, 5, 0, 15, 4, 8, 6, 2, 10],
   [6, 15, 14, 9, 11, 3, 0, 8, 12, 2, 13, 7, 1, 4, 10, 5],
   [10, 2, 8, 4, 7, 6, 1, 5, 15, 11, 9, 14, 3, 12, 13, 0],
   [0, 1, 2, 3, 4, 5, 6, 7, 8, 9, 10, 11, 12, 13, 14, 15],
   [14, 10, 4, 8, 9, 15, 13, 6, 1, 12, 0, 2, 11, 7, 5, 3]]

/-- `owc_b2_g`. -/
def b2G (v : List UInt64) (a b c dd : Nat) (x y : UInt64) : List UInt64 :=
  let v := v.set a (v.getD a 0 + v.getD b 0 + x)
  let v := v.set dd (rotr64 (v.getD dd 0 ^^^ v.getD a 0) 32)
  let v := v.set c (v.getD c 0 + v.getD dd 0)
  let v := v.set b (rotr64 (v.getD b 0 ^^^ v.getD c 0) 24)
  let v := v.set a (v.getD a 0 + v.getD b 0 + y)
  let v := v.set dd (rotr64 (v.getD dd 0 ^^^ v.getD a 0) 16)
  let v := v.set c (v.getD c 0 + v.getD dd 0)
  v.set b (rotr64 (v.getD b 0 ^^^ v.getD c 0) 63)

/-- One turn of the loop over the rounds. -/
def blake2bRound (m v : List UInt64) (r : Nat) : List UInt64 :=
  let s := blake2bSigma.getD r []
  let w (i : Nat) : UInt64 := m.getD (s.getD i 0) 0
  let v := b2G v 0 4 8 12 (w 0) (w 1)
  let v := b2G v 1 5 9 13 (w 2) (w 3)
  let v := b2G v 2 6 10 14 (w 4) (w 5)
  let v := b2G v 3 7 11 15 (w 6) (w 7)
  let v := b2G v 0 5 10 15 (w 8) (w 9)
  let v := b2G v 1 6 11 12 (w 10) (w 11)
  let v := b2G v 2 7 8 13 (w 12) (w 13)
  b2G v 3 4 9 14 (w 14) (w 15)

/-- The message words of a turn: its bytes, in words of zeros. -/
def blake2bWords (p : List UInt8) : List UInt64 :=
  (List.range p.length).foldl
    (fun m i => m.set (i / 8)
      (m.getD (i / 8) 0 ||| (p.getD i 0).toUInt64 <<< UInt64.ofNat (8 * (i % 8))))
    (List.replicate 16 0)

/-- The array `v` of a turn before the rounds. -/
def blake2bVector (h : List UInt64) (t0 fin : UInt64) : List UInt64 :=
  let v := h ++ blake2bIv
  let v := v.set 12 (v.getD 12 0 ^^^ t0)
  let v := v.set 13 (v.getD 13 0 ^^^ 0)
  v.set 14 (v.getD 14 0 ^^^ fin)

/-- The rest of a turn: the chaining words from the message words, the count and the flag. -/
def blake2bCompress (h m : List UInt64) (t0 fin : UInt64) : List UInt64 :=
  let v := (List.range 12).foldl (blake2bRound m) (blake2bVector h t0 fin)
  (List.range 8).map fun i => h.getD i 0 ^^^ (v.getD i 0 ^^^ v.getD (i + 8) 0)

/-- The `while` loop, for at most `n` turns: the chaining words. -/
def blake2bLoop : Nat → List UInt64 → UInt64 → List UInt8 → List UInt64
  | 0, h, _, _ => h
  | n + 1, h, t0, p =>
    if p = [] then h
    else
      let k := if p.length > 128 then 128 else p.length
      let t0 := t0 + UInt64.ofNat k
      let fin : UInt64 := if p.length ≤ 128 then ~~~0 else 0
      blake2bLoop n (blake2bCompress h (blake2bWords (p.take k)) t0 fin) t0 (p.drop k)

/-- The chaining words before the loop. -/
def blake2bStart (outlen : Nat) : List UInt64 :=
  blake2bIv.set 0 (blake2bIv.getD 0 0 ^^^ (0x01010000 ^^^ (UInt64.ofNat outlen &&& 0xFF)))

/-- The bytes that are written from the chaining words. -/
def blake2bOut (h : List UInt64) (outlen : Nat) : List UInt8 :=
  (List.range outlen).map fun i => (h.getD (i / 8) 0 >>> UInt64.ofNat (8 * (i % 8))).toUInt8

/-- `owcrypt_blake2b`.  Every turn takes a byte at least. -/
def blake2b (outlen : Nat) (input : List UInt8) : List UInt8 :=
  blake2bOut (blake2bLoop input.length (blake2bStart outlen) 0 input) outlen

/-! ## BLAKE2b as RFC 7693 has it

The words of the local vector have names, and the constants are said by the rule they follow: the
first 64 bits of the fractions of the square roots of the first primes. -/

namespace Rfc7693

/-- The initial vector. -/
def iv (i : Nat) : UInt64 :=
  UInt64.ofNat (Nat.sqrt ([2, 3, 5, 7, 11, 13, 17, 19].getD i 0 * 2 ^ 128))

/-- The message schedule of a round. -/
def sigma : List (List Nat) :=
  [[0, 1, 2, 3, 4, 5, 6, 7, 8, 9, 10, 11, 12, 13, 14, 15],
   [14, 10, 4, 8, 9, 15, 13, 6, 1, 12, 0, 2, 11, 7, 5, 3],
   [11, 8, 12, 0, 5, 2, 15, 13, 10, 14, 3, 6, 7, 1, 9, 4],
   [7, 9, 3, 1, 13, 12, 11, 14, 2, 6, 5, 10, 4, 0, 15, 8],
   [9, 0, 5, 7, 2, 4, 10, 15, 14, 1, 11, 12, 6, 8, 3, 13],
   [2, 12, 6, 10, 0, 11, 8, 3, 4, 13, 7, 5, 15, 14, 1, 9],
   [12, 5, 1, 15, 14, 13, 4, 10, 0, 7, 6, 3, 9, 2, 8, 11],
   [13, 11, 7, 14, 12, 1, 3, 9, 5, 0, 15, 4, 8, 6, 2, 10],
   [6, 15, 14, 9, 11, 3, 0, 8, 12, 2, 13, 7, 1, 4, 10, 5],
   [10, 2, 8, 4, 7, 6, 1, 5, 15, 11, 9, 14, 3, 12, 13, 0]]

/-- Rotation to the right. -/
def rotr (x n : UInt64) : UInt64 := (x >>> n) ^^^ (x <<< (64 - n))

/-- The mixing function `G` on the four words it changes. -/
def mix (a b c d x y : UInt64) : UInt64 × UInt64 × UInt64 × UInt64 :=
  let a := a + b + x
  let d := rotr (d ^^^ a) 32
  let c := c + d
  let b := rotr (b ^^^ c) 24
  let a := a + b + y
  let d := rotr (d ^^^ a) 16
  let c := c + d
  let b := rotr (b ^^^ c) 63
  (a, b, c, d)

/-- The local vector `v`. -/
structure Local where
  (v0 v1 v2 v3 v4 v5 v6 v7 v8 v9 v10 v11 v12 v13 v14 v15 : UInt64)

/-- Call `j` of `G` in a round: four columns, then four diagonals. -/
def Local.mixed (v : Local) (x y : UInt64) : Nat → Local
  | 0 =>
    let q := mix v.v0 v.v4 v.v8 v.v12 x y
    { v with v0 := q.1, v4 := q.2.1, v8 := q.2.2.1, v12 := q.2.2.2 }
  | 1 =>
    let q := mix v.v1 v.v5 v.v9 v.v13 x y
    { v with v1 := q.1, v5 := q.2.1, v9 := q.2.2.1, v13 := q.2.2.2 }
  | 2 =>
    let q := mix v.v2 v.v6 v.v10 v.v14 x y
    { v with v2 := q.1, v6 := q.2.1, v10 := q.2.2.1, v14 := q.2.2.2 }
  | 3 =>
    let q := mix v.v3 v.v7 v.v11 v.v15 x y
    { v with v3 := q.1, v7 := q.2.1, v11 := q.2.2.1, v15 := q.2.2.2 }
  | 4 =>
    let q := mix v.v0 v.v5 v.v10 v.v15 x y
    { v with v0 := q.1, v5 := q.2.1, v10 := q.2.2.1, v15 := q.2.2.2 }
  | 5 =>
    let q := mix v.v1 v.v6 v.v11 v.v12 x y
    { v with v1 := q.1, v6 := q.2.1, v11 := q.2.2.1, v12 := q.2.2.2 }
  | 6 =>
    let q := mix v.v2 v.v7 v.v8 v.v13 x y
    { v with v2 := q.1, v7 := q.2.1, v8 := q.2.2.1, v13 := q.2.2.2 }
  | _ =>
    let q := mix v.v3 v.v4 v.v9 v.v14 x y
    { v with v3 := q.1, v4 := q.2.1, v9 := q.2.2.1, v14 := q.2.2.2 }

/-- Round `i` of the mixing of a message. -/
def round (m : Nat → UInt64) (v : Local) (i : Nat) : Local :=
  let w (j : Nat) : UInt64 := m ((sigma.getD (i % 10) []).getD j 0)
  (List.range 8).foldl (fun v j => v.mixed (w (2 * j)) (w (2 * j + 1)) j) v

/-- A block that is compressed, with the count of bytes and the flag of the last block. -/
structure Compression where
  block : List UInt8
  count : Nat
  final : Bool
  deriving DecidableEq

/-- The local vector before the first round. -/
def start (h : List UInt64) (t : Nat) (f : Bool) : Local where
  v0 := h.getD 0 0
  v1 := h.getD 1 0
  v2 := h.getD 2 0
  v3 := h.getD 3 0
  v4 := h.getD 4 0
  v5 := h.getD 5 0
  v6 := h.getD 6 0
  v7 := h.getD 7 0
  v8 := iv 0
  v9 := iv 1
  v10 := iv 2
  v11 := iv 3
  v12 := iv 4 ^^^ UInt64.ofNat t
  v13 := iv 5 ^^^ UInt64.ofNat (t / 2 ^ 64)
  v14 := if f then ~~~iv 6 else iv 6
  v15 := iv 7

/-- Word `j` of a block. -/
def word (block : List UInt8) (j : Nat) : UInt64 :=
  UInt64.ofNat (leNum ((block.drop (8 * j)).take 8))

/-- The compression function `F`. -/
def compress (h : List UInt64) (c : Compression) : List UInt64 :=
  let v := (List.range 12).foldl (round (word c.block)) (start h c.count c.final)
  [h.getD 0 0 ^^^ v.v0 ^^^ v.v8, h.getD 1 0 ^^^ v.v1 ^^^ v.v9, h.getD 2 0 ^^^ v.v2 ^^^ v.v10,
    h.getD 3 0 ^^^ v.v3 ^^^ v.v11, h.getD 4 0 ^^^ v.v4 ^^^ v.v12, h.getD 5 0 ^^^ v.v5 ^^^ v.v13,
    h.getD 6 0 ^^^ v.v6 ^^^ v.v14, h.getD 7 0 ^^^ v.v7 ^^^ v.v15]

/-- Block `i` of the data, the last one padded with zeros. -/
def block (data : List UInt8) (i : Nat) : List UInt8 := padTo 128 ((data.drop (128 * i)).take 128)

def compressions (data : List UInt8) : List Compression :=
  let dd := max 1 ((data.length + 127) / 128)
  (List.range (dd - 1)).map (fun i => ⟨block data i, (i + 1) * 128, false⟩) ++
    [⟨block data (dd - 1), data.length, true⟩]

/-- BLAKE2b of data without a key, with `nn` bytes. -/
def blake2b (nn : Nat) (data : List UInt8) : List UInt8 :=
  let h := (List.range 8).map iv
  let h := h.set 0 (h.getD 0 0 ^^^ 0x01010000 ^^^ UInt64.ofNat nn)
  let h := (compressions data).foldl compress h
  (h.flatMap fun w => leBytes 8 w.toNat).take nn

end Rfc7693

/-! ## The compression -/

theorem rotr_eq (x n : UInt64) (h0 : 0 < n.toNat) (h : n.toNat < 64) :
    Rfc7693.rotr x n = rotr64 x n := by
  have h64 : (64 - n).toNat = 64 - n.toNat := by
    rw [UInt64.toNat_sub_of_le]
    · rfl
    · rw [UInt64.le_iff_toNat_le]
      exact h.le
  have hr : (n.toBitVec % 64).toNat = n.toNat := by
    rw [BitVec.toNat_umod]
    exact Nat.mod_eq_of_lt h
  have hl : ((64 - n).toBitVec % 64).toNat = 64 - n.toNat := by
    rw [BitVec.toNat_umod]
    refine (Nat.mod_eq_of_lt ?_).trans h64
    change (64 - n).toNat < 64
    omega
  apply UInt64.toBitVec_inj.mp
  simp only [Rfc7693.rotr, rotr64, UInt64.toBitVec_xor, UInt64.toBitVec_or,
    UInt64.toBitVec_shiftRight, UInt64.toBitVec_shiftLeft]
  -- no bit is set on both sides
  ext i hi
  simp only [BitVec.getElem_xor, BitVec.getElem_or, BitVec.shiftLeft_eq', BitVec.ushiftRight_eq',
    hr, hl, BitVec.getElem_shiftLeft, BitVec.getElem_ushiftRight]
  by_cases hlow : i < 64 - n.toNat
  · simp [hlow]
  · have hhigh : 64 ≤ n.toNat + i := by omega
    simp [hlow, BitVec.getLsbD_of_ge _ _ hhigh]

theorem mix_eq (a b c d x y : UInt64) : Rfc7693.mix a b c d x y =
    let a := a + b + x
    let d := rotr64 (d ^^^ a) 32
    let c := c + d
    let b := rotr64 (b ^^^ c) 24
    let a := a + b + y
    let d := rotr64 (d ^^^ a) 16
    let c := c + d
    let b := rotr64 (b ^^^ c) 63
    (a, b, c, d) := by
  simp only [Rfc7693.mix, rotr_eq _ 32 (by decide) (by decide),
    rotr_eq _ 24 (by decide) (by decide), rotr_eq _ 16 (by decide) (by decide),
    rotr_eq _ 63 (by decide) (by decide)]

theorem iv_eq : (List.range 8).map Rfc7693.iv = blake2bIv := by
  have root {n r : Nat} (hle : r * r ≤ n) (hlt : n < (r + 1) * (r + 1)) : Nat.sqrt n = r :=
    (Nat.eq_sqrt.2 ⟨hle, hlt⟩).symm
  have h2 := root (n := 2 * 2 ^ 128) (r := 26087635650665564424) (by decide) (by decide)
  have h3 := root (n := 3 * 2 ^ 128) (r := 31950697969885030203) (by decide) (by decide)
  have h5 := root (n := 5 * 2 ^ 128) (r := 41248173712355948587) (by decide) (by decide)
  have h7 := root (n := 7 * 2 ^ 128) (r := 48805497317890012913) (by decide) (by decide)
  have h11 := root (n := 11 * 2 ^ 128) (r := 61180928696206656209) (by decide) (by decide)
  have h13 := root (n := 13 * 2 ^ 128) (r := 66510681623121259551) (by decide) (by decide)
  have h17 := root (n := 17 * 2 ^ 128) (r := 76057874264641092971) (by decide) (by decide)
  have h19 := root (n := 19 * 2 ^ 128) (r := 80407493254657745273) (by decide) (by decide)
  simp only [Rfc7693.iv, List.range_succ, List.range_zero, List.nil_append, List.cons_append,
    List.map_cons, List.map_nil, List.getD_cons_zero, List.getD_cons_succ, h2, h3, h5, h7, h11, h13,
    h17, h19]
  rfl

theorem iv_getD {i : Nat} (hi : i < 8) : Rfc7693.iv i = blake2bIv.getD i 0 := by
  rw [← iv_eq, List.getD_eq_getElem _ _ (by simpa using hi)]
  simp

/-- The local vector as the array `v`. -/
def Rfc7693.Local.toList (v : Rfc7693.Local) : List UInt64 :=
  [v.v0, v.v1, v.v2, v.v3, v.v4, v.v5, v.v6, v.v7, v.v8, v.v9, v.v10, v.v11, v.v12, v.v13, v.v14,
    v.v15]

theorem b2G_toList (v : Rfc7693.Local) (x y : UInt64) :
    b2G v.toList 0 4 8 12 x y = (v.mixed x y 0).toList ∧
      b2G v.toList 1 5 9 13 x y = (v.mixed x y 1).toList ∧
      b2G v.toList 2 6 10 14 x y = (v.mixed x y 2).toList ∧
      b2G v.toList 3 7 11 15 x y = (v.mixed x y 3).toList ∧
      b2G v.toList 0 5 10 15 x y = (v.mixed x y 4).toList ∧
      b2G v.toList 1 6 11 12 x y = (v.mixed x y 5).toList ∧
      b2G v.toList 2 7 8 13 x y = (v.mixed x y 6).toList ∧
      b2G v.toList 3 4 9 14 x y = (v.mixed x y 7).toList := by
  simp only [Rfc7693.Local.mixed, mix_eq, b2G, Rfc7693.Local.toList, List.set_cons_succ,
    List.set_cons_zero, List.getD_cons_succ, List.getD_cons_zero, and_self]

theorem blake2bRound_toList (m : List UInt64) (v : Rfc7693.Local) {r : Nat} (hr : r < 12) :
    blake2bRound m v.toList r = (Rfc7693.round (m.getD · 0) v r).toList := by
  have hsigma : ∀ r < 12, blake2bSigma.getD r [] = Rfc7693.sigma.getD (r % 10) [] := by decide
  simp only [blake2bRound, Rfc7693.round, hsigma r hr, (b2G_toList _ _ _).1,
    (b2G_toList _ _ _).2.1, (b2G_toList _ _ _).2.2.1, (b2G_toList _ _ _).2.2.2.1,
    (b2G_toList _ _ _).2.2.2.2.1, (b2G_toList _ _ _).2.2.2.2.2.1,
    (b2G_toList _ _ _).2.2.2.2.2.2.1, (b2G_toList _ _ _).2.2.2.2.2.2.2]
  rfl

theorem blake2bRounds_toList (m : List UInt64) (v : Rfc7693.Local) {rs : List Nat}
    (hrs : ∀ r ∈ rs, r < 12) : rs.foldl (blake2bRound m) v.toList =
      (rs.foldl (Rfc7693.round (m.getD · 0)) v).toList := by
  induction rs generalizing v with
  | nil => rfl
  | cons r rs ih =>
    rw [List.forall_mem_cons] at hrs
    rw [List.foldl_cons, List.foldl_cons, blake2bRound_toList m v hrs.1, ih _ hrs.2]

/-! ## The message words -/

theorem blake2bWords_concat (p : List UInt8) (b : UInt8) :
    blake2bWords (p ++ [b]) = (blake2bWords p).set (p.length / 8)
      ((blake2bWords p).getD (p.length / 8) 0 |||
        b.toUInt64 <<< UInt64.ofNat (8 * (p.length % 8))) := by
  have hsame : ∀ (m : List UInt64), ∀ i ∈ List.range p.length,
      m.set (i / 8) (m.getD (i / 8) 0 |||
        ((p ++ [b]).getD i 0).toUInt64 <<< UInt64.ofNat (8 * (i % 8))) =
      m.set (i / 8) (m.getD (i / 8) 0 ||| (p.getD i 0).toUInt64 <<< UInt64.ofNat (8 * (i % 8))) := by
    intro m i hi
    rw [List.getD_append _ _ _ _ (List.mem_range.1 hi)]
  have hlast : (p ++ [b]).getD p.length 0 = b := by simp
  simp only [blake2bWords, List.length_append, List.length_singleton, List.range_succ,
    List.foldl_append, List.foldl_cons, List.foldl_nil, hlast]
  rw [List.foldl_ext _ _ _ hsame]

@[simp] theorem length_blake2bWords (p : List UInt8) : (blake2bWords p).length = 16 := by
  induction p using List.reverseRecOn with
  | nil => rfl
  | append_singleton p b ih => rw [blake2bWords_concat, List.length_set, ih]

theorem or_shifted_byte {w k : Nat} (b : UInt8) (hw : w < 256 ^ k) (hk : k < 8) :
    UInt64.ofNat w ||| b.toUInt64 <<< UInt64.ofNat (8 * k) =
      UInt64.ofNat (w + 256 ^ k * b.toNat) := by
  have hpow : (256 : Nat) ^ k = 2 ^ (8 * k) := by rw [Nat.pow_mul]
  have hfull : 256 ^ k * 256 ≤ 2 ^ 64 := by
    rw [← Nat.pow_succ]
    exact (Nat.pow_le_pow_right (by decide) hk).trans (by decide)
  have hb : b.toNat + 1 ≤ 256 := b.toNat_lt
  have hbyte : 256 ^ k * (b.toNat + 1) ≤ 2 ^ 64 := (Nat.mul_le_mul_left _ hb).trans hfull
  have hsum : 256 ^ k * (b.toNat + 1) = 256 ^ k * b.toNat + 256 ^ k := Nat.mul_succ ..
  have hshift : (UInt64.ofNat (8 * k)).toNat % 64 = 8 * k := by
    rw [UInt64.toNat_ofNat', Nat.mod_eq_of_lt (by omega), Nat.mod_eq_of_lt (by omega)]
  apply UInt64.toNat_inj.1
  rw [UInt64.toNat_or, UInt64.toNat_shiftLeft, hshift, UInt8.toNat_toUInt64, UInt64.toNat_ofNat',
    UInt64.toNat_ofNat', Nat.shiftLeft_eq, ← hpow, Nat.mul_comm b.toNat, Nat.mod_eq_of_lt (by omega),
    Nat.mod_eq_of_lt (by omega), Nat.mod_eq_of_lt (by omega)]
  rw [hpow] at hw ⊢
  rw [Nat.or_comm, ← Nat.two_pow_add_eq_or_of_lt hw, Nat.add_comm]

theorem blake2bWords_getD (p : List UInt8) (hp : p.length ≤ 128) (j : Nat) :
    (blake2bWords p).getD j 0 = Rfc7693.word p j := by
  induction p using List.reverseRecOn with
  | nil =>
    have hblank : (blake2bWords []).getD j 0 = 0 := by
      rw [blake2bWords, List.length_nil, List.range_zero, List.foldl_nil,
        List.getD_eq_getElem?_getD, List.getElem?_replicate]
      split
      · rfl
      · rfl
    rw [hblank]
    simp [Rfc7693.word]
  | append_singleton p b ih =>
    rw [List.length_append, List.length_singleton] at hp
    have hold := ih (by omega)
    rw [blake2bWords_concat, List.getD_eq_getElem?_getD, List.getElem?_set]
    split
    next hj =>
      subst hj
      have hin : p.length / 8 < (blake2bWords p).length := by
        rw [length_blake2bWords]
        omega
      have hrest : (p.drop (8 * (p.length / 8))).length = p.length % 8 := by
        rw [List.length_drop]
        omega
      have hword : leNum (p.drop (8 * (p.length / 8))) < 256 ^ (p.length % 8) := by
        rw [← hrest]
        exact leNum_lt _
      rw [if_pos hin, Option.getD_some, hold, Rfc7693.word, Rfc7693.word,
        List.take_of_length_le (by omega), or_shifted_byte b hword (Nat.mod_lt _ (by decide)),
        List.drop_append_of_le_length (by omega), List.take_of_length_le (by simp; omega),
        leNum_append, hrest]
      simp [leNum]
    next hj =>
      rw [← List.getD_eq_getElem?_getD, hold, Rfc7693.word, Rfc7693.word]
      rcases Nat.lt_or_gt_of_ne hj with hj | hj
      · rw [List.drop_eq_nil_of_le (by omega), List.drop_eq_nil_of_le (by simp; omega)]
      · rw [List.drop_append_of_le_length (by omega),
          List.take_append_of_le_length (by rw [List.length_drop]; omega)]

theorem word_padTo (n : Nat) (p : List UInt8) (j : Nat) :
    Rfc7693.word (padTo n p) j = Rfc7693.word p j := by
  rw [Rfc7693.word, Rfc7693.word, leNum_take, leNum_take, leNum_drop, leNum_drop, padTo,
    leNum_append, leNum_replicate_zero, Nat.mul_zero, Nat.add_zero]

variable {h : List UInt64} {data : List UInt8}

theorem eight_words (hh : h.length = 8) :
    ∃ h0 h1 h2 h3 h4 h5 h6 h7, h = [h0, h1, h2, h3, h4, h5, h6, h7] := by
  rcases h with _ | ⟨h0, _ | ⟨h1, _ | ⟨h2, _ | ⟨h3, _ | ⟨h4, _ | ⟨h5, _ | ⟨h6, _ | ⟨h7, rest⟩⟩⟩⟩⟩⟩⟩⟩
  case cons.cons.cons.cons.cons.cons.cons.cons =>
    obtain rfl : rest = [] := List.length_eq_zero_iff.1 (by simpa using hh)
    exact ⟨h0, h1, h2, h3, h4, h5, h6, h7, rfl⟩
  all_goals simp at hh

@[simp] theorem length_blake2bCompress (h m : List UInt64) (t0 fin : UInt64) :
    (blake2bCompress h m t0 fin).length = 8 := by
  simp [blake2bCompress]

theorem blake2bVector_eq (hh : h.length = 8) (t0 : UInt64) (f : Bool) :
    blake2bVector h t0 (if f then ~~~0 else 0) = (Rfc7693.start h t0.toNat f).toList := by
  obtain ⟨h0, h1, h2, h3, h4, h5, h6, h7, rfl⟩ := eight_words hh
  have hhigh : UInt64.ofNat (t0.toNat / 2 ^ 64) = 0 := by
    rw [Nat.div_eq_of_lt t0.toNat_lt]
    rfl
  simp only [Rfc7693.start, iv_getD (by decide : 0 < 8), iv_getD (by decide : 1 < 8),
    iv_getD (by decide : 2 < 8), iv_getD (by decide : 3 < 8), iv_getD (by decide : 4 < 8),
    iv_getD (by decide : 5 < 8), iv_getD (by decide : 6 < 8), iv_getD (by decide : 7 < 8),
    UInt64.ofNat_toNat, hhigh]
  cases f with
  | false | true => simp [blake2bVector, blake2bIv, Rfc7693.Local.toList]

theorem blake2bCompress_eq (hh : h.length = 8) {p : List UInt8}
    (hp : p.length ≤ 128) (t0 : UInt64) (f : Bool) :
    blake2bCompress h (blake2bWords p) t0 (if f then ~~~0 else 0) =
      Rfc7693.compress h ⟨padTo 128 p, t0.toNat, f⟩ := by
  have hwords : (fun j => (blake2bWords p).getD j 0) = Rfc7693.word (padTo 128 p) := by
    funext j
    rw [blake2bWords_getD p hp, word_padTo]
  have hrounds := blake2bRounds_toList (blake2bWords p) (Rfc7693.start h t0.toNat f)
    fun r hr => List.mem_range.1 hr
  rw [hwords] at hrounds
  simp only [blake2bCompress, blake2bVector_eq hh, hrounds, Rfc7693.compress, UInt64.xor_assoc]
  rfl

/-! ## The loop -/

def blake2bTurns : Nat → UInt64 → List UInt8 → List Rfc7693.Compression
  | 0, _, _ => []
  | n + 1, t0, p =>
    if p = [] then []
    else
      let k := if p.length > 128 then 128 else p.length
      let t0 := t0 + UInt64.ofNat k
      ⟨padTo 128 (p.take k), t0.toNat, decide (p.length ≤ 128)⟩ :: blake2bTurns n t0 (p.drop k)

theorem blake2bLoop_eq (n : Nat) (hh : h.length = 8) (t0 : UInt64)
    (p : List UInt8) : blake2bLoop n h t0 p = (blake2bTurns n t0 p).foldl Rfc7693.compress h := by
  induction n generalizing h t0 p with
  | zero => rfl
  | succ n ih =>
    rw [blake2bLoop, blake2bTurns]
    split
    · rfl
    · obtain ⟨k, hk⟩ : ∃ k, k = if p.length > 128 then 128 else p.length := ⟨_, rfl⟩
      have htake : (p.take k).length ≤ 128 := by
        rw [List.length_take, hk]
        split <;> omega
      have hturn := blake2bCompress_eq hh htake (t0 + UInt64.ofNat k) (decide (p.length ≤ 128))
      simp only [decide_eq_true_eq] at hturn
      simp only [← hk, List.foldl_cons, ← hturn]
      exact ih (length_blake2bCompress ..) _ _

theorem blake2bTurns_drop (hdata : data.length < 2 ^ 64) {n i : Nat}
    (hi : 128 * i < data.length) (hn : data.length ≤ n + 128 * i) :
    blake2bTurns n (UInt64.ofNat (128 * i)) (data.drop (128 * i)) =
      (List.range' i ((data.length + 127) / 128 - 1 - i)).map
          (fun i => ⟨Rfc7693.block data i, (i + 1) * 128, false⟩) ++
        [⟨Rfc7693.block data ((data.length + 127) / 128 - 1), data.length, true⟩] := by
  induction n generalizing i with
  | zero => omega
  | succ n ih =>
    have hsome : data.drop (128 * i) ≠ [] := by
      rw [ne_eq, List.drop_eq_nil_iff]
      omega
    rw [blake2bTurns, if_neg hsome]
    dsimp only
    have hrest : (data.drop (128 * i)).length = data.length - 128 * i := List.length_drop ..
    have hcount {k : Nat} (hk : 128 * i + k ≤ data.length) :
        UInt64.ofNat (128 * i) + UInt64.ofNat k = UInt64.ofNat (128 * i + k) ∧
          (UInt64.ofNat (128 * i + k)).toNat = 128 * i + k := by
      refine ⟨(UInt64.ofNat_add ..).symm, ?_⟩
      rw [UInt64.toNat_ofNat', Nat.mod_eq_of_lt (by omega)]
    by_cases hlast : data.length - 128 * i ≤ 128
    · have hdd : (data.length + 127) / 128 - 1 = i := by omega
      have hk : ¬ data.length - 128 * i > 128 := by omega
      have hend : 128 * i + (data.length - 128 * i) = data.length := by omega
      obtain ⟨hadd, hval⟩ := hcount (k := data.length - 128 * i) (by omega)
      rw [hrest, if_neg hk, hadd, hval, hdd, Nat.sub_self, List.drop_eq_nil_of_le hrest.le,
        Rfc7693.block, List.take_of_length_le hrest.le, List.take_of_length_le (by omega), hend]
      cases n with
      | zero | succ n => simp [blake2bTurns, hlast]
    · have hk : data.length - 128 * i > 128 := by omega
      obtain ⟨hadd, hval⟩ := hcount (k := 128) (by omega)
      have hsucc : 128 * i + 128 = 128 * (i + 1) := by omega
      obtain ⟨d, hd⟩ : ∃ d, (data.length + 127) / 128 - 1 - i = d + 1 :=
        ⟨(data.length + 127) / 128 - 1 - i - 1, by omega⟩
      have hd' : (data.length + 127) / 128 - 1 - (i + 1) = d := by omega
      have hnext := ih (i := i + 1) (by omega) (by omega)
      rw [hrest, if_pos hk, hadd, hval, List.drop_drop, hsucc, hnext, hd, hd', List.range'_succ,
        List.map_cons, List.cons_append, Nat.mul_comm (i + 1)]
      simp [hlast, Rfc7693.block]

theorem blake2bTurns_eq_iff (hdata : data.length < 2 ^ 64) :
    blake2bTurns data.length 0 data = Rfc7693.compressions data ↔ data ≠ [] := by
  constructor
  · rintro h rfl
    simp [blake2bTurns, Rfc7693.compressions] at h
  · intro hne
    have hpos : 0 < data.length := List.length_pos_iff.2 hne
    have hdrop := blake2bTurns_drop hdata (n := data.length) (i := 0) (by omega) (by omega)
    have hmax : max 1 ((data.length + 127) / 128) = (data.length + 127) / 128 := by omega
    simp only [Nat.mul_zero, List.drop_zero, Nat.sub_zero] at hdrop
    rw [Rfc7693.compressions, hmax, List.range_eq_range']
    exact hdrop

/-! ## The digest -/

variable {outlen : Nat}

theorem blake2bStart_eq (h : outlen ≤ 64) : blake2bStart outlen =
    ((List.range 8).map Rfc7693.iv).set 0
      (((List.range 8).map Rfc7693.iv).getD 0 0 ^^^ 0x01010000 ^^^ UInt64.ofNat outlen) := by
  have hlow : ∀ n ≤ 64, UInt64.ofNat n &&& 0xFF = UInt64.ofNat n := by decide
  rw [iv_eq, blake2bStart, hlow outlen h, UInt64.xor_assoc]

theorem map_range_rows {β : Type*} (f : Nat → Nat → β) (n : Nat) :
    (List.range (8 * n)).map (fun i => f (i / 8) (i % 8)) =
      (List.range n).flatMap fun q => (List.range 8).map (f q) := by
  induction n with
  | zero => rfl
  | succ n ih =>
    have hrow : (List.range 8).map ((fun i => f (i / 8) (i % 8)) ∘ fun r => 8 * n + r) =
        (List.range 8).map (f n) := by
      refine List.map_congr_left fun r hr => ?_
      have hr : r < 8 := List.mem_range.1 hr
      rw [Function.comp_apply]
      congr 1 <;> omega
    rw [Nat.mul_succ, List.range_add, List.map_append, ih, List.map_map, hrow,
      List.range_succ (n := n), List.flatMap_append, List.flatMap_singleton]

theorem blake2bOut_eq (hh : h.length = 8) (hout : outlen ≤ 64) :
    blake2bOut h outlen = (h.flatMap fun w => leBytes 8 w.toNat).take outlen := by
  have hbytes (w : UInt64) :
      (List.range 8).map (fun r => (w >>> UInt64.ofNat (8 * r)).toUInt8) = leBytes 8 w.toNat := by
    rw [← put64le_eq]
    simp [put64le, List.range_succ]
  have hall := map_range_rows (fun q r => (h.getD q 0 >>> UInt64.ofNat (8 * r)).toUInt8) 8
  simp only [hbytes] at hall
  have hrange : List.range outlen = (List.range (8 * 8)).take outlen := by
    rw [List.take_range, Nat.min_eq_left hout]
  rw [blake2bOut, hrange, List.map_take, hall]
  obtain ⟨h0, h1, h2, h3, h4, h5, h6, h7, rfl⟩ := eight_words hh
  rfl

theorem blake2b_eq (hout : outlen ≤ 64) (hdata : data.length < 2 ^ 64) (hne : data ≠ []) :
    blake2b outlen data = Rfc7693.blake2b outlen data := by
  have hstart : (blake2bStart outlen).length = 8 := rfl
  have hlen {cs : List Rfc7693.Compression} {h : List UInt64} (hh : h.length = 8) :
      (cs.foldl Rfc7693.compress h).length = 8 := by
    induction cs generalizing h with
    | nil => exact hh
    | cons c cs ih => exact ih rfl
  rw [blake2b, blake2bLoop_eq _ hstart, (blake2bTurns_eq_iff hdata).2 hne,
    blake2bOut_eq (hlen hstart) hout, blake2bStart_eq hout]
  rfl

/-! ## The empty input

The loop takes no turn, and the digest is made of the chaining words it would start with.  The
standard compresses a block of zeros, which changes the first byte for every length of the digest.
This is computed, on numbers, without the message words, which are zero. -/

namespace Rfc7693

theorem rotr64_toNat (x n : UInt64) (h0 : 0 < n.toNat) (h : n.toNat < 64) : (rotr64 x n).toNat =
    x.toNat / 2 ^ n.toNat + x.toNat * 2 ^ (64 - n.toNat) % 2 ^ 64 := by
  have h64 : (64 - n).toNat = 64 - n.toNat := by
    rw [UInt64.toNat_sub_of_le]
    · rfl
    · rw [UInt64.le_iff_toNat_le]
      exact h.le
  have hlow : x.toNat / 2 ^ n.toNat < 2 ^ (64 - n.toNat) := by
    refine Nat.div_lt_of_lt_mul ?_
    rw [← Nat.pow_add, Nat.add_sub_cancel' h.le]
    exact x.toNat_lt
  have hhigh : x.toNat * 2 ^ (64 - n.toNat) % 2 ^ 64 =
      2 ^ (64 - n.toNat) * (x.toNat % 2 ^ n.toNat) := by
    have hpow : 2 ^ 64 = 2 ^ (64 - n.toNat) * 2 ^ n.toNat := by
      rw [← Nat.pow_add, Nat.sub_add_cancel h.le]
    rw [hpow, Nat.mul_comm, Nat.mul_mod_mul_left]
  have hshift : (64 - n.toNat) % 64 = 64 - n.toNat := Nat.mod_eq_of_lt (by omega)
  rw [rotr64, UInt64.toNat_or, UInt64.toNat_shiftRight, UInt64.toNat_shiftLeft, h64,
    Nat.mod_eq_of_lt h, hshift, Nat.shiftRight_eq_div_pow, Nat.shiftLeft_eq, hhigh, Nat.or_comm,
    ← Nat.two_pow_add_eq_or_of_lt hlow, Nat.add_comm]

/-- `G` without message words, on numbers. -/
def mixNat {α : Type} (a b c d : Nat) (k : Nat → Nat → Nat → Nat → α) : α :=
  let rotr (x n : Nat) : Nat := x / 2 ^ n + x * 2 ^ (64 - n) % 2 ^ 64
  let a := (a + b) % 2 ^ 64
  let d := rotr (d ^^^ a) 32
  let c := (c + d) % 2 ^ 64
  let b := rotr (b ^^^ c) 24
  let a := (a + b) % 2 ^ 64
  let d := rotr (d ^^^ a) 16
  let c := (c + d) % 2 ^ 64
  let b := rotr (b ^^^ c) 63
  k a b c d

theorem mixNat_toNat {α : Type} (a b c d : UInt64) (k : Nat → Nat → Nat → Nat → α) :
    mixNat a.toNat b.toNat c.toNat d.toNat k = k (mix a b c d 0 0).1.toNat
      (mix a b c d 0 0).2.1.toNat (mix a b c d 0 0).2.2.1.toNat (mix a b c d 0 0).2.2.2.toNat := by
  have h32 (x : UInt64) : (rotr64 x 32).toNat = x.toNat / 2 ^ 32 + x.toNat * 2 ^ 32 % 2 ^ 64 :=
    rotr64_toNat x 32 (by decide) (by decide)
  have h24 (x : UInt64) : (rotr64 x 24).toNat = x.toNat / 2 ^ 24 + x.toNat * 2 ^ 40 % 2 ^ 64 :=
    rotr64_toNat x 24 (by decide) (by decide)
  have h16 (x : UInt64) : (rotr64 x 16).toNat = x.toNat / 2 ^ 16 + x.toNat * 2 ^ 48 % 2 ^ 64 :=
    rotr64_toNat x 16 (by decide) (by decide)
  have h63 (x : UInt64) : (rotr64 x 63).toNat = x.toNat / 2 ^ 63 + x.toNat * 2 ^ 1 % 2 ^ 64 :=
    rotr64_toNat x 63 (by decide) (by decide)
  simp only [mixNat, mix_eq, UInt64.add_zero, UInt64.toNat_add, UInt64.toNat_xor, h32, h24, h16, h63,
    Nat.reduceSub]

/-- The numbers of a local vector. -/
structure Numbers where
  (v0 v1 v2 v3 v4 v5 v6 v7 v8 v9 v10 v11 v12 v13 v14 v15 : Nat)

def Local.numbers (v : Local) : Numbers :=
  ⟨v.v0.toNat, v.v1.toNat, v.v2.toNat, v.v3.toNat, v.v4.toNat, v.v5.toNat, v.v6.toNat, v.v7.toNat,
    v.v8.toNat, v.v9.toNat, v.v10.toNat, v.v11.toNat, v.v12.toNat, v.v13.toNat, v.v14.toNat,
    v.v15.toNat⟩

/-- A round without message words. -/
def Numbers.round (v : Numbers) : Numbers :=
  mixNat v.v0 v.v4 v.v8 v.v12 fun v0 v4 v8 v12 =>
  mixNat v.v1 v.v5 v.v9 v.v13 fun v1 v5 v9 v13 =>
  mixNat v.v2 v.v6 v.v10 v.v14 fun v2 v6 v10 v14 =>
  mixNat v.v3 v.v7 v.v11 v.v15 fun v3 v7 v11 v15 =>
  mixNat v0 v5 v10 v15 fun v0 v5 v10 v15 =>
  mixNat v1 v6 v11 v12 fun v1 v6 v11 v12 =>
  mixNat v2 v7 v8 v13 fun v2 v7 v8 v13 =>
  mixNat v3 v4 v9 v14 fun v3 v4 v9 v14 =>
  ⟨v0, v1, v2, v3, v4, v5, v6, v7, v8, v9, v10, v11, v12, v13, v14, v15⟩

theorem numbers_round (v : Local) (i : Nat) :
    (Rfc7693.round (fun _ => 0) v i).numbers = v.numbers.round := by
  simp only [Numbers.round, Local.numbers, mixNat_toNat, Rfc7693.round, Local.mixed, List.range_succ,
    List.range_zero, List.nil_append, List.cons_append, List.foldl_cons, List.foldl_nil]

theorem numbers_rounds (v : Local) (n : Nat) :
    ((List.range n).foldl (Rfc7693.round fun _ => 0) v).numbers = Numbers.round^[n] v.numbers := by
  induction n with
  | zero => rfl
  | succ n ih =>
    rw [List.range_succ, List.foldl_concat, numbers_round, ih, Function.iterate_succ_apply']

end Rfc7693

def emptyVector (outlen : Nat) : Rfc7693.Local :=
  let h := blake2bStart outlen
  let iv (i : Nat) : UInt64 := blake2bIv.getD i 0
  ⟨h.getD 0 0, h.getD 1 0, h.getD 2 0, h.getD 3 0, h.getD 4 0, h.getD 5 0, h.getD 6 0, h.getD 7 0,
    iv 0, iv 1, iv 2, iv 3, iv 4, iv 5, ~~~iv 6, iv 7⟩

theorem emptyVector_eq (outlen : Nat) :
    Rfc7693.start (blake2bStart outlen) 0 true = emptyVector outlen := by
  simp only [Rfc7693.start, iv_getD (by decide : 0 < 8), iv_getD (by decide : 1 < 8),
    iv_getD (by decide : 2 < 8), iv_getD (by decide : 3 < 8), iv_getD (by decide : 4 < 8),
    iv_getD (by decide : 5 < 8), iv_getD (by decide : 6 < 8), iv_getD (by decide : 7 < 8)]
  simp [emptyVector]

theorem emptyRounds_ne : ∀ n < 64,
    ((Rfc7693.Numbers.round^[12] (emptyVector (n + 1)).numbers).v0 ^^^
      (Rfc7693.Numbers.round^[12] (emptyVector (n + 1)).numbers).v8) % 256 ≠ 0 := by
  decide +kernel

theorem blake2b_empty_ne (h0 : 1 ≤ outlen) (h : outlen ≤ 64) :
    blake2b outlen [] ≠ Rfc7693.blake2b outlen [] := by
  intro heq
  obtain ⟨n, rfl⟩ : ∃ n, outlen = n + 1 := ⟨outlen - 1, by omega⟩
  have hzero : Rfc7693.word (Rfc7693.block [] 0) = fun _ => 0 := by
    funext j
    rw [Rfc7693.block, word_padTo]
    simp [Rfc7693.word]
  -- the first byte of both digests
  have hfirst (hs : List UInt64) :
      (blake2bOut hs (n + 1)).head? = some (hs.getD 0 0).toUInt8 := by
    simp [blake2bOut, List.range_succ_eq_map]
  have hcode := hfirst (blake2bStart (n + 1))
  have hspec := hfirst (Rfc7693.compress (blake2bStart (n + 1)) ⟨Rfc7693.block [] 0, 0, true⟩)
  have hdigest : blake2b (n + 1) [] = blake2bOut (blake2bStart (n + 1)) (n + 1) := rfl
  have hstandard : Rfc7693.blake2b (n + 1) [] = blake2bOut (Rfc7693.compress (blake2bStart (n + 1))
      ⟨Rfc7693.block [] 0, 0, true⟩) (n + 1) := by
    rw [blake2bOut_eq rfl h, blake2bStart_eq h]
    rfl
  rw [← hdigest, heq, hstandard, hspec, Option.some.injEq] at hcode
  have hrounds := Rfc7693.numbers_rounds (emptyVector (n + 1)) 12
  have hne := emptyRounds_ne n (by omega)
  rw [← hrounds] at hne
  simp only [Rfc7693.compress, hzero, emptyVector_eq, List.getD_cons_zero] at hcode
  generalize (List.range 12).foldl (Rfc7693.round fun _ => 0) (emptyVector (n + 1)) = v at hcode hne
  have hxor : (v.v0 ^^^ v.v8).toUInt8 = 0 := by
    rw [UInt64.xor_assoc, UInt64.toUInt8_xor] at hcode
    generalize ((blake2bStart (n + 1)).getD 0 0).toUInt8 = b at hcode
    have hback := congrArg (b ^^^ ·) hcode
    simpa only [← UInt8.xor_assoc, UInt8.xor_self, UInt8.zero_xor] using hback
  have hnat := congrArg UInt8.toNat hxor
  rw [UInt64.toNat_toUInt8, UInt64.toNat_xor] at hnat
  exact hne hnat

/-- `owcrypt_blake2b` compresses the blocks of the standard and gives its digest, exactly for inputs
that are not empty. -/
theorem blake2b_standard_iff {outlen : Nat} (h0 : 1 ≤ outlen) (h : outlen ≤ 64) {data : List UInt8}
    (hdata : data.length < 2 ^ 64) :
    (blake2bTurns data.length 0 data = Rfc7693.compressions data ↔ data ≠ []) ∧
      (blake2b outlen data = Rfc7693.blake2b outlen data ↔ data ≠ []) := by
  refine ⟨blake2bTurns_eq_iff hdata, ?_, blake2b_eq h hdata⟩
  rintro heq rfl
  exact blake2b_empty_ne h0 h heq

theorem blake2b_standard_iff_abc :
    (blake2bTurns 3 0 [0x61, 0x62, 0x63] = Rfc7693.compressions [0x61, 0x62, 0x63] ↔
        [(0x61 : UInt8), 0x62, 0x63] ≠ []) ∧
      (blake2b 64 [0x61, 0x62, 0x63] = Rfc7693.blake2b 64 [0x61, 0x62, 0x63] ↔
        [(0x61 : UInt8), 0x62, 0x63] ≠ []) :=
  @blake2b_standard_iff 64 (by decide) (by decide) [0x61, 0x62, 0x63] (by decide)

/-- No block of the empty input is compressed. -/
theorem blake2b_empty_turns : ¬ ∀ (outlen : Nat) (data : List UInt8), 1 ≤ outlen → outlen ≤ 64 →
    data.length < 2 ^ 64 →
    blake2bTurns data.length 0 data = Rfc7693.compressions data ∧
      blake2b outlen data = Rfc7693.blake2b outlen data := by
  intro h
  exact blake2b_empty_ne (by decide) (by decide) (h 64 [] (by decide) (by decide) (by decide)).2

end Crypto
