import OpenWindows.Crypto.ChaCha20

/-!
# The field of Curve25519 in `owcrypt`

Numbers modulo `2 ^ 255 - 19` in five limbs of 51 bits.  Every operation ends with
`owc_fe_canon`, which carries, folds what is above 255 bits back, and subtracts the
modulus once if it can.
-/

namespace Crypto

/-- `owc_fe_t`. -/
structure Fe where
  v0 : UInt64
  v1 : UInt64
  v2 : UInt64
  v3 : UInt64
  v4 : UInt64
  deriving DecidableEq, Repr

/-- `OWCRYPT_M51`. -/
def m51 : UInt64 := 0x7FFFFFFFFFFFF

/-- `owc_fe_zero`. -/
def feZero : Fe := ⟨0, 0, 0, 0, 0⟩

/-- `owc_fe_set_small`. -/
def feSetSmall (x : UInt64) : Fe := { feZero with v0 := x }

/-- The limbs of the modulus. -/
def feP : Fe := ⟨m51 - 18, m51, m51, m51, m51⟩

/-- One turn of the carry loop of `owc_fe_canon`, with the carry out of the last
limb. -/
def feCarry (o : Fe) : Fe × UInt64 :=
  let v1 := o.v1 + (o.v0 >>> 51)
  let v2 := o.v2 + (v1 >>> 51)
  let v3 := o.v3 + (v2 >>> 51)
  let v4 := o.v4 + (v3 >>> 51)
  (⟨o.v0 &&& m51, v1 &&& m51, v2 &&& m51, v3 &&& m51, v4 &&& m51⟩, v4 >>> 51)

/-- The carry loop of `owc_fe_canon`. -/
def feCarries : Nat → Fe → Fe
  | 0, o => o
  | n + 1, o =>
    let (o, c) := feCarry o
    if c = 0 then o else feCarries n { o with v0 := o.v0 + 19 * c }

/-- One limb of a subtraction, with the borrow into it and out of it. -/
def feBorrow (x y : UInt64) (borrow : Int64) : UInt64 × Int64 :=
  let t := x.toInt64 - y.toInt64 - borrow
  if t < 0 then ((t + ((1 : Int64) <<< 51)).toUInt64, 1) else (t.toUInt64, 0)

def feSubLimbs (a b : Fe) : Fe × Int64 :=
  let (r0, br) := feBorrow a.v0 b.v0 0
  let (r1, br) := feBorrow a.v1 b.v1 br
  let (r2, br) := feBorrow a.v2 b.v2 br
  let (r3, br) := feBorrow a.v3 b.v3 br
  let (r4, br) := feBorrow a.v4 b.v4 br
  (⟨r0, r1, r2, r3, r4⟩, br)

/-- `owc_fe_canon`. -/
def feCanon (o : Fe) : Fe :=
  let o := feCarries 32 o
  let (r, b) := feSubLimbs o feP
  if b = 0 then r else o

/-- `owc_fe_frombytes`. -/
def feFrombytes (p : List UInt8) : Fe :=
  let m0 := get64le p
  let m1 := get64le (p.drop 8)
  let m2 := get64le (p.drop 16)
  let m3 := get64le (p.drop 24)
  { v0 := m0 &&& m51
    v1 := ((m0 >>> 51) ||| (m1 <<< 13)) &&& m51
    v2 := ((m1 >>> 38) ||| (m2 <<< 26)) &&& m51
    v3 := ((m2 >>> 25) ||| (m3 <<< 39)) &&& m51
    v4 := (m3 >>> 12) &&& m51 }

/-- `owc_fe_tobytes`. -/
def feTobytes (a : Fe) : List UInt8 :=
  put64le (a.v0 ||| (a.v1 <<< 51)) ++ put64le ((a.v1 >>> 13) ||| (a.v2 <<< 38)) ++
    put64le ((a.v2 >>> 26) ||| (a.v3 <<< 25)) ++ put64le ((a.v3 >>> 39) ||| (a.v4 <<< 12))

/-- `owc_fe_add`. -/
def feAdd (a b : Fe) : Fe :=
  feCanon ⟨a.v0 + b.v0, a.v1 + b.v1, a.v2 + b.v2, a.v3 + b.v3, a.v4 + b.v4⟩

/-- The modulus added back, in the last branch of `owc_fe_sub`. -/
def feAddP (o : Fe) : Fe :=
  let w0 := o.v0 + (m51 - 18)
  let w1 := o.v1 + m51 + (w0 >>> 51)
  let w2 := o.v2 + m51 + (w1 >>> 51)
  let w3 := o.v3 + m51 + (w2 >>> 51)
  let w4 := o.v4 + m51 + (w3 >>> 51)
  ⟨(w0 &&& m51) + (19 : UInt64) * (w4 >>> 51), w1 &&& m51, w2 &&& m51, w3 &&& m51, w4 &&& m51⟩

/-- `owc_fe_sub`. -/
def feSub (a b : Fe) : Fe :=
  let (r, br) := feSubLimbs a b
  if br ≠ 0 then
    let (o, nb) := feSubLimbs r (feSetSmall 19)
    feCanon (if nb ≠ 0 then feAddP o else o)
  else feCanon r

/-- `owc_fe_neg`. -/
def feNeg (a : Fe) : Fe := if a = feZero then feZero else (feSubLimbs feP a).1

/-- One limb of the carry chain of `owc_fe_mul`: the limb and the carry. -/
def feMulLimb (t : Nat) : UInt64 × UInt64 := (UInt64.ofNat t &&& m51, UInt64.ofNat (t >>> 51))

/-- `owc_fe_mul`.  The sums fit into 128 bits. -/
def feMul (a b : Fe) : Fe :=
  let a0 := a.v0.toNat
  let a1 := a.v1.toNat
  let a2 := a.v2.toNat
  let a3 := a.v3.toNat
  let a4 := a.v4.toNat
  let b0 := b.v0.toNat
  let b1 := b.v1.toNat
  let b2 := b.v2.toNat
  let b3 := b.v3.toNat
  let b4 := b.v4.toNat
  let t0 := a0 * b0 + 19 * (a1 * b4 + a2 * b3 + a3 * b2 + a4 * b1)
  let t1 := a0 * b1 + a1 * b0 + 19 * (a2 * b4 + a3 * b3 + a4 * b2)
  let t2 := a0 * b2 + a1 * b1 + a2 * b0 + 19 * (a3 * b4 + a4 * b3)
  let t3 := a0 * b3 + a1 * b2 + a2 * b1 + a3 * b0 + 19 * (a4 * b4)
  let t4 := a0 * b4 + a1 * b3 + a2 * b2 + a3 * b1 + a4 * b0
  let (v0, c) := feMulLimb t0
  let (v1, c) := feMulLimb (t1 + c.toNat)
  let (v2, c) := feMulLimb (t2 + c.toNat)
  let (v3, c) := feMulLimb (t3 + c.toNat)
  let (v4, c) := feMulLimb (t4 + c.toNat)
  feCanon ⟨v0 + 19 * c, v1, v2, v3, v4⟩

/-- `owc_fe_sq`. -/
def feSq (a : Fe) : Fe := feMul a a

/-- The loop of `owc_fe_pow`, for the bits below `n`. -/
def fePowLoop (a : Fe) (e : List UInt8) : Nat → Fe → Fe
  | 0, r => r
  | b + 1, r =>
    let r := feSq r
    fePowLoop a e b
      (if (byteAt e (b / 8) >>> UInt8.ofNat (b % 8)) &&& 1 ≠ 0 then feMul r a else r)

/-- `owc_fe_pow`. -/
def fePow (a : Fe) (e : List UInt8) : Fe := fePowLoop a e (e.length * 8) (feSetSmall 1)

/-- The exponents of `owc_fe_inv`, `owc_fe_sqrt_m1` and `owc_ge_decompress`: a lowest
byte, thirty bytes of ones, and a highest byte. -/
def feExponent (low high : UInt8) : List UInt8 := low :: (List.replicate 30 0xFF ++ [high])

/-- `owc_fe_inv`. -/
def feInv (a : Fe) : Fe := fePow a (feExponent 0xEB 0x7F)

/-- `owc_d_bytes`. -/
def dBytes : List UInt8 :=
  [0xA3, 0x78, 0x59, 0x13, 0xCA, 0x4D, 0xEB, 0x75, 0xAB, 0xD8, 0x41, 0x41, 0x4D, 0x0A, 0x70, 0x00,
   0x98, 0xE8, 0x79, 0x77, 0x79, 0x40, 0xC7, 0x8C, 0x73, 0xFE, 0x6F, 0x2B, 0xEE, 0x6C, 0x03, 0x52]

/-- `owc_fe_d`. -/
def feD : Fe := feFrombytes dBytes

/-- `owc_fe_d2`. -/
def feD2 : Fe := feAdd feD feD

/-- `owc_fe_sqrt_m1`, with the exponent `owc_pm1d4`. -/
def feSqrtM1 : Fe := fePow (feSetSmall 2) (feExponent 0xFB 0x1F)

end Crypto
