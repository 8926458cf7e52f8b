import OpenWindows.Crypto.ChaCha20

/-!
# SHA-512 of `owcrypt`

The context keeps the eight chaining words, the count of bytes, and the bytes that do
not fill a block yet.  Data come in pieces of any length.
-/

namespace Crypto

open Words

/-- `owc_sha512_k`. -/
def sha512K : List UInt64 :=
  [0x428a2f98d728ae22, 0x7137449123ef65cd, 0xb5c0fbcfec4d3b2f, 0xe9b5dba58189dbbc,
   0x3956c25bf348b538, 0x59f111f1b605d019, 0x923f82a4af194f9b, 0xab1c5ed5da6d8118,
   0xd807aa98a3030242, 0x12835b0145706fbe, 0x243185be4ee4b28c, 0x550c7dc3d5ffb4e2,
   0x72be5d74f27b896f, 0x80deb1fe3b1696b1, 0x9bdc06a725c71235, 0xc19bf174cf692694,
   0xe49b69c19ef14ad2, 0xefbe4786384f25e3, 0x0fc19dc68b8cd5b5, 0x240ca1cc77ac9c65,
   0x2de92c6f592b0275, 0x4a7484aa6ea6e483, 0x5cb0a9dcbd41fbd4, 0x76f988da831153b5,
   0x983e5152ee66dfab, 0xa831c66d2db43210, 0xb00327c898fb213f, 0xbf597fc7beef0ee4,
   0xc6e00bf33da88fc2, 0xd5a79147930aa725, 0x06ca6351e003826f, 0x142929670a0e6e70,
   0x27b70a8546d22ffc, 0x2e1b21385c26c926, 0x4d2c6dfc5ac42aed, 0x53380d139d95b3df,
   0x650a73548baf63de, 0x766a0abb3c77b2a8, 0x81c2c92e47edaee6, 0x92722c851482353b,
   0xa2bfe8a14cf10364, 0xa81a664bbc423001, 0xc24b8b70d0f89791, 0xc76c51a30654be30,
   0xd192e819d6ef5218, 0xd69906245565a910, 0xf40e35855771202a, 0x106aa07032bbd1b8,
   0x19a4c116b8d2d0c8, 0x1e376c085141ab53, 0x2748774cdf8eeb99, 0x34b0bcb5e19b48a8,
   0x391c0cb3c5c95a63, 0x4ed8aa4ae3418acb, 0x5b9cca4f7763e373, 0x682e6ff3d6b2b8a3,
   0x748f82ee5defb2fc, 0x78a5636f43172f60, 0x84c87814a1f0ab72, 0x8cc702081a6439ec,
   0x90befffa23631e28, 0xa4506cebde82bde9, 0xbef9a3f7b2c67915, 0xc67178f2e372532b,
   0xca273eceea26619c, 0xd186b8c721c0c207, 0xeada7dd6cde0eb1e, 0xf57d4f7fee6ed178,
   0x06f067aa72176fba, 0x0a637dc5a2c898a6, 0x113f9804bef90dae, 0x1b710b35131c471b,
   0x28db77f523047d84, 0x32caab7b40c72493, 0x3c9ebe0a15c9bebc, 0x431d67c49c100d4c,
   0x4cc5d4becb3e42b6, 0x597f299cfc657e2a, 0x5fcb6fab3ad6faec, 0x6c44198c4a475817]

/-- `owc_rotr64`. -/
def rotr64 (x n : UInt64) : UInt64 := (x >>> n) ||| (x <<< (64 - n))

/-- `owcrypt_sha_ctx_t`, with the bytes of `buf` below `buflen`. -/
structure ShaCtx where
  h : List UInt64
  total : UInt64
  buf : List UInt8

/-- The message schedule: the words from 16 on. -/
def sha512Extend (w : List UInt64) (i : Nat) : List UInt64 :=
  let x := w.getD (i - 15) 0
  let y := w.getD (i - 2) 0
  let s0 := rotr64 x 1 ^^^ rotr64 x 8 ^^^ (x >>> 7)
  let s1 := rotr64 y 19 ^^^ rotr64 y 61 ^^^ (y >>> 6)
  w ++ [w.getD (i - 16) 0 + s0 + w.getD (i - 7) 0 + s1]

/-- The message schedule of a block. -/
def sha512Schedule (blk : List UInt8) : List UInt64 :=
  (List.range' 16 64).foldl sha512Extend ((List.range 16).map fun i => get64 (blk.drop (8 * i)))

/-- The eight working variables of `owc_sha512_compress`. -/
structure ShaVars where
  a : UInt64
  b : UInt64
  c : UInt64
  d : UInt64
  e : UInt64
  f : UInt64
  g : UInt64
  h : UInt64

/-- One round of `owc_sha512_compress`. -/
def sha512Round (w : List UInt64) (v : ShaVars) (i : Nat) : ShaVars :=
  let s1 := rotr64 v.e 14 ^^^ rotr64 v.e 18 ^^^ rotr64 v.e 41
  let ch := (v.e &&& v.f) ^^^ (~~~v.e &&& v.g)
  let t1 := v.h + s1 + ch + sha512K.getD i 0 + w.getD i 0
  let s0 := rotr64 v.a 28 ^^^ rotr64 v.a 34 ^^^ rotr64 v.a 39
  let maj := (v.a &&& v.b) ^^^ (v.a &&& v.c) ^^^ (v.b &&& v.c)
  let t2 := s0 + maj
  { a := t1 + t2, b := v.a, c := v.b, d := v.c, e := v.d + t1, f := v.e, g := v.f, h := v.g }

/-- `owc_sha512_compress`. -/
def sha512Compress (h : List UInt64) (blk : List UInt8) : List UInt64 :=
  let w := sha512Schedule blk
  let v : ShaVars :=
    ⟨h.getD 0 0, h.getD 1 0, h.getD 2 0, h.getD 3 0, h.getD 4 0, h.getD 5 0, h.getD 6 0, h.getD 7 0⟩
  let v' := (List.range 80).foldl (sha512Round w) v
  [v.a + v'.a, v.b + v'.b, v.c + v'.c, v.d + v'.d, v.e + v'.e, v.f + v'.f, v.g + v'.g, v.h + v'.h]

/-- `owcrypt_sha512_init`. -/
def sha512Init : ShaCtx where
  h := [0x6a09e667f3bcc908, 0xbb67ae8584caa73b, 0x3c6ef372fe94f82b, 0xa54ff53a5f1d36f1,
    0x510e527fade682d1, 0x9b05688c2b3e6c1f, 0x1f83d9abfb41bd6b, 0x5be0cd19137e2179]
  total := 0
  buf := []

/-- The `while` loop of `owcrypt_sha512_update`, for at most `n` blocks: the chaining
words and the bytes that are left. -/
def sha512Blocks : Nat → List UInt64 → List UInt8 → List UInt64 × List UInt8
  | 0, h, p => (h, p)
  | n + 1, h, p =>
    if 128 ≤ p.length then sha512Blocks n (sha512Compress h p) (p.drop 128) else (h, p)

/-- The first part of `owcrypt_sha512_update`: a block that was begun is filled up. -/
def sha512Fill (c : ShaCtx) (p : List UInt8) : ShaCtx × List UInt8 :=
  if c.buf = [] then (c, p)
  else
    let take := min p.length (128 - c.buf.length)
    let buf := c.buf ++ p.take take
    if buf.length = 128 then
      ({ c with h := sha512Compress c.h buf, buf := [] }, p.drop take)
    else ({ c with buf }, p.drop take)

/-- `owcrypt_sha512_update`. -/
def sha512Update (c : ShaCtx) (data : List UInt8) : ShaCtx :=
  let (c, p) := sha512Fill { c with total := c.total + UInt64.ofNat data.length } data
  let (h, p) := sha512Blocks p.length c.h p
  { c with h, buf := c.buf ++ p }

/-- Zeros up to a length. -/
def padTo (n : Nat) (buf : List UInt8) : List UInt8 := buf ++ List.replicate (n - buf.length) 0

/-- `owcrypt_sha512_final`. -/
def sha512Final (c : ShaCtx) : List UInt8 :=
  let bits := c.total * 8
  let buf := c.buf ++ [0x80]
  let (h, buf) := if 112 < buf.length then (sha512Compress c.h (padTo 128 buf), []) else (c.h, buf)
  (sha512Compress h (padTo 112 buf ++ put64 0 ++ put64 bits)).flatMap put64

/-- The hash of data given in pieces. -/
def sha512 (pieces : List (List UInt8)) : List UInt8 :=
  sha512Final (pieces.foldl sha512Update sha512Init)

theorem length_sha512 (pieces : List (List UInt8)) : (sha512 pieces).length = 64 := rfl

end Crypto
