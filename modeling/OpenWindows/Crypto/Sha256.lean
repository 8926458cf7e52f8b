import OpenWindows.Crypto.Poly1305Lanes
import OpenWindows.Crypto.Sha512
import OpenWindows.Lib.Absorb

/-!
# SHA-256 of `owcrypt`, and both hashes in pieces

SHA-256 has the context of SHA-512, so its chaining words are kept in words of 64 bits, of which the
lower half counts.  Each of the two keeps the bytes that do not fill a block, and compresses whole
blocks from where they stand.  Whatever the pieces are, the digest is the one of the padded message,
block after block.
-/

namespace Crypto

open Bytes Words
open Absorb (padded wholeBlocks)

/-! ## The functions -/

/-- `owc_sha256_k`. -/
def sha256K : List UInt32 :=
  [0x428a2f98, 0x71374491, 0xb5c0fbcf, 0xe9b5dba5, 0x3956c25b, 0x59f111f1, 0x923f82a4, 0xab1c5ed5,
   0xd807aa98, 0x12835b01, 0x243185be, 0x550c7dc3, 0x72be5d74, 0x80deb1fe, 0x9bdc06a7, 0xc19bf174,
   0xe49b69c1, 0xefbe4786, 0x0fc19dc6, 0x240ca1cc, 0x2de92c6f, 0x4a7484aa, 0x5cb0a9dc, 0x76f988da,
   0x983e5152, 0xa831c66d, 0xb00327c8, 0xbf597fc7, 0xc6e00bf3, 0xd5a79147, 0x06ca6351, 0x14292967,
   0x27b70a85, 0x2e1b2138, 0x4d2c6dfc, 0x53380d13, 0x650a7354, 0x766a0abb, 0x81c2c92e, 0x92722c85,
   0xa2bfe8a1, 0xa81a664b, 0xc24b8b70, 0xc76c51a3, 0xd192e819, 0xd6990624, 0xf40e3585, 0x106aa070,
   0x19a4c116, 0x1e376c08, 0x2748774c, 0x34b0bcb5, 0x391c0cb3, 0x4ed8aa4a, 0x5b9cca4f, 0x682e6ff3,
   0x748f82ee, 0x78a5636f, 0x84c87814, 0x8cc70208, 0x90befffa, 0xa4506ceb, 0xbef9a3f7, 0xc67178f2]

/-- `owc_rotr32`. -/
def rotr32 (x n : UInt32) : UInt32 := (x >>> n) ||| (x <<< (32 - n))

/-- The message schedule: the words from 16 on. -/
def sha256Extend (w : List UInt32) (i : Nat) : List UInt32 :=
  let x := w.getD (i - 15) 0
  let y := w.getD (i - 2) 0
  let s0 := rotr32 x 7 ^^^ rotr32 x 18 ^^^ (x >>> 3)
  let s1 := rotr32 y 17 ^^^ rotr32 y 19 ^^^ (y >>> 10)
  w ++ [w.getD (i - 16) 0 + s0 + w.getD (i - 7) 0 + s1]

/-- The message schedule of a block. -/
def sha256Schedule (blk : List UInt8) : List UInt32 :=
  (List.range' 16 48).foldl sha256Extend ((List.range 16).map fun i => get32 (blk.drop (4 * i)))

/-- The eight working variables of `owc_sha256_compress`. -/
structure Sha256Vars where
  a : UInt32
  b : UInt32
  c : UInt32
  d : UInt32
  e : UInt32
  f : UInt32
  g : UInt32
  h : UInt32

/-- One round of `owc_sha256_compress`. -/
def sha256Round (w : List UInt32) (v : Sha256Vars) (i : Nat) : Sha256Vars :=
  let s1 := rotr32 v.e 6 ^^^ rotr32 v.e 11 ^^^ rotr32 v.e 25
  let ch := (v.e &&& v.f) ^^^ (~~~v.e &&& v.g)
  let t1 := v.h + s1 + ch + sha256K.getD i 0 + w.getD i 0
  let s0 := rotr32 v.a 2 ^^^ rotr32 v.a 13 ^^^ rotr32 v.a 22
  let maj := (v.a &&& v.b) ^^^ (v.a &&& v.c) ^^^ (v.b &&& v.c)
  let t2 := s0 + maj
  { a := t1 + t2, b := v.a, c := v.b, d := v.c, e := v.d + t1, f := v.e, g := v.f, h := v.g }

/-- `owc_sha256_compress`.  The sums are of 64 bits, and only their lower halves are read. -/
def sha256Compress (h : List UInt64) (blk : List UInt8) : List UInt64 :=
  let w := sha256Schedule blk
  let v : Sha256Vars :=
    ⟨(h.getD 0 0).toUInt32, (h.getD 1 0).toUInt32, (h.getD 2 0).toUInt32, (h.getD 3 0).toUInt32,
      (h.getD 4 0).toUInt32, (h.getD 5 0).toUInt32, (h.getD 6 0).toUInt32, (h.getD 7 0).toUInt32⟩
  let v' := (List.range 64).foldl (sha256Round w) v
  [h.getD 0 0 + v'.a.toUInt64, h.getD 1 0 + v'.b.toUInt64, h.getD 2 0 + v'.c.toUInt64,
    h.getD 3 0 + v'.d.toUInt64, h.getD 4 0 + v'.e.toUInt64, h.getD 5 0 + v'.f.toUInt64,
    h.getD 6 0 + v'.g.toUInt64, h.getD 7 0 + v'.h.toUInt64]

/-- `owcrypt_sha256_init`. -/
def sha256Init : ShaCtx where
  h := [0x6a09e667, 0xbb67ae85, 0x3c6ef372, 0xa54ff53a, 0x510e527f, 0x9b05688c, 0x1f83d9ab,
    0x5be0cd19]
  total := 0
  buf := []

/-- The `while` loop of `owcrypt_sha256_update`, for at most `n` blocks: the chaining words and the
bytes that are left. -/
def sha256Blocks : Nat → List UInt64 → List UInt8 → List UInt64 × List UInt8
  | 0, h, p => (h, p)
  | n + 1, h, p =>
    if 64 ≤ p.length then sha256Blocks n (sha256Compress h p) (p.drop 64) else (h, p)

/-- The first part of `owcrypt_sha256_update`: a block that was begun is filled up. -/
def sha256Fill (c : ShaCtx) (p : List UInt8) : ShaCtx × List UInt8 :=
  if c.buf = [] then (c, p)
  else
    let take := min p.length (64 - c.buf.length)
    let buf := c.buf ++ p.take take
    if buf.length = 64 then
      ({ c with h := sha256Compress c.h buf, buf := [] }, p.drop take)
    else ({ c with buf }, p.drop take)

/-- `owcrypt_sha256_update`. -/
def sha256Update (c : ShaCtx) (data : List UInt8) : ShaCtx :=
  let (c, p) := sha256Fill { c with total := c.total + UInt64.ofNat data.length } data
  let (h, p) := sha256Blocks p.length c.h p
  { c with h, buf := c.buf ++ p }

/-- The lower halves of the chaining words, as they are written out. -/
def sha256Out (h : List UInt64) : List UInt8 := h.flatMap fun w => put32 w.toUInt32

/-- `owcrypt_sha256_final`. -/
def sha256Final (c : ShaCtx) : List UInt8 :=
  let bits := c.total * 8
  let buf := c.buf ++ [0x80]
  let (h, buf) := if 56 < buf.length then (sha256Compress c.h (padTo 64 buf), []) else (c.h, buf)
  sha256Out (sha256Compress h (padTo 56 buf ++ put64 bits))

/-- The hash of data given in pieces. -/
def sha256 (pieces : List (List UInt8)) : List UInt8 :=
  sha256Final (pieces.foldl sha256Update sha256Init)

/-! ## The padded message -/

/-- A number in `n` bytes, highest byte first. -/
def beBytes (n x : Nat) : List UInt8 := (leBytes n x).reverse

/-- The message with its padding, in blocks of `k + 1` bytes of which the last `n` hold the length
in bits. -/
def shaBlocks (k n : Nat) (msg : List UInt8) : List (List UInt8) :=
  chunks k (padded (k + 1) 0 0x80 msg (beBytes n (8 * msg.length)))

def sha256Digest (msg : List UInt8) : List UInt8 :=
  sha256Out ((shaBlocks 63 8 msg).foldl sha256Compress sha256Init.h)

def sha512Digest (msg : List UInt8) : List UInt8 :=
  ((shaBlocks 127 16 msg).foldl sha512Compress sha512Init.h).flatMap put64

@[simp] theorem length_beBytes (n x : Nat) : (beBytes n x).length = n := by
  have hlen : (leBytes n x).length = n := by
    induction n generalizing x with
    | zero => rfl
    | succ n ih => rw [leBytes, List.length_cons, ih]
  rw [beBytes, List.length_reverse, hlen]

theorem put64_eq (v : UInt64) : put64 v = beBytes 8 v.toNat := by
  have hbytes : put64 v = (put64le v).reverse := by
    simp only [put64, put32, put64le, List.cons_append, List.nil_append, List.reverse_cons,
      List.reverse_nil, List.cons.injEq, and_true, ← UInt8.toNat_inj, UInt64.toNat_toUInt8,
      UInt32.toNat_toUInt8, UInt32.toNat_shiftRight, UInt64.toNat_shiftRight, UInt64.toNat_toUInt32,
      UInt64.reduceToNat, UInt32.reduceToNat, Nat.reduceMod, Nat.shiftRight_eq_div_pow]
    omega
  rw [hbytes, put64le_eq, beBytes]

theorem put64_zero_append {x : Nat} (hx : x < 2 ^ 64) :
    put64 0 ++ put64 (UInt64.ofNat x) = beBytes 16 x := by
  have hhigh : x / 256 ^ 8 = 0 := Nat.div_eq_of_lt hx
  have hlow : (UInt64.ofNat x).toNat = x := by
    rw [UInt64.toNat_ofNat', Nat.mod_eq_of_lt hx]
  rw [put64_eq, put64_eq, hlow, beBytes, beBytes, beBytes, leBytes_add 8 8, hhigh,
    List.reverse_append]
  rfl

/-! ## A block is all that is read -/

theorem getD_take_drop {n k j : Nat} (p : List UInt8) (h : k + j < n) :
    ((p.take n).drop k).getD j 0 = (p.drop k).getD j 0 := by
  rw [List.getD_eq_getElem?_getD, List.getD_eq_getElem?_getD, List.getElem?_drop,
    List.getElem?_drop, List.getElem?_take_of_lt h]

theorem get32_take_drop {n k : Nat} (p : List UInt8) (h : k + 4 ≤ n) :
    get32 ((p.take n).drop k) = get32 (p.drop k) := by
  rw [get32, get32, getD_take_drop p (by omega), getD_take_drop p (by omega),
    getD_take_drop p (by omega), getD_take_drop p (by omega)]

theorem get64_take_drop {n k : Nat} (p : List UInt8) (h : k + 8 ≤ n) :
    get64 ((p.take n).drop k) = get64 (p.drop k) := by
  rw [get64, get64, List.drop_drop, List.drop_drop, get32_take_drop p (by omega),
    get32_take_drop p (by omega)]

theorem local_sha256Compress : Absorb.Local 64 sha256Compress := by
  intro h p
  have hwords : (List.range 16).map (fun i => get32 ((p.take 64).drop (4 * i))) =
      (List.range 16).map fun i => get32 (p.drop (4 * i)) := by
    refine List.map_congr_left fun i hi => ?_
    have hi := List.mem_range.1 hi
    exact get32_take_drop p (by omega)
  simp only [sha256Compress, sha256Schedule, hwords]

theorem local_sha512Compress : Absorb.Local 128 sha512Compress := by
  intro h p
  have hwords : (List.range 16).map (fun i => get64 ((p.take 128).drop (8 * i))) =
      (List.range 16).map fun i => get64 (p.drop (8 * i)) := by
    refine List.map_congr_left fun i hi => ?_
    have hi := List.mem_range.1 hi
    exact get64_take_drop p (by omega)
  simp only [sha512Compress, sha512Schedule, hwords]

/-! ## Pieces -/

theorem sha256Blocks_eq (n : Nat) (h : List UInt64) (p : List UInt8) :
    sha256Blocks n h p = wholeBlocks 64 sha256Compress n h p := by
  induction n generalizing h p with
  | zero => rfl
  | succ n ih => rw [sha256Blocks, wholeBlocks, ih]

theorem sha512Blocks_eq (n : Nat) (h : List UInt64) (p : List UInt8) :
    sha512Blocks n h p = wholeBlocks 128 sha512Compress n h p := by
  induction n generalizing h p with
  | zero => rfl
  | succ n ih => rw [sha512Blocks, wholeBlocks, ih]

/-- An update absorbs its data and counts them. -/
def Absorbs (n : Nat) (compress : List UInt64 → List UInt8 → List UInt64)
    (upd : ShaCtx → List UInt8 → ShaCtx) : Prop :=
  ∀ c data, c.buf.length < n →
    ((upd c data).h, (upd c data).buf) = Absorb.absorb n compress (c.h, c.buf) data ∧
      (upd c data).total = c.total + UInt64.ofNat data.length

theorem absorbs_sha256Update : Absorbs 64 sha256Compress sha256Update := by
  intro c data hbuf
  rw [← Absorb.update_eq local_sha256Compress hbuf]
  simp only [sha256Update, sha256Fill, Absorb.update, sha256Blocks_eq]
  split
  · exact ⟨rfl, rfl⟩
  · split
    · exact ⟨rfl, rfl⟩
    · exact ⟨rfl, rfl⟩

theorem absorbs_sha512Update : Absorbs 128 sha512Compress sha512Update := by
  intro c data hbuf
  rw [← Absorb.update_eq local_sha512Compress hbuf]
  simp only [sha512Update, sha512Fill, Absorb.update, sha512Blocks_eq]
  split
  · exact ⟨rfl, rfl⟩
  · split
    · exact ⟨rfl, rfl⟩
    · exact ⟨rfl, rfl⟩

theorem Absorbs.pieces {n : Nat} {compress : List UInt64 → List UInt8 → List UInt64}
    {upd : ShaCtx → List UInt8 → ShaCtx} (hupd : Absorbs n compress upd)
    (pieces : List (List UInt8)) {c : ShaCtx} (hbuf : c.buf.length < n) :
    ((pieces.foldl upd c).h, (pieces.foldl upd c).buf) =
        Absorb.absorb n compress (c.h, c.buf) pieces.flatten ∧
      (pieces.foldl upd c).total = c.total + UInt64.ofNat pieces.flatten.length := by
  induction pieces generalizing c with
  | nil =>
    refine ⟨rfl, ?_⟩
    exact (UInt64.add_zero _).symm
  | cons p pieces ih =>
    obtain ⟨hpair, htotal⟩ := hupd c p hbuf
    have hroom : (upd c p).buf.length < n := by
      have hbuf' : (upd c p).buf = (Absorb.absorb n compress (c.h, c.buf) p).2 :=
        congrArg Prod.snd hpair
      rw [hbuf']
      exact Absorb.length_absorb_lt hbuf
    obtain ⟨hpairs, htotals⟩ := ih hroom
    rw [List.foldl_cons, List.flatten_cons, Absorb.absorb_append, ← hpair, List.length_append,
      UInt64.ofNat_add, ← UInt64.add_assoc, ← htotal]
    exact ⟨hpairs, htotals⟩

theorem sha256Final_eq (c : ShaCtx) : sha256Final c =
    sha256Out (Absorb.finish 64 sha256Compress 0 0x80 (c.h, c.buf) (put64 (c.total * 8))) := by
  rw [sha256Final, Absorb.finish]
  dsimp only [length_put64, Nat.reduceSub]
  rfl

theorem sha512Final_eq (c : ShaCtx) : sha512Final c = (Absorb.finish 128 sha512Compress 0 0x80
    (c.h, c.buf) (put64 0 ++ put64 (c.total * 8))).flatMap put64 := by
  have hlen : (put64 0 ++ put64 (c.total * 8)).length = 16 := rfl
  rw [sha512Final, Absorb.finish]
  simp only [hlen, Nat.reduceSub, List.append_assoc]
  rfl

theorem bits_toNat {n : Nat} (hn : n < 2 ^ 61) : (UInt64.ofNat n * 8).toNat = 8 * n := by
  have hlow : (UInt64.ofNat n).toNat = n := by
    rw [UInt64.toNat_ofNat', Nat.mod_eq_of_lt (by omega)]
  rw [UInt64.toNat_mul, hlow, Nat.mul_comm]
  exact Nat.mod_eq_of_lt (by change 8 * n < 2 ^ 64; omega)

theorem sha256_finish (pieces : List (List UInt8)) :
    sha256 pieces = sha256Out (Absorb.finish 64 sha256Compress 0 0x80
      (Absorb.absorb 64 sha256Compress (sha256Init.h, []) pieces.flatten)
      (put64 (UInt64.ofNat pieces.flatten.length * 8))) := by
  obtain ⟨hpair, htotal⟩ := absorbs_sha256Update.pieces pieces (c := sha256Init) (by decide)
  have hzero : sha256Init.total + UInt64.ofNat pieces.flatten.length =
      UInt64.ofNat pieces.flatten.length := UInt64.zero_add _
  rw [sha256, sha256Final_eq, hpair, htotal, hzero]
  rfl

theorem sha256_eq {pieces : List (List UInt8)} (hlen : pieces.flatten.length < 2 ^ 61) :
    sha256 pieces = sha256Digest pieces.flatten := by
  rw [sha256_finish, put64_eq, bits_toNat hlen]
  exact congrArg sha256Out (Absorb.finish_absorb (by rw [length_beBytes]; decide)
    (by rw [length_beBytes]; decide))

theorem sha512_eq {pieces : List (List UInt8)} (hlen : pieces.flatten.length < 2 ^ 61) :
    sha512 pieces = sha512Digest pieces.flatten := by
  obtain ⟨hpair, htotal⟩ := absorbs_sha512Update.pieces pieces (c := sha512Init) (by decide)
  have hzero : sha512Init.total + UInt64.ofNat pieces.flatten.length =
      UInt64.ofNat pieces.flatten.length := UInt64.zero_add _
  have hbits : UInt64.ofNat pieces.flatten.length * 8 =
      UInt64.ofNat (8 * pieces.flatten.length) := by
    rw [← UInt64.toNat_inj, bits_toNat hlen, UInt64.toNat_ofNat', Nat.mod_eq_of_lt (by omega)]
  rw [sha512, sha512Final_eq, hpair, htotal, hzero, hbits, put64_zero_append (by omega)]
  exact congrArg (List.flatMap put64) (Absorb.finish_absorb (by rw [length_beBytes]; decide)
    (by rw [length_beBytes]; decide))

end Crypto
