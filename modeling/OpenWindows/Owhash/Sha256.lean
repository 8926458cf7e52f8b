import OpenWindows.Crypto.Sha256
import Mathlib.Data.List.GetD

/-!
# SHA-256 of `owhash64`

This module hashes on its own: the chaining words have 32 bits, every byte goes through the buffer,
and the count is of bits.  The buffer is compressed when it is full, at the end of a turn, so a full
buffer at its start is not met.  Its compression is the one of `owcrypt` on the lower halves of the
words, and so its digest is the same for any pieces of any message.
-/

namespace Owhash

open Words
open Crypto (sha256 sha256Compress sha256Digest sha256Init sha256Out sha512 sha512Digest)

/-! ## The functions -/

/-- `ow_sha256_k`. -/
def sha256K : List UInt32 :=
  [0x428A2F98, 0x71374491, 0xB5C0FBCF, 0xE9B5DBA5, 0x3956C25B, 0x59F111F1, 0x923F82A4, 0xAB1C5ED5,
   0xD807AA98, 0x12835B01, 0x243185BE, 0x550C7DC3, 0x72BE5D74, 0x80DEB1FE, 0x9BDC06A7, 0xC19BF174,
   0xE49B69C1, 0xEFBE4786, 0x0FC19DC6, 0x240CA1CC, 0x2DE92C6F, 0x4A7484AA, 0x5CB0A9DC, 0x76F988DA,
   0x983E5152, 0xA831C66D, 0xB00327C8, 0xBF597FC7, 0xC6E00BF3, 0xD5A79147, 0x06CA6351, 0x14292967,
   0x27B70A85, 0x2E1B2138, 0x4D2C6DFC, 0x53380D13, 0x650A7354, 0x766A0ABB, 0x81C2C92E, 0x92722C85,
   0xA2BFE8A1, 0xA81A664B, 0xC24B8B70, 0xC76C51A3, 0xD192E819, 0xD6990624, 0xF40E3585, 0x106AA070,
   0x19A4C116, 0x1E376C08, 0x2748774C, 0x34B0BCB5, 0x391C0CB3, 0x4ED8AA4A, 0x5B9CCA4F, 0x682E6FF3,
   0x748F82EE, 0x78A5636F, 0x84C87814, 0x8CC70208, 0x90BEFFFA, 0xA4506CEB, 0xBEF9A3F7, 0xC67178F2]

/-- `ow_hash_rotr32`. -/
def rotr32 (x n : UInt32) : UInt32 := (x >>> n) ||| (x <<< (32 - n))

/-- `ow_hash_rd_be32`. -/
def rdBe32 (p : List UInt8) : UInt32 :=
  ((p.getD 0 0).toUInt32 <<< 24) ||| ((p.getD 1 0).toUInt32 <<< 16) |||
    ((p.getD 2 0).toUInt32 <<< 8) ||| (p.getD 3 0).toUInt32

/-- `ow_hash_wr_be32`. -/
def wrBe32 (v : UInt32) : List UInt8 :=
  [(v >>> 24).toUInt8, (v >>> 16).toUInt8, (v >>> 8).toUInt8, v.toUInt8]

/-- `owhash_sha256_ctx_t`, with the bytes of `buffer` below `buflen`. -/
structure Sha256Ctx where
  state : List UInt32
  bitlen : UInt64
  buffer : List UInt8

/-- The message schedule of `ow_sha256_transform`: the words from 16 on. -/
def extend (w : List UInt32) (i : Nat) : List UInt32 :=
  let x := w.getD (i - 15) 0
  let y := w.getD (i - 2) 0
  let s0 := rotr32 x 7 ^^^ rotr32 x 18 ^^^ (x >>> 3)
  let s1 := rotr32 y 17 ^^^ rotr32 y 19 ^^^ (y >>> 10)
  w ++ [w.getD (i - 16) 0 + s0 + w.getD (i - 7) 0 + s1]

/-- The eight working variables of `ow_sha256_transform`. -/
structure Vars where
  a : UInt32
  b : UInt32
  c : UInt32
  d : UInt32
  e : UInt32
  f : UInt32
  g : UInt32
  h : UInt32

/-- One round of `ow_sha256_transform`. -/
def round (w : List UInt32) (v : Vars) (i : Nat) : Vars :=
  let s1 := rotr32 v.e 6 ^^^ rotr32 v.e 11 ^^^ rotr32 v.e 25
  let ch := (v.e &&& v.f) ^^^ (~~~v.e &&& v.g)
  let t1 := v.h + s1 + ch + sha256K.getD i 0 + w.getD i 0
  let s0 := rotr32 v.a 2 ^^^ rotr32 v.a 13 ^^^ rotr32 v.a 22
  let maj := (v.a &&& v.b) ^^^ (v.a &&& v.c) ^^^ (v.b &&& v.c)
  let t2 := s0 + maj
  { a := t1 + t2, b := v.a, c := v.b, d := v.c, e := v.d + t1, f := v.e, g := v.f, h := v.g }

/-- The new chaining words of `ow_sha256_transform`. -/
def transform (s : List UInt32) (block : List UInt8) : List UInt32 :=
  let w := (List.range' 16 48).foldl extend
    ((List.range 16).map fun i => rdBe32 (block.drop (4 * i)))
  let v : Vars :=
    ⟨s.getD 0 0, s.getD 1 0, s.getD 2 0, s.getD 3 0, s.getD 4 0, s.getD 5 0, s.getD 6 0, s.getD 7 0⟩
  let v' := (List.range 64).foldl (round w) v
  [s.getD 0 0 + v'.a, s.getD 1 0 + v'.b, s.getD 2 0 + v'.c, s.getD 3 0 + v'.d, s.getD 4 0 + v'.e,
    s.getD 5 0 + v'.f, s.getD 6 0 + v'.g, s.getD 7 0 + v'.h]

/-- `owhash_sha256_init`. -/
def init : Sha256Ctx where
  state := [0x6A09E667, 0xBB67AE85, 0x3C6EF372, 0xA54FF53A, 0x510E527F, 0x9B05688C, 0x1F83D9AB,
    0x5BE0CD19]
  bitlen := 0
  buffer := []

/-- The buffer is compressed and emptied. -/
def Sha256Ctx.flush (c : Sha256Ctx) : Sha256Ctx :=
  { c with state := transform c.state c.buffer, buffer := [] }

/-- One turn of the loop of `owhash_sha256_update`: the context and the bytes that are left. -/
def turn (c : Sha256Ctx) (p : List UInt8) : Sha256Ctx × List UInt8 :=
  let c := if 64 - c.buffer.length = 0 then c.flush else c
  let space := 64 - c.buffer.length
  let take := if p.length < space then p.length else space
  let c := { c with buffer := c.buffer ++ p.take take }
  (if c.buffer.length = 64 then c.flush else c, p.drop take)

/-- The loop of `owhash_sha256_update`, for at most `n` turns. -/
def updateLoop : Nat → Sha256Ctx → List UInt8 → Sha256Ctx
  | 0, c, _ => c
  | n + 1, c, p => if p = [] then c else updateLoop n (turn c p).1 (turn c p).2

/-- `owhash_sha256_update`.  Without data it returns, or there is nothing to do. -/
def update (c : Sha256Ctx) : Option (List UInt8) → Sha256Ctx
  | none => c
  | some p =>
    updateLoop p.length { c with bitlen := c.bitlen + UInt64.ofNat p.length * 8 } p

def lengthBytes (bits : UInt64) : List UInt8 :=
  (List.range 8).map fun i => (bits >>> (56 - UInt64.ofNat i * 8)).toUInt8

/-- Zeros up to a length. -/
def fill (n : Nat) (buffer : List UInt8) : List UInt8 :=
  buffer ++ List.replicate (n - buffer.length) 0

/-- `owhash_sha256_final`. -/
def final (c : Sha256Ctx) : List UInt8 :=
  let bits := c.bitlen
  let c := { c with buffer := c.buffer ++ [0x80] }
  let c := if 56 < c.buffer.length then { c with buffer := fill 64 c.buffer }.flush else c
  let c := { c with buffer := fill 56 c.buffer ++ lengthBytes bits }
  c.flush.state.flatMap wrBe32

/-- The digest of data given in pieces. -/
def digest (pieces : List (Option (List UInt8))) : List UInt8 := final (pieces.foldl update init)

/-! ## The compression -/

/-- The words of `owcrypt` as this module keeps them. -/
def low (h : List UInt64) : List UInt32 := h.map UInt64.toUInt32

theorem getD_low (h : List UInt64) (i : Nat) : (low h).getD i 0 = (h.getD i 0).toUInt32 :=
  List.getD_map h 0 UInt64.toUInt32

/-- The working variables of the two modules. -/
def Vars.ofCrypt (v : Crypto.Sha256Vars) : Vars := ⟨v.a, v.b, v.c, v.d, v.e, v.f, v.g, v.h⟩

theorem foldl_round (w : List UInt32) (is : List Nat) (v : Crypto.Sha256Vars) :
    is.foldl (round w) (Vars.ofCrypt v) = Vars.ofCrypt (is.foldl (Crypto.sha256Round w) v) := by
  induction is generalizing v with
  | nil => rfl
  | cons i is ih => exact ih (Crypto.sha256Round w v i)

theorem transform_low (h : List UInt64) (block : List UInt8) :
    transform (low h) block = low (sha256Compress h block) := by
  have hwords : (List.range' 16 48).foldl extend
      ((List.range 16).map fun i => rdBe32 (block.drop (4 * i))) = Crypto.sha256Schedule block :=
    rfl
  have hvars : ∀ a b c d e f g h,
      (⟨a, b, c, d, e, f, g, h⟩ : Vars) = Vars.ofCrypt ⟨a, b, c, d, e, f, g, h⟩ :=
    fun _ _ _ _ _ _ _ _ => rfl
  simp only [transform, hwords, getD_low, sha256Compress]
  rw [hvars, foldl_round]
  simp only [low, Vars.ofCrypt, List.map_cons, List.map_nil, UInt64.toUInt32_add,
    UInt32.toUInt32_toUInt64]

/-! ## Pieces -/

def Sha256Ctx.chain (c : Sha256Ctx) : List UInt32 × List UInt8 := (c.state, c.buffer)

variable {c : Sha256Ctx} {p : List UInt8}

theorem turn_eq (hbuf : c.buffer.length < 64) (p : List UInt8) : turn c p =
      (if c.buffer.length + min p.length (64 - c.buffer.length) = 64 then
          { c with buffer := c.buffer ++ p.take (64 - c.buffer.length) }.flush
        else { c with buffer := c.buffer ++ p.take (64 - c.buffer.length) },
        p.drop (64 - c.buffer.length)) := by
  have hspace : ¬ 64 - c.buffer.length = 0 := by omega
  rw [turn]
  dsimp only
  rw [if_neg hspace]
  split
  next hlt =>
    rw [Nat.min_eq_left hlt.le, List.take_of_length_le le_rfl, List.take_of_length_le hlt.le,
      List.drop_eq_nil_of_le le_rfl, List.drop_eq_nil_of_le hlt.le, List.length_append]
  next hge =>
    rw [List.length_append, List.length_take, Nat.min_comm]

theorem turn_spec (hbuf : c.buffer.length < 64) (hp : p ≠ []) :
    (turn c p).1.bitlen = c.bitlen ∧ (turn c p).2.length < p.length ∧
      Absorb.absorb 64 transform (turn c p).1.chain (turn c p).2 =
        Absorb.absorb 64 transform c.chain p := by
  have hpos := List.length_pos_iff.2 hp
  have htake : (p.take (64 - c.buffer.length)).length = min p.length (64 - c.buffer.length) := by
    rw [List.length_take, Nat.min_comm]
  have hsplit : Absorb.absorb 64 transform c.chain p =
      Absorb.absorb 64 transform
        (Absorb.absorb 64 transform c.chain (p.take (64 - c.buffer.length)))
        (p.drop (64 - c.buffer.length)) := by
    rw [← Absorb.absorb_append, List.take_append_drop]
  have hless : (p.drop (64 - c.buffer.length)).length < p.length := by
    rw [List.length_drop]
    omega
  rw [turn_eq hbuf, hsplit]
  split
  next hfull =>
    have htaken : Absorb.absorb 64 transform c.chain (p.take (64 - c.buffer.length)) =
        (transform c.state (c.buffer ++ p.take (64 - c.buffer.length)), []) :=
      Absorb.absorb_full hbuf (by omega)
    rw [htaken]
    exact ⟨rfl, hless, rfl⟩
  next hroom =>
    have htaken : Absorb.absorb 64 transform c.chain (p.take (64 - c.buffer.length)) =
        (c.state, c.buffer ++ p.take (64 - c.buffer.length)) := Absorb.absorb_short (by omega)
    rw [htaken]
    exact ⟨rfl, hless, rfl⟩

theorem turn_lt (hbuf : c.buffer.length < 64) : (turn c p).1.buffer.length < 64 := by
  rw [turn_eq hbuf]
  split
  · exact Nat.zero_lt_succ _
  next hroom =>
    rw [List.length_append, List.length_take, Nat.min_comm]
    omega

theorem updateLoop_spec {n : Nat} (hn : p.length ≤ n)
    (hbuf : c.buffer.length < 64) : (updateLoop n c p).bitlen = c.bitlen ∧
      (updateLoop n c p).chain = Absorb.absorb 64 transform c.chain p := by
  induction n generalizing c p with
  | zero =>
    obtain rfl : p = [] := List.length_eq_zero_iff.1 (by omega)
    exact ⟨rfl, rfl⟩
  | succ n ih =>
    rw [updateLoop]
    split
    next hnil =>
      subst hnil
      exact ⟨rfl, rfl⟩
    next hp =>
      obtain ⟨hbits, hless, habsorb⟩ := turn_spec hbuf hp
      obtain ⟨hrest, hchain⟩ := ih (Nat.le_of_lt_succ (hless.trans_le hn)) (turn_lt hbuf)
      exact ⟨hrest.trans hbits, hchain.trans habsorb⟩

/-- The message that pieces make up; a piece may come without data. -/
def message (pieces : List (Option (List UInt8))) : List UInt8 := pieces.flatMap (·.getD [])

theorem update_spec (hbuf : c.buffer.length < 64) (p : Option (List UInt8)) :
    (update c p).bitlen = c.bitlen + UInt64.ofNat (p.getD []).length * 8 ∧
      (update c p).chain = Absorb.absorb 64 transform c.chain (p.getD []) := by
  cases p with
  | none => exact ⟨(UInt64.add_zero _).symm, rfl⟩
  | some p =>
    exact updateLoop_spec (c := { c with bitlen := c.bitlen + UInt64.ofNat p.length * 8 }) le_rfl
      hbuf

theorem pieces_spec (pieces : List (Option (List UInt8))) (hbuf : c.buffer.length < 64) :
    (pieces.foldl update c).bitlen = c.bitlen + UInt64.ofNat (message pieces).length * 8 ∧
      (pieces.foldl update c).chain = Absorb.absorb 64 transform c.chain (message pieces) := by
  induction pieces generalizing c with
  | nil => exact ⟨(UInt64.add_zero _).symm, rfl⟩
  | cons p pieces ih =>
    obtain ⟨hbits, hchain⟩ := update_spec hbuf p
    have hroom : (update c p).buffer.length < 64 := by
      have hsnd : (update c p).buffer = (Absorb.absorb 64 transform c.chain (p.getD [])).2 :=
        congrArg Prod.snd hchain
      rw [hsnd]
      exact Absorb.length_absorb_lt hbuf
    have hmessage : message (p :: pieces) = p.getD [] ++ message pieces := List.flatMap_cons
    obtain ⟨hrest, hchains⟩ := ih hroom
    rw [List.foldl_cons, hmessage, Absorb.absorb_append, hrest, hchains, hbits, hchain,
      List.length_append, UInt64.ofNat_add, UInt64.add_mul, UInt64.add_assoc]
    exact ⟨rfl, rfl⟩

theorem lengthBytes_eq (bits : UInt64) : lengthBytes bits = put64 bits := by
  simp only [lengthBytes, List.range, List.range.loop, List.map_cons, List.map_nil, put64, put32,
    List.cons_append, List.nil_append, List.cons.injEq, ← UInt8.toNat_inj, UInt64.reduceOfNat,
    UInt64.reduceMul, UInt64.reduceSub, UInt64.reduceToNat, UInt32.reduceToNat,
    UInt64.toNat_toUInt8, UInt32.toNat_toUInt8, UInt64.toNat_shiftRight, UInt32.toNat_shiftRight, UInt64.toNat_toUInt32,
    Nat.reduceMod, Nat.shiftRight_eq_div_pow, and_true]
  omega

theorem final_eq (c : Sha256Ctx) : final c =
    (Absorb.finish 64 transform 0 0x80 c.chain (put64 c.bitlen)).flatMap wrBe32 := by
  simp only [final, lengthBytes_eq]
  split
  next htwo =>
    rw [Absorb.finish_of_gt htwo]
    rfl
  next hone =>
    rw [Absorb.finish_of_le hone]
    rfl

theorem digest_eq {pieces : List (Option (List UInt8))} {pieces' : List (List UInt8)}
    (hmessage : message pieces = pieces'.flatten) : digest pieces = sha256 pieces' := by
  obtain ⟨hbits, hchain⟩ := pieces_spec pieces (c := init) (by decide)
  have hzero : init.bitlen + UInt64.ofNat (message pieces).length * 8 =
      UInt64.ofNat (message pieces).length * 8 := UInt64.zero_add _
  have hinit : init.chain = (low sha256Init.h, []) := rfl
  rw [digest, final_eq, hbits, hchain, hzero, hinit, Crypto.sha256_finish, hmessage,
    Absorb.absorb_hom (c := (sha256Init.h, [])) transform_low, Absorb.finish_hom transform_low, low,
    List.flatMap_map, sha256Out]
  rfl

/-- Three streams, one digest each: a message given in any pieces has the digest of its padded
blocks, and the two modules agree on SHA-256 at any length. -/
theorem stream_digests (pieces : List (List UInt8)) (pieces' : List (Option (List UInt8)))
    (hmessage : message pieces' = pieces.flatten) :
    digest pieces' = sha256 pieces ∧
      (pieces.flatten.length < 2 ^ 61 →
        sha256 pieces = sha256Digest pieces.flatten ∧ sha512 pieces = sha512Digest pieces.flatten ∧
          digest pieces' = sha256Digest pieces.flatten) := by
  have hsame : digest pieces' = sha256 pieces := digest_eq hmessage
  refine ⟨hsame, fun hlen => ?_⟩
  have hblocks : sha256 pieces = sha256Digest pieces.flatten := Crypto.sha256_eq hlen
  exact ⟨hblocks, Crypto.sha512_eq hlen, hsame.trans hblocks⟩

theorem stream_digests_abc :
    message [some [0x61, 0x62], none, some [], some [0x63]] = [[0x61], [], [0x62, 0x63]].flatten ∧
      digest [some [0x61, 0x62], none, some [], some [0x63]] = sha256 [[0x61], [], [0x62, 0x63]] ∧
        sha256 [[0x61], [], [0x62, 0x63]] = sha256Digest [0x61, 0x62, 0x63] := by
  have hmessage : message [some [0x61, 0x62], none, some [], some [0x63]] =
      [[0x61], [], [0x62, 0x63]].flatten := rfl
  have hdigests := stream_digests [[0x61], [], [0x62, 0x63]]
    [some [0x61, 0x62], none, some [], some [0x63]] hmessage
  exact ⟨hmessage, hdigests.1, (hdigests.2 (by decide)).1⟩

end Owhash
