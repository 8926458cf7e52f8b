import OpenWindows.Lib.Bytes

/-!
# Poly1305 of `owcrypt`

The 130-bit accumulator lives in five lanes of 26 bits.  A block is added to
it, the sum is multiplied by the clamped `r` with bits from 130 on coming back
times five, and two carry chains bring the lanes below `2 ^ 26` again.  The last
carry of the second chain is masked away.  At the end `s` is added to the lanes
as they are: the conditional subtraction of `2 ^ 130 - 5` compares whole words
and never sees a carry.

All lanes are `uint64_t`.
-/

namespace Crypto

open Bytes

/-! ## Words -/

/-- `owc_get64le`. -/
def get64le (p : List UInt8) : UInt64 :=
  (p.getD 0 0).toUInt64 ||| ((p.getD 1 0).toUInt64 <<< 8)
    ||| ((p.getD 2 0).toUInt64 <<< 16) ||| ((p.getD 3 0).toUInt64 <<< 24)
    ||| ((p.getD 4 0).toUInt64 <<< 32) ||| ((p.getD 5 0).toUInt64 <<< 40)
    ||| ((p.getD 6 0).toUInt64 <<< 48) ||| ((p.getD 7 0).toUInt64 <<< 56)

/-- `owc_put64le`. -/
def put64le (v : UInt64) : List UInt8 :=
  [v.toUInt8, (v >>> 8).toUInt8, (v >>> 16).toUInt8, (v >>> 24).toUInt8,
    (v >>> 32).toUInt8, (v >>> 40).toUInt8, (v >>> 48).toUInt8, (v >>> 56).toUInt8]

/-! ## State -/

/-- Five lanes of 26 bits. -/
structure Lanes where
  l0 : UInt64
  l1 : UInt64
  l2 : UInt64
  l3 : UInt64
  l4 : UInt64
  deriving DecidableEq, Repr

/-- `owc_p1305_t`.  `block` holds the first `blocklen` bytes of the buffer, which
is never left full. -/
structure P1305 where
  h : Lanes
  r : Lanes
  s0 : UInt64
  s1 : UInt64
  s2 : UInt64
  s3 : UInt64
  pad0 : UInt64
  pad1 : UInt64
  block : List UInt8
  room : block.length < 16

/-- `OWC_P26M`. -/
def p26m : UInt64 := 0x3FFFFFF

/-- Two words cut into lanes. -/
def splitLanes (w0 w1 : UInt64) : Lanes where
  l0 := w0 &&& p26m
  l1 := (w0 >>> 26) &&& p26m
  l2 := (w0 >>> 52) ||| ((w1 &&& 0x3FFF) <<< 12)
  l3 := (w1 >>> 14) &&& p26m
  l4 := (w1 >>> 40) &&& p26m

/-- `owc_p1305_init`. -/
def p1305Init (key : List UInt8) : P1305 :=
  let r0 := get64le key &&& 0x0FFFFFFC0FFFFFFF
  let r1 := get64le (key.drop 8) &&& 0x0FFFFFFC0FFFFFFC
  let r := splitLanes r0 r1
  { h := ⟨0, 0, 0, 0, 0⟩
    r := r
    s0 := r.l1 * 5, s1 := r.l2 * 5, s2 := r.l3 * 5, s3 := r.l4 * 5
    pad0 := get64le (key.drop 16)
    pad1 := get64le (key.drop 24)
    block := []
    room := by decide }

/-! ## Blocks -/

/-- A carry chain: each lane keeps its low 26 bits and passes the rest on.  The
second component is the carry out of the last lane. -/
def carryLanes (d : Lanes) : Lanes × UInt64 :=
  let d1 := d.l1 + (d.l0 >>> 26)
  let d2 := d.l2 + (d1 >>> 26)
  let d3 := d.l3 + (d2 >>> 26)
  let d4 := d.l4 + (d3 >>> 26)
  (⟨d.l0 &&& p26m, d1 &&& p26m, d2 &&& p26m, d3 &&& p26m, d4 &&& p26m⟩, d4 >>> 26)

/-- The lanes `d0` to `d4` of `owc_p1305_mul`. -/
def mulLanes (c : P1305) : Lanes :=
  let h := c.h
  let r := c.r
  { l0 := h.l0 * r.l0 + h.l1 * c.s3 + h.l2 * c.s2 + h.l3 * c.s1 + h.l4 * c.s0
    l1 := h.l0 * r.l1 + h.l1 * r.l0 + h.l2 * c.s3 + h.l3 * c.s2 + h.l4 * c.s1
    l2 := h.l0 * r.l2 + h.l1 * r.l1 + h.l2 * r.l0 + h.l3 * c.s3 + h.l4 * c.s2
    l3 := h.l0 * r.l3 + h.l1 * r.l2 + h.l2 * r.l1 + h.l3 * r.l0 + h.l4 * c.s3
    l4 := h.l0 * r.l4 + h.l1 * r.l3 + h.l2 * r.l2 + h.l3 * r.l1 + h.l4 * r.l0 }

/-- `owc_p1305_mul`. -/
def p1305Mul (c : P1305) : P1305 :=
  let (h, c1) := carryLanes (mulLanes c)
  -- the carry of the second chain is dropped
  let (h, _) := carryLanes { h with l0 := h.l0 + c1 * 5 }
  { c with h := h }

/-- The loop of `owc_p1305_block` that brings a carry back into the lanes from
the second on.  It ends with the carry. -/
def rippleLanes (h : Lanes) (carry : UInt64) : Lanes :=
  if carry = 0 then h
  else
    let h1 := h.l1 + carry
    let h := { h with l1 := h1 &&& p26m }
    if h1 >>> 26 = 0 then h
    else
      let h2 := h.l2 + (h1 >>> 26)
      let h := { h with l2 := h2 &&& p26m }
      if h2 >>> 26 = 0 then h
      else
        let h3 := h.l3 + (h2 >>> 26)
        let h := { h with l3 := h3 &&& p26m }
        if h3 >>> 26 = 0 then h
        else { h with l4 := (h.l4 + (h3 >>> 26)) &&& p26m }

/-- The lanes of a block of `tlen` bytes, with the bit behind it set. -/
def blockLanes (blk : List UInt8) (tlen : Nat) : Lanes :=
  let m0 := get64le blk
  let m1 := get64le (blk.drop 8)
  let m0 := if tlen < 8 then m0 ||| ((1 : UInt64) <<< UInt64.ofNat (8 * tlen)) else m0
  let m1 := if 8 ≤ tlen ∧ tlen < 16 then m1 ||| ((1 : UInt64) <<< UInt64.ofNat (8 * (tlen - 8)))
    else m1
  let md := splitLanes m0 m1
  if tlen = 16 then { md with l4 := md.l4 ||| ((1 : UInt64) <<< 24) } else md

/-- Add a block to the accumulator. -/
def addLanes (h md : Lanes) : Lanes :=
  let (h, carry) := carryLanes
    ⟨h.l0 + md.l0, h.l1 + md.l1, h.l2 + md.l2, h.l3 + md.l3, h.l4 + md.l4⟩
  if carry ≠ 0 then
    let h0 := h.l0 + carry * 5
    rippleLanes { h with l0 := h0 &&& p26m } (h0 >>> 26)
  else h

/-- `owc_p1305_block`. -/
def p1305Block (c : P1305) (blk : List UInt8) (tlen : Nat) : P1305 :=
  p1305Mul { c with h := addLanes c.h (blockLanes blk tlen) }

/-! ## Streams -/

/-- The loop of `owc_p1305_update`.  The count bounds its turns, each of which
takes at least a byte. -/
def p1305UpdateLoop : Nat → P1305 → List UInt8 → P1305
  | 0, c, _ => c
  | n + 1, c, data =>
    if data = [] then c
    else
      let take := min data.length (16 - c.block.length)
      let block := c.block ++ data.take take
      if hfull : block.length = 16 then
        let c := p1305Block { c with block := [], room := by decide } block 16
        p1305UpdateLoop n c (data.drop take)
      else
        have hroom : block.length < 16 := by
          have hlen : block.length ≤ c.block.length + take := by simp [block, take]
          have hc := c.room
          omega
        p1305UpdateLoop n { c with block := block, room := hroom } (data.drop take)

/-- `owc_p1305_update`. -/
def p1305Update (c : P1305) (data : List UInt8) : P1305 := p1305UpdateLoop data.length c data

/-- The comparisons of the conditional subtraction, with the lanes it selects. -/
def subtractP (h : Lanes) : Lanes :=
  let g0 := h.l0 + 5
  let borrow : UInt64 := if g0 < h.l0 then 1 else 0
  let g1 := h.l1 + borrow
  let borrow : UInt64 := if g1 < borrow then 1 else 0
  let g2 := h.l2 + borrow
  let borrow : UInt64 := if g2 < borrow then 1 else 0
  let g3 := h.l3 + borrow
  let borrow : UInt64 := if g3 < borrow then 1 else 0
  let g4 := h.l4 + borrow
  let borrow : UInt64 := if g4 < borrow then 1 else 0
  if borrow ≠ 0 then ⟨g0, g1, g2, g3, g4⟩ else h

def tagLanes (h : Lanes) (pad0 pad1 : UInt64) : List UInt8 :=
  let e0 := h.l0 ||| (h.l1 <<< 26) ||| ((h.l2 &&& 0xFFF) <<< 52)
  let e1 := (h.l2 >>> 12) ||| (h.l3 <<< 14) ||| ((h.l4 &&& 0xFFFF) <<< 40)
    ||| ((h.l4 >>> 16) <<< 56)
  let s := e0 + pad0
  let hi := e1 + pad1 + (if s < e0 then 1 else 0)
  put64le s ++ put64le hi

/-- `owc_p1305_final`. -/
def p1305Final (c : P1305) : List UInt8 :=
  let c :=
    if c.block.length ≠ 0 then
      p1305Block c (c.block ++ List.replicate (16 - c.block.length) 0) c.block.length
    else c
  tagLanes (subtractP c.h) c.pad0 c.pad1

/-- The tag of a message that is passed to `owc_p1305_update` in pieces. -/
def p1305Tag (key : List UInt8) (pieces : List (List UInt8)) : List UInt8 :=
  p1305Final (pieces.foldl p1305Update (p1305Init key))

/-- `owcrypt_poly1305`. -/
def owcryptPoly1305 (key msg : List UInt8) : List UInt8 :=
  p1305Final (p1305Update (p1305Init key) msg)

end Crypto
