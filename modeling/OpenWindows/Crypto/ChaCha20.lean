import OpenWindows.Crypto.Poly1305
import OpenWindows.Lib.Stream

/-!
# ChaCha20 of `owcrypt`

A block of the key stream is made from the key, the nonce and a counter of 32
bits.  `owcrypt_chacha20_xor` combines data with the blocks from a counter on,
and the counter wraps around.
-/

namespace Crypto

open Stream

def byteAt (p : List UInt8) (i : Nat) : UInt8 := p.getD i 0

/-- `owc_get32le`. -/
def get32le (p : List UInt8) : UInt32 :=
  (byteAt p 0).toUInt32 ||| ((byteAt p 1).toUInt32 <<< 8) ||| ((byteAt p 2).toUInt32 <<< 16)
    ||| ((byteAt p 3).toUInt32 <<< 24)

/-- `owc_put32le`. -/
def put32le (v : UInt32) : List UInt8 :=
  [v.toUInt8, (v >>> 8).toUInt8, (v >>> 16).toUInt8, (v >>> 24).toUInt8]

/-- `owc_rotl32`. -/
def rotl32 (x n : UInt32) : UInt32 := (x <<< n) ||| (x >>> (32 - n))

/-- `owc_qr` on four words of the state. -/
def quarterRound (x : List UInt32) (ia ib ic id : Nat) : List UInt32 :=
  let a := x.getD ia 0
  let b := x.getD ib 0
  let c := x.getD ic 0
  let d := x.getD id 0
  let a := a + b
  let d := rotl32 (d ^^^ a) 16
  let c := c + d
  let b := rotl32 (b ^^^ c) 12
  let a := a + b
  let d := rotl32 (d ^^^ a) 8
  let c := c + d
  let b := rotl32 (b ^^^ c) 7
  (((x.set ia a).set ib b).set ic c).set id d

/-- One turn of the loop of `owc_chacha_block`: four columns, then four
diagonals. -/
def doubleRound (x : List UInt32) : List UInt32 :=
  let x := quarterRound x 0 4 8 12
  let x := quarterRound x 1 5 9 13
  let x := quarterRound x 2 6 10 14
  let x := quarterRound x 3 7 11 15
  let x := quarterRound x 0 5 10 15
  let x := quarterRound x 1 6 11 12
  let x := quarterRound x 2 7 8 13
  quarterRound x 3 4 9 14

/-- The first state of `owc_chacha_block`. -/
def chachaState (key nonce : List UInt8) (counter : UInt32) : List UInt32 :=
  [0x61707865, 0x3320646e, 0x79622d32, 0x6b206574] ++
    (List.range 8).map (fun i => get32le (key.drop (4 * i))) ++ [counter] ++
    (List.range 3).map (fun i => get32le (nonce.drop (4 * i)))

/-- `owc_chacha_block`. -/
def chachaBlock (key nonce : List UInt8) (counter : UInt32) : List UInt8 :=
  let s := chachaState key nonce counter
  let x := doubleRound^[10] s
  (List.range 16).flatMap fun i => put32le (x.getD i 0 + s.getD i 0)

/-- `owcrypt_chacha20_xor`.  Each turn of its loop takes up to 64 bytes. -/
def chacha20Xor (key nonce : List UInt8) (counter : UInt32) (data : List UInt8) : List UInt8 :=
  crypt 64 (chachaBlock key nonce) (· + 1) data.length counter data

@[simp] theorem length_chachaBlock (key nonce : List UInt8) (counter : UInt32) :
    (chachaBlock key nonce counter).length = 64 := by
  simp only [chachaBlock, put32le, List.length_flatMap, List.length_cons, List.length_nil]
  rfl

theorem chacha20Xor_chacha20Xor (key nonce : List UInt8) (counter : UInt32) (data : List UInt8) :
    chacha20Xor key nonce counter (chacha20Xor key nonce counter data) = data := by
  have hn : data.length ≤ data.length * 64 := by omega
  have hlen : (chacha20Xor key nonce counter data).length = data.length :=
    length_crypt (length_chachaBlock key nonce) hn
  rw [chacha20Xor, hlen]
  exact crypt_crypt (length_chachaBlock key nonce) hn

@[simp] theorem length_chacha20Xor (key nonce : List UInt8) (counter : UInt32)
    (data : List UInt8) : (chacha20Xor key nonce counter data).length = data.length :=
  length_crypt (length_chachaBlock key nonce) (by omega)

/-- `owc_aead_mac`. -/
def aeadMac (key nonce aad ct : List UInt8) : List UInt8 :=
  let polykey := chachaBlock key nonce 0
  let pa := (16 - aad.length % 16) % 16
  let pc := (16 - ct.length % 16) % 16
  p1305Tag polykey
    [aad, List.replicate pa 0, ct, List.replicate pc 0,
      put64le (UInt64.ofNat aad.length) ++ put64le (UInt64.ofNat ct.length)]

end Crypto
