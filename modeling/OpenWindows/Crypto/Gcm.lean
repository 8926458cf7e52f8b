import OpenWindows.Crypto.Aes

/-!
# GCM of `owcrypt`

GHASH multiplies in `GF(2 ^ 128)` bit by bit, and the data is combined with the
encryptions of a counter block whose last 32 bits go up with every block.  Full
blocks are combined in place, and the rest is padded with zeros first.
-/

namespace Crypto

open Stream Words

/-! ## GHASH -/

/-- `owc_gh_t`. -/
structure Gh where
  hi : UInt64
  lo : UInt64
  deriving DecidableEq

/-- `owc_gh_load`. -/
def ghLoad (b : List UInt8) : Gh := ⟨get64 b, get64 (b.drop 8)⟩

/-- `owc_gh_store`. -/
def ghStore (g : Gh) : List UInt8 := put64 g.hi ++ put64 g.lo

/-- The vector `v` of `owc_gh_mul` moved right by a bit, and reduced. -/
def ghShift (v : List UInt8) : List UInt8 :=
  let lsb := byteAt v 15 &&& 1
  let w := (List.range 16).map fun j =>
    if j = 0 then byteAt v 0 >>> 1 else (byteAt v j >>> 1) ||| (byteAt v (j - 1) <<< 7)
  if lsb ≠ 0 then w.set 0 (byteAt w 0 ^^^ 0xE1) else w

/-- One turn of the loop of `owc_gh_mul` on `z` and `v`. -/
def ghMulTurn (xb : List UInt8) (t : List UInt8 × List UInt8) (i : Nat) :
    List UInt8 × List UInt8 :=
  let (z, v) := t
  let z := if byteAt xb (i / 8) &&& ((0x80 : UInt8) >>> UInt8.ofNat (i % 8)) ≠ 0 then xorBytes z v else z
  (z, ghShift v)

/-- `owc_gh_mul`. -/
def ghMul (x y : Gh) : Gh :=
  ghLoad ((List.range 128).foldl (ghMulTurn (ghStore x)) (List.replicate 16 0, ghStore y)).1

/-- `owc_gh_step`. -/
def ghStep (h s : Gh) (blk : List UInt8) : Gh :=
  let t := ghLoad blk
  ghMul ⟨s.hi ^^^ t.hi, s.lo ^^^ t.lo⟩ h

/-- The last bytes of a message that fill no block, padded with zeros. -/
def padBlock (data : List UInt8) : List UInt8 :=
  (List.range 16).map fun i =>
    if i < data.length % 16 then byteAt data (data.length - data.length % 16 + i) else 0

/-- The blocks of a message in `owc_ghash`. -/
def ghBlocks (h s : Gh) (data : List UInt8) : Gh :=
  let s := (List.range (data.length / 16)).foldl (fun s q => ghStep h s (data.drop (16 * q))) s
  if data.length % 16 ≠ 0 then ghStep h s (padBlock data) else s

/-- `owc_ghash`. -/
def ghash (h aad ct : List UInt8) : Gh :=
  let hh := ghLoad h
  let s := ghBlocks hh ⟨0, 0⟩ aad
  let s := ghBlocks hh s ct
  ghStep hh s (put64 (UInt64.ofNat aad.length * 8) ++ put64 (UInt64.ofNat ct.length * 8))

/-! ## The counter -/

/-- `owc_gcm_inc32`. -/
def gcmInc32 (j0 : List UInt8) : List UInt8 := j0.take 12 ++ put32 (get32 (j0.drop 12) + 1)

/-- The key block that follows a counter. -/
def gcmBlock (m : Module) (rk : List UInt8) (nr : Nat) (ctr : List UInt8) : List UInt8 :=
  aesEncryptBlock m rk (gcmInc32 ctr) nr

/-- `owc_gcm_keystream`, with the counter behind it. -/
def gcmKeystream (m : Module) (rk : List UInt8) (nr : Nat) (inblk ctr : List UInt8) :
    List UInt8 × List UInt8 :=
  ((List.range 16).map fun i => byteAt (gcmBlock m rk nr ctr) i ^^^ byteAt inblk i, gcmInc32 ctr)

/-- The loop over the full blocks of the data, with the counter behind it. -/
def gcmFull (m : Module) (rk : List UInt8) (nr : Nat) :
    Nat → List UInt8 → List UInt8 → List UInt8 × List UInt8
  | 0, _, ctr => ([], ctr)
  | q + 1, data, ctr =>
    let (out, ctr) := gcmKeystream m rk nr data ctr
    let (outs, ctr) := gcmFull m rk nr q (data.drop 16) ctr
    (out ++ outs, ctr)

/-- What `owcrypt_aes_gcm_seal` and `owcrypt_aes_gcm_open` do with the data: the
full blocks, and then the rest. -/
def gcmCtr (m : Module) (rk : List UInt8) (nr : Nat) (ctr data : List UInt8) : List UInt8 :=
  let (out, ctr) := gcmFull m rk nr (data.length / 16) data ctr
  if data.length % 16 ≠ 0 then
    out ++ (gcmKeystream m rk nr (padBlock data) ctr).1.take (data.length % 16)
  else out

/-! ## The stream -/

variable (m : Module) (rk : List UInt8) (nr : Nat)

theorem length_gcmBlock (ctr : List UInt8) : (gcmBlock m rk nr ctr).length = 16 :=
  length_aesEncryptBlock ..

theorem map_byteAt (p : List UInt8) (n : Nat) (h : n ≤ p.length) :
    (List.range n).map (byteAt p) = p.take n := by
  apply List.ext_getElem
  · simp [h]
  · intro i hi hi'
    have hlt : i < p.length := by
      rw [List.length_map, List.length_range] at hi
      omega
    simp [byteAt, hlt]

theorem map_xorBytes (as bs : List UInt8) (n : Nat) (ha : n ≤ as.length) (hb : n ≤ bs.length) :
    ((List.range n).map fun i => byteAt as i ^^^ byteAt bs i) = xorBytes (as.take n) (bs.take n) := by
  rw [← map_byteAt as n ha, ← map_byteAt bs n hb, xorBytes, List.zipWith_map]
  simp [List.zipWith_self]

theorem gcmKeystream_full {inblk : List UInt8} (ctr : List UInt8) (h : 16 ≤ inblk.length) :
    (gcmKeystream m rk nr inblk ctr).1 = xorBytes (inblk.take 16) (gcmBlock m rk nr ctr) := by
  have hlen := length_gcmBlock m rk nr ctr
  show ((List.range 16).map fun i => byteAt (gcmBlock m rk nr ctr) i ^^^ byteAt inblk i) = _
  rw [map_xorBytes _ _ 16 (by omega) h, List.take_of_length_le (by omega), xorBytes_comm]

theorem padBlock_eq (data : List UInt8) :
    padBlock data = data.drop (16 * (data.length / 16)) ++ List.replicate (16 - data.length % 16) 0 := by
  have hlen : (data.drop (16 * (data.length / 16))).length = data.length % 16 := by
    rw [List.length_drop]
    omega
  apply List.ext_getElem
  · simp only [padBlock, List.length_map, List.length_range, List.length_append, hlen,
      List.length_replicate]
    omega
  · intro i hi hi'
    simp only [padBlock, List.getElem_map, List.getElem_range]
    split
    next hrem =>
      rw [List.getElem_append_left (by omega), List.getElem_drop]
      have hoff : data.length - data.length % 16 + i = 16 * (data.length / 16) + i := by omega
      have hlt : 16 * (data.length / 16) + i < data.length := by omega
      simp [byteAt, hoff, hlt]
    next hrem => rw [List.getElem_append_right (by omega), List.getElem_replicate]

theorem gcmKeystream_rest {data : List UInt8} (ctr : List UInt8) (h : data.length < 16) :
    (gcmKeystream m rk nr (padBlock data) ctr).1.take (data.length % 16) =
      xorBytes data (gcmBlock m rk nr ctr) := by
  have hlen : (padBlock data).length = 16 := by simp [padBlock]
  have hpad : padBlock data = data ++ List.replicate (16 - data.length % 16) 0 := by
    rw [padBlock_eq, Nat.div_eq_of_lt h, Nat.mul_zero, List.drop_zero]
  have htake : (padBlock data).take 16 = padBlock data := List.take_of_length_le (by omega)
  rw [gcmKeystream_full m rk nr ctr (by omega), htake, hpad, Nat.mod_eq_of_lt h,
    xorBytes_append_left]

theorem padBlock_drop {data : List UInt8} (h : 16 ≤ data.length) :
    padBlock (data.drop 16) = padBlock data := by
  have hq : 16 + 16 * ((data.length - 16) / 16) = 16 * (data.length / 16) := by omega
  have hrem : (data.length - 16) % 16 = data.length % 16 := by omega
  rw [padBlock_eq, padBlock_eq, List.drop_drop, List.length_drop, hq, hrem]

theorem gcmCtr_eq (ctr data : List UInt8) :
    gcmCtr m rk nr ctr data =
      crypt 16 (gcmBlock m rk nr) gcmInc32 (data.length / 16 + 1) ctr data := by
  unfold gcmCtr
  dsimp only
  induction hq : data.length / 16 generalizing data ctr with
  | zero =>
    have hlt : data.length < 16 := by omega
    simp only [gcmFull, List.nil_append, crypt]
    split
    next hrem =>
      have hne : data ≠ [] := by
        rintro rfl
        exact hrem rfl
      rw [if_neg hne, gcmKeystream_rest m rk nr ctr hlt, List.take_of_length_le (by omega),
        List.append_nil]
    next hrem =>
      have hnil : data = [] := List.length_eq_zero_iff.mp (by omega)
      rw [if_pos hnil]
  | succ q ih =>
    have hge : 16 ≤ data.length := by omega
    have hne : data ≠ [] := by
      rintro rfl
      cases hge
    have hrest := ih (gcmInc32 ctr) (data.drop 16) (by rw [List.length_drop]; omega)
    have hrem : (data.length - 16) % 16 = data.length % 16 := by omega
    rw [padBlock_drop hge, List.length_drop, hrem] at hrest
    rw [crypt, if_neg hne, ← hrest, ← gcmKeystream_full m rk nr ctr hge]
    simp only [gcmFull]
    split
    · rw [List.append_assoc]; rfl
    · rfl

theorem length_gcmCtr (ctr data : List UInt8) : (gcmCtr m rk nr ctr data).length = data.length := by
  rw [gcmCtr_eq]
  exact length_crypt (length_gcmBlock m rk nr) (by omega)

theorem gcmCtr_gcmCtr (ctr data : List UInt8) :
    gcmCtr m rk nr ctr (gcmCtr m rk nr ctr data) = data := by
  rw [gcmCtr_eq, length_gcmCtr, gcmCtr_eq]
  exact crypt_crypt (length_gcmBlock m rk nr) (by omega)

end Crypto
