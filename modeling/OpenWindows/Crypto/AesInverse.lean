import OpenWindows.Crypto.Aead

/-!
# Decryption of AES

`owc_aes_decrypt_block` takes the rounds of `owc_aes_encrypt_block` back from the
last to the first.  Each layer of a round is a permutation of the blocks: the
S-boxes undo each other, the rows are shifted back, the columns are multiplied by
the inverse matrix and a round key cancels itself.  So is their composition, and
decryption is its inverse.
-/

namespace Crypto

/-! ## Blocks backwards -/

/-- InvShiftRows: row `r` moves right by `r` columns. -/
def invShift (s : List UInt8) : List UInt8 :=
  (List.range 16).map fun i => byteAt s (4 * ((i / 4 + 4 - i % 4) % 4) + i % 4)

def invMixColumns (t : List UInt8) : List UInt8 :=
  (List.range 4).flatMap fun c =>
    let a0 := byteAt t (4 * c)
    let a1 := byteAt t (4 * c + 1)
    let a2 := byteAt t (4 * c + 2)
    let a3 := byteAt t (4 * c + 3)
    [gmul a0 14 ^^^ gmul a1 11 ^^^ gmul a2 13 ^^^ gmul a3 9,
      gmul a0 9 ^^^ gmul a1 14 ^^^ gmul a2 11 ^^^ gmul a3 13,
      gmul a0 13 ^^^ gmul a1 9 ^^^ gmul a2 14 ^^^ gmul a3 11,
      gmul a0 11 ^^^ gmul a1 13 ^^^ gmul a2 9 ^^^ gmul a3 14]

/-- One turn of the loop of `owc_aes_decrypt_block`. -/
def decryptTurn (m : AesModule) (rk s : List UInt8) (r : Nat) : List UInt8 :=
  invMixColumns (addRoundKey rk (invShift (s.map m.invSub)) (r - 1))

/-- `owc_aes_decrypt_block`.  The loop counts down from `nr` to 2. -/
def aesDecryptBlock (m : AesModule) (rk input : List UInt8) (nr : Nat) : List UInt8 :=
  let s := addRoundKey rk input nr
  let s := (List.range' 2 (nr - 1)).reverse.foldl (decryptTurn m rk) s
  addRoundKey rk ((invShift s).map m.invSub) 0

/-- `owcrypt_aes_ecb_encrypt`, with the output it leaves. -/
def aesEcbEncrypt (m : AesModule) (key : Ptr) (keybits : Nat) (pt ct : Ptr) : Status × Ptr :=
  if !m.initialized then (.errUninitialized, ct)
  else
    match key, pt, ct with
    | some key, some pt, some ct =>
      if keybits ≠ 128 ∧ keybits ≠ 256 then (.errBadArg, some ct)
      else
        let rk := aesExpand m.toModule key keybits
        (.ok, some (overlay ct (aesEncryptBlock m.toModule rk pt (rounds keybits))))
    | _, _, _ => (.errBadArg, ct)

/-- `owcrypt_aes_ecb_decrypt`, with the output it leaves. -/
def aesEcbDecrypt (m : AesModule) (key : Ptr) (keybits : Nat) (ct pt : Ptr) : Status × Ptr :=
  if !m.initialized then (.errUninitialized, pt)
  else
    match key, ct, pt with
    | some key, some ct, some pt =>
      if keybits ≠ 128 ∧ keybits ≠ 256 then (.errBadArg, some pt)
      else
        let rk := aesExpand m.toModule key keybits
        (.ok, some (overlay pt (aesDecryptBlock m rk ct (rounds keybits))))
    | _, _, _ => (.errBadArg, pt)

/-! ## Doubling

`owc_gmul` adds up the doubles of its first operand for the bits of the second. -/

/-- The double of a byte, as a turn of `owc_gmul` leaves it. -/
def xtime (a : UInt8) : UInt8 := (gmulTurn (0, a, 0)).2.1

theorem xtime_eq (a : UInt8) : xtime a = (a <<< 1) ^^^ (if a &&& 0x80 ≠ 0 then 0x1B else 0) := by
  unfold xtime gmulTurn
  dsimp only
  split
  · rfl
  · rw [UInt8.xor_zero]

set_option maxRecDepth 8000 in
theorem and_high (a : UInt8) : a &&& 0x80 = 0 ∨ a &&& 0x80 = 0x80 := by
  have hall : ∀ n < 256, UInt8.ofNat n &&& 0x80 = 0 ∨ UInt8.ofNat n &&& 0x80 = 0x80 := by
    decide
  have ha := hall a.toNat a.toNat_lt
  rwa [UInt8.ofNat_toNat] at ha

theorem xor_and_high (a b : UInt8) : (a ^^^ b) &&& 0x80 = (a &&& 0x80) ^^^ (b &&& 0x80) := by
  apply UInt8.toBitVec_inj.mp
  ext i hi
  simp [Bool.and_xor_distrib_right]

theorem xtime_xor (a b : UInt8) : xtime (a ^^^ b) = xtime a ^^^ xtime b := by
  have hreduce : (if (a &&& 0x80) ^^^ (b &&& 0x80) ≠ 0 then (0x1B : UInt8) else 0) =
      (if a &&& 0x80 ≠ 0 then 0x1B else 0) ^^^ (if b &&& 0x80 ≠ 0 then 0x1B else 0) := by
    rcases and_high a with ha | ha <;> rcases and_high b with hb | hb <;> rw [ha, hb] <;> rfl
  rw [xtime_eq, xtime_eq, xtime_eq, xor_and_high, UInt8.shiftLeft_xor, hreduce]
  ac_rfl

/-- The low bits of a byte, the lowest first. -/
def lowBits : Nat → UInt8 → List Bool
  | 0, _ => []
  | n + 1, b => (b &&& 1 != 0) :: lowBits n (b >>> 1)

def sumDoubles : List Bool → UInt8 → UInt8 → UInt8
  | [], p, _ => p
  | bit :: bits, p, a => sumDoubles bits (if bit then p ^^^ a else p) (xtime a)

theorem gmulTurn_iterate (n : Nat) (p a b : UInt8) :
    (gmulTurn^[n] (p, a, b)).1 = sumDoubles (lowBits n b) p a := by
  induction n generalizing p a b with
  | zero => rfl
  | succ n ih =>
    have hturn : gmulTurn (p, a, b) =
        (if b &&& 1 != 0 then p ^^^ a else p, xtime a, b >>> 1) := by
      simp only [bne_iff_ne]
      rfl
    rw [Function.iterate_succ_apply, hturn, ih]
    rfl

theorem gmul_eq {b : UInt8} {bits : List Bool} (h : lowBits 8 b = bits) (a : UInt8) :
    gmul a b = sumDoubles bits 0 a := by
  rw [gmul, gmulTurn_iterate, h]

/-! ## Columns

Both matrices are circulant, so one entry of a product shows all four. -/

/-- An entry of a column of MixColumns, from the entry above on. -/
def mixByte (a b c d : UInt8) : UInt8 := gmul a 2 ^^^ gmul b 3 ^^^ c ^^^ d

/-- An entry of a column of InvMixColumns. -/
def invMixByte (a b c d : UInt8) : UInt8 := gmul a 14 ^^^ gmul b 11 ^^^ gmul c 13 ^^^ gmul d 9

theorem xor_left_comm (a b c : UInt8) : a ^^^ (b ^^^ c) = b ^^^ (a ^^^ c) := by
  ac_rfl

theorem xor_cancel_left (a b : UInt8) : a ^^^ (a ^^^ b) = b := by
  rw [← UInt8.xor_assoc, UInt8.xor_self, UInt8.zero_xor]

theorem mixByte_eq (a b c d : UInt8) : mixByte a b c d = b ^^^ c ^^^ d ^^^ xtime (a ^^^ b) := by
  have h2 : lowBits 8 2 = [false, true, false, false, false, false, false, false] := by decide
  have h3 : lowBits 8 3 = [true, true, false, false, false, false, false, false] := by decide
  rw [mixByte, gmul_eq h2, gmul_eq h3, xtime_xor]
  simp only [sumDoubles, UInt8.zero_xor, if_true, if_false, Bool.false_eq_true]
  ac_rfl

theorem invMixByte_eq (a b c d : UInt8) :
    invMixByte a b c d =
      b ^^^ c ^^^ d ^^^ xtime (a ^^^ b ^^^ xtime (a ^^^ c ^^^ xtime (a ^^^ b ^^^ c ^^^ d))) := by
  have h14 : lowBits 8 14 = [false, true, true, true, false, false, false, false] := by decide
  have h11 : lowBits 8 11 = [true, true, false, true, false, false, false, false] := by decide
  have h13 : lowBits 8 13 = [true, false, true, true, false, false, false, false] := by decide
  have h9 : lowBits 8 9 = [true, false, false, true, false, false, false, false] := by decide
  rw [invMixByte, gmul_eq h14, gmul_eq h11, gmul_eq h13, gmul_eq h9]
  simp only [sumDoubles, UInt8.zero_xor, if_true, if_false, Bool.false_eq_true, xtime_xor]
  ac_rfl

/-- An entry of the square of the matrix of MixColumns. -/
def squareByte (a c : UInt8) : UInt8 := a ^^^ xtime (xtime (a ^^^ c))

theorem squareByte_squareByte (a c : UInt8) :
    squareByte (squareByte a c) (squareByte c a) = a := by
  have hsum : squareByte a c ^^^ squareByte c a = a ^^^ c := by
    rw [squareByte, squareByte, UInt8.xor_comm c a]
    simp only [UInt8.xor_assoc, UInt8.xor_comm c, xor_cancel_left]
  rw [squareByte, hsum, squareByte, UInt8.xor_assoc, UInt8.xor_self, UInt8.xor_zero]

theorem mixByte_xor_next (a b c d : UInt8) :
    mixByte a b c d ^^^ mixByte b c d a = a ^^^ b ^^^ xtime (a ^^^ c) := by
  simp only [mixByte_eq, xtime_xor, UInt8.xor_comm, xor_left_comm, xor_cancel_left]

theorem mixByte_xor_rest (a b c d : UInt8) :
    mixByte b c d a ^^^ mixByte c d a b ^^^ mixByte d a b c = a ^^^ xtime (a ^^^ b) := by
  simp only [mixByte_eq, xtime_xor, UInt8.xor_comm, xor_left_comm, xor_cancel_left,
    UInt8.xor_self, UInt8.xor_zero]

theorem mixByte_mixByte (a b c d : UInt8) :
    mixByte (mixByte a b c d) (mixByte b c d a) (mixByte c d a b) (mixByte d a b c) =
      squareByte a c := by
  rw [mixByte_eq (mixByte a b c d), mixByte_xor_rest, mixByte_xor_next, xtime_xor (a ^^^ b),
    squareByte, UInt8.xor_assoc, xor_cancel_left]

theorem mixByte_squareByte (a b c d : UInt8) :
    mixByte (squareByte a c) (squareByte b d) (squareByte c a) (squareByte d b) =
      squareByte (mixByte a b c d) (mixByte c d a b) := by
  simp only [squareByte, mixByte_eq, xtime_xor, UInt8.xor_comm, xor_left_comm, xor_cancel_left]

theorem invMixByte_eq_cube (a b c d : UInt8) :
    invMixByte a b c d =
      mixByte (squareByte a c) (squareByte b d) (squareByte c a) (squareByte d b) := by
  simp only [squareByte, mixByte_eq, invMixByte_eq, xtime_xor, UInt8.xor_comm, xor_left_comm,
    xor_cancel_left]

theorem mixByte_invMixByte (a b c d : UInt8) :
    mixByte (invMixByte a b c d) (invMixByte b c d a) (invMixByte c d a b) (invMixByte d a b c) =
      a := by
  rw [invMixByte_eq_cube, invMixByte_eq_cube, invMixByte_eq_cube, invMixByte_eq_cube,
    mixByte_mixByte, squareByte_squareByte]

theorem invMixByte_mixByte (a b c d : UInt8) :
    invMixByte (mixByte a b c d) (mixByte b c d a) (mixByte c d a b) (mixByte d a b c) = a := by
  rw [invMixByte_eq_cube, mixByte_squareByte, mixByte_mixByte, mixByte_mixByte,
    squareByte_squareByte]

/-! ## Layers

Each layer of a round is a permutation of the blocks. -/

abbrev Block := { s : List UInt8 // s.length = 16 }

theorem byteAt_map_range {n i : Nat} (f : Nat → UInt8) (hi : i < n) :
    byteAt ((List.range n).map f) i = f i := by
  apply byteAt_of_getElem?
  rw [List.getElem?_map, List.getElem?_range hi]
  rfl

theorem Block.ext_byteAt {s t : List UInt8} (hs : s.length = 16) (ht : t.length = 16)
    (h : ∀ i < 16, byteAt s i = byteAt t i) : s = t := by
  rw [← List.take_of_length_le (Nat.le_of_eq hs), ← List.take_of_length_le (Nat.le_of_eq ht),
    ← map_byteAt s 16 (Nat.le_of_eq hs.symm), ← map_byteAt t 16 (Nat.le_of_eq ht.symm)]
  exact List.map_congr_left fun i hi => h i (List.mem_range.mp hi)

@[simp] theorem length_addRoundKey (rk s : List UInt8) (r : Nat) :
    (addRoundKey rk s r).length = 16 := by
  simp [addRoundKey]

@[simp] theorem length_subShift (m : Module) (s : List UInt8) : (subShift m s).length = 16 := by
  simp [subShift]

@[simp] theorem length_invShift (s : List UInt8) : (invShift s).length = 16 := by
  simp [invShift]

@[simp] theorem length_mixColumns (s : List UInt8) : (mixColumns s).length = 16 := rfl

@[simp] theorem length_invMixColumns (s : List UInt8) : (invMixColumns s).length = 16 := rfl

variable {s : List UInt8} {i : Nat}

theorem addRoundKey_twice (rk : List UInt8) (r : Nat) (hs : s.length = 16) :
    addRoundKey rk (addRoundKey rk s r) r = s := by
  apply Block.ext_byteAt (length_addRoundKey ..) hs
  intro i hi
  rw [addRoundKey, byteAt_map_range _ hi, addRoundKey, byteAt_map_range _ hi, UInt8.xor_assoc,
    UInt8.xor_self, UInt8.xor_zero]

/-- The layer of the round key `r`. -/
def keyLayer (rk : List UInt8) (r : Nat) : Equiv.Perm Block where
  toFun s := ⟨addRoundKey rk s r, length_addRoundKey ..⟩
  invFun s := ⟨addRoundKey rk s r, length_addRoundKey ..⟩
  left_inv s := Subtype.ext (addRoundKey_twice rk r s.2)
  right_inv s := Subtype.ext (addRoundKey_twice rk r s.2)

/-- Every column is multiplied by a circulant matrix. -/
def circulate (entry : UInt8 → UInt8 → UInt8 → UInt8 → UInt8) (t : List UInt8) : List UInt8 :=
  (List.range 4).flatMap fun c =>
    let a0 := byteAt t (4 * c)
    let a1 := byteAt t (4 * c + 1)
    let a2 := byteAt t (4 * c + 2)
    let a3 := byteAt t (4 * c + 3)
    [entry a0 a1 a2 a3, entry a1 a2 a3 a0, entry a2 a3 a0 a1, entry a3 a0 a1 a2]

theorem mixColumns_eq (t : List UInt8) : mixColumns t = circulate mixByte t := by
  unfold mixColumns circulate mixByte
  apply List.flatMap_congr
  intro c _
  simp only [List.cons.injEq, and_true, true_and]
  refine ⟨?_, ?_, ?_⟩ <;> ac_rfl

theorem invMixColumns_eq (t : List UInt8) : invMixColumns t = circulate invMixByte t := by
  unfold invMixColumns circulate invMixByte
  apply List.flatMap_congr
  intro c _
  simp only [List.cons.injEq, and_true, true_and]
  refine ⟨?_, ?_, ?_⟩ <;> ac_rfl

theorem circulate_columns (e : UInt8 → UInt8 → UInt8 → UInt8 → UInt8)
    (a0 a1 a2 a3 b0 b1 b2 b3 c0 c1 c2 c3 d0 d1 d2 d3 : UInt8) :
    circulate e [a0, a1, a2, a3, b0, b1, b2, b3, c0, c1, c2, c3, d0, d1, d2, d3] =
      [e a0 a1 a2 a3, e a1 a2 a3 a0, e a2 a3 a0 a1, e a3 a0 a1 a2,
        e b0 b1 b2 b3, e b1 b2 b3 b0, e b2 b3 b0 b1, e b3 b0 b1 b2,
        e c0 c1 c2 c3, e c1 c2 c3 c0, e c2 c3 c0 c1, e c3 c0 c1 c2,
        e d0 d1 d2 d3, e d1 d2 d3 d0, e d2 d3 d0 d1, e d3 d0 d1 d2] := rfl

theorem circulate_circulate {entry back : UInt8 → UInt8 → UInt8 → UInt8 → UInt8}
    (hback : ∀ a b c d, back (entry a b c d) (entry b c d a) (entry c d a b) (entry d a b c) = a)
    (hs : s.length = 16) : circulate back (circulate entry s) = s := by
  match s, hs with
  | [a0, a1, a2, a3, b0, b1, b2, b3, c0, c1, c2, c3, d0, d1, d2, d3], _ =>
    rw [circulate_columns, circulate_columns]
    simp only [hback]

def mixLayer : Equiv.Perm Block where
  toFun s := ⟨mixColumns s, length_mixColumns _⟩
  invFun s := ⟨invMixColumns s, length_invMixColumns _⟩
  left_inv s := by
    apply Subtype.ext
    show invMixColumns (mixColumns s.1) = s.1
    rw [mixColumns_eq, invMixColumns_eq]
    exact circulate_circulate invMixByte_mixByte s.2
  right_inv s := by
    apply Subtype.ext
    show mixColumns (invMixColumns s.1) = s.1
    rw [mixColumns_eq, invMixColumns_eq]
    exact circulate_circulate mixByte_invMixByte s.2

theorem byteAt_map (f : UInt8 → UInt8) (hi : i < s.length) :
    byteAt (s.map f) i = f (byteAt s i) := by
  have hget := List.getElem?_eq_getElem hi
  rw [byteAt_of_getElem? hget]
  apply byteAt_of_getElem?
  rw [List.getElem?_map, hget]
  rfl

/-- Where ShiftRows finds the byte `i`. -/
def shiftIndex (i : Nat) : Nat := 4 * ((i / 4 + i % 4) % 4) + i % 4

/-- Where InvShiftRows finds it. -/
def unshiftIndex (i : Nat) : Nat := 4 * ((i / 4 + 4 - i % 4) % 4) + i % 4

theorem shiftIndex_unshiftIndex : ∀ i < 16, shiftIndex (unshiftIndex i) = i := by decide

theorem unshiftIndex_shiftIndex : ∀ i < 16, unshiftIndex (shiftIndex i) = i := by decide

theorem shiftIndex_lt : ∀ i < 16, shiftIndex i < 16 := by decide

theorem unshiftIndex_lt : ∀ i < 16, unshiftIndex i < 16 := by decide

theorem byteAt_subShift (m : Module) (s : List UInt8) (hi : i < 16) :
    byteAt (subShift m s) i = m.sub (byteAt s (shiftIndex i)) :=
  byteAt_map_range _ hi

theorem byteAt_invShift (s : List UInt8) (hi : i < 16) :
    byteAt (invShift s) i = byteAt s (unshiftIndex i) :=
  byteAt_map_range _ hi

theorem invShift_map (f : UInt8 → UInt8) (hs : s.length = 16) :
    invShift (s.map f) = (invShift s).map f := by
  apply Block.ext_byteAt (length_invShift _) (by rw [List.length_map, length_invShift])
  intro i hi
  have hindex : unshiftIndex i < s.length := by
    rw [hs]
    exact unshiftIndex_lt i hi
  rw [byteAt_invShift _ hi, byteAt_map f hindex, byteAt_map f (by rwa [length_invShift]),
    byteAt_invShift _ hi]

theorem invShift_subShift {m : AesModule} (h : m.Inverse) (hs : s.length = 16) :
    invShift ((subShift m.toModule s).map m.invSub) = s := by
  apply Block.ext_byteAt (length_invShift _) hs
  intro i hi
  have hindex := unshiftIndex_lt i hi
  rw [byteAt_invShift _ hi, byteAt_map _ (by rwa [length_subShift]), byteAt_subShift _ _ hindex,
    h.invSub_sub, shiftIndex_unshiftIndex i hi]

theorem subShift_invShift {m : AesModule} (h : m.Inverse) (hs : s.length = 16) :
    subShift m.toModule (invShift (s.map m.invSub)) = s := by
  apply Block.ext_byteAt (length_subShift ..) hs
  intro i hi
  rw [byteAt_subShift _ _ hi, byteAt_invShift _ (shiftIndex_lt i hi),
    unshiftIndex_shiftIndex i hi, byteAt_map _ (by rwa [hs]), h.sub_invSub]

def subShiftLayer (m : AesModule) (h : m.Inverse) : Equiv.Perm Block where
  toFun s := ⟨subShift m.toModule s, length_subShift ..⟩
  invFun s := ⟨invShift (s.1.map m.invSub), length_invShift _⟩
  left_inv s := Subtype.ext (invShift_subShift h s.2)
  right_inv s := Subtype.ext (subShift_invShift h s.2)

/-! ## The cipher

The rounds are a permutation of the blocks, and decryption computes its inverse. -/

section

variable (m : AesModule) (h : m.Inverse) (rk : List UInt8)

/-- The round `r`. -/
def roundPerm (r : Nat) : Equiv.Perm Block :=
  ((subShiftLayer m h).trans mixLayer).trans (keyLayer rk r)

/-- The first round key and `n` rounds. -/
def roundsPerm : Nat → Equiv.Perm Block
  | 0 => keyLayer rk 0
  | n + 1 => (roundsPerm n).trans (roundPerm m h rk (n + 1))

/-- AES with `nr` rounds, where the last one has no MixColumns. -/
def aesPerm (nr : Nat) : Equiv.Perm Block :=
  (roundsPerm m h rk (nr - 1)).trans ((subShiftLayer m h).trans (keyLayer rk nr))

theorem roundsPerm_eq (n : Nat) (s : Block) :
    (List.range' 1 n).foldl (fun s r => addRoundKey rk (mixColumns (subShift m.toModule s)) r)
      (addRoundKey rk s 0) = (roundsPerm m h rk n s).1 := by
  induction n with
  | zero => rfl
  | succ n ih =>
    rw [List.range'_1_concat, List.foldl_append, ih, Nat.add_comm 1 n]
    rfl

theorem aesEncryptBlock_eq (s : Block) (nr : Nat) :
    aesEncryptBlock m.toModule rk s nr = (aesPerm m h rk nr s).1 := by
  rw [aesEncryptBlock, roundsPerm_eq m h rk (nr - 1) s]
  rfl

theorem decryptTurns_eq (n : Nat) (s : Block) :
    addRoundKey rk (invShift (((List.range' 2 n).reverse.foldl (decryptTurn m rk) s.1).map
      m.invSub)) 0 = ((roundsPerm m h rk n).symm ((subShiftLayer m h).symm s)).1 := by
  induction n generalizing s with
  | zero => rfl
  | succ n ih =>
    have hturn : decryptTurn m rk s (2 + n) =
        (mixLayer.symm ((keyLayer rk (n + 1)).symm ((subShiftLayer m h).symm s))).1 := by
      rw [decryptTurn, show 2 + n - 1 = n + 1 by omega]
      rfl
    rw [List.range'_1_concat, List.reverse_append, List.reverse_singleton, List.singleton_append,
      List.foldl_cons, hturn, ih]
    rfl

theorem length_decryptTurns (n : Nat) {s : List UInt8} (hs : s.length = 16) :
    ((List.range' 2 n).reverse.foldl (decryptTurn m rk) s).length = 16 := by
  induction n generalizing s with
  | zero => exact hs
  | succ n ih =>
    rw [List.range'_1_concat, List.reverse_append, List.reverse_singleton, List.singleton_append,
      List.foldl_cons]
    exact ih (length_invMixColumns _)

theorem aesDecryptBlock_eq (s : Block) (nr : Nat) :
    aesDecryptBlock m rk s nr = ((aesPerm m h rk nr).symm s).1 := by
  have hlen : (addRoundKey rk s nr).length = 16 := length_addRoundKey ..
  rw [aesDecryptBlock, ← invShift_map _ (length_decryptTurns m rk (nr - 1) hlen)]
  exact decryptTurns_eq m h rk (nr - 1) (keyLayer rk nr s)

end

/-! ## Calls -/

theorem byteAt_append_left (t : List UInt8) (hi : i < s.length) :
    byteAt (s ++ t) i = byteAt s i := by
  rw [byteAt, byteAt, List.getD_eq_getElem?_getD, List.getElem?_append_left hi,
    List.getD_eq_getElem?_getD]

theorem addRoundKey_overlay (rk buf : List UInt8) (s : Block) (r : Nat) :
    addRoundKey rk (overlay buf s) r = addRoundKey rk s r := by
  apply List.map_congr_left
  intro i hi
  rw [overlay, byteAt_append_left _ (by rw [s.2]; exact List.mem_range.mp hi)]

theorem aesEncryptBlock_overlay (m : Module) (rk buf : List UInt8) (s : Block) (nr : Nat) :
    aesEncryptBlock m rk (overlay buf s) nr = aesEncryptBlock m rk s nr := by
  rw [aesEncryptBlock, addRoundKey_overlay, aesEncryptBlock]

theorem aesDecryptBlock_overlay (m : AesModule) (rk buf : List UInt8) (s : Block) (nr : Nat) :
    aesDecryptBlock m rk (overlay buf s) nr = aesDecryptBlock m rk s nr := by
  rw [aesDecryptBlock, addRoundKey_overlay, aesDecryptBlock]

theorem aesEcbEncrypt_ok {m : AesModule} (hinit : m.initialized = true) {keybits : Nat}
    (hbits : keybits = 128 ∨ keybits = 256) (key pt ct : List UInt8) :
    aesEcbEncrypt m (some key) keybits (some pt) (some ct) =
      (.ok, some (overlay ct (aesEncryptBlock m.toModule (aesExpand m.toModule key keybits) pt
        (rounds keybits)))) := by
  have hkey : ¬(keybits ≠ 128 ∧ keybits ≠ 256) := by omega
  rw [aesEcbEncrypt, hinit]
  simp only [Bool.not_true, Bool.false_eq_true, if_false, if_neg hkey]

theorem aesEcbDecrypt_ok {m : AesModule} (hinit : m.initialized = true) {keybits : Nat}
    (hbits : keybits = 128 ∨ keybits = 256) (key ct pt : List UInt8) :
    aesEcbDecrypt m (some key) keybits (some ct) (some pt) =
      (.ok, some (overlay pt (aesDecryptBlock m (aesExpand m.toModule key keybits) ct
        (rounds keybits)))) := by
  have hkey : ¬(keybits ≠ 128 ∧ keybits ≠ 256) := by omega
  rw [aesEcbDecrypt, hinit]
  simp only [Bool.not_true, Bool.false_eq_true, if_false, if_neg hkey]

/-- What a run of calls leaves initialized decrypts what it encrypts, and encrypts
what it decrypts, whatever else the buffers hold. -/
theorem aes_ecb_inverse (calls : List Call) (hinit : (AesModule.run calls).initialized = true)
    {keybits : Nat} (hbits : keybits = 128 ∨ keybits = 256) (key : List UInt8)
    {block : List UInt8} (hblock : block.length = 16) (buf out : List UInt8) :
    (∃ c, aesEcbEncrypt (.run calls) (some key) keybits (some block) (some buf) = (.ok, some c) ∧
      aesEcbDecrypt (.run calls) (some key) keybits (some c) (some out) =
        (.ok, some (overlay out block))) ∧
      ∃ p, aesEcbDecrypt (.run calls) (some key) keybits (some block) (some buf) = (.ok, some p) ∧
        aesEcbEncrypt (.run calls) (some key) keybits (some p) (some out) =
          (.ok, some (overlay out block)) := by
  have h := (AesModule.Sound.run calls).inverse hinit
  generalize AesModule.run calls = m at hinit h ⊢
  generalize hrk : aesExpand m.toModule key keybits = rk
  have hcipher := aesEncryptBlock_eq m h rk ⟨block, hblock⟩ (rounds keybits)
  have hplain := aesDecryptBlock_eq m h rk ⟨block, hblock⟩ (rounds keybits)
  constructor
  · refine ⟨_, aesEcbEncrypt_ok hinit hbits key block buf, ?_⟩
    rw [aesEcbDecrypt_ok hinit hbits, hrk, hcipher, aesDecryptBlock_overlay,
      aesDecryptBlock_eq m h, Equiv.symm_apply_apply]
  · refine ⟨_, aesEcbDecrypt_ok hinit hbits key block buf, ?_⟩
    rw [aesEcbEncrypt_ok hinit hbits, hrk, hplain, aesEncryptBlock_overlay,
      aesEncryptBlock_eq m h, Equiv.apply_symm_apply]

/-- A block of zeros under a key of zeros. -/
theorem aes_ecb_inverse_zeros :
    (∃ c, aesEcbEncrypt (.run [.init true]) (some (List.replicate 32 0)) 256
        (some (List.replicate 16 0)) (some (List.replicate 16 7)) = (.ok, some c) ∧
      aesEcbDecrypt (.run [.init true]) (some (List.replicate 32 0)) 256 (some c)
        (some (List.replicate 16 9)) =
        (.ok, some (overlay (List.replicate 16 9) (List.replicate 16 0)))) ∧
      ∃ p, aesEcbDecrypt (.run [.init true]) (some (List.replicate 32 0)) 256
          (some (List.replicate 16 0)) (some (List.replicate 16 7)) = (.ok, some p) ∧
        aesEcbEncrypt (.run [.init true]) (some (List.replicate 32 0)) 256 (some p)
          (some (List.replicate 16 9)) =
          (.ok, some (overlay (List.replicate 16 9) (List.replicate 16 0))) :=
  aes_ecb_inverse [.init true] AesModule.run_init (.inr rfl) (List.replicate 32 0)
    List.length_replicate (List.replicate 16 7) (List.replicate 16 9)

end Crypto
