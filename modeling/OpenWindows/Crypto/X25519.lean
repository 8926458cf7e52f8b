import OpenWindows.Crypto.Aead
import OpenWindows.Crypto.FieldArith
import OpenWindows.Lib.Memory
import OpenWindows.Lib.Montgomery

/-!
# X25519 of `owcrypt`

The ladder over limbs follows the ladder of RFC 7748 over the integers modulo `2 ^ 255 - 19`.  Only
the denominators are subtracted, and these are canonical in every step, so the coordinate that was
given may enter as it is, also when it is not below the prime.
-/

/-! ## RFC 7748 -/

namespace Rfc7748

open Montgomery

/-- `decodeScalar25519`: the three lowest bits are cleared and bit 254 is the highest. -/
def decodeScalar (k : Nat) : Nat := 2 ^ 254 + 8 * (k / 8 % 2 ^ 251)

/-- `decodeUCoordinate`: the highest bit is not read. -/
def decodeUCoordinate (u : Nat) : Nat := u % 2 ^ 255

/-- The function `X25519` of a scalar and a coordinate, as numbers of 256 bits. -/
def x25519 (k u : Nat) : ZMod Crypto.fieldPrime :=
  let x1 : ZMod Crypto.fieldPrime := decodeUCoordinate u
  ((Ladder.start x1).run 121665 x1 (decodeScalar k) 255).result (Crypto.fieldPrime - 2)

end Rfc7748

namespace Crypto

open Bytes
open Montgomery (Ladder)

/-! ## The functions -/

/-- `owc_fe_cswap` on one limb. -/
def limbCswap (x y swap : UInt64) : UInt64 × UInt64 :=
  let t := (x ^^^ y) &&& (0 - swap)
  (x ^^^ t, y ^^^ t)

/-- `owc_fe_cswap`. -/
def feCswap (x y : Fe) (swap : UInt64) : Fe × Fe :=
  let (x0, y0) := limbCswap x.v0 y.v0 swap
  let (x1, y1) := limbCswap x.v1 y.v1 swap
  let (x2, y2) := limbCswap x.v2 y.v2 swap
  let (x3, y3) := limbCswap x.v3 y.v3 swap
  let (x4, y4) := limbCswap x.v4 y.v4 swap
  (⟨x0, x1, x2, x3, x4⟩, ⟨y0, y1, y2, y3, y4⟩)

/-- The variables of `owc_x25519_core` that live through a turn of its loop. -/
structure FeLadder where
  x2 : Fe
  z2 : Fe
  x3 : Fe
  z3 : Fe
  swap : UInt32

/-- One turn of the loop of `owc_x25519_core`. -/
def x25519Step (x1 : Fe) (k : List UInt8) (bit : Nat) (s : FeLadder) : FeLadder :=
  let ki := ((byteAt k (bit / 8) >>> UInt8.ofNat (bit % 8)) &&& 1).toUInt32
  let swap := s.swap ^^^ ki
  let (x2, x3) := feCswap s.x2 s.x3 swap.toUInt64
  let (z2, z3) := feCswap s.z2 s.z3 swap.toUInt64
  let swap := ki
  let a := feAdd x2 z2
  let aa := feSq a
  let b := feSub x2 z2
  let bb := feSq b
  let e := feSub aa bb
  let c := feAdd x3 z3
  let d := feSub x3 z3
  let da := feMul d a
  let cb := feMul c b
  let t := feAdd da cb
  let x3 := feSq t
  let t := feSub da cb
  let t := feSq t
  let z3 := feMul t x1
  let x2 := feMul aa bb
  let ae := feSetSmall 121665
  let ae := feMul ae e
  let t := feAdd aa ae
  let z2 := feMul e t
  { x2, z2, x3, z3, swap }

/-- The loop of `owc_x25519_core`, for the bits below `n`. -/
def x25519Loop (x1 : Fe) (k : List UInt8) : Nat → FeLadder → FeLadder
  | 0, s => s
  | bit + 1, s => x25519Loop x1 k bit (x25519Step x1 k bit s)

/-- The scalar of `owc_x25519_core`, with the bits that are fixed. -/
def x25519Clamp (scalar : List UInt8) : List UInt8 :=
  let k := scalar.set 0 (byteAt scalar 0 &&& 0xF8)
  let k := k.set 31 (byteAt k 31 &&& 0x7F)
  k.set 31 (byteAt k 31 ||| 0x40)

/-- The end of `owc_x25519_core`, after the loop. -/
def x25519Finish (s : FeLadder) : List UInt8 :=
  let (x2, _) := feCswap s.x2 s.x3 s.swap.toUInt64
  let (z2, _) := feCswap s.z2 s.z3 s.swap.toUInt64
  let t := feInv z2
  let t := feMul t x2
  feTobytes t

/-- `owc_x25519_core`. -/
def x25519Core (scalar u : List UInt8) : List UInt8 :=
  let k := x25519Clamp scalar
  let x1 := feFrombytes u
  x25519Finish (x25519Loop x1 k 255 ⟨feSetSmall 1, feZero, x1, feSetSmall 1, 0⟩)

/-- `owc_x25519_base9`. -/
def x25519Base9 : List UInt8 := 9 :: List.replicate 31 0

/-- `owcrypt_x25519`, with the result it leaves. -/
def x25519 (m : Module) (scalarOut scalarIn u : Ptr) : Status × Ptr :=
  if !m.initialized then (.errUninitialized, scalarOut)
  else
    match scalarOut, scalarIn with
    | some out, some scalar =>
      let ub :=
        match u with
        | none => x25519Base9
        | some u => u.take 32
      let kb := scalar.take 32
      let res := x25519Core kb ub
      let acc := res.foldl (fun acc b => acc ||| b.toUInt32) (0 : UInt32)
      (if acc = 0 then .banBadKey else .ok, some (overlay out res))
    | _, _ => (.errBadArg, scalarOut)

/-! ## Swaps -/

/-- A flag as the source keeps it. -/
def flag (b : Bool) : UInt32 := if b then 1 else 0

theorem limbCswap_eq (x y : UInt64) (b : Bool) :
    limbCswap x y (flag b).toUInt64 = Montgomery.cswap b x y := by
  cases b with
  | false =>
    have hmask : (0 : UInt64) - (flag false).toUInt64 = 0 := rfl
    rw [limbCswap, hmask, UInt64.and_zero, UInt64.xor_zero, UInt64.xor_zero]
    rfl
  | true =>
    have hmask : (0 : UInt64) - (flag true).toUInt64 = -1 := rfl
    rw [limbCswap, hmask, UInt64.and_neg_one, ← UInt64.xor_assoc, UInt64.xor_self,
      UInt64.zero_xor, UInt64.xor_comm x y, ← UInt64.xor_assoc, UInt64.xor_self, UInt64.zero_xor]
    rfl

theorem feCswap_eq (x y : Fe) (b : Bool) :
    feCswap x y (flag b).toUInt64 = Montgomery.cswap b x y := by
  simp only [feCswap, limbCswap_eq]
  cases b with
  | false => rfl
  | true => rfl

/-! ## Elements -/

theorem elt_feAdd {a b : Fe} (ha : a.Below (2 ^ 51)) (hb : b.Below (2 ^ 51)) :
    (feAdd a b).elt = a.elt + b.elt := by
  rw [(feAdd_spec ha hb).2.elt, Nat.cast_add]
  rfl

theorem elt_feSub {a b : Fe} (ha : a.Below (2 ^ 51)) (hb : b.Canonical) :
    (feSub a b).elt = a.elt - b.elt := by
  rw [(feSub_spec ha hb.below hb.lt).2.elt, Nat.cast_add, Nat.cast_sub hb.lt.le, ZMod.natCast_self,
    zero_sub, ← sub_eq_add_neg]
  rfl

theorem elt_feSq {a : Fe} (ha : a.Below (2 ^ 51)) : (feSq a).elt = a.elt ^ 2 := by
  rw [feSq, elt_feMul ha ha, pow_two]

theorem canonical_feAdd {a b : Fe} (ha : a.Below (2 ^ 51)) (hb : b.Below (2 ^ 51)) :
    (feAdd a b).Canonical :=
  (feAdd_spec ha hb).2.canonical

theorem canonical_feSub {a b : Fe} (ha : a.Below (2 ^ 51)) (hb : b.Canonical) :
    (feSub a b).Canonical :=
  (feSub_spec ha hb.below hb.lt).2.canonical

theorem canonical_feSq {a : Fe} (ha : a.Below (2 ^ 51)) : (feSq a).Canonical :=
  canonical_feMul ha ha

theorem canonical_feZero : feZero.Canonical :=
  ⟨⟨by decide, by decide, by decide, by decide, by decide⟩, by decide⟩

theorem elt_feZero : feZero.elt = 0 := by
  have hval : feZero.val = 0 := by decide
  rw [Fe.elt, hval, Nat.cast_zero]

theorem below_a24 : (feSetSmall 121665).Below (2 ^ 51) :=
  ⟨by decide, by decide, by decide, by decide, by decide⟩

theorem elt_a24 : (feSetSmall 121665).elt = 121665 := by
  have hval : (feSetSmall 121665).val = 121665 := by decide
  rw [Fe.elt, hval]
  rfl

/-! ## The ladder -/

/-- Limbs that stand for an element. -/
structure Fe.Stands (a : Fe) (x : ZMod fieldPrime) : Prop where
  below : a.Below (2 ^ 51)
  elt : a.elt = x

/-- Canonical limbs that stand for an element. -/
structure Fe.Exactly (a : Fe) (x : ZMod fieldPrime) : Prop where
  canonical : a.Canonical
  elt : a.elt = x

theorem Fe.Exactly.stands {a : Fe} {x : ZMod fieldPrime} (h : a.Exactly x) : a.Stands x :=
  ⟨h.canonical.below, h.elt⟩

section Operations

variable {a b : Fe} {x y : ZMod fieldPrime}

theorem Fe.Stands.add (ha : a.Stands x) (hb : b.Stands y) : (feAdd a b).Exactly (x + y) :=
  ⟨canonical_feAdd ha.below hb.below, by rw [elt_feAdd ha.below hb.below, ha.elt, hb.elt]⟩

theorem Fe.Stands.sub (ha : a.Stands x) (hb : b.Exactly y) : (feSub a b).Exactly (x - y) :=
  ⟨canonical_feSub ha.below hb.canonical, by rw [elt_feSub ha.below hb.canonical, ha.elt, hb.elt]⟩

theorem Fe.Stands.mul (ha : a.Stands x) (hb : b.Stands y) : (feMul a b).Exactly (x * y) :=
  ⟨canonical_feMul ha.below hb.below, by rw [elt_feMul ha.below hb.below, ha.elt, hb.elt]⟩

theorem Fe.Stands.sq (ha : a.Stands x) : (feSq a).Exactly (x ^ 2) :=
  ⟨canonical_feSq ha.below, by rw [elt_feSq ha.below, ha.elt]⟩

theorem Fe.Stands.inv (ha : a.Stands x) : (feInv a).Exactly (x ^ (fieldPrime - 2)) := by
  obtain ⟨-, hcanon, hval⟩ := fePow_spec ha.below (feExponent 0xEB 0x7F)
  rw [leNum_feExponent_inv, ha.elt] at hval
  exact ⟨hcanon, hval⟩

end Operations

/-- The limbs follow the ladder: the denominators are canonical. -/
structure Follows (s : FeLadder) (t : Ladder (ZMod fieldPrime)) : Prop where
  x2 : s.x2.Stands t.x2
  z2 : s.z2.Exactly t.z2
  x3 : s.x3.Stands t.x3
  z3 : s.z3.Exactly t.z3
  swap : s.swap = flag t.swap

theorem flag_xor (b c : Bool) : flag b ^^^ flag c = flag (xor b c) := by
  cases b with
  | false | true => cases c with
    | false => rfl
    | true => rfl

theorem maskedBit_flag (k : List UInt8) (bit : Nat) :
    ((byteAt k (bit / 8) >>> UInt8.ofNat (bit % 8)) &&& 1).toUInt32 =
      flag ((leNum k).testBit bit) := by
  rw [maskedBit_eq]
  cases (leNum k).testBit bit with
  | false => rfl
  | true => rfl

theorem cswap_rel {α β : Type*} {P : α → β → Prop} {a b : α} {x y : β} (ha : P a x) (hb : P b y)
    (c : Bool) : ∃ a' b' x' y', Montgomery.cswap c a b = (a', b') ∧
      Montgomery.cswap c x y = (x', y') ∧ P a' x' ∧ P b' y' := by
  cases c with
  | false => exact ⟨a, b, x, y, rfl, rfl, ha, hb⟩
  | true => exact ⟨b, a, y, x, rfl, rfl, hb, ha⟩

variable {s : FeLadder} {t : Ladder (ZMod fieldPrime)} {u : ZMod fieldPrime}

theorem follows_step {x1 : Fe} (hx1 : x1.Stands u) (k : List UInt8) (bit : Nat) (h : Follows s t) :
    Follows (x25519Step x1 k bit s) (t.step 121665 u ((leNum k).testBit bit)) := by
  obtain ⟨x2, x3, u2, u3, hx, hu, hx2, hx3⟩ :=
    cswap_rel h.x2 h.x3 (xor t.swap ((leNum k).testBit bit))
  obtain ⟨z2, z3, w2, w3, hz, hw, hz2, hz3⟩ :=
    cswap_rel h.z2 h.z3 (xor t.swap ((leNum k).testBit bit))
  have ha := hx2.add hz2.stands
  have haa := ha.stands.sq
  have hb := hx2.sub hz2
  have hbb := hb.stands.sq
  have he := haa.stands.sub hbb
  have hc := hx3.add hz3.stands
  have hd := hx3.sub hz3
  have hda := hd.stands.mul ha.stands
  have hcb := hc.stands.mul hb.stands
  have hae := Fe.Stands.mul ⟨below_a24, elt_a24⟩ he.stands
  have hz3' := (hda.stands.sub hcb).stands.sq.stands.mul hx1
  rw [mul_comm] at hz3'
  rw [x25519Step, h.swap, maskedBit_flag, flag_xor, Ladder.step]
  simp only [feCswap_eq, hx, hu, hz, hw]
  -- the prime stays folded, or the ring operations would be compared as those of its numbers
  with_reducible exact
    { x2 := (haa.stands.mul hbb.stands).stands
      z2 := he.stands.mul (haa.stands.add hae.stands).stands
      x3 := (hda.stands.add hcb.stands).stands.sq.stands
      z3 := hz3'
      swap := rfl }

theorem follows_loop {x1 : Fe} (hx1 : x1.Stands u) (k : List UInt8) (n : Nat) (h : Follows s t) :
    Follows (x25519Loop x1 k n s) (t.run 121665 u (leNum k) n) :=
  Ladder.run_induction (fun _ => rfl) (fun _ _ => rfl)
    (fun bit _ _ h => follows_step hx1 k bit h) n h

theorem x25519Finish_spec (h : Follows s t) :
    ∃ r : Fe, x25519Finish s = feTobytes r ∧ r.Exactly (t.result (fieldPrime - 2)) := by
  obtain ⟨x2, x3, u2, u3, hx, hu, hx2, -⟩ := cswap_rel h.x2 h.x3 t.swap
  obtain ⟨z2, z3, w2, w3, hz, hw, hz2, -⟩ := cswap_rel h.z2 h.z3 t.swap
  refine ⟨feMul (feInv z2) x2, ?_, ?_⟩
  · rw [x25519Finish, h.swap]
    simp only [feCswap_eq, hx, hz]
  · rw [Ladder.result, hu, hw, mul_comm]
    exact hz2.stands.inv.stands.mul hx2

theorem follows_start {x1 : Fe} (hx1 : x1.Stands u) :
    Follows ⟨feSetSmall 1, feZero, x1, feSetSmall 1, 0⟩ (Ladder.start u) where
  x2 := ⟨canonical_one.below, elt_one⟩
  z2 := ⟨canonical_feZero, elt_feZero⟩
  x3 := hx1
  z3 := ⟨canonical_one, elt_one⟩
  swap := rfl

theorem x25519Core_spec (scalar : List UInt8) {u : List UInt8} {x : ZMod fieldPrime}
    (hx : (feFrombytes u).Stands x) :
    ∃ r : Fe, x25519Core scalar u = feTobytes r ∧ r.Exactly
      (((Ladder.start x).run 121665 x (leNum (x25519Clamp scalar)) 255).result (fieldPrime - 2)) :=
  x25519Finish_spec (follows_loop hx (x25519Clamp scalar) 255 (follows_start hx))

/-! ## The scalar and the result -/

set_option maxRecDepth 8000 in
theorem toNat_clampLow (b : UInt8) : (b &&& 0xF8).toNat = b.toNat / 8 * 8 := by
  have hall : ∀ n < 256, n &&& 0xF8 = n / 8 * 8 := by decide
  rw [UInt8.toNat_and]
  exact hall b.toNat b.toNat_lt

set_option maxRecDepth 8000 in
theorem toNat_clampHigh (b : UInt8) : ((b &&& 0x7F) ||| 0x40).toNat = 64 + b.toNat % 64 := by
  have hall : ∀ n < 256, (n &&& 0x7F) ||| 0x40 = 64 + n % 64 := by decide
  rw [UInt8.toNat_or, UInt8.toNat_and]
  exact hall b.toNat b.toNat_lt

theorem set_last {mid : List UInt8} (hmid : mid.length = 30) (b c x : UInt8) :
    (b :: (mid ++ [c])).set 31 x = b :: (mid ++ [x]) := by
  rw [List.set_cons_succ, List.set_append_right _ _ hmid.le, hmid]
  rfl

theorem byteAt_last {mid : List UInt8} (hmid : mid.length = 30) (b c : UInt8) :
    byteAt (b :: (mid ++ [c])) 31 = c := by
  rw [byteAt, List.getD_cons_succ, List.getD_eq_getElem?_getD,
    List.getElem?_append_right hmid.le, hmid]
  rfl

theorem leNum_x25519Clamp {scalar : List UInt8} (h : scalar.length = 32) :
    leNum (x25519Clamp scalar) = Rfc7748.decodeScalar (leNum scalar) := by
  obtain ⟨b, mid, c, rfl⟩ : ∃ b mid c, scalar = b :: (mid ++ [c]) := by
    cases scalar with
    | nil => cases h
    | cons b rest =>
      rcases List.eq_nil_or_concat rest with rfl | ⟨mid, c, rfl⟩
      · cases h
      · exact ⟨b, mid, c, by rw [List.concat_eq_append]⟩
  have hmid : mid.length = 30 := by
    rw [List.length_cons, List.length_append, List.length_singleton] at h
    omega
  have hclamp : x25519Clamp (b :: (mid ++ [c])) =
      (b &&& 0xF8) :: (mid ++ [(c &&& 0x7F) ||| 0x40]) := by
    rw [x25519Clamp]
    simp only [List.set_cons_zero, byteAt_last hmid, set_last hmid]
    rfl
  have hbytes (x y : UInt8) : leNum (x :: (mid ++ [y])) =
      x.toNat + 256 * (leNum mid + 256 ^ 30 * y.toNat) := by
    rw [leNum, leNum_append, hmid, leNum, leNum_nil, Nat.mul_zero, Nat.add_zero]
  have hlt := leNum_lt mid
  rw [hmid] at hlt
  have hb := b.toNat_lt
  have hc := c.toNat_lt
  rw [hclamp, hbytes, hbytes, toNat_clampLow, toNat_clampHigh, Rfc7748.decodeScalar]
  omega

theorem foldl_or_eq_zero_iff (l : List UInt8) (acc : UInt32) :
    l.foldl (fun acc b => acc ||| b.toUInt32) acc = 0 ↔ acc = 0 ∧ leNum l = 0 := by
  induction l generalizing acc with
  | nil => exact ⟨fun h => ⟨h, rfl⟩, fun h => h.1⟩
  | cons b bs ih =>
    have hbyte : b.toUInt32 = 0 ↔ b.toNat = 0 := by
      rw [← UInt32.toNat_inj, UInt8.toNat_toUInt32]
      rfl
    have hsum : b.toNat + 256 * leNum bs = 0 ↔ b.toNat = 0 ∧ leNum bs = 0 := by omega
    rw [List.foldl_cons, ih, UInt32.or_eq_zero_iff, hbyte, leNum, hsum, and_assoc]

/-- The result of `owcrypt_x25519` is the one of RFC 7748, and it is refused exactly when it is
zero. -/
theorem x25519_rfc7748 {m : Module} (hm : m.initialized = true) {scalar u : List UInt8}
    (hscalar : scalar.length = 32) (hu : u.length = 32) (out : List UInt8) :
    x25519 m (some out) (some scalar) (some u) =
      (if Rfc7748.x25519 (leNum scalar) (leNum u) = 0 then .banBadKey else .ok,
        some (overlay out (leBytes 32 (Rfc7748.x25519 (leNum scalar) (leNum u)).val))) := by
  obtain ⟨hbelow, hval⟩ := feFrombytes_spec hu
  have hx : (feFrombytes u).Stands (Rfc7748.decodeUCoordinate (leNum u) : Nat) := by
    refine ⟨hbelow, ?_⟩
    rw [Fe.elt, hval]
    rfl
  obtain ⟨r, hcore, hr⟩ := x25519Core_spec (scalar.take 32) hx
  rw [List.take_of_length_le hscalar.le, leNum_x25519Clamp hscalar] at hr
  obtain ⟨z, hz⟩ : ∃ z, Rfc7748.x25519 (leNum scalar) (leNum u) = z := ⟨_, rfl⟩
  have helt : r.elt = z := by
    rw [← hz]
    exact hr.elt
  have hzval : z.val = r.val := by
    rw [← helt]
    exact ZMod.val_natCast_of_lt hr.canonical.lt
  have hbytes : x25519Core (scalar.take 32) (u.take 32) = leBytes 32 z.val := by
    rw [List.take_of_length_le hu.le, hcore, feTobytes_eq hr.canonical.below, hzval]
  have hsmall : z.val < 256 ^ 32 := by
    rw [hzval]
    exact hr.canonical.lt.trans (by decide)
  have hacc : (leBytes 32 z.val).foldl (fun acc b => acc ||| b.toUInt32) (0 : UInt32) = 0 ↔
      z = 0 := by
    rw [foldl_or_eq_zero_iff, Memory.leNum_leBytes, Nat.mod_eq_of_lt hsmall, ZMod.val_eq_zero]
    exact and_iff_right rfl
  rw [hz, x25519, hm]
  simp only [Bool.not_true, Bool.false_eq_true, if_false, hbytes, hacc]

/-- A coordinate that is not below the prime, with the highest bit set. -/
theorem x25519_rfc7748_ones :
    x25519 ⟨true, []⟩ (some (List.replicate 32 0)) (some (List.replicate 32 1))
        (some (List.replicate 32 0xFF)) =
      (if Rfc7748.x25519 (leNum (List.replicate 32 1)) (leNum (List.replicate 32 0xFF)) = 0 then
          .banBadKey
        else .ok,
        some (overlay (List.replicate 32 0) (leBytes 32
          (Rfc7748.x25519 (leNum (List.replicate 32 1)) (leNum (List.replicate 32 0xFF))).val))) :=
  x25519_rfc7748 rfl rfl rfl _

end Crypto
