import OpenWindows.Crypto.Field25519
import OpenWindows.Crypto.ScalarMul
import OpenWindows.Crypto.Sha512
import OpenWindows.Crypto.Aead

/-!
# Ed25519 of `owcrypt`

Points of the curve are kept in extended coordinates.  A signature is the encoding of
`r` times the base point, and the scalar `S` made from `r`, the hash of the message and
the secret scalar.
-/

namespace Crypto

open Bytes Division

/-! ## Points -/

/-- `owc_ge_t`. -/
structure Ge where
  x : Fe
  y : Fe
  z : Fe
  t : Fe
  deriving DecidableEq, Repr

/-- `owc_ge_identity`. -/
def geIdentity : Ge := ⟨feZero, feSetSmall 1, feSetSmall 1, feZero⟩

/-- `owc_ge_add`. -/
def geAdd (p q : Ge) : Ge :=
  let a := feMul (feSub p.y p.x) (feSub q.y q.x)
  let b := feMul (feAdd p.y p.x) (feAdd q.y q.x)
  let c := feMul (feMul p.t q.t) feD2
  let d := feMul p.z q.z
  let d := feAdd d d
  let e := feSub b a
  let f := feSub d c
  let g := feAdd d c
  let h := feAdd b a
  ⟨feMul e f, feMul g h, feMul f g, feMul e h⟩

/-- The loop of `owc_ge_scalarmult`, for the bits below `n`. -/
def geScalarmultLoop (sc : List UInt8) (q : Ge) : Nat → Ge → Ge
  | 0, r => r
  | b + 1, r =>
    let r := geAdd r r
    geScalarmultLoop sc q b
      (if (byteAt sc (b / 8) >>> UInt8.ofNat (b % 8)) &&& 1 ≠ 0 then geAdd r q else r)

/-- `owc_ge_scalarmult`. -/
def geScalarmult (sc : List UInt8) (p : Ge) : Ge := geScalarmultLoop sc p 256 geIdentity

/-- `owc_ge_encode`. -/
def geEncode (p : Ge) : List UInt8 :=
  let zinv := feInv p.z
  let out := feTobytes (feMul p.y zinv)
  let xb := feTobytes (feMul p.x zinv)
  out.set 31 (byteAt out 31 ||| ((byteAt xb 0 &&& 1) <<< 7))

/-- `owc_ge_decompress`, with the exponent `owc_pp3d8`. -/
def geDecompress (y : List UInt8) (sign : UInt8) : Option (List UInt8) :=
  let yy := feFrombytes y
  let u := feSub (feSq yy) (feSetSmall 1)
  let v := feAdd (feMul (feMul feD yy) yy) (feSetSmall 1)
  let x2 := feMul u (feInv v)
  let xc := fePow x2 (feExponent 0xFE 0x0F)
  let root :=
    if feSq xc = x2 then some xc
    else
      let t := feMul xc feSqrtM1
      if feSq t = x2 then some t else none
  root.map fun xc =>
    feTobytes (if byteAt (feTobytes xc) 0 &&& 1 ≠ sign then feNeg xc else xc)

/-- The encoding of the base point in `owc_ge_base`. -/
def baseY : List UInt8 := 0x58 :: List.replicate 31 0x66

/-- `owc_ge_base`. -/
def geBase : Ge :=
  match geDecompress baseY 0 with
  | some xb =>
    let x := feFrombytes xb
    let y := feFrombytes baseY
    ⟨x, y, feSetSmall 1, feMul x y⟩
  | none => geIdentity

/-! ## Signing -/

/-- The clamped secret scalar. -/
def edClamp (h : List UInt8) : List UInt8 :=
  let a := h.take 32
  let a := a.set 0 (byteAt a 0 &&& 0xF8)
  a.set 31 ((byteAt a 31 &&& 0x3F) ||| 0x40)

/-- The loop that adds two scalars, with the carry into it. -/
def scAddLoop : List UInt8 → List UInt8 → Nat → List UInt8
  | a :: as, b :: bs, carry =>
    let v := a.toNat + b.toNat + carry
    UInt8.ofNat v :: scAddLoop as bs (v >>> 8)
  | _, _, _ => []

def edSecret (seed : List UInt8) : List UInt8 := edClamp (sha512 [seed])

/-- The hash that `r` is made from. -/
def edNonce (seed msg : List UInt8) : List UInt8 := sha512 [(sha512 [seed]).drop 32, msg]

/-- The scalar `r`. -/
def edR (seed msg : List UInt8) : List UInt8 := (scReduce (edNonce seed msg)).take 32

/-- The first half of a signature. -/
def edPoint (seed msg : List UInt8) : List UInt8 := geEncode (geScalarmult (edR seed msg) geBase)

/-- The hash `H`. -/
def edHash (seed pk msg : List UInt8) : List UInt8 := sha512 [edPoint seed msg, pk, msg]

/-- The scalar made from `H`. -/
def edK (seed pk msg : List UInt8) : List UInt8 := (scReduce (edHash seed pk msg)).take 32

/-- The second half of a signature. -/
def edS (seed pk msg : List UInt8) : List UInt8 :=
  let srhs := scMulmod (edK seed pk msg) (scReduce32 (edSecret seed))
  (scReduce (scAddLoop srhs (edR seed msg) 0 ++ List.replicate 32 0)).take 32

/-- `owcrypt_ed25519_sign`, with the signature it leaves. -/
def ed25519Sign (m : Module) (seed publicKey msg sig : Ptr) : Status × Ptr :=
  if !m.initialized then (.errUninitialized, sig)
  else
    match seed, publicKey, sig, msg with
    | some seed, some pk, some buf, some msg =>
      (.ok, some (overlay buf (edPoint seed msg ++ edS seed pk msg)))
    | _, _, _, _ => (.errBadArg, sig)

/-! ## The second half of a signature -/

theorem scAddLoop_spec {a b : List UInt8} (hlen : a.length = b.length) (carry : Nat) :
    (scAddLoop a b carry).length = a.length ∧
      leNum (scAddLoop a b carry) = (leNum a + leNum b + carry) % 256 ^ a.length := by
  induction a generalizing b carry with
  | nil => simp [scAddLoop, Nat.mod_one]
  | cons a as ih =>
    cases b with
    | nil => cases hlen
    | cons b bs =>
      obtain ⟨hrest, hval⟩ := ih (Nat.succ.inj hlen) ((a.toNat + b.toNat + carry) >>> 8)
      refine ⟨by simp [scAddLoop, hrest], ?_⟩
      have hbyte : (UInt8.ofNat (a.toNat + b.toNat + carry)).toNat =
          (a.toNat + b.toNat + carry) % 256 := UInt8.toNat_ofNat'
      have hshift : (a.toNat + b.toNat + carry) >>> 8 = (a.toNat + b.toNat + carry) / 256 :=
        Nat.shiftRight_eq_div_pow _ 8
      rw [hshift] at hval
      simp only [scAddLoop, leNum, List.length_cons, hbyte, hshift, hval]
      rw [Nat.pow_succ', Nat.mod_mul]
      have hlow : (a.toNat + 256 * leNum as + (b.toNat + 256 * leNum bs) + carry) % 256 =
          (a.toNat + b.toNat + carry) % 256 := by omega
      have hhigh : (a.toNat + 256 * leNum as + (b.toNat + 256 * leNum bs) + carry) / 256 =
          leNum as + leNum bs + (a.toNat + b.toNat + carry) / 256 := by omega
      rw [hlow, hhigh]

variable {seed pk msg : List UInt8}

theorem length_edR (seed msg : List UInt8) : (edR seed msg).length = 32 :=
  length_scReduce_low (length_sha512 _)

theorem length_edK (seed pk msg : List UInt8) : (edK seed pk msg).length = 32 :=
  length_scReduce_low (length_sha512 _)

theorem length_edSecret (seed : List UInt8) : (edSecret seed).length = 32 := rfl

theorem scReduce32_spec {s : List UInt8} (hs : s.length = 32) :
    (scReduce32 s).length = 32 ∧ leNum (scReduce32 s) < groupOrder ∧
      (Gapless (leNum s) → leNum (scReduce32 s) = leNum s % groupOrder) := by
  have hlen : (s.take 32 ++ List.replicate 32 0).length = 64 := by simp [hs]
  have hval : leNum (s.take 32 ++ List.replicate 32 0) = leNum s := by
    rw [leNum_append, leNum_replicate_zero, List.take_of_length_le (Nat.le_of_eq hs), Nat.mul_zero,
      Nat.add_zero]
  refine ⟨length_scReduce_low hlen, scReduce_low_lt hlen, fun h => ?_⟩
  rw [← hval] at h ⊢
  exact (scReduce_of_gapless hlen h).1

theorem edS_eq (seed pk msg : List UInt8) :
    ∃ s : List UInt8, s.length = 64 ∧ edS seed pk msg = (scReduce s).take 32 ∧
      leNum s = leNum (scMulmod (edK seed pk msg) (scReduce32 (edSecret seed))) +
        leNum (edR seed msg) := by
  obtain ⟨hsecret, _, _⟩ := scReduce32_spec (length_edSecret seed)
  have hk := length_edK seed pk msg
  have hr := length_edR seed msg
  have hmul : (scMulmod (edK seed pk msg) (scReduce32 (edSecret seed))).length = 32 :=
    length_scReduce_low (scProduct_spec hk hsecret).1
  have hmullt := scMulmod_lt hk hsecret
  have hrlt : leNum (edR seed msg) < groupOrder := scReduce_low_lt (length_sha512 _)
  obtain ⟨hlen, hval⟩ := scAddLoop_spec (hmul.trans hr.symm) 0
  have horder : groupOrder + groupOrder < 256 ^ 32 := by decide
  rw [hmul] at hlen hval
  refine ⟨_, ?_, rfl, ?_⟩
  · simp [hlen]
  · rw [leNum_append, leNum_replicate_zero, hval, Nat.mul_zero, Nat.add_zero, Nat.add_zero,
      Nat.mod_eq_of_lt (by omega)]

theorem length_edS (seed pk msg : List UInt8) : (edS seed pk msg).length = 32 := by
  obtain ⟨s, hs, heq, _⟩ := edS_eq seed pk msg
  rw [heq]
  exact length_scReduce_low hs

theorem edS_lt (seed pk msg : List UInt8) : leNum (edS seed pk msg) < groupOrder := by
  obtain ⟨s, hs, heq, _⟩ := edS_eq seed pk msg
  rw [heq]
  exact scReduce_low_lt hs

theorem edS_modEq_iff {r k a : Nat} (hr : leNum (edR seed msg) = r)
    (hk : leNum (edK seed pk msg) = k) (ha : leNum (scReduce32 (edSecret seed)) = a) :
    leNum (edS seed pk msg) ≡ r + k * a [MOD groupOrder] ↔
      Gapless (k * a) ∧ Gapless (k * a % groupOrder + r) := by
  obtain ⟨hsecret, hsecretlt, _⟩ := scReduce32_spec (length_edSecret seed)
  have hklen := length_edK seed pk msg
  have hklt : leNum (edK seed pk msg) < groupOrder := scReduce_low_lt (length_sha512 _)
  have hrlt : leNum (edR seed msg) < groupOrder := scReduce_low_lt (length_sha512 _)
  have hmullt := scMulmod_lt hklen hsecret
  obtain ⟨d₁, hd₁, hzero₁, hval₁⟩ := scMulmod_offset hklen hsecret hklt hsecretlt
  obtain ⟨s, hs, heq, hsval⟩ := edS_eq seed pk msg
  have hsmall : leNum s < 2 ^ 505 := by
    have horder : groupOrder + groupOrder < 2 ^ 256 := by decide
    have hpow : 2 ^ 256 ≤ 2 ^ 505 := by
      apply Nat.pow_le_pow_right
      · decide
      · decide
    omega
  obtain ⟨d₂, hd₂, hzero₂, hval₂⟩ := scReduce_offset hs hsmall
  rw [hk, ha] at hzero₁ hval₁
  rw [hr] at hsval
  have hcongr : leNum (edS seed pk msg) ≡ r + k * a + 2 ^ 256 * (d₁ + d₂) [MOD groupOrder] := by
    have hproduct : leNum (scMulmod (edK seed pk msg) (scReduce32 (edSecret seed))) ≡
        k * a + 2 ^ 256 * d₁ [MOD groupOrder] := by
      rw [hval₁]
      exact Nat.mod_modEq _ _
    have hsum : leNum s ≡ k * a + 2 ^ 256 * d₁ + r [MOD groupOrder] := by
      rw [hsval]
      exact hproduct.add_right r
    have htotal : r + k * a + 2 ^ 256 * (d₁ + d₂) = k * a + 2 ^ 256 * d₁ + r + 2 ^ 256 * d₂ := by
      rw [Nat.mul_add]
      omega
    rw [heq, hval₂, htotal]
    exact (Nat.mod_modEq _ _).trans (hsum.add_right _)
  have hboth : leNum (edS seed pk msg) ≡ r + k * a [MOD groupOrder] ↔ d₁ + d₂ = 0 := by
    rw [← offset_modEq (x := r + k * a) (d := d₁ + d₂) (by omega)]
    exact ⟨fun h => hcongr.symm.trans h, fun h => hcongr.trans h⟩
  rw [hboth, Nat.add_eq_zero_iff, hzero₂, ← hzero₁, hsval]
  constructor
  · rintro ⟨hnone, hgap⟩
    rw [hval₁, hnone, Nat.mul_zero, Nat.add_zero] at hgap
    exact ⟨hnone, hgap⟩
  · rintro ⟨hnone, hgap⟩
    refine ⟨hnone, ?_⟩
    rw [hval₁, hnone, Nat.mul_zero, Nat.add_zero]
    exact hgap

theorem edS_modEq {r h a : Nat} (hr : leNum (edNonce seed msg) = r)
    (hh : leNum (edHash seed pk msg) = h) (ha : leNum (edSecret seed) = a) (gr : Gapless r)
    (gh : Gapless h) (ga : Gapless a)
    (gmul : Gapless (h % groupOrder * (a % groupOrder)))
    (gsum : Gapless (h % groupOrder * (a % groupOrder) % groupOrder + r % groupOrder)) :
    leNum (edS seed pk msg) ≡ r + h * a [MOD groupOrder] := by
  have hr' : leNum (edR seed msg) = r % groupOrder := by
    rw [← hr] at gr ⊢
    exact (scReduce_of_gapless (length_sha512 _) gr).1
  have hh' : leNum (edK seed pk msg) = h % groupOrder := by
    rw [← hh] at gh ⊢
    exact (scReduce_of_gapless (length_sha512 _) gh).1
  have ha' : leNum (scReduce32 (edSecret seed)) = a % groupOrder := by
    rw [← ha] at ga ⊢
    exact (scReduce32_spec (length_edSecret seed)).2.2 ga
  have hmod := (edS_modEq_iff hr' hh' ha').mpr ⟨gmul, gsum⟩
  exact hmod.trans ((Nat.mod_modEq _ _).add ((Nat.mod_modEq _ _).mul (Nat.mod_modEq _ _)))

theorem length_edPoint (seed msg : List UInt8) : (edPoint seed msg).length = 32 := by
  rw [edPoint, geEncode]
  simp only [List.length_set]
  rfl

theorem ed25519Sign_eq {m : Module} (hm : m.initialized = true) {sig : List UInt8}
    (hsig : sig.length = 64) :
    ed25519Sign m (some seed) (some pk) (some msg) (some sig) =
      (.ok, some (edPoint seed msg ++ edS seed pk msg)) := by
  have hlen : (edPoint seed msg ++ edS seed pk msg).length = 64 := by
    rw [List.length_append, length_edPoint, length_edS]
  have hover : overlay sig (edPoint seed msg ++ edS seed pk msg) =
      edPoint seed msg ++ edS seed pk msg := by
    rw [overlay, hlen, List.drop_eq_nil_of_le (Nat.le_of_eq hsig), List.append_nil]
  simp only [ed25519Sign, hm, Bool.not_true, Bool.false_eq_true, if_false, hover]

theorem eq_replicate_of_leNum {l : List UInt8} (h : leNum l = 0) :
    l = List.replicate l.length 0 := by
  induction l with
  | nil => rfl
  | cons b bs ih =>
    simp only [leNum] at h
    have hb : b = 0 := UInt8.toNat_inj.mp (by simp; omega)
    have hrest := ih (by omega)
    rw [List.length_cons, List.replicate_succ, ← hrest, hb]

/-- `owc_sc_reduce` terminates, and leaves the remainder modulo the order and zeros
above it exactly when the number meets no gap.  The same decides `owc_sc_mulmod`, for
the product, and the second half of a signature, for the product and the sum it is
made from; that half is below the order in any case. -/
theorem scalar_reduction (m : Module) (s a b seed pk msg sig : List UInt8) :
    (s.length = 64 →
      (∃ n, StepSystem.Halts scTurn n (scSweep 260 s) (scReduce s)) ∧
      (leNum ((scReduce s).take 32) = leNum s % groupOrder ∧
          (scReduce s).drop 32 = List.replicate 32 0 ↔ Gapless (leNum s))) ∧
    (a.length = 32 → b.length = 32 → leNum a < groupOrder → leNum b < groupOrder →
      (leNum (scMulmod a b) = leNum a * leNum b % groupOrder ↔ Gapless (leNum a * leNum b))) ∧
    (m.initialized = true → sig.length = 64 →
      ∃ S, ed25519Sign m (some seed) (some pk) (some msg) (some sig) =
          (.ok, some (edPoint seed msg ++ S)) ∧
        leNum S < groupOrder ∧
        (∀ r k a, leNum (edR seed msg) = r → leNum (edK seed pk msg) = k →
          leNum (scReduce32 (edSecret seed)) = a →
          (leNum S ≡ r + k * a [MOD groupOrder] ↔
            Gapless (k * a) ∧ Gapless (k * a % groupOrder + r))) ∧
        ∀ r h a, leNum (edNonce seed msg) = r → leNum (edHash seed pk msg) = h →
          leNum (edSecret seed) = a → Gapless r → Gapless h → Gapless a →
          Gapless (h % groupOrder * (a % groupOrder)) →
          Gapless (h % groupOrder * (a % groupOrder) % groupOrder + r % groupOrder) →
          leNum S ≡ r + h * a [MOD groupOrder]) := by
  refine ⟨fun hs => ⟨(scReduce_spec hs).1, ?_⟩, fun ha hb hx hy => scMulmod_iff ha hb hx hy,
    fun hm hsig => ⟨edS seed pk msg, ed25519Sign_eq hm hsig, edS_lt seed pk msg,
      fun r k a hr hk ha => edS_modEq_iff hr hk ha,
      fun r h a hr hh ha gr gh ga gmul gsum => edS_modEq hr hh ha gr gh ga gmul gsum⟩⟩
  have hlen : ((scReduce s).drop 32).length = 32 := by
    rw [List.length_drop, (scReduce_spec hs).2.1]
  constructor
  · rintro ⟨_, hhigh⟩
    by_contra hgap
    refine scReduce_of_gap hs hgap ?_
    rw [hhigh, leNum_replicate_zero]
  · intro hgap
    obtain ⟨hlow, hhigh⟩ := scReduce_of_gapless hs hgap
    refine ⟨hlow, ?_⟩
    have hzeros := eq_replicate_of_leNum hhigh
    rwa [hlen] at hzeros

/-- `5 * groupOrder + 7` is reduced although it is not below `groupOrder`. -/
theorem scalar_reduction_large :
    leNum ((scReduce (leBytes 64 (5 * groupOrder + 7))).take 32) = 7 ∧
      (scReduce (leBytes 64 (5 * groupOrder + 7))).drop 32 = List.replicate 32 0 := by
  have hval : leNum (leBytes 64 (5 * groupOrder + 7)) = 5 * groupOrder + 7 := by decide
  have hgapless : Gapless (5 * groupOrder + 7) := by
    intro i _
    have hsmall : ∀ i < 3, (5 * groupOrder + 7) % (groupOrder * 2 ^ i) < 2 ^ (252 + i) := by decide
    rcases Nat.lt_or_ge i 3 with hi | hi
    · exact hsmall i hi
    · calc (5 * groupOrder + 7) % (groupOrder * 2 ^ i) ≤ 5 * groupOrder + 7 := Nat.mod_le _ _
        _ < 2 ^ (252 + 3) := by decide
        _ ≤ 2 ^ (252 + i) := Nat.pow_le_pow_right (by decide) (by omega)
  obtain ⟨hlow, hhigh⟩ := ((scalar_reduction .zero (leBytes 64 (5 * groupOrder + 7)) [] [] [] [] []
    []).1 (by decide)).2.mpr (hval ▸ hgapless)
  refine ⟨?_, hhigh⟩
  rw [hlow, hval]
  decide

theorem not_gapless_two_pow : ¬ Gapless (2 ^ 252) := by
  intro h
  have hrem := h 0 (by decide)
  rw [Nat.pow_zero, Nat.mul_one, Nat.mod_eq_of_lt (by decide)] at hrem
  exact absurd hrem (Nat.lt_irrefl _)

set_option maxRecDepth 8000 in
theorem scalar_reduction_fails :
    (∃ s : List UInt8, s.length = 64 ∧ leNum s = 2 ^ 252 ∧
      leNum ((scReduce s).take 32) ≠ leNum s % groupOrder ∧
      (scReduce s).drop 32 ≠ List.replicate 32 0) ∧
    ∃ a : List UInt8, a.length = 32 ∧ leNum a = 2 ^ 126 ∧ leNum a < groupOrder ∧
      leNum (scMulmod a a) ≠ leNum a * leNum a % groupOrder := by
  have hs : (leBytes 64 (2 ^ 252)).length = 64 := by decide
  have hsval : leNum (leBytes 64 (2 ^ 252)) = 2 ^ 252 := by decide
  have ha : (leBytes 32 (2 ^ 126)).length = 32 := by decide
  have haval : leNum (leBytes 32 (2 ^ 126)) = 2 ^ 126 := by decide
  have hlt : leNum (leBytes 32 (2 ^ 126)) < groupOrder := by
    rw [haval]
    decide
  refine ⟨⟨_, hs, hsval, fun heq => ?_, fun heq => ?_⟩, _, ha, haval, hlt, fun heq => ?_⟩
  · have hsmall : leNum (leBytes 64 (2 ^ 252)) < 2 ^ 505 := by
      rw [hsval]
      decide
    obtain ⟨d, hd, hzero, hval⟩ := scReduce_offset hs hsmall
    rw [hval] at heq
    have hnone := (offset_modEq (Nat.le_trans hd (by decide))).mp heq
    have hgap := hzero.mp hnone
    rw [hsval] at hgap
    exact not_gapless_two_pow hgap
  · refine scReduce_of_gap hs ?_ (by rw [heq, leNum_replicate_zero])
    rw [hsval]
    exact not_gapless_two_pow
  · have hgap := (scMulmod_iff ha ha hlt hlt).mp heq
    rw [haval, ← Nat.pow_add] at hgap
    exact not_gapless_two_pow hgap

end Crypto
