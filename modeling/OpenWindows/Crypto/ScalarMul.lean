import OpenWindows.Crypto.Scalar
import OpenWindows.Crypto.Poly1305Lanes

/-!
# Products of scalars

`owc_sc_mulmod` multiplies eight words by eight words and reduces the product.  The
product is exact, so what the reduction does to it decides the result.
-/

namespace Crypto

open Bytes

/-! ## Words of 32 bits -/

theorem toNat_byte_shiftLeft (b : UInt8) {k : UInt32} {n : Nat} (hk : k.toNat = n) (hn : n ≤ 24) :
    (b.toUInt32 <<< k).toNat = b.toNat <<< n := by
  have hb : b.toNat < 256 := b.toNat_lt
  have hpow : 2 ^ n ≤ 2 ^ 24 := Nat.pow_le_pow_right (by decide) hn
  have hmul : b.toNat * 2 ^ n ≤ 255 * 2 ^ 24 := Nat.mul_le_mul (by omega) hpow
  rw [UInt32.toNat_shiftLeft, hk, UInt8.toNat_toUInt32, Nat.mod_eq_of_lt (by omega : n < 32),
    Nat.shiftLeft_eq, Nat.mod_eq_of_lt (by omega)]

theorem get32le_toNat (p : List UInt8) : (get32le p).toNat = leNum (p.take 4) := by
  have h0 : (byteAt p 0).toNat < 2 ^ 8 := UInt8.toNat_lt _
  have h1 : (byteAt p 1).toNat < 2 ^ 8 := UInt8.toNat_lt _
  have h2 : (byteAt p 2).toNat < 2 ^ 8 := UInt8.toNat_lt _
  have e1 : (byteAt p 0).toNat ||| (byteAt p 1).toNat <<< 8 = _ := or_shiftLeft h0
  have e2 : (byteAt p 0).toNat + (byteAt p 1).toNat * 2 ^ 8 ||| (byteAt p 2).toNat <<< 16 = _ :=
    or_shiftLeft (by omega)
  have e3 : (byteAt p 0).toNat + (byteAt p 1).toNat * 2 ^ 8 + (byteAt p 2).toNat * 2 ^ 16 |||
      (byteAt p 3).toNat <<< 24 = _ := or_shiftLeft (by omega)
  rw [get32le, UInt32.toNat_or, UInt32.toNat_or, UInt32.toNat_or, UInt8.toNat_toUInt32,
    toNat_byte_shiftLeft _ (n := 8) rfl (by decide), toNat_byte_shiftLeft _ (n := 16) rfl (by decide),
    toNat_byte_shiftLeft _ (n := 24) rfl (by decide), e1, e2, e3, leNum_take_succ, leNum_take_succ,
    leNum_take_succ, leNum_take_succ]
  simp [byteAt]

theorem leNum_put32le (v : UInt32) : leNum (put32le v) = v.toNat := by
  have hv := v.toNat_lt
  have hshift (k : UInt32) {n : Nat} (hk : k.toNat = n) (hn : n < 32) :
      (v >>> k).toUInt8.toNat = v.toNat / 2 ^ n % 256 := by
    rw [UInt32.toNat_toUInt8, UInt32.toNat_shiftRight, hk, Nat.mod_eq_of_lt hn,
      Nat.shiftRight_eq_div_pow]
  simp only [put32le, leNum, UInt32.toNat_toUInt8 v, hshift 8 (n := 8) rfl (by decide),
    hshift 16 (n := 16) rfl (by decide), hshift 24 (n := 24) rfl (by decide)]
  omega

/-- The number of a list of words; a word may be too large for its place. -/
def wordsNum : List Nat → Nat
  | [] => 0
  | v :: vs => v + 2 ^ 32 * wordsNum vs

theorem wordsNum_replicate_zero (n : Nat) : wordsNum (List.replicate n 0) = 0 := by
  induction n with
  | zero => rfl
  | succ n ih => simp [List.replicate_succ, wordsNum, ih]

theorem wordsNum_set (acc : List Nat) {k : Nat} (hk : k < acc.length) (v : Nat) :
    wordsNum (acc.set k (acc.getD k 0 + v)) = wordsNum acc + v * 2 ^ (32 * k) := by
  induction acc generalizing k with
  | nil => cases hk
  | cons a acc ih =>
    cases k with
    | zero =>
      simp only [List.set_cons_zero, List.getD_cons_zero, wordsNum, Nat.mul_zero, Nat.pow_zero,
        Nat.mul_one]
      omega
    | succ k =>
      have hrest := ih (Nat.lt_of_succ_lt_succ hk)
      simp only [List.set_cons_succ, List.getD_cons_succ, wordsNum, hrest]
      rw [Nat.mul_succ, Nat.pow_add, Nat.mul_add]
      ring

theorem wordsNum_take_succ (vs : List Nat) (n : Nat) :
    wordsNum (vs.take (n + 1)) = wordsNum (vs.take n) + vs.getD n 0 * 2 ^ (32 * n) := by
  induction vs generalizing n with
  | nil => simp [wordsNum]
  | cons v vs ih =>
    cases n with
    | zero => simp [wordsNum]
    | succ n =>
      simp only [List.take_succ_cons, wordsNum, ih, List.getD_cons_succ]
      rw [Nat.mul_succ, Nat.pow_add, Nat.mul_add]
      ring

theorem wordsNum_append (us vs : List Nat) :
    wordsNum (us ++ vs) = wordsNum us + 2 ^ (32 * us.length) * wordsNum vs := by
  induction us with
  | nil => simp [wordsNum]
  | cons u us ih =>
    simp only [List.cons_append, wordsNum, ih, List.length_cons]
    rw [Nat.mul_succ, Nat.pow_add]
    ring

/-! ## The product -/

theorem scAccRow_spec {i n : Nat} (x : Nat) (bl : List Nat) {acc : List Nat} (hacc : acc.length = 32) (hn : i + n ≤ 32) :
    (scAccRow i x bl n acc).length = 32 ∧
      wordsNum (scAccRow i x bl n acc) =
        wordsNum acc + x * 2 ^ (32 * i) * wordsNum (bl.take n) := by
  induction n with
  | zero => simp [scAccRow, wordsNum, hacc]
  | succ n ih =>
    obtain ⟨hlen, hval⟩ := ih (by omega)
    have hset := wordsNum_set (scAccRow i x bl n acc) (k := i + n) (by omega) (x * bl.getD n 0)
    refine ⟨by simp [scAccRow, hlen], ?_⟩
    rw [scAccRow, hset, hval, wordsNum_take_succ, Nat.mul_add 32 i n, Nat.pow_add]
    ring

theorem scAcc_spec (al bl : List Nat) {n : Nat} (hn : n ≤ 8) :
    (scAcc al bl n).length = 32 ∧
      wordsNum (scAcc al bl n) = wordsNum (al.take n) * wordsNum (bl.take 8) := by
  induction n with
  | zero =>
    refine ⟨List.length_replicate, ?_⟩
    rw [scAcc, wordsNum_replicate_zero, List.take_zero, wordsNum, Nat.zero_mul]
  | succ n ih =>
    obtain ⟨hlen, hval⟩ := ih (by omega)
    obtain ⟨hlen', hval'⟩ := scAccRow_spec (al.getD n 0) bl hlen (by omega : n + 8 ≤ 32)
    refine ⟨hlen', ?_⟩
    rw [scAcc, hval', hval, wordsNum_take_succ al, Nat.add_mul]

theorem scCarry_spec (vs : List Nat) (carry : Nat) :
    (scCarry vs carry).length = 4 * vs.length ∧
      leNum (scCarry vs carry) = (wordsNum vs + carry) % 2 ^ (32 * vs.length) := by
  induction vs generalizing carry with
  | nil => simp [scCarry, wordsNum, Nat.mod_one]
  | cons v vs ih =>
    obtain ⟨hlen, hval⟩ := ih ((v + carry) >>> 32)
    constructor
    · simp only [scCarry, List.length_append, hlen, List.length_cons]
      have hput : (put32le (UInt32.ofNat (v + carry))).length = 4 := rfl
      omega
    · have hlow : 256 ^ (put32le (UInt32.ofNat (v + carry))).length = 2 ^ 32 := by
        rw [show (put32le (UInt32.ofNat (v + carry))).length = 4 from rfl]
        decide
      rw [scCarry, leNum_append, leNum_put32le, hlow, hval, UInt32.toNat_ofNat',
        Nat.shiftRight_eq_div_pow, List.length_cons, Nat.mul_succ, Nat.add_comm (32 * vs.length) 32,
        Nat.pow_add, Nat.mod_mul]
      have hsum : (wordsNum (v :: vs) + carry) % 2 ^ 32 = (v + carry) % 2 ^ 32 := by
        rw [wordsNum]
        omega
      have hdiv : (wordsNum (v :: vs) + carry) / 2 ^ 32 = wordsNum vs + (v + carry) / 2 ^ 32 := by
        rw [wordsNum]
        omega
      rw [hsum, hdiv]

theorem wordsNum_scWords {a : List UInt8} (ha : a.length = 32) : wordsNum (scWords a) = leNum a := by
  have hwords (n : Nat) : wordsNum ((List.range n).map fun i => (get32le (a.drop (4 * i))).toNat) =
      leNum (a.take (4 * n)) := by
    induction n with
    | zero => simp [wordsNum]
    | succ n ih =>
      have hpow : 256 ^ (4 * n) = 2 ^ (32 * n) := by
        rw [show (256 : Nat) = 2 ^ 8 from rfl, ← Nat.pow_mul, ← Nat.mul_assoc]
      rw [List.range_succ, List.map_append, wordsNum_append, ih, List.length_map, List.length_range,
        Nat.mul_succ, leNum_take_add, hpow]
      simp [wordsNum, get32le_toNat]
  rw [scWords, hwords 8, List.take_of_length_le (by omega)]

theorem scProduct_spec {a b : List UInt8} (ha : a.length = 32) (hb : b.length = 32) :
    (scProduct a b).length = 64 ∧ leNum (scProduct a b) = leNum a * leNum b := by
  obtain ⟨hlen, hval⟩ := scAcc_spec (scWords a) (scWords b) (Nat.le_refl 8)
  obtain ⟨hclen, hcval⟩ := scCarry_spec ((scAcc (scWords a) (scWords b) 8).take 16) 0
  have htake : ((scAcc (scWords a) (scWords b) 8).take 16).length = 16 := by
    rw [List.length_take]
    omega
  have hfirst (a : List UInt8) : (scWords a).take 8 = scWords a :=
    List.take_of_length_le (by simp [scWords])
  have hsplit : wordsNum (scAcc (scWords a) (scWords b) 8) =
      wordsNum ((scAcc (scWords a) (scWords b) 8).take 16) +
        2 ^ 512 * wordsNum ((scAcc (scWords a) (scWords b) 8).drop 16) := by
    have hexp : 32 * 16 = 512 := rfl
    conv_lhs => rw [← List.take_append_drop 16 (scAcc (scWords a) (scWords b) 8)]
    rw [wordsNum_append, htake, hexp]
  have hlt : leNum a * leNum b < 2 ^ 512 := by
    have ha' := leNum_lt a
    have hb' := leNum_lt b
    rw [ha] at ha'
    rw [hb] at hb'
    have hsquare : 2 ^ 512 = 256 ^ 32 * 256 ^ 32 := by rw [← Nat.pow_add, pow_256_64]
    rw [hsquare]
    exact Nat.mul_lt_mul'' ha' hb'
  constructor
  · rw [scProduct, hclen, htake]
  · have hexp : 32 * 16 = 512 := rfl
    rw [hfirst, hfirst, wordsNum_scWords ha, wordsNum_scWords hb] at hval
    rw [scProduct, hcval, htake, hexp, Nat.add_zero, ← Nat.add_mul_mod_self_left, ← hsplit, hval,
      Nat.mod_eq_of_lt hlt]

/-! ## Offsets -/

theorem offset_modEq {x d : Nat} (hd : d ≤ 2 ^ 250) :
    x + 2 ^ 256 * d ≡ x [MOD groupOrder] ↔ d = 0 := by
  constructor
  · intro h
    have hzero : 2 ^ 256 * d ≡ 0 [MOD groupOrder] := Nat.ModEq.add_left_cancel' x (by simpa using h)
    have hdvd : groupOrder ∣ 2 ^ 256 * d := (Nat.modEq_zero_iff_dvd).mp hzero
    have hodd : Nat.Coprime groupOrder (2 ^ 256) := Nat.Coprime.pow_right 256 (by decide)
    have hsmall : d < groupOrder := Nat.lt_of_le_of_lt hd (by decide)
    exact Nat.eq_zero_of_dvd_of_lt (hodd.dvd_of_dvd_mul_left hdvd) hsmall
  · rintro rfl
    exact Nat.ModEq.refl _

theorem mul_lt_of_lt_order {x y : Nat} (hx : x < groupOrder) (hy : y < groupOrder) :
    x * y < 2 ^ 505 := by
  have hsquare : groupOrder * groupOrder < 2 ^ 253 * 2 ^ 252 := by decide
  have hexp : 2 ^ 505 = 2 ^ 253 * 2 ^ 252 := by rw [← Nat.pow_add]
  rw [hexp]
  exact Nat.lt_trans (Nat.mul_lt_mul'' hx hy) hsquare

variable {a b : List UInt8}

theorem scMulmod_lt (ha : a.length = 32) (hb : b.length = 32) :
    leNum (scMulmod a b) < groupOrder :=
  scReduce_low_lt (scProduct_spec ha hb).1

theorem scMulmod_offset (ha : a.length = 32) (hb : b.length = 32) (hx : leNum a < groupOrder)
    (hy : leNum b < groupOrder) :
    ∃ d, d ≤ 2 ^ 249 ∧ (d = 0 ↔ Gapless (leNum a * leNum b)) ∧
      leNum (scMulmod a b) = (leNum a * leNum b + 2 ^ 256 * d) % groupOrder := by
  obtain ⟨hlen, hval⟩ := scProduct_spec ha hb
  have hoffset := scReduce_offset hlen (by rw [hval]; exact mul_lt_of_lt_order hx hy)
  rwa [hval] at hoffset

theorem scMulmod_iff (ha : a.length = 32) (hb : b.length = 32) (hx : leNum a < groupOrder)
    (hy : leNum b < groupOrder) :
    leNum (scMulmod a b) = leNum a * leNum b % groupOrder ↔ Gapless (leNum a * leNum b) := by
  obtain ⟨d, hd, hzero, hval⟩ := scMulmod_offset ha hb hx hy
  rw [hval, ← hzero]
  exact offset_modEq (Nat.le_trans hd (by decide))

end Crypto
