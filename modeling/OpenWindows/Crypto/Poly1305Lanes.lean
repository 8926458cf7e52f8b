import Mathlib.Tactic.Linarith
import OpenWindows.Crypto.Poly1305
import OpenWindows.Crypto.Poly1305Spec

/-!
# Lanes refine numbers

`Lanes.val` reads five lanes as a number.  Each operation of the accumulator on
words is matched with the operation on numbers, under bounds that exclude an
overflow of `uint64_t`.
-/

namespace Crypto

open Bytes

/-! ## Words -/

theorem toNat_and_p26m (x : UInt64) : (x &&& p26m).toNat = x.toNat % 2 ^ 26 := by
  rw [UInt64.toNat_and]
  exact Nat.and_two_pow_sub_one_eq_mod x.toNat 26

theorem toNat_shiftRight_26 (x : UInt64) : (x >>> 26).toNat = x.toNat / 2 ^ 26 := by
  rw [UInt64.toNat_shiftRight, Nat.shiftRight_eq_div_pow]
  rfl

variable {x y s : UInt64} {k : Nat} {d h : Lanes}

theorem toNat_add_of_lt (h : x.toNat + y.toNat < 2 ^ 64) : (x + y).toNat = x.toNat + y.toNat := by
  rw [UInt64.toNat_add, Nat.mod_eq_of_lt h]

theorem toNat_mul_of_lt (h : x.toNat * y.toNat < 2 ^ 64) : (x * y).toNat = x.toNat * y.toNat := by
  rw [UInt64.toNat_mul, Nat.mod_eq_of_lt h]

theorem or_shiftLeft {x y : Nat} (hx : x < 2 ^ k) : x ||| (y <<< k) = x + y * 2 ^ k := by
  rw [Nat.or_comm, ← Nat.shiftLeft_add_eq_or_of_lt hx, Nat.shiftLeft_eq, Nat.add_comm]

theorem toNat_shiftRight_of_eq (hs : s.toNat = k) (hk : k < 64) :
    (x >>> s).toNat = x.toNat / 2 ^ k := by
  rw [UInt64.toNat_shiftRight, hs, Nat.mod_eq_of_lt hk, Nat.shiftRight_eq_div_pow]

theorem toNat_shiftLeft_of_eq (hs : s.toNat = k) (hk : k < 64) :
    (x <<< s).toNat = x.toNat * 2 ^ k % 2 ^ 64 := by
  rw [UInt64.toNat_shiftLeft, hs, Nat.mod_eq_of_lt hk, Nat.shiftLeft_eq]

theorem toNat_or_shiftLeft (hs : s.toNat = k) (hk : k < 64)
    (hx : x.toNat < 2 ^ k) (hy : y.toNat * 2 ^ k < 2 ^ 64) :
    (x ||| (y <<< s)).toNat = x.toNat + y.toNat * 2 ^ k := by
  rw [UInt64.toNat_or, toNat_shiftLeft_of_eq hs hk, Nat.mod_eq_of_lt hy, ← Nat.shiftLeft_eq,
    or_shiftLeft hx, Nat.shiftLeft_eq]

theorem toNat_or_getD {p : List UInt8} {n : Nat} (hs : s.toNat = 8 * n) (hn : n < 8)
    (hx : x.toNat = leNum (p.take n)) :
    (x ||| ((p.getD n 0).toUInt64 <<< s)).toNat = leNum (p.take (n + 1)) := by
  have hpow : 256 ^ n = 2 ^ (8 * n) := by rw [Nat.pow_mul]
  have hlow : x.toNat < 2 ^ (8 * n) := by
    have hlt := leNum_lt (p.take n)
    rw [hx, ← hpow]
    exact hlt.trans_le (Nat.pow_le_pow_right (by decide) (List.length_take_le n p))
  have hbyte : (p.getD n 0).toUInt64.toNat * 2 ^ (8 * n) < 2 ^ 64 := by
    calc (p.getD n 0).toUInt64.toNat * 2 ^ (8 * n) < 2 ^ 8 * 2 ^ (8 * n) := by
          rw [UInt8.toNat_toUInt64]
          exact Nat.mul_lt_mul_of_pos_right (p.getD n 0).toNat_lt (Nat.two_pow_pos _)
      _ = 2 ^ (8 * n + 8) := by rw [Nat.pow_add, Nat.mul_comm]
      _ ≤ 2 ^ 64 := Nat.pow_le_pow_right (by decide) (by omega)
  rw [toNat_or_shiftLeft hs (by omega) hlow hbyte, hx, leNum_take_succ, UInt8.toNat_toUInt64, hpow]

theorem get64le_toNat (p : List UInt8) : (get64le p).toNat = leNum (p.take 8) := by
  have h0 : ((p.getD 0 0).toUInt64).toNat = leNum (p.take 1) := by
    rw [leNum_take_succ, UInt8.toNat_toUInt64]
    simp
  have h1 := toNat_or_getD (s := 8) rfl (by decide) h0
  have h2 := toNat_or_getD (s := 16) rfl (by decide) h1
  have h3 := toNat_or_getD (s := 24) rfl (by decide) h2
  have h4 := toNat_or_getD (s := 32) rfl (by decide) h3
  have h5 := toNat_or_getD (s := 40) rfl (by decide) h4
  have h6 := toNat_or_getD (s := 48) rfl (by decide) h5
  exact toNat_or_getD (s := 56) rfl (by decide) h6

theorem put64le_eq (v : UInt64) : put64le v = leBytes 8 v.toNat := by
  have hbyte : ∀ {s : UInt64} {k : Nat}, s.toNat = k → k < 64 →
      (v >>> s).toUInt8 = UInt8.ofNat (v.toNat / 2 ^ k) := by
    intro s k hs hk
    rw [← toNat_shiftRight_of_eq hs hk]
    rfl
  have h0 : v.toUInt8 = UInt8.ofNat v.toNat := rfl
  simp only [leBytes, Nat.div_div_eq_div_mul, put64le, h0, hbyte (s := 8) (k := 8) rfl (by decide),
    hbyte (s := 16) (k := 16) rfl (by decide), hbyte (s := 24) (k := 24) rfl (by decide),
    hbyte (s := 32) (k := 32) rfl (by decide), hbyte (s := 40) (k := 40) rfl (by decide),
    hbyte (s := 48) (k := 48) rfl (by decide), hbyte (s := 56) (k := 56) rfl (by decide)]
  norm_num

/-! ## Lanes -/

/-- The number in five lanes. -/
def Lanes.val (d : Lanes) : Nat :=
  d.l0.toNat + 2 ^ 26 * d.l1.toNat + 2 ^ 52 * d.l2.toNat + 2 ^ 78 * d.l3.toNat +
    2 ^ 104 * d.l4.toNat

/-- Every lane is below `b`. -/
structure Lanes.Below (d : Lanes) (b : Nat) : Prop where
  l0 : d.l0.toNat < b
  l1 : d.l1.toNat < b
  l2 : d.l2.toNat < b
  l3 : d.l3.toNat < b
  l4 : d.l4.toNat < b

theorem Lanes.Below.val_lt (h : d.Below (2 ^ 26)) : d.val < 2 ^ 130 := by
  obtain ⟨h0, h1, h2, h3, h4⟩ := h
  unfold Lanes.val
  omega

theorem Lanes.val_set_l0 (d : Lanes) (x : UInt64) :
    Lanes.val { d with l0 := x } + d.l0.toNat = d.val + x.toNat := by
  simp only [Lanes.val]
  omega

theorem Lanes.Below.lane_val (h : d.Below (2 ^ 26)) :
    lane 0 d.val = d.l0.toNat ∧ lane 1 d.val = d.l1.toNat ∧ lane 2 d.val = d.l2.toNat ∧
      lane 3 d.val = d.l3.toNat ∧ lane 4 d.val = d.l4.toNat := by
  obtain ⟨h0, h1, h2, h3, h4⟩ := h
  unfold lane Lanes.val
  omega

theorem splitLanes_spec (w0 w1 : UInt64) :
    (splitLanes w0 w1).Below (2 ^ 26) ∧ (splitLanes w0 w1).l4.toNat < 2 ^ 24 ∧
      (splitLanes w0 w1).val = w0.toNat + 2 ^ 64 * w1.toNat := by
  have hw0 := w0.toNat_lt
  have hw1 := w1.toNat_lt
  have h52 : (w0 >>> 52).toNat = w0.toNat / 2 ^ 52 :=
    toNat_shiftRight_of_eq rfl (by decide)
  have hand : (w1 &&& 0x3FFF).toNat = w1.toNat % 2 ^ 14 := by
    rw [UInt64.toNat_and]
    exact Nat.and_two_pow_sub_one_eq_mod w1.toNat 14
  have h2 : ((w0 >>> 52) ||| ((w1 &&& 0x3FFF) <<< 12)).toNat =
      w0.toNat / 2 ^ 52 + w1.toNat % 2 ^ 14 * 2 ^ 12 := by
    rw [toNat_or_shiftLeft (k := 12) rfl (by decide) (by rw [h52]; omega) (by rw [hand]; omega),
      h52, hand]
  have h14 : (w1 >>> 14).toNat = w1.toNat / 2 ^ 14 :=
    toNat_shiftRight_of_eq rfl (by decide)
  have h40 : (w1 >>> 40).toNat = w1.toNat / 2 ^ 40 :=
    toNat_shiftRight_of_eq rfl (by decide)
  refine ⟨⟨?_, ?_, ?_, ?_, ?_⟩, ?_, ?_⟩ <;>
    simp only [splitLanes, Lanes.val, toNat_and_p26m, toNat_shiftRight_26, h2, h14, h40] <;> omega

theorem and_p26m_lt (x : UInt64) : (x &&& p26m).toNat < 2 ^ 26 := by
  rw [toNat_and_p26m]
  exact Nat.mod_lt _ (by decide)

theorem toNat_add_shiftRight (hx : x.toNat < 2 ^ 63) :
    (x + (y >>> 26)).toNat = x.toNat + y.toNat / 2 ^ 26 := by
  have hy := y.toNat_lt
  rw [toNat_add_of_lt, toNat_shiftRight_26]
  rw [toNat_shiftRight_26]
  omega

theorem carry_chain {a0 a1 a2 a3 a4 b1 b2 b3 b4 : Nat} (h1 : b1 = a1 + a0 / 2 ^ 26)
    (h2 : b2 = a2 + b1 / 2 ^ 26) (h3 : b3 = a3 + b2 / 2 ^ 26) (h4 : b4 = a4 + b3 / 2 ^ 26) :
    a0 % 2 ^ 26 + 2 ^ 26 * (b1 % 2 ^ 26) + 2 ^ 52 * (b2 % 2 ^ 26) + 2 ^ 78 * (b3 % 2 ^ 26) +
        2 ^ 104 * (b4 % 2 ^ 26) =
      (a0 + 2 ^ 26 * a1 + 2 ^ 52 * a2 + 2 ^ 78 * a3 + 2 ^ 104 * a4) % 2 ^ 130 ∧
    b4 / 2 ^ 26 = (a0 + 2 ^ 26 * a1 + 2 ^ 52 * a2 + 2 ^ 78 * a3 + 2 ^ 104 * a4) / 2 ^ 130 := by
  omega

theorem carryLanes_spec (h : d.Below (2 ^ 63)) :
    (carryLanes d).1.Below (2 ^ 26) ∧ (carryLanes d).1.val = d.val % 2 ^ 130 ∧
      (carryLanes d).2.toNat = d.val / 2 ^ 130 := by
  obtain ⟨h0, h1, h2, h3, h4⟩ := h
  have e1 := toNat_add_shiftRight (y := d.l0) h1
  have e2 := toNat_add_shiftRight (y := d.l1 + (d.l0 >>> 26)) h2
  have e3 := toNat_add_shiftRight (y := d.l2 + ((d.l1 + (d.l0 >>> 26)) >>> 26)) h3
  have e4 := toNat_add_shiftRight (y := d.l3 + ((d.l2 + ((d.l1 + (d.l0 >>> 26)) >>> 26)) >>> 26)) h4
  obtain ⟨hval, hcarry⟩ := carry_chain e1 e2 e3 e4
  refine ⟨⟨and_p26m_lt _, and_p26m_lt _, and_p26m_lt _, and_p26m_lt _, and_p26m_lt _⟩, ?_, ?_⟩
  · simp only [carryLanes, Lanes.val, toNat_and_p26m]
    exact hval
  · simp only [carryLanes, toNat_shiftRight_26]
    exact hcarry

/-! ## Addition -/

theorem and_p26m_of_lt (h : x.toNat < 2 ^ 26) : x &&& p26m = x := by
  apply UInt64.toNat_inj.mp
  rw [toNat_and_p26m, Nat.mod_eq_of_lt h]

theorem shiftRight_26_of_lt (h : x.toNat < 2 ^ 26) : x >>> 26 = 0 := by
  apply UInt64.toNat_inj.mp
  rw [toNat_shiftRight_26, Nat.div_eq_of_lt h]
  rfl

theorem rippleLanes_eq (hh : h.Below (2 ^ 26)) (carry : UInt64) :
    rippleLanes h carry = (carryLanes { h with l1 := h.l1 + carry }).1 := by
  obtain ⟨h0, h1, h2, h3, h4⟩ := hh
  simp only [carryLanes, shiftRight_26_of_lt h0, and_p26m_of_lt h0, UInt64.add_zero]
  unfold rippleLanes
  split
  next hc =>
    simp only [hc, UInt64.add_zero, and_p26m_of_lt h1, shiftRight_26_of_lt h1, and_p26m_of_lt h2,
      shiftRight_26_of_lt h2, and_p26m_of_lt h3, shiftRight_26_of_lt h3, and_p26m_of_lt h4]
  · dsimp only
    split
    next hc =>
      simp only [hc, UInt64.add_zero, and_p26m_of_lt h2, shiftRight_26_of_lt h2, and_p26m_of_lt h3,
        shiftRight_26_of_lt h3, and_p26m_of_lt h4]
    · split
      next hc =>
        simp only [hc, UInt64.add_zero, and_p26m_of_lt h3, shiftRight_26_of_lt h3,
          and_p26m_of_lt h4]
      · split
        next hc => simp only [hc, UInt64.add_zero, and_p26m_of_lt h4]
        · rfl

theorem rippleLanes_spec {g : Lanes} (hg : g.Below (2 ^ 26))
    (hlt : x.toNat + 2 ^ 26 * g.l1.toNat + 2 ^ 52 * g.l2.toNat + 2 ^ 78 * g.l3.toNat +
      2 ^ 104 * g.l4.toNat < 2 ^ 130) :
    (rippleLanes { g with l0 := x &&& p26m } (x >>> 26)).Below (2 ^ 26) ∧
      (rippleLanes { g with l0 := x &&& p26m } (x >>> 26)).val =
        x.toNat + 2 ^ 26 * g.l1.toNat + 2 ^ 52 * g.l2.toNat + 2 ^ 78 * g.l3.toNat +
          2 ^ 104 * g.l4.toNat := by
  obtain ⟨h0, h1, h2, h3, h4⟩ := hg
  have hx := x.toNat_lt
  have hl1 := toNat_add_shiftRight (y := x) (show g.l1.toNat < 2 ^ 63 by omega)
  rw [rippleLanes_eq (h := { g with l0 := x &&& p26m }) ⟨and_p26m_lt x, h1, h2, h3, h4⟩]
  obtain ⟨hb, hv, -⟩ := carryLanes_spec
    (d := ⟨x &&& p26m, g.l1 + x >>> 26, g.l2, g.l3, g.l4⟩)
    ⟨(and_p26m_lt x).trans (by decide), by rw [hl1]; omega, h2.trans (by decide),
      h3.trans (by decide), h4.trans (by decide)⟩
  refine ⟨hb, hv.trans ?_⟩
  simp only [Lanes.val, toNat_and_p26m, hl1]
  omega

theorem addLanes_spec {md : Lanes} (hh : h.Below (2 ^ 26)) (hm : md.Below (2 ^ 26))
    (hmd : md.val < 2 ^ 129) :
    (addLanes h md).Below (2 ^ 26) ∧ (addLanes h md).val = fold130 (h.val + md.val) := by
  have hval := hh.val_lt
  obtain ⟨h0, h1, h2, h3, h4⟩ := hh
  obtain ⟨m0, m1, m2, m3, m4⟩ := hm
  have add : ∀ {x y : UInt64}, x.toNat < 2 ^ 26 → y.toNat < 2 ^ 26 →
      (x + y).toNat = x.toNat + y.toNat := fun hx hy => toNat_add_of_lt (by omega)
  obtain ⟨hb, hv, hc⟩ := carryLanes_spec
    (d := ⟨h.l0 + md.l0, h.l1 + md.l1, h.l2 + md.l2, h.l3 + md.l3, h.l4 + md.l4⟩)
    ⟨by rw [add h0 m0]; omega, by rw [add h1 m1]; omega, by rw [add h2 m2]; omega,
      by rw [add h3 m3]; omega, by rw [add h4 m4]; omega⟩
  have hsum : Lanes.val ⟨h.l0 + md.l0, h.l1 + md.l1, h.l2 + md.l2, h.l3 + md.l3, h.l4 + md.l4⟩ =
      h.val + md.val := by
    simp only [Lanes.val, add h0 m0, add h1 m1, add h2 m2, add h3 m3, add h4 m4]
    omega
  rw [hsum] at hv hc
  unfold addLanes
  generalize carryLanes ⟨h.l0 + md.l0, h.l1 + md.l1, h.l2 + md.l2, h.l3 + md.l3, h.l4 + md.l4⟩ =
    res at hb hv hc ⊢
  obtain ⟨g, carry⟩ := res
  dsimp only at hb hv hc ⊢
  have hfold := fold130_lt (x := h.val + md.val) (by omega)
  unfold fold130 at hfold ⊢
  split
  next hne =>
    have h5 : (carry * 5).toNat = carry.toNat * 5 := toNat_mul_of_lt (by
      show carry.toNat * 5 < 2 ^ 64
      omega)
    have hg0 : (g.l0 + carry * 5).toNat = g.l0.toNat + carry.toNat * 5 := by
      have hlt := hb.l0
      rw [toNat_add_of_lt, h5]
      rw [h5]
      omega
    have hgv : g.val = g.l0.toNat + 2 ^ 26 * g.l1.toNat + 2 ^ 52 * g.l2.toNat +
        2 ^ 78 * g.l3.toNat + 2 ^ 104 * g.l4.toNat := rfl
    obtain ⟨hb', hv'⟩ := rippleLanes_spec (x := g.l0 + carry * 5) hb (by rw [hg0]; omega)
    refine ⟨hb', hv'.trans ?_⟩
    rw [hg0]
    omega
  next hzero =>
    have hzero : carry.toNat = 0 := by
      rw [not_not.mp hzero]
      rfl
    exact ⟨hb, by omega⟩

/-! ## Multiplication -/

/-- The state holds the multiplier `r`, and the lanes that wrap around times
five. -/
structure P1305.Keyed (c : P1305) (r : Nat) : Prop where
  below : c.r.Below (2 ^ 26)
  val : c.r.val = r
  s0 : c.s0.toNat = 5 * c.r.l1.toNat
  s1 : c.s1.toNat = 5 * c.r.l2.toNat
  s2 : c.s2.toNat = 5 * c.r.l3.toNat
  s3 : c.s3.toNat = 5 * c.r.l4.toNat

theorem toNat_dot {x0 x1 x2 x3 x4 y0 y1 y2 y3 y4 : UInt64}
    (hx0 : x0.toNat < 2 ^ 26) (hx1 : x1.toNat < 2 ^ 26) (hx2 : x2.toNat < 2 ^ 26)
    (hx3 : x3.toNat < 2 ^ 26) (hx4 : x4.toNat < 2 ^ 26) (hy0 : y0.toNat < 5 * 2 ^ 26)
    (hy1 : y1.toNat < 5 * 2 ^ 26) (hy2 : y2.toNat < 5 * 2 ^ 26) (hy3 : y3.toNat < 5 * 2 ^ 26)
    (hy4 : y4.toNat < 5 * 2 ^ 26) :
    (x0 * y0 + x1 * y1 + x2 * y2 + x3 * y3 + x4 * y4).toNat =
        x0.toNat * y0.toNat + x1.toNat * y1.toNat + x2.toNat * y2.toNat + x3.toNat * y3.toNat +
          x4.toNat * y4.toNat ∧
      (x0 * y0 + x1 * y1 + x2 * y2 + x3 * y3 + x4 * y4).toNat < 2 ^ 63 := by
  have term : ∀ {x y : UInt64}, x.toNat < 2 ^ 26 → y.toNat < 5 * 2 ^ 26 →
      x.toNat * y.toNat < 5 * 2 ^ 52 := by
    intro x y hx hy
    calc x.toNat * y.toNat < 2 ^ 26 * (5 * 2 ^ 26) := Nat.mul_lt_mul'' hx hy
      _ = 5 * 2 ^ 52 := by decide
  have t0 := term hx0 hy0
  have t1 := term hx1 hy1
  have t2 := term hx2 hy2
  have t3 := term hx3 hy3
  have t4 := term hx4 hy4
  simp only [UInt64.toNat_add, UInt64.toNat_mul]
  omega

theorem wrapMul_lanes {r : Lanes} (hh : h.Below (2 ^ 26)) (hr : r.Below (2 ^ 26)) :
    wrapMul h.val r.val =
      (h.l0.toNat * r.l0.toNat + h.l1.toNat * (5 * r.l4.toNat) + h.l2.toNat * (5 * r.l3.toNat) +
        h.l3.toNat * (5 * r.l2.toNat) + h.l4.toNat * (5 * r.l1.toNat)) +
      2 ^ 26 * (h.l0.toNat * r.l1.toNat + h.l1.toNat * r.l0.toNat +
        h.l2.toNat * (5 * r.l4.toNat) + h.l3.toNat * (5 * r.l3.toNat) +
        h.l4.toNat * (5 * r.l2.toNat)) +
      2 ^ 52 * (h.l0.toNat * r.l2.toNat + h.l1.toNat * r.l1.toNat + h.l2.toNat * r.l0.toNat +
        h.l3.toNat * (5 * r.l4.toNat) + h.l4.toNat * (5 * r.l3.toNat)) +
      2 ^ 78 * (h.l0.toNat * r.l3.toNat + h.l1.toNat * r.l2.toNat + h.l2.toNat * r.l1.toNat +
        h.l3.toNat * r.l0.toNat + h.l4.toNat * (5 * r.l4.toNat)) +
      2 ^ 104 * (h.l0.toNat * r.l4.toNat + h.l1.toNat * r.l3.toNat + h.l2.toNat * r.l2.toNat +
        h.l3.toNat * r.l1.toNat + h.l4.toNat * r.l0.toNat) := by
  obtain ⟨h0, h1, h2, h3, h4⟩ := hh.lane_val
  obtain ⟨r0, r1, r2, r3, r4⟩ := hr.lane_val
  simp only [wrapMul, Finset.sum_range_succ, Finset.sum_range_zero, h0, h1, h2, h3, h4, r0, r1, r2,
    r3, r4, wrapPow]
  norm_num
  ring

variable {c : P1305} {r : Nat}

theorem mulLanes_spec (hk : c.Keyed r) (hh : c.h.Below (2 ^ 26)) :
    (mulLanes c).Below (2 ^ 63) ∧ (mulLanes c).val = wrapMul c.h.val r := by
  obtain ⟨hr, rfl, hs0, hs1, hs2, hs3⟩ := hk
  have hV := wrapMul_lanes hh hr
  obtain ⟨h0, h1, h2, h3, h4⟩ := hh
  obtain ⟨r0, r1, r2, r3, r4⟩ := hr
  have hb : ∀ {x : UInt64}, x.toNat < 2 ^ 26 → x.toNat < 5 * 2 ^ 26 := fun hx => by omega
  have b0 : c.s0.toNat < 5 * 2 ^ 26 := by omega
  have b1 : c.s1.toNat < 5 * 2 ^ 26 := by omega
  have b2 : c.s2.toNat < 5 * 2 ^ 26 := by omega
  have b3 : c.s3.toNat < 5 * 2 ^ 26 := by omega
  obtain ⟨e0, d0⟩ := toNat_dot h0 h1 h2 h3 h4 (hb r0) b3 b2 b1 b0
  obtain ⟨e1, d1⟩ := toNat_dot h0 h1 h2 h3 h4 (hb r1) (hb r0) b3 b2 b1
  obtain ⟨e2, d2⟩ := toNat_dot h0 h1 h2 h3 h4 (hb r2) (hb r1) (hb r0) b3 b2
  obtain ⟨e3, d3⟩ := toNat_dot h0 h1 h2 h3 h4 (hb r3) (hb r2) (hb r1) (hb r0) b3
  obtain ⟨e4, d4⟩ := toNat_dot h0 h1 h2 h3 h4 (hb r4) (hb r3) (hb r2) (hb r1) (hb r0)
  refine ⟨⟨d0, d1, d2, d3, d4⟩, ?_⟩
  rw [hV, Lanes.val, mulLanes, e0, e1, e2, e3, e4, hs0, hs1, hs2, hs3]

theorem p1305Mul_spec (hk : c.Keyed r) (hh : c.h.Below (2 ^ 26)) : (p1305Mul c).h.Below (2 ^ 26) ∧
      (p1305Mul c).h.val = fold130 (wrapMul c.h.val r) % 2 ^ 130 := by
  have hlt := wrapMul_lt c.h.val r
  obtain ⟨hd, hval⟩ := mulLanes_spec hk hh
  obtain ⟨hb, hv, hc⟩ := carryLanes_spec hd
  rw [hval] at hv hc
  unfold p1305Mul
  generalize carryLanes (mulLanes c) = res at hb hv hc ⊢
  obtain ⟨g, c1⟩ := res
  dsimp only at hb hv hc ⊢
  have hg0 : (g.l0 + c1 * 5).toNat = g.l0.toNat + c1.toNat * 5 := by
    have hlt0 := hb.l0
    have h5 : (c1 * 5).toNat = c1.toNat * 5 := toNat_mul_of_lt (by
      show c1.toNat * 5 < 2 ^ 64
      omega)
    rw [toNat_add_of_lt, h5]
    rw [h5]
    omega
  obtain ⟨hb', hv', -⟩ := carryLanes_spec (d := { g with l0 := g.l0 + c1 * 5 })
    ⟨by
      have hlt0 := hb.l0
      show (g.l0 + c1 * 5).toNat < 2 ^ 63
      omega, hb.l1.trans (by decide), hb.l2.trans (by decide), hb.l3.trans (by decide),
      hb.l4.trans (by decide)⟩
  have hset := g.val_set_l0 (g.l0 + c1 * 5)
  refine ⟨hb', hv'.trans ?_⟩
  rw [fold130]
  congr 1
  omega

/-! ## Blocks -/

theorem blockNum_eq (b : List UInt8) : blockNum b = leNum b + 256 ^ b.length := by
  rw [blockNum, leNum_append]
  simp [leNum]

theorem blockNum_lt {b : List UInt8} (hb : b.length ≤ 16) : blockNum b < 2 ^ 129 := by
  have hlt := leNum_lt b
  have hpow : 256 ^ b.length ≤ 256 ^ 16 := Nat.pow_le_pow_right (by decide) hb
  rw [blockNum_eq]
  omega

theorem toNat_or_one {n : Nat} (hn : n < 8) (hx : x.toNat < 256 ^ n) :
    (x ||| ((1 : UInt64) <<< UInt64.ofNat (8 * n))).toNat = x.toNat + 256 ^ n := by
  have hpow : 256 ^ n = 2 ^ (8 * n) := by rw [Nat.pow_mul]
  have hlt : 2 ^ (8 * n) < 2 ^ 64 := Nat.pow_lt_pow_right (by decide) (by omega)
  rw [hpow] at hx ⊢
  rw [toNat_or_shiftLeft (k := 8 * n) (UInt64.toNat_ofNat_of_lt' (by
    show 8 * n < 2 ^ 64
    omega)) (by omega) hx]
  · show x.toNat + 1 * 2 ^ (8 * n) = _
    rw [Nat.one_mul]
  · show 1 * 2 ^ (8 * n) < 2 ^ 64
    omega

theorem leNum_words (blk : List UInt8) (h : blk.length = 16) :
    (get64le blk).toNat + 2 ^ 64 * (get64le (blk.drop 8)).toNat = leNum blk := by
  rw [get64le_toNat, get64le_toNat, List.take_of_length_le (l := blk.drop 8) (by simp [h])]
  conv_rhs => rw [← List.take_append_drop 8 blk, leNum_append]
  simp [h]

theorem blockLanes_full {blk : List UInt8} (h : blk.length = 16) :
    (blockLanes blk 16).Below (2 ^ 26) ∧ (blockLanes blk 16).val = blockNum blk := by
  obtain ⟨hb, h24, hv⟩ := splitLanes_spec (get64le blk) (get64le (blk.drop 8))
  have hl4 : ((splitLanes (get64le blk) (get64le (blk.drop 8))).l4 ||| ((1 : UInt64) <<< 24)).toNat =
      (splitLanes (get64le blk) (get64le (blk.drop 8))).l4.toNat + 2 ^ 24 := by
    rw [toNat_or_shiftLeft (k := 24) rfl (by decide) h24 (by decide)]
    rfl
  rw [leNum_words blk h] at hv
  simp only [blockLanes, show ¬ (16 < 8) by decide, show ¬ (8 ≤ 16 ∧ 16 < 16) by decide, if_false,
    if_true]
  generalize splitLanes (get64le blk) (get64le (blk.drop 8)) = d at *
  refine ⟨⟨hb.l0, hb.l1, hb.l2, hb.l3, ?_⟩, ?_⟩
  · show (d.l4 ||| ((1 : UInt64) <<< 24)).toNat < 2 ^ 26
    omega
  · rw [blockNum_eq, h]
    simp only [Lanes.val, hl4] at hv ⊢
    omega

theorem blockLanes_part {b : List UInt8} (h : b.length < 16) :
    (blockLanes (b ++ List.replicate (16 - b.length) 0) b.length).Below (2 ^ 26) ∧
      (blockLanes (b ++ List.replicate (16 - b.length) 0) b.length).val = blockNum b := by
  set blk := b ++ List.replicate (16 - b.length) 0 with hblk
  have hlen : blk.length = 16 := by simp [hblk]; omega
  have hnum : leNum blk = leNum b := by
    rw [hblk, leNum_append, leNum_replicate_zero, Nat.mul_zero, Nat.add_zero]
  have hwords := leNum_words blk hlen
  have hlt := leNum_lt b
  rw [hnum] at hwords
  rw [blockNum_eq]
  simp only [blockLanes, show b.length ≠ 16 by omega, if_false]
  by_cases h8 : b.length < 8
  · -- the bit goes into the low word
    have hpow : 256 ^ b.length ≤ 256 ^ 8 := Nat.pow_le_pow_right (by decide) (by omega)
    have h1 : (get64le blk).toNat < 256 ^ b.length := by omega
    have hor := toNat_or_one h8 h1
    simp only [h8, if_true, show ¬ (8 ≤ b.length ∧ b.length < 16) by omega, if_false]
    obtain ⟨hb, -, hv⟩ := splitLanes_spec
      (get64le blk ||| ((1 : UInt64) <<< UInt64.ofNat (8 * b.length))) (get64le (blk.drop 8))
    exact ⟨hb, by rw [hv, hor]; omega⟩
  · -- the bit goes into the high word
    have hpow : 256 ^ b.length = 2 ^ 64 * 256 ^ (b.length - 8) := by
      rw [show (2 : Nat) ^ 64 = 256 ^ 8 by decide, ← Nat.pow_add]
      congr 1
      omega
    have h1 : (get64le (blk.drop 8)).toNat < 256 ^ (b.length - 8) := by
      have hlow := (get64le blk).toNat_lt
      omega
    have hor := toNat_or_one (n := b.length - 8) (by omega) h1
    simp only [h8, if_false, show 8 ≤ b.length ∧ b.length < 16 by omega, and_self, if_true]
    obtain ⟨hb, -, hv⟩ := splitLanes_spec (get64le blk)
      (get64le (blk.drop 8) ||| ((1 : UInt64) <<< UInt64.ofNat (8 * (b.length - 8))))
    exact ⟨hb, by rw [hv, hor]; omega⟩

theorem p1305Block_spec {m : Nat} (hk : c.Keyed r) (hh : c.h.Below (2 ^ 26))
    {blk : List UInt8} {tlen : Nat} (hmb : (blockLanes blk tlen).Below (2 ^ 26))
    (hmv : (blockLanes blk tlen).val = m) (hm : m < 2 ^ 129) :
    (p1305Block c blk tlen).h.Below (2 ^ 26) ∧
      (p1305Block c blk tlen).h.val = absorb r c.h.val m % 2 ^ 130 := by
  obtain ⟨hb, hv⟩ := addLanes_spec hh hmb (by rw [hmv]; exact hm)
  rw [hmv] at hv
  obtain ⟨hb', hv'⟩ := p1305Mul_spec (c := { c with h := addLanes c.h (blockLanes blk tlen) })
    (r := r) ⟨hk.below, hk.val, hk.s0, hk.s1, hk.s2, hk.s3⟩ hb
  exact ⟨hb', by rw [p1305Block, hv', hv, absorb]⟩

end Crypto
