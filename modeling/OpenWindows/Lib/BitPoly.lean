import Mathlib.Algebra.Polynomial.Div
import Mathlib.Algebra.Field.ZMod
import OpenWindows.Lib.Crc

/-!
# Rows of bits as polynomials

A row of `n` bits is a polynomial over the field of two elements, with bit `i` as the
coefficient of `X ^ i`.  Rows are added with an exclusive or.  A register that is moved by
one place, and to which a fixed row is added for a bit that falls out at the end, is
multiplied by `X` modulo `X ^ n` plus that row.  A row is its own remainder, so a row
that is congruent to some polynomial is the remainder of that polynomial.
-/

namespace BitPoly

open Polynomial

/-- The polynomial of the first `n` bits of a row. -/
noncomputable def ofBits (n : Nat) (f : Nat → Bool) : (ZMod 2)[X] :=
  ∑ i ∈ Finset.range n, if f i then X ^ i else 0

/-- `X ^ n` and a row below it. -/
noncomputable def modulus (n : Nat) (p : Nat → Bool) : (ZMod 2)[X] := X ^ n + ofBits n p

variable {n : Nat} {f g p : Nat → Bool}

theorem add_self (a : (ZMod 2)[X]) : a + a = 0 := CharTwo.add_self_eq_zero a

theorem ofBits_succ (n : Nat) (f : Nat → Bool) :
    ofBits (n + 1) f = ofBits n f + if f n then X ^ n else 0 := Finset.sum_range_succ ..

theorem ofBits_congr (h : ∀ i < n, f i = g i) : ofBits n f = ofBits n g :=
  Finset.sum_congr rfl fun i hi => by rw [h i (Finset.mem_range.mp hi)]

theorem ofBits_xor (n : Nat) (f g : Nat → Bool) :
    ofBits n (fun i => f i ^^ g i) = ofBits n f + ofBits n g := by
  rw [ofBits, ofBits, ofBits, ← Finset.sum_add_distrib]
  refine Finset.sum_congr rfl fun i _ => ?_
  cases f i <;> cases g i <;> simp [add_self]

theorem ofBits_false (n : Nat) : ofBits n (fun _ => false) = 0 :=
  Finset.sum_eq_zero fun _ _ => rfl

theorem coeff_ofBits (n : Nat) (f : Nat → Bool) (i : Nat) :
    (ofBits n f).coeff i = if i < n ∧ f i = true then 1 else 0 := by
  induction n with
  | zero => simp [ofBits]
  | succ n ih =>
    rw [ofBits_succ, coeff_add, ih]
    by_cases hi : i = n
    · subst hi
      cases f i <;> simp
    · have hlt : i < n + 1 ↔ i < n := by omega
      have hzero : (if f n = true then (X ^ n : (ZMod 2)[X]) else 0).coeff i = 0 := by
        split
        · rw [coeff_X_pow, if_neg hi]
        · exact coeff_zero i
      simp only [hlt, hzero, add_zero]

/-- A row with few bits. -/
theorem ofBits_mem {l : List Nat} (hl : l.Nodup) (hlt : ∀ i ∈ l, i < n) :
    ofBits n (fun i => decide (i ∈ l)) = (l.map fun i => X ^ i).sum := by
  have hfilter : (Finset.range n).filter (· ∈ l) = l.toFinset := by
    ext i
    rw [Finset.mem_filter, Finset.mem_range, List.mem_toFinset]
    exact ⟨fun h => h.2, fun h => ⟨hlt i h, h⟩⟩
  simp only [ofBits, decide_eq_true_eq]
  rw [← Finset.sum_filter, hfilter, List.sum_toFinset _ hl]

theorem ofBits_inj (h : ofBits n f = ofBits n g) : ∀ i < n, f i = g i := by
  intro i hi
  have hcoeff := congrArg (fun a => a.coeff i) h
  simp only [coeff_ofBits, hi, true_and] at hcoeff
  cases hf : f i <;> cases hg : g i <;> simp_all

theorem degree_ofBits_lt (n : Nat) (f : Nat → Bool) : (ofBits n f).degree < n := by
  rw [Polynomial.degree_lt_iff_coeff_zero]
  intro i hi
  rw [coeff_ofBits, if_neg fun h => Nat.not_lt_of_le hi h.1]

theorem modulus_monic (n : Nat) (p : Nat → Bool) : (modulus n p).Monic :=
  monic_X_pow_add (degree_ofBits_lt n p)

theorem degree_modulus (n : Nat) (p : Nat → Bool) : (modulus n p).degree = n := by
  have hlt : (ofBits n p).degree < (X ^ n : (ZMod 2)[X]).degree := by
    rw [degree_X_pow]
    exact degree_ofBits_lt n p
  rw [modulus, degree_add_eq_left_of_degree_lt hlt, degree_X_pow]

/-- Congruent modulo a polynomial. -/
def Cong (m a b : (ZMod 2)[X]) : Prop := m ∣ a - b

variable {m a b c d : (ZMod 2)[X]}

theorem Cong.refl (m a : (ZMod 2)[X]) : Cong m a a := by
  rw [Cong, sub_self]
  exact dvd_zero m

theorem Cong.symm (h : Cong m a b) : Cong m b a := (dvd_sub_comm).mp h

theorem Cong.trans (h : Cong m a b) (h' : Cong m b c) : Cong m a c := by
  rw [Cong, ← sub_add_sub_cancel a b c]
  exact dvd_add h h'

theorem Cong.add (h : Cong m a b) (h' : Cong m c d) : Cong m (a + c) (b + d) := by
  rw [Cong, add_sub_add_comm]
  exact dvd_add h h'

theorem Cong.mul_left (h : Cong m a b) (c : (ZMod 2)[X]) : Cong m (c * a) (c * b) := by
  rw [Cong, ← mul_sub]
  exact dvd_mul_of_dvd_right h c

theorem Cong.mul_right (h : Cong m a b) (c : (ZMod 2)[X]) : Cong m (a * c) (b * c) := by
  rw [mul_comm a, mul_comm b]
  exact h.mul_left c

/-- A row that is congruent to a polynomial is its remainder. -/
theorem Cong.eq_modByMonic (h : Cong (modulus n p) (ofBits n f) a) :
    ofBits n f = a %ₘ modulus n p := by
  obtain ⟨q, hq⟩ := h
  have hdeg : (ofBits n f).degree < (modulus n p).degree := by
    rw [degree_modulus]
    exact degree_ofBits_lt n f
  have hsum : ofBits n f + modulus n p * -q = a := by
    rw [mul_neg, ← hq, neg_sub, add_sub_cancel]
  exact (div_modByMonic_unique _ _ (modulus_monic n p) ⟨hsum, hdeg⟩).2.symm

/-- Congruent rows are equal. -/
theorem Cong.ofBits_inj (h : Cong (modulus n p) (ofBits n f) (ofBits n g)) :
    ∀ i < n, f i = g i := by
  have heq := h.eq_modByMonic
  rw [← (Cong.refl (modulus n p) (ofBits n g)).eq_modByMonic] at heq
  exact BitPoly.ofBits_inj heq

/-- The row moved up by one place. -/
theorem X_mul_ofBits (hn : 0 < n) (f : Nat → Bool) :
    X * ofBits n f = ofBits n (fun i => decide (0 < i) && f (i - 1)) +
      if f (n - 1) then X ^ n else 0 := by
  obtain ⟨m, rfl⟩ : ∃ m, n = m + 1 := ⟨n - 1, by omega⟩
  rw [Nat.add_sub_cancel, ofBits_succ, mul_add, ofBits, ofBits, Finset.sum_range_succ', Finset.mul_sum]
  simp only [mul_ite, mul_zero, ← pow_succ', Nat.zero_lt_succ, decide_true, Bool.true_and,
    Nat.add_sub_cancel, Nat.lt_irrefl, decide_false, Bool.false_and, Bool.false_eq_true, if_false,
    add_zero]

/-- A shift with the row `p` fed back is a multiplication by `X`. -/
theorem cong_shift (hn : 0 < n)
    (h : ∀ i < n, g i = ((decide (0 < i) && f (i - 1)) ^^ (f (n - 1) && p i))) :
    Cong (modulus n p) (ofBits n g) (X * ofBits n f) := by
  have hback : ofBits n (fun i => f (n - 1) && p i) = if f (n - 1) then ofBits n p else 0 := by
    cases f (n - 1) with
    | false => exact ofBits_false n
    | true => rfl
  rw [Cong, ofBits_congr h, ofBits_xor, hback, X_mul_ofBits hn, sub_add_eq_sub_sub,
    add_sub_cancel_left]
  cases f (n - 1) with
  | false => simp
  | true => exact ⟨1, by rw [mul_one, modulus, if_pos rfl, if_pos rfl, CharTwo.sub_eq_add, add_comm]⟩

end BitPoly

namespace Crc

open Polynomial BitPoly

/-! ## Registers as polynomials -/

/-- The polynomial of a reflected register: its highest bit is the constant term. -/
noncomputable def regPoly {w : Nat} (c : BitVec w) : (ZMod 2)[X] := ofBits w c.getMsbD

/-- The polynomial by which a register divides. -/
noncomputable def generator {w : Nat} (poly : BitVec w) : (ZMod 2)[X] := modulus w poly.getMsbD

/-- The polynomial of a message, whose first bit is the highest coefficient. -/
noncomputable def message : List Bool → (ZMod 2)[X]
  | [] => 0
  | b :: l => (if b then X ^ l.length else 0) + message l

variable {w : Nat} {poly : BitVec w}

theorem cong_regPoly_shift (hw : 0 < w) (c : BitVec w) :
    Cong (generator poly) (regPoly (shift poly c)) (X * regPoly c) := by
  refine cong_shift hw fun i hi => ?_
  have hlow : c.getLsbD 0 = c.getMsbD (w - 1) := by
    rw [BitVec.getLsbD_eq_getMsbD]
    simp [hw]
  have hmove : (c >>> 1).getMsbD i = (decide (0 < i) && c.getMsbD (i - 1)) := by
    rw [BitVec.getMsbD_ushiftRight]
    cases i with
    | zero => simp
    | succ i => simp [hi]
  unfold shift
  rw [hlow]
  cases c.getMsbD (w - 1) with
  | false => simp [hmove]
  | true => simp [hmove, BitVec.getMsbD_xor]

theorem regPoly_bit (hw : 0 < w) (b : Bool) :
    regPoly (BitVec.ofNat w b.toNat) = if b then X ^ (w - 1) else 0 := by
  obtain ⟨m, rfl⟩ : ∃ m, w = m + 1 := ⟨w - 1, by omega⟩
  have hlow : ∀ i < m, (BitVec.ofNat (m + 1) b.toNat).getMsbD i = false := by
    intro i hi
    have hplace : m - i ≠ 0 := by omega
    cases b <;> simp [BitVec.getMsbD, hplace]
  have hhigh : (BitVec.ofNat (m + 1) b.toNat).getMsbD m = b := by
    cases b <;> simp [BitVec.getMsbD]
  rw [regPoly, ofBits_succ, ofBits_congr hlow, ofBits_false, zero_add, hhigh, Nat.add_sub_cancel]

theorem cong_bitPass (hw : 0 < w) (c : BitVec w) (l : List Bool) :
    Cong (generator poly) (regPoly (bitPass poly c l))
      (X ^ l.length * regPoly c + X ^ w * message l) := by
  induction l generalizing c with
  | nil =>
    rw [List.length_nil, pow_zero, one_mul, message, mul_zero, add_zero]
    exact .refl _ (regPoly c)
  | cons b l ih =>
    have hbit : regPoly (c ^^^ BitVec.ofNat w b.toNat) =
        regPoly c + if b then X ^ (w - 1) else 0 := by
      rw [← regPoly_bit hw, regPoly, regPoly, regPoly, ← ofBits_xor]
      exact ofBits_congr fun i _ => BitVec.getMsbD_xor
    have hpow : (X : (ZMod 2)[X]) * (if b then X ^ (w - 1) else 0) = if b then X ^ w else 0 := by
      cases b with
      | false => exact mul_zero _
      | true => exact (pow_succ' X (w - 1)).symm.trans (by rw [Nat.sub_add_cancel hw]; rfl)
    have hmsg : X ^ w * (if b then X ^ l.length else 0 : (ZMod 2)[X]) =
        X ^ l.length * if b then X ^ w else 0 := by
      cases b with
      | false => simp
      | true => exact mul_comm _ _
    have hsum : X ^ l.length * (X * (regPoly c + if b then X ^ (w - 1) else 0)) + X ^ w * message l =
        X ^ (b :: l).length * regPoly c + X ^ w * message (b :: l) := by
      rw [message, List.length_cons, mul_add (X ^ w), hmsg, ← hpow]
      ring
    have hstep : Cong (generator poly) _ _ :=
      cong_regPoly_shift hw (c ^^^ BitVec.ofNat w b.toNat)
    rw [hbit] at hstep
    rw [← hsum]
    exact (ih (shift poly (c ^^^ BitVec.ofNat w b.toNat))).trans
      ((hstep.mul_left (X ^ l.length)).add (.refl _ _))

/-- The register after some bytes is a remainder. -/
theorem regPoly_pass (hw : 8 ≤ w) (c : BitVec w) (bs : List UInt8) :
    regPoly (pass poly c bs) =
      (X ^ (8 * bs.length) * regPoly c + X ^ w * message (bits bs)) %ₘ generator poly := by
  rw [pass_eq_bitPass hw, ← length_bits]
  exact (cong_bitPass (by omega) c (bits bs)).eq_modByMonic

end Crc
