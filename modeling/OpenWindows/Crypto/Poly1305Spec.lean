import Mathlib.Algebra.BigOperators.ModEq
import Mathlib.Tactic.IntervalCases
import OpenWindows.Lib.Bytes

/-!
# Poly1305 on numbers

The tag of RFC 8439, and the arithmetic of an accumulator in five lanes of 26
bits, both on natural numbers.  A lane product with bits from 130 on coming back
times five is congruent to the product modulo `2 ^ 130 - 5`, and so is the sum
that brings the part from 130 on back.  As long as that sum stays below
`2 ^ 130` no carry is lost, and the accumulator is congruent to the one of the
RFC.
-/

namespace Crypto

open Bytes Finset

/-! ## The tag of RFC 8439 -/

/-- The modulus. -/
def prime1305 : Nat := 2 ^ 130 - 5

def clamp (r : Nat) : Nat := r &&& 0x0FFFFFFC0FFFFFFC0FFFFFFC0FFFFFFF

def blockNum (b : List UInt8) : Nat := leNum (b ++ [1])

/-- The numbers times descending powers of `r`, down to the first. -/
def polySum (r : Nat) : List Nat → Nat
  | [] => 0
  | m :: ms => m * r ^ (ms.length + 1) + polySum r ms

def blockNums (msg : List UInt8) : List Nat := (chunks 15 msg).map blockNum

def keyMultiplier (key : List UInt8) : Nat := clamp (leNum (key.take 16))

def rfc8439Tag (key msg : List UInt8) : List UInt8 :=
  leBytes 16 ((polySum (keyMultiplier key) (blockNums msg) % prime1305 +
    leNum ((key.drop 16).take 16)) % 2 ^ 128)

/-! ## Lanes -/

/-- Bring the part of a number from bit 130 on back. -/
def fold130 (x : Nat) : Nat := x % 2 ^ 130 + 5 * (x / 2 ^ 130)

def lane (i x : Nat) : Nat := x / 2 ^ (26 * i) % 2 ^ 26

/-- The weight of the product of two lanes whose indices add up to `k`. -/
def wrapPow (k : Nat) : Nat := if k < 5 then 2 ^ (26 * k) else 5 * 2 ^ (26 * (k - 5))

/-- The product of two numbers, lane by lane. -/
def wrapMul (x r : Nat) : Nat :=
  ∑ i ∈ range 5, ∑ j ∈ range 5, lane i x * lane j r * wrapPow (i + j)

/-- Add a number to the accumulator and multiply, before the carry out of the
last lane is lost. -/
def absorb (r acc m : Nat) : Nat := fold130 (wrapMul (fold130 (acc + m)) r)

/-- No carry out of the last lane is lost. -/
def Carried (r : Nat) : Nat → List Nat → Prop
  | _, [] => True
  | acc, m :: ms => absorb r acc m < 2 ^ 130 ∧ Carried r (absorb r acc m) ms

def laneRun (r acc : Nat) (ms : List Nat) : Nat :=
  ms.foldl (fun acc m => absorb r acc m % 2 ^ 130) acc

theorem prime1305_lt : prime1305 < 2 ^ 130 := by decide

theorem fold130_modEq (x : Nat) : fold130 x ≡ x [MOD prime1305] := by
  have hx : fold130 x + prime1305 * (x / 2 ^ 130) = x := by
    unfold fold130 prime1305
    omega
  conv_rhs => rw [← hx]
  exact (Nat.add_mul_mod_self_left _ _ _).symm

theorem wrapPow_modEq (k : Nat) : wrapPow k ≡ 2 ^ (26 * k) [MOD prime1305] := by
  unfold wrapPow
  split
  · rfl
  · next hk =>
    have hpow : 2 ^ (26 * k) = 2 ^ 130 * 2 ^ (26 * (k - 5)) := by
      rw [← Nat.pow_add]
      congr 1
      omega
    have hfive : 5 ≡ 2 ^ 130 [MOD prime1305] := by
      unfold Nat.ModEq prime1305
      decide
    rw [hpow]
    exact hfive.mul_right _

variable {x r acc : Nat} {ms : List Nat}

theorem sum_lane (hx : x < 2 ^ 130) : ∑ i ∈ range 5, lane i x * 2 ^ (26 * i) = x := by
  simp only [sum_range_succ, sum_range_zero, lane]
  omega

theorem wrapMul_modEq (hx : x < 2 ^ 130) (hr : r < 2 ^ 130) :
    wrapMul x r ≡ x * r [MOD prime1305] := by
  have hprod : x * r =
      ∑ i ∈ range 5, ∑ j ∈ range 5, lane i x * lane j r * 2 ^ (26 * (i + j)) := by
    conv_lhs => rw [← sum_lane hx, ← sum_lane hr, sum_mul_sum]
    refine sum_congr rfl fun i _ => sum_congr rfl fun j _ => ?_
    rw [Nat.mul_add, Nat.pow_add]
    ring
  rw [hprod, wrapMul]
  refine Nat.ModEq.sum fun i _ => Nat.ModEq.sum fun j _ => ?_
  exact (wrapPow_modEq (i + j)).mul_left _

theorem lane_lt (i x : Nat) : lane i x < 2 ^ 26 := Nat.mod_lt _ (by decide)

theorem wrapPow_le {k : Nat} (hk : k < 9) : wrapPow k ≤ 5 * 2 ^ 104 := by
  unfold wrapPow
  interval_cases k <;> decide

theorem wrapMul_lt (x r : Nat) : wrapMul x r < 2 ^ 163 := by
  have hterm : ∀ i ∈ range 5, ∀ j ∈ range 5,
      lane i x * lane j r * wrapPow (i + j) ≤ 5 * 2 ^ 156 := by
    intro i hi j hj
    rw [mem_range] at hi hj
    calc lane i x * lane j r * wrapPow (i + j)
        ≤ 2 ^ 26 * 2 ^ 26 * (5 * 2 ^ 104) := by
          gcongr
          · exact (lane_lt i x).le
          · exact (lane_lt j r).le
          · exact wrapPow_le (by omega)
      _ = 5 * 2 ^ 156 := by decide
  have hrow : ∀ i ∈ range 5,
      ∑ j ∈ range 5, lane i x * lane j r * wrapPow (i + j) ≤ 5 • (5 * 2 ^ 156) := by
    intro i hi
    exact sum_le_card_nsmul _ _ _ (hterm i hi)
  calc wrapMul x r ≤ 5 • (5 • (5 * 2 ^ 156)) := sum_le_card_nsmul _ _ _ hrow
    _ < 2 ^ 163 := by decide

theorem fold130_wrapMul_lt (x r : Nat) : fold130 (wrapMul x r) < 2 * prime1305 := by
  have h := wrapMul_lt x r
  unfold fold130 prime1305
  omega

theorem fold130_lt (hx : x < 2 ^ 130 + 2 ^ 129) : fold130 x < 2 ^ 130 := by
  unfold fold130
  omega

theorem absorb_modEq {a m : Nat} (hr : r < 2 ^ 130) (hacc : acc < 2 ^ 130)
    (hm : m < 2 ^ 129) (ha : acc ≡ a [MOD prime1305]) :
    absorb r acc m ≡ (a + m) * r [MOD prime1305] := by
  have hsum : fold130 (acc + m) < 2 ^ 130 := fold130_lt (by omega)
  calc absorb r acc m ≡ wrapMul (fold130 (acc + m)) r [MOD prime1305] := fold130_modEq _
    _ ≡ fold130 (acc + m) * r [MOD prime1305] := wrapMul_modEq hsum hr
    _ ≡ (acc + m) * r [MOD prime1305] := (fold130_modEq _).mul_right _
    _ ≡ (a + m) * r [MOD prime1305] := (ha.add_right m).mul_right _

/-! ## Runs -/

theorem polySum_concat (r : Nat) (ms : List Nat) (m : Nat) :
    polySum r (ms ++ [m]) = (polySum r ms + m) * r := by
  induction ms with
  | nil => simp [polySum]
  | cons n ms ih =>
    rw [List.cons_append, polySum, polySum, ih, List.length_append, List.length_singleton]
    ring

theorem laneRun_modEq (hr : r < 2 ^ 130) (hms : ∀ m ∈ ms, m < 2 ^ 129)
    {a : Nat} (hacc : acc < 2 ^ 130) (ha : acc ≡ a [MOD prime1305]) (hc : Carried r acc ms) :
    laneRun r acc ms ≡ a * r ^ ms.length + polySum r ms [MOD prime1305] := by
  induction ms generalizing acc a with
  | nil => simpa [laneRun, polySum] using ha
  | cons m ms ih =>
    obtain ⟨hm, hms⟩ := List.forall_mem_cons.mp hms
    obtain ⟨hlt, hc⟩ := hc
    have hstep : laneRun r acc (m :: ms) = laneRun r (absorb r acc m) ms := by
      show laneRun r (absorb r acc m % 2 ^ 130) ms = _
      rw [Nat.mod_eq_of_lt hlt]
    have hsum : a * r ^ (m :: ms).length + polySum r (m :: ms) =
        (a + m) * r * r ^ ms.length + polySum r ms := by
      rw [polySum, List.length_cons]
      ring
    rw [hstep, hsum]
    exact ih hms hlt (absorb_modEq hr hacc hm ha) hc

theorem laneRun_lt (hacc : acc < 2 ^ 130) (ms : List Nat) : laneRun r acc ms < 2 ^ 130 := by
  induction ms generalizing acc with
  | nil => exact hacc
  | cons m ms ih => exact ih (Nat.mod_lt _ (by decide))

theorem carried_append {ns : List Nat} :
    Carried r acc (ms ++ ns) ↔ Carried r acc ms ∧ Carried r (laneRun r acc ms) ns := by
  induction ms generalizing acc with
  | nil => simp [Carried, laneRun]
  | cons m ms ih =>
    simp only [List.cons_append, Carried, and_assoc, and_congr_right_iff]
    intro hlt
    rw [ih]
    simp only [laneRun, List.foldl_cons, Nat.mod_eq_of_lt hlt]

/-- What the last block leaves is below the modulus, and no carry was lost. -/
def Reduces (r : Nat) (ms : List Nat) : Prop :=
  Carried r 0 ms ∧ laneRun r 0 ms < prime1305

theorem Reduces.laneRun_eq (hr : r < 2 ^ 130) (hms : ∀ m ∈ ms, m < 2 ^ 129) (h : Reduces r ms) :
    laneRun r 0 ms = polySum r ms % prime1305 := by
  have hmod := laneRun_modEq hr hms (by decide) (Nat.ModEq.refl 0) h.1
  rw [Nat.zero_mul, Nat.zero_add] at hmod
  rw [← hmod, Nat.mod_eq_of_lt h.2]

theorem lt_prime1305_of_modEq (hx : x < 2 * prime1305)
    (heq : x % 2 ^ 130 ≡ x % prime1305 [MOD 2 ^ 128]) : x < prime1305 := by
  unfold Nat.ModEq at heq
  rw [Nat.mod_mod_of_dvd x (by decide)] at heq
  by_contra hge
  have hmod : x % prime1305 = x - prime1305 := by
    rw [Nat.mod_eq_sub_mod (Nat.le_of_not_lt hge), Nat.mod_eq_of_lt (by omega)]
  rw [hmod] at heq
  unfold prime1305 at hx heq hge
  omega

theorem reduces_of_laneRun_eq (hr : r < 2 ^ 130)
    (hms : ∀ m ∈ ms, m < 2 ^ 129) (hc : Carried r 0 ms.dropLast)
    (heq : laneRun r 0 ms ≡ polySum r ms % prime1305 [MOD 2 ^ 128]) : Reduces r ms := by
  rcases List.eq_nil_or_concat ms with rfl | ⟨init, m, rfl⟩
  · exact ⟨trivial, show 0 < prime1305 by decide⟩
  · rw [List.concat_eq_append] at *
    rw [List.dropLast_concat] at hc
    set acc := laneRun r 0 init with hacc
    have hlt : acc < 2 ^ 130 := laneRun_lt (by decide) init
    have hinit := laneRun_modEq hr (fun x hx => hms x (by simp [hx])) (by decide)
      (Nat.ModEq.refl 0) hc
    rw [Nat.zero_mul, Nat.zero_add] at hinit
    have hlast := absorb_modEq hr hlt (hms m (by simp)) hinit
    have hbound : absorb r acc m < 2 * prime1305 := fold130_wrapMul_lt _ _
    -- the last sum is the one of the RFC, or exceeds it by the modulus
    have hsum : absorb r acc m % prime1305 = polySum r (init ++ [m]) % prime1305 := by
      rw [polySum_concat]
      exact hlast
    have hrun : laneRun r 0 (init ++ [m]) = absorb r acc m % 2 ^ 130 := by
      rw [laneRun, List.foldl_concat, hacc, laneRun]
    rw [hrun, ← hsum] at heq
    have hlow : absorb r acc m < prime1305 := lt_prime1305_of_modEq hbound heq
    have hlt130 : absorb r acc m < 2 ^ 130 := hlow.trans prime1305_lt
    refine ⟨carried_append.mpr ⟨hc, hlt130, trivial⟩, ?_⟩
    rwa [hrun, Nat.mod_eq_of_lt hlt130]

end Crypto
