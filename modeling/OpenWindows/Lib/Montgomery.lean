import Mathlib.Algebra.Ring.Defs

/-!
# The ladder of a Montgomery curve

A multiple of a point with a given first coordinate, without the second coordinate.  Two points
whose difference is the given one are kept as quotients.  A bit of the scalar tells which of them
is doubled, and the two change places for it.
-/

namespace Montgomery

variable {R : Type*}

/-- Two values, in exchanged places when the flag says so. -/
def cswap (swap : Bool) (x y : R) : R × R := if swap then (y, x) else (x, y)

/-- The two points, and whether they stand exchanged. -/
structure Ladder (R : Type*) where
  x2 : R
  z2 : R
  x3 : R
  z3 : R
  swap : Bool

section Ring

variable [CommRing R]

/-- The neutral point and the given one. -/
def Ladder.start (u : R) : Ladder R := ⟨1, 0, u, 1, false⟩

/-- One bit of the scalar. -/
def Ladder.step (a24 u : R) (bit : Bool) (s : Ladder R) : Ladder R :=
  let swap := xor s.swap bit
  let (x2, x3) := cswap swap s.x2 s.x3
  let (z2, z3) := cswap swap s.z2 s.z3
  let a := x2 + z2
  let aa := a ^ 2
  let b := x2 - z2
  let bb := b ^ 2
  let e := aa - bb
  let c := x3 + z3
  let d := x3 - z3
  let da := d * a
  let cb := c * b
  { x2 := aa * bb, z2 := e * (aa + a24 * e), x3 := (da + cb) ^ 2, z3 := u * (da - cb) ^ 2,
    swap := bit }

/-- The bits of the scalar below `n`, highest first. -/
def Ladder.run (a24 u : R) (k : Nat) : Nat → Ladder R → Ladder R
  | 0, s => s
  | n + 1, s => Ladder.run a24 u k n (s.step a24 u (k.testBit n))

/-- The first coordinate, with the inverse of the denominator as a power of it. -/
def Ladder.result (power : Nat) (s : Ladder R) : R :=
  (cswap s.swap s.x2 s.x3).1 * (cswap s.swap s.z2 s.z3).1 ^ power

theorem Ladder.run_induction {σ : Type*} {a24 u : R} {k : Nat} {step : Nat → σ → σ}
    {run : Nat → σ → σ} (hzero : ∀ s, run 0 s = s) (hsucc : ∀ n s, run (n + 1) s = run n (step n s))
    {Follows : σ → Ladder R → Prop}
    (hstep : ∀ n s t, Follows s t → Follows (step n s) (t.step a24 u (k.testBit n)))
    (n : Nat) {s : σ} {t : Ladder R} (h : Follows s t) :
    Follows (run n s) (t.run a24 u k n) := by
  induction n generalizing s t with
  | zero =>
    rw [hzero]
    exact h
  | succ n ih =>
    rw [hsucc]
    exact ih (hstep n s t h)

end Ring

end Montgomery
