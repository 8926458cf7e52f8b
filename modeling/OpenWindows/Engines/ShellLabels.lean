import OpenWindows.Engines.Numbers
import OpenWindows.Engines.ShellVars
import OpenWindows.Engines.Watchdog

/-!
# Labels and `goto` of the managedsh engine

The first pass of `engine_sh_run` takes the `NAME:` lines as labels, their names cut to 15
characters, and passes over the `label NAME` lines; `goto` looks its name up as it is given.  The
two operands of an `IF` share one status, and the second one overwrites the first.

Over both stands what the script says: `Defines` for a line that defines a label, `FirstDef` for
the line `goto NAME` should go to, `Operand` for the integer a word stands for.
-/

namespace Engines

open StepSystem

/-! ## What a script says -/

def lineWords (manifest : List UInt8) (l : Nat) : List (List UInt8) :=
  match mengShFindLine l manifest with
  | some line => shWords line
  | none => []

/-- The integer an operand of `IF` stands for: a literal, or the value of a variable. -/
inductive Operand (vars : List ShVar) : List UInt8 → Int → Prop where
  | literal {t : List UInt8} {z : Int} : Numeral t z → InInt64 z → Operand vars t z
  | var {name : List UInt8} {x : ShVar} : mengShFindVar vars name = some x → x.isStr = false →
      Operand vars (36 :: name) x.v.toInt

/-- The word is `NAME:`, and the first pass keeps the label `name` of it. -/
def KeptAs (name : List UInt8) (words : List (List UInt8)) : Prop :=
  ∃ w rest, words = w :: rest ∧ w.getLast? = some 58 ∧ w.dropLast.take 15 = name

variable {words : List (List UInt8)} {manifest name : List UInt8} {labels : List ShLabel} {l : Nat}

def FirstKept (manifest name : List UInt8) (d : Nat) : Prop :=
  KeptAs name (lineWords manifest d) ∧ ∀ i < d, ¬ KeptAs name (lineWords manifest i)

/-- Some line keeps a label of the name. -/
def Collected (manifest name : List UInt8) : Prop := ∃ i, KeptAs name (lineWords manifest i)

theorem FirstKept.unique {d d' : Nat}
    (h : FirstKept manifest name d) (h' : FirstKept manifest name d') : d = d' := by
  rcases Nat.lt_trichotomy d d' with hlt | heq | hgt
  · exact absurd h.1 (h'.2 d hlt)
  · exact heq
  · exact absurd h'.1 (h.2 d' hgt)

theorem Collected.first (h : Collected manifest name) : ∃ d, FirstKept manifest name d := by
  classical
  exact ⟨Nat.find h, Nat.find_spec h, fun i hi => Nat.find_min h hi⟩

theorem Operand.expand {vars : List ShVar} {t : List UInt8} {z : Int} (h : Operand vars t z) :
    ∃ v, mengShExpandInt vars t = (v, .ok) ∧ v.toInt = z := by
  cases h with
  | literal hnum hz =>
    have hread := parseI64_ok_iff.mpr ⟨z, hnum, rfl⟩
    refine ⟨BitVec.ofInt 64 z, ?_, toInt_ofInt_of_inInt64 hz⟩
    unfold mengShExpandInt
    split
    · cases hnum with
      | plain _ hd => exact absurd (hd 36 (List.mem_cons_self ..)) (by decide)
    · rw [hread]
  | @var name x hfind hstr => exact ⟨x.v, by simp [mengShExpandInt, hfind, hstr], rfl⟩

/-- `NAME:`, with a name that is not cut, defines the label at line `d`, and no earlier line keeps
a label of this name. -/
def Plain (manifest name : List UInt8) (d : Nat) : Prop :=
  name.length ≤ 15 ∧ (∃ rest, lineWords manifest d = (name ++ [58]) :: rest) ∧
    ∀ i < d, ¬ KeptAs name (lineWords manifest i)

section Lines

variable {args : List (List UInt8)} {m : Machine}
  {vars : List ShVar}

end Lines

end Engines
