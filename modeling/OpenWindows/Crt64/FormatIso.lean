import OpenWindows.Crt64.FormatSafety

/-!
# The text of a call

What the `put` loops do is to append a text, so a call is described by the text it puts.  The
buffer then holds as much of that text as there is room for before a NUL, and the return value
is the length of the whole text.
-/

namespace Crt64

open Memory

section

variable {cap width : Nat} {left zero : Bool} {pre body cs ds : List UInt8}

/-! ## Fields -/

def fieldText (width : Nat) (left zero : Bool) (pre body : List UInt8) : List UInt8 :=
  let fill := width - (pre.length + body.length)
  if left then pre ++ body ++ List.replicate fill 32
  else if zero then pre ++ List.replicate fill 48 ++ body
  else List.replicate fill 32 ++ pre ++ body

theorem length_fieldText :
    (fieldText width left zero pre body).length = max width (pre.length + body.length) := by
  rw [fieldText]
  cases left <;> cases zero <;> simp <;> omega

def spaceFill (width : Nat) (left zero : Bool) (pre body : List UInt8) : Nat :=
  if zero && !left then 0 else width - (pre.length + body.length)

theorem count_space_fieldText (hbody : (32 : UInt8) ∉ body) :
    (fieldText width left zero pre body).count 32 =
      pre.count 32 + spaceFill width left zero pre body := by
  have hzero : (List.replicate (width - (pre.length + body.length)) (48 : UInt8)).count 32 = 0 :=
    List.count_eq_zero_of_not_mem fun h => by simp at h
  rw [fieldText, spaceFill]
  cases left <;> cases zero <;> simp [List.count_eq_zero_of_not_mem hbody, hzero, Nat.add_comm]

theorem fieldText_zero_first :
    fieldText width left zero [48] body = fieldText width left zero [] (48 :: body) := by
  have hlen : 1 + body.length = 0 + (body.length + 1) := by omega
  rw [fieldText, fieldText]
  simp only [List.length_cons, List.length_nil, Nat.zero_add, Nat.add_comm 1, List.nil_append,
    List.cons_append, List.append_assoc]
  split
  · rfl
  split
  · rw [← List.cons_append, ← List.replicate_succ, List.replicate_succ', List.append_assoc]
    rfl
  · rfl

/-! ## Putting a text -/

theorem fmtCopy_append (cs ds : List UInt8) (o : FmtOut) :
    fmtCopy cap (cs ++ ds) o = fmtCopy cap ds (fmtCopy cap cs o) := by
  induction cs generalizing o with
  | nil => rfl
  | cons c cs ih => exact ih _

theorem owcrtFmtPad_eq (c : UInt8) (cnt : Nat) (o : FmtOut) :
    owcrtFmtPad cap c cnt o = fmtCopy cap (List.replicate cnt c) o := by
  induction cnt generalizing o with
  | zero => rfl
  | succ cnt ih => exact ih _

theorem fmtLayout_eq (o : FmtOut) :
    fmtLayout cap width left zero pre body o =
      fmtCopy cap (fieldText width left zero pre body) o := by
  have hpad : (if width > pre.length + body.length then width - (pre.length + body.length) else 0) =
      width - (pre.length + body.length) := by
    split <;> omega
  simp only [fmtLayout, hpad, owcrtFmtPad_eq, fieldText]
  cases left <;> cases zero <;> simp [fmtCopy_append]

theorem store_nil (m : Mem) (a : Nat) : store m a [] = m := by
  funext x
  exact store_of_outside (by simp; omega)

theorem setByte_store (m : Mem) (w : Nat) (c : UInt8) (cs : List UInt8) :
    store (setByte m w c) (w + 1) cs = store m w (c :: cs) := by
  funext x
  simp only [store, setByte, List.length_cons]
  rcases Nat.lt_trichotomy x w with h | rfl | h
  · rw [if_neg (by omega), if_neg (by omega), if_neg (by omega)]
  · simp
  · obtain ⟨k, rfl⟩ := Nat.exists_eq_add_of_lt h
    rw [show w + k + 1 - w = k + 1 by omega, show w + k + 1 - (w + 1) = k by omega,
      List.getD_cons_succ, if_neg (show ¬ w + k + 1 = w by omega)]
    exact if_congr (by omega) rfl rfl

theorem fmtCopy_eq (cs : List UInt8) (o : FmtOut) :
    fmtCopy cap cs o = ⟨store o.out o.w (cs.take (cap - o.w)), o.w + cs.length⟩ := by
  induction cs generalizing o with
  | nil => simp [fmtCopy, store_nil]
  | cons c cs ih =>
    rw [fmtCopy, ih, owcrtFmtPut]
    dsimp only
    split
    next hroom =>
      rw [setByte_store, show cap - o.w = (cap - (o.w + 1)) + 1 by omega, List.take_succ_cons]
      congr 1
      rw [List.length_cons]
      omega
    next hfull =>
      rw [show cap - o.w = 0 by omega, show cap - (o.w + 1) = 0 by omega, List.take_zero,
        List.take_zero, store_nil, store_nil, List.length_cons]
      congr 1
      omega

/-! ## The call -/

/-- The buffer and the return value of a call that puts a text. -/
def printed (out : Option Mem) (cap : Nat) (cs : List UInt8) : Option Mem × Nat :=
  (out.map fun m => if cap = 0 then m else store m 0 (cs.take (cap - 1) ++ [0]), cs.length)

theorem setByte_store_end (m : Mem) (a : Nat) (c : UInt8) (cs : List UInt8) {k : Nat}
    (hk : k ≤ cs.length) (hk' : cs.length ≤ k + 1) :
    setByte (store m a cs) (a + k) c = store m a (cs.take k ++ [c]) := by
  have hlen : (cs.take k ++ [c]).length = k + 1 := by simp [hk]
  funext x
  rw [setByte]
  rcases Nat.lt_trichotomy x (a + k) with h | rfl | h
  · rw [if_neg (Nat.ne_of_lt h), store, store, hlen]
    refine if_ctx_congr (by omega) (fun hx => ?_) fun _ => rfl
    rw [List.getD_append _ _ _ _ (by simp; omega), List.getD_eq_getElem?_getD,
      List.getD_eq_getElem?_getD, List.getElem?_take_of_lt (by omega)]
  · rw [if_pos rfl, store, hlen, if_pos (by omega), Nat.add_sub_cancel_left]
    simp [hk]
  · rw [if_neg (Nat.ne_of_gt h), store_of_outside (by omega), store_of_outside (by omega)]

theorem owSnprintf_of_loop {fmt : List UInt8} {args : Nat → FmtArg} (out : Option Mem) (cap : Nat)
    (h : ∀ cap o, fmtLoop cap args fmt.length fmt 0 o = .ok (fmtCopy cap cs o)) :
    owSnprintf out cap fmt args = .ok (printed out cap cs) := by
  simp only [owSnprintf, h, fmtCopy_eq, bind, Except.bind, Nat.sub_zero, Nat.zero_add]
  cases out with
  | none => rfl
  | some m =>
    refine congrArg Except.ok (Prod.ext (congrArg some ?_) rfl)
    cases cap with
    | zero => exact store_nil m 0
    | succ n =>
      show (if cs.length < n + 1 then setByte (store m 0 (cs.take (n + 1))) cs.length 0
        else setByte (store m 0 (cs.take (n + 1))) n 0) = store m 0 (cs.take n ++ [0])
      have hend := @setByte_store_end m 0 0 (cs.take (n + 1))
      simp only [Nat.zero_add, List.take_take, List.length_take] at hend
      split
      next hroom =>
        rw [hend (by omega) (by omega), List.take_of_length_le (by omega),
          List.take_of_length_le (by omega)]
      next hfull => rw [hend (by omega) (by omega), Nat.min_eq_left n.le_succ]

theorem printed_injective (h : ∀ out cap, printed out cap cs = printed out cap ds) : cs = ds := by
  have h := h (some blank) (cs.length + ds.length + 1)
  have hlen : cs.length = ds.length := congrArg Prod.snd h
  have hbuf : store blank 0 (cs.take (cs.length + ds.length) ++ [0]) =
      store blank 0 (ds.take (cs.length + ds.length) ++ [0]) :=
    Option.some.inj (congrArg Prod.fst h)
  rw [List.take_of_length_le (by omega), List.take_of_length_le (by omega)] at hbuf
  have hload := load_store_self blank 0 (ds ++ [0])
  have hlen' : (ds ++ [0]).length = (cs ++ [0]).length := by simp [hlen]
  rw [← hbuf, hlen', load_store_self] at hload
  exact List.append_cancel_right hload

end

/-! ## The integer conversions of ISO C

The text ISO C prescribes for `d`, `i`, `u`, `o`, `x` and `X`, written from the rules for flags,
width, precision and length modifiers, with the texts of the directives and the values they are
for.  ISO C says nothing about `#` with `d`, `i` and `u`, and here it changes nothing.
-/

section

/-- The flags. -/
inductive Flag where
  | minus
  | plus
  | space
  | hash
  | zero
  deriving DecidableEq, Repr

def Flag.char : Flag → UInt8
  | minus => 45
  | plus => 43
  | space => 32
  | hash => 35
  | zero => 48

/-- The length modifiers of the integer conversions. -/
inductive LengthMod where
  | none
  | hh
  | h
  | l
  | ll
  | j
  | z
  | t
  deriving DecidableEq, Repr

/-- The letters of a length modifier. -/
def LengthMod.text : LengthMod → List UInt8
  | none => []
  | hh => [104, 104]
  | h => [104]
  | l => [108]
  | ll => [108, 108]
  | j => [106]
  | z => [122]
  | t => [116]

/-- The width of the type that a length modifier names. -/
def LengthMod.bits : LengthMod → Nat
  | hh => 8
  | h => 16
  | none => 32
  | _ => 64

/-- The integer conversions. -/
inductive IntConv where
  | d
  | i
  | u
  | o
  | x
  | X
  deriving DecidableEq, Repr

namespace IntConv

def char : IntConv → UInt8
  | d => 100
  | i => 105
  | u => 117
  | o => 111
  | x => 120
  | X => 88

def signed : IntConv → Bool
  | d | i => true
  | _ => false

def radix : IntConv → Nat
  | o => 8
  | x | X => 16
  | _ => 10

/-- The conversion with capital letters. -/
def upper : IntConv → Bool
  | X => true
  | _ => false

end IntConv

/-- One directive.  The width does not start with a zero, which would be a flag, and is empty if
there is none.  The precision is the digits after the period. -/
structure IntDirective where
  flags : List Flag
  width : List (Fin 10)
  width_head : width.head? ≠ some 0
  prec : Option (List (Fin 10))
  length : LengthMod
  conv : IntConv

def digitsOf (ds : List (Fin 10)) : List UInt8 := ds.map fun d => UInt8.ofNat (48 + d.val)

/-- The number that digits denote. -/
def numeral (ds : List (Fin 10)) : Nat := ds.foldl (fun n d => n * 10 + d.val) 0

namespace IntDirective

variable (D : IntDirective)

def precText : List UInt8 :=
  match D.prec with
  | none => []
  | some ds => 46 :: digitsOf ds

/-- The directive after its `%`. -/
def spelling : List UInt8 :=
  D.flags.map Flag.char ++ (digitsOf D.width ++ (D.precText ++ (D.length.text ++ [D.conv.char])))

def text : List UInt8 := 37 :: D.spelling

def fieldWidth : Nat := numeral D.width

def precision : Option Nat := D.prec.map numeral

/-- The values of the directive's type. -/
def InRange (v : Int) : Prop :=
  if D.conv.signed then -2 ^ (D.length.bits - 1) ≤ v ∧ v < 2 ^ (D.length.bits - 1)
  else 0 ≤ v ∧ v < 2 ^ D.length.bits

instance (v : Int) : Decidable (D.InRange v) := inferInstanceAs (Decidable (ite _ _ _))

/-- The argument is passed as an `int` at least, of which the upper half of a register says
nothing. -/
def Passes (a : FmtArg) (v : Int) : Prop :=
  (a.bits.toNat : Int) % 2 ^ (max 32 D.length.bits) = v % 2 ^ (max 32 D.length.bits)

instance (a : FmtArg) (v : Int) : Decidable (D.Passes a v) := inferInstanceAs (Decidable (_ = _))

/-! ### The prescribed text -/

/-- The octal conversion in its alternative form. -/
def OctalAlt : Prop := D.conv = .o ∧ .hash ∈ D.flags

instance : Decidable D.OctalAlt := inferInstanceAs (Decidable (_ ∧ _))

/-- The minimum number of digits for a value: one unless there is a precision, and enough for a
leading zero in the alternative octal form. -/
def minDigits (n : Nat) : Nat :=
  if D.OctalAlt then max (D.precision.getD 1) ((Nat.digits 8 n).length + 1)
  else D.precision.getD 1

/-- The digits: none for the value zero, up to leading zeros. -/
def isoDigits (n : Nat) : List UInt8 :=
  let ds := digitsText D.conv.radix D.conv.upper n
  List.replicate (D.minDigits n - ds.length) 48 ++ ds

/-- The sign, or the prefix of the alternative form. -/
def isoPrefix (v : Int) : List UInt8 :=
  match D.conv with
  | .d | .i =>
    if v < 0 then [45]
    else if .plus ∈ D.flags then [43]
    else if .space ∈ D.flags then [32]
    else []
  | .x => if .hash ∈ D.flags ∧ v ≠ 0 then [48, 120] else []
  | .X => if .hash ∈ D.flags ∧ v ≠ 0 then [48, 88] else []
  | .u | .o => []

/-- The field.  The `0` flag is ignored with a precision, and with the `-` flag. -/
def isoText (v : Int) : List UInt8 :=
  fieldText D.fieldWidth (.minus ∈ D.flags) (.zero ∈ D.flags ∧ D.precision = none) (D.isoPrefix v)
    (D.isoDigits v.natAbs)

end IntDirective

end

end Crt64
