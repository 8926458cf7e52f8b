import OpenWindows.Lib.Memory

/-!
# The formatter of `owcrt64`

`ow_snprintf` walks a format string, and for each directive reads flags, width, precision and
length, fetches an argument, renders it into `numbuf` and lays it out in the field.

A format pointer is the text from `*fmt` on, up to and including the NUL, and every read and
every write of `numbuf` is checked.  `long` has 64 bits.  The counts of characters (`size_t`) are
plain numbers.
-/

namespace Crt64

open Memory

/-- The accesses `ow_snprintf` must not make. -/
inductive FmtFault where
  /-- A read past the NUL of the format. -/
  | format
  /-- A write past `numbuf`. -/
  | numbuf
  deriving DecidableEq, Repr

/-- Memory before the first write. -/
def blank : Mem := fun _ => 0

/-- `m[i] = c`. -/
def setByte (m : Mem) (i : Nat) (c : UInt8) : Mem := fun x => if x = i then c else m x

/-! ## The output -/

/-- The buffer and `w`. -/
structure FmtOut where
  out : Mem
  w : Nat

/-- `owcrt_fmt_put`. -/
def owcrtFmtPut (cap : Nat) (o : FmtOut) (c : UInt8) : FmtOut where
  out := if o.w < cap then setByte o.out o.w c else o.out
  w := o.w + 1

/-- `owcrt_fmt_pad`. -/
def owcrtFmtPad (cap : Nat) (c : UInt8) : Nat → FmtOut → FmtOut
  | 0, o => o
  | cnt + 1, o => owcrtFmtPad cap c cnt (owcrtFmtPut cap o c)

/-- The loops that put `pg`, `numbuf` or `ps`. -/
def fmtCopy (cap : Nat) : List UInt8 → FmtOut → FmtOut
  | [], o => o
  | c :: cs, o => fmtCopy cap cs (owcrtFmtPut cap o c)

/-! ## The directive -/

/-- The flags `-`, `+`, space, `#` and `0`. -/
structure FmtFlags where
  left : Bool := false
  plus : Bool := false
  space : Bool := false
  alt : Bool := false
  zero : Bool := false
  deriving DecidableEq, Repr

/-- One of `-`, `+`, space, `#` and `0`. -/
def isFlag (c : UInt8) : Bool := c == 45 || c == 43 || c == 32 || c == 35 || c == 48

/-- The `switch` over the flags. -/
def FmtFlags.add (f : FmtFlags) (c : UInt8) : FmtFlags :=
  if c = 45 then { f with left := true }
  else if c = 43 then { f with plus := true }
  else if c = 32 then { f with space := true }
  else if c = 35 then { f with alt := true }
  else if c = 48 then { f with zero := true }
  else f

/-- `*fmt >= '0' && *fmt <= '9'`. -/
def isDigit (c : UInt8) : Bool := 48 ≤ c && c ≤ 57

/-- `n * 10u + (uint32_t)(*fmt - '0')`. -/
def addDigit (n : Nat) (c : UInt8) : Nat := (n * 10 + (c.toNat - 48)) % 2 ^ 32

/-- One of `l`, `h`, `z`, `j`, `t` and `L`. -/
def isLength (c : UInt8) : Bool :=
  c == 108 || c == 104 || c == 122 || c == 106 || c == 116 || c == 76

/-- `llen` after a length modifier. -/
def addLength (llen : Nat) (c : UInt8) : Nat :=
  if c = 108 then (if llen = 1 then 2 else 1)
  else if c = 122 ∨ c = 106 ∨ c = 116 then 3
  else llen

/-- `while (p(*fmt)) { a = step(a, *fmt); fmt++; }`. -/
def fmtWhile {α : Type} (p : UInt8 → Bool) (step : α → UInt8 → α) :
    α → List UInt8 → Except FmtFault (α × List UInt8)
  | _, [] => .error .format
  | a, c :: cs => if p c then fmtWhile p step (step a c) cs else .ok (a, c :: cs)

def fmtFlags : List UInt8 → Except FmtFault (FmtFlags × List UInt8) :=
  fmtWhile isFlag FmtFlags.add {}

/-- The loop over the digits of the width or of the precision. -/
def fmtDigits : List UInt8 → Except FmtFault (Nat × List UInt8) := fmtWhile isDigit addDigit 0

/-- The loop over the length modifiers. -/
def fmtLength : List UInt8 → Except FmtFault (Nat × List UInt8) := fmtWhile isLength addLength 0

/-- `have_prec` and `prec`. -/
def fmtPrec : List UInt8 → Except FmtFault ((Bool × Nat) × List UInt8)
  | [] => .error .format
  | c :: p =>
    if c = 46 then
      match fmtDigits p with
      | .ok (prec, p) => .ok ((true, prec), p)
      | .error e => .error e
    else .ok ((false, 0), c :: p)

/-- `*fmt++`. -/
def fmtNext : List UInt8 → Except FmtFault (UInt8 × List UInt8)
  | [] => .error .format
  | c :: p => .ok (c, p)

/-- What `ow_snprintf` has read when it looks at `spec`. -/
structure Directive where
  flags : FmtFlags
  width : Nat
  havePrec : Bool
  prec : Nat
  llen : Nat
  spec : UInt8
  deriving DecidableEq, Repr

/-- The text after a `%`, through `spec`. -/
def readDirective (p : List UInt8) : Except FmtFault (Directive × List UInt8) := do
  let (flags, p) ← fmtFlags p
  let (width, p) ← fmtDigits p
  let ((havePrec, prec), p) ← fmtPrec p
  let (llen, p) ← fmtLength p
  let (spec, p) ← fmtNext p
  return ({ flags, width, havePrec, prec, llen, spec }, p)

/-! ## The argument -/

/-- What `va_arg` reads: an integer or a pointer, and the string a pointer refers to, `none` for
`NULL`. -/
structure FmtArg where
  bits : UInt64
  text : Option (List UInt8) := none

/-- `int64_t sv`. -/
def FmtArg.signed (a : FmtArg) (llen : Nat) : Int64 :=
  if llen = 2 ∨ llen = 3 then a.bits.toInt64
  else if llen = 1 then a.bits.toInt64
  else a.bits.toUInt32.toInt32.toInt64

/-- `uv` of the unsigned conversions. -/
def FmtArg.unsigned (a : FmtArg) (llen : Nat) : UInt64 :=
  if llen = 2 ∨ llen = 3 then a.bits
  else if llen = 1 then a.bits
  else a.bits.toUInt32.toUInt64

/-- `neg` and `uv` of the signed conversions. -/
def magnitude (sv : Int64) : Bool × UInt64 :=
  if sv = Int64.minValue then (true, 0 - Int64.minValue.toUInt64)
  else if sv < 0 then (true, (-sv).toUInt64)
  else (false, sv.toUInt64)

/-- The variables the chain over `spec` sets.  `%p` goes on as `%#x`. -/
structure Conversion where
  spec : UInt8
  alt : Bool
  zero : Bool
  neg : Bool := false
  uv : UInt64 := 0
  ps : List UInt8 := []

/-- `"(null)"`. -/
def nullText : List UInt8 := [40, 110, 117, 108, 108, 41]

/-- The chain over `spec`: `c`, `s`, `p`, `d` and `i`, then `u`, `o`, `x` and `X`, and `none` for a
specifier that takes no argument. -/
def fmtFetch (d : Directive) (a : FmtArg) : Option Conversion :=
  let v : Conversion := { spec := d.spec, alt := d.flags.alt, zero := d.flags.zero }
  if d.spec = 99 then some v
  else if d.spec = 115 then some { v with ps := a.text.getD nullText }
  else if d.spec = 112 then
    some { v with
      spec := 120, uv := a.bits, alt := true
      zero := d.flags.zero && !d.flags.left && !d.havePrec }
  else if d.spec = 100 ∨ d.spec = 105 then
    let (neg, uv) := magnitude (a.signed d.llen)
    some { v with neg, uv }
  else if d.spec = 117 ∨ d.spec = 111 ∨ d.spec = 120 ∨ d.spec = 88 then
    some { v with uv := a.unsigned d.llen }
  else none

/-! ## The digits -/

/-- `char numbuf[24]`. -/
def numbufSize : Nat := 24

/-- `numbuf[i] = c`. -/
def putNum (b : Mem) (i : Nat) (c : UInt8) : Except FmtFault Mem :=
  if i < numbufSize then .ok (setByte b i c) else .error .numbuf

/-- `"0123456789ABCDEF"[d]` or `"0123456789abcdef"[d]`. -/
def digitChar (upper : Bool) (d : Nat) : UInt8 :=
  UInt8.ofNat (if d < 10 then 48 + d else if upper then 55 + d else 87 + d)

/-- The loop of `owcrt_fmt_uint`.  `fuel` bounds its turns, of which `v` are enough. -/
def fmtUintLoop (radix : Nat) (upper : Bool) :
    (fuel v : Nat) → Mem → Nat → Except FmtFault (Mem × Nat)
  | 0, _, b, n => .ok (b, n)
  | fuel + 1, v, b, n =>
    if v ≠ 0 then do
      let b ← putNum b n (digitChar upper (v % radix))
      fmtUintLoop radix upper fuel (v / radix) b (n + 1)
    else .ok (b, n)

/-- `owcrt_fmt_uint`. -/
def owcrtFmtUint (b : Mem) (v radix : Nat) (upper : Bool) (n : Nat) :
    Except FmtFault (Mem × Nat) :=
  if v = 0 then do
    let b ← putNum b n 48
    return (b, n + 1)
  else fmtUintLoop radix upper v v b n

/-- The loop of `owcrt_fmt_reverse`, from `i` and `j`. -/
def owcrtFmtReverse (b : Mem) (i : Nat) : (j : Nat) → Except FmtFault Mem
  | 0 => .ok b
  | j + 1 =>
    if i < j + 1 then do
      let t := b i
      let b ← putNum b i (b j)
      let b ← putNum b j t
      owcrtFmtReverse b (i + 1) j
    else .ok b

/-- The loop that moves the digits up, `i` from `dg` down. -/
def shiftDigits (extra : Nat) : (i : Nat) → Mem → Except FmtFault Mem
  | 0, b => .ok b
  | i + 1, b => do
      let b ← putNum b (i + extra) (b i)
      shiftDigits extra i b

/-- The loop that writes the leading zeros, `i` up to `extra`. -/
def fillZeros : (extra : Nat) → Mem → Except FmtFault Mem
  | 0, b => .ok b
  | extra + 1, b => do
      let b ← fillZeros extra b
      putNum b extra 48

/-- The digits of `uv` in `numbuf`, and `dg`.  No cell of `numbuf` is read before it is
written. -/
def fmtNumber (d : Directive) (uv radix : Nat) (upper : Bool) : Except FmtFault (Mem × Nat) := do
  let (b, dg) ← owcrtFmtUint blank uv radix upper 0
  let b ← owcrtFmtReverse b 0 dg
  if d.havePrec && d.prec > dg then
    let extra := d.prec - dg
    let b ← shiftDigits extra dg b
    let b ← fillZeros extra b
    return (b, dg + extra)
  else return (b, dg)

/-! ## The field -/

/-- `radix`. -/
def Conversion.radix (v : Conversion) : Nat :=
  if v.spec = 120 ∨ v.spec = 88 ∨ v.spec = 112 then 16 else if v.spec = 111 then 8 else 10

/-- `upper`. -/
def Conversion.upper (v : Conversion) : Bool := v.spec == 88

/-- The first `body` characters of `numbuf` or `ps`. -/
def fmtBody (d : Directive) (v : Conversion) (a : FmtArg) : Except FmtFault (List UInt8) := do
  if v.spec = 99 then
    let b ← putNum blank 0 a.bits.toUInt8
    return load b 0 1
  else if v.spec = 115 then
    let l := v.ps.length
    let l := if d.havePrec && l > d.prec then d.prec else l
    return v.ps.take l
  else
    let (b, dg) ← fmtNumber d v.uv.toNat v.radix v.upper
    return load b 0 dg

/-- The first `sig` characters of `pg`. -/
def fmtPrefix (d : Directive) (v : Conversion) : List UInt8 :=
  if v.spec = 100 ∨ v.spec = 105 then
    if v.neg then [45] else if d.flags.plus then [43] else if d.flags.space then [32] else []
  else if v.alt && v.radix = 16 && v.uv ≠ 0 then [48, if v.upper then 88 else 120]
  else if v.alt && v.radix = 8 && v.uv ≠ 0 then [48]
  else []

/-- The padding, `pg` and the body. -/
def fmtLayout (cap width : Nat) (left zero : Bool) (pg body : List UInt8) (o : FmtOut) : FmtOut :=
  let total := pg.length + body.length
  let pad := if width > total then width - total else 0
  let o := if !left && !zero then owcrtFmtPad cap 32 pad o else o
  let o := fmtCopy cap pg o
  if left then owcrtFmtPad cap 32 pad (fmtCopy cap body o)
  else fmtCopy cap body (if zero then owcrtFmtPad cap 48 pad o else o)

/-- What a directive puts: `ap`, the number of arguments taken, and the output after it. -/
def fmtDirective (cap : Nat) (args : Nat → FmtArg) (d : Directive) (ap : Nat) (o : FmtOut) :
    Except FmtFault (Nat × FmtOut) :=
  match fmtFetch d (args ap) with
  | some v => do
      let body ← fmtBody d v (args ap)
      return (ap + 1, fmtLayout cap d.width d.flags.left v.zero (fmtPrefix d v) body o)
  | none =>
    if d.spec = 37 then .ok (ap, owcrtFmtPut cap o 37)
    else .ok (ap, owcrtFmtPut cap (owcrtFmtPut cap o 37) d.spec)

/-! ## The call -/

/-- The loop of `ow_snprintf`.  `fuel` bounds its turns: each of them reads a character. -/
def fmtLoop (cap : Nat) (args : Nat → FmtArg) :
    (fuel : Nat) → List UInt8 → (ap : Nat) → FmtOut → Except FmtFault FmtOut
  | fuel + 1, c :: p, ap, o =>
    if c = 0 then .ok o
    else if c ≠ 37 then fmtLoop cap args fuel p ap (owcrtFmtPut cap o c)
    else do
      let (d, p) ← readDirective p
      let (ap, o) ← fmtDirective cap args d ap o
      fmtLoop cap args fuel p ap o
  | _, _, _, _ => .error .format

/-- `ow_snprintf`, with the buffer after it and its return value.  `args` are the arguments in
order. -/
def owSnprintf (out : Option Mem) (cap : Nat) (fmt : List UInt8) (args : Nat → FmtArg) :
    Except FmtFault (Option Mem × Nat) := do
  let cap := if out.isNone || cap = 0 then 0 else cap
  let o ← fmtLoop cap args fmt.length fmt 0 ⟨out.getD blank, 0⟩
  let m :=
    if cap > 0 then
      if o.w < cap then setByte o.out o.w 0 else setByte o.out (cap - 1) 0
    else o.out
  return (out.map fun _ => m, o.w)

end Crt64
