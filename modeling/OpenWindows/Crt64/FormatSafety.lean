import OpenWindows.Crt64.FormatDigits

/-!
# The accesses of the formatter

The loops over flags, digits and length modifiers stop at the NUL, since it is none of them.  But
the conversion character is read without a look at what it is, and a directive that the NUL cuts
short takes the NUL for it, after which the format is read on.  The other fault is the precision,
which nothing bounds before the digits are moved up in `numbuf`.
-/

namespace Crt64

open Memory

variable {cap : Nat} {args : Nat → FmtArg} {d : Directive} {a : FmtArg} {v : Conversion}
variable {s t : List UInt8}

/-! ## Reading a directive -/

theorem fmtWhile_ok {α : Type} {p : UInt8 → Bool} {c : UInt8} (hc : p c = false)
    (step : α → UInt8 → α) (x : α) (s t : List UInt8) :
    fmtWhile p step x (s ++ c :: t) =
      .ok ((s.takeWhile p).foldl step x, s.dropWhile p ++ c :: t) := by
  induction s generalizing x with
  | nil => simp [fmtWhile, hc]
  | cons b s ih =>
    cases hb : p b with
    | true => simp [fmtWhile, hb, ih]
    | false => simp [fmtWhile, hb]

def widthEnd (s : List UInt8) : List UInt8 := (s.dropWhile isFlag).dropWhile isDigit

def precDigits (s : List UInt8) : Option (List UInt8) :=
  match widthEnd s with
  | [] => none
  | c :: t => if c = 46 then some (t.takeWhile isDigit) else none

def precEnd (s : List UInt8) : List UInt8 :=
  match widthEnd s with
  | [] => []
  | c :: t => if c = 46 then t.dropWhile isDigit else c :: t

/-- The text from the conversion character on. -/
def specText (s : List UInt8) : List UInt8 := (precEnd s).dropWhile isLength

/-- The number that digits denote. -/
def decimal (ds : List UInt8) : Nat := ds.foldl (fun n c => n * 10 + (c.toNat - 48)) 0

theorem foldl_addDigit (ds : List UInt8) : ds.foldl addDigit 0 = decimal ds % 2 ^ 32 := by
  induction ds using List.reverseRecOn with
  | nil => rfl
  | append_singleton ds c ih =>
    have hdec : decimal (ds ++ [c]) = decimal ds * 10 + (c.toNat - 48) := by simp [decimal]
    rw [List.foldl_append, List.foldl_cons, List.foldl_nil, ih, hdec, addDigit]
    omega

theorem fmtDigits_ok {c : UInt8} (hc : isDigit c = false) (s t : List UInt8) :
    fmtDigits (s ++ c :: t) =
      .ok (decimal (s.takeWhile isDigit) % 2 ^ 32, s.dropWhile isDigit ++ c :: t) := by
  rw [fmtDigits, fmtWhile_ok hc, foldl_addDigit]

theorem fmtPrec_nul (s : List UInt8) :
    fmtPrec (widthEnd s ++ [0]) =
      .ok (((precDigits s).isSome, decimal ((precDigits s).getD []) % 2 ^ 32),
        precEnd s ++ [0]) := by
  rw [precDigits, precEnd]
  cases widthEnd s with
  | nil => rfl
  | cons c t =>
    rw [List.cons_append, fmtPrec]
    split
    next hc => simp [hc, fmtDigits_ok (show isDigit 0 = false by decide)]
    next hc => simp [hc, decimal]

/-- What is read of a directive whose conversion character is `spec`. -/
def directiveOf (s : List UInt8) (spec : UInt8) : Directive where
  flags := (s.takeWhile isFlag).foldl FmtFlags.add {}
  width := decimal ((s.dropWhile isFlag).takeWhile isDigit) % 2 ^ 32
  havePrec := (precDigits s).isSome
  prec := decimal ((precDigits s).getD []) % 2 ^ 32
  llen := ((precEnd s).takeWhile isLength).foldl addLength 0
  spec := spec

theorem directiveOf_prec {spec : UInt8} :
    ((directiveOf s spec).havePrec = true → (directiveOf s spec).prec ≤ numbufSize) ↔
      ∀ ds ∈ precDigits s, decimal ds % 2 ^ 32 ≤ 24 := by
  rw [directiveOf]
  cases precDigits s <;> simp [numbufSize]

theorem readDirective_nul (s : List UInt8) :
    readDirective (s ++ [0]) =
      match specText s with
      | [] => .ok (directiveOf s 0, [])
      | spec :: t => .ok (directiveOf s spec, t ++ [0]) := by
  have hwidth : fmtDigits (s.dropWhile isFlag ++ [0]) =
      .ok (decimal ((s.dropWhile isFlag).takeWhile isDigit) % 2 ^ 32, widthEnd s ++ [0]) :=
    fmtDigits_ok (by decide) ..
  have hlength : fmtLength (precEnd s ++ [0]) =
      .ok (((precEnd s).takeWhile isLength).foldl addLength 0, specText s ++ [0]) :=
    fmtWhile_ok (by decide) ..
  simp only [readDirective, fmtFlags, fmtWhile_ok (show isFlag 0 = false by decide), hwidth,
    fmtPrec_nul, hlength, bind, Except.bind]
  cases specText s <;> rfl

/-! ## Writing the body -/

/-- The conversions that go through `numbuf`: `d`, `i`, `u`, `o`, `x`, `X` and `p`. -/
def isNumber (c : UInt8) : Bool :=
  c == 100 || c == 105 || c == 117 || c == 111 || c == 120 || c == 88 || c == 112

def bodyText (d : Directive) (v : Conversion) (a : FmtArg) : List UInt8 :=
  if v.spec = 99 then [a.bits.toUInt8]
  else if v.spec = 115 then
    v.ps.take (if d.havePrec && v.ps.length > d.prec then d.prec else v.ps.length)
  else numberText d v.radix v.upper v.uv.toNat

theorem Conversion.eight_le_radix (v : Conversion) : 8 ≤ v.radix := by
  rw [radix]
  split
  · decide
  · split <;> decide

theorem fmtBody_ok (h : v.spec ≠ 99 → v.spec ≠ 115 → d.havePrec = true → d.prec ≤ numbufSize) :
    fmtBody d v a = .ok (bodyText d v a) := by
  rw [fmtBody, bodyText]
  split
  · rfl
  next hc =>
    split
    · rfl
    next hs =>
      obtain ⟨b, n, hnumber, hload⟩ :=
        fmtNumber_ok v.eight_le_radix v.uv.toNat_lt v.upper (h hc hs)
      simp only [hnumber, bind, Except.bind, ← hload]
      rfl

theorem fmtBody_error (hc : v.spec ≠ 99) (hs : v.spec ≠ 115) (hhave : d.havePrec = true)
    (hprec : numbufSize < d.prec) : fmtBody d v a = .error .numbuf := by
  simp only [fmtBody, if_neg hc, if_neg hs,
    fmtNumber_error v.eight_le_radix v.uv.toNat_lt hhave hprec, bind, Except.bind]

theorem fmtFetch_spec (h : fmtFetch d a = some v) :
    isNumber d.spec = true ↔ v.spec ≠ 99 ∧ v.spec ≠ 115 := by
  unfold fmtFetch at h
  split at h
  next hd => cases h; simp [hd, isNumber]
  split at h
  next hd => cases h; simp [hd, isNumber]
  split at h
  next hd => cases h; simp [hd, isNumber]
  split at h
  next hd =>
    cases h
    rcases hd with hd | hd <;> simp [hd, isNumber]
  split at h
  next hd =>
    cases h
    rcases hd with hd | hd | hd | hd <;> simp [hd, isNumber]
  · cases h

theorem fmtFetch_none (h : fmtFetch d a = none) : isNumber d.spec = false := by
  unfold fmtFetch at h
  split at h
  · cases h
  split at h
  · cases h
  split at h
  · cases h
  split at h
  · cases h
  split at h
  · cases h
  next hp hdi hrest => simp_all [isNumber]

theorem fmtDirective_ok_iff (cap : Nat) (args : Nat → FmtArg) (d : Directive) (ap : Nat)
    (o : FmtOut) :
    (∃ r, fmtDirective cap args d ap o = .ok r) ↔
      (isNumber d.spec = true → d.havePrec = true → d.prec ≤ numbufSize) := by
  rw [fmtDirective]
  cases hfetch : fmtFetch d (args ap) with
  | none =>
    simp only [fmtFetch_none hfetch, Bool.false_eq_true, false_implies, iff_true]
    split <;> exact ⟨_, rfl⟩
  | some v =>
    rw [fmtFetch_spec hfetch]
    constructor
    · rintro ⟨r, hr⟩ ⟨hc, hs⟩ hhave
      by_contra hprec
      simp [fmtBody_error hc hs hhave (Nat.lt_of_not_le hprec), bind, Except.bind] at hr
    · intro h
      simp only [fmtBody_ok fun hc hs => h ⟨hc, hs⟩, bind, Except.bind]
      exact ⟨_, rfl⟩

/-! ## The formats without a fault -/

/-- Every directive has its conversion character, and the precision of a number is at most 24 in
its `uint32_t`. -/
inductive Tame : List UInt8 → Prop where
  | nil : Tame []
  | char {c : UInt8} {s : List UInt8} : c ≠ 37 → Tame s → Tame (c :: s)
  | directive {s t : List UInt8} {spec : UInt8} : specText s = spec :: t →
      (isNumber spec = true → ∀ ds ∈ precDigits s, decimal ds % 2 ^ 32 ≤ 24) → Tame t →
      Tame (37 :: s)

theorem tame_char {c : UInt8} (hc : c ≠ 37) : Tame (c :: s) ↔ Tame s := by
  constructor
  · intro h
    cases h with
    | char _ h => exact h
    | directive => exact absurd rfl hc
  · exact .char hc

theorem tame_directive {spec : UInt8} (hspec : specText s = spec :: t) :
    Tame (37 :: s) ↔
      (isNumber spec = true → ∀ ds ∈ precDigits s, decimal ds % 2 ^ 32 ≤ 24) ∧ Tame t := by
  constructor
  · intro h
    cases h with
    | char hc => exact absurd rfl hc
    | directive hspec' hprec h =>
      cases hspec.symm.trans hspec'
      exact ⟨hprec, h⟩
  · rintro ⟨hprec, h⟩
    exact .directive hspec hprec h

theorem not_tame_cut (hspec : specText s = []) : ¬ Tame (37 :: s) := by
  intro h
  cases h with
  | char hc => exact hc rfl
  | directive hspec' => simp [hspec] at hspec'

theorem specText_suffix (s : List UInt8) : specText s <:+ s := by
  have hprec : precEnd s <:+ widthEnd s := by
    rw [precEnd]
    cases widthEnd s with
    | nil => exact List.suffix_refl _
    | cons c t =>
      dsimp only
      split
      · exact (List.dropWhile_suffix _).trans (List.suffix_cons c t)
      · exact List.suffix_refl _
  exact (List.dropWhile_suffix _).trans
    (hprec.trans ((List.dropWhile_suffix _).trans (List.dropWhile_suffix _)))

theorem fmtLoop_nil (fuel ap : Nat) (o : FmtOut) :
    fmtLoop cap args fuel [] ap o = .error .format := by
  cases fuel <;> rfl

theorem fmtLoop_ok_iff (cap : Nat) (args : Nat → FmtArg) {fuel : Nat} (hfuel : s.length < fuel)
    (hnul : 0 ∉ s) (ap : Nat) (o : FmtOut) :
    (∃ o', fmtLoop cap args fuel (s ++ [0]) ap o = .ok o') ↔ Tame s := by
  induction fuel generalizing s ap o with
  | zero => omega
  | succ fuel ih =>
    cases s with
    | nil => exact ⟨fun _ => .nil, fun _ => ⟨o, rfl⟩⟩
    | cons c s =>
      rw [List.mem_cons, not_or] at hnul
      rw [List.length_cons] at hfuel
      simp only [List.cons_append, fmtLoop, if_neg (Ne.symm hnul.1), readDirective_nul]
      split
      next hc => rw [ih (by omega) hnul.2, tame_char hc]
      next hc =>
        obtain rfl : c = 37 := not_not.mp hc
        cases hspec : specText s with
        | nil =>
          have hnul : isNumber (directiveOf s 0).spec = false := rfl
          obtain ⟨⟨ap', o'⟩, hturn⟩ :=
            (fmtDirective_ok_iff cap args (directiveOf s 0) ap o).mpr fun h => by
              simp [hnul] at h
          simp [hturn, fmtLoop_nil, not_tame_cut hspec, bind, Except.bind]
        | cons spec t =>
          have hsuffix : spec :: t <:+ s := hspec ▸ specText_suffix s
          have hlen : t.length < s.length := hsuffix.length_le
          have hturn := fmtDirective_ok_iff cap args (directiveOf s spec) ap o
          have hrest := ih (s := t) (by omega) fun h =>
            hnul.2 (hsuffix.subset (List.mem_cons_of_mem _ h))
          rw [directiveOf_prec] at hturn
          rw [tame_directive hspec]
          constructor
          · rintro ⟨o', ho'⟩
            cases hd : fmtDirective cap args (directiveOf s spec) ap o with
            | error e => simp [hd, bind, Except.bind] at ho'
            | ok r =>
              simp only [hd, bind, Except.bind] at ho'
              exact ⟨hturn.mp ⟨r, hd⟩, (hrest r.1 r.2).mp ⟨o', ho'⟩⟩
          · rintro ⟨hprec, htame⟩
            obtain ⟨r, hr⟩ := hturn.mpr hprec
            obtain ⟨o', ho'⟩ := (hrest r.1 r.2).mpr htame
            exact ⟨o', by simp only [hr, bind, Except.bind, ho']⟩

/-! ## The call -/

/-- A call on a NUL-terminated format keeps to the format and to `numbuf` just if the format is
tame. -/
theorem owSnprintf_safe_iff (out : Option Mem) (cap : Nat) (args : Nat → FmtArg)
    (hnul : 0 ∉ s) : (∃ r, owSnprintf out cap (s ++ [0]) args = .ok r) ↔ Tame s := by
  have hloop := fmtLoop_ok_iff (if out.isNone || cap = 0 then 0 else cap) args
    (Nat.lt_succ_self s.length) hnul 0 ⟨out.getD blank, 0⟩
  rw [owSnprintf, List.length_append, List.length_singleton, ← hloop]
  constructor
  · rintro ⟨r, hr⟩
    cases ho : fmtLoop (if out.isNone || cap = 0 then 0 else cap) args (s.length + 1) (s ++ [0]) 0
        ⟨out.getD blank, 0⟩ with
    | error e =>
      simp only [ho, bind, Except.bind] at hr
      cases hr
    | ok o => exact ⟨o, rfl⟩
  · rintro ⟨o, ho⟩
    simp only [ho, bind, Except.bind]
    exact ⟨_, rfl⟩

/-- `"%.24d"` fills `numbuf`. -/
theorem owSnprintf_safe_full :
    ∃ r, owSnprintf none 0 ([37, 46, 50, 52, 100] ++ [0]) (fun _ => ⟨7, none⟩) = .ok r :=
  (owSnprintf_safe_iff none 0 _ (by decide)).mpr
    (.directive rfl (by decide) .nil)

/-- `"%"` is read past its NUL, and `"%.25d"` writes `numbuf[24]`. -/
theorem owSnprintf_unsafe :
    (0 : UInt8) ∉ [37] ∧
      owSnprintf none 0 ([37] ++ [0]) (fun _ => ⟨7, none⟩) = .error .format ∧
      (0 : UInt8) ∉ [37, 46, 50, 53, 100] ∧
      owSnprintf none 0 ([37, 46, 50, 53, 100] ++ [0]) (fun _ => ⟨7, none⟩) = .error .numbuf :=
  ⟨by decide, rfl, by decide, rfl⟩

end Crt64
