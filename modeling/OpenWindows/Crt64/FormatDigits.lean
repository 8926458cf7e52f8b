import Mathlib.Data.Nat.Digits.Lemmas
import OpenWindows.Crt64.Format

/-!
# The digits of the formatter

`numbuf` is filled from the back end of the number, reversed, and moved up to make room for
leading zeros.  The digits of a `uint64_t` always fit.  A precision beyond `numbuf` is the one way
to write past it, and the first digit moved does.
-/

namespace Crt64

open Memory

variable {b : Mem} {d : Directive} {radix v : Nat} {upper : Bool}

/-- The characters of a number, with no digit for zero. -/
def digitsText (radix : Nat) (upper : Bool) (v : Nat) : List UInt8 :=
  ((Nat.digits radix v).map (digitChar upper)).reverse

/-- What `owcrt_fmt_uint` and `owcrt_fmt_reverse` leave in `numbuf`. -/
def uintText (radix : Nat) (upper : Bool) (v : Nat) : List UInt8 :=
  if v = 0 then [48] else digitsText radix upper v

/-- The digits with the leading zeros of a precision. -/
def numberText (d : Directive) (radix : Nat) (upper : Bool) (v : Nat) : List UInt8 :=
  let ds := uintText radix upper v
  if d.havePrec then List.replicate (d.prec - ds.length) 48 ++ ds else ds

/-! ## Lengths -/

theorem length_digitsText (radix : Nat) (upper : Bool) (v : Nat) :
    (digitsText radix upper v).length = (Nat.digits radix v).length := by
  simp [digitsText]

theorem length_uintText_pos (radix : Nat) (upper : Bool) (v : Nat) :
    0 < (uintText radix upper v).length := by
  rw [uintText]
  split
  · simp
  next hv =>
    rw [length_digitsText, List.length_pos_iff]
    exact Nat.digits_ne_nil_iff_ne_zero.mpr hv

theorem length_digits_le (hradix : 8 ≤ radix) (hv : v < 2 ^ 64) :
    (Nat.digits radix v).length ≤ 22 := by
  refine (Nat.digits_length_le_iff (by omega) v).mpr ?_
  calc v < 8 ^ 22 := hv.trans (by decide)
    _ ≤ radix ^ 22 := Nat.pow_le_pow_left hradix 22

theorem length_uintText_le (hradix : 8 ≤ radix) (upper : Bool) (hv : v < 2 ^ 64) :
    (uintText radix upper v).length ≤ 22 := by
  rw [uintText]
  split
  · decide
  · rw [length_digitsText]
    exact length_digits_le hradix hv

/-! ## `numbuf` -/

@[simp] theorem setByte_self (b : Mem) (i : Nat) (c : UInt8) : setByte b i c i = c := if_pos rfl

variable {i n extra : Nat}

theorem setByte_of_ne {x : Nat} (h : x ≠ i) (b : Mem) (c : UInt8) : setByte b i c x = b x :=
  if_neg h

theorem putNum_ok (h : i < numbufSize) (b : Mem) (c : UInt8) :
    putNum b i c = .ok (setByte b i c) := if_pos h

theorem putNum_error (h : numbufSize ≤ i) (b : Mem) (c : UInt8) :
    putNum b i c = .error .numbuf := if_neg (by omega)

theorem fmtUintLoop_ok (hradix : 1 < radix) (upper : Bool) (b : Mem) (fuel : Nat)
    (hfuel : v ≤ fuel) (hfit : n + (Nat.digits radix v).length ≤ numbufSize) :
    ∃ b', fmtUintLoop radix upper fuel v b n = .ok (b', n + (Nat.digits radix v).length) ∧
      load b' n (Nat.digits radix v).length = (Nat.digits radix v).map (digitChar upper) ∧
      SameOn (· < n) b b' := by
  induction fuel generalizing v b n with
  | zero =>
    obtain rfl : v = 0 := by omega
    exact ⟨b, by simp [fmtUintLoop], by simp [load], SameOn.refl _ _⟩
  | succ fuel ih =>
    cases Nat.eq_zero_or_pos v with
    | inl hv =>
      subst hv
      exact ⟨b, by simp [fmtUintLoop], by simp [load], SameOn.refl _ _⟩
    | inr hv =>
      rw [Nat.digits_def' hradix hv, List.length_cons] at hfit ⊢
      have hn : n < numbufSize := by omega
      have hdiv : v / radix ≤ fuel := by
        have := Nat.div_lt_self hv hradix
        omega
      obtain ⟨b', hb', hload, hsame⟩ :=
        ih (setByte b n (digitChar upper (v % radix))) (n := n + 1) hdiv (by omega)
      refine ⟨b', ?_, ?_, fun x hx => ?_⟩
      · simp only [fmtUintLoop, if_pos (Nat.ne_of_gt hv), putNum_ok hn, bind, Except.bind]
        rw [hb', Nat.add_assoc, Nat.add_comm 1]
      · rw [load_succ, hload, hsame n (Nat.lt_succ_self n), setByte_self, List.map_cons]
      · rw [hsame x (Nat.lt_succ_of_lt hx), setByte_of_ne (Nat.ne_of_lt hx)]

theorem owcrtFmtUint_ok (hradix : 8 ≤ radix) (upper : Bool) (hv : v < 2 ^ 64) (b : Mem) :
    ∃ b', owcrtFmtUint b v radix upper 0 = .ok (b', (uintText radix upper v).length) ∧
      load b' 0 (uintText radix upper v).length = (uintText radix upper v).reverse := by
  have hlen := length_uintText_le hradix upper hv
  rw [uintText] at hlen ⊢
  rw [owcrtFmtUint]
  split
  · exact ⟨_, rfl, by simp [load]⟩
  next hne =>
    rw [if_neg hne, length_digitsText] at hlen
    have hfit : 0 + (Nat.digits radix v).length ≤ numbufSize := by
      rw [numbufSize]
      omega
    obtain ⟨b', hb', hload, -⟩ :=
      fmtUintLoop_ok (by omega) upper b v le_rfl hfit
    rw [Nat.zero_add] at hb'
    refine ⟨b', by rw [hb', length_digitsText], ?_⟩
    rw [length_digitsText, hload, digitsText, List.reverse_reverse]

theorem owcrtFmtReverse_ok {j : Nat} (hj : j ≤ numbufSize) : ∃ b', owcrtFmtReverse b i j = .ok b' ∧
      ∀ x, b' x = if i ≤ x ∧ x < j then b (i + (j - 1) - x) else b x := by
  induction j generalizing i b with
  | zero => exact ⟨b, rfl, fun x => by simp⟩
  | succ j ih =>
    rw [owcrtFmtReverse]
    split
    next hij =>
      have hi : i < numbufSize := by omega
      obtain ⟨b', hb', hcells⟩ :=
        ih (b := setByte (setByte b i (b j)) j (b i)) (i := i + 1) (by omega)
      refine ⟨b', ?_, fun x => ?_⟩
      · simp only [putNum_ok hi, putNum_ok (show j < numbufSize from hj), bind, Except.bind]
        exact hb'
      · rw [hcells]
        simp only [setByte]
        split_ifs <;> first | omega | rfl | (congr 1; omega)
    next hij => exact ⟨b, rfl, fun x => by rw [if_neg (by omega)]⟩

theorem load_reversed {b' : Mem}
    (h : ∀ x, b' x = if 0 ≤ x ∧ x < n then b (0 + (n - 1) - x) else b x) :
    load b' 0 n = (load b 0 n).reverse := by
  refine List.ext_getElem (by simp) fun i h1 h2 => ?_
  rw [length_load] at h1
  simp [load, h, h1]

theorem shiftDigits_ok (b : Mem) (hfit : n + extra ≤ numbufSize) :
    ∃ b', shiftDigits extra n b = .ok b' ∧
      ∀ x, b' x = if extra ≤ x ∧ x < n + extra then b (x - extra) else b x := by
  induction n generalizing b with
  | zero => exact ⟨b, rfl, fun x => by rw [if_neg (by omega)]⟩
  | succ n ih =>
    obtain ⟨b', hb', hcells⟩ := ih (setByte b (n + extra) (b n)) (by omega)
    refine ⟨b', ?_, fun x => ?_⟩
    · simp only [shiftDigits, putNum_ok (show n + extra < numbufSize by omega), bind, Except.bind]
      exact hb'
    · rw [hcells]
      simp only [setByte]
      split_ifs <;> first | omega | rfl | (congr 1; omega)

theorem shiftDigits_error (hn : 0 < n) (h : numbufSize < n + extra) :
    shiftDigits extra n b = .error .numbuf := by
  obtain ⟨n, rfl⟩ := Nat.exists_eq_add_of_lt hn
  rw [Nat.zero_add, shiftDigits, putNum_error (by omega)]
  rfl

theorem fillZeros_ok (b : Mem) (h : extra ≤ numbufSize) :
    ∃ b', fillZeros extra b = .ok b' ∧ ∀ x, b' x = if x < extra then 48 else b x := by
  induction extra with
  | zero => exact ⟨b, rfl, fun x => by simp⟩
  | succ extra ih =>
    obtain ⟨b', hb', hcells⟩ := ih (by omega)
    refine ⟨setByte b' extra 48, ?_, fun x => ?_⟩
    · simp only [fillZeros, hb', putNum_ok (show extra < numbufSize from h), bind, Except.bind]
    · rw [setByte, hcells]
      split_ifs <;> first | omega | rfl

theorem load_zeros_digits {b' b'' : Mem}
    (hshift : ∀ x, b' x = if extra ≤ x ∧ x < n + extra then b (x - extra) else b x)
    (hfill : ∀ x, b'' x = if x < extra then 48 else b' x) :
    load b'' 0 (n + extra) = List.replicate extra 48 ++ load b 0 n := by
  rw [Nat.add_comm n, load_add]
  congr 1
  · refine List.eq_replicate_iff.mpr ⟨length_load .., fun c hc => ?_⟩
    obtain ⟨i, hi, rfl⟩ := List.mem_map.mp hc
    rw [Nat.zero_add, hfill, if_pos (List.mem_range.mp hi)]
  · refine List.map_congr_left fun i hi => ?_
    have := List.mem_range.mp hi
    rw [hfill, if_neg (by omega), hshift, if_pos (by omega)]
    congr 1
    omega

/-! ## The integer branch -/

variable (hradix : 8 ≤ radix) (hv : v < 2 ^ 64)

include hradix hv

theorem reversed_digits (upper : Bool) (b : Mem) :
    ∃ b' b'', owcrtFmtUint b v radix upper 0 = .ok (b', (uintText radix upper v).length) ∧
      owcrtFmtReverse b' 0 (uintText radix upper v).length = .ok b'' ∧
      load b'' 0 (uintText radix upper v).length = uintText radix upper v := by
  have hlen := length_uintText_le hradix upper hv
  obtain ⟨b', hb', hload⟩ := owcrtFmtUint_ok hradix upper hv b
  have hfit : (uintText radix upper v).length ≤ numbufSize := by
    rw [numbufSize]
    omega
  obtain ⟨b'', hb'', hcells⟩ := owcrtFmtReverse_ok (b := b') (i := 0) hfit
  exact ⟨b', b'', hb', hb'', by rw [load_reversed hcells, hload, List.reverse_reverse]⟩

theorem fmtNumber_ok (upper : Bool) (hprec : d.havePrec = true → d.prec ≤ numbufSize) :
    ∃ b n, fmtNumber d v radix upper = .ok (b, n) ∧
      load b 0 n = numberText d radix upper v := by
  obtain ⟨b', b'', huint, hrev, hload⟩ := reversed_digits hradix hv upper blank
  simp only [fmtNumber, huint, hrev, bind, Except.bind]
  split
  next hlong =>
    rw [Bool.and_eq_true, decide_eq_true_eq] at hlong
    have hprec := hprec hlong.1
    have hfit : (uintText radix upper v).length + (d.prec - (uintText radix upper v).length) ≤
        numbufSize := by omega
    obtain ⟨b₁, hb₁, hshift⟩ := shiftDigits_ok b'' hfit
    obtain ⟨b₂, hb₂, hfill⟩ := fillZeros_ok b₁ (Nat.le_of_add_left_le hfit)
    simp only [hb₁, hb₂]
    exact ⟨_, _, rfl, by rw [load_zeros_digits hshift hfill, hload, numberText, if_pos hlong.1]⟩
  next hshort =>
    refine ⟨_, _, rfl, ?_⟩
    rw [hload, numberText]
    split
    next hhave =>
      have hle : d.prec ≤ (uintText radix upper v).length := by simpa [hhave] using hshort
      rw [Nat.sub_eq_zero_of_le hle, List.replicate_zero, List.nil_append]
    · rfl

theorem fmtNumber_error (hhave : d.havePrec = true) (hprec : numbufSize < d.prec) :
    fmtNumber d v radix upper = .error .numbuf := by
  obtain ⟨b', b'', huint, hrev, -⟩ := reversed_digits hradix hv upper blank
  have hpos := length_uintText_pos radix upper v
  have hlen := length_uintText_le hradix upper hv
  have hlong : (uintText radix upper v).length < d.prec := by
    rw [numbufSize] at hprec
    omega
  simp only [fmtNumber, huint, hrev, bind, Except.bind]
  rw [if_pos (by simp [hhave, hlong]), shiftDigits_error hpos (by omega)]

end Crt64
