import OpenWindows.Engines.Shell

/-!
# Decimal literals

`parse_i64` answers `MENG_OK` just for the texts of the integers, but it accumulates the digits in
a `uint64_t` and never looks at the range.  So its value is the integer modulo `2 ^ 64`, and what
`meng_itoa` writes is read back as it was.
-/

namespace Engines

/-- The characters `0` to `9`. -/
def IsDigit (c : UInt8) : Prop := 48 ≤ c ∧ c ≤ 57

instance (c : UInt8) : Decidable (IsDigit c) := inferInstanceAs (Decidable (_ ∧ _))

/-- What digits denote after a prefix that denotes `u`. -/
def digitsFrom (u : Nat) (cs : List UInt8) : Nat :=
  cs.foldl (fun u c => u * 10 + (c.toNat - 48)) u

/-- `s` is an optional `-` and one or more decimal digits, and denotes the integer. -/
inductive Numeral : List UInt8 → Int → Prop where
  | plain {cs : List UInt8} : cs ≠ [] → (∀ c ∈ cs, IsDigit c) → Numeral cs (digitsFrom 0 cs)
  | minus {cs : List UInt8} : cs ≠ [] → (∀ c ∈ cs, IsDigit c) →
      Numeral (45 :: cs) (-(digitsFrom 0 cs : Int))

/-- The integers an `int64_t` holds. -/
def InInt64 (z : Int) : Prop := -2 ^ 63 ≤ z ∧ z < 2 ^ 63

/-! ## Reading digits -/

theorem isDigit_iff {c : UInt8} : IsDigit c ↔ ¬ (c < 48 ∨ 57 < c) := by
  rw [IsDigit, not_or, UInt8.not_lt, UInt8.not_lt]

theorem parseDigits_ok_iff {u : Nat} {cs : List UInt8} {v : BitVec 64} :
    parseDigits (BitVec.ofNat 64 u) cs = .ok v ↔
      (∀ c ∈ cs, IsDigit c) ∧ v = BitVec.ofNat 64 (digitsFrom u cs) := by
  induction cs generalizing u with
  | nil => simp [parseDigits, digitsFrom, eq_comm]
  | cons c cs ih =>
    have hacc : BitVec.ofNat 64 u * 10 + BitVec.ofNat 64 (c.toNat - 48) =
        BitVec.ofNat 64 (u * 10 + (c.toNat - 48)) := by
      rw [BitVec.ofNat_add, BitVec.ofNat_mul]
      rfl
    rw [parseDigits, hacc, List.forall_mem_cons, isDigit_iff]
    split
    next hbad => simp [hbad]
    next hgood =>
      rw [ih]
      simp [hgood, digitsFrom]

theorem numeral_unique {s : List UInt8} {y z : Int} (hy : Numeral s y) (hz : Numeral s z) :
    y = z := by
  have hminus : ¬ IsDigit 45 := by decide
  cases hy with
  | plain hne hd =>
    cases hz with
    | plain _ _ => rfl
    | minus _ _ => exact absurd (hd 45 (List.mem_cons_self ..)) hminus
  | minus hne hd =>
    cases hz with
    | plain _ hd' => exact absurd (hd' 45 (List.mem_cons_self ..)) hminus
    | minus _ _ => rfl

theorem parseI64_ok_iff {s : List UInt8} {v : BitVec 64} :
    parseI64 s = .ok v ↔ ∃ z, Numeral s z ∧ v = BitVec.ofInt 64 z := by
  have hdig : ∀ {cs : List UInt8} {u : BitVec 64}, parseDigits 0 cs = .ok u ↔
      (∀ c ∈ cs, IsDigit c) ∧ u = BitVec.ofNat 64 (digitsFrom 0 cs) :=
    fun {cs u} => parseDigits_ok_iff (u := 0)
  constructor
  · intro h
    unfold parseI64 at h
    split at h
    · cases h
    next cs hne =>
      split at h
      next u hu =>
        cases h
        obtain ⟨hd, rfl⟩ := hdig.mp hu
        exact ⟨_, .minus hne hd, by rw [BitVec.ofInt_neg, BitVec.ofInt_natCast]⟩
      · cases h
    · cases h
    next cs _ _ hne =>
      obtain ⟨hd, rfl⟩ := hdig.mp h
      exact ⟨_, .plain hne hd, by rw [BitVec.ofInt_natCast]⟩
  · rintro ⟨z, hz, rfl⟩
    cases hz with
    | plain hne hd =>
      unfold parseI64
      split
      · exact absurd (hd 45 (List.mem_cons_self ..)) (by decide)
      · exact absurd (hd 45 (List.mem_cons_self ..)) (by decide)
      · exact absurd rfl hne
      · rw [hdig, BitVec.ofInt_natCast]
        exact ⟨hd, rfl⟩
    | @minus cs hne hd =>
      cases cs with
      | nil => exact absurd rfl hne
      | cons c cs =>
        have hok := hdig.mpr ⟨hd, rfl⟩
        simp only [parseI64, hok, BitVec.ofInt_neg, BitVec.ofInt_natCast]

/-! ## Writing and reading back -/

theorem digit_of_lt {d : Nat} (h : d < 10) :
    IsDigit (UInt8.ofNat (48 + d)) ∧ (UInt8.ofNat (48 + d)).toNat - 48 = d := by
  interval_cases d <;> decide

theorem digitsFrom_digits (u : Nat) :
    digitsFrom 0 ((Nat.digits 10 u).map fun d => UInt8.ofNat (48 + d)).reverse = u := by
  have hfold : ∀ ds : List Nat, (∀ d ∈ ds, d < 10) →
      digitsFrom 0 (ds.map fun d => UInt8.ofNat (48 + d)).reverse = Nat.ofDigits 10 ds := by
    intro ds
    induction ds with
    | nil => exact fun _ => rfl
    | cons d ds ih =>
      intro h
      rw [List.forall_mem_cons] at h
      have hrest := ih h.2
      rw [digitsFrom] at hrest ⊢
      rw [List.map_cons, List.reverse_cons, List.foldl_append, hrest, Nat.ofDigits_cons]
      simp only [List.foldl_cons, List.foldl_nil, (digit_of_lt h.1).2]
      omega
  rw [hfold _ fun d hd => Nat.digits_lt_base (by decide) hd, Nat.ofDigits_digits]

theorem numeral_decimal (z : Int) : Numeral (decimal z) z := by
  have hdigits : ∀ c ∈ ((Nat.digits 10 z.natAbs).map fun d => UInt8.ofNat (48 + d)).reverse,
      IsDigit c := by
    intro c hc
    rw [List.mem_reverse, List.mem_map] at hc
    obtain ⟨d, hd, rfl⟩ := hc
    exact (digit_of_lt (Nat.digits_lt_base (by decide) hd)).1
  have hvalue := digitsFrom_digits z.natAbs
  have hne : z ≠ 0 →
      ((Nat.digits 10 z.natAbs).map fun d => UInt8.ofNat (48 + d)).reverse ≠ [] := by
    intro hz hnil
    rw [List.reverse_eq_nil_iff, List.map_eq_nil_iff, Nat.digits_eq_nil_iff_eq_zero] at hnil
    exact hz (Int.natAbs_eq_zero.mp hnil)
  rcases Int.lt_trichotomy z 0 with hz | rfl | hz
  · have hminus := Numeral.minus (hne (by omega)) hdigits
    rw [hvalue, show -((z.natAbs : Nat) : Int) = z by omega] at hminus
    rw [decimal, if_pos hz, if_neg (by omega)]
    exact hminus
  · exact @Numeral.plain [48] (by simp) (by decide +kernel)
  · have hplain := Numeral.plain (hne (by omega)) hdigits
    rw [hvalue, show ((z.natAbs : Nat) : Int) = z by omega] at hplain
    rw [decimal, if_neg (by omega), if_neg (by omega)]
    exact hplain

theorem inInt64_toInt (v : BitVec 64) : InInt64 v.toInt :=
  ⟨BitVec.le_toInt v, BitVec.toInt_lt⟩

theorem toInt_ofInt_of_inInt64 {z : Int} (h : InInt64 z) : (BitVec.ofInt 64 z).toInt = z := by
  obtain ⟨hlo, hhi⟩ := h
  rw [BitVec.toInt_ofInt]
  exact Int.bmod_eq_of_le (by omega) (by omega)

/-- `parse_i64` answers with the integer a text denotes, and refuses every other text, unless the
text denotes an integer out of range; and it reads back what `meng_itoa` writes. -/
theorem parseI64_iff (s : List UInt8) :
    ((∀ v, parseI64 s = .ok v ↔ Numeral s v.toInt) ↔ ∀ z, Numeral s z → InInt64 z) ∧
      ∀ v, parseI64 (mengItoa v numBufSize) = .ok v := by
  refine ⟨⟨fun h z hz => ?_, fun h v => ?_⟩, fun v => ?_⟩
  · have hread := (h _).mp (parseI64_ok_iff.mpr ⟨z, hz, rfl⟩)
    rw [numeral_unique hz hread]
    exact inInt64_toInt _
  · rw [parseI64_ok_iff]
    constructor
    · rintro ⟨z, hz, rfl⟩
      rwa [toInt_ofInt_of_inInt64 (h z hz)]
    · intro hv
      exact ⟨_, hv, BitVec.ofInt_toInt.symm⟩
  · rw [mengItoa_eq_decimal, parseI64_ok_iff]
    exact ⟨_, numeral_decimal _, BitVec.ofInt_toInt.symm⟩

/-- `2 ^ 64`. -/
def twoPow64 : List UInt8 :=
  ascii ['1', '8', '4', '4', '6', '7', '4', '4', '0', '7', '3', '7', '0', '9', '5', '5', '1', '6',
    '1', '6']

/-- The text of `2 ^ 64` is read as zero. -/
theorem parseI64_twoPow64 :
    parseI64 twoPow64 = .ok 0 ∧ ¬ ∀ v, parseI64 twoPow64 = .ok v ↔ Numeral twoPow64 v.toInt := by
  have hread : parseI64 twoPow64 = .ok 0 := by decide
  have hdenotes : Numeral twoPow64 (2 ^ 64) := .plain (by decide) (by decide +kernel)
  refine ⟨hread, fun h => ?_⟩
  exact absurd (numeral_unique ((h 0).mp hread) hdenotes) (by decide)

end Engines
