import OpenWindows.Lib.Utf8
import OpenWindows.Owjson.Lockstep

/-!
# What is stored and what is denoted

The bytes the parser stores for a string against the bytes the string denotes.  They differ
only behind a high surrogate with a `\u` after it that is no low surrogate: the parser drops
that `\u` (`swallows`), so it stores less (`stored_lt`).
-/

namespace Owjson

/-! ## UTF-8 -/

theorem utf8Bytes_eq {cp : Nat} (h : cp.isValidChar) : utf8Bytes cp = utf8 cp :=
  Utf8.layout_eq h

theorem utf8_ne_nil (cp : Nat) : utf8 cp ≠ [] := String.utf8EncodeChar_ne_nil

theorem length_utf8_pos (cp : Nat) : 0 < (utf8 cp).length := List.length_pos_of_ne_nil (utf8_ne_nil cp)

variable {a b c d : UInt8} {items : List Item}

theorem codeUnit_valid (hwf : (Item.unicode a b c d).Wf)
    (hhigh : isHigh (codeUnit a b c d) = false) (hlow : isLow (codeUnit a b c d) = false) :
    (codeUnit a b c d).isValidChar := by
  have hlt := codeUnit_lt hwf
  simp only [isHigh, isLow, Bool.and_eq_false_iff, decide_eq_false_iff_not] at hhigh hlow
  rw [Nat.isValidChar]
  omega

theorem pairPoint_valid {high low : Nat} (hhigh : isHigh high = true) (hlow : isLow low = true) :
    (pairPoint high low).isValidChar := by
  simp only [isHigh, isLow, Bool.and_eq_true, decide_eq_true_eq] at hhigh hlow
  unfold Nat.isValidChar pairPoint
  omega

theorem length_utf8_pair {high low : Nat} (hhigh : isHigh high = true) (hlow : isLow low = true) :
    (utf8 (pairPoint high low)).length = 4 := by
  have hge : 0x10000 ≤ pairPoint high low := by
    unfold pairPoint
    omega
  rw [← utf8Bytes_eq (pairPoint_valid hhigh hlow), utf8Bytes,
    if_neg (show ¬ pairPoint high low < 0x80 by omega), if_neg (show ¬ pairPoint high low < 0x800 by omega),
    if_neg (show ¬ pairPoint high low < 0x10000 by omega)]
  rfl

theorem replacement_eq : utf8Bytes 0xFFFD = replacement := by
  have hvalid : Nat.isValidChar 0xFFFD := by
    unfold Nat.isValidChar
    omega
  rw [utf8Bytes_eq hvalid, replacement]

/-! ## Dropped escapes -/

/-- The string goes on with a `\u` that is no low surrogate. -/
def startsUnpaired : List Item → Bool
  | .unicode a b c d :: _ => !isLow (codeUnit a b c d)
  | _ => false

/-- A high surrogate has a `\u` right after it that is no low surrogate. -/
def swallows : List Item → Bool
  | [] => false
  | .raw _ :: items => swallows items
  | .escape _ :: items => swallows items
  | .unicode a b c d :: items => isHigh (codeUnit a b c d) && startsUnpaired items || swallows items

theorem isLow_of_isHigh {u : Nat} (h : isHigh u = true) : isLow u = false := by
  simp only [isHigh, Bool.and_eq_true, decide_eq_true_eq] at h
  simp only [isLow, Bool.and_eq_false_iff, decide_eq_false_iff_not]
  omega

theorem isHigh_of_isLow {u : Nat} (h : isLow u = true) : isHigh u = false := by
  cases hhigh : isHigh u with
  | false => rfl
  | true =>
    rw [isLow_of_isHigh hhigh] at h
    cases h

theorem decode_unicode (h : isHigh (codeUnit a b c d) = false) (items : List Item) :
    decode (.unicode a b c d :: items) =
      (if isLow (codeUnit a b c d) then replacement else utf8 (codeUnit a b c d)) ++ decode items := by
  have heq : decode (.unicode a b c d :: items) =
      if isLow (codeUnit a b c d) then replacement ++ decode items
      else utf8 (codeUnit a b c d) ++ decode items := by
    cases items with
    | nil => simp [decode, h]
    | cons i rest => cases i <;> simp [decode, h]
  rw [heq]
  split <;> rfl

theorem decode_pair {a b c d a' b' c' d' : UInt8} (h : isHigh (codeUnit a b c d) = true)
    (hlow : isLow (codeUnit a' b' c' d') = true) (items : List Item) :
    decode (.unicode a b c d :: .unicode a' b' c' d' :: items) =
      utf8 (pairPoint (codeUnit a b c d) (codeUnit a' b' c' d')) ++ decode items := by
  simp [decode, h, hlow]

theorem decode_alone (h : isHigh (codeUnit a b c d) = true)
    (hitems : ∀ a' b' c' d' rest, items = .unicode a' b' c' d' :: rest → isLow (codeUnit a' b' c' d') = false) :
    decode (.unicode a b c d :: items) = replacement ++ decode items := by
  cases items with
  | nil => simp [decode, h]
  | cons i rest =>
    cases i with
    | raw x | escape x => simp [decode, h]
    | unicode a' b' c' d' =>
      rw [decode]
      simp [h, hitems a' b' c' d' rest rfl]

theorem decode_cons_lt (a b c d : UInt8) (items : List Item) :
    (decode items).length < (decode (.unicode a b c d :: items)).length := by
  have hrep := length_utf8_pos 0xFFFD
  have hunit := length_utf8_pos (codeUnit a b c d)
  cases h : isHigh (codeUnit a b c d) with
  | false =>
    rw [decode_unicode h, List.length_append]
    split
    · rw [replacement]
      omega
    · omega
  | true =>
    cases items with
    | nil =>
      rw [decode_alone h (by simp), List.length_append, replacement]
      omega
    | cons i rest =>
      cases i with
      | raw x | escape x =>
        rw [decode_alone h (by simp), List.length_append, replacement]
        omega
      | unicode a' b' c' d' =>
        cases hlow : isLow (codeUnit a' b' c' d') with
        | false =>
          rw [decode_alone h (by
            intro _ _ _ _ _ heq
            cases heq
            exact hlow), List.length_append, replacement]
          omega
        | true =>
          rw [decode_pair h hlow, decode_unicode (isHigh_of_isLow hlow), if_pos hlow, List.length_append,
            List.length_append, length_utf8_pair h hlow, replacement]
          have hthree : (utf8 0xFFFD).length = 3 := by decide
          omega

/-- What is stored, for a string that is denoted by `d`, when `lost` says that the parser drops
an escape of it. -/
def Keeps (lost : Bool) (s d : List UInt8) : Prop :=
  if lost then s.length < d.length else s = d

theorem Keeps.append {lost : Bool} {s d : List UInt8} (h : Keeps lost s d) (u : List UInt8) :
    Keeps lost (u ++ s) (u ++ d) := by
  cases lost with
  | true =>
    have hlt : s.length < d.length := h
    change (u ++ s).length < (u ++ d).length
    rw [List.length_append, List.length_append]
    omega
  | false =>
    have heq : s = d := h
    exact congrArg (u ++ ·) heq

theorem Keeps.length_le {lost : Bool} {s d : List UInt8} (h : Keeps lost s d) : s.length ≤ d.length := by
  cases lost with
  | true => exact Nat.le_of_lt h
  | false => exact Nat.le_of_eq (congrArg List.length h)

theorem swallows_cons (a b c d : UInt8) (h : startsUnpaired items = false) :
    swallows (.unicode a b c d :: items) = swallows items := by
  rw [swallows, h, Bool.and_false, Bool.false_or]

theorem keeps_stored (hwf : ∀ i ∈ items, i.Wf) :
    Keeps (swallows items) (stored items) (decode items) := by
  generalize hn : items.length = n
  induction n using Nat.strong_induction_on generalizing items with
  | _ n ih =>
    cases items with
    | nil => rfl
    | cons i rest =>
      have hrest := ih rest.length (by rw [← hn]; exact Nat.lt_succ_self _)
        (fun j hj => hwf j (List.mem_cons_of_mem i hj)) rfl
      cases i with
      | raw c => exact hrest.append [c]
      | escape e =>
        rw [stored, decode, swallows, escapeByte_eq]
        exact hrest.append [_]
      | unicode a b c d =>
        have hunit := hwf _ List.mem_cons_self
        cases hhigh : isHigh (codeUnit a b c d) with
        | false =>
          rw [stored_unicode hhigh, decode_unicode hhigh, swallows, hhigh, Bool.false_and, Bool.false_or]
          cases hlow : isLow (codeUnit a b c d) with
          | true =>
            rw [if_pos rfl, if_pos rfl, replacement_eq]
            exact hrest.append _
          | false =>
            rw [if_neg Bool.false_ne_true, if_neg Bool.false_ne_true,
              utf8Bytes_eq (codeUnit_valid hunit hhigh hlow)]
            exact hrest.append _
        | true =>
          cases hpair : rest with
          | nil =>
            rw [(high_before_raw hhigh (.inl rfl)).1, decode_alone hhigh (by simp), replacement_eq,
              swallows_cons a b c d rfl]
            exact (hpair ▸ hrest).append _
          | cons j rest' =>
            cases j with
            | raw x =>
              rw [(high_before_raw hhigh (.inr ⟨x, rest', rfl⟩)).1, decode_alone hhigh (by simp),
                replacement_eq, swallows_cons a b c d rfl]
              exact (hpair ▸ hrest).append _
            | escape x =>
              have hst : stored (.unicode a b c d :: .escape x :: rest') =
                  utf8Bytes 0xFFFD ++ stored (.escape x :: rest') := by simp [stored, hhigh]
              rw [hst, decode_alone hhigh (by simp), replacement_eq, swallows_cons a b c d rfl]
              exact (hpair ▸ hrest).append _
            | unicode a' b' c' d' =>
              have hlen : rest'.length < n := by
                rw [← hn, hpair, List.length_cons, List.length_cons]
                omega
              have hrest' := ih rest'.length hlen (fun j hj => hwf j (by
                rw [hpair]
                exact List.mem_cons_of_mem _ (List.mem_cons_of_mem _ hj))) rfl
              rw [(high_before_unicode hhigh a' b' c' d' rest').1, swallows, startsUnpaired, hhigh,
                Bool.true_and]
              cases hlow : isLow (codeUnit a' b' c' d') with
              | true =>
                rw [if_pos rfl, decode_pair hhigh hlow, utf8Bytes_eq (pairPoint_valid hhigh hlow), swallows,
                  isHigh_of_isLow hlow]
                exact hrest'.append _
              | false =>
                rw [if_neg Bool.false_ne_true, decode_alone hhigh (by
                  intro _ _ _ _ _ heq
                  cases heq
                  exact hlow), replacement_eq]
                have hlt := Nat.lt_of_le_of_lt hrest'.length_le (decode_cons_lt a' b' c' d' rest')
                change (replacement ++ _).length < (replacement ++ _).length
                rw [List.length_append, List.length_append]
                omega

/-! ## Embedded NULs -/

/-- A `\u0000`. -/
def Item.isNul : Item → Bool
  | .unicode a b c d => codeUnit a b c d = 0
  | _ => false

theorem utf8_nonzero {cp : Nat} (hvalid : cp.isValidChar) (h : cp ≠ 0) : (0 : UInt8) ∉ utf8 cp := by
  have hval : (Char.ofNat cp).val.toNat = cp := by
    rw [Char.ofNat, dif_pos hvalid]
    rfl
  have hne : ∀ x, 0 < x → x < 256 → UInt8.ofNat x ≠ 0 := by
    intro x h0 hx heq
    have hx' := congrArg UInt8.toNat heq
    rw [UInt8.toNat_ofNat', Nat.mod_eq_of_lt hx] at hx'
    exact absurd hx' (Nat.ne_of_gt h0)
  intro hmem
  rw [utf8, String.utf8EncodeChar, hval] at hmem
  split at hmem
  · simp only [List.mem_cons, List.not_mem_nil, or_false] at hmem
    exact hne cp (by omega) (by omega) hmem.symm
  · split at hmem
    · simp only [List.mem_cons, List.not_mem_nil, or_false] at hmem
      rcases hmem with hmem | hmem <;> exact hne _ (by omega) (by omega) hmem.symm
    · split at hmem
      · simp only [List.mem_cons, List.not_mem_nil, or_false] at hmem
        rcases hmem with hmem | hmem | hmem <;> exact hne _ (by omega) (by omega) hmem.symm
      · simp only [List.mem_cons, List.not_mem_nil, or_false] at hmem
        rcases hmem with hmem | hmem | hmem | hmem <;> exact hne _ (by omega) (by omega) hmem.symm

theorem replacement_nonzero : (0 : UInt8) ∉ replacement := by decide

theorem escapes_nonzero {e : UInt8} (h : (escapes.lookup e).isSome = true) :
    (escapes.lookup e).getD 0 ≠ 0 := by
  have hall : ∀ p ∈ escapes, p.2 ≠ 0 := by simp [escapes]
  obtain ⟨v, hv⟩ := Option.isSome_iff_exists.1 h
  rw [hv]
  obtain ⟨l, r, hl, -⟩ := List.lookup_eq_some_iff.1 hv
  exact hall (e, v) (by
    rw [hl]
    simp)

theorem decode_nonzero (hwf : ∀ i ∈ items, i.Wf) (hnul : ∀ i ∈ items, i.isNul = false) :
    (0 : UInt8) ∉ decode items := by
  fun_induction decode items with
  | case1 => simp
  | case2 c items ih =>
    simp only [List.forall_mem_cons] at hwf hnul
    rw [List.mem_cons]
    rintro (rfl | h)
    · exact absurd hwf.1.1 (by decide)
    · exact ih hwf.2 hnul.2 h
  | case3 e items ih =>
    simp only [List.forall_mem_cons] at hwf hnul
    rw [List.mem_cons]
    rintro (h | h)
    · exact escapes_nonzero hwf.1 h.symm
    · exact ih hwf.2 hnul.2 h
  | case4 a b c d u hhigh a' b' c' d' rest hlow ih =>
    simp only [List.forall_mem_cons] at hwf hnul
    have hvalid := pairPoint_valid hhigh hlow
    rw [List.mem_append]
    rintro (h | h)
    · refine utf8_nonzero hvalid ?_ h
      unfold pairPoint
      omega
    · exact ih hwf.2.2 hnul.2.2 h
  | case5 a b c d u hhigh a' b' c' d' rest hlow ih =>
    simp only [List.forall_mem_cons] at hwf hnul ih
    rw [List.mem_append]
    rintro (h | h)
    · exact replacement_nonzero h
    · exact ih ⟨hwf.2.1, hwf.2.2⟩ ⟨hnul.2.1, hnul.2.2⟩ h
  | case6 a b c d u items hhigh hother ih | case7 a b c d items u hhigh hlow ih =>
    simp only [List.forall_mem_cons] at hwf hnul
    rw [List.mem_append]
    rintro (h | h)
    · exact replacement_nonzero h
    · exact ih hwf.2 hnul.2 h
  | case8 a b c d items u hhigh hlow ih =>
    simp only [List.forall_mem_cons] at hwf hnul
    rw [List.mem_append]
    rintro (h | h)
    · refine utf8_nonzero (codeUnit_valid hwf.1 (Bool.eq_false_iff.2 hhigh) (Bool.eq_false_iff.2 hlow)) ?_ h
      simpa [Item.isNul] using hnul.1
    · exact ih hwf.2 hnul.2 h

end Owjson
