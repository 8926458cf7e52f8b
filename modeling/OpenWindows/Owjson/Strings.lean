import OpenWindows.Owjson.Layout

/-!
# The string and number loops

`parseString` and `parseNumber` against their scans.  The parser's loop takes a surrogate
pair in one round where the scan takes two, so the two are compared at any fuel above the
length of the text, by induction on that length (`stringLoop_iff`).
-/

namespace Owjson

/-! ## The pool -/

variable {s r : List UInt8}

theorem foldlM_poolPut {bs s' : List UInt8} (hs : s.length < stringPool) :
    bs.foldlM poolPut s = some s' ↔ s.length + bs.length < stringPool ∧ s' = s ++ bs := by
  induction bs generalizing s with
  | nil => simp [hs, eq_comm]
  | cons b bs ih =>
    simp only [List.foldlM_cons, Option.bind_eq_bind, Option.bind_eq_some_iff, poolPut]
    by_cases hroom : s.length + 2 > stringPool
    · simp only [if_pos hroom, List.length_cons]
      constructor
      · rintro ⟨_, h, _⟩
        cases h
      · rintro ⟨h, -⟩
        omega
    · have hlen : (s ++ [b]).length = s.length + 1 := by simp
      simp only [if_neg hroom, Option.some.injEq, exists_eq_left']
      rw [ih (by rw [hlen]; omega), hlen, List.length_cons, List.append_assoc, List.singleton_append]
      constructor
      · rintro ⟨h, rfl⟩
        exact ⟨by omega, rfl⟩
      · rintro ⟨h, rfl⟩
        exact ⟨by omega, rfl⟩

/-! ## Hexadecimal digits -/

theorem hexDigit_lt {c : UInt8} {d : Nat} (h : hexDigit c = some d) : d < 16 := by
  rw [hexDigit] at h
  simp only [UInt8.le_iff_toNat_le] at h
  split at h
  · next hc =>
    cases h
    have h2 : c.toNat ≤ 0x39 := hc.2
    omega
  · split at h
    · next hc =>
      cases h
      have h2 : c.toNat ≤ 0x66 := hc.2
      omega
    · split at h
      · next hc =>
        cases h
        have h2 : c.toNat ≤ 0x46 := hc.2
        omega
      · cases h

theorem shiftLeft_or_digit (v : Nat) {d : Nat} (hd : d < 16) : v <<< 4 ||| d = v * 16 + d := by
  rw [← Nat.shiftLeft_add_eq_or_of_lt (i := 4) hd, Nat.shiftLeft_eq]

theorem hexLoop_cons {n v w : Nat} : hexLoop (n + 1) v s = some (w, r) ↔
      ∃ c t, s = c :: t ∧ (hexDigit c).isSome = true ∧
        hexLoop n (v * 16 + (hexDigit c).getD 0) t = some (w, r) := by
  cases s with
  | nil => simp [hexLoop]
  | cons c t =>
    simp only [hexLoop, Option.bind_eq_bind, Option.bind_eq_some_iff, List.cons.injEq]
    constructor
    · rintro ⟨d, hd, h⟩
      rw [shiftLeft_or_digit v (hexDigit_lt hd)] at h
      exact ⟨c, t, ⟨rfl, rfl⟩, by rw [hd]; rfl, by rw [hd]; exact h⟩
    · rintro ⟨c', t', ⟨rfl, rfl⟩, hsome, h⟩
      obtain ⟨d, hd⟩ := Option.isSome_iff_exists.1 hsome
      rw [hd] at h
      exact ⟨d, hd, by rw [shiftLeft_or_digit v (hexDigit_lt hd)]; exact h⟩

theorem readHex4_eq_some {v : Nat} :
    readHex4 s = some (v, r) ↔ ∃ a b c d, s = a :: b :: c :: d :: r ∧
      (Item.unicode a b c d).Wf ∧ v = codeUnit a b c d := by
  simp only [readHex4, hexLoop_cons]
  constructor
  · rintro ⟨a, s1, rfl, ha, b, s2, rfl, hb, c, s3, rfl, hc, d, s4, rfl, hd, h⟩
    cases h
    exact ⟨a, b, c, d, rfl, by simp [Item.Wf, ha, hb, hc, hd], rfl⟩
  · rintro ⟨a, b, c, d, rfl, hwf, rfl⟩
    simp only [Item.Wf, List.mem_cons, List.not_mem_nil, or_false, forall_eq_or_imp, forall_eq] at hwf
    exact ⟨a, _, rfl, hwf.1, b, _, rfl, hwf.2.1, c, _, rfl, hwf.2.2.1, d, _, rfl, hwf.2.2.2, rfl⟩

variable {a b c d : UInt8} {t : List UInt8}

theorem codeUnit_lt (h : (Item.unicode a b c d).Wf) : codeUnit a b c d < 0x10000 := by
  have hdigit : ∀ x ∈ [a, b, c, d], (hexDigit x).getD 0 < 16 := by
    intro x hx
    obtain ⟨v, hv⟩ := Option.isSome_iff_exists.1 (h x hx)
    rw [hv]
    exact hexDigit_lt hv
  simp only [List.mem_cons, List.not_mem_nil, or_false, forall_eq_or_imp, forall_eq] at hdigit
  simp only [codeUnit, List.foldl_cons, List.foldl_nil]
  omega

/-! ## Rounds of the string loop -/

theorem escapeByte_eq (e : UInt8) : escapeByte e = escapes.lookup e := by
  simp only [escapeByte, escapes, List.lookup_cons, List.lookup_nil]
  repeat' split
  all_goals simp_all

theorem stored_unicode (h : isHigh (codeUnit a b c d) = false) (items : List Item) :
    stored (.unicode a b c d :: items) =
      utf8Bytes (if isLow (codeUnit a b c d) then 0xFFFD else codeUnit a b c d) ++ stored items := by
  have heq : stored (.unicode a b c d :: items) =
      if isLow (codeUnit a b c d) then utf8Bytes 0xFFFD ++ stored items
      else utf8Bytes (codeUnit a b c d) ++ stored items := by
    cases items with
    | nil => simp [stored, h]
    | cons i rest => cases i <;> simp [stored, h]
  rw [heq]
  split <;> rfl

theorem readable_unicode (h : isHigh (codeUnit a b c d) = false) (items : List Item) :
    readable (.unicode a b c d :: items) = readable items := by
  cases items with
  | nil => simp [readable, h]
  | cons i rest => cases i <;> simp [readable, h]

theorem high_before_raw (h : isHigh (codeUnit a b c d) = true) {items : List Item}
    (hitems : items = [] ∨ ∃ x rest, items = .raw x :: rest) :
    stored (.unicode a b c d :: items) = utf8Bytes 0xFFFD ++ stored items ∧
      readable (.unicode a b c d :: items) = readable items := by
  rcases hitems with rfl | ⟨x, rest, rfl⟩
  · simp [stored, readable, h]
  · simp [stored, readable, h]

theorem high_before_unicode (h : isHigh (codeUnit a b c d) = true)
    (a' b' c' d' : UInt8) (items : List Item) :
    stored (.unicode a b c d :: .unicode a' b' c' d' :: items) =
        utf8Bytes (if isLow (codeUnit a' b' c' d') then
          pairPoint (codeUnit a b c d) (codeUnit a' b' c' d') else 0xFFFD) ++ stored items ∧
      readable (.unicode a b c d :: .unicode a' b' c' d' :: items) = readable items := by
  refine ⟨?_, by simp [readable, h]⟩
  rw [stored, if_pos h]
  split <;> rfl

theorem scanItems_step {i : Item} (hc : c ≠ 0x22) (h : scanItem (c :: t) = some (i, r)) (f : Nat) :
    scanItems (f + 1) (c :: t) = (scanItems f r).map fun p => (i :: p.1, p.2) := by
  rw [scanItems, if_neg hc, h]
  cases hf : scanItems f r with
  | none => simp [hf]
  | some p => simp [hf]

theorem scanItems_none (hc : c ≠ 0x22) (h : scanItem (c :: t) = none)
    (f : Nat) : scanItems f (c :: t) = none := by
  cases f with
  | zero => rfl
  | succ f =>
    rw [scanItems, if_neg hc, h]
    rfl

theorem items_before_raw {f : Nat} {items : List Item}
    (h : scanItems f r = some (items, t)) (hr : peek r ≠ some 0x5C) :
    items = [] ∨ ∃ x rest, items = .raw x :: rest := by
  obtain ⟨-, hs⟩ := scanItems_sound h
  cases items with
  | nil => exact .inl rfl
  | cons i items =>
    cases i with
    | raw x => exact .inr ⟨x, items, rfl⟩
    | escape x | unicode a b c d => exact absurd (by rw [hs]; rfl) hr

/-- What the loop gives on a text, from any pool with room for the terminator. -/
def LoopSpec (text : List UInt8) : Prop :=
  ∀ fuel fuel' s s' t, text.length < fuel → text.length < fuel' → s.length < stringPool →
    (stringLoop fuel s text = some (s', t) ↔ ∃ items, scanItems fuel' text = some (items, t) ∧
      readable items = true ∧ s.length + (stored items).length < stringPool ∧ s' = s ++ stored items)

theorem LoopSpec.round {text : List UInt8} (ih : LoopSpec r) {fuel g fuel' f : Nat}
    {s' : List UInt8} (bs : List UInt8) (pre : List Item)
    (hloop : stringLoop fuel s text = (bs.foldlM poolPut s).bind fun s1 => stringLoop g s1 r)
    (hscan : scanItems fuel' text = (scanItems f r).map fun p => (pre ++ p.1, p.2))
    (hpre : ∀ items t, scanItems f r = some (items, t) →
      stored (pre ++ items) = bs ++ stored items ∧ readable (pre ++ items) = readable items)
    (hg : r.length < g) (hf : r.length < f) (hs : s.length < stringPool) :
    stringLoop fuel s text = some (s', t) ↔ ∃ items, scanItems fuel' text = some (items, t) ∧
      readable items = true ∧ s.length + (stored items).length < stringPool ∧
        s' = s ++ stored items := by
  rw [hloop, hscan]
  simp only [Option.bind_eq_some_iff, foldlM_poolPut hs, Option.map_eq_some_iff, Prod.mk.injEq]
  constructor
  · rintro ⟨s1, ⟨hroom, rfl⟩, h⟩
    obtain ⟨items, hi, hread, hlen, rfl⟩ :=
      (ih g f _ s' t hg hf (by rw [List.length_append]; exact hroom)).1 h
    obtain ⟨hst, hrd⟩ := hpre items t hi
    refine ⟨pre ++ items, ⟨(items, t), hi, rfl, rfl⟩, hrd ▸ hread, ?_, ?_⟩
    · rw [hst, List.length_append]
      rw [List.length_append] at hlen
      omega
    · rw [hst, List.append_assoc]
  · rintro ⟨_, ⟨⟨items, t'⟩, hi, rfl, rfl⟩, hread, hlen, rfl⟩
    obtain ⟨hst, hrd⟩ := hpre items _ hi
    rw [hst, List.length_append] at hlen
    refine ⟨s ++ bs, ⟨by omega, rfl⟩, ?_⟩
    rw [ih g f _ _ _ hg hf (by rw [List.length_append]; omega)]
    refine ⟨items, hi, hrd ▸ hread, by rw [List.length_append]; omega, ?_⟩
    rw [hst, List.append_assoc]

theorem foldlM_singleton (s : List UInt8) (b : UInt8) : [b].foldlM poolPut s = poolPut s b := by
  simp

/-- A character that is no escape. -/
theorem loopSpec_raw (hc : c ≠ 0x22) (hb : c ≠ 0x5C) (ih : LoopSpec t) : LoopSpec (c :: t) := by
  intro fuel fuel' s s' t' hfuel hfuel' hs
  cases fuel with
  | zero => cases hfuel
  | succ g =>
    cases fuel' with
    | zero => cases hfuel'
    | succ f =>
      by_cases hctl : c < 0x20
      · have hscan : scanItem (c :: t) = none := by
          simp only [scanItem, if_neg hb, if_pos hctl]
        rw [scanItems_none hc hscan]
        simp only [stringLoop, if_neg hc, if_neg hb, if_pos hctl]
        simp
      · have hscan : scanItem (c :: t) = some (.raw c, t) := by
          simp only [scanItem, if_neg hb, if_neg hctl]
        refine ih.round [c] [.raw c] ?_ (scanItems_step hc hscan f) ?_
          (Nat.lt_of_succ_lt_succ hfuel) (Nat.lt_of_succ_lt_succ hfuel') hs
        · rw [foldlM_singleton]
          simp only [stringLoop, if_neg hc, if_neg hb, if_neg hctl]
          rfl
        · exact fun items t _ => ⟨rfl, rfl⟩

theorem loopSpec_escape {e : UInt8} (he : e ≠ 0x75) (ih : LoopSpec t) :
    LoopSpec (0x5C :: e :: t) := by
  intro fuel fuel' s s' t' hfuel hfuel' hs
  simp only [List.length_cons] at hfuel hfuel'
  cases fuel with
  | zero => cases hfuel
  | succ g =>
    cases fuel' with
    | zero => cases hfuel'
    | succ f =>
      have hloop : stringLoop (g + 1) s (0x5C :: e :: t) =
          (escapeByte e).bind fun c => (poolPut s c).bind fun s1 => stringLoop g s1 t := by
        simp only [stringLoop, if_neg he]
        rfl
      cases hl : escapeByte e with
      | none =>
        have hscan : scanItem (0x5C :: e :: t) = none := by
          rw [escapeByte_eq] at hl
          simp [scanItem, he, hl]
        rw [hloop, hl, scanItems_none (by decide) hscan]
        simp
      | some c =>
        have hscan : scanItem (0x5C :: e :: t) = some (.escape e, t) := by
          have hl' := hl
          rw [escapeByte_eq] at hl'
          simp [scanItem, he, hl']
        have hg : t.length < g := by omega
        have hf : t.length < f := by omega
        refine ih.round [c] [.escape e] ?_ (scanItems_step (by decide) hscan f) ?_ hg hf hs
        · rw [hloop, hl, foldlM_singleton]
          rfl
        · intro items t _
          refine ⟨?_, rfl⟩
          rw [List.singleton_append, stored, hl]
          rfl

theorem scanItem_unicode (h : (Item.unicode a b c d).Wf) (t : List UInt8) :
    scanItem (0x5C :: 0x75 :: a :: b :: c :: d :: t) = some (.unicode a b c d, t) :=
  (scanItem_complete h t).1

theorem scanItem_unicode_none (h : readHex4 t = none) : scanItem (0x5C :: 0x75 :: t) = none := by
  cases hs : scanItem (0x5C :: 0x75 :: t) with
  | none => rfl
  | some p =>
    obtain ⟨i, r⟩ := p
    obtain ⟨hwf, htext⟩ := scanItem_sound (by simp [peek]) hs
    cases i with
    | raw x =>
      cases htext
      exact absurd rfl hwf.2.2
    | escape x =>
      cases htext
      exact absurd (show (escapes.lookup 0x75).isSome = true from hwf) (by decide)
    | unicode a b c d =>
      simp only [Item.text, List.cons_append, List.nil_append, List.cons.injEq, true_and] at htext
      rw [readHex4_eq_some.2 ⟨a, b, c, d, htext, hwf, rfl⟩] at h
      cases h

theorem stringLoop_unicode (h : (Item.unicode a b c d).Wf) (g : Nat) (s t : List UInt8) :
    stringLoop (g + 1) s (0x5C :: 0x75 :: a :: b :: c :: d :: t) =
      (pairSurrogate (codeUnit a b c d) t).bind fun p =>
        (poolUtf8 s p.1).bind fun s1 => stringLoop g s1 p.2 := by
  have hread := (readHex4_eq_some (r := t)).2 ⟨a, b, c, d, rfl, h, rfl⟩
  rw [stringLoop, if_neg (by decide), if_pos rfl]
  dsimp only
  rw [if_pos rfl, hread]
  rfl

/-- The text after a high surrogate, as `pairSurrogate` and the scan see it. -/
inductive AfterHigh (high : Nat) (t : List UInt8) : Prop
  | alone : peek t ≠ some 0x5C → pairSurrogate high t = some (0xFFFD, t) → AfterHigh high t
  | paired (a b c d : UInt8) (r : List UInt8) : (Item.unicode a b c d).Wf →
      t = 0x5C :: 0x75 :: a :: b :: c :: d :: r →
      pairSurrogate high t =
        some (if isLow (codeUnit a b c d) then pairPoint high (codeUnit a b c d) else 0xFFFD, r) →
      AfterHigh high t
  | rejected : pairSurrogate high t = none →
      (∀ f items r, scanItems f t = some (items, r) → ∃ e rest, items = .escape e :: rest) →
      AfterHigh high t

theorem afterHigh {high : Nat} (h : isHigh high = true) (t : List UInt8) : AfterHigh high t := by
  by_cases hb : peek t = some 0x5C
  · obtain ⟨t, rfl⟩ : ∃ r, t = 0x5C :: r := ⟨_, peek_eq_some hb⟩
    by_cases hu : peek t = some 0x75
    · obtain ⟨t, rfl⟩ : ∃ r, t = 0x75 :: r := ⟨_, peek_eq_some hu⟩
      cases hx : readHex4 t with
      | none =>
        refine .rejected ?_ ?_
        · simp [pairSurrogate, h, peek, hx]
        · intro f items r hs
          rw [scanItems_none (by decide) (scanItem_unicode_none hx)] at hs
          cases hs
      | some p =>
        obtain ⟨v, r⟩ := p
        obtain ⟨a, b, c, d, rfl, hwf, rfl⟩ := readHex4_eq_some.1 hx
        refine .paired a b c d r hwf rfl ?_
        have hpoint : ∀ low, 0x10000 + (high - 0xD800) <<< 10 + (low - 0xDC00) = pairPoint high low := by
          intro low
          unfold pairPoint
          simp only [Nat.shiftLeft_eq]
        simp only [pairSurrogate, h, if_true, peek, List.head?_cons, List.tail_cons, hx,
          Option.bind_eq_bind, Option.bind_some, hpoint]
        cases isLow (codeUnit a b c d) with
        | true => rfl
        | false => rfl
    · refine .rejected ?_ ?_
      · have hu' : ¬ t.head? = some 0x75 := hu
        simp [pairSurrogate, h, peek, hu']
      · intro f items r hs
        obtain ⟨hwf, htext⟩ := scanItems_sound hs
        cases items with
        | nil => cases htext
        | cons i items =>
          cases i with
          | raw x =>
            cases htext
            exact absurd rfl (hwf _ List.mem_cons_self).2.2
          | escape x => exact ⟨x, items, rfl⟩
          | unicode a b c d =>
            cases htext
            exact absurd rfl hu
  · refine .alone hb ?_
    simp [pairSurrogate, h, hb]

theorem pairSurrogate_of_not_high {cp : Nat} (h : isHigh cp = false) (t : List UInt8) :
    pairSurrogate cp t = some (if isLow cp then 0xFFFD else cp, t) := by
  rw [pairSurrogate, h, if_neg Bool.false_ne_true]
  split <;> rfl

theorem loopSpec_unicode (hwf : (Item.unicode a b c d).Wf)
    (ih : ∀ r : List UInt8, r.length ≤ t.length → LoopSpec r) :
    LoopSpec (0x5C :: 0x75 :: a :: b :: c :: d :: t) := by
  intro fuel fuel' s s' t' hfuel hfuel' hs
  simp only [List.length_cons] at hfuel hfuel'
  cases fuel with
  | zero => cases hfuel
  | succ g =>
    cases fuel' with
    | zero => cases hfuel'
    | succ f =>
      have hg : t.length < g := by omega
      have hf : t.length < f := by omega
      have hstep := scanItems_step (by decide) (scanItem_unicode hwf t) f
      have hloop := stringLoop_unicode hwf g s t
      cases hhigh : isHigh (codeUnit a b c d) with
      | false =>
        rw [pairSurrogate_of_not_high hhigh] at hloop
        refine (ih t (Nat.le_refl _)).round _ [.unicode a b c d] hloop hstep ?_ hg hf hs
        exact fun items _ _ => ⟨stored_unicode hhigh items, readable_unicode hhigh items⟩
      | true =>
        cases afterHigh hhigh t with
        | alone hb hpair =>
          rw [hpair] at hloop
          refine (ih t (Nat.le_refl _)).round _ [.unicode a b c d] hloop hstep ?_ hg hf hs
          exact fun items _ hi => high_before_raw hhigh (items_before_raw hi hb)
        | paired a' b' c' d' r hwf' ht hpair =>
          rw [hpair] at hloop
          subst ht
          simp only [List.length_cons] at hg hf ih
          cases f with
          | zero => cases hf
          | succ f =>
            have hstep' := scanItems_step (by decide) (scanItem_unicode hwf' r) f
            rw [hstep', Option.map_map] at hstep
            have hg' : r.length < g := by omega
            have hf' : r.length < f := by omega
            refine (ih r (by omega)).round _ [.unicode a b c d, .unicode a' b' c' d'] hloop hstep
              ?_ hg' hf' hs
            exact fun items _ _ => high_before_unicode hhigh a' b' c' d' items
        | rejected hpair hitems =>
          rw [hloop, hpair]
          simp only [Option.bind_none, reduceCtorEq, false_iff, not_exists, not_and]
          intro items hi hread
          rw [hstep] at hi
          obtain ⟨⟨rest, r⟩, hrest, heq⟩ := Option.map_eq_some_iff.1 hi
          obtain ⟨e, rest', rfl⟩ := hitems f rest r hrest
          cases heq
          simp [readable, hhigh] at hread

theorem stringLoop_iff (text : List UInt8) : LoopSpec text := by
  generalize hn : text.length = n
  induction n using Nat.strong_induction_on generalizing text with
  | _ n ih =>
    have ih' : ∀ r : List UInt8, r.length < text.length → LoopSpec r :=
      fun r hr => ih r.length (hn ▸ hr) r rfl
    cases text with
    | nil =>
      intro fuel fuel' s s' t hfuel hfuel' hs
      cases fuel with
      | zero => cases hfuel
      | succ g =>
        cases fuel' with
        | zero => cases hfuel'
        | succ f => simp [stringLoop, scanItems]
    | cons c t =>
      by_cases hc : c = 0x22
      · subst hc
        intro fuel fuel' s s' t' hfuel hfuel' hs
        cases fuel with
        | zero => cases hfuel
        | succ g =>
          cases fuel' with
          | zero => cases hfuel'
          | succ f =>
            simp only [stringLoop, scanItems, if_true, Option.some.injEq, Prod.mk.injEq]
            constructor
            · rintro ⟨rfl, rfl⟩
              exact ⟨[], ⟨rfl, rfl⟩, rfl, hs, (List.append_nil s).symm⟩
            · rintro ⟨items, ⟨rfl, rfl⟩, -, -, rfl⟩
              exact ⟨(List.append_nil s).symm, rfl⟩
      · by_cases hb : c = 0x5C
        · subst hb
          cases t with
          | nil =>
            intro fuel fuel' s s' t' hfuel hfuel' hs
            rw [scanItems_none hc rfl]
            cases fuel with
            | zero => cases hfuel
            | succ g => simp [stringLoop]
          | cons e t =>
            by_cases he : e = 0x75
            · subst he
              cases hx : readHex4 t with
              | none =>
                intro fuel fuel' s s' t' hfuel hfuel' hs
                rw [scanItems_none hc (scanItem_unicode_none hx)]
                cases fuel with
                | zero => cases hfuel
                | succ g => simp [stringLoop, hx]
              | some p =>
                obtain ⟨v, r⟩ := p
                obtain ⟨a, b, c', d, rfl, hwf, rfl⟩ := readHex4_eq_some.1 hx
                exact loopSpec_unicode hwf fun r' hr' => ih' r' (by
                  simp only [List.length_cons]
                  omega)
            · exact loopSpec_escape he (ih' t (by simp only [List.length_cons]; omega))
        · exact loopSpec_raw hc hb (ih' t (Nat.lt_succ_self _))

/-! ## Strings and numbers -/

theorem parseString_iff {p q : Parser} {off : Nat} : parseString p = some (q, off) ↔
    ∃ items t, scanString p.rest = some (items, t) ∧ readable items = true ∧
      p.strings.length + (slots [items]).length ≤ stringPool ∧ off = p.strings.length ∧
      q = { p with rest := t, strings := p.strings ++ slots [items] } := by
  have hslots : ∀ items, slots [items] = stored items ++ [0] := fun items => by
    rw [slots_cons, slots_nil, List.append_nil]
  simp only [hslots, List.length_append, List.length_singleton]
  rw [parseString, scanString]
  by_cases hq : peek p.rest = some 0x22
  · have hlt : p.rest.tail.length < p.rest.length := by
      conv_rhs => rw [peek_eq_some hq]
      exact Nat.lt_succ_self _
    rw [if_neg (not_not.2 hq), if_neg (not_not.2 hq)]
    by_cases hfull : p.strings.length ≥ stringPool
    · rw [if_pos hfull]
      constructor
      · intro h
        cases h
      · rintro ⟨items, t, -, -, hroom, -, -⟩
        omega
    · rw [if_neg hfull]
      have hs := Nat.lt_of_not_le hfull
      simp only [Option.bind_eq_bind, Option.bind_eq_some_iff, Prod.exists,
        stringLoop_iff p.rest.tail p.rest.length p.rest.length p.strings _ _ hlt hlt hs,
        Option.some.injEq, Prod.mk.injEq]
      constructor
      · rintro ⟨_, t, ⟨items, hi, hread, hroom, rfl⟩, rfl, rfl⟩
        exact ⟨items, t, hi, hread, by omega, rfl, by rw [List.append_assoc]⟩
      · rintro ⟨items, t, hi, hread, hroom, rfl, rfl⟩
        exact ⟨_, t, ⟨items, hi, hread, by omega, rfl⟩, by rw [List.append_assoc], rfl⟩
  · rw [if_pos hq, if_pos hq]
    simp

theorem parseFraction_eq (s : List UInt8) :
    parseFraction s = (scanFraction s).map fun p => ((p.1.getD []).length, p.2) := by
  rw [parseFraction, scanFraction]
  split
  · split <;> rfl
  · rfl

theorem parseExponent_eq (s : List UInt8) :
    parseExponent s = (scanExponent s).map fun p => (exponent exponentLoop p.1, p.2) := by
  rw [parseExponent, scanExponent]
  split
  · rw [show (if peek s.tail = some 0x2B ∨ peek s.tail = some 0x2D then s.tail.tail else s.tail) =
      afterSign s.tail from rfl]
    dsimp only
    split
    · have hsign : expSign s.tail = some 0x2D ↔ peek s.tail = some 0x2D := by
        rw [expSign]
        split
        · rfl
        · next hno =>
          constructor
          · intro h
            cases h
          · exact fun h => absurd (.inr h) hno
      simp only [Option.map_some, exponent, hsign]
    · rfl
  · rfl

theorem parseNumber_iff : parseNumber s = some t ↔
    ∃ n, scanNumber s = some (n, t) ∧ pow10Ok (n.scale exponentLoop) = true := by
  have hafter : (if peek s = some 0x2D then s.tail else s) = afterMinus s := rfl
  rw [parseNumber, scanNumber, hafter]
  dsimp only
  split
  · simp
  · simp only [parseFraction_eq, parseExponent_eq, Option.bind_eq_bind, Option.bind_map,
      Function.comp_def, Option.bind_eq_some_iff, Option.ite_none_right_eq_some, Option.some.injEq,
      Prod.mk.injEq, Prod.exists]
    constructor
    · rintro ⟨frac, u, hf, exp, v, he, hok, rfl⟩
      exact ⟨_, ⟨frac, u, hf, exp, v, he, rfl, rfl⟩, hok⟩
    · rintro ⟨n, ⟨frac, u, hf, exp, v, he, rfl, rfl⟩, hok⟩
      exact ⟨frac, u, hf, exp, v, he, hok, rfl⟩

end Owjson
