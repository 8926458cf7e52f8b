import OpenWindows.Owjson.Reader

/-!
# Scans and derivations

`scanValue_sound` turns a scan into a derivation, with one lemma for each loop.
`Derives.complete` goes the other way by induction on the derivation.  The bound on the
levels is the height of the reading, so together they say which texts are scanned with how
many levels (`scanText_eq_some`).
-/

namespace Owjson

/-! ## Scalars -/

theorem matchWord_eq_some {word s t : List UInt8} : matchWord word s = some t ↔ s = word ++ t := by
  rw [matchWord]
  constructor
  · intro h
    split at h
    · next hp =>
      obtain ⟨r, rfl⟩ := List.isPrefixOf_iff_prefix.1 hp
      rw [List.drop_left, Option.some.injEq] at h
      rw [h]
    · cases h
  · rintro rfl
    rw [if_pos (List.isPrefixOf_iff_prefix.2 (List.prefix_append word t)), List.drop_left]

variable {c : UInt8} {k : Kind} {s t : List UInt8} {fuel : Nat} {levels : Nat}
  {value : List UInt8 → Option Scanned}

theorem scanWord_sound (w : Kind) (hk : w.isContainer = false) (hwf : w.Wf)
    (h : (matchWord w.text s).bind (fun u => some (w, u)) = some (k, t)) :
    k.isContainer = false ∧ k.Wf ∧ s = k.text ++ t := by
  obtain ⟨u, hs, heq⟩ := Option.bind_eq_some_iff.1 h
  cases heq
  exact ⟨hk, hwf, matchWord_eq_some.1 hs⟩

theorem scanScalar_sound (h : scanScalar c s = some (k, t)) :
    k.isContainer = false ∧ k.Wf ∧ s = k.text ++ t := by
  rw [scanScalar] at h
  split at h
  · obtain ⟨⟨items, u⟩, hs, heq⟩ := Option.bind_eq_some_iff.1 h
    cases heq
    exact ⟨rfl, scanString_sound hs⟩
  · split at h
    · exact scanWord_sound (.bool true) rfl trivial h
    · split at h
      · exact scanWord_sound (.bool false) rfl trivial h
      · split at h
        · exact scanWord_sound .null rfl trivial h
        · split at h
          · obtain ⟨⟨n, u⟩, hs, heq⟩ := Option.bind_eq_some_iff.1 h
            cases heq
            exact ⟨rfl, scanNumber_sound hs⟩
          · cases h

theorem numberText_head {n : NumberText} (h : n.Wf) :
    ∃ c s, n.text = c :: s ∧ (c = 0x2D ∨ isDigit c = true) := by
  obtain ⟨⟨hne, hd⟩, -, -⟩ := h
  cases hm : n.minus with
  | true => exact ⟨0x2D, _, by rw [NumberText.text, hm]; rfl, .inl rfl⟩
  | false =>
    cases hi : n.int with
    | nil => exact absurd hi hne
    | cons c ds =>
      exact ⟨c, _, by rw [NumberText.text, hm, hi]; rfl, .inr (hd c (by rw [hi]; exact List.mem_cons_self))⟩

/-- A byte that a value or a key starts with: no white space, and no end of a container. -/
def StartByte (c : UInt8) : Prop := isSpace c = false ∧ c ≠ 0x5D ∧ c ≠ 0x7D

theorem number_head_ne (h : c = 0x2D ∨ isDigit c = true) :
    c ≠ 0x22 ∧ c ≠ 0x74 ∧ c ≠ 0x66 ∧ c ≠ 0x6E ∧ c ≠ 0x7B ∧ c ≠ 0x5B ∧ StartByte c := by
  rcases h with rfl | h
  · exact ⟨by decide, by decide, by decide, by decide, by decide, by decide, rfl, by decide, by decide⟩
  · have hne : ∀ d : UInt8, isDigit d = false → c ≠ d := by
      rintro d hd rfl
      rw [h] at hd
      cases hd
    have h1 := hne 0x20 rfl
    have h2 := hne 0x09 rfl
    have h3 := hne 0x0A rfl
    have h4 := hne 0x0D rfl
    exact ⟨hne _ rfl, hne _ rfl, hne _ rfl, hne _ rfl, hne _ rfl, hne _ rfl, by simp [isSpace, h1, h2, h3, h4], hne _ rfl,
      hne _ rfl⟩

theorem scalar_head (hk : k.isContainer = false) (hwf : k.Wf) :
    ∃ c s, k.text = c :: s ∧ c ≠ 0x7B ∧ c ≠ 0x5B ∧ StartByte c := by
  cases k with
  | null => exact ⟨0x6E, _, rfl, by decide, by decide, rfl, by decide, by decide⟩
  | bool b =>
    cases b with
    | true => exact ⟨0x74, _, rfl, by decide, by decide, rfl, by decide, by decide⟩
    | false => exact ⟨0x66, _, rfl, by decide, by decide, rfl, by decide, by decide⟩
  | number n =>
    obtain ⟨c, s, hs, hc⟩ := numberText_head hwf
    obtain ⟨-, -, -, -, hobject, harray, hstart⟩ := number_head_ne hc
    exact ⟨c, s, hs, hobject, harray, hstart⟩
  | string items => exact ⟨0x22, _, rfl, by decide, by decide, rfl, by decide, by decide⟩
  | array => cases hk
  | object => cases hk

theorem scanScalar_complete (hk : k.isContainer = false) (hwf : k.Wf)
    (ht : Delimited t) (hs : k.text = c :: s) :
    scanScalar c (k.text ++ t) = some (k, t) := by
  cases k with
  | null =>
    cases hs
    rfl
  | bool b =>
    cases b with
    | true | false =>
      cases hs
      rfl
  | number n =>
    obtain ⟨c', s', hs', hc⟩ := numberText_head hwf
    have heq : c' = c := (List.cons.inj (hs'.symm.trans hs)).1
    obtain ⟨h1, h2, h3, h4, -, -, -⟩ := number_head_ne (heq ▸ hc)
    rw [scanScalar, if_neg h1, if_neg h2, if_neg h3, if_neg h4, if_pos (heq ▸ hc), Kind.text,
      scanNumber_complete hwf ht]
    rfl
  | string items =>
    have hc : c = 0x22 := (List.cons.inj hs).1.symm
    rw [scanScalar, if_pos hc, scanString_complete hwf]
    rfl
  | array => cases hk
  | object => cases hk

/-! ## Soundness -/

/-- What a reader of one value gives is derived, and not higher than `levels`. -/
def SoundValue (levels : Nat) (value : List UInt8 → Option Scanned) : Prop :=
  ∀ s k F t, value s = some (k, F, t) → F.height + 1 ≤ levels ∧
    ∃ u s', Blank u ∧ s = u ++ s' ∧ Derives .value (.cons ⟨none, k⟩ F .nil) s' t

theorem Blank.append {u v : List UInt8} (hu : Blank u) (hv : Blank v) : Blank (u ++ v) := by
  intro c hc
  rcases List.mem_append.1 hc with hc | hc
  · exact hu c hc
  · exact hv c hc

theorem token_found (h : peek (skipWs s) = some c) {v : List UInt8}
    (hv : Blank v) (ht : (skipWs s).tail = v ++ t) : Token c s t := by
  obtain ⟨w, hw, hs⟩ := token_of_skipWs h
  exact ⟨w, v, hw, hv, by rw [← ht]; exact hs⟩

variable {G : Forest Label} {text : List UInt8}

theorem scanElements_sound (hvalue : SoundValue levels value)
    (h : scanElements value fuel s = some (G, t)) : G.height ≤ levels ∧
      ∃ u s' w, Blank u ∧ s = u ++ s' ∧ Blank w ∧ Derives .elements G s' (w ++ 0x5D :: t) := by
  induction fuel generalizing s G with
  | zero => cases h
  | succ fuel ih =>
    rw [scanElements] at h
    obtain ⟨⟨k, F, r⟩, hv, h⟩ := Option.bind_eq_some_iff.1 h
    dsimp only at h
    obtain ⟨hlevels, u, s', hu, hs, hd⟩ := hvalue s k F r hv
    split at h
    · next hcomma =>
      obtain ⟨⟨G', t'⟩, hrest, heq⟩ := Option.bind_eq_some_iff.1 h
      cases heq
      obtain ⟨hlevels', u', s'', w, hu', hs', hw, hd'⟩ := ih hrest
      obtain ⟨v, hv', hv⟩ := skipWs_spec (skipWs r).tail
      refine ⟨?_, u, s', w, hu, hs, hw, .element hd (token_found hcomma (hv'.append hu') ?_) hd'⟩
      · rw [Forest.height]
        exact Nat.max_le.2 ⟨hlevels, hlevels'⟩
      · rw [hv, hs', List.append_assoc]
    · split at h
      · next hclose =>
        cases h
        obtain ⟨w, hw, hr⟩ := token_of_skipWs hclose
        refine ⟨?_, u, s', w, hu, hs, hw, .lastElement ?_⟩
        · rw [Forest.height]
          exact Nat.max_le.2 ⟨hlevels, Nat.zero_le levels⟩
        · rw [← hr]
          exact hd
      · cases h

theorem scanMembers_sound (hvalue : SoundValue levels value)
    (h : scanMembers value fuel s = some (G, t)) : G.height ≤ levels ∧
      ∃ u s' w, Blank u ∧ s = u ++ s' ∧ Blank w ∧ Derives .members G s' (w ++ 0x7D :: t) := by
  induction fuel generalizing s G with
  | zero => cases h
  | succ fuel ih =>
    rw [scanMembers] at h
    obtain ⟨⟨key, r⟩, hkey, h⟩ := Option.bind_eq_some_iff.1 h
    dsimp only at h
    obtain ⟨u, hu, hs⟩ := skipWs_spec s
    obtain ⟨hwf, hr⟩ := scanString_sound hkey
    split at h
    · cases h
    · next hcolon =>
      obtain ⟨⟨k, F, r'⟩, hv, h⟩ := Option.bind_eq_some_iff.1 h
      dsimp only at h
      obtain ⟨hlevels, v, s', hv', hs', hd⟩ := hvalue _ k F r' hv
      have htoken := token_found (Decidable.not_not.1 hcolon) hv' hs'
      split at h
      · next hcomma =>
        obtain ⟨⟨G', t'⟩, hrest, heq⟩ := Option.bind_eq_some_iff.1 h
        cases heq
        obtain ⟨hlevels', u', s'', w, hu', hs'', hw, hd'⟩ := ih hrest
        refine ⟨?_, u, _, w, hu, hs, hw, .member hwf hr htoken hd (token_found hcomma hu' hs'') hd'⟩
        rw [Forest.height]
        exact Nat.max_le.2 ⟨hlevels, hlevels'⟩
      · split at h
        · next hclose =>
          cases h
          obtain ⟨w, hw, hr'⟩ := token_of_skipWs hclose
          refine ⟨?_, u, _, w, hu, hs, hw, .lastMember hwf hr htoken ?_⟩
          · rw [Forest.height]
            exact Nat.max_le.2 ⟨hlevels, Nat.zero_le levels⟩
          · rw [← hr']
            exact hd
        · cases h

variable {F : Forest Label} {p : Production} {v : List UInt8}

theorem scanArray_sound (hvalue : SoundValue levels value) (htext : peek text = some 0x5B)
    (h : scanArray value text = some (k, F, t)) : F.height ≤ levels ∧
      Derives .value (.cons ⟨none, k⟩ F .nil) text t := by
  rw [scanArray] at h
  obtain ⟨v, hv, hs⟩ := skipWs_spec text.tail
  dsimp only at h
  split at h
  · next hclose =>
    cases h
    refine ⟨Nat.zero_le levels, .emptyArray hv ((peek_eq_some htext).trans ?_)⟩
    rw [← peek_eq_some hclose, ← hs]
  · obtain ⟨⟨G, t'⟩, he, heq⟩ := Option.bind_eq_some_iff.1 h
    cases heq
    obtain ⟨hlevels, u, s', w, hu, hs', hw, hd⟩ := scanElements_sound hvalue he
    refine ⟨hlevels, .array (hv.append hu) ((peek_eq_some htext).trans ?_) hd hw⟩
    rw [List.append_assoc, ← hs', ← hs]

theorem scanObject_sound (hvalue : SoundValue levels value) (htext : peek text = some 0x7B)
    (h : scanObject value text = some (k, F, t)) : F.height ≤ levels ∧
      Derives .value (.cons ⟨none, k⟩ F .nil) text t := by
  rw [scanObject] at h
  obtain ⟨v, hv, hs⟩ := skipWs_spec text.tail
  dsimp only at h
  split at h
  · next hclose =>
    cases h
    refine ⟨Nat.zero_le levels, .emptyObject hv ((peek_eq_some htext).trans ?_)⟩
    rw [← peek_eq_some hclose, ← hs]
  · obtain ⟨⟨G, t'⟩, he, heq⟩ := Option.bind_eq_some_iff.1 h
    cases heq
    obtain ⟨hlevels, u, s', w, hu, hs', hw, hd⟩ := scanMembers_sound hvalue he
    refine ⟨hlevels, .object (hv.append hu) ((peek_eq_some htext).trans ?_) hd hw⟩
    rw [List.append_assoc, ← hs', ← hs]

theorem scanValue_sound (levels : Nat) : SoundValue levels (scanValue levels) := by
  induction levels with
  | zero =>
    intro s k F t h
    cases h
  | succ levels ih =>
    intro s k F t h
    obtain ⟨u, hu, hs⟩ := skipWs_spec s
    rw [scanValue] at h
    cases htext : skipWs s with
    | nil =>
      rw [htext] at h
      cases h
    | cons c r =>
      rw [htext] at h hs
      dsimp only at h
      split at h
      · next hc =>
        subst hc
        obtain ⟨hlevels, hd⟩ := scanObject_sound ih rfl h
        exact ⟨Nat.succ_le_succ hlevels, u, _, hu, hs, hd⟩
      · split at h
        · next hc =>
          subst hc
          obtain ⟨hlevels, hd⟩ := scanArray_sound ih rfl h
          exact ⟨Nat.succ_le_succ hlevels, u, _, hu, hs, hd⟩
        · obtain ⟨⟨k', t'⟩, hk, heq⟩ := Option.bind_eq_some_iff.1 h
          cases heq
          obtain ⟨hcont, hwf, hr⟩ := scanScalar_sound hk
          exact ⟨Nat.succ_le_succ (Nat.zero_le levels), u, _, hu, hs, .scalar hcont hwf hr⟩

/-! ## Completeness -/

theorem Token.length_lt (h : Token c s t) : t.length < s.length := by
  obtain ⟨u, v, -, -, rfl⟩ := h
  simp only [List.length_append, List.length_cons]
  omega

theorem Derives.start (h : Derives p F s t) : ∃ c r, s = c :: r ∧ StartByte c := by
  induction h with
  | scalar hk hwf hs =>
    obtain ⟨c, r, hr, -, -, hc⟩ := scalar_head hk hwf
    exact ⟨c, _, by rw [hs, hr]; rfl, hc⟩
  | emptyArray _ hs | array _ hs | emptyObject _ hs => exact ⟨_, _, hs, rfl, by decide, by decide⟩
  | object _ hs => exact ⟨_, _, hs, rfl, by decide, by decide⟩
  | lastElement _ ih => exact ih
  | element _ _ _ ih _ => exact ih
  | lastMember _ hs | member _ hs => exact ⟨0x22, _, by rw [hs]; rfl, rfl, by decide, by decide⟩

theorem Derives.skipWs_eq (h : Derives p F s t) (hv : Blank v) : skipWs (v ++ s) = s := by
  obtain ⟨c, r, rfl, hc, -, -⟩ := h.start
  rw [skipWs_blank_append hv, skipWs_cons hc]

theorem Derives.length_lt (h : Derives p F s t) : t.length < s.length := by
  induction h with
  | scalar hk hwf hs =>
    obtain ⟨c, r, hr, -⟩ := scalar_head hk hwf
    rw [hs, hr]
    simp only [List.length_append, List.length_cons]
    omega
  | emptyArray _ hs | emptyObject _ hs =>
    rw [hs]
    simp only [List.length_append, List.length_cons]
    omega
  | array _ hs _ _ ih | object _ hs _ _ ih =>
    rw [hs]
    simp only [List.length_append, List.length_cons] at ih ⊢
    omega
  | lastElement _ ih => exact ih
  | element _ htoken _ ih ih' => exact (ih'.trans htoken.length_lt).trans ih
  | lastMember _ hs htoken _ ih =>
    have hlt := ih.trans htoken.length_lt
    rw [hs, List.length_append]
    omega
  | member _ hs htoken _ hcomma _ ih ih' =>
    have hlt := ((ih'.trans hcomma.length_lt).trans ih).trans htoken.length_lt
    rw [hs, List.length_append]
    omega

variable {w t' t'' : List UInt8}

theorem Delimited.blank_append (hw : Blank w) (ht : Delimited t) : Delimited (w ++ t) := by
  cases w with
  | nil => exact ht
  | cons c w =>
    have hc := hw c List.mem_cons_self
    intro d hd
    cases hd
    simp only [isSpace, Bool.or_eq_true, decide_eq_true_eq] at hc
    rcases hc with ((rfl | rfl) | rfl) | rfl <;> decide

theorem delimited_cons (h : isDigit c = false ∧ c ≠ 0x2E ∧ c ≠ 0x65 ∧ c ≠ 0x45)
    (t : List UInt8) : Delimited (c :: t) := by
  intro d hd
  cases hd
  exact h

theorem peek_skipWs (hc : isSpace c = false) (hw : Blank w)
    (t : List UInt8) : skipWs (w ++ c :: t) = c :: t := by
  rw [skipWs_blank_append hw, skipWs_cons hc]

theorem scanValue_skipWs (levels : Nat) (s : List UInt8) :
    scanValue levels (skipWs s) = scanValue levels s := by
  obtain ⟨w, hw, hs⟩ := skipWs_spec s
  cases levels with
  | zero => rfl
  | succ levels =>
    have hskip : skipWs (skipWs s) = skipWs s := by
      conv_rhs => rw [hs]
      rw [skipWs_blank_append hw]
    rw [scanValue, scanValue, hskip]

theorem scanValue_blank (hv : Blank v) (levels : Nat) (s : List UInt8) :
    scanValue levels (v ++ s) = scanValue levels s := by
  rw [← scanValue_skipWs, skipWs_blank_append hv, scanValue_skipWs]

/-- What a derivation promises of the scan, for each production. -/
def ScanComplete : Production → Forest Label → List UInt8 → List UInt8 → Prop
  | .value, F, s, t => ∀ levels k G, F = .cons ⟨none, k⟩ G .nil → G.height < levels → Delimited t →
      scanValue levels s = some (k, G, t)
  | .elements, F, s, t => ∀ levels fuel w t', F.height ≤ levels → s.length ≤ fuel → Blank w →
      t = w ++ 0x5D :: t' → scanElements (scanValue levels) fuel s = some (F, t')
  | .members, F, s, t => ∀ levels fuel w t', F.height ≤ levels → s.length ≤ fuel → Blank w →
      t = w ++ 0x7D :: t' → scanMembers (scanValue levels) fuel s = some (F, t')

theorem scalar_complete (hk : k.isContainer = false) (hwf : k.Wf)
    (hs : s = k.text ++ t) : ScanComplete .value (.leaf ⟨none, k⟩) s t := by
  intro levels k' G heq hlevels ht
  cases heq
  cases levels with
  | zero => cases hlevels
  | succ levels =>
    obtain ⟨c, r, hr, hobject, harray, hc, -⟩ := scalar_head hk hwf
    have hscalar := scanScalar_complete hk hwf ht hr
    rw [hr] at hs hscalar
    rw [hs, scanValue, List.cons_append, skipWs_cons hc]
    dsimp only
    rw [if_neg hobject, if_neg harray]
    rw [List.cons_append] at hscalar
    rw [hscalar]
    rfl

theorem scanValue_array :
    scanValue (levels + 1) (0x5B :: (v ++ t)) = scanArray (scanValue levels) (0x5B :: (v ++ t)) := by
  rw [scanValue, skipWs_cons rfl]
  rfl

theorem scanValue_object :
    scanValue (levels + 1) (0x7B :: (v ++ t)) = scanObject (scanValue levels) (0x7B :: (v ++ t)) := by
  rw [scanValue, skipWs_cons rfl]
  rfl

theorem emptyArray_complete (hv : Blank v) (hs : s = 0x5B :: (v ++ 0x5D :: t)) :
    ScanComplete .value (.leaf ⟨none, .array⟩) s t := by
  intro levels k G heq hlevels _
  cases heq
  cases levels with
  | zero => cases hlevels
  | succ levels =>
    rw [hs, scanValue_array, scanArray, List.tail_cons, peek_skipWs rfl hv]
    rfl

theorem emptyObject_complete (hv : Blank v) (hs : s = 0x7B :: (v ++ 0x7D :: t)) :
    ScanComplete .value (.leaf ⟨none, .object⟩) s t := by
  intro levels k G heq hlevels _
  cases heq
  cases levels with
  | zero => cases hlevels
  | succ levels =>
    rw [hs, scanValue_object, scanObject, List.tail_cons, peek_skipWs rfl hv]
    rfl

theorem array_complete (hv : Blank v)
    (hs : s = 0x5B :: (v ++ t)) (hd : Derives .elements F t (w ++ 0x5D :: t')) (hw : Blank w)
    (ih : ScanComplete .elements F t (w ++ 0x5D :: t')) :
    ScanComplete .value (.cons ⟨none, .array⟩ F .nil) s t' := by
  intro levels k G heq hlevels _
  cases heq
  cases levels with
  | zero => cases hlevels
  | succ levels =>
    obtain ⟨c, r, hr, -, hc, -⟩ := hd.start
    have hno : peek t ≠ some 0x5D := by
      rw [hr]
      exact fun h => hc (Option.some.inj h)
    have hscan := ih levels t.length w t' (Nat.le_of_lt_succ hlevels) (Nat.le_refl _) hw rfl
    rw [hs, scanValue_array, scanArray, List.tail_cons, hd.skipWs_eq hv, if_neg hno, hscan]
    rfl

theorem object_complete (hv : Blank v)
    (hs : s = 0x7B :: (v ++ t)) (hd : Derives .members F t (w ++ 0x7D :: t')) (hw : Blank w)
    (ih : ScanComplete .members F t (w ++ 0x7D :: t')) :
    ScanComplete .value (.cons ⟨none, .object⟩ F .nil) s t' := by
  intro levels k G heq hlevels _
  cases heq
  cases levels with
  | zero => cases hlevels
  | succ levels =>
    obtain ⟨c, r, hr, -, -, hc⟩ := hd.start
    have hno : peek t ≠ some 0x7D := by
      rw [hr]
      exact fun h => hc (Option.some.inj h)
    have hscan := ih levels t.length w t' (Nat.le_of_lt_succ hlevels) (Nat.le_refl _) hw rfl
    rw [hs, scanValue_object, scanObject, List.tail_cons, hd.skipWs_eq hv, if_neg hno, hscan]
    rfl

theorem fuel_pos (h : Derives p F s t)
    (hfuel : s.length ≤ fuel) : ∃ f, fuel = f + 1 ∧ t.length ≤ f := by
  have hlt := h.length_lt
  exact ⟨fuel - 1, by omega, by omega⟩

theorem lastElement_complete (hd : Derives .value (.cons ⟨none, k⟩ F .nil) s t)
    (ih : ScanComplete .value (.cons ⟨none, k⟩ F .nil) s t) :
    ScanComplete .elements (.cons ⟨none, k⟩ F .nil) s t := by
  intro levels fuel w t' hlevels hfuel hw ht
  obtain ⟨f, rfl, -⟩ := fuel_pos hd hfuel
  have hend : Delimited t := ht ▸ (delimited_cons (by decide) t').blank_append hw
  have hscan := ih levels k F rfl (Nat.lt_of_succ_le (Nat.max_le.1 hlevels).1) hend
  rw [scanElements, hscan]
  simp only [Option.bind_eq_bind, Option.bind_some, ht, peek_skipWs (c := 0x5D) rfl hw, peek, List.head?_cons]
  rfl

theorem element_complete
    (hd : Derives .value (.cons ⟨none, k⟩ F .nil) s t) (htoken : Token 0x2C t t')
    (hd' : Derives .elements G t' t'')
    (ih : ScanComplete .value (.cons ⟨none, k⟩ F .nil) s t) (ih' : ScanComplete .elements G t' t'') :
    ScanComplete .elements (.cons ⟨none, k⟩ F G) s t'' := by
  intro levels fuel w u hlevels hfuel hw ht
  obtain ⟨f, rfl, hf⟩ := fuel_pos hd hfuel
  have hlt := htoken.length_lt
  obtain ⟨x, y, hx, hy, rfl⟩ := htoken
  have hscan := ih levels k F rfl (Nat.lt_of_succ_le (Nat.max_le.1 hlevels).1)
    ((delimited_cons (by decide) _).blank_append hx)
  have hrest := ih' levels f w u (Nat.max_le.1 hlevels).2 (by omega) hw ht
  rw [scanElements, hscan]
  simp only [Option.bind_eq_bind, Option.bind_some, peek_skipWs (c := 0x2C) rfl hx, peek, List.head?_cons,
    List.tail_cons, hd'.skipWs_eq hy, hrest, if_true]

theorem scanMembers_blank (hv : Blank v) (value : List UInt8 → Option Scanned)
    (fuel : Nat) (s : List UInt8) : scanMembers value fuel (v ++ s) = scanMembers value fuel s := by
  cases fuel with
  | zero => rfl
  | succ fuel => rw [scanMembers, scanMembers, skipWs_blank_append hv]

variable {key : List Item}

theorem scanMembers_key (hwf : ∀ i ∈ key, i.Wf) (levels f : Nat) {x y : List UInt8}
    (hx : Blank x) (hy : Blank y) :
    scanMembers (scanValue levels) (f + 1) ((Kind.string key).text ++ (x ++ 0x3A :: (y ++ t))) =
      (do
        let (k, F, t) ← scanValue levels t
        let t := skipWs t
        if peek t = some 0x2C then do
          let (G, u) ← scanMembers (scanValue levels) f t.tail
          some (.cons ⟨some key, k⟩ F G, u)
        else if peek t = some 0x7D then some (.cons ⟨some key, k⟩ F .nil, t.tail)
        else none) := by
  have hskip : skipWs ((Kind.string key).text ++ (x ++ 0x3A :: (y ++ t))) =
      (Kind.string key).text ++ (x ++ 0x3A :: (y ++ t)) := by
    rw [Kind.text, List.cons_append, skipWs_cons rfl]
  rw [scanMembers, hskip, scanString_complete hwf]
  simp only [Option.bind_eq_bind, Option.bind_some, peek_skipWs (c := 0x3A) rfl hx, peek, List.head?_cons,
    List.tail_cons, scanValue_blank hy]
  rfl

theorem lastMember_complete
    (hwf : ∀ i ∈ key, i.Wf) (hs : s = (Kind.string key).text ++ t) (htoken : Token 0x3A t t')
    (ih : ScanComplete .value (.cons ⟨none, k⟩ F .nil) t' t'') :
    ScanComplete .members (.cons ⟨some key, k⟩ F .nil) s t'' := by
  intro levels fuel w u hlevels hfuel hw ht
  obtain ⟨x, y, hx, hy, rfl⟩ := htoken
  cases fuel with
  | zero =>
    rw [hs, Kind.text] at hfuel
    cases hfuel
  | succ f =>
    have hend : Delimited t'' := ht ▸ (delimited_cons (by decide) u).blank_append hw
    have hscan := ih levels k F rfl (Nat.lt_of_succ_le (Nat.max_le.1 hlevels).1) hend
    rw [hs, scanMembers_key hwf levels f hx hy, hscan]
    simp only [Option.bind_eq_bind, Option.bind_some, ht, peek_skipWs (c := 0x7D) rfl hw, peek, List.head?_cons]
    rfl

theorem member_complete
    {u u' : List UInt8} (hwf : ∀ i ∈ key, i.Wf) (hs : s = (Kind.string key).text ++ t)
    (htoken : Token 0x3A t t') (hd : Derives .value (.cons ⟨none, k⟩ F .nil) t' t'')
    (hcomma : Token 0x2C t'' u)
    (ih : ScanComplete .value (.cons ⟨none, k⟩ F .nil) t' t'') (ih' : ScanComplete .members G u u') :
    ScanComplete .members (.cons ⟨some key, k⟩ F G) s u' := by
  intro levels fuel w z hlevels hfuel hw hz
  have hlen := ((hcomma.length_lt).trans hd.length_lt).trans htoken.length_lt
  obtain ⟨x, y, hx, hy, rfl⟩ := htoken
  cases fuel with
  | zero =>
    rw [hs, Kind.text] at hfuel
    cases hfuel
  | succ f =>
    obtain ⟨x', y', hx', hy', rfl⟩ := hcomma
    have hscan := ih levels k F rfl (Nat.lt_of_succ_le (Nat.max_le.1 hlevels).1)
      ((delimited_cons (by decide) _).blank_append hx')
    have hrest := ih' levels f w z (Nat.max_le.1 hlevels).2
      (by
        rw [hs, Kind.text, List.length_append, List.length_cons] at hfuel
        omega) hw hz
    rw [hs, scanMembers_key hwf levels f hx hy, hscan]
    simp only [Option.bind_eq_bind, Option.bind_some, peek_skipWs (c := 0x2C) rfl hx', peek, List.head?_cons,
      List.tail_cons, scanMembers_blank hy', hrest, if_true]

theorem Derives.complete (h : Derives p F s t) : ScanComplete p F s t := by
  induction h with
  | scalar hk hwf hs => exact scalar_complete hk hwf hs
  | emptyArray hv hs => exact emptyArray_complete hv hs
  | array hv hs hd hw ih => exact array_complete hv hs hd hw ih
  | emptyObject hv hs => exact emptyObject_complete hv hs
  | object hv hs hd hw ih => exact object_complete hv hs hd hw ih
  | lastElement hd ih => exact lastElement_complete hd ih
  | element hd htoken hd' ih ih' => exact element_complete hd htoken hd' ih ih'
  | lastMember hwf hs htoken hd ih => exact lastMember_complete hwf hs htoken ih
  | member hwf hs htoken hd hcomma _ ih ih' => exact member_complete hwf hs htoken hd hcomma ih ih'

/-! ## The reading of a text -/

def scanText (levels : Nat) (text : List UInt8) : Option (Forest Label) := do
  let (k, F, t) ← scanValue levels text
  if skipWs t = [] then some (.cons ⟨none, k⟩ F .nil) else none

theorem Derives.value_shape (h : Derives .value F s t) : ∃ k G, F = .cons ⟨none, k⟩ G .nil := by
  cases h with
  | scalar | emptyArray | array | emptyObject | object => exact ⟨_, _, rfl⟩

theorem delimited_blank (hw : Blank w) : Delimited w := by
  have hnil : Delimited [] := fun c hc => by cases hc
  simpa using hnil.blank_append hw

theorem scanText_eq_some : scanText levels text = some F ↔ Reads text F ∧ F.height ≤ levels := by
  simp only [scanText, Option.bind_eq_bind, Option.bind_eq_some_iff]
  constructor
  · rintro ⟨⟨k, G, t⟩, hs, h⟩
    dsimp only at h
    split at h
    · next ht =>
      cases h
      obtain ⟨hlevels, u, s, hu, htext, hd⟩ := scanValue_sound levels text k G t hs
      exact ⟨⟨u, s, t, hu, skipWs_eq_nil.1 ht, htext, hd⟩, Nat.max_le.2 ⟨hlevels, Nat.zero_le levels⟩⟩
    · cases h
  · rintro ⟨⟨u, s, w, hu, hw, htext, hd⟩, hlevels⟩
    obtain ⟨k, G, rfl⟩ := hd.value_shape
    have hs := hd.complete levels k G rfl (Nat.lt_of_succ_le (Nat.max_le.1 hlevels).1)
      (delimited_blank hw)
    refine ⟨(k, G, w), ?_, ?_⟩
    · rw [htext, scanValue_blank hu, hs]
    · dsimp only
      rw [if_pos (skipWs_eq_nil.2 hw)]

theorem Reads.unique (hF : Reads text F) (hG : Reads text G) : F = G := by
  have h1 := scanText_eq_some.2 ⟨hF, Nat.le_max_left F.height G.height⟩
  have h2 := scanText_eq_some.2 ⟨hG, Nat.le_max_right F.height G.height⟩
  exact Option.some.inj (h1.symm.trans h2)

end Owjson
