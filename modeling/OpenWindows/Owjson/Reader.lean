import Mathlib.Data.List.TakeWhile
import OpenWindows.Owjson.Grammar

/-!
# Reading a text

The parser without its pools: `scanValue` follows `parseValue` and gives the reading of the
text in place of the nodes.  It fails where the text leaves the grammar or nests too deep,
and nowhere else.  The terminals are tied to the grammar here: a scan spells what it has
taken, and what is spelt is scanned, for a number when the text goes on with no character
that belongs to one (`Delimited`).
-/

namespace Owjson

/-! ## The scan -/

/-- One character of a string. -/
def scanItem : List UInt8 → Option (Item × List UInt8)
  | [] => none
  | c :: t =>
    if c = 0x5C then
      match t with
      | [] => none
      | e :: t =>
        if e = 0x75 then
          match t with
          | a :: b :: c :: d :: t =>
            if (hexDigit a).isSome ∧ (hexDigit b).isSome ∧ (hexDigit c).isSome ∧ (hexDigit d).isSome then
              some (.unicode a b c d, t)
            else none
          | _ => none
        else if (escapes.lookup e).isSome then some (.escape e, t)
        else none
    else if c < 0x20 then none
    else some (.raw c, t)

/-- The characters up to the closing quote. -/
def scanItems : Nat → List UInt8 → Option (List Item × List UInt8)
  | 0, _ => none
  | _ + 1, [] => none
  | fuel + 1, c :: t =>
    if c = 0x22 then some ([], t)
    else do
      let (i, t) ← scanItem (c :: t)
      let (items, t) ← scanItems fuel t
      some (i :: items, t)

def scanString (text : List UInt8) : Option (List Item × List UInt8) :=
  if peek text ≠ some 0x22 then none else scanItems text.length text.tail

def scanFraction (text : List UInt8) : Option (Option (List UInt8) × List UInt8) :=
  if peek text = some 0x2E then
    if (peek text.tail).any isDigit then
      some (some (text.tail.takeWhile isDigit), text.tail.dropWhile isDigit)
    else none
  else some (none, text)

def expSign (text : List UInt8) : Option UInt8 :=
  if peek text = some 0x2B ∨ peek text = some 0x2D then peek text else none

def afterSign (text : List UInt8) : List UInt8 :=
  if peek text = some 0x2B ∨ peek text = some 0x2D then text.tail else text

def scanExponent (text : List UInt8) : Option (Option ExponentText × List UInt8) :=
  if peek text = some 0x65 ∨ peek text = some 0x45 then
    if (peek (afterSign text.tail)).any isDigit then
      some (some ⟨text.headD 0, expSign text.tail, (afterSign text.tail).takeWhile isDigit⟩,
        (afterSign text.tail).dropWhile isDigit)
    else none
  else some (none, text)

def afterMinus (text : List UInt8) : List UInt8 :=
  if peek text = some 0x2D then text.tail else text

def scanNumber (text : List UInt8) : Option (NumberText × List UInt8) :=
  let t := afterMinus text
  if t.takeWhile isDigit = [] then none
  else do
    let (frac, u) ← scanFraction (t.dropWhile isDigit)
    let (exp, u) ← scanExponent u
    some (⟨peek text = some 0x2D, t.takeWhile isDigit, frac, exp⟩, u)

/-- A value as it is scanned: its kind, what it contains and the text after it. -/
abbrev Scanned := Kind × Forest Label × List UInt8

def scanElements (value : List UInt8 → Option Scanned) :
    Nat → List UInt8 → Option (Forest Label × List UInt8)
  | 0, _ => none
  | fuel + 1, s => do
    let (k, F, t) ← value s
    let t := skipWs t
    if peek t = some 0x2C then do
      let (G, u) ← scanElements value fuel (skipWs t.tail)
      some (.cons ⟨none, k⟩ F G, u)
    else if peek t = some 0x5D then some (.cons ⟨none, k⟩ F .nil, t.tail)
    else none

def scanArray (value : List UInt8 → Option Scanned) (text : List UInt8) : Option Scanned :=
  let s := skipWs text.tail
  if peek s = some 0x5D then some (.array, .nil, s.tail)
  else do
    let (F, t) ← scanElements value s.length s
    some (.array, F, t)

def scanMembers (value : List UInt8 → Option Scanned) :
    Nat → List UInt8 → Option (Forest Label × List UInt8)
  | 0, _ => none
  | fuel + 1, s => do
    let (key, t) ← scanString (skipWs s)
    let t := skipWs t
    if peek t ≠ some 0x3A then none
    else do
      let (k, F, t) ← value t.tail
      let t := skipWs t
      if peek t = some 0x2C then do
        let (G, u) ← scanMembers value fuel t.tail
        some (.cons ⟨some key, k⟩ F G, u)
      else if peek t = some 0x7D then some (.cons ⟨some key, k⟩ F .nil, t.tail)
      else none

def scanObject (value : List UInt8 → Option Scanned) (text : List UInt8) : Option Scanned :=
  let s := skipWs text.tail
  if peek s = some 0x7D then some (.object, .nil, s.tail)
  else do
    let (F, t) ← scanMembers value s.length s
    some (.object, F, t)

/-- The scalar that starts with `c`. -/
def scanScalar (c : UInt8) (text : List UInt8) : Option (Kind × List UInt8) :=
  if c = 0x22 then do
    let (items, t) ← scanString text
    some (.string items, t)
  else if c = 0x74 then do
    let t ← matchWord wordTrue text
    some (.bool true, t)
  else if c = 0x66 then do
    let t ← matchWord wordFalse text
    some (.bool false, t)
  else if c = 0x6E then do
    let t ← matchWord wordNull text
    some (.null, t)
  else if c = 0x2D ∨ isDigit c then do
    let (n, t) ← scanNumber text
    some (.number n, t)
  else none

def scanValue : Nat → List UInt8 → Option Scanned
  | 0, _ => none
  | levels + 1, s =>
    match skipWs s with
    | [] => none
    | c :: t =>
      if c = 0x7B then scanObject (scanValue levels) (c :: t)
      else if c = 0x5B then scanArray (scanValue levels) (c :: t)
      else do
        let (k, t) ← scanScalar c (c :: t)
        some (k, .nil, t)

/-! ## White space and digits -/

theorem skipWs_spec (s : List UInt8) : ∃ w, Blank w ∧ s = w ++ skipWs s :=
  ⟨s.takeWhile isSpace, fun _ hc => List.mem_takeWhile_imp hc, List.takeWhile_append_dropWhile.symm⟩

theorem skipWs_blank_append {w : List UInt8} (hw : Blank w) (s : List UInt8) :
    skipWs (w ++ s) = skipWs s := by
  induction w with
  | nil => rfl
  | cons c w ih =>
    rw [List.cons_append, skipWs, List.dropWhile_cons, if_pos (hw c List.mem_cons_self)]
    exact ih fun d hd => hw d (List.mem_cons_of_mem c hd)

variable {c : UInt8} {s : List UInt8} {t : List UInt8} {items : List Item}

theorem skipWs_cons (hc : isSpace c = false) (s : List UInt8) : skipWs (c :: s) = c :: s := by
  rw [skipWs, List.dropWhile_cons, hc]
  rfl

theorem skipWs_eq_nil : skipWs s = [] ↔ Blank s := by
  rw [skipWs, List.dropWhile_eq_nil_iff]
  rfl

theorem peek_eq_some (h : peek s = some c) : s = c :: s.tail := by
  cases s with
  | nil => cases h
  | cons d s =>
    cases h
    rfl

/-- A structural character found behind white space. -/
theorem token_of_skipWs (h : peek (skipWs s) = some c) :
    ∃ w, Blank w ∧ s = w ++ c :: (skipWs s).tail := by
  obtain ⟨w, hw, hs⟩ := skipWs_spec s
  exact ⟨w, hw, by rw [← peek_eq_some h]; exact hs⟩

/-- A run of digits ends where the text goes on with another character. -/
def NoDigit (t : List UInt8) : Prop := ∀ c ∈ peek t, isDigit c = false

variable {ds : List UInt8}

theorem takeWhile_digits (hd : ∀ c ∈ ds, isDigit c = true) (ht : NoDigit t) :
    (ds ++ t).takeWhile isDigit = ds := by
  rw [List.takeWhile_append_of_pos hd]
  cases t with
  | nil => simp
  | cons c t => simp [ht c rfl]

theorem dropWhile_digits (hd : ∀ c ∈ ds, isDigit c = true) (ht : NoDigit t) :
    (ds ++ t).dropWhile isDigit = t := by
  rw [List.dropWhile_append_of_pos hd]
  cases t with
  | nil => rfl
  | cons c t => simp [ht c rfl]

theorem digits_takeWhile (h : (peek t).any isDigit = true) : Digits (t.takeWhile isDigit) := by
  cases t with
  | nil => cases h
  | cons c t =>
    have hc : isDigit c = true := h
    exact ⟨by simp [hc], fun d hd => List.mem_takeWhile_imp hd⟩

theorem peek_digits (h : Digits ds) : (peek (ds ++ t)).any isDigit = true := by
  obtain ⟨hne, hd⟩ := h
  cases ds with
  | nil => exact absurd rfl hne
  | cons c ds => exact hd c List.mem_cons_self

/-! ## Strings -/

theorem scanItem_sound {i : Item} (h0 : peek s ≠ some 0x22)
    (h : scanItem s = some (i, t)) : i.Wf ∧ s = i.text ++ t := by
  revert h
  fun_cases scanItem s with
  | case1 | case2 => intro h; cases h
  | case3 a b c' d t hx =>
    intro h
    cases h
    obtain ⟨ha, hb, hc, hd⟩ := hx
    exact ⟨by simp [Item.Wf, ha, hb, hc, hd], rfl⟩
  | case4 | case5 => intro h; cases h
  | case6 e t he hu =>
    intro h
    cases h
    exact ⟨hu, rfl⟩
  | case7 | case8 => intro h; cases h
  | case9 c t hc hlt =>
    intro h
    cases h
    exact ⟨⟨UInt8.not_lt.1 hlt, fun hq => h0 (by rw [hq]; rfl), hc⟩, rfl⟩

theorem scanItem_complete {i : Item} (h : i.Wf) (t : List UInt8) :
    scanItem (i.text ++ t) = some (i, t) ∧ peek (i.text ++ t) ≠ some 0x22 := by
  cases i with
  | raw c =>
    obtain ⟨hge, hq, hb⟩ := h
    refine ⟨?_, fun hp => hq (Option.some.inj hp)⟩
    simp only [Item.text, List.singleton_append, scanItem, if_neg hb, if_neg (UInt8.not_lt.2 hge)]
  | escape e =>
    refine ⟨?_, by simp [Item.text, peek]⟩
    have hsome : (escapes.lookup e).isSome = true := h
    have he : e ≠ 0x75 := by
      rintro rfl
      exact absurd hsome (by decide)
    simp only [Item.text, List.cons_append, List.nil_append, scanItem, if_true, if_neg he, if_pos hsome]
  | unicode a b c d =>
    refine ⟨?_, by simp [Item.text, peek]⟩
    simp only [Item.Wf, List.mem_cons, List.not_mem_nil, or_false, forall_eq_or_imp, forall_eq] at h
    simp only [Item.text, List.cons_append, List.nil_append, scanItem, if_true, if_pos h]

theorem scanItems_sound {fuel : Nat} (h : scanItems fuel s = some (items, t)) :
    (∀ i ∈ items, i.Wf) ∧ s = itemsText items ++ 0x22 :: t := by
  induction fuel generalizing s items with
  | zero => cases h
  | succ fuel ih =>
    cases s with
    | nil => cases h
    | cons c s =>
      rw [scanItems] at h
      split at h
      · next hc =>
        cases h
        exact ⟨by simp, by rw [hc]; rfl⟩
      · next hc =>
        simp only [Option.bind_eq_bind, Option.bind_eq_some_iff] at h
        obtain ⟨⟨i, u⟩, hi, ⟨rest, v⟩, hrest, heq⟩ := h
        dsimp only at hrest heq
        cases heq
        have hq : peek (c :: s) ≠ some 0x22 := fun hp => hc (Option.some.inj hp)
        obtain ⟨hwf, hs⟩ := scanItem_sound hq hi
        obtain ⟨hall, hu⟩ := ih hrest
        refine ⟨by simpa using ⟨hwf, hall⟩, ?_⟩
        rw [hs, hu, itemsText, itemsText, List.flatMap_cons, List.append_assoc]

theorem scanItems_complete (h : ∀ i ∈ items, i.Wf) (t : List UInt8) {fuel : Nat}
    (hfuel : items.length < fuel) : scanItems fuel (itemsText items ++ 0x22 :: t) = some (items, t) := by
  induction items generalizing fuel with
  | nil =>
    cases fuel with
    | zero => cases hfuel
    | succ fuel => rfl
  | cons i items ih =>
    cases fuel with
    | zero => cases hfuel
    | succ fuel =>
      obtain ⟨hi, hq⟩ := scanItem_complete (h i List.mem_cons_self) (itemsText items ++ 0x22 :: t)
      have hrest := ih (fun j hj => h j (List.mem_cons_of_mem i hj)) (Nat.lt_of_succ_lt_succ hfuel)
      rw [itemsText, List.flatMap_cons, List.append_assoc, ← itemsText]
      generalize htext : i.text ++ (itemsText items ++ 0x22 :: t) = text at hi hq ⊢
      cases text with
      | nil => cases hi
      | cons c text =>
        rw [scanItems, if_neg fun hc => hq (by rw [hc]; rfl), hi]
        simp only [Option.bind_eq_bind, Option.bind_some, hrest]

theorem length_le_itemsText (items : List Item) : items.length ≤ (itemsText items).length := by
  induction items with
  | nil => exact Nat.le_refl 0
  | cons i items ih =>
    have hi : 1 ≤ i.text.length := by cases i <;> simp [Item.text]
    rw [itemsText, List.flatMap_cons, List.length_append, ← itemsText, List.length_cons]
    omega

theorem scanString_sound (h : scanString s = some (items, t)) :
    (∀ i ∈ items, i.Wf) ∧ s = (Kind.string items).text ++ t := by
  rw [scanString] at h
  split at h
  · cases h
  · next hq =>
    obtain ⟨hwf, hs⟩ := scanItems_sound h
    refine ⟨hwf, ?_⟩
    rw [peek_eq_some (Decidable.not_not.1 hq), hs, Kind.text]
    simp

theorem scanString_complete (h : ∀ i ∈ items, i.Wf) (t : List UInt8) :
    scanString ((Kind.string items).text ++ t) = some (items, t) := by
  rw [Kind.text, List.cons_append, List.append_assoc, List.singleton_append, scanString, peek,
    if_neg (by simp), List.tail_cons]
  have hlen := length_le_itemsText items
  exact scanItems_complete h t (by simp only [List.length_cons, List.length_append]; omega)

/-! ## Numbers -/

/-- A text that no number goes on into. -/
def Delimited (t : List UInt8) : Prop :=
  ∀ c ∈ peek t, isDigit c = false ∧ c ≠ 0x2E ∧ c ≠ 0x65 ∧ c ≠ 0x45

variable {frac : Option (List UInt8)} {exp : Option ExponentText}

theorem scanFraction_sound
    (h : scanFraction s = some (frac, t)) : (∀ ds ∈ frac, Digits ds) ∧ s = fracText frac ++ t := by
  rw [scanFraction] at h
  split at h
  · next hdot =>
    split at h
    · next hd =>
      cases h
      refine ⟨fun ds hds => ?_, ?_⟩
      · cases hds
        exact digits_takeWhile hd
      · rw [peek_eq_some hdot]
        simp [fracText]
    · cases h
  · cases h
    exact ⟨by simp, rfl⟩

theorem scanFraction_complete (h : ∀ ds ∈ frac, Digits ds)
    (ht : NoDigit t) (hdot : peek t ≠ some 0x2E) :
    scanFraction (fracText frac ++ t) = some (frac, t) := by
  cases frac with
  | none => rw [fracText, List.nil_append, scanFraction, if_neg hdot]
  | some ds =>
    have hds := h ds rfl
    rw [fracText, List.cons_append, scanFraction, peek, List.head?_cons, if_pos rfl, List.tail_cons,
      if_pos (peek_digits hds), takeWhile_digits hds.2 ht, dropWhile_digits hds.2 ht]

theorem expSign_mem (h : c ∈ expSign t) : c = 0x2B ∨ c = 0x2D := by
  rw [expSign] at h
  split at h
  · next hs =>
    rcases hs with hs | hs
    · exact .inl (Option.some.inj (h.symm.trans hs))
    · exact .inr (Option.some.inj (h.symm.trans hs))
  · cases h

theorem expSign_append_afterSign (t : List UInt8) : (expSign t).toList ++ afterSign t = t := by
  rw [expSign, afterSign]
  split
  · cases t <;> rfl
  · rfl

theorem expSign_complete {sign : Option UInt8} (h : ∀ c ∈ sign, c = 0x2B ∨ c = 0x2D)
    (hds : Digits ds) (t : List UInt8) :
    expSign (sign.toList ++ (ds ++ t)) = sign ∧ afterSign (sign.toList ++ (ds ++ t)) = ds ++ t := by
  cases sign with
  | some c =>
    have hc : some c = some 0x2B ∨ some c = some (0x2D : UInt8) := by simpa using h c rfl
    simp only [expSign, afterSign, Option.toList_some, List.singleton_append, peek, List.head?_cons,
      List.tail_cons]
    exact ⟨if_pos hc, if_pos hc⟩
  | none =>
    have hd := peek_digits (t := t) hds
    have hno : ¬ (peek (ds ++ t) = some 0x2B ∨ peek (ds ++ t) = some 0x2D) := by
      rintro (hs | hs) <;> exact absurd (hs ▸ hd) (by decide)
    exact ⟨if_neg hno, if_neg hno⟩

theorem scanExponent_sound
    (h : scanExponent s = some (exp, t)) : (∀ e ∈ exp, e.Wf) ∧ s = expText exp ++ t := by
  rw [scanExponent] at h
  split at h
  · next hmark =>
    obtain ⟨c, s, rfl⟩ : ∃ c u, s = c :: u := by
      rcases hmark with hmark | hmark <;> exact ⟨_, _, peek_eq_some hmark⟩
    simp only [peek, List.head?_cons, Option.some.injEq] at hmark
    split at h
    · next hd =>
      cases h
      refine ⟨fun e he => ?_, ?_⟩
      · cases he
        exact ⟨hmark, fun x hx => expSign_mem hx, digits_takeWhile hd⟩
      · rw [expText, ExponentText.text, List.cons_append, List.append_assoc,
          List.takeWhile_append_dropWhile, expSign_append_afterSign]
        rfl
    · cases h
  · cases h
    exact ⟨by simp, rfl⟩

theorem scanExponent_complete (h : ∀ e ∈ exp, e.Wf)
    (ht : Delimited t) : scanExponent (expText exp ++ t) = some (exp, t) := by
  cases exp with
  | none =>
    have hno : ¬ (peek t = some 0x65 ∨ peek t = some 0x45) := by
      rintro (hs | hs)
      · exact (ht _ hs).2.2.1 rfl
      · exact (ht _ hs).2.2.2 rfl
    rw [expText, List.nil_append, scanExponent, if_neg hno]
  | some e =>
    obtain ⟨hmark, hsign, hds⟩ := h e rfl
    obtain ⟨hs, ha⟩ := expSign_complete hsign hds t
    have hmark' : some e.mark = some 0x65 ∨ some e.mark = some (0x45 : UInt8) := by simpa using hmark
    have hno : NoDigit t := fun c hc => (ht c hc).1
    rw [expText, ExponentText.text, List.cons_append, List.append_assoc, scanExponent, peek,
      List.head?_cons, if_pos hmark', List.tail_cons, ha, hs, if_pos (peek_digits hds),
      takeWhile_digits hds.2 hno, dropWhile_digits hds.2 hno, List.headD_cons]

theorem peek_expText (h : ∀ e ∈ exp, e.Wf)
    (ht : Delimited t) : NoDigit (expText exp ++ t) ∧ peek (expText exp ++ t) ≠ some 0x2E := by
  cases exp with
  | none => exact ⟨fun c hc => (ht c hc).1, fun hdot => (ht _ hdot).2.1 rfl⟩
  | some e =>
    obtain ⟨hmark, -, -⟩ := h e rfl
    refine ⟨fun c hc => ?_, fun hdot => ?_⟩
    · cases hc
      rcases hmark with hmark | hmark <;> rw [hmark] <;> decide
    · have hm : e.mark = 0x2E := Option.some.inj hdot
      rcases hmark with hmark | hmark <;> rw [hmark] at hm <;> cases hm

theorem peek_fracText (frac : Option (List UInt8)) (ht : NoDigit t) :
    NoDigit (fracText frac ++ t) := by
  cases frac with
  | none => exact ht
  | some ds =>
    intro c hc
    cases hc
    decide

theorem afterMinus_complete (minus : Bool) (hds : Digits ds) (t : List UInt8) :
    afterMinus ((if minus then [0x2D] else []) ++ (ds ++ t)) = ds ++ t ∧
      (peek ((if minus then [0x2D] else []) ++ (ds ++ t)) = some 0x2D ↔ minus = true) := by
  cases minus with
  | true => exact ⟨rfl, fun _ => rfl, fun _ => rfl⟩
  | false =>
    have hd := peek_digits (t := t) hds
    have hno : peek (ds ++ t) ≠ some 0x2D := fun hp => absurd (hp ▸ hd) (by decide)
    exact ⟨if_neg hno, fun hp => absurd hp hno, fun hf => by cases hf⟩

theorem append_afterMinus (s : List UInt8) :
    (if decide (peek s = some 0x2D) then [0x2D] else []) ++ afterMinus s = s := by
  rw [afterMinus]
  by_cases hm : peek s = some 0x2D
  · rw [if_pos hm, if_pos (decide_eq_true hm)]
    exact (peek_eq_some hm).symm
  · rw [if_neg hm, decide_eq_false hm]
    rfl

theorem scanNumber_sound {n : NumberText} (h : scanNumber s = some (n, t)) :
    n.Wf ∧ s = n.text ++ t := by
  rw [scanNumber] at h
  dsimp only at h
  split at h
  · cases h
  · next hint =>
    simp only [Option.bind_eq_bind, Option.bind_eq_some_iff] at h
    obtain ⟨⟨frac, u⟩, hf, ⟨exp, v⟩, he, heq⟩ := h
    cases heq
    obtain ⟨hfwf, hfs⟩ := scanFraction_sound hf
    obtain ⟨hewf, hes⟩ := scanExponent_sound he
    refine ⟨⟨⟨hint, fun c hc => List.mem_takeWhile_imp hc⟩, hfwf, hewf⟩, ?_⟩
    dsimp only at hfs hes
    rw [NumberText.text, List.append_assoc, List.append_assoc, List.append_assoc, ← hes, ← hfs,
      List.takeWhile_append_dropWhile, append_afterMinus]

theorem scanNumber_complete {n : NumberText} (h : n.Wf) (ht : Delimited t) :
    scanNumber (n.text ++ t) = some (n, t) := by
  obtain ⟨hint, hfrac, hexp⟩ := h
  obtain ⟨hnd, hdot⟩ := peek_expText hexp ht
  have hnf := peek_fracText n.frac hnd
  obtain ⟨hafter, hpeek⟩ :=
    afterMinus_complete n.minus hint (fracText n.frac ++ (expText n.exp ++ t))
  have hminus : decide (peek ((if n.minus = true then [0x2D] else []) ++
      (n.int ++ (fracText n.frac ++ (expText n.exp ++ t)))) = some 0x2D) = n.minus := by
    rw [Bool.eq_iff_iff, decide_eq_true_iff]
    exact hpeek
  rw [NumberText.text, List.append_assoc, List.append_assoc, List.append_assoc, scanNumber]
  dsimp only
  rw [hafter, hminus, takeWhile_digits hint.2 hnf, dropWhile_digits hint.2 hnf, if_neg hint.1,
    scanFraction_complete hfrac hnd hdot]
  simp only [Option.bind_eq_bind, Option.bind_some, scanExponent_complete hexp ht]

end Owjson
