import OpenWindows.Engines.Collect
import OpenWindows.Engines.CompileSound

/-!
# Targets of assignments

`js_collect` and `lua_collect` scan the target of an assignment themselves, `py_tokenize` scans
every use of it.  `js_collect` agrees with the tokenizer where the target is a name that fits
the payload.  `lua_collect` writes only the characters of the target, so the name of the token
goes on with what was there before unless a NUL happens to follow.
-/

namespace Engines

/-! ## The tokenizer on a name -/

/-- `py_tokenize` makes the one identifier `x` of the characters at the head of `u`. -/
def TokenOf (u : List UInt8) (x : Ident) : Prop :=
  ∀ P, ∃ T P', pyTokenize (u.takeWhile isNameChar) P = .ok (T, P') ∧ T.toks = [.ident x]

/-- The text begins with a character of `isNameStart`. -/
def Begins (u : List UInt8) : Prop := u.head?.any isNameStart = true

instance (u : List UInt8) : Decidable (Begins u) := inferInstanceAs (Decidable (_ = _))

variable {c : UInt8} {x : Ident}

theorem isNameChar_cases (h : isNameChar c = true) : isNameStart c = true ∨ isDigit c = true := by
  simp only [isNameStart, isNameChar, isDigit, Bool.or_eq_true] at h ⊢
  rcases h with ((h | h) | h) | h
  · exact .inl (.inl (.inl h))
  · exact .inl (.inl (.inr h))
  · exact .inr h
  · exact .inl (.inr h)

theorem isDigit_of_start (h : isNameStart c = true) : isDigit c = false := by
  simp only [isNameStart, isDigit, Bool.or_eq_true, Bool.and_eq_true, Bool.and_eq_false_iff,
    decide_eq_true_eq, decide_eq_false_iff_not, beq_iff_eq, UInt8.le_iff_toNat_le,
    ← UInt8.toNat_inj] at h ⊢
  simp at h ⊢
  omega

theorem plain_of_name (h : isNameChar c = true) : ¬ (c = 32 ∨ c = 9 ∨ c = 13) ∧ c ≠ 35 := by
  constructor
  · rintro (rfl | rfl | rfl)
    · cases h
    · cases h
    · cases h
  · rintro rfl
    cases h

theorem pyTokenizeLoop_prefix {n : Nat} {s : List UInt8} {T T' : PyToks} {P P' : StringPool}
    (h : pyTokenizeLoop n s T P = .ok (T', P')) : T.toks <+: T'.toks := by
  induction n generalizing s T P with
  | zero =>
    cases s with
    | nil | cons c cs => cases h; exact List.prefix_refl _
  | succ n ih =>
    cases s with
    | nil => cases h; exact List.prefix_refl _
    | cons c cs =>
      rw [pyTokenizeLoop] at h
      split at h
      · exact ih h
      · split at h
        · cases h
          exact List.prefix_refl _
        · split at h
          · cases h
          · split at h
            · cases h
            · exact (List.prefix_append _ _).trans (ih h)

theorem pyTokenizeLoop_nil (n : Nat) (T : PyToks) (P : StringPool) :
    pyTokenizeLoop n [] T P = .ok (T, P) := by
  cases n with
  | zero => rfl
  | succ n => rfl

theorem takeWhile_name (u : List UInt8) :
    (u.takeWhile isNameChar).takeWhile isNameChar = u.takeWhile isNameChar := by
  rw [List.takeWhile_eq_self_iff]
  exact fun c hc => List.mem_takeWhile_imp hc

theorem nameAt_takeWhile (u : List UInt8) : nameAt (u.takeWhile isNameChar) = nameAt u := by
  unfold nameAt
  congr 2
  exact takeWhile_name u

/-- The array of the one token `t`. -/
def PyToks.single (t : Tok) : PyToks := ⟨[t], show 1 ≤ pyMaxTok by decide⟩

theorem pyTokenize_name (cs : List UInt8) (P : StringPool) (hc : isNameChar c = true) :
    pyTokenize (c :: cs) P =
      match pyToken c cs P with
      | .error e => .error e
      | .ok (t, rest, P) => pyTokenizeLoop cs.length rest (.single t) P := by
  obtain ⟨hblank, hhash⟩ := plain_of_name hc
  have hroom : ¬ ([] : List Tok).length ≥ pyMaxTok := by decide
  rw [pyTokenize, List.length_cons, pyTokenizeLoop, if_neg hblank, if_neg hhash, dif_neg hroom]
  rfl

theorem tokenOf_of_begins {u : List UInt8} (h : Begins u) : TokenOf u (nameAt u) := by
  intro P
  cases u with
  | nil => cases h
  | cons c cs =>
    have hstart : isNameStart c = true := h
    have hchar := isNameChar_of_start hstart
    have hrun : (c :: cs).takeWhile isNameChar = c :: cs.takeWhile isNameChar :=
      List.takeWhile_cons_of_pos hchar
    have hrest : (c :: cs.takeWhile isNameChar).dropWhile isNameChar = [] := by
      rw [List.dropWhile_eq_nil_iff, ← hrun]
      exact fun c hc => List.mem_takeWhile_imp hc
    refine ⟨.single (.ident (nameAt (c :: cs))), P, ?_, rfl⟩
    rw [hrun, pyTokenize_name _ _ hchar, pyToken, isDigit_of_start hstart, if_neg Bool.false_ne_true,
      if_pos hstart, hrest, ← hrun, nameAt_takeWhile]
    exact pyTokenizeLoop_nil _ _ _

theorem tokenOf_iff {u : List UInt8} : TokenOf u x ↔ Begins u ∧ x = nameAt u := by
  constructor
  · intro h
    cases u with
    | nil =>
      obtain ⟨T, P', hT, htoks⟩ := h .empty
      cases hT
      cases htoks
    | cons c cs =>
      by_cases hchar : isNameChar c = true
      · have hrun : (c :: cs).takeWhile isNameChar = c :: cs.takeWhile isNameChar :=
          List.takeWhile_cons_of_pos hchar
        cases isNameChar_cases hchar with
        | inl hstart =>
          refine ⟨hstart, ?_⟩
          obtain ⟨T, P', hT, htoks⟩ := h .empty
          obtain ⟨T', P'', hT', htoks'⟩ := tokenOf_of_begins (u := c :: cs) hstart .empty
          rw [hT] at hT'
          cases hT'
          rw [htoks] at htoks'
          cases htoks'
          rfl
        | inr hdigit =>
          obtain ⟨T, P', hT, htoks⟩ := h .empty
          rw [hrun, pyTokenize_name _ _ hchar, pyToken, if_pos hdigit] at hT
          have hpre := pyTokenizeLoop_prefix hT
          rw [htoks] at hpre
          cases (List.cons_prefix_cons.1 hpre).1
      · have hrun : (c :: cs).takeWhile isNameChar = [] :=
          List.takeWhile_cons_of_neg hchar
        obtain ⟨T, P', hT, htoks⟩ := h .empty
        rw [hrun] at hT
        cases hT
        cases htoks
  · rintro ⟨hbegins, rfl⟩
    exact tokenOf_of_begins hbegins

/-! ## Variable slots -/

/-- The statement stores to the identifier of the target at the head of `u`, and every use of
the identifier behind the assignment finds the slot of the assignment. -/
def Stores (s : Stmt) (u : List UInt8) : Prop :=
  ∃ x, s.tk.head? = some (.ident x) ∧ TokenOf u x ∧
    ∀ (V V' V'' : VarTab) (i : Nat), pyVarDeclare V x = .ok (V', i) → V'.names <+: V''.names →
      ∀ y, TokenOf u y → pyVarFind V''.names y = some i

theorem stores_iff {s : Stmt} {u : List UInt8} (h : s.tk.head? = some (.ident x)) :
    Stores s u ↔ Begins u ∧ x = nameAt u := by
  constructor
  · rintro ⟨x', hx', htoken, -⟩
    rw [h] at hx'
    cases hx'
    exact tokenOf_iff.1 htoken
  · rintro ⟨hbegins, rfl⟩
    refine ⟨nameAt u, h, tokenOf_of_begins hbegins, ?_⟩
    intro V V' V'' i hdeclare hpre y hy
    obtain ⟨-, rfl⟩ := tokenOf_iff.1 hy
    obtain ⟨-, hmem, rfl⟩ := pyVarDeclare_ok hdeclare
    rw [pyVarFind_of_mem (hpre.subset hmem), hpre.idxOf_eq_of_mem hmem]

/-! ## Lines that assign -/

/-- The outcome of the loop body of a classifier. -/
abbrev LineResult : Type := Except CollectStop (Option Stmt × StringPool)

/-- A line is read without a write outside a buffer, and where it becomes an assignment, this
stores to what `py_tokenize` makes of the target at `u?`. -/
def Exact (r : LineResult) (u? : Option (List UInt8)) : Prop :=
  r ≠ .error .overrun ∧
    ∀ s P, r = .ok (some s, P) → s.kind = .sAssign → ∃ u, u? = some u ∧ Stores s u

def Found.Other : Found → Prop
  | .skip => True
  | .elseLine => True
  | .assign _ _ => False
  | .other kind _ => kind ≠ .sAssign

/-- A classification that scans no target. -/
def Quiet (r : Except CollectStop Found) : Prop :=
  r ≠ .error .overrun ∧ ∀ found, r = .ok found → found.Other

theorem quiet_ok {found : Found} (h : found.Other) : Quiet (.ok found) := by
  constructor
  · nofun
  · intro found' hfound
    cases hfound
    exact h

theorem quiet_status (st : Status) : Quiet (.error (.status st)) := ⟨nofun, nofun⟩

section Finish

variable {n indent : Nat} {P P' : StringPool} {found : Found} {s : Stmt}

theorem finishLine_inside : finishLine n indent P found ≠ .error .overrun := by
  intro h
  cases found with
  | skip => cases h
  | elseLine =>
    rw [finishLine] at h
    split at h
    · cases h
    · cases h
  | assign target payload =>
    rw [finishLine] at h
    split at h
    · cases h
    · split at h
      · cases h
      · split at h
        · next he =>
          unfold assignStmt at he
          split at he
          · cases he
            cases h
          · cases he
        · cases h
  | other kind payload =>
    rw [finishLine] at h
    split at h
    · cases h
    · split at h
      · cases h
      · cases h

theorem finishLine_assign {x : Ident} {payload : List UInt8} {s? : Option Stmt}
    (h : finishLine n indent P (.assign x payload) = .ok (s?, P')) :
    ∃ s, s? = some s ∧ s.kind = .sAssign ∧ s.tk.head? = some (.ident x) := by
  rw [finishLine] at h
  split at h
  · cases h
  · split at h
    · cases h
    · split at h
      · cases h
      · next s hs =>
        cases h
        unfold assignStmt at hs
        split at hs
        · cases hs
        · cases hs
          exact ⟨_, rfl, rfl, rfl⟩

theorem finishLine_other (hfound : found.Other)
    (h : finishLine n indent P found = .ok (some s, P')) : s.kind ≠ .sAssign := by
  cases found with
  | skip => cases h
  | elseLine =>
    rw [finishLine] at h
    split at h
    · cases h
    · cases h
      nofun
  | assign target payload => exact hfound.elim
  | other kind payload =>
    rw [finishLine] at h
    split at h
    · cases h
    · split at h
      · cases h
      · cases h
        exact hfound

end Finish

/-! ## `js_collect` -/

/-- The line without its indentation and its comment. -/
def jsText (line : List UInt8) : List UInt8 :=
  stripComment (fun s => s.head? == some 47 && s.tail.head? == some 47) false
    (skipTabs (lineBuf line))

/-- The text of a line at the target, where `js_collect` takes the line for an assignment. -/
def jsAssigned (text : List UInt8) : Option (List UInt8) :=
  let t := skipTabs text
  if t = [] then none
  else if t = [125] then none
  else if (behind ['e', 'l', 's', 'e'] (t.dropWhile fun c => c == 32 || c == 125 || c == 123)).isSome
    then none
  else
    match behindLet t with
    | some rest => some (skipTabs rest)
    | none =>
      if (behind ['p', 'r', 'i', 'n', 't'] t).isSome then none
      else if (behind ['w', 'h', 'i', 'l', 'e'] t).isSome then none
      else if (behind ['i', 'f'] t).isSome then none
      else if t.head?.any isNameStart ∧ (skipTabs (t.dropWhile isNameChar)).head? = some 61 then
        some t
      else none

theorem jsParen_quiet {kind : StmtKind} {t rest : List UInt8} {e : Nat} (hkind : kind ≠ .sAssign) :
    Quiet (jsParen kind t rest e) := by
  unfold jsParen
  split
  · exact quiet_ok hkind
  · exact quiet_status _

theorem jsFound_of_assigned {text u : List UInt8} (h : jsAssigned text = some u) :
    ∃ e, jsFound text =
      match jsTarget u with
      | .error err => .error err
      | .ok (x, rest) => .ok (.assign x (payloadText (skipTabs text) rest e)) := by
  unfold jsAssigned at h
  unfold jsFound jsClassify
  dsimp only at h ⊢
  refine ⟨trimmed (fun c => isTab c || c == 59 || c == 123 || c == 125) (skipTabs text), ?_⟩
  split at h
  · cases h
  · next hempty =>
    rw [if_neg hempty]
    split at h
    · cases h
    · next hbrace =>
      rw [if_neg hbrace]
      split at h
      · cases h
      · next helse =>
        rw [if_neg helse]
        cases hlet : behindLet (skipTabs text) with
        | some rest =>
          rw [hlet] at h
          cases h
          cases hx : jsTarget (skipTabs rest) with
          | error err | ok r => simp only [hx]
        | none =>
          rw [hlet] at h
          dsimp only at h ⊢
          split at h
          · cases h
          · next hprint =>
            rw [Option.not_isSome_iff_eq_none.1 hprint]
            split at h
            · cases h
            · next hwhile =>
              rw [Option.not_isSome_iff_eq_none.1 hwhile]
              split at h
              · cases h
              · next hif =>
                rw [Option.not_isSome_iff_eq_none.1 hif]
                split at h
                · next hname =>
                  cases h
                  dsimp only
                  cases hx : jsTarget (skipTabs text) with
                  | error err | ok r => exact if_pos hname
                · cases h

/-- Nowhere else. -/
theorem jsFound_of_not_assigned {text : List UInt8} (h : jsAssigned text = none) :
    Quiet (jsFound text) := by
  unfold jsAssigned at h
  unfold jsFound jsClassify
  dsimp only at h ⊢
  split at h
  · next hempty =>
    rw [if_pos hempty]
    exact quiet_ok trivial
  · next hempty =>
    rw [if_neg hempty]
    split at h
    · next hbrace =>
      rw [if_pos hbrace]
      exact quiet_ok trivial
    · next hbrace =>
      rw [if_neg hbrace]
      split at h
      · next helse =>
        rw [if_pos helse]
        exact quiet_ok trivial
      · next helse =>
        rw [if_neg helse]
        cases hlet : behindLet (skipTabs text) with
        | some rest =>
          rw [hlet] at h
          cases h
        | none =>
          rw [hlet] at h
          dsimp only at h ⊢
          cases hprint : behind ['p', 'r', 'i', 'n', 't'] (skipTabs text) with
          | some rest => exact jsParen_quiet nofun
          | none =>
            cases hwhile : behind ['w', 'h', 'i', 'l', 'e'] (skipTabs text) with
            | some rest => exact jsParen_quiet nofun
            | none =>
              cases hif : behind ['i', 'f'] (skipTabs text) with
              | some rest => exact jsParen_quiet nofun
              | none =>
                rw [hprint, hwhile, hif] at h
                dsimp only [Option.isSome_none] at h ⊢
                rw [if_neg Bool.false_ne_true, if_neg Bool.false_ne_true,
                  if_neg Bool.false_ne_true] at h
                split at h
                · cases h
                · next hname =>
                  rw [if_neg hname]
                  exact quiet_ok trivial

/-- A target of `js_collect` that is a name of the tokenizer and fits the payload. -/
def JsFits (u : List UInt8) : Prop :=
  Begins u ∧ (u.takeWhile isNameChar).length ≤ 95

theorem jsTarget_overrun {u : List UInt8} :
    jsTarget u = .error .overrun ↔ ¬ (u.takeWhile isNameChar).length ≤ 95 := by
  unfold jsTarget
  split
  · next hlen => exact ⟨fun _ => by omega, fun _ => rfl⟩
  · next hlen =>
    split
    · exact ⟨nofun, fun h => absurd (by omega) h⟩
    · exact ⟨nofun, fun h => absurd (by omega) h⟩

theorem jsTarget_ok {u rest : List UInt8} (h : jsTarget u = .ok (x, rest)) :
    x = nameAt u ∧ (u.takeWhile isNameChar).length ≤ 95 := by
  unfold jsTarget at h
  split at h
  · cases h
  · next hlen =>
    split at h
    · cases h
      exact ⟨rfl, by omega⟩
    · cases h

/-! ## `lua_collect` -/

/-- The line without its indentation and its comment. -/
def luaText (line : List UInt8) : List UInt8 :=
  stripComment (fun s => s.head? == some 45 && s.tail.head? == some 45) false
    (skipTabs (lineBuf line))

/-- The text of a line at the target, where `lua_collect` takes the line for an assignment. -/
def luaAssigned (text : List UInt8) : Option (List UInt8) :=
  let t := skipTabs text
  if t = [] then none
  else if luaWord ['e', 'n', 'd'] t ∧ (t.drop 3).head?.all isTab then none
  else if luaWord ['p', 'r', 'i', 'n', 't'] t then none
  else if luaWord ['w', 'h', 'i', 'l', 'e'] t then none
  else if luaWord ['i', 'f'] t then none
  else if luaWord ['e', 'l', 's', 'e'] t then none
  else some t

theorem luaFound_of_assigned {stale text u : List UInt8} (h : luaAssigned text = some u) :
    u = skipTabs text ∧
      ((∃ payload, luaFound stale text = .ok (.assign (luaTarget stale u) payload)) ∨
        ∃ st, luaFound stale text = .error (.status st)) := by
  unfold luaAssigned at h
  unfold luaFound
  dsimp only at h ⊢
  split at h
  · cases h
  · next hempty =>
    rw [if_neg hempty]
    split at h
    · cases h
    · next hend =>
      rw [if_neg hend]
      split at h
      · cases h
      · next hprint =>
        rw [if_neg hprint]
        split at h
        · cases h
        · next hwhile =>
          rw [if_neg hwhile]
          split at h
          · cases h
          · next hif =>
            rw [if_neg hif]
            split at h
            · cases h
            · next helse =>
              rw [if_neg helse]
              cases h
              split
              · exact ⟨rfl, .inl ⟨_, rfl⟩⟩
              · exact ⟨rfl, .inr ⟨_, rfl⟩⟩

/-- Nowhere else. -/
theorem luaFound_of_not_assigned {stale text : List UInt8} (h : luaAssigned text = none) :
    Quiet (luaFound stale text) := by
  unfold luaAssigned at h
  unfold luaFound
  dsimp only at h ⊢
  split at h
  · next hempty =>
    rw [if_pos hempty]
    exact quiet_ok trivial
  · next hempty =>
    rw [if_neg hempty]
    split at h
    · next hend =>
      rw [if_pos hend]
      exact quiet_ok trivial
    · next hend =>
      rw [if_neg hend]
      split at h
      · next hprint =>
        rw [if_pos hprint]
        split
        · exact quiet_ok nofun
        · exact quiet_status _
      · next hprint =>
        rw [if_neg hprint]
        split at h
        · next hwhile =>
          rw [if_pos hwhile]
          exact quiet_ok nofun
        · next hwhile =>
          rw [if_neg hwhile]
          split at h
          · next hif =>
            rw [if_pos hif]
            exact quiet_ok nofun
          · next hif =>
            rw [if_neg hif]
            split at h
            · next helse =>
              rw [if_pos helse]
              exact quiet_ok trivial
            · cases h

/-- A target of `lua_collect` that is a name of the tokenizer and is terminated: it fills the
name of the token, or a NUL was left behind it. -/
def LuaFits (stale u : List UInt8) : Prop :=
  Begins u ∧ (u.takeWhile isNameChar).length ≤ 16 ∧
    ((u.takeWhile isNameChar).length < 15 → stale.getD (u.takeWhile isNameChar).length 0 = 0)

theorem luaTarget_chars (stale u : List UInt8) :
    (luaTarget stale u).chars = (u.takeWhile isNameChar).take 15 ++
      cString ((stale.drop (u.takeWhile isNameChar).length).take
        (15 - (u.takeWhile isNameChar).length)) := by
  show cString _ = _
  unfold cString
  rw [List.take_append, List.takeWhile_append_of_pos]
  intro c hc
  have hchar := List.mem_takeWhile_imp (List.mem_of_mem_take hc)
  rw [decide_eq_true_eq]
  rintro rfl
  cases hchar

theorem luaTarget_eq_iff {stale u : List UInt8} :
    luaTarget stale u = nameAt u ↔
      ((u.takeWhile isNameChar).length < 15 → stale.getD (u.takeWhile isNameChar).length 0 = 0) := by
  have hchars : luaTarget stale u = nameAt u ↔ cString ((stale.drop
      (u.takeWhile isNameChar).length).take (15 - (u.takeWhile isNameChar).length)) = [] := by
    rw [Ident.mk.injEq, luaTarget_chars]
    exact List.append_right_eq_self
  rw [hchars]
  generalize (u.takeWhile isNameChar).length = k
  have hget : stale.getD k 0 = (stale.drop k).head?.getD 0 := by
    rw [List.head?_drop, List.getD_eq_getElem?_getD]
  rw [hget]
  cases stale.drop k with
  | nil => exact ⟨fun _ _ => rfl, fun _ => by rw [List.take_nil]; rfl⟩
  | cons c cs =>
    constructor
    · intro hnil hk
      rw [show 15 - k = (14 - k) + 1 by omega, List.take_succ_cons] at hnil
      by_contra hc
      have hne : c ≠ 0 := hc
      rw [cString, List.takeWhile_cons, if_pos (decide_eq_true hne)] at hnil
      cases hnil
    · intro hc
      cases hk : 15 - k with
      | zero => rfl
      | succ j =>
        rw [List.take_succ_cons, cString, List.takeWhile_cons_of_neg]
        rw [decide_eq_true_eq]
        exact fun hne => hne (hc (by omega))

/-! ## Both -/

/-- A classifier that scans the targets of assignments itself. -/
inductive Scanner where
  | js | lua
  deriving DecidableEq, Repr

/-- The loop body of a classifier. -/
def Scanner.line (stale : Nat → List UInt8) : Scanner → LineFn
  | .js => jsLine
  | .lua => luaLine stale

def Scanner.assigned : Scanner → List UInt8 → Option (List UInt8)
  | .js, line => jsAssigned (jsText line)
  | .lua, line => luaAssigned (luaText line)

/-- The target is a name of the tokenizer that the buffers hold, and it is terminated. -/
def Scanner.Fits (stale : List UInt8) : Scanner → List UInt8 → Prop
  | .js, u => JsFits u
  | .lua, u => LuaFits stale u

section Lines

variable {stale : Nat → List UInt8} {line u : List UInt8} {n indent : Nat} {P : StringPool}

theorem exact_of_quiet {r : LineResult} {found? : Except CollectStop Found}
    (hquiet : Quiet found?) (herr : ∀ e, found? = .error e → r = .error e)
    (hok : ∀ found, found? = .ok found → found.Other → r = finishLine n indent P found) :
    Exact r none := by
  cases found? with
  | error e =>
    rw [herr e rfl]
    constructor
    · intro h
      cases h
      exact hquiet.1 rfl
    · nofun
  | ok found =>
    rw [hok found rfl (hquiet.2 found rfl)]
    constructor
    · exact finishLine_inside
    · intro s P' h hkind
      exact absurd hkind (finishLine_other (hquiet.2 found rfl) h)

theorem not_exact_overrun {u? : Option (List UInt8)} : ¬ Exact (.error .overrun) u? :=
  fun h => h.1 rfl

theorem exact_assign_iff {x : Ident} {payload : List UInt8}
    (hacc : ∀ st, finishLine n indent P (.assign x payload) ≠ .error (.status st)) :
    Exact (finishLine n indent P (.assign x payload)) (some u) ↔ Begins u ∧ x = nameAt u := by
  cases hr : finishLine n indent P (.assign x payload) with
  | error e =>
    cases e with
    | status st => exact absurd hr (hacc st)
    | overrun => exact absurd hr finishLine_inside
  | ok r =>
    obtain ⟨s?, P'⟩ := r
    obtain ⟨s, rfl, hkind, hhead⟩ := finishLine_assign hr
    rw [← stores_iff hhead]
    constructor
    · rintro ⟨-, hall⟩
      obtain ⟨u', hu', hstores⟩ := hall s P' rfl hkind
      cases hu'
      exact hstores
    · intro hstores
      constructor
      · nofun
      · intro s' P'' h _
        cases h
        exact ⟨u, rfl, hstores⟩

/-- What `js_collect` makes of what it found on a line. -/
def jsFinish (n indent : Nat) (P : StringPool) : Except CollectStop Found → LineResult
  | .error e => .error e
  | .ok found => finishLine n indent P found

theorem jsLine_exact_iff (hacc : ∀ st, jsLine line n P ≠ .error (.status st)) :
    Exact (jsLine line n P) (jsAssigned (jsText line)) ↔
      ∀ u, jsAssigned (jsText line) = some u → JsFits u := by
  have hline : jsLine line n P =
      jsFinish n ((lineBuf line).length - (skipTabs (lineBuf line)).length) P
        (jsFound (jsText line)) := rfl
  cases hu : jsAssigned (jsText line) with
  | none =>
    have hexact : Exact (jsLine line n P) none := by
      apply exact_of_quiet (jsFound_of_not_assigned hu)
      · intro e he
        rw [hline, he, jsFinish]
      · intro found hfound _
        rw [hline, hfound, jsFinish]
    exact iff_of_true hexact fun _ h => by cases h
  | some u =>
    obtain ⟨e, hfound⟩ := jsFound_of_assigned hu
    rw [hfound] at hline
    have hone : (∀ u', some u = some u' → JsFits u') ↔ JsFits u :=
      ⟨fun h => h u rfl, fun h u' hu' => by cases hu'; exact h⟩
    rw [hone]
    cases hx : jsTarget u with
    | error err =>
      rw [hx] at hline
      cases err with
      | status st => exact absurd hline (hacc st)
      | overrun =>
        rw [hline]
        exact iff_of_false not_exact_overrun fun h => jsTarget_overrun.1 hx h.2
    | ok r =>
      obtain ⟨x, rest⟩ := r
      rw [hx] at hline
      obtain ⟨rfl, hlen⟩ := jsTarget_ok hx
      dsimp only [jsFinish] at hline
      rw [hline] at hacc ⊢
      rw [exact_assign_iff hacc, and_iff_left rfl, JsFits, and_iff_left hlen]

/-- What `lua_collect` makes of what it found in the text of a line. -/
def luaFinish (n indent : Nat) (P : StringPool) (text : List UInt8) :
    Except CollectStop Found → LineResult
  | .error e => .error e
  | .ok found =>
    match finishLine n indent P found with
    | .error e => .error e
    | .ok r => if luaOverrun text found then .error .overrun else .ok r

theorem luaLine_exact_iff (hacc : ∀ st, luaLine stale line n P ≠ .error (.status st)) :
    Exact (luaLine stale line n P) (luaAssigned (luaText line)) ↔
      ∀ u, luaAssigned (luaText line) = some u → LuaFits (stale n) u := by
  have hline : luaLine stale line n P =
      luaFinish n ((lineBuf line).length - (skipTabs (lineBuf line)).length) P (luaText line)
        (luaFound (stale n) (luaText line)) := rfl
  cases hu : luaAssigned (luaText line) with
  | none =>
    have hexact : Exact (luaLine stale line n P) none := by
      apply exact_of_quiet (@luaFound_of_not_assigned (stale n) _ hu)
      · intro e he
        rw [hline, he, luaFinish]
      · intro found hfound hother
        have hinside : luaOverrun (luaText line) found = false := by
          cases found with
          | skip => rfl
          | elseLine => rfl
          | assign target payload => exact hother.elim
          | other kind payload => rfl
        rw [hline, hfound]
        dsimp only [luaFinish]
        rw [hinside]
        cases hfinish : finishLine n _ P found with
        | error e => rfl
        | ok r => rfl
    exact iff_of_true hexact fun _ h => by cases h
  | some u =>
    have hone : (∀ u', some u = some u' → LuaFits (stale n) u') ↔ LuaFits (stale n) u :=
      ⟨fun h => h u rfl, fun h u' hu' => by cases hu'; exact h⟩
    rw [hone]
    obtain ⟨htext, hfound | hfound⟩ := @luaFound_of_assigned (stale n) _ _ hu
    · obtain ⟨payload, hfound⟩ := hfound
      have hover : luaOverrun (luaText line) (.assign (luaTarget (stale n) u) payload) =
          decide ((u.takeWhile isNameChar).length > 16) := by
        rw [htext]
        rfl
      rw [hfound] at hline
      dsimp only [luaFinish] at hline
      rw [hover] at hline
      by_cases hlen : (u.takeWhile isNameChar).length ≤ 16
      · rw [decide_eq_false (Nat.not_lt.2 hlen)] at hline
        have hfinish : luaLine stale line n P = finishLine n
            ((lineBuf line).length - (skipTabs (lineBuf line)).length) P
            (.assign (luaTarget (stale n) u) payload) := by
          rw [hline]
          cases finishLine n _ P (.assign (luaTarget (stale n) u) payload) with
          | error e => rfl
          | ok r => rfl
        rw [hfinish] at hacc ⊢
        rw [exact_assign_iff hacc, luaTarget_eq_iff, LuaFits, and_iff_right hlen]
      · rw [decide_eq_true (Nat.not_le.1 hlen)] at hline
        refine iff_of_false ?_ fun h => hlen h.2.1
        cases hfinish : finishLine n ((lineBuf line).length - (skipTabs (lineBuf line)).length) P
            (.assign (luaTarget (stale n) u) payload) with
        | error e =>
          rw [hfinish] at hline
          cases e with
          | status st => exact absurd hline (hacc st)
          | overrun => exact absurd hfinish finishLine_inside
        | ok r =>
          rw [hfinish] at hline
          rw [hline]
          exact not_exact_overrun
    · obtain ⟨st, hfound⟩ := hfound
      rw [hfound] at hline
      exact absurd hline (hacc st)

end Lines

/-- For every line that is not rejected: the target that is recorded is the identifier that
`py_tokenize` makes of the same characters, written inside the buffers, exactly when it is a name
that fits and is terminated. -/
theorem target_exact_iff (L : Scanner) (stale : Nat → List UInt8) (line : List UInt8) (n : Nat)
    (P : StringPool) (hacc : ∀ st, L.line stale line n P ≠ .error (.status st)) :
    Exact (L.line stale line n P) (L.assigned line) ↔
      ∀ u, L.assigned line = some u → L.Fits (stale n) u := by
  cases L with
  | js => exact jsLine_exact_iff hacc
  | lua => exact luaLine_exact_iff hacc

/-- A line with a short target. -/
theorem target_exact_iff_short :
    Exact (Scanner.js.line (fun _ => []) (ascii ['x', ' ', '=', ' ', '1']) 0 .empty)
        (Scanner.js.assigned (ascii ['x', ' ', '=', ' ', '1'])) ↔
      ∀ u, Scanner.js.assigned (ascii ['x', ' ', '=', ' ', '1']) = some u →
        Scanner.js.Fits [] u :=
  target_exact_iff .js (fun _ => []) (ascii ['x', ' ', '=', ' ', '1']) 0 .empty fun st h => by
    have hline : Scanner.js.line (fun _ => []) (ascii ['x', ' ', '=', ' ', '1']) 0 .empty =
        .ok (some ⟨0, .sAssign, [.ident (nameAt (ascii ['x'])), .num 1], by decide⟩, .empty) := rfl
    rw [hline] at h
    cases h

/-- The name of a token of `lua_collect` goes on with the characters that were there before. -/
theorem lua_target_not_terminated :
    ¬ ∀ L stale line n P, (∀ st, Scanner.line stale L line n P ≠ .error (.status st)) →
      Exact (Scanner.line stale L line n P) (L.assigned line) := by
  intro h
  have hline : Scanner.lua.line (fun _ => ascii ['a', 'b', 'c']) (ascii ['x', ' ', '=', ' ', '1'])
      0 .empty =
        .ok (some ⟨0, .sAssign, [.ident (luaTarget (ascii ['a', 'b', 'c'])
          (ascii ['x', ' ', '=', ' ', '1'])), .num 1], by decide⟩, .empty) := rfl
  have hexact := h .lua (fun _ => ascii ['a', 'b', 'c']) (ascii ['x', ' ', '=', ' ', '1']) 0 .empty
    fun st hst => by
      rw [hline] at hst
      cases hst
  rw [hline] at hexact
  obtain ⟨u, hu, x, hx, htoken, -⟩ := hexact.2 _ _ rfl rfl
  cases hu
  cases hx
  have hname := congrArg Ident.chars (tokenOf_iff.1 htoken).2
  revert hname
  decide

end Engines
