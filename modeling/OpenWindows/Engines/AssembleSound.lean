import OpenWindows.Engines.Assemble
import OpenWindows.Engines.Numbers
import Mathlib.Data.List.Forall2

/-!
# What the assembler emits

`items` reads a source text as a list of operations, operands and labels, without the pool and
without positions.  `assemble_correct` ties the words of a successful assembly to these items.
The two passes count operations in different code.  They agree because the second pass rejects
every text in which the first has skipped something that is not an operand.
-/

namespace Engines

/-! ## Source texts -/

/-- What a word of a source text says. -/
inductive Item where
  | op (o : Op)
  | num (v : BitVec 64)
  | lit (bytes : List UInt8)
  | label (name : List UInt8)
  | ref (name : List UInt8)
  /-- A word that is none of these. -/
  | bad
  deriving DecidableEq

/-- The bytes that the text of a literal stands for. -/
def decode : List UInt8 → List UInt8
  | [] => []
  | [c] => [c]
  | c :: d :: cs => if c = 92 then escaped d :: decode cs else c :: decode (d :: cs)

/-- What a token that is not a literal says.  A label is its name up to a NUL. -/
def MTok.item : MTok → Item
  | .op o => .op o
  | .num v => .num v
  | .str _ _ => .bad
  | .labdef name _ => .label (cString name)
  | .labref name => .ref (cString name)

def readWord (word : List UInt8) : Item :=
  match literalBody word with
  | some body => .lit (decode body)
  | none =>
    match mengWord word 0 with
    | .ok t => t.item
    | .error _ => .bad

/-- The words of a text, which ends at a NUL between two words. -/
def sourceWords : Nat → List UInt8 → List (List UInt8)
  | 0, _ => []
  | _ + 1, [] => []
  | n + 1, c :: cs =>
    if c = 0 then []
    else if isBlank c then sourceWords n cs
    else if isComment c then sourceWords n (cs.dropWhile (· ≠ 10))
    else (c :: cs).takeWhile isWordChar :: sourceWords n ((c :: cs).dropWhile isWordChar)

def items (src : List UInt8) : List Item := (sourceWords src.length src).map readWord

/-- Whether an item is an operation. -/
def Item.isOp : Item → Bool
  | .op _ => true
  | _ => false

/-- The number of operations. -/
def opCount (its : List Item) : Nat := its.countP Item.isOp

def operations : List Item → List (Op × Option Item)
  | [] => []
  | .op o :: rest => (o, if takesOperand o then rest.head? else none) :: operations rest
  | _ :: rest => operations rest

/-- The word of an operation and its operand. -/
inductive Carries (P : StringPool) (its : List Item) : Word → Op × Option Item → Prop
  | plain {o : Op} (h : takesOperand o = false) : Carries P its (Word.mk' o 0 0) (o, none)
  | num {o : Op} {v : BitVec 64} (h : takesOperand o = true) (hs : o ≠ .pushs) :
      Carries P its (Word.mk' o v 0) (o, some (.num v))
  | lit {a0 a1 : BitVec 64} {bytes : List UInt8} (hin : a0.toNat + a1.toNat ≤ P.bytes.length)
      (hbytes : P.slice a0.toNat a1.toNat = bytes) :
      Carries P its (Word.mk' .pushs a0 a1) (.pushs, some (.lit bytes))
  | ref {o : Op} {a0 : BitVec 64} {name : List UInt8} {pre post : List Item}
      (h : takesOperand o = true) (hs : o ≠ .pushs) (hfirst : its = pre ++ .label name :: post)
      (hnot : Item.label name ∉ pre) (hpc : a0.toNat = opCount pre) :
      Carries P its (Word.mk' o a0 0) (o, some (.ref name))

/-! ## Numbers and operations -/

variable {word : List UInt8} {v : BitVec 64}

theorem mengParseDec_eq (s : List UInt8) : mengParseDec s = (parseI64 s).toOption := by
  cases s with
  | nil => rfl
  | cons c cs =>
    by_cases hc : c = 45
    · subst hc
      cases cs with
      | nil => rfl
      | cons d ds =>
        simp only [mengParseDec, parseI64]
        cases parseDigits 0 (d :: ds) <;> rfl
    · simp [mengParseDec, parseI64, hc]

/-- The text of an integer is a number, modulo `2 ^ 64`, and no other word is. -/
theorem mengParseDec_iff :
    mengParseDec word = some v ↔ ∃ z, Numeral word z ∧ v = BitVec.ofInt 64 z := by
  rw [mengParseDec_eq, ← parseI64_ok_iff]
  cases parseI64 word with
  | error e => simp [Except.toOption]
  | ok u => simp [Except.toOption]

theorem mengOps_lower : ∀ e ∈ mengOps, e.1.map lower = e.1 := by decide

theorem mengOps_unique : ∀ e ∈ mengOps, ∀ f ∈ mengOps, e.1 = f.1 → e = f := by decide

/-- An operation is written as in `meng_ops`, in letters of either case. -/
theorem mengOpLookup_iff {o : Op} : mengOpLookup word = some o ↔ (word.map lower, o) ∈ mengOps := by
  have hfind : ∀ {e}, (mengOps.find? fun e => e.1.map lower == word.map lower) = some e →
      e ∈ mengOps ∧ e.1 = word.map lower := by
    intro e he
    have hmem := List.mem_of_find?_eq_some he
    have hname := List.find?_some he
    rw [beq_iff_eq, mengOps_lower e hmem] at hname
    exact ⟨hmem, hname⟩
  rw [mengOpLookup, Option.map_eq_some_iff]
  constructor
  · rintro ⟨e, he, rfl⟩
    obtain ⟨hmem, hname⟩ := hfind he
    exact hname ▸ hmem
  · intro hmem
    cases he : mengOps.find? fun e => e.1.map lower == word.map lower with
    | none =>
      have hne := List.find?_eq_none.1 he _ hmem
      simp [mengOps_lower _ hmem] at hne
    | some e =>
      obtain ⟨hmem', hname⟩ := hfind he
      exact ⟨e, rfl, congrArg Prod.snd (mengOps_unique e hmem' _ hmem hname)⟩

/-! ## Tokens and items -/

/-- What a token says with the literals in the pool. -/
inductive Says (P : StringPool) : MTok → Item → Prop
  | op (o : Op) : Says P (.op o) (.op o)
  | num (v : BitVec 64) : Says P (.num v) (.num v)
  | lit {off len : Nat} {bytes : List UInt8} (hin : off + len ≤ P.bytes.length)
      (hbytes : P.slice off len = bytes) : Says P (.str off len) (.lit bytes)
  | label (name : List UInt8) (pc : Nat) : Says P (.labdef name pc) (.label (cString name))
  | ref (name : List UInt8) : Says P (.labref name) (.ref (cString name))

variable {P P' : StringPool}

theorem storeLiteral_bytes {body : List UInt8} (h : storeLiteral P body = some P') :
    P'.bytes = P.bytes ++ decode body := by
  induction P, body using storeLiteral.induct with
  | case1 P =>
    cases h
    exact (List.append_nil _).symm
  | case2 P c => exact push_bytes h
  | case3 P d cs ih =>
    rw [storeLiteral, if_pos rfl] at h
    obtain ⟨P₁, hpush, hrest⟩ := Option.bind_eq_some_iff.1 h
    rw [ih P₁ hrest, push_bytes hpush, decode, if_pos rfl, List.append_assoc,
      List.singleton_append]
  | case4 P c d cs hc ih =>
    rw [storeLiteral, if_neg hc] at h
    obtain ⟨P₁, hpush, hrest⟩ := Option.bind_eq_some_iff.1 h
    rw [ih P₁ hrest, push_bytes hpush, decode, if_neg hc, List.append_assoc,
      List.singleton_append]

variable {t : MTok} {name : List UInt8} {o : Op} {tk : List MTok}

theorem Says.mono {it : Item} {bs : List UInt8} (h : Says P t it)
    (hP : P'.bytes = P.bytes ++ bs) : Says P' t it := by
  cases h with
  | op o => exact .op o
  | num v => exact .num v
  | lit hin hbytes =>
    refine .lit ?_ ((slice_of_append hP hin).trans hbytes)
    rw [hP, List.length_append]
    omega
  | label name pc => exact .label name pc
  | ref name => exact .ref name

variable {pc cap w : Nat}

theorem nameToken_item {isLabel : Bool} (h : nameToken isLabel name pc = .ok t) :
    Says P t t.item ∧ ∃ t₀, nameToken isLabel name 0 = .ok t₀ ∧ t₀.item = t.item := by
  unfold nameToken at h ⊢
  split at h
  · cases h
  · next hlen =>
    rw [if_neg hlen]
    cases isLabel with
    | true =>
      rw [if_pos rfl] at h ⊢
      split at h
      · cases h
      · next hne =>
        cases h
        rw [if_neg hne]
        exact ⟨.label _ _, _, rfl, rfl⟩
    | false =>
      rw [if_neg Bool.false_ne_true] at h ⊢
      cases hnum : mengParseDec name with
      | some v =>
        rw [hnum] at h
        cases h
        exact ⟨.num v, _, rfl, rfl⟩
      | none =>
        rw [hnum] at h
        dsimp only at h ⊢
        cases hop : mengOpLookup name with
        | some o =>
          rw [hop] at h
          cases h
          exact ⟨.op o, _, rfl, rfl⟩
        | none =>
          rw [hop] at h
          dsimp only at h ⊢
          split at h
          · cases h
          · next hne =>
            cases h
            rw [if_neg hne]
            exact ⟨.ref _, _, rfl, rfl⟩

theorem mengWord_item {word : List UInt8} (h : mengWord word pc = .ok t) :
    Says P t t.item ∧ ∃ t₀, mengWord word 0 = .ok t₀ ∧ t₀.item = t.item := by
  unfold mengWord at h ⊢
  split at h
  · next hlast =>
    rw [if_pos hlast]
    exact nameToken_item h
  · next hlast =>
    rw [if_neg hlast]
    exact nameToken_item h

theorem mengToken_reads {word : List UInt8} (h : mengToken word P pc = .ok (t, P')) :
    Says P' t (readWord word) ∧ ∃ bs, P'.bytes = P.bytes ++ bs := by
  unfold mengToken at h
  unfold readWord
  cases hbody : literalBody word with
  | some body =>
    rw [hbody] at h
    dsimp only at h ⊢
    cases hstore : storeLiteral P body with
    | none =>
      rw [hstore] at h
      cases h
    | some P₁ =>
      rw [hstore] at h
      cases h
      have hbytes := storeLiteral_bytes hstore
      have hlen : P'.bytes.length - P.bytes.length = (decode body).length := by
        rw [hbytes, List.length_append, Nat.add_sub_cancel_left]
      refine ⟨.lit ?_ ?_, _, hbytes⟩
      · rw [hlen, hbytes, List.length_append]
      · rw [hlen]
        exact slice_appended hbytes
  | none =>
    rw [hbody] at h
    dsimp only at h ⊢
    cases hword : mengWord word pc with
    | error e =>
      rw [hword] at h
      cases h
    | ok t₁ =>
      rw [hword] at h
      cases h
      obtain ⟨hmeans, t₀, h0, hitem⟩ := mengWord_item (P := P) hword
      rw [h0]
      dsimp only
      rw [hitem]
      exact ⟨hmeans, [], (List.append_nil _).symm⟩

theorem tokenizeLoop_reads {n : Nat} {cs : List UInt8} {st st' : TokState}
    (h : tokenizeLoop cap n cs st = .ok st') :
    ∃ toks bs, st'.toks = st.toks ++ toks ∧ st'.pool.bytes = st.pool.bytes ++ bs ∧
      st'.pc = st.pc + toks.length ∧
      List.Forall₂ (Says st'.pool) toks ((sourceWords n cs).map readWord) := by
  induction n generalizing cs st with
  | zero =>
    cases h
    exact ⟨[], [], (List.append_nil _).symm, (List.append_nil _).symm, rfl, .nil⟩
  | succ n ih =>
    cases cs with
    | nil =>
      cases h
      exact ⟨[], [], (List.append_nil _).symm, (List.append_nil _).symm, rfl, .nil⟩
    | cons c cs =>
      unfold tokenizeLoop at h
      unfold sourceWords
      split at h
      · next h0 =>
        cases h
        rw [if_pos h0]
        exact ⟨[], [], (List.append_nil _).symm, (List.append_nil _).symm, rfl, .nil⟩
      · next h0 =>
        rw [if_neg h0]
        split at h
        · next hblank =>
          rw [if_pos hblank]
          exact ih h
        · next hblank =>
          rw [if_neg hblank]
          split at h
          · next hcomment =>
            rw [if_pos hcomment]
            exact ih h
          · next hcomment =>
            rw [if_neg hcomment]
            split at h
            · cases h
            · split at h
              · cases h
              · next t P htok =>
                obtain ⟨hmeans, bs, hbytes⟩ := mengToken_reads htok
                obtain ⟨toks, bs', htoks, hpool, hpc, hall⟩ := ih h
                refine ⟨t :: toks, bs ++ bs', ?_, ?_, ?_, .cons (hmeans.mono hpool) hall⟩
                · rw [htoks, List.append_assoc, List.singleton_append]
                · rw [hpool, hbytes, List.append_assoc]
                · rw [hpc, List.length_cons, Nat.add_assoc, Nat.add_comm 1]

/-! ## The two passes -/

/-- The tokens with every label definition numbered by the operations before it. -/
def relabel : Nat → List MTok → List MTok
  | _, [] => []
  | w, .op o :: rest => .op o :: relabel (w + 1) rest
  | w, .labdef name _ :: rest => .labdef name w :: relabel w rest
  | w, t :: rest => t :: relabel w rest

/-- What the second pass emits for an operation, over the tokens `tk`. -/
inductive Emits (P : StringPool) (tk : List MTok) : Word → Op × Option Item → Prop
  | plain {o : Op} (h : takesOperand o = false) : Emits P tk (Word.mk' o 0 0) (o, none)
  | num {o : Op} {v : BitVec 64} (h : takesOperand o = true) (hs : o ≠ .pushs) :
      Emits P tk (Word.mk' o v 0) (o, some (.num v))
  | lit {off len : Nat} {bytes : List UInt8} (hin : off + len ≤ P.bytes.length)
      (hbytes : P.slice off len = bytes) :
      Emits P tk (Word.mk' .pushs (BitVec.ofNat 64 off) (BitVec.ofNat 64 len))
        (.pushs, some (.lit bytes))
  | ref {o : Op} {pc : Nat} {name : List UInt8} (h : takesOperand o = true) (hs : o ≠ .pushs)
      (hpc : mengLabelPc tk name = some pc) :
      Emits P tk (Word.mk' o (BitVec.ofNat 64 pc) 0) (o, some (.ref (cString name)))

theorem operandOf_emits {it : Item} {a0 a1 : BitVec 64}
    (ho : takesOperand o = true) (hmeans : Says P t it) (h : operandOf tk o t = .ok (a0, a1)) :
    Emits P tk (Word.mk' o a0 a1) (o, some it) ∧
      (∀ w rest, relabel w (t :: rest) = t :: relabel w rest) ∧ it.isOp = false ∧
      (∀ rest, operations (it :: rest) = operations rest) ∧
      (∀ n, it = .ref n → ∃ name pc, cString name = n ∧ mengLabelPc tk name = some pc) := by
  unfold operandOf at h
  split at h
  · next hpushs =>
    cases hpushs
    cases hmeans with
    | lit hin hbytes =>
      cases h
      exact ⟨.lit hin hbytes, fun _ _ => rfl, rfl, fun _ => rfl, fun _ h => by cases h⟩
    | op o => cases h
    | num v => cases h
    | label name pc => cases h
    | ref name => cases h
  · next hs =>
    cases hmeans with
    | lit hin hbytes => cases h
    | op o => cases h
    | num v =>
      cases h
      exact ⟨.num ho hs, fun _ _ => rfl, rfl, fun _ => rfl, fun _ h => by cases h⟩
    | label name pc => cases h
    | ref name =>
      dsimp only at h
      cases hpc : mengLabelPc tk name with
      | none =>
        rw [hpc] at h
        cases h
      | some pc =>
        rw [hpc] at h
        cases h
        refine ⟨.ref ho hs hpc, fun _ _ => rfl, rfl, fun _ => rfl, fun n heq => ?_⟩
        cases heq
        exact ⟨name, pc, rfl, hpc⟩

theorem prepass_plain (ho : ¬ takesOperand o = true) (w : Nat) (rest : List MTok) :
    prepass w (.op o :: rest) = (prepass (w + 1) rest).map (.op o :: ·) := by
  conv_lhs => unfold prepass
  exact if_neg ho

theorem emitWords_plain (ho : ¬ takesOperand o = true) (tk rest : List MTok) :
    emitWords tk (.op o :: rest) = (emitWords tk rest).map (Word.mk' o 0 0 :: ·) := by
  conv_lhs => unfold emitWords
  exact if_neg ho

variable {its : List Item} {toks : List MTok}

theorem passes_emit {toks' : List MTok}
    {words : List Word} (hmeans : List.Forall₂ (Says P) toks its)
    (hpre : prepass w toks = .ok toks') (hemit : emitWords tk toks' = .ok words) :
    toks' = relabel w toks ∧ words.length = opCount its ∧
      List.Forall₂ (Emits P tk) words (operations its) ∧
      ∀ n, .ref n ∈ its → ∃ name pc, cString name = n ∧ mengLabelPc tk name = some pc := by
  induction w, toks using prepass.induct generalizing toks' its words with
  | case1 w =>
    cases hmeans
    cases hpre
    cases hemit
    exact ⟨rfl, rfl, .nil, fun n hn => by cases hn⟩
  | case2 w o ho =>
    rw [prepass, if_pos ho] at hpre
    cases hpre
    rw [emitWords, if_pos ho] at hemit
    cases hemit
  | case3 w o ho t rest ih =>
    rw [prepass, if_pos ho] at hpre
    cases hmeans with
    | cons hop hmeans =>
      cases hop
      cases hmeans with
      | @cons _ it _ its ht hmeans =>
        cases hrest : prepass (w + 1) rest with
        | error e =>
          rw [hrest] at hpre
          cases hpre
        | ok rest' =>
          rw [hrest] at hpre
          cases hpre
          rw [emitWords, if_pos ho] at hemit
          cases hoperand : operandOf tk o t with
          | error e =>
            rw [hoperand] at hemit
            cases hemit
          | ok a =>
            rw [hoperand] at hemit
            dsimp only at hemit
            cases hwords : emitWords tk rest' with
            | error e =>
              rw [hwords] at hemit
              cases hemit
            | ok words' =>
              rw [hwords] at hemit
              cases hemit
              obtain ⟨hemits, hrelabel, hisOp, hops, href⟩ :=
                operandOf_emits ho ht hoperand
              obtain ⟨heq, hlen, hall, hrefs⟩ := ih hmeans hrest hwords
              refine ⟨?_, ?_, ?_, ?_⟩
              · rw [relabel, hrelabel, ← heq]
              · rw [List.length_cons, hlen, opCount, opCount]
                rw [List.countP_cons_of_pos rfl,
                  List.countP_cons_of_neg (by rw [hisOp]; exact Bool.false_ne_true)]
              · rw [operations, if_pos ho, hops]
                exact .cons hemits hall
              · intro n hn
                cases hn with
                | tail _ hn =>
                  cases hn with
                  | head => exact href n rfl
                  | tail _ hn => exact hrefs n hn
  | case4 w o rest ho ih =>
    rw [prepass_plain ho] at hpre
    cases hmeans with
    | @cons _ _ _ its hop hmeans =>
      cases hop
      cases hrest : prepass (w + 1) rest with
      | error e =>
        rw [hrest] at hpre
        cases hpre
      | ok rest' =>
        rw [hrest] at hpre
        cases hpre
        rw [emitWords_plain ho] at hemit
        cases hwords : emitWords tk rest' with
        | error e =>
          rw [hwords] at hemit
          cases hemit
        | ok words' =>
          rw [hwords] at hemit
          cases hemit
          obtain ⟨heq, hlen, hall, hrefs⟩ := ih hmeans hrest hwords
          refine ⟨?_, ?_, ?_, ?_⟩
          · rw [relabel, ← heq]
          · rw [List.length_cons, hlen, opCount, opCount, List.countP_cons_of_pos rfl]
          · rw [operations, if_neg ho]
            exact .cons (.plain (Bool.not_eq_true _ ▸ ho)) hall
          · intro n hn
            cases hn with
            | tail _ hn => exact hrefs n hn
  | case5 w name pc rest ih =>
    rw [prepass] at hpre
    cases hmeans with
    | @cons _ _ _ its hlabel hmeans =>
      cases hlabel
      cases hrest : prepass w rest with
      | error e =>
        rw [hrest] at hpre
        cases hpre
      | ok rest' =>
        rw [hrest] at hpre
        cases hpre
        rw [emitWords] at hemit
        obtain ⟨heq, hlen, hall, hrefs⟩ := ih hmeans hrest hemit
        refine ⟨?_, ?_, ?_, ?_⟩
        · rw [relabel, ← heq]
        · rw [hlen, opCount, opCount, List.countP_cons_of_neg Bool.false_ne_true]
        · exact hall
        · intro n hn
          cases hn with
          | tail _ hn => exact hrefs n hn
  | case6 w t rest hop hlab =>
    rw [prepass] at hpre
    · cases hpre
    · exact hop
    · exact hlab

/-! ## Labels -/

theorem opCount_cons (it : Item) (its : List Item) :
    opCount (it :: its) = opCount its + if it.isOp then 1 else 0 := List.countP_cons

theorem mengLabelPc_cons (h : ∀ label pc, t = .labdef label pc → cString label ≠ cString name) :
    mengLabelPc (t :: tk) name = mengLabelPc tk name := by
  unfold mengLabelPc
  rw [List.findSome?_cons]
  cases t with
  | labdef label pc =>
    dsimp only
    rw [if_neg (h label pc rfl)]
  | _ => rfl

theorem mengLabelPc_relabel (hmeans : List.Forall₂ (Says P) toks its)
    (h : mengLabelPc (relabel w toks) name = some pc) :
    ∃ pre post, its = pre ++ .label (cString name) :: post ∧
      Item.label (cString name) ∉ pre ∧ pc = w + opCount pre := by
  induction hmeans generalizing w with
  | nil => cases h
  | @cons t it toks its ht hrest ih =>
    have hskip : ∀ {w' : Nat}, it ≠ .label (cString name) →
        mengLabelPc (relabel w' toks) name = some pc → w' = w + (if it.isOp then 1 else 0) →
        ∃ pre post, it :: its = pre ++ .label (cString name) :: post ∧
          Item.label (cString name) ∉ pre ∧ pc = w + opCount pre := by
      intro w' hne hfind hw
      obtain ⟨pre, post, heq, hnot, hpc⟩ := ih hfind
      refine ⟨it :: pre, post, ?_, ?_, ?_⟩
      · rw [heq, List.cons_append]
      · intro hmem
        cases hmem with
        | head => exact hne rfl
        | tail _ hmem => exact hnot hmem
      · rw [opCount_cons, hpc, hw]
        omega
    cases ht with
    | op o =>
      rw [relabel, mengLabelPc_cons (fun _ _ h => by cases h)] at h
      exact hskip (fun h => by cases h) h rfl
    | num v | lit hin hbytes | ref n =>
      rw [relabel, mengLabelPc_cons (fun _ _ h => by cases h)] at h
      · exact hskip (fun h => by cases h) h rfl
      · exact fun _ h => by cases h
      · exact fun _ _ h => by cases h
    | label label pc₀ =>
      by_cases hname : cString label = cString name
      · refine ⟨[], its, ?_, List.not_mem_nil, ?_⟩
        · rw [hname, List.nil_append]
        · rw [relabel, mengLabelPc, List.findSome?_cons] at h
          dsimp only at h
          rw [if_pos hname] at h
          exact (Option.some.inj h).symm
      · rw [relabel, mengLabelPc_cons] at h
        · exact hskip (fun heq => hname (Item.label.inj heq)) h rfl
        · intro label' pc' heq
          cases heq
          exact hname

theorem Emits.carries {w : Word} {p : Op × Option Item}
    (hmeans : List.Forall₂ (Says P) toks its) (hle : its.length ≤ kWords)
    (h : Emits P (relabel 0 toks) w p) : Carries P its w p := by
  cases h with
  | plain ho => exact .plain ho
  | num ho hs => exact .num ho hs
  | @lit off len bytes hin hbytes =>
    have hfits := P.fits
    have hsmall : poolSize < 2 ^ 64 := by decide
    have hoff : (BitVec.ofNat 64 off).toNat = off := by
      rw [BitVec.toNat_ofNat]
      exact Nat.mod_eq_of_lt (by omega)
    have hlen : (BitVec.ofNat 64 len).toNat = len := by
      rw [BitVec.toNat_ofNat]
      exact Nat.mod_eq_of_lt (by omega)
    refine .lit ?_ ?_
    · rw [hoff, hlen]
      exact hin
    · rw [hoff, hlen]
      exact hbytes
  | ref ho hs hpc =>
    obtain ⟨pre, post, heq, hnot, hval⟩ := mengLabelPc_relabel hmeans hpc
    refine .ref ho hs heq hnot ?_
    have hcount : opCount pre ≤ pre.length := List.countP_le_length
    have hsmall : kWords < 2 ^ 64 := by decide
    rw [heq, List.length_append] at hle
    rw [BitVec.toNat_ofNat, hval, Nat.zero_add]
    exact Nat.mod_eq_of_lt (by omega)

/-! ## The assembler -/

variable {e : Status}

theorem map_error {α β : Type} {x : Except Status α} {f : α → β}
    (h : x.map f = .error e) : x = .error e := by
  cases x with
  | error e' =>
    cases h
    rfl
  | ok a => cases h

theorem prepass_error (h : prepass w toks = .error e) : e = .errSyntax := by
  induction w, toks using prepass.induct with
  | case1 w => cases h
  | case2 w o ho =>
    rw [prepass, if_pos ho] at h
    cases h
  | case3 w o ho t rest ih =>
    rw [prepass, if_pos ho] at h
    exact ih (map_error h)
  | case4 w o rest ho ih =>
    rw [prepass_plain ho] at h
    exact ih (map_error h)
  | case5 w name pc rest ih =>
    rw [prepass] at h
    exact ih (map_error h)
  | case6 w t rest hop hlab =>
    rw [prepass] at h
    · cases h
      rfl
    · exact hop
    · exact hlab

theorem operandOf_error (h : operandOf tk o t = .error e) : e = .errSyntax := by
  unfold operandOf at h
  split at h
  · split at h
    · cases h
    · cases h
      rfl
  · split at h
    · cases h
    · split at h
      · cases h
        rfl
      · cases h
    · cases h
      rfl

theorem emitWords_error (h : emitWords tk toks = .error e) : e = .errSyntax := by
  induction toks using emitWords.induct tk with
  | case1 => cases h
  | case2 o ho =>
    rw [emitWords, if_pos ho] at h
    cases h
    rfl
  | case3 o ho t rest e' hoperand =>
    rw [emitWords, if_pos ho, hoperand] at h
    cases h
    exact operandOf_error hoperand
  | case4 o ho t rest a0 a1 hoperand ih =>
    rw [emitWords, if_pos ho, hoperand] at h
    exact ih (map_error h)
  | case5 o rest ho ih =>
    rw [emitWords_plain ho] at h
    exact ih (map_error h)
  | case6 name pc rest ih =>
    rw [emitWords] at h
    exact ih h
  | case7 t rest hop hlab =>
    rw [emitWords] at h
    · cases h
      rfl
    · exact hop
    · exact hlab

theorem mengKernelAssemble_eq {src : List UInt8} {st : TokState} (hpos : 0 < cap)
    (hcap : cap ≤ kWords) (htok : mengKernelTokenize src maxTokens = .ok st)
    (hfit : st.pc ≤ cap) :
    mengKernelAssemble src cap =
      match prepass 0 st.toks with
      | .error e => .error e
      | .ok tk =>
        match emitWords tk tk with
        | .error e => .error e
        | .ok words => .ok (words, st.pool) := by
  unfold mengKernelAssemble
  rw [if_neg (by omega), htok]
  exact if_neg (Nat.not_lt.2 hfit)

theorem mengKernelAssemble_ok {src : List UInt8} {words : List Word}
    (h : mengKernelAssemble src cap = .ok (words, P)) :
    0 < cap ∧ cap ≤ kWords ∧ ∃ st, mengKernelTokenize src maxTokens = .ok st ∧ st.pc ≤ cap := by
  unfold mengKernelAssemble at h
  split at h
  · cases h
  · next hcap =>
    rw [not_or, not_lt] at hcap
    refine ⟨Nat.pos_of_ne_zero hcap.1, hcap.2, ?_⟩
    split at h
    · cases h
    · next st hst =>
      split at h
      · cases h
      · next hfit => exact ⟨st, hst, Nat.not_lt.1 hfit⟩

/-- An assembly that succeeds emits a word for each operation, and each word carries its
operation and operand.  A text of at most `cap` tokens that refers to a label without a
definition is rejected. -/
theorem assemble_correct (src : List UInt8) (cap : Nat) :
    (∀ words P, mengKernelAssemble src cap = .ok (words, P) →
      words.length ≤ cap ∧ words.length = opCount (items src) ∧
        List.Forall₂ (Carries P (items src)) words (operations (items src))) ∧
    (∀ st, 0 < cap → cap ≤ kWords → mengKernelTokenize src maxTokens = .ok st → st.pc ≤ cap →
      (∃ name, .ref name ∈ items src ∧ .label name ∉ items src) →
      mengKernelAssemble src cap = .error .errSyntax) := by
  have hboth : ∀ st, 0 < cap → cap ≤ kWords → mengKernelTokenize src maxTokens = .ok st →
      st.pc ≤ cap → ∀ tk words, prepass 0 st.toks = .ok tk → emitWords tk tk = .ok words →
      words.length ≤ cap ∧ words.length = opCount (items src) ∧
        List.Forall₂ (Carries st.pool (items src)) words (operations (items src)) ∧
        ∀ n, .ref n ∈ items src → .label n ∈ items src := by
    intro st hpos hcap htok hfit tk words hpre hemit
    obtain ⟨toks, bs, htoks, -, hpc, hmeans⟩ := tokenizeLoop_reads htok
    rw [List.nil_append] at htoks
    rw [Nat.zero_add] at hpc
    rw [htoks] at hpre
    change List.Forall₂ (Says st.pool) toks (items src) at hmeans
    have hlength : (items src).length = toks.length := hmeans.length_eq.symm
    obtain ⟨rfl, hlen, hall, hrefs⟩ := passes_emit hmeans hpre hemit
    have hcount : opCount (items src) ≤ (items src).length := List.countP_le_length
    refine ⟨by omega, hlen, ?_, fun n hn => ?_⟩
    · exact hall.imp fun w p h => h.carries hmeans (by omega)
    · obtain ⟨name, pc, hname, hfind⟩ := hrefs n hn
      obtain ⟨pre, post, heq, -, -⟩ := mengLabelPc_relabel hmeans hfind
      rw [heq, hname]
      exact List.mem_append_right _ List.mem_cons_self
  constructor
  · intro words P h
    obtain ⟨hpos, hcap, st, htok, hfit⟩ := mengKernelAssemble_ok h
    rw [mengKernelAssemble_eq hpos hcap htok hfit] at h
    split at h
    · cases h
    · next tk hpre =>
      split at h
      · cases h
      · next words' hemit =>
        cases h
        obtain ⟨hle, hlen, hall, -⟩ := hboth st hpos hcap htok hfit tk words hpre hemit
        exact ⟨hle, hlen, hall⟩
  · rintro st hpos hcap htok hfit ⟨name, href, hlabel⟩
    rw [mengKernelAssemble_eq hpos hcap htok hfit]
    split
    · next e hpre => rw [prepass_error hpre]
    · next tk hpre =>
      split
      · next e hemit => rw [emitWords_error hemit]
      · next words hemit =>
        obtain ⟨-, -, -, hrefs⟩ := hboth st hpos hcap htok hfit tk words hpre hemit
        exact absurd (hrefs name href) hlabel

/-- A text of two tokens that refers to an unknown label is not a syntax error for a buffer of
one word. -/
theorem undefined_label_short :
    ¬ ∀ (src : List UInt8) (cap : Nat),
      (∃ name, .ref name ∈ items src ∧ .label name ∉ items src) →
      mengKernelAssemble src cap = .error .errSyntax := by
  intro h
  have hshort : mengKernelAssemble (ascii ['j', 'm', 'p', ' ', 'x']) 1 = .error .errShortOut := rfl
  have hsyntax := h (ascii ['j', 'm', 'p', ' ', 'x']) 1 ⟨[120], by decide, by decide⟩
  rw [hshort] at hsyntax
  cases hsyntax

end Engines
