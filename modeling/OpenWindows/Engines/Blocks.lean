import Mathlib.Data.List.TakeWhile
import OpenWindows.Engines.CompileSound

/-!
# Blocks by indentation

`Denotes stmts p` says what a list of statements means, independently of how it
is compiled.  The block of a statement is the run of statements behind it that
are indented deeper, and an `else` belongs to an `if` when it is the first
statement behind the block of the `if` and has the same indentation.

The compilers of `managedjs` and `managedlua` read a list this way
(`Nests.denotes`), and all readings of a list have the same code
(`Denotes.code_unique`).
-/

namespace Engines

/-- Indented deeper than `d`. -/
def deeper (d : Int) (t : Stmt) : Bool := decide ((t.indent : Int) > d)

/-- The block of `s` at the head of the statements behind it. -/
def inner (s : Stmt) (l : List Stmt) : List Stmt := l.takeWhile (deeper s.indent)

/-- The statements behind the block of `s`. -/
def outer (s : Stmt) (l : List Stmt) : List Stmt := l.dropWhile (deeper s.indent)

/-- `e` is the `else` of `s`. -/
def ElseOf (s e : Stmt) : Prop := e.kind = .sElse ∧ e.indent = s.indent

/-- The statements, nested by their indentation, are the program `p`. -/
inductive Denotes : List Stmt → Prog → Prop where
  | nil : Denotes [] .done
  | assign {s : Stmt} {ss : List Stmt} {x : Ident} {c : Cond} {p : Prog}
      (kind : s.kind = .sAssign) (text : s.tk = .ident x :: c.yield)
      (next : Denotes ss p) : Denotes (s :: ss) (.assign x c p)
  | print {s : Stmt} {ss : List Stmt} {c : Cond} {p : Prog}
      (kind : s.kind = .sPrint) (text : s.tk = c.yield)
      (next : Denotes ss p) : Denotes (s :: ss) (.print c p)
  | printStr {s : Stmt} {ss : List Stmt} {so sl : UInt32} {p : Prog}
      (kind : s.kind = .sPrint) (text : s.tk.head? = some (.str so sl))
      (next : Denotes ss p) : Denotes (s :: ss) (.printStr so sl p)
  | loop {s : Stmt} {ss : List Stmt} {c : Cond} {b p : Prog}
      (kind : s.kind = .sWhile) (text : s.tk = c.yield)
      (body : Denotes (inner s ss) b) (next : Denotes (outer s ss) p) :
      Denotes (s :: ss) (.loop c b p)
  | when {s : Stmt} {ss : List Stmt} {c : Cond} {b p : Prog}
      (kind : s.kind = .sIf) (text : s.tk = c.yield)
      (body : Denotes (inner s ss) b) (noElse : ∀ e ∈ (outer s ss).head?, ¬ ElseOf s e)
      (next : Denotes (outer s ss) p) : Denotes (s :: ss) (.when c b p)
  | cond {s e : Stmt} {ss rest : List Stmt} {c : Cond} {b a p : Prog}
      (kind : s.kind = .sIf) (text : s.tk = c.yield)
      (body : Denotes (inner s ss) b) (split : outer s ss = e :: rest) (hasElse : ElseOf s e)
      (alt : Denotes (inner s rest) a) (next : Denotes (outer s rest) p) :
      Denotes (s :: ss) (.cond c b a p)

/-! ## The compilers read blocks by indentation -/

section

variable {d d' : Int} {l : List Stmt}

theorem deeper_of_lt {t : Stmt} (h : d < t.indent) : deeper d t = true := by
  simpa [deeper] using h

theorem deeper_of_deeper (h : d ≤ d') {t : Stmt} (ht : deeper d' t = true) : deeper d t = true := by
  simp only [deeper, decide_eq_true_eq] at *
  omega

theorem takeWhile_deeper (h : d ≤ d') (l : List Stmt) :
    (l.takeWhile (deeper d)).takeWhile (deeper d') = l.takeWhile (deeper d') := by
  induction l with
  | nil => rfl
  | cons t l ih =>
    by_cases ht : deeper d' t = true
    · simp [deeper_of_deeper h ht, ht, ih]
    · by_cases hd : deeper d t = true
      · simp [hd, ht]
      · simp [hd, ht]

theorem dropWhile_deeper (h : d ≤ d') (l : List Stmt) :
    (l.takeWhile (deeper d)).dropWhile (deeper d') =
      (l.dropWhile (deeper d')).takeWhile (deeper d) := by
  induction l with
  | nil => rfl
  | cons t l ih =>
    by_cases ht : deeper d' t = true
    · simp [deeper_of_deeper h ht, ht, ih]
    · by_cases hd : deeper d t = true
      · simp [hd, ht]
      · simp [hd, ht]

theorem dropWhile_dropWhile (h : d ≤ d') (l : List Stmt) :
    (l.dropWhile (deeper d')).dropWhile (deeper d) = l.dropWhile (deeper d) := by
  induction l with
  | nil => rfl
  | cons t l ih =>
    by_cases ht : deeper d' t = true
    · simp [deeper_of_deeper h ht, ht, ih]
    · simp [ht]

end

theorem takeWhile_deeper_top (l : List Stmt) : l.takeWhile (deeper (-1)) = l := by
  rw [List.takeWhile_eq_self_iff]
  intro s _
  simp only [deeper, decide_eq_true_eq]
  omega

theorem Reads.drop_eq {s : Stmt} {lo : Nat} {c : Cond} (h : Reads s.tk lo (s.hi 1) c) :
    s.tk.drop lo = c.yield := by
  obtain ⟨⟨pre, post, htk, hlen⟩, hwhole⟩ := h
  have hfits := s.fits
  have htot : s.tk.length = lo + c.yield.length + post.length := by
    rw [htk]
    simp only [List.length_append]
    omega
  have hpost : post = [] := by
    apply List.eq_nil_of_length_eq_zero
    simp only [Stmt.hi, pyMaxTok] at *
    omega
  rw [htk, hpost, List.append_nil, ← hlen, List.drop_left]

theorem jsFront_target {tk : List Tok} {x : Ident} (h : jsFront.target tk = some x) :
    ∃ tk', tk = .ident x :: tk' := by
  simp only [jsFront] at h
  split at h
  · cases h
  · cases tk with
    | nil => cases h
    | cons k tk' =>
      cases k with
      | ident y =>
        cases h
        exact ⟨tk', rfl⟩
      | num | op | str => cases h

theorem jsFront_takeElse {s : Stmt} {l : List Stmt} :
    takeElse jsFront s l = none ↔ ∀ e ∈ l.head?, ¬ ElseOf s e := by
  cases l with
  | nil => simp [takeElse]
  | cons e l => simp [takeElse, jsFront, ElseOf]

/-- A front-end that takes an `else` of the same indentation only. -/
def Front.Aligned (F : Front) : Prop := ∀ s e, F.owns s e = true → ElseOf s e

theorem jsFront_aligned : jsFront.Aligned := by
  intro s e h
  simpa [jsFront, ElseOf] using h

theorem Nests.rest_eq {F : Front} (hF : F.Aligned) {parent : Int} {stmts rest : List Stmt} {p : Prog}
    (h : Nests F parent stmts p rest) : rest = stmts.dropWhile (deeper parent) := by
  induction h with
  | @done parent stmts stop =>
    cases stmts with
    | nil => rfl
    | cons s ss =>
      have hs : ¬ deeper parent s = true := by simpa [deeper] using stop s rfl
      rw [List.dropWhile_cons_of_neg hs]
  | @assign parent s ss rest x c p hd _ _ _ _ ih
  | @print parent s ss rest c p hd _ _ _ ih
  | @printStr parent s ss rest so sl p hd _ _ _ ih =>
    rw [List.dropWhile_cons_of_pos (deeper_of_lt hd)]
    exact ih
  | @loop parent s ss mid rest c b p hd _ _ _ _ ihb ih
  | @when parent s ss mid rest c b p hd _ _ _ _ _ ihb ih =>
    rw [List.dropWhile_cons_of_pos (deeper_of_lt hd), ih, ihb, dropWhile_dropWhile (by omega)]
  | @cond parent s ss mid mid' mid'' rest c b a p hd _ _ _ he _ _ ihb iha ih =>
    obtain ⟨e, rfl, howns⟩ := takeElse_eq_some he
    have hedeep : deeper parent e = true := by
      rw [deeper, (hF s e howns).2]
      exact deeper_of_lt hd
    rw [List.dropWhile_cons_of_pos (deeper_of_lt hd), ih, iha, dropWhile_dropWhile (by omega),
      ← dropWhile_dropWhile (show parent ≤ s.indent by omega) ss, ← ihb,
      List.dropWhile_cons_of_pos hedeep]

theorem Nests.denotes {parent : Int} {stmts rest : List Stmt} {p : Prog}
    (h : Nests jsFront parent stmts p rest) : Denotes (stmts.takeWhile (deeper parent)) p := by
  induction h with
  | @done parent stmts stop =>
    cases stmts with
    | nil => exact .nil
    | cons s ss =>
      have hs : ¬ deeper parent s = true := by simpa [deeper] using stop s rfl
      rw [List.takeWhile_cons_of_neg hs]
      exact .nil
  | @assign parent s ss rest x c p hd hk ht hv _ ih =>
    obtain ⟨tk', htk⟩ := jsFront_target ht
    have hdrop := hv.drop_eq
    rw [htk] at hdrop
    rw [List.takeWhile_cons_of_pos (deeper_of_lt hd)]
    exact .assign hk (by rw [htk, ← hdrop]; rfl) ih
  | @print parent s ss rest c p hd hk harg _ ih =>
    rw [List.takeWhile_cons_of_pos (deeper_of_lt hd)]
    exact .print hk harg.drop_eq ih
  | @printStr parent s ss rest so sl p hd hk harg _ ih =>
    rw [List.takeWhile_cons_of_pos (deeper_of_lt hd)]
    exact .printStr hk (by rw [List.head?_eq_getElem?]; exact harg) ih
  | @loop parent s ss mid rest c b p hd hk ht hb _ ihb ih =>
    have hle : parent ≤ s.indent := by omega
    rw [hb.rest_eq jsFront_aligned, ← dropWhile_deeper hle] at ih
    rw [← takeWhile_deeper hle] at ihb
    rw [List.takeWhile_cons_of_pos (deeper_of_lt hd)]
    exact .loop hk ht.drop_eq ihb ih
  | @when parent s ss mid rest c b p hd hk ht hb he _ ihb ih =>
    have hle : parent ≤ s.indent := by omega
    rw [hb.rest_eq jsFront_aligned, ← dropWhile_deeper hle] at ih
    rw [← takeWhile_deeper hle] at ihb
    rw [List.takeWhile_cons_of_pos (deeper_of_lt hd)]
    refine .when hk ht.drop_eq ihb ?_ ih
    rw [hb.rest_eq jsFront_aligned, jsFront_takeElse] at he
    intro e hmem
    refine he e ?_
    rw [outer, dropWhile_deeper hle] at hmem
    cases hout : ss.dropWhile (deeper s.indent) with
    | nil => rw [hout] at hmem; cases hmem
    | cons t ts =>
      rw [hout, List.takeWhile_cons] at hmem
      split at hmem
      · exact hmem
      · cases hmem
  | @cond parent s ss mid mid' mid'' rest c b a p hd hk ht hb he ha _ ihb iha ih =>
    have hle : parent ≤ s.indent := by omega
    obtain ⟨e, rfl, howns⟩ := takeElse_eq_some he
    have helse := jsFront_aligned s e howns
    have hedeep : deeper parent e = true := by
      rw [deeper, helse.2]
      exact deeper_of_lt hd
    have hsplit : outer s (ss.takeWhile (deeper parent)) =
        e :: mid'.takeWhile (deeper parent) := by
      rw [outer, dropWhile_deeper hle, ← hb.rest_eq jsFront_aligned,
        List.takeWhile_cons_of_pos hedeep]
    rw [ha.rest_eq jsFront_aligned, ← dropWhile_deeper hle] at ih
    rw [← takeWhile_deeper hle] at ihb iha
    rw [List.takeWhile_cons_of_pos (deeper_of_lt hd)]
    exact .cond hk ht.drop_eq ihb hsplit helse iha ih

/-! ## All readings have the same code -/

def Tok.name? : Tok → Option Ident
  | .ident x => some x
  | _ => none

theorem Tree.names_eq {c : Cat} (t : Tree c) : t.names = t.yield.filterMap Tok.name? := by
  induction t with
  | num v => rfl
  | name x => rfl
  | paren e ih | neg f ih => simp [Tree.names, Tree.yield, List.filterMap_cons, Tok.name?, ih]
  | factor e ih | term e ih => exact ih
  | mulop o l r ihl ihr | addop o l r ihl ihr =>
    simp [Tree.names, Tree.yield, List.filterMap_cons, Tok.name?, ihl, ihr]

theorem Cond.names_eq (c : Cond) : c.names = c.yield.filterMap Tok.name? := by
  cases c with
  | expr e => exact e.names_eq
  | cmp o l r => simp [Cond.names, Cond.yield, List.filterMap_cons, Tok.name?, l.names_eq, r.names_eq]

theorem Cond.unique {c c' : Cond} (h : c.yield = c'.yield) :
    c.names = c'.names ∧ ∀ vars : List Ident, (∀ x ∈ c.names, x ∈ vars) →
      c.size = c'.size ∧ c.code vars.idxOf = c'.code vars.idxOf := by
  have hnames : c.names = c'.names := by rw [c.names_eq, c'.names_eq, h]
  refine ⟨hnames, fun vars hv => ?_⟩
  have hpos : 0 < c.yield.length := Nat.lt_of_lt_of_le c.need_pos c.need_le_yield
  have hs : Sentence vars c.yield 0 (c.yield.length - 1) c :=
    ⟨⟨.self _, by omega⟩, hv⟩
  have hs' : Sentence vars c.yield 0 (c.yield.length - 1) c' :=
    ⟨⟨h ▸ .self _, by rw [← h]; omega⟩, hnames ▸ hv⟩
  have hcode := hs.code_unique hs'
  exact ⟨by rw [← c.length_code vars.idxOf, hcode, c'.length_code], hcode⟩

theorem Cond.head?_yield_ne_str (c : Cond) (so sl : UInt32) : c.yield.head? ≠ some (.str so sl) := by
  have htree : ∀ {k : Cat} (t : Tree k), t.yield.head? ≠ some (.str so sl) := by
    intro k t
    induction t with
    | num | name | paren | neg => simp [Tree.yield]
    | factor e ih | term e ih => exact ih
    | mulop o l r ihl | addop o l r ihl =>
      obtain ⟨k, ks, hk⟩ := List.exists_cons_of_length_pos l.yield_pos
      rw [hk] at ihl
      rw [Tree.yield, hk]
      exact ihl
  cases c with
  | expr e => exact htree e
  | cmp o l r =>
    have hl := htree l
    obtain ⟨k, ks, hk⟩ := List.exists_cons_of_length_pos l.yield_pos
    rw [hk] at hl
    rw [Cond.yield, hk]
    exact hl

/-- Two programs are alike for a table of variables: they have the same names
and, if these are declared, the same code. -/
def Alike (vars : List Ident) (p q : Prog) : Prop :=
  p.names = q.names ∧ ((∀ x ∈ p.names, x ∈ vars) →
    p.size = q.size ∧ ∀ base, p.code vars.idxOf base = q.code vars.idxOf base)

theorem Denotes.alike {l : List Stmt} {p q : Prog} (hp : Denotes l p) (vars : List Ident)
    (hq : Denotes l q) : Alike vars p q := by
  induction hp generalizing q with
  | nil =>
    cases hq
    exact ⟨rfl, fun _ => ⟨rfl, fun _ => rfl⟩⟩
  | assign kind text _ ih =>
    cases hq with
    | assign _ text' next' =>
      rw [text] at text'
      cases (List.cons.inj text').1
      obtain ⟨hc, hcode⟩ := Cond.unique (List.cons.inj text').2
      obtain ⟨hr, hrest⟩ := ih next'
      refine ⟨by simp only [Prog.names, hc, hr], fun hv => ?_⟩
      have hv1 := hcode vars fun x hx => hv x (by simp [Prog.names, hx])
      have hv2 := hrest fun x hx => hv x (by simp [Prog.names, hx])
      exact ⟨by simp only [Prog.size, hv1.1, hv2.1],
        fun base => by simp only [Prog.code, hv1.1, hv1.2, hv2.2]⟩
    | _ => simp_all
  | print kind text _ ih =>
    cases hq with
    | print _ text' next' =>
      obtain ⟨hc, hcode⟩ := Cond.unique (text.symm.trans text')
      obtain ⟨hr, hrest⟩ := ih next'
      refine ⟨by simp only [Prog.names, hc, hr], fun hv => ?_⟩
      have hv1 := hcode vars fun x hx => hv x (by simp [Prog.names, hx])
      have hv2 := hrest fun x hx => hv x (by simp [Prog.names, hx])
      exact ⟨by simp only [Prog.size, hv1.1, hv2.1],
        fun base => by simp only [Prog.code, hv1.1, hv1.2, hv2.2]⟩
    | printStr _ text' _ =>
      rw [text] at text'
      exact absurd text' (Cond.head?_yield_ne_str _ _ _)
    | _ => simp_all
  | printStr kind text _ ih =>
    cases hq with
    | printStr _ text' next' =>
      rw [text] at text'
      cases text'
      obtain ⟨hr, hrest⟩ := ih next'
      refine ⟨hr, fun hv => ?_⟩
      have hv2 := hrest hv
      exact ⟨by simp only [Prog.size, hv2.1], fun base => by simp only [Prog.code, hv2.2]⟩
    | print _ text' _ =>
      rw [text'] at text
      exact absurd text (Cond.head?_yield_ne_str _ _ _)
    | _ => simp_all
  | loop kind text _ _ ihb ih =>
    cases hq with
    | loop _ text' body' next' =>
      obtain ⟨hc, hcode⟩ := Cond.unique (text.symm.trans text')
      obtain ⟨hb, hbody⟩ := ihb body'
      obtain ⟨hr, hrest⟩ := ih next'
      refine ⟨by simp only [Prog.names, hc, hb, hr], fun hv => ?_⟩
      have hv1 := hcode vars fun x hx => hv x (by simp [Prog.names, hx])
      have hv2 := hbody fun x hx => hv x (by simp [Prog.names, hx])
      have hv3 := hrest fun x hx => hv x (by simp [Prog.names, hx])
      exact ⟨by simp only [Prog.size, hv1.1, hv2.1, hv3.1],
        fun base => by simp only [Prog.code, testCode, hv1.1, hv1.2, hv2.1, hv2.2, hv3.2]⟩
    | _ => simp_all
  | when kind text _ noElse _ ihb ih =>
    cases hq with
    | when _ text' body' _ next' =>
      obtain ⟨hc, hcode⟩ := Cond.unique (text.symm.trans text')
      obtain ⟨hb, hbody⟩ := ihb body'
      obtain ⟨hr, hrest⟩ := ih next'
      refine ⟨by simp only [Prog.names, hc, hb, hr], fun hv => ?_⟩
      have hv1 := hcode vars fun x hx => hv x (by simp [Prog.names, hx])
      have hv2 := hbody fun x hx => hv x (by simp [Prog.names, hx])
      have hv3 := hrest fun x hx => hv x (by simp [Prog.names, hx])
      exact ⟨by simp only [Prog.size, hv1.1, hv2.1, hv3.1],
        fun base => by simp only [Prog.code, testCode, hv1.1, hv1.2, hv2.1, hv2.2, hv3.2]⟩
    | cond _ _ _ split' hasElse' =>
      rw [split'] at noElse
      exact absurd hasElse' (noElse _ rfl)
    | _ => simp_all
  | cond kind text _ split hasElse _ _ ihb iha ih =>
    cases hq with
    | cond _ text' body' split' _ alt' next' =>
      rw [split] at split'
      cases split'
      obtain ⟨hc, hcode⟩ := Cond.unique (text.symm.trans text')
      obtain ⟨hb, hbody⟩ := ihb body'
      obtain ⟨ha, halt⟩ := iha alt'
      obtain ⟨hr, hrest⟩ := ih next'
      refine ⟨by simp only [Prog.names, hc, hb, ha, hr], fun hv => ?_⟩
      have hv1 := hcode vars fun x hx => hv x (by simp [Prog.names, hx])
      have hv2 := hbody fun x hx => hv x (by simp [Prog.names, hx])
      have hv3 := halt fun x hx => hv x (by simp [Prog.names, hx])
      have hv4 := hrest fun x hx => hv x (by simp [Prog.names, hx])
      exact ⟨by simp only [Prog.size, hv1.1, hv2.1, hv3.1, hv4.1],
        fun base => by
          simp only [Prog.code, testCode, hv1.1, hv1.2, hv2.1, hv2.2, hv3.1, hv3.2, hv4.2]⟩
    | when _ _ _ noElse' _ =>
      rw [split] at noElse'
      exact absurd hasElse (noElse' _ rfl)
    | _ => simp_all

theorem Denotes.need_le {l : List Stmt} {p : Prog} (h : Denotes l p) : p.need ≤ pyMaxTok := by
  have hcond : ∀ {s : Stmt} {c : Cond}, c.yield.length ≤ s.tk.length → c.need ≤ pyMaxTok :=
    fun {s c} hle => c.need_le_yield.trans (hle.trans s.fits)
  induction h with
  | nil => exact Nat.zero_le _
  | @assign s _ _ _ _ _ text _ ih =>
    exact Nat.max_le.mpr ⟨hcond (s := s) (by rw [text]; simp), ih⟩
  | @print s _ _ _ _ text _ ih => exact Nat.max_le.mpr ⟨hcond (s := s) (by rw [text]), ih⟩
  | printStr _ _ _ ih => exact ih
  | @loop s _ _ _ _ _ text _ _ ihb ih | @when s _ _ _ _ _ text _ _ _ ihb ih =>
    exact Nat.max_le.mpr ⟨hcond (s := s) (by rw [text]), Nat.max_le.mpr ⟨ihb, ih⟩⟩
  | @cond s _ _ _ _ _ _ _ _ text _ _ _ _ _ ihb iha ih =>
    exact Nat.max_le.mpr ⟨hcond (s := s) (by rw [text]),
      Nat.max_le.mpr ⟨ihb, Nat.max_le.mpr ⟨iha, ih⟩⟩⟩

end Engines
