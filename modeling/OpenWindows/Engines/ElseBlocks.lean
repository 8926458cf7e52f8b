import OpenWindows.Engines.Blocks

/-!
# Which `if` an `else` belongs to

`js_compile_block` and `lua_compile_block` compare the indentation of an `else`
with that of the `if` before they take it.  `py_compile_block` does not.  When
the block of a nested `if` ends at an `else` of an outer one, the inner `if`
takes it.

`Prog.elses` lists the pairs of an `if` and its `else` by their positions in the
list of statements.  On a list in which every `if` that is followed by an `else`
has the indentation of this `else` (`AlignedElse`), the three compilers emit the
same words and every `else` goes to the nearest `if` of its indentation; on any
other list that `py_compile_block` accepts, some `else` does not.
-/

namespace Engines

/-! ## Pairs of `if` and `else` -/

/-- The positions of each `if` and its `else`, for a program whose first
statement is at `base`. -/
def Prog.elses : Nat → Prog → List (Nat × Nat)
  | _, .done => []
  | base, .assign _ _ rest => rest.elses (base + 1)
  | base, .print _ rest => rest.elses (base + 1)
  | base, .printStr _ _ rest => rest.elses (base + 1)
  | base, .loop _ body rest => body.elses (base + 1) ++ rest.elses (base + 1 + body.lines)
  | base, .when _ body rest => body.elses (base + 1) ++ rest.elses (base + 1 + body.lines)
  | base, .cond _ body alt rest =>
    (base, base + 1 + body.lines) ::
      (body.elses (base + 1) ++ alt.elses (base + 1 + body.lines + 1) ++
        rest.elses (base + 1 + body.lines + 1 + alt.lines))

/-- The `else` at `j` has the indentation of the `if` at `i`. -/
def SameIndent (stmts : List Stmt) (i j : Nat) : Prop :=
  ∃ s e, stmts[i]? = some s ∧ stmts[j]? = some e ∧ e.indent = s.indent

/-- The statement at `i` is the nearest `if` before `j` with the indentation of
the statement at `j`. -/
structure NearestIf (stmts : List Stmt) (i j : Nat) : Prop where
  before : i < j
  isIf : ∃ s, stmts[i]? = some s ∧ s.kind = .sIf
  same : SameIndent stmts i j
  nearest : ∀ k s e, i < k → k < j → stmts[k]? = some s → s.kind = .sIf →
    stmts[j]? = some e → s.indent ≠ e.indent

/-- Every `else` is the alternative of an `if`, and of the nearest one of its
indentation. -/
structure ElseNearest (stmts : List Stmt) (p : Prog) : Prop where
  taken : ∀ j e, stmts[j]? = some e → e.kind = .sElse → ∃ i, (i, j) ∈ p.elses 0
  nearest : ∀ i j, (i, j) ∈ p.elses 0 → NearestIf stmts i j

/-- Every `if` whose block is followed by an `else` has its indentation. -/
def AlignedElse : List Stmt → Prop
  | [] => True
  | s :: ss =>
    (s.kind = .sIf → ∀ e ∈ (outer s ss).head?, e.kind = .sElse → e.indent = s.indent) ∧
      AlignedElse ss

theorem AlignedElse.cons {s : Stmt} {ss : List Stmt} {k : StmtKind} (hk : s.kind = k)
    (hne : k ≠ .sIf) (h : AlignedElse ss) : AlignedElse (s :: ss) :=
  ⟨fun hif => absurd (hk.symm.trans hif) hne, h⟩

theorem AlignedElse.drop {l : List Stmt} (h : AlignedElse l) (n : Nat) : AlignedElse (l.drop n) := by
  induction n generalizing l with
  | zero => exact h
  | succ n ih =>
    cases l with
    | nil => exact h
    | cons s ss => exact ih h.2

theorem drop_cons {stmts ss : List Stmt} {i : Nat} {s : Stmt} (h : stmts.drop i = s :: ss) :
    stmts[i]? = some s ∧ stmts.drop (i + 1) = ss := by
  refine ⟨?_, ?_⟩
  · rw [← List.head?_drop, h]
    rfl
  · rw [← List.drop_drop, h]
    rfl

theorem Nests.drop_body {F : Front} {parent : Int} {stmts ss rest : List Stmt} {b : Prog} {i : Nat}
    (hb : Nests F parent ss b rest) (h : stmts.drop i = ss) : stmts.drop (i + b.lines) = rest := by
  rw [← List.drop_drop, h]
  exact hb.drop_eq.2

/-! ## Reading by indentation -/

/-- `managedpy` with the check the other two front-ends make. -/
def pyAligned : Front := { pyFront with owns := jsFront.owns }

theorem pyAligned_aligned : pyAligned.Aligned := jsFront_aligned

theorem pyFront_takeElse {s : Stmt} {l : List Stmt} :
    takeElse pyFront s l = none ↔ ∀ e ∈ l.head?, e.kind ≠ .sElse := by
  cases l with
  | nil => simp [takeElse]
  | cons e l => simp [takeElse, pyFront]

theorem pyAligned_takeElse_none {s : Stmt} {l : List Stmt} (h : takeElse pyFront s l = none) :
    takeElse pyAligned s l = none := by
  refine jsFront_takeElse.mpr fun e he helse => ?_
  exact pyFront_takeElse.mp h e he helse.1

theorem pyAligned_takeElse_some {s e : Stmt} {l : List Stmt} (hk : e.kind = .sElse)
    (hi : e.indent = s.indent) : takeElse pyAligned s (e :: l) = some l := by
  simp [takeElse, pyAligned, jsFront, hk, hi]

theorem pyFront_takeElse_some {s : Stmt} {l l' : List Stmt} (h : takeElse pyFront s l = some l') :
    ∃ e, l = e :: l' ∧ e.kind = .sElse := by
  obtain ⟨e, hl, howns⟩ := takeElse_eq_some h
  exact ⟨e, hl, by simpa [pyFront] using howns⟩

variable {l rest : List Stmt} {p : Prog} {parent : Int} {stmts : List Stmt} {F : Front}

theorem Nests.aligned
    (h : Nests pyFront parent l p rest) (ha : AlignedElse l) : Nests pyAligned parent l p rest := by
  induction h with
  | done stop => exact .done stop
  | assign hd hk ht hv _ ih => exact .assign hd hk ht hv (ih ha.2)
  | print hd hk harg _ ih => exact .print hd hk harg (ih ha.2)
  | printStr hd hk harg _ ih => exact .printStr hd hk harg (ih ha.2)
  | loop hd hk ht hb _ ihb ih =>
    refine .loop hd hk ht (ihb ha.2) (ih ?_)
    rw [← hb.drop_eq.2]
    exact ha.2.drop _
  | when hd hk ht hb he _ ihb ih =>
    refine .when hd hk ht (ihb ha.2) (pyAligned_takeElse_none he) (ih ?_)
    rw [← hb.drop_eq.2]
    exact ha.2.drop _
  | @cond parent s ss mid mid' mid'' rest c b a p hd hk ht hb he hal _ ihb iha ih =>
    obtain ⟨e, rfl, hek⟩ := pyFront_takeElse_some he
    have hmid : AlignedElse (e :: mid') := by
      rw [← hb.drop_eq.2]
      exact ha.2.drop _
    have hout : e :: mid' = outer s ss := (ihb ha.2).rest_eq pyAligned_aligned
    have hei : e.indent = s.indent := ha.1 hk e (by rw [← hout]; rfl) hek
    refine .cond hd hk ht (ihb ha.2) (pyAligned_takeElse_some hek hei) (iha hmid.2) (ih ?_)
    rw [← hal.drop_eq.2]
    exact hmid.2.drop _

theorem Nests.aligned_of_pairs (h : Nests pyFront parent l p rest) (hrest : AlignedElse rest) :
    ∀ base, stmts.drop base = l → (∀ i j, (i, j) ∈ p.elses base → SameIndent stmts i j) →
      AlignedElse l ∧ Nests pyAligned parent l p rest := by
  induction h with
  | done stop => exact fun _ _ _ => ⟨hrest, .done stop⟩
  | assign hd hk ht hv _ ih =>
    intro base hl hpairs
    obtain ⟨ha, hn⟩ := ih hrest (base + 1) (drop_cons hl).2 hpairs
    exact ⟨.cons hk (by decide) ha, .assign hd hk ht hv hn⟩
  | print hd hk harg _ ih =>
    intro base hl hpairs
    obtain ⟨ha, hn⟩ := ih hrest (base + 1) (drop_cons hl).2 hpairs
    exact ⟨.cons hk (by decide) ha, .print hd hk harg hn⟩
  | printStr hd hk harg _ ih =>
    intro base hl hpairs
    obtain ⟨ha, hn⟩ := ih hrest (base + 1) (drop_cons hl).2 hpairs
    exact ⟨.cons hk (by decide) ha, .printStr hd hk harg hn⟩
  | @loop parent s ss mid rest c b p hd hk ht hb _ ihb ih =>
    intro base hl hpairs
    have hss := (drop_cons hl).2
    have hmid := hb.drop_body hss
    obtain ⟨ha, hn⟩ := ih hrest _ hmid fun i j hij => hpairs i j (List.mem_append_right _ hij)
    obtain ⟨hab, hnb⟩ := ihb ha _ hss fun i j hij => hpairs i j (List.mem_append_left _ hij)
    exact ⟨.cons hk (by decide) hab, .loop hd hk ht hnb hn⟩
  | @when parent s ss mid rest c b p hd hk ht hb he _ ihb ih =>
    intro base hl hpairs
    have hss := (drop_cons hl).2
    have hmid := hb.drop_body hss
    obtain ⟨ha, hn⟩ := ih hrest _ hmid fun i j hij => hpairs i j (List.mem_append_right _ hij)
    obtain ⟨hab, hnb⟩ := ihb ha _ hss fun i j hij => hpairs i j (List.mem_append_left _ hij)
    have hout : mid = outer s ss := hnb.rest_eq pyAligned_aligned
    refine ⟨⟨fun _ e hmem hek => ?_, hab⟩, .when hd hk ht hnb (pyAligned_takeElse_none he) hn⟩
    rw [← hout] at hmem
    exact absurd hek (pyFront_takeElse.mp he e hmem)
  | @cond parent s ss mid mid' mid'' rest c b a p hd hk ht hb he hal _ ihb iha ih =>
    intro base hl hpairs
    obtain ⟨e, rfl, hek⟩ := pyFront_takeElse_some he
    have hss := (drop_cons hl).2
    have hmid := hb.drop_body hss
    have hmid' := (drop_cons hmid).2
    have hmid'' := hal.drop_body hmid'
    have hpair := hpairs _ _ (List.mem_cons_self)
    have hmore : ∀ i j, (i, j) ∈ b.elses (base + 1) ++ a.elses (base + 1 + b.lines + 1) ++
        p.elses (base + 1 + b.lines + 1 + a.lines) → SameIndent stmts i j :=
      fun i j hij => hpairs i j (List.mem_cons_of_mem _ hij)
    obtain ⟨hap, hn⟩ := ih hrest _ hmid'' fun i j hij => hmore i j (List.mem_append_right _ hij)
    obtain ⟨haa, hna⟩ := iha hap _ hmid' fun i j hij =>
      hmore i j (List.mem_append_left _ (List.mem_append_right _ hij))
    have hei : e.indent = s.indent := by
      obtain ⟨s', e', hs', he', hsame⟩ := hpair
      rw [(drop_cons hl).1] at hs'
      rw [(drop_cons hmid).1] at he'
      cases hs'
      cases he'
      exact hsame
    have hae : AlignedElse (e :: mid') := .cons hek (by decide) haa
    obtain ⟨hab, hnb⟩ := ihb hae _ hss fun i j hij =>
      hmore i j (List.mem_append_left _ (List.mem_append_left _ hij))
    have hout : e :: mid' = outer s ss := hnb.rest_eq pyAligned_aligned
    refine ⟨⟨fun _ e' hmem _ => ?_, hab⟩,
      .cond hd hk ht hnb (pyAligned_takeElse_some hek hei) hna hn⟩
    rw [← hout] at hmem
    cases hmem
    exact hei

/-! ## Every `else` goes to the nearest `if` -/

theorem Nests.deeper_of_lt (hF : F.Aligned)
    (h : Nests F parent l p rest) {k : Nat} {t : Stmt} (hk : k < p.lines)
    (ht : l[k]? = some t) : (t.indent : Int) > parent := by
  have hlen := h.drop_eq.1
  have hrest := h.rest_eq hF
  have hsplit : l.takeWhile (deeper parent) ++ rest = l := by
    rw [hrest]
    exact List.takeWhile_append_dropWhile
  have htake : (l.takeWhile (deeper parent)).length = p.lines := by
    have hl := congrArg List.length hsplit
    rw [List.length_append] at hl
    omega
  rw [← hsplit, List.getElem?_append_left (by omega)] at ht
  have hdeep := List.mem_takeWhile_imp (List.mem_of_getElem? ht)
  simpa [deeper] using hdeep

theorem Nests.nearest (h : Nests pyAligned parent l p rest) :
    ∀ base, stmts.drop base = l → ∀ i j, (i, j) ∈ p.elses base → NearestIf stmts i j := by
  induction h with
  | done stop =>
    intro base _ i j hij
    cases hij
  | assign hd hk ht hv _ ih | print hd hk harg _ ih | printStr hd hk harg _ ih =>
    intro base hl
    exact ih (base + 1) (drop_cons hl).2
  | @loop parent s ss mid rest c b p hd hk ht hb _ ihb ih =>
    intro base hl i j hij
    have hss := (drop_cons hl).2
    have hmid := hb.drop_body hss
    rcases List.mem_append.mp hij with hij | hij
    · exact ihb _ hss i j hij
    · exact ih _ hmid i j hij
  | @when parent s ss mid rest c b p hd hk ht hb _ _ ihb ih =>
    intro base hl i j hij
    have hss := (drop_cons hl).2
    have hmid := hb.drop_body hss
    rcases List.mem_append.mp hij with hij | hij
    · exact ihb _ hss i j hij
    · exact ih _ hmid i j hij
  | @cond parent s ss mid mid' mid'' rest c b a p hd hk ht hb he ha _ ihb iha ih =>
    intro base hl i j hij
    obtain ⟨e, rfl, howns⟩ := takeElse_eq_some he
    obtain ⟨hs, hss⟩ := drop_cons hl
    have hmid := hb.drop_body hss
    obtain ⟨hse, hmid'⟩ := drop_cons hmid
    have hmid'' := ha.drop_body hmid'
    have helse := pyAligned_aligned s e howns
    rcases List.mem_cons.mp hij with hij | hij
    · cases hij
      refine ⟨by omega, ⟨s, hs, hk⟩, ⟨s, e, hs, hse, helse.2⟩, ?_⟩
      -- what lies between is deeper
      intro k t e' hik hkj ht' _ he' hsame
      rw [hse] at he'
      cases he'
      have hkth : ss[k - (base + 1)]? = some t := by
        rw [← hss, List.getElem?_drop, ← ht']
        congr 1
        omega
      have hdeep := hb.deeper_of_lt pyAligned_aligned (by omega) hkth
      rw [hsame, helse.2] at hdeep
      omega
    · rcases List.mem_append.mp hij with hij | hij
      · rcases List.mem_append.mp hij with hij | hij
        · exact ihb _ hss i j hij
        · exact iha _ hmid' i j hij
      · exact ih _ hmid'' i j hij

theorem Nests.covered (h : Nests F parent l p rest) :
    ∀ base, stmts.drop base = l → ∀ j e, base ≤ j → j < base + p.lines → stmts[j]? = some e →
      e.kind = .sElse → ∃ i, (i, j) ∈ p.elses base := by
  -- the first statement of a program is no `else`
  have hfirst : ∀ {base j : Nat} {s e : Stmt} {ss : List Stmt} {k : StmtKind},
      stmts.drop base = s :: ss → s.kind = k → k ≠ .sElse → base ≤ j → stmts[j]? = some e →
      e.kind = .sElse → base + 1 ≤ j := by
    intro base j s e ss k hl hk hne hj he hek
    rcases Nat.lt_or_eq_of_le hj with hlt | rfl
    · exact hlt
    · rw [(drop_cons hl).1] at he
      cases he
      exact absurd (hk.symm.trans hek) hne
  induction h with
  | done stop =>
    intro base _ j e hj hlt
    simp only [Prog.lines] at hlt
    omega
  | assign hd hk ht hv _ ih | print hd hk harg _ ih | printStr hd hk harg _ ih =>
    intro base hl j e hj hlt he hek
    have hj' := hfirst hl hk (by decide) hj he hek
    simp only [Prog.lines] at hlt
    exact ih (base + 1) (drop_cons hl).2 j e hj' (by omega) he hek
  | @loop parent s ss mid rest c b p hd hk ht hb _ ihb ih =>
    intro base hl j e hj hlt he hek
    have hj' := hfirst hl hk (by decide) hj he hek
    simp only [Prog.lines] at hlt
    have hss := (drop_cons hl).2
    have hmid := hb.drop_body hss
    by_cases hb' : j < base + 1 + b.lines
    · obtain ⟨i, hi⟩ := ihb _ hss j e hj' hb' he hek
      exact ⟨i, List.mem_append_left _ hi⟩
    · obtain ⟨i, hi⟩ := ih _ hmid j e (by omega) (by omega) he hek
      exact ⟨i, List.mem_append_right _ hi⟩
  | @when parent s ss mid rest c b p hd hk ht hb _ _ ihb ih =>
    intro base hl j e hj hlt he hek
    have hj' := hfirst hl hk (by decide) hj he hek
    simp only [Prog.lines] at hlt
    have hss := (drop_cons hl).2
    have hmid := hb.drop_body hss
    by_cases hb' : j < base + 1 + b.lines
    · obtain ⟨i, hi⟩ := ihb _ hss j e hj' hb' he hek
      exact ⟨i, List.mem_append_left _ hi⟩
    · obtain ⟨i, hi⟩ := ih _ hmid j e (by omega) (by omega) he hek
      exact ⟨i, List.mem_append_right _ hi⟩
  | @cond parent s ss mid mid' mid'' rest c b a p hd hk ht hb he ha _ ihb iha ih =>
    intro base hl j e' hj hlt he' hek
    have hj' := hfirst hl hk (by decide) hj he' hek
    simp only [Prog.lines] at hlt
    obtain ⟨e, rfl, _⟩ := takeElse_eq_some he
    have hss := (drop_cons hl).2
    have hmid := hb.drop_body hss
    have hmid' := (drop_cons hmid).2
    have hmid'' := ha.drop_body hmid'
    by_cases hb' : j < base + 1 + b.lines
    · obtain ⟨i, hi⟩ := ihb _ hss j e' hj' hb' he' hek
      exact ⟨i, List.mem_cons_of_mem _ (List.mem_append_left _ (List.mem_append_left _ hi))⟩
    · by_cases heq : j = base + 1 + b.lines
      · subst heq
        exact ⟨base, List.mem_cons_self⟩
      · by_cases ha' : j < base + 1 + b.lines + 1 + a.lines
        · obtain ⟨i, hi⟩ := iha _ hmid' j e' (by omega) ha' he' hek
          exact ⟨i, List.mem_cons_of_mem _ (List.mem_append_left _ (List.mem_append_right _ hi))⟩
        · obtain ⟨i, hi⟩ := ih _ hmid'' j e' (by omega) (by omega) he' hek
          exact ⟨i, List.mem_cons_of_mem _ (List.mem_append_right _ hi)⟩

/-! ## The same statements in the other languages -/

/-- The tokens of a statement of `managedpy` without its keyword and
punctuation, as the other two front-ends keep them. -/
def plainTokens : StmtKind → List Tok → List Tok
  | .sAssign, tk => tk.eraseIdx 1
  | .sPrint, tk => tk.drop 1
  | .sWhile, tk => (tk.drop 1).dropLast
  | .sIf, tk => (tk.drop 1).dropLast
  | .sElse, _ => []
  | .sOther, _ => []

theorem length_plainTokens_le (k : StmtKind) (tk : List Tok) :
    (plainTokens k tk).length ≤ tk.length := by
  cases k with
  | sAssign => exact List.length_eraseIdx_le tk 1
  | sPrint => simp [plainTokens]
  | sWhile | sIf =>
    simp only [plainTokens, List.length_dropLast, List.length_drop]
    omega
  | sElse | sOther => simp [plainTokens]

/-- A statement of `managedpy` as a statement of `managedjs` or `managedlua`. -/
def Stmt.plain (s : Stmt) : Stmt where
  indent := s.indent
  kind := s.kind
  tk := plainTokens s.kind s.tk
  fits := (length_plainTokens_le s.kind s.tk).trans s.fits

theorem Reads.of_eq {s : Stmt} (pre : List Tok) {c : Cond} (h : s.tk = pre ++ c.yield) :
    Reads s.tk pre.length (s.hi 1) c := by
  have hpos : 0 < c.yield.length := Nat.lt_of_lt_of_le c.need_pos c.need_le_yield
  have hlen : s.tk.length = pre.length + c.yield.length := by rw [h, List.length_append]
  refine ⟨⟨pre, [], by rw [h, List.append_nil], rfl⟩, ?_⟩
  rw [s.hi_one (by omega)]
  omega

theorem pyCond_transfer {vars : List Ident} {cap lo hi lo' hi' : Nat} {tk tk' : List Tok}
    {ws ws' : List Word} (hr : ∀ c, Reads tk lo hi c → Reads tk' lo' hi' c)
    (h : pyCond vars cap tk hi lo ws = .ok ws') : pyCond vars cap tk' hi' lo' ws = .ok ws' := by
  obtain ⟨c, hc, hws, hcap⟩ := pyCond_sound h
  rw [hws]
  exact pyCond_complete ⟨hr c hc.toReads, hc.declared⟩ hcap

section

variable {cap : Nat} {V : VarTab} {ws ws' : List Word} {s : Stmt}

theorem pyFront_target {tk : List Tok} {x : Ident} (h : pyFront.target tk = some x) :
    ∃ k ks, tk = .ident x :: .op .assign :: k :: ks := by
  simp only [pyFront] at h
  split at h
  · cases h
  · next hshape =>
    rw [not_or, not_lt, not_not] at hshape
    obtain ⟨hlen, ha⟩ := hshape
    rcases tk with _ | ⟨y, _ | ⟨a, _ | ⟨k, ks⟩⟩⟩
    · cases h
    · cases ha
    · simp at hlen
    · cases ha
      cases y with
      | ident y =>
        cases h
        exact ⟨k, ks, rfl⟩
      | _ => cases h

theorem emitAssign_plain {V' : VarTab} (hk : s.kind = .sAssign)
    (h : emitAssign pyFront cap V ws s = .ok (V', ws')) :
    emitAssign jsFront cap V ws s.plain = .ok (V', ws') := by
  unfold emitAssign at h
  cases hx : pyFront.target s.tk with
  | none => rw [hx] at h; cases h
  | some x =>
    rw [hx] at h
    obtain ⟨⟨V₁, slot⟩, hdecl, h⟩ := bind_ok h
    obtain ⟨ws₁, hval, h⟩ := bind_ok h
    obtain ⟨k, ks, htk⟩ := pyFront_target hx
    have hplain : s.plain.tk = .ident x :: k :: ks := by
      simp only [Stmt.plain, hk, plainTokens, htk]
      rfl
    have htarget : jsFront.target s.plain.tk = some x := by
      rw [hplain]
      rfl
    rw [pyFront.value_eq hx] at hval
    have hval' : jsFront.value V₁.names cap s.plain.tk (s.plain.hi 1) ws = .ok ws₁ := by
      rw [jsFront.value_eq htarget]
      refine pyCond_transfer (fun c hc => ?_) hval
      have hdrop := hc.drop_eq
      rw [htk] at hdrop
      have hyield : k :: ks = c.yield := hdrop
      exact Reads.of_eq [.ident x] (by rw [hplain, hyield]; rfl)
    unfold emitAssign
    rw [htarget]
    dsimp only
    rw [hdecl, ok_bind]
    dsimp only
    rw [hval']
    exact h

theorem emitPrint_plain (hk : s.kind = .sPrint) (h : emitPrint pyFront cap V ws s = .ok ws') :
    emitPrint jsFront cap V ws s.plain = .ok ws' := by
  obtain ⟨ws₁, harg, h⟩ := bind_ok h
  have hplain : s.plain.tk = s.tk.drop 1 := by simp only [Stmt.plain, hk, plainTokens]
  have hfirst : s.plain.tk[jsFront.printArg]? = s.tk[pyFront.printArg]? := by
    rw [hplain, List.getElem?_drop]
    rfl
  have harg' : emitPrintArg jsFront cap V ws s.plain = .ok ws₁ := by
    unfold emitPrintArg at harg ⊢
    rw [hfirst]
    split at harg
    · exact harg
    · refine pyCond_transfer (fun c hc => ?_) harg
      exact Reads.of_eq [] (by rw [hplain]; exact hc.drop_eq)
  unfold emitPrint
  rw [harg']
  exact h

theorem emitTest_plain (hk : s.kind = .sWhile ∨ s.kind = .sIf)
    (h : emitTest pyFront cap V ws s = .ok ws') : emitTest jsFront cap V ws s.plain = .ok ws' := by
  obtain ⟨ws₁, hc, h⟩ := bind_ok h
  have hplain : s.plain.tk = (s.tk.drop 1).dropLast := by
    rcases hk with hk | hk
    · simp only [Stmt.plain, hk, plainTokens]
    · simp only [Stmt.plain, hk, plainTokens]
  have hc' : pyCond V.names cap s.plain.tk (s.plain.hi jsFront.condEnd) jsFront.condArg ws =
      .ok ws₁ := by
    refine pyCond_transfer (fun c hr => ?_) hc
    refine Reads.of_eq [] ?_
    -- one token before the condition and one behind it
    obtain ⟨⟨pre, post, htk, hpre⟩, hwhole⟩ := hr
    have hfits := s.fits
    have hlen := congrArg List.length htk
    simp only [List.length_append] at hlen
    have hpre1 : pre.length = 1 := hpre
    have hwhole' : 1 + c.yield.length = s.hi 2 + 1 := hwhole
    have hpost : post.length = 1 := by
      simp only [Stmt.hi, pyMaxTok] at *
      omega
    obtain ⟨k, rfl⟩ := List.length_eq_one_iff.mp hpre1
    obtain ⟨k', rfl⟩ := List.length_eq_one_iff.mp hpost
    rw [hplain, htk]
    simp
  unfold emitTest
  rw [hc']
  exact h

theorem takeElse_plain (h : ∀ e ∈ l.head?, e.kind = .sElse → e.indent = s.indent) :
    takeElse jsFront s.plain (l.map Stmt.plain) =
      (takeElse pyFront s l).map (List.map Stmt.plain) := by
  cases l with
  | nil => rfl
  | cons e l =>
    by_cases hk : e.kind = .sElse
    · have hi := h e rfl hk
      simp [takeElse, jsFront, pyFront, Stmt.plain, hk, hi]
    · simp [takeElse, jsFront, pyFront, Stmt.plain, hk]

theorem atDepth_transfer {α β : Type} {depth : Nat} {x : Except Stop α} {y : Except Stop β} {a : α}
    {b : β} (h : atDepth depth x = .ok a) (hy : y = .ok b) : atDepth depth y = .ok b := by
  unfold atDepth at h ⊢
  split at h
  · cases h
  · next hd => rw [if_neg hd, hy]

def CState.plain (st : CState) : CState := ⟨st.vars, st.ws, st.rest.map Stmt.plain⟩

theorem compileLoop_plain (n : Nat) {depth : Nat} {st st' : CState}
    (h : compileLoop pyFront cap n depth parent st = .ok st') (ha : AlignedElse st.rest) :
    compileLoop jsFront cap n depth parent st.plain = .ok st'.plain := by
  induction n generalizing depth parent st st' with
  | zero => cases h
  | succ n ih =>
    obtain ⟨V, ws, stmts⟩ := st
    unfold compileLoop at h ⊢
    cases stmts with
    | nil =>
      cases h
      rfl
    | cons s ss =>
      dsimp only at h
      simp only [CState.plain, List.map_cons]
      by_cases hd : (s.indent : Int) > parent
      · rw [if_pos hd] at h
        rw [if_pos (show (s.plain.indent : Int) > parent from hd)]
        have hkind : s.plain.kind = s.kind := rfl
        -- a block that was compiled ends at the first statement that is not deeper
        have hblock : ∀ {d : Nat} {ws₁ : List Word} {body : CState},
            compileLoop pyFront cap n d s.indent ⟨V, ws₁, ss⟩ = .ok body →
            body.rest = outer s ss ∧ AlignedElse body.rest := by
          intro d ws₁ body hbody
          obtain ⟨b, hb⟩ := compileLoop_sound n hbody
          have hrest : body.rest = outer s ss :=
            (hb.nests.aligned ha.2).rest_eq pyAligned_aligned
          refine ⟨hrest, ?_⟩
          rw [← hb.nests.drop_eq.2]
          exact ha.2.drop _
        cases hk : s.kind with
        | sAssign =>
          rw [hk] at h
          rw [hkind, hk]
          obtain ⟨⟨V₁, ws₁⟩, he, h⟩ := bind_ok h
          dsimp only
          rw [emitAssign_plain hk he]
          exact ih h ha.2
        | sPrint =>
          rw [hk] at h
          rw [hkind, hk]
          obtain ⟨ws₁, he, h⟩ := bind_ok h
          dsimp only
          rw [emitPrint_plain hk he]
          exact ih h ha.2
        | sWhile =>
          rw [hk] at h
          rw [hkind, hk]
          obtain ⟨ws₁, ht, h⟩ := bind_ok h
          obtain ⟨body, hbody, h⟩ := bind_ok h
          have hb := ih (atDepth_ok hbody) ha.2
          obtain ⟨_, hab⟩ := hblock (atDepth_ok hbody)
          dsimp only
          rw [emitTest_plain (.inl hk) ht]
          have hb' := atDepth_transfer hbody hb
          dsimp only [CState.plain] at hb'
          show (atDepth (depth + 1) (compileLoop jsFront cap n (depth + 1) s.indent
            ⟨V, ws₁, ss.map Stmt.plain⟩) >>= _) = _
          rw [hb']
          show (if body.ws.length = ws₁.length - 1 + 1 then _ else _) = _
          split at h
          · cases h
          · next hne =>
            rw [if_neg hne]
            obtain ⟨ws₂, hj, h⟩ := bind_ok h
            show (pyEmit cap body.ws .jmp (BitVec.ofNat 64 ws.length) 0 >>= _) = _
            rw [hj]
            exact ih h hab
        | sIf =>
          rw [hk] at h
          rw [hkind, hk]
          obtain ⟨ws₁, ht, h⟩ := bind_ok h
          obtain ⟨body, hbody, h⟩ := bind_ok h
          have hb := ih (atDepth_ok hbody) ha.2
          obtain ⟨hout, hab⟩ := hblock (atDepth_ok hbody)
          have htake := takeElse_plain (s := s) (l := body.rest)
            (fun e he hek => ha.1 hk e (by rw [← hout]; exact he) hek)
          dsimp only
          rw [emitTest_plain (.inr hk) ht]
          have hb' := atDepth_transfer hbody hb
          dsimp only [CState.plain] at hb'
          show (atDepth (depth + 1) (compileLoop jsFront cap n (depth + 1) s.indent
            ⟨V, ws₁, ss.map Stmt.plain⟩) >>= _) = _
          rw [hb']
          dsimp only [bind, Except.bind]
          rw [htake]
          cases he : takeElse pyFront s body.rest with
          | none =>
            rw [he] at h
            exact ih h hab
          | some mid =>
            rw [he] at h
            obtain ⟨e, hmid, _⟩ := takeElse_eq_some he
            rw [hmid] at hab
            obtain ⟨ws₂, hj, h⟩ := bind_ok h
            obtain ⟨alt, halt, h⟩ := bind_ok h
            have hal := atDepth_transfer halt (ih (atDepth_ok halt) hab.2)
            dsimp only [CState.plain] at hal
            show (pyEmit cap body.ws .jmp 0 0 >>= _) = _
            rw [hj]
            show (atDepth (depth + 1) (compileLoop jsFront cap n (depth + 1) s.indent
              ⟨body.vars, patch ws₂ (ws₁.length - 1) (body.ws.length + 1),
                mid.map Stmt.plain⟩) >>= _) = _
            rw [hal]
            obtain ⟨a, hca⟩ := compileLoop_sound n (atDepth_ok halt)
            refine ih h ?_
            rw [← hca.nests.drop_eq.2]
            exact hab.2.drop _
        | sElse | sOther => rw [hk] at h; cases h
      · rw [if_neg hd] at h
        cases h
        rw [if_neg (show ¬ (s.plain.indent : Int) > parent from hd)]
        rfl

end

/-! ## When the three compilers agree -/

theorem Nests.stop
    (h : Nests F parent l p rest) : ∀ s ∈ rest.head?, ¬ (s.indent : Int) > parent := by
  induction h with
  | done stop => exact stop
  | assign _ _ _ _ _ ih | print _ _ _ _ ih | printStr _ _ _ _ ih => exact ih
  | loop _ _ _ _ _ _ ih | when _ _ _ _ _ _ _ ih => exact ih
  | cond _ _ _ _ _ _ _ _ _ ih => exact ih

/-- The top level takes all statements. -/
theorem Nests.rest_eq_nil (h : Nests F (-1) l p rest) : rest = [] := by
  cases rest with
  | nil => rfl
  | cons s ss =>
    have hs := h.stop s rfl
    omega

/-- On a list that `py_compile_block` accepts, every `else` is the alternative of
the nearest `if` of its indentation and the other compilers emit the same words
for the same statements, exactly when the list is aligned. -/
theorem pyCompileBlock_else_iff (cap : Nat) (stmts : List Stmt) (st : CState)
    (h : pyCompileBlock cap 0 (-1) ⟨.empty, [], stmts⟩ = .ok st) :
    (∃ p, Nests pyFront (-1) stmts p [] ∧ st.ws = p.code st.vars.names.idxOf 0) ∧
    (((∀ p, Nests pyFront (-1) stmts p [] → ElseNearest stmts p) ∧
        jsCompileBlock cap 0 (-1) ⟨.empty, [], stmts.map Stmt.plain⟩ = .ok ⟨st.vars, st.ws, []⟩ ∧
        luaCompileBlock cap 0 (-1) ⟨.empty, [], stmts.map Stmt.plain⟩ = .ok ⟨st.vars, st.ws, []⟩) ↔
      AlignedElse stmts) := by
  have hloop := atDepth_ok (show atDepth 0 _ = .ok st from h)
  obtain ⟨q, hq⟩ := compileLoop_sound _ hloop
  have hrest : st.rest = [] := hq.nests.rest_eq_nil
  have hnests : Nests pyFront (-1) stmts q [] := hrest ▸ hq.nests
  have hcode : st.ws = q.code st.vars.names.idxOf 0 := hq.emitted _ fun x _ => rfl
  refine ⟨⟨q, hnests, hcode⟩, ?_, ?_⟩
  · intro ⟨hnearest, _⟩
    exact (hnests.aligned_of_pairs trivial 0 rfl fun i j hij =>
      ((hnearest q hnests).nearest i j hij).same).1
  · intro ha
    have hjs : jsCompileBlock cap 0 (-1) ⟨.empty, [], stmts.map Stmt.plain⟩ =
        .ok ⟨st.vars, st.ws, []⟩ := by
      have hplain := compileLoop_plain _ hloop ha
      simp only [CState.plain, hrest, List.map_nil] at hplain
      refine atDepth_transfer (show atDepth 0 _ = .ok st from h) ?_
      dsimp only
      rw [List.length_map]
      exact hplain
    refine ⟨?_, hjs, hjs⟩
    intro p hp
    refine ⟨?_, (hp.aligned ha).nearest 0 rfl⟩
    intro j e he hek
    have hlen := hp.drop_eq.1
    obtain ⟨hjlt, _⟩ := List.getElem?_eq_some_iff.mp he
    simp only [List.length_nil] at hlen
    exact hp.covered 0 rfl j e (Nat.zero_le _) (by omega) he hek

/-- `if 1:` -/
def ifOne (indent : Nat) : Stmt :=
  ⟨indent, .sIf, [.ident ⟨[105, 102], by decide, by decide⟩, .num 1, .op .colon], by decide⟩

/-- `else:` -/
def elseLine (indent : Nat) : Stmt :=
  ⟨indent, .sElse, [.ident ⟨[101, 108, 115, 101], by decide, by decide⟩, .op .colon], by decide⟩

/-- `print 7` -/
def printLine (indent : Nat) : Stmt :=
  ⟨indent, .sPrint, [.ident ⟨[112, 114, 105, 110, 116], by decide, by decide⟩, .num 7], by decide⟩

/-- An `if` with its `else`. -/
theorem pyCompileBlock_else_iff_one :
    ∃ st, pyCompileBlock 256 0 (-1)
        ⟨.empty, [], [ifOne 0, printLine 4, elseLine 0, printLine 4]⟩ = .ok st ∧
      jsCompileBlock 256 0 (-1)
        ⟨.empty, [], [ifOne 0, printLine 4, elseLine 0, printLine 4].map Stmt.plain⟩ =
          .ok ⟨st.vars, st.ws, []⟩ :=
  ⟨_, rfl, ((pyCompileBlock_else_iff 256 [ifOne 0, printLine 4, elseLine 0, printLine 4] _ rfl).2.mpr
    ⟨fun _ e he _ => by cases he; rfl, nofun, nofun, nofun, trivial⟩).2.1⟩

/-- The inner `if` takes the `else` of the outer one, and `managedjs` emits other
words. -/
theorem pyCompileBlock_dangling_else :
    ∃ st st' p, pyCompileBlock 256 0 (-1)
        ⟨.empty, [], [ifOne 0, ifOne 4, printLine 8, elseLine 0, printLine 4]⟩ = .ok st ∧
      Nests pyFront (-1) [ifOne 0, ifOne 4, printLine 8, elseLine 0, printLine 4] p [] ∧
      st.ws = p.code st.vars.names.idxOf 0 ∧
      (1, 3) ∈ p.elses 0 ∧
      ¬ ElseNearest [ifOne 0, ifOne 4, printLine 8, elseLine 0, printLine 4] p ∧
      jsCompileBlock 256 0 (-1) ⟨.empty, [],
        [ifOne 0, ifOne 4, printLine 8, elseLine 0, printLine 4].map Stmt.plain⟩ = .ok st' ∧
      st'.ws ≠ st.ws := by
  refine ⟨_, _,
    .when (.expr (.term (.factor (.num 1))))
      (.cond (.expr (.term (.factor (.num 1)))) (.print (.expr (.term (.factor (.num 7)))) .done)
        .done (.print (.expr (.term (.factor (.num 7)))) .done)) .done,
    rfl, ?_, rfl, by decide, ?_, rfl, by decide⟩
  · have hone : ∀ n, Reads (ifOne n).tk 1 ((ifOne n).hi 2) (.expr (.term (.factor (.num 1)))) :=
      fun n => ⟨⟨[_], [_], rfl, rfl⟩, by simp [Stmt.hi, ifOne, Cond.yield, Tree.yield]⟩
    have hseven : ∀ n, Reads (printLine n).tk 1 ((printLine n).hi 1)
        (.expr (.term (.factor (.num 7)))) :=
      fun n => ⟨⟨[_], [], rfl, rfl⟩, by simp [Stmt.hi, printLine, Cond.yield, Tree.yield]⟩
    refine .when (by decide) rfl (hone 0) (.cond (by decide) rfl (hone 4)
      (.print (by decide) rfl (hseven 8) (.done ?_)) rfl (.done ?_)
      (.print (by decide) rfl (hseven 4) (.done fun _ hs => by cases hs))) rfl
      (.done fun _ hs => by cases hs)
    · intro s hs
      cases hs
      decide
    · intro s hs
      cases hs
      decide
  · intro hn
    obtain ⟨s, e, hs, he, hsame⟩ := (hn.nearest 1 3 (by decide)).same
    cases hs
    cases he
    cases hsame

end Engines
