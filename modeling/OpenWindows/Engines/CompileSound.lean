import OpenWindows.Engines.ExprParse
import OpenWindows.Engines.Structured

/-!
# What the statement compilers accept and emit

`Nests F parent stmts p rest` says how a front-end reads a block: the statements
`stmts` begin with the program `p`, indented deeper than `parent`, and `rest`
follows.  A compiler that succeeds has read a program in this sense and emitted
its code (`compileLoop_sound`).

The slots of the variables are given by the table as it is in the end.  The
table only grows, so a slot that was emitted stays right.
-/

namespace Engines

/-! ## Blocks -/

/-- The statements begin with a block, deeper than `parent`, that is the
program `p`, and `rest` follows. -/
inductive Nests (F : Front) : Int → List Stmt → Prog → List Stmt → Prop where
  | done {parent : Int} {stmts : List Stmt} (stop : ∀ s ∈ stmts.head?, ¬ (s.indent : Int) > parent) :
      Nests F parent stmts .done stmts
  | assign {parent : Int} {s : Stmt} {ss rest : List Stmt} {x : Ident} {c : Cond} {p : Prog}
      (deeper : (s.indent : Int) > parent) (kind : s.kind = .sAssign)
      (target : F.target s.tk = some x) (value : Reads s.tk F.valueArg (s.hi 1) c)
      (next : Nests F parent ss p rest) : Nests F parent (s :: ss) (.assign x c p) rest
  | print {parent : Int} {s : Stmt} {ss rest : List Stmt} {c : Cond} {p : Prog}
      (deeper : (s.indent : Int) > parent) (kind : s.kind = .sPrint)
      (arg : Reads s.tk F.printArg (s.hi 1) c)
      (next : Nests F parent ss p rest) : Nests F parent (s :: ss) (.print c p) rest
  | printStr {parent : Int} {s : Stmt} {ss rest : List Stmt} {so sl : UInt32} {p : Prog}
      (deeper : (s.indent : Int) > parent) (kind : s.kind = .sPrint)
      (arg : s.tk[F.printArg]? = some (.str so sl))
      (next : Nests F parent ss p rest) : Nests F parent (s :: ss) (.printStr so sl p) rest
  | loop {parent : Int} {s : Stmt} {ss mid rest : List Stmt} {c : Cond} {b p : Prog}
      (deeper : (s.indent : Int) > parent) (kind : s.kind = .sWhile)
      (test : Reads s.tk F.condArg (s.hi F.condEnd) c) (body : Nests F s.indent ss b mid)
      (next : Nests F parent mid p rest) : Nests F parent (s :: ss) (.loop c b p) rest
  | when {parent : Int} {s : Stmt} {ss mid rest : List Stmt} {c : Cond} {b p : Prog}
      (deeper : (s.indent : Int) > parent) (kind : s.kind = .sIf)
      (test : Reads s.tk F.condArg (s.hi F.condEnd) c) (body : Nests F s.indent ss b mid)
      (noElse : takeElse F s mid = none)
      (next : Nests F parent mid p rest) : Nests F parent (s :: ss) (.when c b p) rest
  | cond {parent : Int} {s : Stmt} {ss mid mid' mid'' rest : List Stmt} {c : Cond} {b a p : Prog}
      (deeper : (s.indent : Int) > parent) (kind : s.kind = .sIf)
      (test : Reads s.tk F.condArg (s.hi F.condEnd) c) (body : Nests F s.indent ss b mid)
      (hasElse : takeElse F s mid = some mid') (alt : Nests F s.indent mid' a mid'')
      (next : Nests F parent mid'' p rest) : Nests F parent (s :: ss) (.cond c b a p) rest

/-! ## Slots -/

/-- The slots of the variables in a table. -/
def VarTab.Slots (V : VarTab) (slot : Ident → Nat) : Prop := ∀ x ∈ V.names, slot x = V.names.idxOf x

theorem VarTab.Slots.mono {V V' : VarTab} {slot : Ident → Nat} (h : V'.Slots slot)
    (hle : V.names <+: V'.names) : V.Slots slot := by
  intro x hx
  obtain ⟨more, hmore⟩ := hle
  rw [h x (by rw [← hmore]; exact List.mem_append_left _ hx), ← hmore,
    List.idxOf_append_of_mem hx]

variable {slot slot' : Ident → Nat}

theorem Tree.code_congr {c : Cat} (t : Tree c)
    (h : ∀ x ∈ t.names, slot x = slot' x) : t.code slot = t.code slot' := by
  induction t with
  | num v => rfl
  | name x => simp only [Tree.code, h x (List.mem_singleton_self x)]
  | paren e ih | factor e ih | term e ih => exact ih h
  | neg f ih => simp only [Tree.code, ih h]
  | mulop o l r ihl ihr | addop o l r ihl ihr =>
    simp only [Tree.code, ihl fun x hx => h x (List.mem_append_left _ hx),
      ihr fun x hx => h x (List.mem_append_right _ hx)]

theorem Cond.code_congr (c : Cond)
    (h : ∀ x ∈ c.names, slot x = slot' x) : c.code slot = c.code slot' := by
  cases c with
  | expr e => exact e.code_congr h
  | cmp o l r =>
    simp only [Cond.code, l.code_congr fun x hx => h x (List.mem_append_left _ hx),
      r.code_congr fun x hx => h x (List.mem_append_right _ hx)]

theorem pyVarDeclare_ok {V V' : VarTab} {x : Ident} {i : Nat} (h : pyVarDeclare V x = .ok (V', i)) :
    V.names <+: V'.names ∧ x ∈ V'.names ∧ i = V'.names.idxOf x := by
  unfold pyVarDeclare at h
  split at h
  · next j hj =>
    cases h
    obtain ⟨hx, hi⟩ := pyVarFind_eq_some hj
    exact ⟨List.prefix_refl _, hx, hi⟩
  · next hf =>
    split at h
    · cases h
    · cases h
      have hx : x ∉ V.names := List.idxOf?_eq_none_iff.mp hf
      refine ⟨List.prefix_append _ _, List.mem_append_right _ (List.mem_singleton_self x), ?_⟩
      simp [VarTab.snoc, List.idxOf_append_of_notMem hx]

section

variable {F : Front} {cap : Nat} {V : VarTab} {ws ws' : List Word} {s : Stmt}

/-! ## Single statements -/

theorem pyCond_slots {tk : List Tok} {lo hi : Nat} (h : pyCond V.names cap tk hi lo ws = .ok ws') :
    ∃ c, Reads tk lo hi c ∧ (∀ x ∈ c.names, x ∈ V.names) ∧
      (∀ slot, V.Slots slot → ws' = ws ++ c.code slot) ∧ ws'.length ≤ cap := by
  obtain ⟨c, hc, hws, hcap⟩ := pyCond_sound h
  refine ⟨c, hc.toReads, hc.declared, ?_, ?_⟩
  · intro slot hslot
    rw [hws, c.code_congr fun x hx => hslot x (hc.declared x hx)]
  · rwa [hws, List.length_append, Cond.length_code]

theorem emitAssign_ok {V' : VarTab} (h : emitAssign F cap V ws s = .ok (V', ws')) :
    ∃ x c, F.target s.tk = some x ∧ Reads s.tk F.valueArg (s.hi 1) c ∧ V.names <+: V'.names ∧
      x ∈ V'.names ∧ (∀ y ∈ c.names, y ∈ V'.names) ∧
      (∀ slot, V'.Slots slot →
        ws' = ws ++ (c.code slot ++ [Word.mk' .gstore (BitVec.ofNat 64 (slot x)) 0])) ∧
      ws'.length ≤ cap := by
  unfold emitAssign at h
  cases hx : F.target s.tk with
  | none => rw [hx] at h; cases h
  | some x =>
    rw [hx] at h
    obtain ⟨⟨V₁, i⟩, hdecl, h⟩ := bind_ok h
    obtain ⟨ws₁, hval, h⟩ := bind_ok h
    obtain ⟨ws₂, hst, h⟩ := bind_ok h
    cases h
    obtain ⟨hpre, hmem, rfl⟩ := pyVarDeclare_ok hdecl
    rw [F.value_eq hx] at hval
    obtain ⟨c, hc, hnames, hcode, _⟩ := pyCond_slots hval
    obtain ⟨hws, hcap⟩ := pyEmit_ok hst
    refine ⟨x, c, rfl, hc, hpre, hmem, hnames, ?_, hcap⟩
    intro slot hslot
    rw [hws, hcode slot hslot, hslot x hmem, List.append_assoc]

theorem emitPrint_ok (h : emitPrint F cap V ws s = .ok ws') :
    (∃ so sl, s.tk[F.printArg]? = some (.str so sl) ∧ ws' = ws ++ printStrCode so sl) ∧
        ws'.length ≤ cap ∨
      (∃ c, Reads s.tk F.printArg (s.hi 1) c ∧ (∀ x ∈ c.names, x ∈ V.names) ∧
        ∀ slot, V.Slots slot → ws' = ws ++ (c.code slot ++ [Word.plain .print])) ∧
        ws'.length ≤ cap := by
  obtain ⟨ws₁, harg, hp⟩ := bind_ok h
  obtain ⟨hws, hcap⟩ := pyEmit_ok hp
  unfold emitPrintArg at harg
  split at harg
  · next so sl htk =>
    obtain ⟨hws₁, _⟩ := pyEmit_ok harg
    exact .inl ⟨⟨so, sl, htk, by rw [hws, hws₁, List.append_assoc]; rfl⟩, hcap⟩
  · obtain ⟨c, hc, hnames, hcode, _⟩ := pyCond_slots harg
    refine .inr ⟨⟨c, hc, hnames, ?_⟩, hcap⟩
    intro slot hslot
    rw [hws, hcode slot hslot, List.append_assoc]
    rfl

theorem emitTest_ok (h : emitTest F cap V ws s = .ok ws') :
    ∃ c, Reads s.tk F.condArg (s.hi F.condEnd) c ∧ (∀ x ∈ c.names, x ∈ V.names) ∧
      (∀ slot, V.Slots slot → ws' = ws ++ testCode slot c 0) ∧ ws'.length ≤ cap := by
  obtain ⟨ws₁, hc, h⟩ := bind_ok h
  obtain ⟨ws₂, h2, h⟩ := bind_ok h
  obtain ⟨ws₃, h3, h⟩ := bind_ok h
  obtain ⟨c, hreads, hnames, hcode, _⟩ := pyCond_slots hc
  obtain ⟨rfl, _⟩ := pyEmit_ok h2
  obtain ⟨rfl, _⟩ := pyEmit_ok h3
  obtain ⟨rfl, hcap⟩ := pyEmit_ok h
  refine ⟨c, hreads, hnames, ?_, hcap⟩
  intro slot hslot
  rw [hcode slot hslot]
  simp [testCode, Word.plain]

/-! ## Patching -/

theorem patch_append (pre post : List Word) (w : Word) (a : Nat) :
    patch (pre ++ w :: post) pre.length a = pre ++ { w with a0 := BitVec.ofNat 64 a } :: post := by
  unfold patch
  induction pre with
  | nil => rfl
  | cons v pre ih => simpa [List.modify_succ_cons] using ih

theorem patch_test (slot : Ident → Nat) (c : Cond) (ws post : List Word) (t a : Nat) :
    patch (ws ++ testCode slot c t ++ post) ((ws ++ testCode slot c t).length - 1) a =
      ws ++ testCode slot c a ++ post := by
  have hsplit : ws ++ testCode slot c t ++ post =
      (ws ++ (c.code slot ++ [Word.mk' .pushi 0 0, Word.plain .cmpeq])) ++
        Word.mk' .jnz (BitVec.ofNat 64 t) 0 :: post := by
    simp [testCode]
  have hidx : (ws ++ testCode slot c t).length - 1 =
      (ws ++ (c.code slot ++ [Word.mk' .pushi 0 0, Word.plain .cmpeq])).length := by
    simp [testCode]
  rw [hidx, hsplit, patch_append]
  simp [testCode, Word.mk']

theorem patch_jmp (ws post : List Word) (t a : Nat) :
    patch (ws ++ jmpTo t :: post) ws.length a = ws ++ jmpTo a :: post := by
  rw [patch_append]
  rfl

@[simp] theorem length_patch (ws : List Word) (i a : Nat) : (patch ws i a).length = ws.length := by
  simp [patch]

/-! ## Programs -/

/-- From `st` a compiler has read the program `p` and emitted its code, and has
stopped in `st'`. -/
structure Compiled (F : Front) (cap : Nat) (parent : Int) (st st' : CState) (p : Prog) : Prop where
  nests : Nests F parent st.rest p st'.rest
  emitted : ∀ slot, st'.vars.Slots slot → st'.ws = st.ws ++ p.code slot st.ws.length
  vars : st.vars.names <+: st'.vars.names
  declared : ∀ x ∈ p.names, x ∈ st'.vars.names
  fits : st.ws.length ≤ cap → st'.ws.length ≤ cap

end

section

variable {F : Front} {cap : Nat} {parent : Int} {V : VarTab} {ws : List Word} {s : Stmt}
variable {ss : List Stmt} {st' : CState} {p : Prog}

theorem Compiled.assign {V₁ : VarTab} {ws₁ : List Word} (hd : (s.indent : Int) > parent)
    (hk : s.kind = .sAssign) (he : emitAssign F cap V ws s = .ok (V₁, ws₁))
    (h : Compiled F cap parent ⟨V₁, ws₁, ss⟩ st' p) :
    ∃ q, Compiled F cap parent ⟨V, ws, s :: ss⟩ st' q := by
  obtain ⟨x, c, hx, hc, hpre, hmem, hnames, hcode, hcap⟩ := emitAssign_ok he
  refine ⟨.assign x c p, .assign hd hk hx hc h.nests, ?_, hpre.trans h.vars, ?_, ?_⟩
  · intro slot hslot
    have hws₁ := hcode slot (hslot.mono h.vars)
    have hend := h.emitted slot hslot
    dsimp only at hend ⊢
    rw [hend, hws₁]
    simp only [Prog.code, List.append_assoc, List.length_append, Cond.length_code,
      List.length_singleton]
  · intro y hy
    rcases List.mem_cons.mp hy with rfl | hy
    · exact h.vars.subset hmem
    · rcases List.mem_append.mp hy with hy | hy
      · exact h.vars.subset (hnames y hy)
      · exact h.declared y hy
  · intro _
    exact h.fits hcap

theorem Compiled.print {ws₁ : List Word} (hd : (s.indent : Int) > parent)
    (hk : s.kind = .sPrint) (he : emitPrint F cap V ws s = .ok ws₁)
    (h : Compiled F cap parent ⟨V, ws₁, ss⟩ st' p) :
    ∃ q, Compiled F cap parent ⟨V, ws, s :: ss⟩ st' q := by
  rcases emitPrint_ok he with ⟨⟨so, sl, htk, hws₁⟩, hcap⟩ | ⟨⟨c, hc, hnames, hcode⟩, hcap⟩
  · refine ⟨.printStr so sl p, .printStr hd hk htk h.nests, ?_, h.vars, h.declared,
      fun _ => h.fits hcap⟩
    intro slot hslot
    have hend := h.emitted slot hslot
    dsimp only at hend ⊢
    rw [hend, hws₁]
    simp only [Prog.code, List.append_assoc, List.length_append]
    rfl
  · refine ⟨.print c p, .print hd hk hc h.nests, ?_, h.vars, ?_, fun _ => h.fits hcap⟩
    · intro slot hslot
      have hws₁ := hcode slot (hslot.mono h.vars)
      have hend := h.emitted slot hslot
      dsimp only at hend ⊢
      rw [hend, hws₁]
      simp only [Prog.code, List.append_assoc, List.length_append, Cond.length_code,
        List.length_singleton]
    · intro y hy
      rcases List.mem_append.mp hy with hy | hy
      · exact h.vars.subset (hnames y hy)
      · exact h.declared y hy

theorem Compiled.loop {ws₁ ws₂ : List Word} {body : CState} {b : Prog}
    (hd : (s.indent : Int) > parent) (hk : s.kind = .sWhile)
    (ht : emitTest F cap V ws s = .ok ws₁)
    (hb : Compiled F cap s.indent ⟨V, ws₁, ss⟩ body b)
    (hj : pyEmit cap body.ws .jmp (BitVec.ofNat 64 ws.length) 0 = .ok ws₂)
    (h : Compiled F cap parent ⟨body.vars, patch ws₂ (ws₁.length - 1) ws₂.length, body.rest⟩
      st' p) :
    ∃ q, Compiled F cap parent ⟨V, ws, s :: ss⟩ st' q := by
  obtain ⟨c, hc, hnames, hcode, _⟩ := emitTest_ok ht
  obtain ⟨hws₂, hcap⟩ := pyEmit_ok hj
  refine ⟨.loop c b p, .loop hd hk hc hb.nests h.nests, ?_, hb.vars.trans h.vars, ?_, ?_⟩
  · intro slot hslot
    have hslot₁ : body.vars.Slots slot := hslot.mono h.vars
    have hws₁ := hcode slot (hslot₁.mono hb.vars)
    have hbody := hb.emitted slot hslot₁
    have hend := h.emitted slot hslot
    dsimp only at hbody hend ⊢
    rw [hend, length_patch, hws₂, hbody, hws₁]
    have hpatch := patch_test slot c ws
      (b.code slot (ws ++ testCode slot c 0).length ++ [jmpTo ws.length]) 0
    simp only [← List.append_assoc, jmpTo] at hpatch
    rw [hpatch]
    simp only [Prog.code, jmpTo, List.append_assoc, List.length_append, length_testCode,
      Prog.length_code, List.length_singleton, Nat.add_assoc]
  · intro y hy
    rcases List.mem_append.mp hy with hy | hy
    · rcases List.mem_append.mp hy with hy | hy
      · exact h.vars.subset (hb.vars.subset (hnames y hy))
      · exact h.vars.subset (hb.declared y hy)
    · exact h.declared y hy
  · intro _
    exact h.fits (by rwa [length_patch])

theorem Compiled.when {ws₁ : List Word} {body : CState} {b : Prog}
    (hd : (s.indent : Int) > parent) (hk : s.kind = .sIf)
    (ht : emitTest F cap V ws s = .ok ws₁)
    (hb : Compiled F cap s.indent ⟨V, ws₁, ss⟩ body b) (he : takeElse F s body.rest = none)
    (h : Compiled F cap parent
      ⟨body.vars, patch body.ws (ws₁.length - 1) body.ws.length, body.rest⟩ st' p) :
    ∃ q, Compiled F cap parent ⟨V, ws, s :: ss⟩ st' q := by
  obtain ⟨c, hc, hnames, hcode, hcap⟩ := emitTest_ok ht
  refine ⟨.when c b p, .when hd hk hc hb.nests he h.nests, ?_, hb.vars.trans h.vars, ?_, ?_⟩
  · intro slot hslot
    have hslot₁ : body.vars.Slots slot := hslot.mono h.vars
    have hws₁ := hcode slot (hslot₁.mono hb.vars)
    have hbody := hb.emitted slot hslot₁
    have hend := h.emitted slot hslot
    dsimp only at hbody hend ⊢
    rw [hend, length_patch, hbody, hws₁, patch_test]
    simp only [Prog.code, List.append_assoc, List.length_append, length_testCode, Prog.length_code,
      Nat.add_assoc]
  · intro y hy
    rcases List.mem_append.mp hy with hy | hy
    · rcases List.mem_append.mp hy with hy | hy
      · exact h.vars.subset (hb.vars.subset (hnames y hy))
      · exact h.vars.subset (hb.declared y hy)
    · exact h.declared y hy
  · intro _
    exact h.fits (by rw [length_patch]; exact hb.fits hcap)

theorem Compiled.cond {ws₁ ws₂ : List Word} {body alt : CState} {b a : Prog} {mid : List Stmt}
    (hd : (s.indent : Int) > parent) (hk : s.kind = .sIf)
    (ht : emitTest F cap V ws s = .ok ws₁)
    (hb : Compiled F cap s.indent ⟨V, ws₁, ss⟩ body b) (he : takeElse F s body.rest = some mid)
    (hj : pyEmit cap body.ws .jmp 0 0 = .ok ws₂)
    (ha : Compiled F cap s.indent
      ⟨body.vars, patch ws₂ (ws₁.length - 1) (body.ws.length + 1), mid⟩ alt a)
    (h : Compiled F cap parent ⟨alt.vars, patch alt.ws body.ws.length alt.ws.length, alt.rest⟩
      st' p) :
    ∃ q, Compiled F cap parent ⟨V, ws, s :: ss⟩ st' q := by
  obtain ⟨c, hc, hnames, hcode, _⟩ := emitTest_ok ht
  obtain ⟨hjmp, hcap⟩ := pyEmit_ok hj
  have hws₂ : ws₂ = body.ws ++ [jmpTo 0] := hjmp
  refine ⟨.cond c b a p, .cond hd hk hc hb.nests he ha.nests h.nests, ?_,
    hb.vars.trans (ha.vars.trans h.vars), ?_, ?_⟩
  · intro slot hslot
    have hslot₂ : alt.vars.Slots slot := hslot.mono h.vars
    have hslot₁ : body.vars.Slots slot := hslot₂.mono ha.vars
    have hws₁ := hcode slot (hslot₁.mono hb.vars)
    have hbody := hb.emitted slot hslot₁
    have halt := ha.emitted slot hslot₂
    have hend := h.emitted slot hslot
    dsimp only at hbody halt hend ⊢
    -- the words up to the jump over the alternative
    have hhead : patch ws₂ (ws₁.length - 1) (body.ws.length + 1) =
        ws ++ testCode slot c (body.ws.length + 1) ++ b.code slot ws₁.length ++ [jmpTo 0] := by
      have hpatch := patch_test slot c ws (b.code slot ws₁.length ++ [jmpTo 0]) 0
        (body.ws.length + 1)
      rw [← hws₁, ← List.append_assoc, ← hbody] at hpatch
      rw [hws₂, hpatch]
      simp only [List.append_assoc]
    have hlen : body.ws.length =
        (ws ++ testCode slot c (body.ws.length + 1) ++ b.code slot ws₁.length).length := by
      rw [hbody, hws₁]
      simp only [List.length_append, length_testCode, Prog.length_code]
    rw [hend, length_patch]
    rw [length_patch] at halt
    rw [hhead, List.append_assoc, List.singleton_append] at halt
    have hjel := patch_jmp (ws ++ testCode slot c (body.ws.length + 1) ++ b.code slot ws₁.length)
      (a.code slot ws₂.length) 0 alt.ws.length
    rw [← hlen] at hjel
    have hstop : alt.ws.length = ws₂.length + a.size := by
      rw [halt, hws₂]
      simp only [List.length_append, List.length_cons, ← hlen, Prog.length_code, List.length_nil]
      omega
    rw [← halt] at hjel
    rw [hjel, hstop, hws₂, hbody, hws₁]
    simp only [Prog.code, List.append_assoc, List.length_append, length_testCode, Prog.length_code,
      List.length_singleton, List.cons_append, List.nil_append, Nat.add_assoc]
  · intro y hy
    rcases List.mem_append.mp hy with hy | hy
    · rcases List.mem_append.mp hy with hy | hy
      · rcases List.mem_append.mp hy with hy | hy
        · exact h.vars.subset (ha.vars.subset (hb.vars.subset (hnames y hy)))
        · exact h.vars.subset (ha.vars.subset (hb.declared y hy))
      · exact h.vars.subset (ha.declared y hy)
    · exact h.declared y hy
  · intro _
    refine h.fits ?_
    rw [length_patch]
    exact ha.fits (by rwa [length_patch])

variable {depth : Nat}

theorem atDepth_ok {α : Type} {x : Except Stop α} {a : α}
    (h : atDepth depth x = .ok a) : x = .ok a := by
  unfold atDepth at h
  split at h
  · cases h
  · exact h

variable {st : CState}

theorem compileLoop_sound (n : Nat) (h : compileLoop F cap n depth parent st = .ok st') :
    ∃ p, Compiled F cap parent st st' p := by
  induction n generalizing depth parent st st' with
  | zero => cases h
  | succ n ih =>
    obtain ⟨V, ws, stmts⟩ := st
    unfold compileLoop at h
    cases stmts with
    | nil =>
      cases h
      exact ⟨.done, .done (by simp), by simp [Prog.code], List.prefix_refl _,
        by simp [Prog.names], id⟩
    | cons s ss =>
      dsimp only at h
      by_cases hd : (s.indent : Int) > parent
      · rw [if_pos hd] at h
        cases hk : s.kind with
        | sAssign =>
          rw [hk] at h
          obtain ⟨⟨V₁, ws₁⟩, he, h⟩ := bind_ok h
          obtain ⟨p, hp⟩ := ih h
          exact hp.assign hd hk he
        | sPrint =>
          rw [hk] at h
          obtain ⟨ws₁, he, h⟩ := bind_ok h
          obtain ⟨p, hp⟩ := ih h
          exact hp.print hd hk he
        | sWhile =>
          rw [hk] at h
          obtain ⟨ws₁, ht, h⟩ := bind_ok h
          obtain ⟨body, hbody, h⟩ := bind_ok h
          obtain ⟨b, hb⟩ := ih (atDepth_ok hbody)
          split at h
          · cases h
          · obtain ⟨ws₂, hj, h⟩ := bind_ok h
            obtain ⟨p, hp⟩ := ih h
            exact Compiled.loop hd hk ht hb hj hp
        | sIf =>
          rw [hk] at h
          obtain ⟨ws₁, ht, h⟩ := bind_ok h
          obtain ⟨body, hbody, h⟩ := bind_ok h
          obtain ⟨b, hb⟩ := ih (atDepth_ok hbody)
          cases he : takeElse F s body.rest with
          | none =>
            rw [he] at h
            obtain ⟨p, hp⟩ := ih h
            exact Compiled.when hd hk ht hb he hp
          | some mid =>
            rw [he] at h
            obtain ⟨ws₂, hj, h⟩ := bind_ok h
            obtain ⟨alt, halt, h⟩ := bind_ok h
            obtain ⟨a, ha⟩ := ih (atDepth_ok halt)
            obtain ⟨p, hp⟩ := ih h
            exact Compiled.cond hd hk ht hb he hj ha hp
        | sElse | sOther => rw [hk] at h; cases h
      · rw [if_neg hd] at h
        cases h
        refine ⟨.done, .done ?_, by simp [Prog.code], List.prefix_refl _,
          by simp [Prog.names], id⟩
        intro t ht
        cases ht
        exact hd

/-! ## The statements of a program -/

/-- The number of statements of a program. -/
def Prog.lines : Prog → Nat
  | .done => 0
  | .assign _ _ rest => 1 + rest.lines
  | .print _ rest => 1 + rest.lines
  | .printStr _ _ rest => 1 + rest.lines
  | .loop _ body rest => 1 + body.lines + rest.lines
  | .when _ body rest => 1 + body.lines + rest.lines
  | .cond _ body alt rest => 1 + body.lines + 1 + alt.lines + rest.lines

theorem takeElse_eq_some {l l' : List Stmt} (h : takeElse F s l = some l') :
    ∃ e, l = e :: l' ∧ F.owns s e = true := by
  cases l with
  | nil => cases h
  | cons e l =>
    simp only [takeElse] at h
    split at h
    · next he =>
      cases h
      exact ⟨e, rfl, he⟩
    · cases h

theorem Nests.drop_eq {stmts rest : List Stmt} (h : Nests F parent stmts p rest) :
    stmts.length = p.lines + rest.length ∧ stmts.drop p.lines = rest := by
  induction h with
  | done => exact ⟨by simp [Prog.lines], rfl⟩
  | assign _ _ _ _ _ ih | print _ _ _ _ ih | printStr _ _ _ _ ih =>
    refine ⟨by simp only [Prog.lines, List.length_cons]; omega, ?_⟩
    rw [Prog.lines, Nat.add_comm, List.drop_succ_cons]
    exact ih.2
  | loop _ _ _ _ _ ihb ih | when _ _ _ _ _ _ ihb ih =>
    refine ⟨by simp only [Prog.lines, List.length_cons]; omega, ?_⟩
    rw [Prog.lines, Nat.add_assoc, Nat.add_comm 1, List.drop_succ_cons, ← List.drop_drop, ihb.2]
    exact ih.2
  | cond _ _ _ _ he _ _ ihb iha ih =>
    obtain ⟨e, rfl, _⟩ := takeElse_eq_some he
    simp only [List.length_cons] at ihb
    refine ⟨by simp only [Prog.lines, List.length_cons]; omega, ?_⟩
    rw [Prog.lines, Nat.add_assoc, ← List.drop_drop, Nat.add_assoc 1, ← List.drop_drop,
      ← List.drop_drop, ← List.drop_drop, List.drop_succ_cons, List.drop_zero, ihb.2,
      List.drop_succ_cons, List.drop_zero, iha.2]
    exact ih.2

end

end Engines
