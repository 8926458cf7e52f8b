import OpenWindows.Engines.Kernel

/-!
# Safety of the poco kernel

`KInv` is the invariant of the loop of `meng_kernel_run`: the stack is a list
of well-formed values, both stacks are within their arrays, and `pc` and every
return address are at most the number of words.  `exec_safe` says what one word
does from a state of the invariant, and the invariant then holds along every
run of any words.

A string on the stack lies inside the pool or the scratch arena, so the reads
of `CONCAT` and `PRINT` never fault.  Only the quotient of `INT64_MIN` by `-1`
can.
-/

namespace Engines

open StepSystem

/-! ## Well-formed values -/

/-- The `l` bytes at `a` lie inside the pool or inside the scratch arena. -/
def KEnv.Inside (E : KEnv) (a l : Nat) : Prop :=
  (E.poolAddr ≤ a ∧ a + l ≤ E.poolAddr + poolSize) ∨
    (E.scratchAddr ≤ a ∧ a + l ≤ E.scratchAddr + scratchSize)

/-- A payload with its meta cell is an integer, or a string inside the pool or
the scratch arena. -/
inductive ValueOk (E : KEnv) : BitVec 64 → BitVec 64 → Prop where
  | int (v : BitVec 64) : ValueOk E v tInt
  | str {p : BitVec 64} {l : Nat} : E.Inside p.toNat l → ValueOk E p (strMeta l)

/-- The stack is a list of whole values, each of them well formed. -/
inductive StackOk (E : KEnv) : List (BitVec 64) → Prop where
  | nil : StackOk E []
  | cons {v mta : BitVec 64} {rest : List (BitVec 64)} :
      ValueOk E v mta → StackOk E rest → StackOk E (mta :: v :: rest)

variable {a l n : Nat} {E : KEnv}

theorem KEnv.Inside.le (h : E.Inside a l) : l ≤ poolSize := by
  have hs : scratchSize ≤ poolSize := by decide
  rcases h with ⟨h1, h2⟩ | ⟨h1, h2⟩ <;> omega

theorem strMeta_toNat (h : l ≤ poolSize) : (strMeta l).toNat = 4 * l + 1 := by
  have hl : l < 2 ^ 62 := lt_of_le_of_lt h (by decide)
  have hor : l <<< 2 ||| 1 = l <<< 2 + 1 := (Nat.shiftLeft_add_eq_or_of_lt (by decide) l).symm
  have hsh : l <<< 2 = 4 * l := by rw [Nat.shiftLeft_eq]; omega
  have hmod : l % 2 ^ 64 = l := Nat.mod_eq_of_lt (by omega)
  have hmod' : (4 * l) % 2 ^ 64 = 4 * l := Nat.mod_eq_of_lt (by omega)
  simp only [strMeta, tStr, BitVec.toNat_or, BitVec.toNat_shiftLeft, BitVec.toNat_ofNat, hmod,
    hsh, hmod']
  rw [hsh] at hor
  simpa using hor

theorem mengCellType_strMeta (h : l ≤ poolSize) : mengCellType (strMeta l) = tStr := by
  apply BitVec.eq_of_toNat_eq
  simp only [mengCellType, BitVec.toNat_and, strMeta_toNat h]
  rw [show (3 : BitVec 64).toNat = 2 ^ 2 - 1 from rfl, Nat.and_two_pow_sub_one_eq_mod]
  simp only [tStr, BitVec.ofNat_eq_ofNat, BitVec.toNat_ofNat]
  omega

theorem mengCellStrlen_strMeta (h : l ≤ poolSize) : mengCellStrlen (strMeta l) = l := by
  have hp : poolSize < 2 ^ 32 := by decide
  simp only [mengCellStrlen, BitVec.toNat_ushiftRight, strMeta_toNat h, Nat.shiftRight_eq_div_pow]
  omega

@[simp] theorem mengCellType_tInt : mengCellType tInt = tInt := by decide

variable {v mta : BitVec 64} {cells : List (BitVec 64)} {rest : List (BitVec 64)}

theorem ValueOk.tag (h : ValueOk E v mta) : mengCellType mta = tInt ∨ mengCellType mta = tStr := by
  cases h with
  | int => exact .inl (by simp)
  | str hin => exact .inr (mengCellType_strMeta hin.le)

theorem ValueOk.inside (h : ValueOk E v mta)
    (ht : mengCellType mta = tStr) : E.Inside v.toNat (mengCellStrlen mta) := by
  cases h with
  | int => exact absurd ht (by decide)
  | str hin => rwa [mengCellStrlen_strMeta hin.le]

theorem ValueOk.meta_eq (h : ValueOk E v mta) (ht : mengCellType mta = tInt) : mta = tInt := by
  cases h with
  | int => rfl
  | str hin =>
    rw [mengCellType_strMeta hin.le] at ht
    exact absurd ht (by decide)

theorem StackOk.even (h : StackOk E cells) : Even cells.length := by
  induction h with
  | nil => exact Even.zero
  | cons _ _ ih =>
    simp only [List.length_cons]
    exact ih.add even_two

/-! ## Reads inside the two objects -/

theorem KEnv.load_isSome {i : Nat} (scratch : Nat → UInt8)
    (h : E.Inside a l) (hi : i < l) : ∃ b, E.load scratch (a + i) = some b := by
  unfold KEnv.load
  split
  · exact ⟨_, rfl⟩
  · split
    · exact ⟨_, rfl⟩
    · rcases h with ⟨h1, h2⟩ | ⟨h1, h2⟩ <;> omega

theorem KEnv.Inside.tail (h : E.Inside a (n + 1)) : E.Inside (a + 1) n := by
  rcases h with ⟨h1, h2⟩ | ⟨h1, h2⟩
  · exact .inl ⟨by omega, by omega⟩
  · exact .inr ⟨by omega, by omega⟩

theorem KEnv.loadBytes_isSome (scratch : Nat → UInt8) :
    ∀ {a : Nat}, E.Inside a n → ∃ bs, E.loadBytes scratch a n = some bs := by
  induction n with
  | zero => exact fun _ => ⟨[], rfl⟩
  | succ n ih =>
    intro a h
    obtain ⟨b, hb⟩ := E.load_isSome scratch h (Nat.succ_pos n)
    obtain ⟨bs, hbs⟩ := ih h.tail
    rw [Nat.add_zero] at hb
    exact ⟨b :: bs, by simp [KEnv.loadBytes, hb, hbs]⟩

theorem KEnv.copyIn_isSome :
    ∀ {a : Nat} (dst : Nat) (scratch : Nat → UInt8), E.Inside a n →
      ∃ scratch', E.copyIn n a dst scratch = some scratch' := by
  induction n with
  | zero => exact fun _ scratch _ => ⟨scratch, rfl⟩
  | succ n ih =>
    intro a dst scratch h
    obtain ⟨b, hb⟩ := E.load_isSome scratch h (Nat.succ_pos n)
    rw [Nat.add_zero] at hb
    obtain ⟨scratch', hs⟩ := ih (dst + 1) (Function.update scratch dst b) h.tail
    exact ⟨scratch', by simp [KEnv.copyIn, hb, hs]⟩

/-! ## The invariant and what one word does -/

/-- The invariant of the loop. -/
structure KInv (E : KEnv) (nw ng : Nat) (s : KState) : Prop where
  stack : StackOk E s.cells
  depth : s.cells.length ≤ stackCells
  rdepth : s.rstk.length ≤ stackCells / 2
  pc : s.pc ≤ nw
  returns : ∀ p ∈ s.rstk, p ≤ nw
  globals : s.g.length = ng

/-- A step is safe: it keeps the invariant, or it stops without a wild access,
and with `MENG_BAN_CORE` only under `core`. -/
def Safe (E : KEnv) (nw ng : Nat) (core : Prop) : KState ⊕ KResult → Prop
  | .inl s => KInv E nw ng s
  | .inr r => r.exit ≠ .fault .wildRead ∧ r.exit ≠ .fault .wildGlobal ∧
      (r.exit = .status .banCore → core)

variable {nw ng : Nat} {core : Prop} {s : KState}

theorem safe_done {st : Status} (h : st ≠ .banCore) : Safe E nw ng core (s.done st) :=
  ⟨by simp, by simp, fun he => absurd (Exit.status.inj he) h⟩

theorem safe_next (h : KInv E nw ng s) (hc : StackOk E cells)
    (hl : cells.length ≤ stackCells) : Safe E nw ng core (s.next cells) :=
  { h with stack := hc, depth := hl }

theorem safe_push (h : KInv E nw ng s) (hv : ValueOk E v mta) :
    Safe E nw ng core (s.push v mta) := by
  unfold KState.push
  split
  · exact safe_done (by decide)
  · exact safe_next h (.cons hv h.stack) (by simp only [List.length_cons]; omega)

theorem safe_jump (h : KInv E nw ng s) (a0 : BitVec 64) :
    Safe E nw ng core (s.jump nw a0) := by
  unfold KState.jump
  split
  · exact safe_done (by decide)
  · next hn => exact { h with pc := by simp only [not_or, not_lt] at hn; exact hn.2 }

theorem KInv.drop (h : KInv E nw ng s) (hr : StackOk E rest)
    (hl : rest.length ≤ s.cells.length) : KInv E nw ng { s with cells := rest } :=
  { h with stack := hr, depth := hl.trans h.depth }

theorem safe_popInt (h : KInv E nw ng s)
    {k : BitVec 64 → List (BitVec 64) → KState ⊕ KResult}
    (hk : ∀ v rest, StackOk E rest → rest.length + 2 ≤ s.cells.length →
      Safe E nw ng core (k v rest)) :
    Safe E nw ng core (s.popInt k) := by
  have hst := h.stack
  unfold KState.popInt
  cases hc : s.cells with
  | nil => exact safe_done (by decide)
  | cons mta tl =>
    rw [hc] at hst
    cases hst with
    | cons hv hrest =>
      dsimp only
      split
      · exact safe_done (by decide)
      · exact hk _ _ hrest (by rw [hc]; simp)

theorem safe_popInts (h : KInv E nw ng s)
    {k : BitVec 64 → BitVec 64 → List (BitVec 64) → KState ⊕ KResult}
    (hk : ∀ a b rest, StackOk E rest → rest.length + 4 ≤ s.cells.length →
      Safe E nw ng core (k a b rest)) :
    Safe E nw ng core (s.popInts k) := by
  have hst := h.stack
  unfold KState.popInts
  cases hc : s.cells with
  | nil => exact safe_done (by decide)
  | cons mb tl =>
    rw [hc] at hst
    cases hst with
    | cons hb hrest =>
      cases hrest with
      | nil => exact safe_done (by decide)
      | cons ha hrest' =>
        dsimp only
        split
        · exact safe_done (by decide)
        · split
          · exact safe_done (by decide)
          · exact hk _ _ _ hrest' (by rw [hc]; simp)

theorem safe_concat (h : KInv E nw ng s) {pa pb ma mb : BitVec 64}
    (ha : ValueOk E pa ma) (hb : ValueOk E pb mb) (hta : mengCellType ma = tStr)
    (htb : mengCellType mb = tStr) (hr : StackOk E rest) (hl : rest.length ≤ s.cells.length) :
    Safe E nw ng core
      (s.concat E pa.toNat (mengCellStrlen ma) pb.toNat (mengCellStrlen mb) rest) := by
  unfold KState.concat
  dsimp only
  split
  · exact safe_done (by decide)
  · next htot =>
    obtain ⟨scratch, h1⟩ := E.copyIn_isSome 0 s.m.scratch (ha.inside hta)
    obtain ⟨scratch', h2⟩ :=
      E.copyIn_isSome (mengCellStrlen ma) scratch (hb.inside htb)
    rw [h1]
    dsimp only
    rw [h2]
    dsimp only
    -- the result is the scratch arena itself, from its first byte on
    refine safe_push ?_ (.str ?_)
    · exact { h with stack := hr, depth := hl.trans h.depth }
    · have hfits := E.scratch_fits
      have hpos : 0 < scratchSize := by decide
      rw [BitVec.toNat_ofNat, Nat.mod_eq_of_lt (by omega)]
      exact .inr ⟨Nat.le_refl _, by omega⟩

theorem exec_safe (w : Word) (h : KInv E nw ng s) :
    Safe E nw ng (Op.ofCode? w.op = none) (exec E nw w s) := by
  have hst := h.stack
  unfold exec
  cases ho : Op.ofCode? w.op with
  | none => exact ⟨by simp, by simp, fun _ => rfl⟩
  | some o =>
    dsimp only
    cases o with
    | nop => exact h
    | pushi => exact safe_push h (.int _)
    | pushs =>
      dsimp only
      split
      · exact safe_done (by decide)
      · split
        · exact safe_done (by decide)
        · refine safe_push h (.str (.inl ?_))
          have hfits := E.pool_fits
          rw [BitVec.toNat_ofNat, Nat.mod_eq_of_lt (by omega)]
          exact ⟨by omega, by omega⟩
    | dup2 =>
      dsimp only
      cases hc : s.cells with
      | nil => exact safe_done (by decide)
      | cons mta tl =>
        rw [hc] at hst
        cases hst with
        | cons hv _ => exact safe_push h hv
    | swap2 =>
      dsimp only
      cases hc : s.cells with
      | nil => exact safe_done (by decide)
      | cons mb tl =>
        have hd := h.depth
        rw [hc] at hst hd
        cases hst with
        | cons hb hrest =>
          cases hrest with
          | nil => exact safe_done (by decide)
          | cons ha hrest' =>
            exact safe_next h (.cons ha (.cons hb hrest')) (by simpa using hd)
    | drop2 =>
      dsimp only
      cases hc : s.cells with
      | nil => exact safe_done (by decide)
      | cons mb tl =>
        have hd := h.depth
        rw [hc] at hst hd
        cases hst with
        | cons _ hrest =>
          simp only [List.length_cons] at hd
          exact safe_next h hrest (by omega)
    | iadd | isub | imul | idiv | imod =>
      refine safe_popInts h fun a b rest hr hl => ?_
      split
      · exact safe_done (by decide)
      · exact ⟨by simp, by simp, by simp⟩
      · exact safe_push (h.drop hr (by omega)) (.int _)
    | ineg =>
      dsimp only
      cases hc : s.cells with
      | nil => exact safe_done (by decide)
      | cons mta tl =>
        have hd := h.depth
        rw [hc] at hst hd
        cases hst with
        | cons hv hrest =>
          dsimp only
          split
          · exact safe_done (by decide)
          · next ht =>
            rw [hv.meta_eq (not_not.mp ht)]
            exact safe_next h (.cons (.int _) hrest) (by simpa using hd)
    | cmpeq | cmpne | cmplt | cmple =>
      have hd := h.depth
      refine safe_popInts h fun a b rest hr hl => ?_
      exact safe_next h (.cons (.int _) hr) (by simp only [List.length_cons]; omega)
    | jnz =>
      refine safe_popInt h fun v rest hr hl => ?_
      split
      · exact safe_jump (h.drop hr (by omega)) _
      · exact h.drop hr (by omega)
    | jmp => exact safe_jump h _
    | gload =>
      dsimp only
      split
      · exact safe_done (by decide)
      · next hlt =>
        rw [List.getElem?_eq_getElem (by omega)]
        exact safe_push h (.int _)
    | gstore =>
      dsimp only
      split
      · exact safe_done (by decide)
      · next hlt =>
        refine safe_popInt h fun v rest hr hl => ?_
        rw [if_pos (by omega)]
        have hdrop := h.drop hr (by omega)
        exact { hdrop with globals := by simpa using h.globals }
    | call =>
      dsimp only
      split
      · exact safe_done (by decide)
      · split
        · exact safe_done (by decide)
        · refine { h with rdepth := ?_, pc := ?_, returns := ?_ }
          · simp only [List.length_cons]
            omega
          · dsimp only
            omega
          · intro p hp
            rcases List.mem_cons.mp hp with rfl | hp
            · exact h.pc
            · exact h.returns p hp
    | ret =>
      dsimp only
      cases hr : s.rstk with
      | nil => exact safe_done (by decide)
      | cons pc rstk =>
        have hd := h.rdepth
        have hret := h.returns
        rw [hr] at hd hret
        refine { h with rdepth := ?_, pc := hret pc (by simp), returns := ?_ }
        · simp only [List.length_cons] at hd
          dsimp only
          omega
        · exact fun p hp => hret p (List.mem_cons_of_mem _ hp)
    | concat =>
      dsimp only
      cases hc : s.cells with
      | nil => exact safe_done (by decide)
      | cons mb tl =>
        rw [hc] at hst
        cases hst with
        | cons hb hrest =>
          cases hrest with
          | nil => exact safe_done (by decide)
          | cons ha hrest' =>
            dsimp only
            split
            · exact safe_done (by decide)
            · next htb =>
              split
              · exact safe_done (by decide)
              · next hta =>
                exact safe_concat h ha hb (not_not.mp hta) (not_not.mp htb) hrest'
                  (by rw [hc]; simp only [List.length_cons]; omega)
    | print =>
      dsimp only
      cases hc : s.cells with
      | nil => exact safe_done (by decide)
      | cons mta tl =>
        rw [hc] at hst
        cases hst with
        | cons hv hrest =>
          have hdrop := h.drop hrest (by rw [hc]; simp only [List.length_cons]; omega)
          dsimp only
          split
          · exact { hdrop with }
          · split
            · next ht =>
              obtain ⟨bs, hbs⟩ := E.loadBytes_isSome s.m.scratch (hv.inside ht)
              rw [hbs]
              exact { hdrop with }
            · exact safe_done (by decide)
    | halt => exact safe_done (by decide)

/-! ## Whole runs -/

theorem kernelStep_safe {words : List Word} (h : KInv E words.length ng s) :
    Safe E words.length ng (∃ w, words[s.pc]? = some w ∧ Op.ofCode? w.op = none)
      (kernelStep E words s) := by
  unfold kernelStep
  cases hw : words[s.pc]? with
  | none => exact safe_done (by decide)
  | some w =>
    dsimp only
    split
    · exact safe_done (by decide)
    · next m _ =>
      have hpc : s.pc < words.length := (List.getElem?_eq_some_iff.mp hw).1
      have h' : KInv E words.length ng { s with m := m, pc := s.pc + 1 } :=
        { h with pc := by dsimp only; omega }
      have hex := exec_safe w h'
      cases hr : exec E words.length w { s with m := m, pc := s.pc + 1 } with
      | inl t =>
        rw [hr] at hex
        exact hex
      | inr r =>
        rw [hr] at hex
        exact ⟨hex.1, hex.2.1, fun hb => ⟨w, rfl, hex.2.2 hb⟩⟩

/-- The loop starts in the invariant. -/
theorem kInv_init (E : KEnv) (nw : Nat) (m : Machine) (g : List (BitVec 64)) :
    KInv E nw g.length (KState.init m g) where
  stack := .nil
  depth := Nat.zero_le _
  rdepth := Nat.zero_le _
  pc := Nat.zero_le _
  returns := by simp [KState.init]
  globals := rfl

theorem kInv_steps {words : List Word} {m : Machine} {g : List (BitVec 64)}
    (h : Steps (kernelStep E words) n (KState.init m g) s) : KInv E words.length g.length s := by
  refine h.invariant (fun u v hu huv => ?_) (kInv_init E words.length m g)
  have hsafe := kernelStep_safe hu
  rw [huv] at hsafe
  exact hsafe

/-- Safety of the kernel.  For all words, machines and globals, every state the
loop of `meng_kernel_run` reaches has a value stack of whole values within its
array, a return stack within its array, and `pc` at most the number of words.
Every value on the stack is an integer or a string inside the pool or the
scratch arena.  From such a state no turn of the loop makes a wild read or a
wild access to the globals, the tag of a value on the stack is one that `PRINT`
knows, and `MENG_BAN_CORE` answers only an opcode outside the enumeration. -/
theorem mengKernelRun_safe (E : KEnv) (m : Machine) (words : List Word) (g : List (BitVec 64))
    (_hg : g.length ≤ kGlobals) (n : Nat) (s : KState)
    (h : Steps (kernelStep E words) n (KState.init m g) s) :
    (Even s.cells.length ∧ s.cells.length ≤ stackCells) ∧
    s.rstk.length ≤ stackCells / 2 ∧
    s.pc ≤ words.length ∧
    s.g.length = g.length ∧
    StackOk E s.cells ∧
    (∀ mta v rest, s.cells = mta :: v :: rest →
      mengCellType mta = tInt ∨ mengCellType mta = tStr) ∧
    (∀ r, kernelStep E words s = .inr r →
      r.exit ≠ .fault .wildRead ∧ r.exit ≠ .fault .wildGlobal ∧
      (r.exit = .status .banCore → ∃ w, words[s.pc]? = some w ∧ Op.ofCode? w.op = none)) := by
  have hinv := kInv_steps h
  refine ⟨⟨hinv.stack.even, hinv.depth⟩, hinv.rdepth, hinv.pc, hinv.globals, hinv.stack, ?_, ?_⟩
  · intro mta v rest hc
    have hst := hinv.stack
    rw [hc] at hst
    cases hst with
    | cons hv _ => exact hv.tag
  · intro r hr
    have hsafe := kernelStep_safe hinv
    rw [hr] at hsafe
    exact hsafe

/-- One pushed integer. -/
theorem mengKernelRun_safe_pushi :
    ∃ s, Steps (kernelStep default [Word.mk' .pushi 5 0]) 1 (KState.init default [0]) s ∧
      s.cells = [tInt, 5] ∧ Even s.cells.length ∧ s.cells.length ≤ stackCells :=
  ⟨_, .one rfl, rfl,
    (mengKernelRun_safe default default [Word.mk' .pushi 5 0] [0] (by decide) 1 _ (.one rfl)).1⟩

end Engines
