import OpenWindows.Engines.Shell
import OpenWindows.Engines.Strings

/-!
# The output of a machine

Everything an engine prints goes through `meng_machine_out`.  The abstract output is the text
of all calls, one after the other, and the machine holds as much of it as its buffer has room
for.  Engines write to a machine and do not look at what became of it, so a program prints the
same text whatever the capacity is.

A machine without an output buffer has no room, whatever its `out_cap` says, and `out_total`
counts modulo `2 ^ 64`.
-/

namespace Engines

open StepSystem

/-! ## What a machine receives -/

/-- A sequence of calls of `meng_machine_out`. -/
def Machine.emitAll (m : Machine) (ps : List (List UInt8)) : Machine := ps.foldl Machine.emit m

/-- The room a machine has: none without an output buffer. -/
def Machine.capacity (m : Machine) : Nat :=
  match m.out with
  | none => 0
  | some _ => m.outCap.toNat

/-- The bytes `out[0..out_len)`. -/
def Machine.written (m : Machine) : List UInt8 :=
  match m.out with
  | none => []
  | some buf => bytesFrom buf m.outLen.toNat

/-- Nothing was printed yet. -/
def Machine.Fresh (m : Machine) : Prop := m.outLen = 0 ∧ m.outTotal = 0

/-- The machine `m'` is `m` after it received a text. -/
structure Received (m : Machine) (text : List UInt8) (m' : Machine) : Prop where
  cap : m'.outCap = m.outCap
  total : m'.outTotal = UInt64.ofNat text.length
  len : m'.outLen.toNat = min text.length m.capacity
  out : m'.out = m.out.map (overlay (text.take m.capacity))
  trunc : m.capacity < text.length → m'.flags &&& mflagTrunc ≠ 0

variable {m m' : Machine} {text p : List UInt8}

theorem Machine.capacity_le (m : Machine) : m.capacity ≤ m.outCap.toNat := by
  unfold Machine.capacity
  split
  · exact Nat.zero_le _
  · exact Nat.le_refl _

theorem Machine.Fresh.received (h : m.Fresh) : Received m [] m where
  cap := rfl
  total := h.2
  len := by
    rw [h.1]
    exact (Nat.zero_min _).symm
  out := by
    rw [List.take_nil]
    cases m.out <;> rfl
  trunc := fun h => absurd h (Nat.not_lt_zero _)

theorem or_mflagTrunc (f : UInt32) : (f ||| mflagTrunc) &&& mflagTrunc = mflagTrunc := by
  apply UInt32.eq_of_toBitVec_eq
  ext i hi
  simp only [mflagTrunc, UInt32.toBitVec_and, UInt32.toBitVec_or, BitVec.getElem_and,
    BitVec.getElem_or]
  grind

theorem setTrunc_flags (m : Machine) : m.setTrunc.flags &&& mflagTrunc ≠ 0 := by
  rw [Machine.setTrunc, or_mflagTrunc]
  decide

theorem writeOut_overlay {buf : Nat → UInt8} {text p : List UInt8} {cap : Nat}
    (h : text.length ≤ cap) :
    writeOut (overlay text buf) text.length (min p.length (cap - text.length)) p =
      overlay ((text ++ p).take cap) buf := by
  funext j
  rw [writeOut, overlay, overlay, List.getD_eq_getElem?_getD, List.getD_eq_getElem?_getD,
    List.getD_eq_getElem?_getD, List.getElem?_take]
  by_cases hold : j < text.length
  · rw [if_neg (by omega), if_pos (by omega), List.getElem?_append_left hold]
  · rw [List.getElem?_append_right (Nat.not_lt.1 hold), List.getElem?_eq_none (Nat.not_lt.1 hold)]
    by_cases hnew : j < text.length + min p.length (cap - text.length)
    · have hp : j - text.length < p.length := by omega
      rw [if_pos ⟨Nat.not_lt.1 hold, hnew⟩, if_pos (by omega), List.getElem?_eq_getElem hp]
      rfl
    · rw [if_neg (fun h => hnew h.2)]
      split
      · rw [List.getElem?_eq_none (by omega)]
      · rfl

def Machine.Full (m : Machine) : Prop := m.out = none ∨ m.outCap = 0 ∨ m.outCap ≤ m.outLen

theorem emit_full (h : m.Full) (p : List UInt8) :
    m.emit p =
      ({ m with outTotal := m.outTotal + UInt64.ofNat p.length } : Machine).setTrunc := by
  unfold Machine.emit mengMachineOut
  dsimp only
  cases hbuf : m.out with
  | none => rfl
  | some buf =>
    have hfull : m.outCap = 0 ∨ m.outCap ≤ m.outLen := by
      cases h with
      | inl hnone =>
        rw [hbuf] at hnone
        cases hnone
      | inr hfull => exact hfull
    exact congrArg Prod.snd (if_pos hfull)

theorem Received.full (h : Received m text m') (hfull : m'.Full) :
    m.capacity ≤ text.length := by
  have hle := m.capacity_le
  have hlen := h.len
  rcases hfull with hnone | hzero | hfull
  · have hout : m.out = none := by
      rw [h.out] at hnone
      exact Option.map_eq_none_iff.1 hnone
    rw [Machine.capacity, hout]
    exact Nat.zero_le _
  · rw [← h.cap, hzero] at hle
    exact Nat.le_trans hle (Nat.zero_le _)
  · rw [UInt32.le_iff_toNat_le, h.cap] at hfull
    omega

theorem Received.room (h : Received m text m') (hroom : ¬ m'.Full) :
    ∃ buf, m.out = some buf ∧ m.capacity = m'.outCap.toNat ∧ text.length < m.capacity ∧
      m'.outLen.toNat = text.length := by
  have hlen := h.len
  cases hbuf : m.out with
  | none =>
    refine absurd (.inl ?_) hroom
    rw [h.out, hbuf]
    rfl
  | some buf =>
    have hcap : m.capacity = m'.outCap.toNat := by rw [Machine.capacity, hbuf, h.cap]
    have hlt : m'.outLen.toNat < m'.outCap.toNat :=
      UInt32.lt_iff_toNat_lt.1 (UInt32.not_le.1 fun hle => hroom (.inr (.inr hle)))
    exact ⟨buf, rfl, hcap, by omega, by omega⟩

/-- One call of `meng_machine_out`. -/
theorem Received.emit (h : Received m text m') (p : List UInt8) :
    Received m (text ++ p) (m'.emit p) := by
  have htotal : m'.outTotal + UInt64.ofNat p.length = UInt64.ofNat (text ++ p).length := by
    rw [h.total, List.length_append, UInt64.ofNat_add]
  have hlength : (text ++ p).length = text.length + p.length := List.length_append
  have hlen := h.len
  by_cases hfull : m'.Full
  · have hle := h.full hfull
    rw [emit_full hfull]
    refine ⟨h.cap, htotal, ?_, ?_, fun _ => setTrunc_flags _⟩
    · rw [Nat.min_eq_right hle] at hlen
      rw [Nat.min_eq_right (by omega)]
      exact hlen
    · rw [List.take_append_of_le_length hle]
      exact h.out
  · obtain ⟨buf, hbuf, hcap, hfit, hpos⟩ := h.room hfull
    have hout := h.out
    rw [hbuf] at hout
    have hsub : (m'.outCap - m'.outLen).toNat = m.capacity - text.length := by
      rw [UInt32.toNat_sub_of_le _ _ (UInt32.le_iff_toNat_le.2 (by omega)), hpos, hcap]
    have hadd : (m'.outLen + UInt32.ofNat (min p.length (m.capacity - text.length))).toNat =
        min (text ++ p).length m.capacity := by
      have hsmall := m'.outCap.toNat_lt
      rw [UInt32.toNat_add, UInt32.toNat_ofNat', hpos]
      omega
    have hbytes : some (writeOut (overlay (text.take m.capacity) buf) m'.outLen.toNat
        (min p.length (m.capacity - text.length)) p) =
        m.out.map (overlay ((text ++ p).take m.capacity)) := by
      rw [List.take_of_length_le (Nat.le_of_lt hfit), hpos,
        writeOut_overlay (Nat.le_of_lt hfit), hbuf]
      rfl
    unfold Machine.emit mengMachineOut
    dsimp only
    rw [hout]
    dsimp only [Option.map_some]
    rw [if_neg (fun hor => hfull (.inr hor)), hsub]
    split
    · exact ⟨h.cap, htotal, hadd, hbytes, fun _ => setTrunc_flags _⟩
    · exact ⟨h.cap, htotal, hadd, hbytes, fun hlt => by omega⟩

/-- All calls of a sequence. -/
theorem Received.emitAll (h : Received m text m') (ps : List (List UInt8)) :
    Received m (text ++ ps.flatten) (m'.emitAll ps) := by
  induction ps generalizing m' text with
  | nil =>
    rw [List.flatten_nil, List.append_nil]
    exact h
  | cons p ps ih =>
    rw [List.flatten_cons, ← List.append_assoc]
    exact ih (h.emit p)

theorem Received.written (h : Received m text m') : m'.written = text.take m.capacity := by
  have hout := h.out
  have hlen := h.len
  cases hbuf : m.out with
  | none =>
    have hcap : m.capacity = 0 := by rw [Machine.capacity, hbuf]
    rw [hbuf] at hout
    rw [Machine.written, hout, hcap, List.take_zero]
    rfl
  | some buf =>
    rw [hbuf] at hout
    rw [Machine.written, hout, hlen]
    refine (bytesFrom_eq_iff (by rw [List.length_take, Nat.min_comm])).2 fun k hk => ?_
    rw [overlay, List.getD_eq_getElem?_getD, List.getElem?_eq_getElem]
    · rfl
    · rw [List.length_take]
      omega

/-! ## Programs print the same whatever the capacity -/

def Machine.withOutput (m k : Machine) : Machine :=
  { m with out := k.out, outCap := k.outCap, outLen := k.outLen, outTotal := k.outTotal,
           flags := k.flags }

def SameButOutput (m m' : Machine) : Prop := m.withOutput m' = m'

theorem emit_withOutput (m k : Machine) (p : List UInt8) :
    (m.withOutput k).emit p = m.withOutput (k.emit p) := by
  unfold Machine.emit mengMachineOut Machine.withOutput
  dsimp only
  cases k.out with
  | none => rfl
  | some buf =>
    dsimp only
    split
    · rfl
    · split <;> rfl

def KState.withOutput (k : Machine) (s : KState) : KState := s.mapMachine (·.withOutput k)

def KResult.withOutput (k : Machine) (r : KResult) : KResult := r.mapMachine (·.withOutput k)

theorem transparent_withOutput (k : Machine) : Transparent (·.withOutput k) :=
  ⟨fun _ => rfl, fun _ _ _ => rfl⟩

theorem mengMachineOutInt_withOutput (m k : Machine) (v : BitVec 64) :
    (mengMachineOutInt (m.withOutput k) v).2 =
      ({ m with num := mengItoa v numBufSize } : Machine).withOutput
        (k.emit (mengItoa v numBufSize)) :=
  emit_withOutput { m with num := mengItoa v numBufSize } k _

theorem exec_withOutput (E : KEnv) (nw : Nat) (w : Word) (s : KState) :
    ∃ (ps : List (List UInt8)) (u : KState ⊕ KResult), ∀ k, exec E nw w (s.withOutput k) =
      Sum.map (KState.withOutput (ps.foldl Machine.emit k))
        (KResult.withOutput (ps.foldl Machine.emit k)) u := by
  by_cases hw : Op.ofCode? w.op = some .print
  · unfold exec
    rw [hw]
    dsimp only [KState.withOutput, KState.mapMachine]
    split
    · next mta v rest hcells =>
      split
      · exact ⟨[mengItoa v numBufSize],
          .inl { s with m := { s.m with num := mengItoa v numBufSize }, cells := rest }, fun k =>
            congrArg (fun m => Sum.inl { s with m := m, cells := rest })
              (mengMachineOutInt_withOutput s.m k v)⟩
      · split
        · have hscratch : ∀ k, (s.m.withOutput k).scratch = s.m.scratch := fun _ => rfl
          simp only [hscratch]
          cases E.loadBytes s.m.scratch v.toNat (mengCellStrlen mta) with
          | none => exact ⟨[], s.fault .wildRead, fun k => rfl⟩
          | some bs =>
            exact ⟨[bs], .inl { s with cells := rest }, fun k =>
              congrArg (fun m => Sum.inl { s with m := m, cells := rest })
                (emit_withOutput s.m k bs)⟩
        · exact ⟨[], s.done .errRuntime, fun k => rfl⟩
    · exact ⟨[], s.done .errRuntime, fun k => rfl⟩
  · exact ⟨[], exec E nw w s, fun k => exec_mapMachine (transparent_withOutput k) E nw hw s⟩

theorem kernelStep_oblivious (E : KEnv) (words : List Word) :
    Oblivious KState.withOutput KResult.withOutput Machine.emit (kernelStep E words) := by
  intro s
  unfold kernelStep
  dsimp only [KState.withOutput, KState.mapMachine]
  cases words[s.pc]? with
  | none => exact ⟨[], s.done .ok, fun k => rfl⟩
  | some w =>
    have hcharge : ∀ k, mengMachineStep (s.m.withOutput k) =
        ((mengMachineStep s.m).1, (mengMachineStep s.m).2.withOutput k) := by
      intro k
      unfold mengMachineStep Machine.withOutput
      dsimp only
      split <;> rfl
    simp only [hcharge]
    cases (mengMachineStep s.m).1 with
    | false => exact ⟨[], ({ s with m := (mengMachineStep s.m).2 } : KState).done .errTrap,
        fun k => rfl⟩
    | true =>
      exact exec_withOutput E words.length w
        { s with m := (mengMachineStep s.m).2, pc := s.pc + 1 }

/-! ## The shell -/

def Prints (f : Machine → Status × Machine) : Prop :=
  ∃ (ps : List (List UInt8)) (st : Status) (m : Machine), ∀ k : Machine,
    f k = (st, m.withOutput (ps.foldl Machine.emit k))

theorem Prints.after {f : Machine → Status × Machine} (ps : List (List UInt8)) (h : Prints f) :
    Prints fun k => f (ps.foldl Machine.emit k) := by
  obtain ⟨ps', st, m, hall⟩ := h
  refine ⟨ps ++ ps', st, m, fun k => ?_⟩
  rw [List.foldl_append]
  exact hall _

theorem mengMachineStep_withOutput (m k : Machine) :
    mengMachineStep (m.withOutput k) =
      ((mengMachineStep m).1, (mengMachineStep m).2.withOutput k) := by
  unfold mengMachineStep Machine.withOutput
  dsimp only
  split <;> rfl

theorem print_withOutput (x : ShVar) (m : Machine) :
    ∃ (p : List UInt8) (m' : Machine), ∀ k, x.print (m.withOutput k) = m'.withOutput (k.emit p) := by
  unfold ShVar.print
  split
  · exact ⟨x.sval, m, fun k => emit_withOutput m k x.sval⟩
  · exact ⟨_, _, fun k => mengMachineOutInt_withOutput m k x.v⟩

theorem mengMachineOutChar_withOutput (m k : Machine) (c : UInt8) :
    (mengMachineOutChar (m.withOutput k) c).2 = m.withOutput (k.emit [c]) :=
  emit_withOutput m k [c]

theorem mengShExpandWord_prints (vars : List ShVar) (n : Nat) (cs : List UInt8) (m : Machine) :
    Prints fun k => mengShExpandWord vars n cs (m.withOutput k) := by
  induction n generalizing cs m with
  | zero =>
    cases cs with
    | nil | cons c cs => exact ⟨[], .ok, m, fun k => rfl⟩
  | succ n ih =>
    cases cs with
    | nil => exact ⟨[], .ok, m, fun k => rfl⟩
    | cons c cs =>
      unfold mengShExpandWord
      simp only [mengMachineOutChar_withOutput, mengMachineStep_withOutput]
      split
      · split
        · exact (ih _ m).after [[36]]
        · cases mengShFindVar vars (dollarName cs) with
          | none => exact ih _ m
          | some x =>
            obtain ⟨p, m', hprint⟩ := print_withOutput x m
            simp only [hprint]
            exact (ih _ m').after [p]
      · cases (mengMachineStep m).1 with
        | false => exact ⟨[], .errTrap, (mengMachineStep m).2, fun k => rfl⟩
        | true =>
          simp only [mengMachineOutChar_withOutput]
          exact (ih cs (mengMachineStep m).2).after [[c]]

theorem shEcho_prints (vars : List ShVar) (first : Bool) (ws : List (List UInt8)) (m : Machine) :
    Prints fun k => shEcho vars first ws (m.withOutput k) := by
  induction ws generalizing first m with
  | nil => exact ⟨[], .ok, m, fun k => rfl⟩
  | cons w ws ih =>
    have hword : Prints fun k => shEcho vars true (w :: ws) (m.withOutput k) := by
      obtain ⟨ps, st, m', hall⟩ := mengShExpandWord_prints vars w.length w m
      simp only [shEcho, if_true, hall]
      cases st with
      | ok => exact (ih false m').after ps
      | _ => exact ⟨ps, _, m', fun k => rfl⟩
    cases first with
    | true => exact hword
    | false =>
      unfold shEcho
      simp only [mengMachineOutChar_withOutput]
      exact hword.after [[32]]

def ShState.withOutput (k : Machine) : ShState → ShState
  | .collect l labels m => .collect l labels (m.withOutput k)
  | .execute lineno labels vars m => .execute lineno labels vars (m.withOutput k)

def shResult (k : Machine) (r : Status × Machine) : Status × Machine := (r.1, r.2.withOutput k)

theorem shCommand_withOutput (labels : List ShLabel) (lineno : Nat) (vars : List ShVar)
    (m : Machine) (w : List UInt8) (args : List (List UInt8)) :
    ∃ (ps : List (List UInt8)) (u : ShState ⊕ (Status × Machine)), ∀ k,
      shCommand labels lineno vars (m.withOutput k) w args =
        Sum.map (ShState.withOutput (ps.foldl Machine.emit k))
          (shResult (ps.foldl Machine.emit k)) u := by
  unfold shCommand
  dsimp only
  split
  · exact ⟨[], .inr (.ok, m), fun k => rfl⟩
  · split
    · split
      · next vars' _ => exact ⟨[], .inl (.execute (nextLine lineno) labels vars' m), fun k => rfl⟩
      · next st _ => exact ⟨[], .inr (st, m), fun k => rfl⟩
    · split
      · split
        · next x _ =>
          split
          · exact ⟨[], .inr (.errRuntime, m), fun k => rfl⟩
          · exact ⟨[], .inl (.execute _ labels _ m), fun k => rfl⟩
        · exact ⟨[], .inr (.errRuntime, m), fun k => rfl⟩
      · split
        · obtain ⟨ps, st, m', hecho⟩ := shEcho_prints vars true args m
          simp only [hecho]
          cases st with
          | ok => exact ⟨ps, .inl (.execute (nextLine lineno) labels vars m'), fun k => rfl⟩
          | _ => exact ⟨ps, .inr (_, m'), fun k => rfl⟩
        · split
          · exact ⟨[], .inl (.execute (nextLine lineno) labels vars m), fun k => rfl⟩
          · split
            · exact ⟨[], .inl (.execute (nextLine lineno) labels vars m), fun k => rfl⟩
            · split
              · split
                · next st _ => exact ⟨[], .inr (st, m), fun k => rfl⟩
                · next l _ => exact ⟨[], .inl (.execute l labels vars m), fun k => rfl⟩
                · exact ⟨[], .inl (.execute (nextLine lineno) labels vars m), fun k => rfl⟩
              · exact ⟨[], .inr (.errSyntax, m), fun k => rfl⟩

theorem shStep_oblivious (manifest : List UInt8) :
    Oblivious ShState.withOutput shResult Machine.emit (shStep manifest) := by
  intro s
  cases s with
  | collect l labels m =>
    unfold shStep
    dsimp only [ShState.withOutput]
    cases mengShFindLine l manifest with
    | none => exact ⟨[], .inl (.execute 0 labels [] m), fun k => rfl⟩
    | some line =>
      exact ⟨[], .inl (.collect (nextLine l) (collectLabel (shWords line) l labels) m),
        fun k => rfl⟩
  | execute lineno labels vars m =>
    unfold shStep
    dsimp only [ShState.withOutput]
    cases mengShFindLine lineno manifest with
    | none => exact ⟨[], .inr (.ok, m), fun k => rfl⟩
    | some line =>
      simp only [mengMachineStep_withOutput]
      cases (mengMachineStep m).1 with
      | false => exact ⟨[], .inr (.errTrap, (mengMachineStep m).2), fun k => rfl⟩
      | true =>
        dsimp only
        cases shWords line with
        | nil =>
          exact ⟨[], .inl (.execute (nextLine lineno) labels vars (mengMachineStep m).2),
            fun k => rfl⟩
        | cons w args => exact shCommand_withOutput labels lineno vars _ w args

/-! ## Whole programs -/

/-- What programs of one kind return on a machine: a value and the machine they leave. -/
abbrev Program (α : Type) : Type := Machine → α × Machine → Prop

/-- The capacity decides how much of the output is kept, and nothing else. -/
def CapacityBlind {α : Type} (P : Program α) : Prop :=
  ∀ m m', m.Fresh → m'.Fresh → SameButOutput m m' → m.capacity ≤ m'.capacity →
    ((∃ r, P m r) ↔ ∃ r', P m' r') ∧
      ∀ r r', P m r → P m' r' → r.1 = r'.1 ∧ r.2.written = r'.2.written.take m.capacity

theorem sameButOutput_symm (h : SameButOutput m m') : SameButOutput m' m := by
  unfold SameButOutput at h ⊢
  rw [← h]
  rfl

theorem capacityBlind_of_prints {α : Type} {P : Program α}
    (hall : ∀ m, (∃ r, P m r) → ∃ (ps : List (List UInt8)) (a : α) (m₁ : Machine), ∀ k,
      P (m.withOutput k) (a, m₁.withOutput (k.emitAll ps)))
    (huniq : ∀ m r r', P m r → P m r' → r = r') : CapacityBlind P := by
  intro m m' hm hm' hsame hcap
  refine ⟨⟨fun h => ?_, fun h => ?_⟩, fun r r' hr hr' => ?_⟩
  · obtain ⟨ps, a, m₁, h⟩ := hall m h
    have hP := h m'
    rw [show m.withOutput m' = m' from hsame] at hP
    exact ⟨_, hP⟩
  · obtain ⟨ps, a, m₁, h⟩ := hall m' h
    have hP := h m
    rw [show m'.withOutput m = m from sameButOutput_symm hsame] at hP
    exact ⟨_, hP⟩
  · obtain ⟨ps, a, m₁, h⟩ := hall m ⟨r, hr⟩
    have hP := h m'
    rw [show m.withOutput m' = m' from hsame] at hP
    have hleft : (m₁.withOutput (m.emitAll ps)).written = ps.flatten.take m.capacity :=
      (hm.received.emitAll ps).written
    have hright : (m₁.withOutput (m'.emitAll ps)).written = ps.flatten.take m'.capacity :=
      (hm'.received.emitAll ps).written
    cases huniq m r _ hr (h m)
    cases huniq m' r' _ hr' hP
    refine ⟨rfl, ?_⟩
    dsimp only
    rw [hleft, hright, List.take_take, Nat.min_eq_left hcap]

/-- `meng_kernel_run` on given words and globals. -/
def kernelProgram (E : KEnv) (words : List Word) (g : List (BitVec 64)) :
    Program (Exit × List (BitVec 64)) :=
  fun m r => KernelReturns E m words g ⟨r.1.1, r.2, r.1.2⟩

/-- `engine_sh_run` on a given script. -/
def shProgram (manifest : List UInt8) : Program Status := fun m r => ShReturns m manifest r

theorem kernelReturns_badArg {E : KEnv} {words : List Word} {g : List (BitVec 64)} {r : KResult}
    (h : ¬ (words ≠ [] ∧ g.length ≤ kGlobals)) :
    KernelReturns E m words g r ↔ r = ⟨.status .errBadArg, m, g⟩ := by
  have hrun : ∀ fuel, mengKernelRun E fuel m words g = some ⟨.status .errBadArg, m, g⟩ := by
    intro fuel
    unfold mengKernelRun
    split
    · rfl
    · next hw =>
      rw [List.length_eq_zero_iff] at hw
      exact if_pos (Nat.not_le.1 fun hg => h ⟨hw, hg⟩)
  constructor
  · rintro ⟨fuel, hr⟩
    rw [hrun] at hr
    exact (Option.some.inj hr).symm
  · rintro rfl
    exact ⟨0, hrun 0⟩

theorem kernelReturns_unique {E : KEnv} {words : List Word} {g : List (BitVec 64)}
    {r r' : KResult} (h : KernelReturns E m words g r) (h' : KernelReturns E m words g r') :
    r = r' := by
  by_cases hargs : words ≠ [] ∧ g.length ≤ kGlobals
  · obtain ⟨n, hn⟩ := (kernelReturns_iff hargs.1 hargs.2).1 h
    obtain ⟨n', hn'⟩ := (kernelReturns_iff hargs.1 hargs.2).1 h'
    exact (hn.unique hn').2
  · rw [(kernelReturns_badArg hargs).1 h, (kernelReturns_badArg hargs).1 h']

theorem kernelProgram_blind (E : KEnv) (words : List Word) (g : List (BitVec 64)) :
    CapacityBlind (kernelProgram E words g) := by
  refine capacityBlind_of_prints (fun m h => ?_) fun m r r' h h' => ?_
  · obtain ⟨r, hr⟩ := h
    by_cases hargs : words ≠ [] ∧ g.length ≤ kGlobals
    · obtain ⟨n, hn⟩ := (kernelReturns_iff hargs.1 hargs.2).1 hr
      obtain ⟨ps, r', hall⟩ := (kernelStep_oblivious E words).halts
        (s := KState.init m g) (k := m) hn
      refine ⟨ps, (r'.exit, r'.g), r'.m, fun k => ?_⟩
      exact (kernelReturns_iff hargs.1 hargs.2).2 ⟨n, hall k⟩
    · exact ⟨[], (.status .errBadArg, g), m, fun k => (kernelReturns_badArg hargs).2 rfl⟩
  · have heq := kernelReturns_unique h h'
    injection heq with hexit hm hg
    exact Prod.ext (Prod.ext hexit hg) hm

theorem shProgram_blind (manifest : List UInt8) : CapacityBlind (shProgram manifest) := by
  refine capacityBlind_of_prints (fun m h => ?_) fun m r r' h h' => ?_
  · obtain ⟨r, n, hn⟩ := h
    obtain ⟨ps, r', hall⟩ := (shStep_oblivious manifest).halts
      (s := .collect 0 [] m) (k := m) hn
    exact ⟨ps, r'.1, r'.2, fun k => ⟨n, hall k⟩⟩
  · obtain ⟨n, hn⟩ := h
    obtain ⟨n', hn'⟩ := h'
    exact (hn.unique hn').2

/-- A fresh machine that receives any sequence of calls counts all bytes, modulo `2 ^ 64`, and
holds the prefix it has room for.  The kernel and the shell print one text whatever the capacity
is, so the output for a capacity is a prefix of the output for a larger one. -/
theorem output_is_prefix :
    (∀ m ps, m.Fresh → Received m ps.flatten (m.emitAll ps)) ∧
      (∀ E words g, CapacityBlind (kernelProgram E words g)) ∧
      ∀ manifest, CapacityBlind (shProgram manifest) := by
  refine ⟨fun m ps hm => ?_, kernelProgram_blind, shProgram_blind⟩
  exact hm.received.emitAll ps

/-- A machine with a capacity and without an output buffer keeps nothing of one byte, and with a
buffer two calls of `2 ^ 63` bytes leave `out_total` zero. -/
theorem nothing_kept_without_buffer :
    (¬ ∀ (m : Machine) (ps : List (List UInt8)), m.outLen = 0 → m.outTotal = 0 →
      (m.emitAll ps).outLen.toNat =
        min (m.emitAll ps).outTotal.toNat (m.emitAll ps).outCap.toNat) ∧
    ¬ ∀ (m : Machine) (ps : List (List UInt8)), m.out ≠ none → m.outLen = 0 → m.outTotal = 0 →
      (m.emitAll ps).outTotal.toNat = ps.flatten.length := by
  refine ⟨fun h => ?_, fun h => ?_⟩
  · have hone := h { (default : Machine) with out := none, outCap := 4 } [[65]] rfl rfl
    exact absurd hone (by decide)
  · obtain ⟨n, hn⟩ : ∃ n : Nat, n + n = 2 ^ 64 := ⟨2 ^ 63, rfl⟩
    have hfresh : ({ (default : Machine) with out := some fun _ => 0 } : Machine).Fresh :=
      ⟨rfl, rfl⟩
    have hlength : ([List.replicate n (0 : UInt8), List.replicate n 0].flatten).length = 2 ^ 64 := by
      rw [List.flatten_cons, List.flatten_cons, List.flatten_nil, List.append_nil,
        List.length_append, List.length_replicate, hn]
    have hcount := h _ [List.replicate n 0, List.replicate n 0]
      (Option.some_ne_none fun _ => 0) hfresh.1 hfresh.2
    rw [(hfresh.received.emitAll _).total, List.nil_append, UInt64.toNat_ofNat', hlength,
      Nat.mod_self] at hcount
    cases hcount

end Engines
