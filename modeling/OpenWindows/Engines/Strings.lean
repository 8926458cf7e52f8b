import OpenWindows.Engines.Division
import OpenWindows.Engines.KernelBudget
import Mathlib.Data.List.GetD

/-!
# Strings of the kernel

A string value is a pointer with a length.  `CONCAT` writes its result to the one scratch arena,
so all results of a run have the same address, and a later result stands where an earlier one
stood.  `immutable_iff_apart` says when contents survive: the operand on top does not lie in the
arena, or it begins the result, and every other string in the arena begins like the result.
-/

namespace Engines

open StepSystem

/-! ## Contents -/

/-- The values of a stack, each a payload with its meta cell. -/
def values : List (BitVec 64) → List (BitVec 64 × BitVec 64)
  | mta :: v :: rest => (v, mta) :: values rest
  | _ => []

/-- Whether a value is tagged as a string. -/
def IsStr (q : BitVec 64 × BitVec 64) : Prop := mengCellType q.2 = tStr

/-- The bytes a string value denotes. -/
def KState.content (E : KEnv) (s : KState) (q : BitVec 64 × BitVec 64) : Option (List UInt8) :=
  E.loadBytes s.m.scratch q.1.toNat (mengCellStrlen q.2)

/-- The scratch arena with bytes written to its front. -/
def overlay (bs : List UInt8) (scratch : Nat → UInt8) : Nat → UInt8 :=
  fun j => bs.getD j (scratch j)

/-- The string lies in the pool. -/
def InPool (E : KEnv) (q : BitVec 64 × BitVec 64) : Prop :=
  E.poolAddr ≤ q.1.toNat ∧ q.1.toNat + mengCellStrlen q.2 ≤ E.poolAddr + poolSize

/-- The string begins where the scratch arena does. -/
def InScratch (E : KEnv) (q : BitVec 64 × BitVec 64) : Prop :=
  q.1.toNat = E.scratchAddr ∧ mengCellStrlen q.2 ≤ scratchSize

/-- Every string on the stack lies in the pool or begins the scratch arena. -/
def StringsPlaced (E : KEnv) (s : KState) : Prop :=
  ∀ q ∈ values s.cells, IsStr q → InPool E q ∨ InScratch E q

variable {E : KEnv} {scratch : Nat → UInt8} {bs : List UInt8} {a n dst j : Nat}

def bytesFrom (f : Nat → UInt8) (n : Nat) : List UInt8 := (List.range n).map f

@[simp] theorem length_bytesFrom (f : Nat → UInt8) (n : Nat) : (bytesFrom f n).length = n := by
  simp [bytesFrom]

variable {f : Nat → UInt8}

theorem getElem_bytesFrom (hj : j < (bytesFrom f n).length) : (bytesFrom f n)[j] = f j := by
  simp [bytesFrom]

theorem bytesFrom_succ (f : Nat → UInt8) (n : Nat) :
    bytesFrom f (n + 1) = f 0 :: bytesFrom (fun k => f (k + 1)) n := by
  rw [bytesFrom, List.range_succ_eq_map, List.map_cons, List.map_map]
  rfl

theorem loadBytes_eq (h : ∀ k < n, E.load scratch (a + k) = some (f k)) :
    E.loadBytes scratch a n = some (bytesFrom f n) := by
  induction n generalizing a f with
  | zero => rfl
  | succ n ih =>
    have hhead := h 0 (Nat.succ_pos n)
    have htail : E.loadBytes scratch (a + 1) n = some (bytesFrom (fun k => f (k + 1)) n) := by
      refine ih fun k hk => ?_
      rw [Nat.add_assoc, Nat.add_comm 1]
      exact h (k + 1) (Nat.succ_lt_succ hk)
    rw [Nat.add_zero] at hhead
    rw [KEnv.loadBytes, hhead, htail, bytesFrom_succ]

theorem load_pool (h1 : E.poolAddr ≤ a) (h2 : a < E.poolAddr + poolSize) :
    E.load scratch a = some (E.pool (a - E.poolAddr)) := if_pos ⟨h1, h2⟩

theorem load_scratch (hj : j < scratchSize) :
    E.load scratch (E.scratchAddr + j) = some (scratch j) := by
  have hdis := E.disjoint
  unfold KEnv.load
  rw [if_neg (by omega), if_pos (by omega), Nat.add_sub_cancel_left]

theorem loadBytes_pool (h1 : E.poolAddr ≤ a) (h2 : a + n ≤ E.poolAddr + poolSize) :
    E.loadBytes scratch a n = some (bytesFrom (fun k => E.pool (a + k - E.poolAddr)) n) :=
  loadBytes_eq fun k hk => load_pool (by omega) (by omega)

theorem loadBytes_scratch (hn : n ≤ scratchSize) :
    E.loadBytes scratch E.scratchAddr n = some (bytesFrom scratch n) :=
  loadBytes_eq fun k hk => load_scratch (by omega)

/-! ## The copies -/

theorem copyIn_pool (h1 : E.poolAddr ≤ a) (h2 : a + n ≤ E.poolAddr + poolSize) :
    ∃ scratch', E.copyIn n a dst scratch = some scratch' ∧
      (∀ j, j < dst ∨ dst + n ≤ j → scratch' j = scratch j) ∧
      ∀ k < n, scratch' (dst + k) = E.pool (a + k - E.poolAddr) := by
  induction n generalizing a dst scratch with
  | zero => exact ⟨scratch, rfl, fun _ _ => rfl, fun k hk => by omega⟩
  | succ n ih =>
    obtain ⟨scratch', heq, hout, hin⟩ := @ih
      (Function.update scratch dst (E.pool (a - E.poolAddr))) (a + 1) (dst + 1) (by omega)
      (by omega)
    refine ⟨scratch', ?_, fun j hj => ?_, fun k hk => ?_⟩
    · rw [KEnv.copyIn, load_pool h1 (by omega)]
      exact heq
    · rw [hout j (by omega)]
      exact Function.update_of_ne (by omega) _ _
    · cases k with
      | zero =>
        rw [hout (dst + 0) (by omega)]
        exact Function.update_self _ _ _
      | succ k =>
        have hk' := hin k (by omega)
        rw [show dst + 1 + k = dst + (k + 1) by omega,
          show a + 1 + k = a + (k + 1) by omega] at hk'
        exact hk'

theorem copyIn_self (h : dst + n ≤ scratchSize) :
    E.copyIn n (E.scratchAddr + dst) dst scratch = some scratch := by
  induction n generalizing dst with
  | zero => rfl
  | succ n ih =>
    rw [KEnv.copyIn, load_scratch (by omega)]
    dsimp only
    rw [Function.update_eq_self]
    exact @ih (dst + 1) (by omega)

theorem copyIn_shift {i d : Nat} (hd : 0 < d) (h : i + n ≤ scratchSize) :
    ∃ scratch', E.copyIn n (E.scratchAddr + i) (d + i) scratch = some scratch' ∧
      (∀ j, j < d + i ∨ d + i + n ≤ j → scratch' j = scratch j) ∧
      ∀ k < n, scratch' (d + i + k) = scratch' (i + k) := by
  induction n generalizing i scratch with
  | zero => exact ⟨scratch, rfl, fun _ _ => rfl, fun k hk => by omega⟩
  | succ n ih =>
    obtain ⟨scratch', heq, hout, hin⟩ := @ih
      (Function.update scratch (d + i) (scratch i)) (i + 1) (by omega)
    refine ⟨scratch', ?_, fun j hj => ?_, fun k hk => ?_⟩
    · rw [KEnv.copyIn, load_scratch (by omega)]
      exact heq
    · rw [hout j (by omega)]
      exact Function.update_of_ne (by omega) _ _
    · cases k with
      | zero =>
        rw [hout (d + i + 0) (by omega), hout (i + 0) (by omega), Nat.add_zero, Nat.add_zero,
          Function.update_self, Function.update_of_ne (by omega)]
      | succ k =>
        have hk' := hin k (by omega)
        rw [show d + (i + 1) + k = d + i + (k + 1) by omega,
          show i + 1 + k = i + (k + 1) by omega] at hk'
        exact hk'

theorem bytesFrom_eq_iff (hn : bs.length = n) :
    bytesFrom f n = bs ↔ ∀ k < n, bs[k]? = some (f k) := by
  constructor
  · rintro rfl k hk
    rw [List.getElem?_eq_getElem (by simpa using hk), getElem_bytesFrom]
  · intro h
    refine List.ext_getElem? fun k => ?_
    by_cases hk : k < n
    · rw [h k hk, List.getElem?_eq_getElem (by simpa using hk), getElem_bytesFrom]
    · rw [List.getElem?_eq_none (by simpa using hk), List.getElem?_eq_none (by omega)]

theorem bytesFrom_shift_iff {as : List UInt8}
    (hpos : 0 < as.length) (hfront : ∀ k < as.length, as[k]? = some (f k))
    (hshift : ∀ k < bs.length, f (as.length + k) = f k) :
    bytesFrom f (as.length + bs.length) = as ++ bs ↔ bs <+: as ++ bs := by
  have hback : ∀ k, (as ++ bs)[as.length + k]? = bs[k]? := by
    intro k
    rw [List.getElem?_append_right (Nat.le_add_right _ _), Nat.add_sub_cancel_left]
  rw [bytesFrom_eq_iff List.length_append, List.prefix_iff_getElem?]
  constructor
  · intro h k hk
    rw [h k (by omega), ← hshift k hk, ← h (as.length + k) (by omega), hback]
    exact List.getElem?_eq_getElem hk
  · intro h k
    induction k using Nat.strong_induction_on with
    | _ k ih =>
      intro hk
      by_cases hlt : k < as.length
      · rw [List.getElem?_append_left hlt]
        exact hfront k hlt
      · obtain ⟨i, rfl⟩ : ∃ i, k = as.length + i := ⟨k - as.length, by omega⟩
        have hi : i < bs.length := by omega
        rw [hback, hshift i hi, ← ih i (by omega) (by omega), h i hi]
        exact List.getElem?_eq_getElem hi

/-- A write to the front keeps what begins like it. -/
theorem bytesFrom_overlay_iff :
    bytesFrom (overlay bs scratch) n = bytesFrom scratch n ↔
      bytesFrom scratch n <+: bs ∨ bs <+: bytesFrom scratch n := by
  have hover : ∀ k (hk : k < bs.length), overlay bs scratch k = bs[k] := by
    intro k hk
    exact List.getD_eq_getElem _ _ hk
  have hcell : ∀ k < n, (bytesFrom scratch n)[k]? = some (scratch k) :=
    (bytesFrom_eq_iff (length_bytesFrom scratch n)).1 rfl
  rw [bytesFrom_eq_iff (length_bytesFrom scratch n)]
  constructor
  · intro h
    rcases Nat.le_total n bs.length with hle | hle
    · refine .inl (List.prefix_iff_getElem?.2 fun k hk => ?_)
      rw [length_bytesFrom] at hk
      rw [List.getElem?_eq_getElem (by omega), ← hover k (by omega), ← h k hk]
      exact List.getElem?_eq_getElem _
    · refine .inr (List.prefix_iff_getElem?.2 fun k hk => ?_)
      rw [h k (by omega), hover k hk]
  · rintro (h | h) k hk
    · have hlen := h.length_le
      rw [length_bytesFrom] at hlen
      have hbs := List.prefix_iff_getElem?.1 h k (by simpa using hk)
      rw [List.getElem?_eq_getElem (by omega)] at hbs
      rw [hover k (by omega), hbs]
      exact List.getElem?_eq_getElem _
    · by_cases hlt : k < bs.length
      · rw [hover k hlt]
        exact List.prefix_iff_getElem?.1 h k hlt
      · rw [hcell k hk, overlay, List.getD_eq_default _ _ (by omega)]

/-! ## Words other than `CONCAT` -/

/-- An outcome that wrote no string: the arena is as before, and each string on the stack was
there before or lies in the pool. -/
def NoString (E : KEnv) (scratch : Nat → UInt8) (vs : List (BitVec 64 × BitVec 64)) :
    KState ⊕ KResult → Prop
  | .inl t => t.m.scratch = scratch ∧ ∀ q ∈ values t.cells, IsStr q → q ∈ vs ∨ InPool E q
  | .inr _ => True

section NoString

variable {s : KState} {vs : List (BitVec 64 × BitVec 64)}

theorem noString_push {v mta : BitVec 64} (hs : s.m.scratch = scratch)
    (h : ∀ q ∈ values s.cells, IsStr q → q ∈ vs ∨ InPool E q)
    (hv : IsStr (v, mta) → (v, mta) ∈ vs ∨ InPool E (v, mta)) :
    NoString E scratch vs (s.push v mta) := by
  unfold KState.push
  split
  · trivial
  · refine ⟨hs, fun q hq hstr => ?_⟩
    rcases List.mem_cons.1 hq with rfl | hq
    · exact hv hstr
    · exact h q hq hstr

theorem noString_jump {nw : Nat} {a0 : BitVec 64} (hs : s.m.scratch = scratch)
    (h : ∀ q ∈ values s.cells, IsStr q → q ∈ vs ∨ InPool E q) :
    NoString E scratch vs (s.jump nw a0) := by
  unfold KState.jump
  split
  · trivial
  · exact ⟨hs, h⟩

theorem noString_popInt {k : BitVec 64 → List (BitVec 64) → KState ⊕ KResult}
    (hk : ∀ v rest, values rest ⊆ values s.cells → NoString E scratch vs (k v rest)) :
    NoString E scratch vs (s.popInt k) := by
  unfold KState.popInt
  split
  · next hc =>
    split
    · trivial
    · refine hk _ _ ?_
      rw [hc]
      exact List.subset_cons_self _ _
  · trivial

theorem noString_popInts {k : BitVec 64 → BitVec 64 → List (BitVec 64) → KState ⊕ KResult}
    (hk : ∀ a b rest, values rest ⊆ values s.cells → NoString E scratch vs (k a b rest)) :
    NoString E scratch vs (s.popInts k) := by
  unfold KState.popInts
  split
  · next hc =>
    split
    · trivial
    · split
      · trivial
      · refine hk _ _ _ ?_
        rw [hc]
        exact List.Subset.trans (List.subset_cons_self _ _) (List.subset_cons_self _ _)
  · trivial

theorem isStr_tInt (v : BitVec 64) : ¬ IsStr (v, tInt) := by
  rw [IsStr, mengCellType_tInt]
  decide

theorem inPool_pushs {a0 a1 : BitVec 64}
    (h : ¬ (a0.toNat > poolSize ∨ a1.toNat > poolSize - a0.toNat)) :
    InPool E (BitVec.ofNat 64 (E.poolAddr + a0.toNat), strMeta a1.toNat) := by
  have hfits := E.pool_fits
  have hlen : mengCellStrlen (strMeta a1.toNat) = a1.toNat := mengCellStrlen_strMeta (by omega)
  have haddr : (BitVec.ofNat 64 (E.poolAddr + a0.toNat)).toNat = E.poolAddr + a0.toNat := by
    rw [BitVec.toNat_ofNat]
    exact Nat.mod_eq_of_lt (by omega)
  refine ⟨?_, ?_⟩
  · dsimp only
    omega
  · dsimp only
    omega

theorem exec_noString {nw : Nat} {w : Word} (hw : Op.ofCode? w.op ≠ some .concat) (s : KState) :
    NoString E s.m.scratch (values s.cells) (exec E nw w s) := by
  have hall : ∀ q ∈ values s.cells, IsStr q → q ∈ values s.cells ∨ InPool E q :=
    fun q hq _ => .inl hq
  have hsub : ∀ rest, values rest ⊆ values s.cells →
      ∀ q ∈ values rest, IsStr q → q ∈ values s.cells ∨ InPool E q :=
    fun rest hr q hq _ => .inl (hr hq)
  have hint : ∀ v, IsStr (v, tInt) → (v, tInt) ∈ values s.cells ∨ InPool E (v, tInt) :=
    fun v h => absurd h (isStr_tInt v)
  unfold exec
  cases ho : Op.ofCode? w.op with
  | none => trivial
  | some o =>
    dsimp only
    cases o with
    | nop => exact ⟨rfl, hall⟩
    | pushi => exact noString_push rfl hall (hint _)
    | pushs =>
      dsimp only
      split
      · trivial
      · split
        · trivial
        · next hb => exact noString_push rfl hall fun _ => .inr (inPool_pushs hb)
    | dup2 =>
      dsimp only
      split
      · next hc =>
        refine noString_push rfl hall fun _ => .inl ?_
        rw [hc]
        exact List.mem_cons_self
      · trivial
    | swap2 =>
      dsimp only
      split
      · next hc =>
        refine ⟨rfl, fun q hq _ => .inl ?_⟩
        rw [hc]
        simp only [values, List.mem_cons] at hq ⊢
        exact or_left_comm.1 hq
      · trivial
    | drop2 =>
      dsimp only
      split
      · next hc =>
        refine ⟨rfl, hsub _ ?_⟩
        rw [hc]
        exact List.subset_cons_self _ _
      · trivial
    | iadd | isub | imul | idiv | imod =>
      refine noString_popInts fun a b rest hr => ?_
      split
      · trivial
      · trivial
      · exact noString_push (s := { s with cells := rest }) rfl (hsub rest hr) (hint _)
    | ineg =>
      dsimp only
      split
      · next hc =>
        split
        · trivial
        · next ht =>
          refine ⟨rfl, fun q hq hstr => ?_⟩
          rcases List.mem_cons.1 hq with rfl | hq
          · rw [IsStr, not_not.1 ht] at hstr
            exact absurd hstr (by decide)
          · refine .inl ?_
            rw [hc]
            exact List.mem_cons_of_mem _ hq
      · trivial
    | cmpeq | cmpne | cmplt | cmple =>
      refine noString_popInts fun a b rest hr => ⟨rfl, fun q hq hstr => ?_⟩
      rcases List.mem_cons.1 hq with rfl | hq
      · exact hint _ hstr
      · exact hsub rest hr q hq hstr
    | jnz =>
      refine noString_popInt fun v rest hr => ?_
      split
      · exact noString_jump (s := { s with cells := rest }) rfl (hsub rest hr)
      · exact ⟨rfl, hsub rest hr⟩
    | jmp => exact noString_jump rfl hall
    | gload =>
      dsimp only
      split
      · trivial
      · split
        · trivial
        · exact noString_push rfl hall (hint _)
    | gstore =>
      dsimp only
      split
      · trivial
      · refine noString_popInt fun v rest hr => ?_
        split
        · exact ⟨rfl, hsub rest hr⟩
        · trivial
    | call =>
      dsimp only
      split
      · trivial
      · split
        · trivial
        · exact ⟨rfl, hall⟩
    | ret =>
      dsimp only
      split
      · trivial
      · exact ⟨rfl, hall⟩
    | concat => exact absurd ho hw
    | print =>
      dsimp only
      split
      · next hc =>
        have hrest : ∀ mta v rest, s.cells = mta :: v :: rest → values rest ⊆ values s.cells := by
          intro mta v rest h
          rw [h]
          exact List.subset_cons_self _ _
        split
        · exact ⟨(Machine.emit_frame _ _).2.2.1, hsub _ (hrest _ _ _ hc)⟩
        · split
          · split
            · trivial
            · exact ⟨(Machine.emit_frame _ _).2.2.1, hsub _ (hrest _ _ _ hc)⟩
          · trivial
      · trivial
    | halt => trivial

end NoString

/-! ## Where strings lie -/

section Placed

variable {s t : KState} {q : BitVec 64 × BitVec 64} {as cs : List UInt8}

theorem content_congr (h : t.m.scratch = s.m.scratch) : t.content E q = s.content E q := by
  rw [KState.content, h, KState.content]

theorem InPool.content (h : InPool E q) :
    s.content E q =
      some (bytesFrom (fun k => E.pool (q.1.toNat + k - E.poolAddr)) (mengCellStrlen q.2)) :=
  loadBytes_pool h.1 h.2

theorem InScratch.content (h : InScratch E q) :
    s.content E q = some (bytesFrom s.m.scratch (mengCellStrlen q.2)) := by
  rw [KState.content, h.1]
  exact loadBytes_scratch h.2

theorem InPool.inScratch (h : InPool E q) (haddr : q.1.toNat = E.scratchAddr) :
    InScratch E q := by
  have hdis := E.disjoint
  have hin := h.2
  have hle := h.1
  refine ⟨haddr, ?_⟩
  have hpos : 0 < scratchSize := by decide
  omega

theorem placed_cases (h : InPool E q ∨ InScratch E q) :
    (q.1.toNat ≠ E.scratchAddr ∧ InPool E q) ∨ (q.1.toNat = E.scratchAddr ∧ InScratch E q) := by
  by_cases haddr : q.1.toNat = E.scratchAddr
  · exact .inr ⟨haddr, h.elim (fun hp => hp.inScratch haddr) id⟩
  · exact .inl ⟨haddr, h.resolve_right fun hs => haddr hs.1⟩

theorem exists_content (h : InPool E q ∨ InScratch E q) :
    ∃ cs, s.content E q = some cs ∧ cs.length = mengCellStrlen q.2 := by
  rcases h with h | h
  · exact ⟨_, h.content, length_bytesFrom _ _⟩
  · exact ⟨_, h.content, length_bytesFrom _ _⟩

theorem length_content (h : InPool E q ∨ InScratch E q) (hc : s.content E q = some cs) :
    cs.length = mengCellStrlen q.2 := by
  obtain ⟨cs', hc', hlen⟩ := exists_content (s := s) h
  rw [hc] at hc'
  cases hc'
  exact hlen

theorem strlen_le (h : InPool E q ∨ InScratch E q) : mengCellStrlen q.2 ≤ poolSize := by
  rcases h with h | h
  · have h1 := h.1
    have h2 := h.2
    omega
  · exact Nat.le_trans h.2 (by decide)

/-! ## The two copies of `CONCAT` -/

theorem copyIn_front (h : InPool E q ∨ InScratch E q) (hc : s.content E q = some as) :
    E.copyIn (mengCellStrlen q.2) q.1.toNat 0 s.m.scratch = some (overlay as s.m.scratch) := by
  rcases h with h | h
  · rw [h.content] at hc
    cases hc
    obtain ⟨scratch', heq, hout, hin⟩ :=
      @copyIn_pool E s.m.scratch q.1.toNat (mengCellStrlen q.2) 0 h.1 h.2
    rw [heq]
    congr 1
    funext j
    by_cases hj : j < mengCellStrlen q.2
    · have hval := hin j hj
      rw [Nat.zero_add] at hval
      rw [overlay, List.getD_eq_getElem _ _ (by simpa using hj), getElem_bytesFrom, hval]
    · rw [hout j (by omega), overlay, List.getD_eq_default _ _ (by simpa using hj)]
  · rw [h.content] at hc
    cases hc
    have hself : E.copyIn (mengCellStrlen q.2) (E.scratchAddr + 0) 0 s.m.scratch =
        some s.m.scratch := copyIn_self (by rw [Nat.zero_add]; exact h.2)
    rw [Nat.add_zero] at hself
    rw [h.1, hself]
    congr 1
    funext j
    by_cases hj : j < mengCellStrlen q.2
    · rw [overlay, List.getD_eq_getElem _ _ (by simpa using hj), getElem_bytesFrom]
    · rw [overlay, List.getD_eq_default _ _ (by simpa using hj)]

theorem copyIn_back {f : Nat → UInt8} (h : InPool E q ∨ InScratch E q)
    (hc : s.content E q = some bs) (hle : as.length + bs.length ≤ scratchSize)
    (hf : f = overlay as s.m.scratch) :
    ∃ g, E.copyIn (mengCellStrlen q.2) q.1.toNat as.length f = some g ∧
      (∀ j, as.length + bs.length ≤ j → g j = s.m.scratch j) ∧
      (bytesFrom g (as.length + bs.length) = as ++ bs ↔
        (q.1.toNat = E.scratchAddr → bs <+: as ++ bs)) := by
  have hlen := length_content h hc
  have hfront : ∀ k < as.length, as[k]? = some (f k) := by
    intro k hk
    rw [hf, overlay, List.getD_eq_getElem _ _ hk]
    exact List.getElem?_eq_getElem hk
  have hafter : ∀ j, as.length ≤ j → f j = s.m.scratch j := by
    intro j hj
    rw [hf]
    exact List.getD_eq_default _ _ hj
  rw [← hlen]
  cases placed_cases h with
  | inl hpool =>
    obtain ⟨haddr, hpool⟩ := hpool
    obtain ⟨g, heq, hout, hin⟩ := @copyIn_pool E f q.1.toNat bs.length as.length hpool.1
      (by rw [hlen]; exact hpool.2)
    refine ⟨g, heq, fun j hj => ?_, fun _ hs => absurd hs haddr, fun _ => ?_⟩
    · rw [hout j (.inr hj)]
      exact hafter j (by omega)
    · rw [hpool.content] at hc
      cases hc
      refine (bytesFrom_eq_iff List.length_append).2 fun k hk => ?_
      by_cases hlt : k < as.length
      · rw [List.getElem?_append_left hlt, hout k (.inl hlt)]
        exact hfront k hlt
      · obtain ⟨i, rfl⟩ : ∃ i, k = as.length + i := ⟨k - as.length, by omega⟩
        have hi : i < (bytesFrom (fun k => E.pool (q.1.toNat + k - E.poolAddr))
          (mengCellStrlen q.2)).length := by omega
        rw [List.getElem?_append_right (by omega), Nat.add_sub_cancel_left, hin i hi,
          List.getElem?_eq_getElem hi, getElem_bytesFrom]
  | inr hscr =>
    obtain ⟨haddr, hscr⟩ := hscr
    rw [hscr.content] at hc
    have hbs := Option.some.inj hc
    cases as with
    | nil =>
      refine ⟨f, ?_, fun j _ => hafter j (Nat.zero_le j), fun _ _ => List.prefix_rfl, fun _ => ?_⟩
      · rw [haddr]
        exact @copyIn_self E f bs.length 0 hle
      · rw [hf, List.length_nil, Nat.zero_add, hlen]
        exact hbs
    | cons x as =>
      obtain ⟨g, heq, hout, hin⟩ :=
        @copyIn_shift E f bs.length 0 (x :: as).length (Nat.succ_pos _) (by omega)
      refine ⟨g, ?_, fun j hj => ?_, ?_⟩
      · rw [haddr]
        exact heq
      · rw [hout j (.inr hj)]
        exact hafter j (by omega)
      · rw [forall_prop_of_true haddr]
        refine bytesFrom_shift_iff (Nat.succ_pos _) (fun k hk => ?_) fun k hk => ?_
        · rw [hout k (.inl hk)]
          exact hfront k hk
        · have hval := hin k hk
          rw [Nat.zero_add] at hval
          exact hval

end Placed

/-! ## The turn that concatenates -/

/-- The next turn of the loop concatenates the strings `a` and `b`. -/
structure Concats (words : List Word) (s : KState) (a b : BitVec 64 × BitVec 64)
    (rest : List (BitVec 64)) : Prop where
  word : ∃ w, words[s.pc]? = some w ∧ Op.ofCode? w.op = some .concat
  charged : (mengMachineStep s.m).1 = true
  cells : s.cells = b.2 :: b.1 :: a.2 :: a.1 :: rest
  strBelow : IsStr a
  strTop : IsStr b

/-- The value that `CONCAT` pushes. -/
def concatValue (E : KEnv) (total : Nat) : BitVec 64 × BitVec 64 :=
  (BitVec.ofNat 64 E.scratchAddr, strMeta total)

variable {words : List Word} {s t : KState} {q p r : BitVec 64 × BitVec 64}
  {rest : List (BitVec 64)} {as cs : List UInt8}

theorem mengCellStrlen_concatValue (hn : n ≤ scratchSize) :
    mengCellStrlen (concatValue E n).2 = n :=
  mengCellStrlen_strMeta (Nat.le_trans hn (by decide))

theorem concatValue_addr : (concatValue E n).1.toNat = E.scratchAddr := by
  have hfits := E.scratch_fits
  rw [concatValue, BitVec.toNat_ofNat]
  exact Nat.mod_eq_of_lt (by omega)

theorem isStr_concatValue (hn : n ≤ scratchSize) : IsStr (concatValue E n) :=
  mengCellType_strMeta (Nat.le_trans hn (by decide))

theorem inScratch_concatValue (hn : n ≤ scratchSize) : InScratch E (concatValue E n) :=
  ⟨concatValue_addr, (mengCellStrlen_concatValue hn).trans_le hn⟩

/-- What the turn leaves. -/
structure Concatenated (E : KEnv) (s t : KState) (as bs : List UInt8) (addr : Nat)
    (rest : List (BitVec 64)) : Prop where
  cells : t.cells = (concatValue E (as.length + bs.length)).2 ::
    (concatValue E (as.length + bs.length)).1 :: rest
  behind : ∀ j, as.length + bs.length ≤ j → t.m.scratch j = s.m.scratch j
  result : bytesFrom t.m.scratch (as.length + bs.length) = as ++ bs ↔
    (addr = E.scratchAddr → bs <+: as ++ bs)

theorem Concats.step (h : Concats words s p q rest) (hp : InPool E p ∨ InScratch E p)
    (hq : InPool E q ∨ InScratch E q) (hca : s.content E p = some as)
    (hcb : s.content E q = some bs) (hdepth : s.cells.length ≤ stackCells)
    (hle : as.length + bs.length ≤ scratchSize) :
    ∃ t, kernelStep E words s = .inl t ∧ Concatenated E s t as bs q.1.toNat rest := by
  obtain ⟨w, hw, hop⟩ := h.word
  obtain ⟨g, hback, hbehind, hresult⟩ := copyIn_back hq hcb hle rfl
  have hfront := copyIn_front hp hca
  have hlenA := length_content hp hca
  have hlenB := length_content hq hcb
  have hcharged := h.charged
  have hsnd := mengMachineStep_snd s.m
  have htotal : (as.length + bs.length) % 2 ^ 32 = as.length + bs.length :=
    Nat.mod_eq_of_lt (Nat.lt_of_le_of_lt hle (by decide))
  have htop : ¬ mengCellType q.2 ≠ tStr := not_not.2 h.strTop
  have hbelow : ¬ mengCellType p.2 ≠ tStr := not_not.2 h.strBelow
  have hroom : ¬ rest.length + 2 > stackCells := by
    rw [h.cells] at hdepth
    simp only [List.length_cons] at hdepth
    omega
  cases hstep : mengMachineStep s.m with
  | mk ok m =>
    rw [hstep] at hcharged hsnd
    cases hcharged
    have hscr : m.scratch = s.m.scratch := by
      rw [show m = s.m.addSteps 1 from hsnd]
      rfl
    refine ⟨⟨{ m with scratch := g, scratchLen := as.length + bs.length }, s.g,
      (concatValue E (as.length + bs.length)).2 ::
        (concatValue E (as.length + bs.length)).1 :: rest, s.rstk, s.pc + 1⟩, ?_,
      ⟨rfl, hbehind, hresult⟩⟩
    unfold kernelStep
    rw [hw]
    dsimp only
    rw [hstep]
    dsimp only
    unfold exec
    rw [hop]
    dsimp only
    rw [h.cells]
    dsimp only
    rw [if_neg htop, if_neg hbelow]
    unfold KState.concat
    dsimp only
    rw [← hlenA, ← hlenB, htotal, if_neg (Nat.not_lt.2 hle)]
    rw [← hlenA] at hfront
    rw [← hlenB] at hback
    rw [hscr, hfront]
    dsimp only
    rw [hback]
    exact if_neg hroom

theorem Concats.placed (h : Concats words s p q rest) (hs : StringsPlaced E s) :
    (InPool E p ∨ InScratch E p) ∧ (InPool E q ∨ InScratch E q) := by
  have hmem : q ∈ values s.cells ∧ p ∈ values s.cells := by
    rw [h.cells]
    exact ⟨List.mem_cons_self, List.mem_cons_of_mem _ List.mem_cons_self⟩
  exact ⟨hs p hmem.2 h.strBelow, hs q hmem.1 h.strTop⟩

theorem turn_cases (hs : StringsPlaced E s) (hdepth : s.cells.length ≤ stackCells)
    (hstep : kernelStep E words s = .inl t) :
    NoString E s.m.scratch (values s.cells) (.inl t) ∨
      ∃ p q rest as bs, Concats words s p q rest ∧ s.content E p = some as ∧
        s.content E q = some bs ∧ as.length + bs.length ≤ scratchSize ∧
        Concatenated E s t as bs q.1.toNat rest := by
  have hsnd := mengMachineStep_snd s.m
  have hturn := hstep
  unfold kernelStep at hturn
  cases hw : words[s.pc]? with
  | none =>
    rw [hw] at hturn
    cases hturn
  | some w =>
    cases hcharge : mengMachineStep s.m with
    | mk ok m =>
      rw [hw, hcharge] at hturn
      rw [hcharge] at hsnd
      cases ok with
      | false => cases hturn
      | true =>
        dsimp only at hturn
        by_cases hop : Op.ofCode? w.op = some .concat
        · refine .inr ?_
          -- the word popped two strings that fit
          have hexec := hturn
          unfold exec at hexec
          rw [hop] at hexec
          dsimp only at hexec
          split at hexec
          · next mb pb ma pa rest hcells =>
            split at hexec
            · cases hexec
            · next hb =>
              split at hexec
              · cases hexec
              · next ha =>
                have hconcats : Concats words s (pa, ma) (pb, mb) rest :=
                  ⟨⟨w, hw, hop⟩, by rw [hcharge], hcells, not_not.1 ha, not_not.1 hb⟩
                obtain ⟨hp, hq⟩ := hconcats.placed hs
                obtain ⟨as, hca, hlenA⟩ := exists_content (s := s) hp
                obtain ⟨bs, hcb, hlenB⟩ := exists_content (s := s) hq
                have hle : as.length + bs.length ≤ scratchSize := by
                  have hsmallA := strlen_le hp
                  have hsmallB := strlen_le hq
                  have htotal : (mengCellStrlen ma + mengCellStrlen mb) % 2 ^ 32 =
                      mengCellStrlen ma + mengCellStrlen mb :=
                    Nat.mod_eq_of_lt (Nat.lt_of_le_of_lt
                      (Nat.add_le_add hsmallA hsmallB) (by decide))
                  unfold KState.concat at hexec
                  dsimp only at hexec
                  rw [htotal] at hexec
                  rw [hlenA, hlenB]
                  split at hexec
                  · cases hexec
                  · next hfit => exact Nat.not_lt.1 hfit
                obtain ⟨t', hstep', hdone⟩ :=
                  hconcats.step hp hq hca hcb hdepth hle
                rw [hstep] at hstep'
                cases hstep'
                exact ⟨_, _, rest, as, bs, hconcats, hca, hcb, hle, hdone⟩
          · cases hexec
        · refine .inl ?_
          have hscr : m.scratch = s.m.scratch := by
            rw [show m = s.m.addSteps 1 from hsnd]
            rfl
          have hno : NoString E m.scratch (values s.cells)
              (exec E words.length w { s with m := m, pc := s.pc + 1 }) :=
            exec_noString hop _
          rw [hturn] at hno
          rw [← hscr]
          exact hno

/-! ## Strings over whole runs -/

theorem placed_turn (hs : StringsPlaced E s) (hdepth : s.cells.length ≤ stackCells)
    (hstep : kernelStep E words s = .inl t) : StringsPlaced E t := by
  intro q hq hstr
  cases turn_cases hs hdepth hstep with
  | inl hno =>
    cases hno.2 q hq hstr with
    | inl hmem => exact hs q hmem hstr
    | inr hpool => exact .inl hpool
  | inr hcat =>
    obtain ⟨p, q', rest, as, bs, hconcats, -, -, hle, hdone⟩ := hcat
    rw [hdone.cells] at hq
    cases hq with
    | head => exact .inr (inScratch_concatValue hle)
    | tail _ hq =>
      refine hs q ?_ hstr
      rw [hconcats.cells]
      exact List.mem_cons_of_mem _ (List.mem_cons_of_mem _ hq)

theorem reaches_placed {m : Machine} {g : List (BitVec 64)} (h : Reaches E m words g s) :
    StringsPlaced E s ∧ s.cells.length ≤ stackCells := by
  obtain ⟨-, -, n, hsteps⟩ := h
  have hinv : KInv E words.length g.length s ∧ StringsPlaced E s := by
    refine hsteps.invariant (P := fun u => KInv E words.length g.length u ∧ StringsPlaced E u)
      (fun u v hu huv => ?_) ⟨kInv_init E words.length m g, fun q hq => by cases hq⟩
    have hsafe := kernelStep_safe hu.1
    rw [huv] at hsafe
    exact ⟨hsafe, placed_turn hu.2 hu.1.depth huv⟩
  exact ⟨hinv.2, hinv.1.depth⟩

/-- Strings are immutable in the next turn, and a `CONCAT` that fits pushes the concatenation. -/
structure Immutable (E : KEnv) (words : List Word) (s : KState) : Prop where
  concat : ∀ p q rest as bs, Concats words s p q rest → s.content E p = some as →
    s.content E q = some bs → as.length + bs.length ≤ scratchSize →
    ∃ t r, kernelStep E words s = .inl t ∧ t.cells = r.2 :: r.1 :: rest ∧ IsStr r ∧
      t.content E r = some (as ++ bs)
  kept : ∀ t, kernelStep E words s = .inl t → ∀ q ∈ values s.cells, q ∈ values t.cells →
    IsStr q → t.content E q = s.content E q

/-- The next turn does not concatenate, or the operand on top, if it lies in the arena, begins
the result, and so does each other string there, or the result begins it. -/
def Apart (E : KEnv) (words : List Word) (s : KState) : Prop :=
  ∀ p q rest as bs, Concats words s p q rest → s.content E p = some as →
    s.content E q = some bs → as.length + bs.length ≤ scratchSize →
    (q.1.toNat = E.scratchAddr → bs <+: as ++ bs) ∧
      ∀ r ∈ values rest, IsStr r → r.1.toNat = E.scratchAddr →
        ∀ cs, s.content E r = some cs → cs <+: as ++ bs ∨ as ++ bs <+: cs

variable {addr : Nat}

theorem Concatenated.scratch_eq (h : Concatenated E s t as bs addr rest)
    (hres : bytesFrom t.m.scratch (as.length + bs.length) = as ++ bs) :
    t.m.scratch = overlay (as ++ bs) s.m.scratch := by
  funext j
  by_cases hj : j < as.length + bs.length
  · have hcell := (bytesFrom_eq_iff List.length_append).1 hres j hj
    rw [overlay, List.getD_eq_getElem?_getD, hcell, Option.getD_some]
  · rw [h.behind j (Nat.not_lt.1 hj), overlay, List.getD_eq_default]
    rw [List.length_append]
    exact Nat.not_lt.1 hj

theorem Concatenated.content (h : Concatenated E s t as bs addr rest)
    (hle : as.length + bs.length ≤ scratchSize) :
    t.content E (concatValue E (as.length + bs.length)) = some (as ++ bs) ↔
      (addr = E.scratchAddr → bs <+: as ++ bs) := by
  rw [(inScratch_concatValue hle).content, mengCellStrlen_concatValue hle, Option.some.injEq]
  exact h.result

theorem Concatenated.kept_iff (h : Concatenated E s t as bs addr rest)
    (hres : addr = E.scratchAddr → bs <+: as ++ bs) (hr : InScratch E r)
    (hc : s.content E r = some cs) :
    t.content E r = s.content E r ↔ cs <+: as ++ bs ∨ as ++ bs <+: cs := by
  rw [hr.content] at hc
  cases Option.some.inj hc
  rw [hr.content, hr.content, Option.some.injEq, h.scratch_eq (h.result.2 hres)]
  exact bytesFrom_overlay_iff

theorem Immutable.apart (hs : StringsPlaced E s) (hdepth : s.cells.length ≤ stackCells)
    (h : Immutable E words s) : Apart E words s := by
  intro p q rest as bs hconcats hca hcb hle
  obtain ⟨hp, hq⟩ := hconcats.placed hs
  obtain ⟨t, hstep, hdone⟩ := hconcats.step hp hq hca hcb hdepth hle
  have hresult : q.1.toNat = E.scratchAddr → bs <+: as ++ bs := by
    obtain ⟨t', r, hstep', hcells, -, hcontent⟩ := h.concat p q rest as bs hconcats hca hcb hle
    rw [hstep] at hstep'
    cases hstep'
    rw [hdone.cells] at hcells
    have hr : concatValue E (as.length + bs.length) = r :=
      Prod.ext (List.cons.inj (List.cons.inj hcells).2).1 (List.cons.inj hcells).1
    rw [← hr] at hcontent
    exact (hdone.content hle).1 hcontent
  refine ⟨hresult, fun r hr hstr haddr cs hc => ?_⟩
  have hbefore : r ∈ values s.cells := by
    rw [hconcats.cells]
    exact List.mem_cons_of_mem _ (List.mem_cons_of_mem _ hr)
  have hafter : r ∈ values t.cells := by
    rw [hdone.cells]
    exact List.mem_cons_of_mem _ hr
  cases placed_cases (hs r hbefore hstr) with
  | inl hpool => exact absurd haddr hpool.1
  | inr hscr =>
    exact (hdone.kept_iff hresult hscr.2 hc).1 (h.kept t hstep r hbefore hafter hstr)

theorem Apart.immutable (hs : StringsPlaced E s) (hdepth : s.cells.length ≤ stackCells)
    (h : Apart E words s) : Immutable E words s := by
  constructor
  · intro p q rest as bs hconcats hca hcb hle
    obtain ⟨hp, hq⟩ := hconcats.placed hs
    obtain ⟨t, hstep, hdone⟩ := hconcats.step hp hq hca hcb hdepth hle
    have hapart := h p q rest as bs hconcats hca hcb hle
    exact ⟨t, _, hstep, hdone.cells, isStr_concatValue hle, (hdone.content hle).2 hapart.1⟩
  · intro t hstep r hr _ hstr
    cases turn_cases hs hdepth hstep with
    | inl hno => exact content_congr hno.1
    | inr hcat =>
      obtain ⟨p, q, rest, as, bs, hconcats, hca, hcb, hle, hdone⟩ := hcat
      have hapart := h p q rest as bs hconcats hca hcb hle
      cases placed_cases (hs r hr hstr) with
      | inl hpool => rw [hpool.2.content, hpool.2.content]
      | inr hscr =>
        obtain ⟨cs, hc, -⟩ := exists_content (s := s) (.inr hscr.2)
        refine (hdone.kept_iff hapart.1 hscr.2 hc).2 ?_
        rw [hconcats.cells] at hr
        cases hr with
        | head =>
          rw [hcb] at hc
          cases hc
          exact .inl (hapart.1 hscr.1)
        | tail _ hr =>
          cases hr with
          | head =>
            rw [hca] at hc
            cases hc
            exact .inl (List.prefix_append _ _)
          | tail _ hr => exact hapart.2 r hr hstr hscr.1 cs hc

/-- For all words, machines and globals: strings are immutable along the run and `CONCAT`
concatenates exactly when its operands and the strings below them are apart in every turn. -/
theorem immutable_iff_apart (E : KEnv) (m : Machine) (words : List Word) (g : List (BitVec 64)) :
    (∀ s, Reaches E m words g s → Immutable E words s) ↔
      ∀ s, Reaches E m words g s → Apart E words s := by
  constructor
  · intro h s hs
    obtain ⟨hplaced, hdepth⟩ := reaches_placed hs
    exact (h s hs).apart hplaced hdepth
  · intro h s hs
    obtain ⟨hplaced, hdepth⟩ := reaches_placed hs
    exact (h s hs).immutable hplaced hdepth

/-- A pool that holds the numbers of its bytes. -/
def countingPool : KEnv := { (default : KEnv) with pool := fun k => UInt8.ofNat k }

def nestedConcat : List Word :=
  [Word.mk' .pushs 7 1, Word.mk' .pushs 8 1, Word.mk' .pushs 9 1, Word.mk' .concat 0 0,
    Word.mk' .concat 0 0]

/-- The state in front of the second `CONCAT` of the words above. -/
def beforeNested : KState where
  m := {
    (default : Machine) with
    steps := 4
    scratch := Function.update (Function.update (default : Machine).scratch 0 8) 1 9
    scratchLen := 2 }
  g := []
  cells := [strMeta 2, 0x20000, strMeta 1, 0x10007]
  rstk := []
  pc := 4

/-- The string of byte 7 with the string of bytes 8 and 9 behind it should have the content
`[7, 8, 9]`, and what the turn pushes has `[7, 7, 7]`. -/
theorem nested_concat_repeats :
    (¬ ∀ s, Reaches countingPool default nestedConcat [] s →
      Immutable countingPool nestedConcat s) ∧
    beforeNested.content countingPool (0x10007, strMeta 1) = some [7] ∧
    beforeNested.content countingPool (0x20000, strMeta 2) = some [8, 9] ∧
    ∃ t, kernelStep countingPool nestedConcat beforeNested = .inl t ∧
      t.cells = [strMeta 3, 0x20000] ∧
      t.content countingPool (0x20000, strMeta 3) = some [7, 7, 7] := by
  have hrun : Steps (kernelStep countingPool nestedConcat) 4 (KState.init default [])
      beforeNested := .head rfl (.head rfl (.head rfl (.one rfl)))
  have hreach : Reaches countingPool default nestedConcat [] beforeNested :=
    ⟨List.cons_ne_nil _ _, Nat.zero_le _, 4, hrun⟩
  refine ⟨fun h => ?_, rfl, rfl, _, rfl, rfl, rfl⟩
  obtain ⟨hplaced, hdepth⟩ := reaches_placed hreach
  have hapart := (h _ hreach).apart hplaced hdepth
  have hconcats : Concats nestedConcat beforeNested (0x10007, strMeta 1) (0x20000, strMeta 2) [] :=
    ⟨⟨_, rfl, rfl⟩, rfl, rfl, rfl, rfl⟩
  have hprefix := (hapart _ _ _ [7] [8, 9] hconcats rfl rfl (by decide)).1 rfl
  exact absurd hprefix (by decide)

end Engines
