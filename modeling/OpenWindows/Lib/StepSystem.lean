import Mathlib.Data.List.Basic
import Mathlib.Order.Basic

/-!
# Step systems

Two shapes of computation occur throughout.  A *step system* is a function
`step : σ → σ ⊕ ρ` that either moves to a next state or stops with a result:
the body of an unbounded loop.  `Steps step n s t` says that `n` moves lead
from `s` to `t`, and `Halts step n s r` that the call after those moves stops
with `r`.  Both are deterministic, so a run is compared with a specification
by exhibiting one sequence of moves.

A *call system* is a state together with operations performed one after the
other.  `Calls guard next s as t` runs the operations `as` from `s`, each of
them meeting `guard` in the state it is called in.  An invariant of the calls
is an invariant of the whole run.
-/

namespace StepSystem

variable {σ ρ : Type*}

/-! ## Moves and results -/

/-- Run for at most `n` moves. -/
def runFor (step : σ → σ ⊕ ρ) : Nat → σ → σ ⊕ ρ
  | 0, s => .inl s
  | n + 1, s =>
    match step s with
    | .inl s' => runFor step n s'
    | .inr r => .inr r

/-- `n` moves lead from one state to another. -/
inductive Steps (step : σ → σ ⊕ ρ) : Nat → σ → σ → Prop where
  | refl (s : σ) : Steps step 0 s s
  | head {n : Nat} {s s' t : σ} :
      step s = .inl s' → Steps step n s' t → Steps step (n + 1) s t

/-- After `n` moves the machine stops with the result `r`. -/
def Halts (step : σ → σ ⊕ ρ) (n : Nat) (s : σ) (r : ρ) : Prop :=
  ∃ t, Steps step n s t ∧ step t = .inr r

variable {step : σ → σ ⊕ ρ}

variable {s t : σ} {n k : Nat} {r : ρ} {P : σ → Prop}

theorem Steps.one (h : step s = .inl t) : Steps step 1 s t :=
  .head h (.refl t)

theorem Steps.trans {n m : Nat} {s t u : σ} (h1 : Steps step n s t) (h2 : Steps step m t u) :
    Steps step (n + m) s u := by
  induction h1 with
  | refl s => rwa [Nat.zero_add]
  | head hs _ ih =>
    rw [Nat.add_right_comm]
    exact .head hs (ih h2)

theorem Steps.tail {n : Nat} {s t u : σ} (h : Steps step n s t) (ht : step t = .inl u) :
    Steps step (n + 1) s u :=
  h.trans (.one ht)

/-- Two runs of one length from one state end in the same state. -/
theorem Steps.unique {n : Nat} {s t u : σ} (h1 : Steps step n s t) (h2 : Steps step n s u) :
    t = u := by
  induction h1 with
  | refl s => cases h2; rfl
  | head hs _ ih =>
    cases h2 with
    | head hs' h2' =>
      rw [hs] at hs'
      cases hs'
      exact ih h2'

theorem Steps.split (h : Steps step (k + n) s t) : ∃ u, Steps step k s u ∧ Steps step n u t := by
  induction k generalizing s with
  | zero => exact ⟨s, .refl s, by rwa [Nat.zero_add] at h⟩
  | succ k ih =>
    rw [Nat.add_right_comm] at h
    cases h with
    | head hs h' =>
      obtain ⟨u, hu, hut⟩ := ih h'
      exact ⟨u, .head hs hu, hut⟩

/-- Nothing moves on from a state that stops. -/
theorem Steps.le_of_halts (h : Steps step n s t) (hh : Halts step k s r) : n ≤ k := by
  obtain ⟨u, hu, hr⟩ := hh
  by_contra hlt
  obtain ⟨d, rfl⟩ : ∃ d, n = k + (d + 1) := ⟨n - k - 1, by omega⟩
  obtain ⟨v, hv, hvt⟩ := h.split
  cases hu.unique hv
  cases hvt with
  | head hs _ => rw [hr] at hs; cases hs

theorem Halts.unique {s : σ} {r r' : ρ}
    (h1 : Halts step n s r) (h2 : Halts step k s r') : n = k ∧ r = r' := by
  obtain ⟨t, ht, hr⟩ := h1
  obtain ⟨u, hu, hr'⟩ := h2
  have hnk : n = k :=
    Nat.le_antisymm (ht.le_of_halts ⟨u, hu, hr'⟩) (hu.le_of_halts ⟨t, ht, hr⟩)
  subst hnk
  cases ht.unique hu
  rw [hr] at hr'
  exact ⟨rfl, Sum.inr.inj hr'⟩

theorem Halts.of_steps (h : Steps step n s t) (hh : Halts step k t r) : Halts step (n + k) s r := by
  obtain ⟨u, hu, hr⟩ := hh
  exact ⟨u, h.trans hu, hr⟩

theorem Halts.of_moved (h : Steps step k s t) (hh : Halts step n s r) : ∃ m, Halts step m t r := by
  have hle := h.le_of_halts hh
  obtain ⟨u, hu, hr⟩ := hh
  obtain ⟨m, rfl⟩ : ∃ m, n = k + m := ⟨n - k, by omega⟩
  obtain ⟨v, hv, hvu⟩ := hu.split
  cases h.unique hv
  exact ⟨m, u, hvu, hr⟩

/-! ## The bounded runner -/

theorem runFor_eq_inr {n : Nat} {s : σ} :
    runFor step n s = .inr r ↔ ∃ k, k < n ∧ Halts step k s r := by
  induction n generalizing s with
  | zero => simp [runFor]
  | succ n ih =>
    simp only [runFor]
    split
    next s' hs =>
      rw [ih]
      constructor
      · rintro ⟨k, hk, hh⟩
        exact ⟨k + 1, by omega, by simpa [Nat.add_comm] using Halts.of_steps (.one hs) hh⟩
      · rintro ⟨k, hk, u, hu, hr⟩
        cases hu with
        | refl => rw [hs] at hr; cases hr
        | @head k' _ _ _ hs' h' =>
          rw [hs] at hs'
          cases hs'
          exact ⟨k', by omega, u, h', hr⟩
    next r' hs =>
      constructor
      · intro h
        cases h
        exact ⟨0, by omega, s, .refl s, hs⟩
      · rintro ⟨k, _, u, hu, hr⟩
        cases hu with
        | refl => rw [hs] at hr; exact hr
        | head hs' _ => rw [hs] at hs'; cases hs'

/-! ## Invariants and measures -/

/-- What one move preserves, a run preserves. -/
theorem Steps.invariant (hstep : ∀ s t, P s → step s = .inl t → P t)
    {n : Nat} (h : Steps step n s t) (hs : P s) : P t := by
  induction h with
  | refl s => exact hs
  | head hm _ ih => exact ih (hstep _ _ hs hm)

theorem runFor_ends {Q : ρ → Prop} (hmove : ∀ s t, P s → step s = .inl t → P t)
    (hstop : ∀ s r, P s → step s = .inr r → Q r) {n : Nat} {s : σ}
    (h : runFor step n s = .inr r) (hs : P s) : Q r := by
  obtain ⟨k, -, t, ht, hr⟩ := runFor_eq_inr.mp h
  exact hstop t r (ht.invariant hmove hs) hr

theorem halts_of_bounded {μ : σ → Nat} {b : Nat}
    (hstep : ∀ s t, P s → step s = .inl t → P t ∧ μ s < μ t)
    (hb : ∀ s, P s → μ s ≤ b) {s : σ} (hs : P s) :
    ∃ n r t, Steps step n s t ∧ P t ∧ step t = .inr r := by
  induction hd : b - μ s using Nat.strongRecOn generalizing s with
  | _ d ih =>
    cases hm : step s with
    | inr r => exact ⟨0, r, s, .refl s, hs, hm⟩
    | inl t =>
      obtain ⟨ht, hlt⟩ := hstep s t hs hm
      have hbt := hb t ht
      obtain ⟨n, r, u, hu, hPu, hr⟩ := ih (b - μ t) (by omega) ht rfl
      exact ⟨n + 1, r, u, .head hm hu, hPu, hr⟩

/-- A machine that always moves on never stops. -/
theorem not_halts_of_invariant (hstep : ∀ s, P s → ∃ t, step s = .inl t ∧ P t)
    {s : σ} (hs : P s) (n : Nat) (r : ρ) : ¬ Halts step n s r := by
  rintro ⟨t, ht, hr⟩
  have hP : P t := ht.invariant (fun u v hu huv => by
    obtain ⟨w, hw, hPw⟩ := hstep u hu
    rw [hw] at huv
    cases huv
    exact hPw) hs
  obtain ⟨u, hu, _⟩ := hstep t hP
  rw [hr] at hu
  cases hu

/-! ## Systems that write and do not read -/

section Oblivious

variable {κ τ : Type*} {put : κ → σ → σ} {putR : κ → ρ → ρ} {emit : κ → τ → κ}

/-- A turn writes to a sink without reading it: what it writes and where it leads are the same
for every sink.  `put` and `putR` give states and results their sink. -/
def Oblivious (put : κ → σ → σ) (putR : κ → ρ → ρ) (emit : κ → τ → κ) (step : σ → σ ⊕ ρ) : Prop :=
  ∀ s, ∃ (ts : List τ) (u : σ ⊕ ρ), ∀ k, step (put k s) =
    Sum.map (put (ts.foldl emit k)) (putR (ts.foldl emit k)) u

theorem Oblivious.halts (h : Oblivious put putR emit step) {n : Nat} {s : σ} {k : κ} {r : ρ}
    (hr : Halts step n (put k s) r) :
    ∃ (ts : List τ) (r' : ρ), ∀ k, Halts step n (put k s) (putR (ts.foldl emit k) r') := by
  induction n generalizing s k with
  | zero =>
    obtain ⟨t, ht, hend⟩ := hr
    cases ht
    obtain ⟨ts, u, hu⟩ := h s
    rw [hu k] at hend
    cases u with
    | inl s' => cases hend
    | inr r' => exact ⟨ts, r', fun k => ⟨_, .refl _, hu k⟩⟩
  | succ n ih =>
    obtain ⟨t, ht, hend⟩ := hr
    obtain ⟨ts, u, hu⟩ := h s
    cases ht with
    | head hmove hrest =>
      rw [hu k] at hmove
      cases u with
      | inr r' => cases hmove
      | inl s' =>
        cases hmove
        obtain ⟨ts', r', hall⟩ := ih ⟨t, hrest, hend⟩
        refine ⟨ts ++ ts', r', fun k => ?_⟩
        obtain ⟨v, hv, hvr⟩ := hall (ts.foldl emit k)
        rw [List.foldl_append]
        exact ⟨v, .head (hu k) hv, hvr⟩

end Oblivious

/-! ## Sequences of calls -/

/-- The operations `as`, performed in order from `s`, lead to `t`, and each of
them met `guard` in the state it was performed in. -/
inductive Calls {α : Type*} (guard : σ → α → Prop) (next : σ → α → σ) (s : σ) :
    List α → σ → Prop where
  | nil : Calls guard next s [] s
  | snoc {t : σ} {as : List α} {a : α} :
      Calls guard next s as t → guard t a → Calls guard next s (as ++ [a]) (next t a)

variable {α : Type*} {next : σ → α → σ} {guard : σ → α → Prop} {as : List α}

theorem Calls.invariant (hstep : ∀ s a, P s → guard s a → P (next s a))
    (h : Calls guard next s as t) (hs : P s) : P t := by
  induction h with
  | nil => exact hs
  | snoc _ hg ih => exact hstep _ _ ih hg

theorem Calls.mono {guard guard' : σ → α → Prop}
    (h : Calls guard next s as t) (himp : ∀ s a, guard s a → guard' s a) :
    Calls guard' next s as t := by
  induction h with
  | nil => exact .nil
  | snoc _ hg ih => exact ih.snoc (himp _ _ hg)

theorem Calls.eq_foldl (h : Calls guard next s as t) : t = as.foldl next s := by
  induction h with
  | nil => rfl
  | snoc _ _ ih => rw [List.foldl_concat, ← ih]

theorem Calls.append_foldl (h : Calls guard next s as t) (hg : ∀ s a, guard s a) (bs : List α) :
    Calls guard next s (as ++ bs) (bs.foldl next t) := by
  induction bs generalizing as t with
  | nil => simpa using h
  | cons b bs ih =>
    have hnext := ih (.snoc h (hg t b))
    rwa [List.append_assoc, List.singleton_append] at hnext

theorem Calls.of_concat {a : α} (h : Calls guard next s (as ++ [a]) t) :
    ∃ u, Calls guard next s as u ∧ guard u a ∧ t = next u a := by
  generalize hbs : as ++ [a] = bs at h
  cases h with
  | nil => simp at hbs
  | @snoc u as' a' hinit hg =>
    obtain ⟨rfl, ha⟩ := List.append_inj' hbs rfl
    cases ha
    exact ⟨u, hinit, hg, rfl⟩

theorem Calls.of_prefix {as pre : List α} (h : Calls guard next s as t) (hpre : pre <+: as) :
    Calls guard next s pre (pre.foldl next s) := by
  induction h with
  | nil =>
    rw [List.prefix_nil.mp hpre]
    exact .nil
  | snoc hinit hg ih =>
    rcases List.prefix_concat_iff.mp hpre with rfl | hpre
    · rw [List.foldl_concat, ← hinit.eq_foldl]
      exact .snoc hinit hg
    · exact ih hpre

/-- Every call of a sequence has the property in the state it is performed in. -/
def Along {α : Type*} (next : σ → α → σ) (P : σ → α → Prop) (s : σ) : List α → Prop
  | [] => True
  | a :: as => P s a ∧ Along next P (next s a) as

instance Along.instDecidable {next : σ → α → σ} {P : σ → α → Prop} [∀ s a, Decidable (P s a)] :
    (as : List α) → (s : σ) → Decidable (Along next P s as)
  | [], _ => .isTrue trivial
  | a :: as, s => @instDecidableAnd _ _ _ (Along.instDecidable as (next s a))

theorem along_iff {P Q : σ → α → Prop} {I : σ → Prop}
    (hiff : ∀ s a, I s → (P s a ↔ Q s a)) (hstep : ∀ s a, I s → Q s a → I (next s a))
    (hs : I s) (as : List α) : Along next P s as ↔ Along next Q s as := by
  induction as generalizing s with
  | nil => exact Iff.rfl
  | cons a as ih =>
    rw [Along, Along, hiff s a hs]
    constructor
    · intro h
      exact ⟨h.1, (ih (hstep s a hs h.1)).1 h.2⟩
    · intro h
      exact ⟨h.1, (ih (hstep s a hs h.1)).2 h.2⟩

theorem reached_iff_along {I : σ → Prop} {Q : σ → α → Prop}
    (hstep : ∀ s a, I s → (I (next s a) ↔ Q s a)) (hs : I s) (as : List α) :
    (∀ pre, pre <+: as → I (pre.foldl next s)) ↔ Along next Q s as := by
  induction as generalizing s with
  | nil => simp [Along, hs]
  | cons a as ih =>
    rw [Along]
    constructor
    · intro h
      have hnext : I (next s a) := h [a] (List.prefix_append [a] as)
      refine ⟨(hstep s a hs).1 hnext, (ih hnext).1 fun pre hpre => ?_⟩
      exact h (a :: pre) (List.cons_prefix_cons.2 ⟨rfl, hpre⟩)
    · rintro ⟨ha, has⟩ pre hpre
      have hnext : I (next s a) := (hstep s a hs).2 ha
      cases pre with
      | nil => exact hs
      | cons b pre =>
        obtain ⟨rfl, htail⟩ := List.cons_prefix_cons.1 hpre
        exact (ih hnext).2 has pre htail

theorem along_and {P Q : σ → α → Prop} :
    Along next (fun s a => P s a ∧ Q s a) s as ↔ Along next P s as ∧ Along next Q s as := by
  induction as generalizing s with
  | nil => exact ⟨fun _ => ⟨trivial, trivial⟩, fun _ => trivial⟩
  | cons a as ih =>
    rw [Along, Along, Along, ih]
    exact and_and_and_comm

theorem along_append {P : σ → α → Prop} {as bs : List α} :
    Along next P s (as ++ bs) ↔ Along next P s as ∧ Along next P (as.foldl next s) bs := by
  induction as generalizing s with
  | nil => exact ⟨fun h => ⟨trivial, h⟩, fun h => h.2⟩
  | cons a as ih => rw [List.cons_append, Along, Along, ih, List.foldl_cons, and_assoc]

end StepSystem
