import OpenWindows.Lib.Memory

/-!
# Logged memory accesses

A computation over a state that records each span of memory it reads or writes.
`Spec` is a Hoare triple with an obligation for the accesses: from a state with the
precondition every access is allowed, and result and state meet the postcondition.
-/

namespace Logged

/-- A span of a region, read or written. -/
structure Access (R : Type) where
  region : R
  isWrite : Bool
  addr : Nat
  size : Nat
deriving DecidableEq

/-- A computation that gives a result, the new state and what it accessed. -/
def Run (R σ α : Type) := σ → α × σ × List (Access R)

variable {R σ ε α β γ : Type}

namespace Run

/-- The result from a state. -/
def value (x : Run R σ α) (s : σ) : α := (x s).1

def state (x : Run R σ α) (s : σ) : σ := (x s).2.1

/-- The accesses, in order. -/
def log (x : Run R σ α) (s : σ) : List (Access R) := (x s).2.2

instance : Monad (Run R σ) where
  pure a := fun s => (a, s, [])
  bind x f := fun s =>
    (value (f (value x s)) (state x s), state (f (value x s)) (state x s),
      log x s ++ log (f (value x s)) (state x s))

def read (region : R) (addr size : Nat) (f : σ → α) : Run R σ α :=
  fun s => (f s, s, [{ region, isWrite := false, addr, size }])

/-- Look at the state without an access. -/
def look (f : σ → α) : Run R σ α := fun s => (f s, s, [])

/-- Change the state without an access. -/
def change (f : σ → σ) : Run R σ Unit := fun s => ((), f s, [])

def write (region : R) (addr size : Nat) (f : σ → σ) : Run R σ Unit :=
  fun s => ((), f s, [{ region, isWrite := true, addr, size }])

@[simp] theorem value_pure (a : α) (s : σ) : value (pure a : Run R σ α) s = a := rfl

@[simp] theorem value_bind (x : Run R σ α) (f : α → Run R σ β) (s : σ) :
    value (x >>= f) s = value (f (value x s)) (state x s) := rfl

@[simp] theorem value_read (region : R) (addr size : Nat) (f : σ → α) (s : σ) :
    value (read region addr size f) s = f s := rfl

@[simp] theorem state_read (region : R) (addr size : Nat) (f : σ → α) (s : σ) :
    state (read region addr size f) s = s := rfl

@[simp] theorem value_map (f : α → β) (x : Run R σ α) (s : σ) :
    value (f <$> x) s = f (value x s) := rfl

@[simp] theorem state_map (f : α → β) (x : Run R σ α) (s : σ) :
    state (f <$> x) s = state x s := rfl

/-- A check that a test must pass before the rest. -/
theorem value_reject {c : Prop} [Decidable c] {x : Run R σ Bool} {s : σ} :
    value (if c then pure false else x) s = true ↔ ¬ c ∧ value x s = true := by
  split
  next h => simp [h]
  next h => simp [h]

theorem value_bind_reject {c : α → Prop} [∀ a, Decidable (c a)] {x : Run R σ α}
    {f : α → Run R σ Bool} {s : σ} :
    value (x >>= fun a => if c a then pure false else f a) s = true ↔
      ¬ c (value x s) ∧ value (f (value x s)) (state x s) = true := value_reject

end Run

/-- Every access from a state with `P` is allowed, and `Q` holds of the result. -/
def Spec (ok : Access R → Prop) (P : σ → Prop) (x : Run R σ α) (Q : α → σ → Prop) : Prop :=
  ∀ s, P s → (∀ a ∈ Run.log x s, ok a) ∧ Q (Run.value x s) (Run.state x s)

namespace Spec

variable {ok : Access R → Prop} {P P' : σ → Prop} {Q Q' : α → σ → Prop} {T : β → σ → Prop}
  {x y : Run R σ α} {f : α → Run R σ β}

theorem pure {a : α} (h : ∀ s, P s → Q a s) : Spec ok P (Pure.pure a : Run R σ α) Q :=
  fun s hs => ⟨fun _ ha => (nomatch ha), h s hs⟩

theorem bind (hx : Spec ok P x Q) (hf : ∀ a, Spec ok (Q a) (f a) T) : Spec ok P (x >>= f) T := by
  intro s hs
  obtain ⟨hlog, hq⟩ := hx s hs
  obtain ⟨hlog', ht⟩ := hf _ _ hq
  exact ⟨fun a ha => (List.mem_append.mp ha).elim (hlog a) (hlog' a), ht⟩

theorem map {g : α → β} (hx : Spec ok P x fun a s => T (g a) s) : Spec ok P (g <$> x) T :=
  bind hx fun _ => pure fun _ hs => hs

theorem mono (hx : Spec ok P x Q) (hP : ∀ s, P' s → P s) (hQ : ∀ a s, Q a s → Q' a s) :
    Spec ok P' x Q' :=
  fun s hs => ⟨(hx s (hP s hs)).1, hQ _ _ (hx s (hP s hs)).2⟩

theorem ite {c : Prop} [Decidable c] (hx : c → Spec ok P x Q) (hy : ¬ c → Spec ok P y Q) :
    Spec ok P (if c then x else y) Q := by
  split
  next h => exact hx h
  next h => exact hy h

theorem read {region : R} {addr size : Nat} {g : σ → α}
    (hok : ok { region, isWrite := false, addr, size }) (h : ∀ s, P s → Q (g s) s) :
    Spec ok P (Run.read region addr size g) Q :=
  fun s hs => ⟨fun _ ha => List.mem_singleton.mp ha ▸ hok, h s hs⟩

theorem look {g : σ → α} (h : ∀ s, P s → Q (g s) s) : Spec ok P (Run.look g) Q :=
  fun s hs => ⟨fun _ ha => (nomatch ha), h s hs⟩

theorem change {g : σ → σ} {Q : Unit → σ → Prop} (h : ∀ s, P s → Q () (g s)) :
    Spec ok P (Run.change g) Q :=
  fun s hs => ⟨fun _ ha => (nomatch ha), h s hs⟩

theorem of_fact {p : Prop} (hp : ∀ s, P s → p) (h : p → Spec ok P x Q) : Spec ok P x Q :=
  fun s hs => h (hp s hs) s hs

theorem write {region : R} {addr size : Nat} {g : σ → σ} {Q : Unit → σ → Prop}
    (hok : ok { region, isWrite := true, addr, size }) (h : ∀ s, P s → Q () (g s)) :
    Spec ok P (Run.write region addr size g) Q :=
  fun s hs => ⟨fun _ ha => List.mem_singleton.mp ha ▸ hok, h s hs⟩

end Spec

/-! ## The number of accesses -/

/-- At most `n` accesses, from every state. -/
def AtMost (n : Nat) (x : Run R σ α) : Prop := ∀ s, (Run.log x s).length ≤ n

namespace AtMost

variable {n k : Nat} {x y : Run R σ α} {f : α → Run R σ β}

theorem pure (a : α) : AtMost n (Pure.pure a : Run R σ α) := fun _ => Nat.zero_le n

theorem look (g : σ → α) : AtMost 0 (Run.look g : Run R σ α) := fun _ => Nat.le_refl 0

theorem change (g : σ → σ) : AtMost 0 (Run.change g : Run R σ Unit) := fun _ => Nat.le_refl 0

theorem bind (hx : AtMost n x) (hf : ∀ a, AtMost k (f a)) : AtMost (n + k) (x >>= f) := by
  intro s
  refine Nat.le_trans (List.length_append ..).le (Nat.add_le_add (hx s) (hf _ _))

/-- A part without accesses. -/
theorem bind_zero (hx : AtMost 0 x) (hf : ∀ a, AtMost k (f a)) : AtMost k (x >>= f) := by
  have h := bind hx hf
  rwa [Nat.zero_add] at h

theorem ite {c : Prop} [Decidable c] (hx : AtMost n x) (hy : AtMost n y) :
    AtMost n (if c then x else y) := by
  split
  · exact hx
  · exact hy

end AtMost

/-! ## Computations that may stop with an error -/

/-- A triple with a postcondition for results and one for errors. -/
def Checked (ok : Access R → Prop) (P : σ → Prop) (x : ExceptT ε (Run R σ) α)
    (Q : α → σ → Prop) (E : ε → σ → Prop) : Prop :=
  Spec ok P x.run fun r s =>
    match r with
    | .ok a => Q a s
    | .error e => E e s

namespace Checked

variable {ok : Access R → Prop} {P P' : σ → Prop} {Q Q' : α → σ → Prop} {T : β → σ → Prop}
  {E : ε → σ → Prop} {x y : ExceptT ε (Run R σ) α} {f : α → ExceptT ε (Run R σ) β}

theorem pure {a : α} (h : ∀ s, P s → Q a s) :
    Checked ok P (Pure.pure a : ExceptT ε (Run R σ) α) Q E := Spec.pure h

theorem throw {e : ε} (h : ∀ s, P s → E e s) :
    Checked ok P (MonadExcept.throw e : ExceptT ε (Run R σ) α) Q E := Spec.pure h

theorem bind (hx : Checked ok P x Q E) (hf : ∀ a, Checked ok (Q a) (f a) T E) :
    Checked ok P (x >>= f) T E := by
  refine Spec.bind hx fun r => ?_
  cases r with
  | ok a => exact hf a
  | error e => exact Spec.pure fun _ hs => hs

theorem mono (hx : Checked ok P x Q E) (hP : ∀ s, P' s → P s) (hQ : ∀ a s, Q a s → Q' a s) :
    Checked ok P' x Q' E := by
  refine Spec.mono hx hP fun r s hr => ?_
  cases r with
  | ok a => exact hQ a s hr
  | error e => exact hr

theorem mono_error {E' : ε → σ → Prop} (hx : Checked ok P x Q E) (hE : ∀ e s, E e s → E' e s) :
    Checked ok P x Q E' := by
  refine Spec.mono hx (fun _ hs => hs) fun r s hr => ?_
  cases r with
  | ok a => exact hr
  | error e => exact hE e s hr

theorem ite {c : Prop} [Decidable c] (hx : c → Checked ok P x Q E) (hy : ¬ c → Checked ok P y Q E) :
    Checked ok P (if c then x else y) Q E := by
  split
  next h => exact hx h
  next h => exact hy h

theorem lift {z : Run R σ α} (h : Spec ok P z Q) : Checked ok P (ExceptT.lift z) Q E :=
  Spec.map h

theorem of_fact {p : Prop} (hp : ∀ s, P s → p) (h : p → Checked ok P x Q E) :
    Checked ok P x Q E := Spec.of_fact hp h

/-- What a result says. -/
theorem of_ok (h : Checked ok P x Q E) {s : σ} (hs : P s) {a : α}
    (ha : Run.value x.run s = .ok a) : Q a (Run.state x.run s) := by
  have hpost := (h s hs).2
  rwa [ha] at hpost

theorem of_start {δ : Type} (g : σ → δ) (h : ∀ d, Checked ok (fun s => g s = d ∧ P s) x Q E) :
    Checked ok P x Q E :=
  fun s hs => h (g s) s ⟨rfl, hs⟩

/-- A result that is known. -/
theorem bind_eq {v : α} (hx : Checked ok P x (fun a s => a = v ∧ P s) E)
    (hf : Checked ok P (f v) T E) : Checked ok P (x >>= f) T E := by
  refine bind hx fun a => of_fact (fun _ hs => hs.1) fun ha => ?_
  rw [ha]
  exact hf.mono (fun _ hs => hs.2) fun _ _ hs => hs

theorem forM {γ : Type} {body : γ → ExceptT ε (Run R σ) Unit} (I : Nat → σ → Prop)
    (xs : List γ) (k : Nat)
    (h : ∀ i (hi : i < xs.length),
      Checked ok (I (k + i)) (body (xs.get ⟨i, hi⟩)) (fun _ => I (k + i + 1)) E) :
    Checked ok (I k) (xs.forM body) (fun _ => I (k + xs.length)) E := by
  induction xs generalizing k with
  | nil => exact pure fun _ hs => hs
  | cons x xs ih =>
    refine bind (h 0 (Nat.zero_lt_succ _)) fun _ => ?_
    have htail := ih (k + 1) fun i hi => by
      have hstep := h (i + 1) (Nat.succ_lt_succ hi)
      rwa [show k + (i + 1) = k + 1 + i by omega] at hstep
    rwa [show k + 1 + xs.length = k + (x :: xs).length by simp; omega] at htail

end Checked

/-! ## Results -/

/-- Unless it ends with an error, the run from `s` gives `a` and leaves `s'`. -/
def Gives (x : ExceptT ε (Run R σ) α) (s : σ) (a : α) (s' : σ) : Prop :=
  ∀ r, Run.value x.run s = .ok r → r = a ∧ Run.state x.run s = s'

namespace Gives

variable {x y : ExceptT ε (Run R σ) α} {f : α → ExceptT ε (Run R σ) β} {s s' t : σ} {a : α} {b : β}

theorem pure (a : α) (s : σ) : Gives (Pure.pure a : ExceptT ε (Run R σ) α) s a s :=
  fun _ hr => ⟨(Except.ok.inj hr).symm, rfl⟩

theorem throw (e : ε) : Gives (MonadExcept.throw e : ExceptT ε (Run R σ) α) s a s' :=
  fun _ hr => nomatch hr

theorem lift (z : Run R σ α) (s : σ) :
    Gives (ExceptT.lift z : ExceptT ε (Run R σ) α) s (Run.value z s) (Run.state z s) :=
  fun _ hr => ⟨(Except.ok.inj hr).symm, rfl⟩

theorem bind (hx : Gives x s a s') (hf : Gives (f a) s' b t) : Gives (x >>= f) s b t := by
  intro r hr
  change Run.value (ExceptT.bindCont f (Run.value x.run s)) (Run.state x.run s) = .ok r at hr
  change _ ∧ Run.state (ExceptT.bindCont f (Run.value x.run s)) (Run.state x.run s) = t
  cases hvalue : Run.value x.run s with
  | error e =>
    rw [hvalue] at hr
    exact nomatch hr
  | ok v =>
    obtain ⟨rfl, hstate⟩ := hx v hvalue
    rw [hvalue, hstate] at hr
    rw [hstate]
    exact hf r hr

/-- Nothing runs after an error. -/
theorem bind_throw (e : ε) : Gives ((MonadExcept.throw e : ExceptT ε (Run R σ) α) >>= f) s b t :=
  fun _ hr => nomatch hr

theorem ite {c : Prop} [Decidable c] (hx : c → Gives x s a s') (hy : ¬ c → Gives y s a s') :
    Gives (if c then x else y) s a s' := by
  split
  next h => exact hx h
  next h => exact hy h

end Gives

end Logged
