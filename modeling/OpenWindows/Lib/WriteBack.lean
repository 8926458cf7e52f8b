import Mathlib.Logic.Function.Basic

/-!
# Write-back caches

A cache keeps copies of values that belong into a store.  A line holds a value under a key and
is dirty once the value has not reached the store.  `Coherent` says that the lines and the store
together stand for one memory: a line holds the memory's value, no key has two lines, and the
store holds the memory's value for every key without a dirty line.

Each operation of such a cache is a lemma: a line may be filled from the store, written,
cleaned and dropped, and the keys may be renamed.
-/

namespace WriteBack

variable {ι κ ν : Type*}

/-- A line of the cache. -/
structure Line (κ ν : Type*) where
  key : κ
  value : ν
  dirty : Bool

/-- The lines and the store stand for the memory. -/
structure Coherent (L : ι → Option (Line κ ν)) (store mem : κ → ν) : Prop where
  unique : ∀ {i j l l'}, L i = some l → L j = some l' → l.key = l'.key → i = j
  held : ∀ {i l}, L i = some l → mem l.key = l.value
  stored : ∀ {k}, (∀ i l, L i = some l → l.key = k → l.dirty = false) → store k = mem k

variable {L : ι → Option (Line κ ν)} {store mem : κ → ν}

def Misses (L : ι → Option (Line κ ν)) (k : κ) : Prop := ∀ i l, L i = some l → l.key ≠ k

/-- The place can be given to another key: nothing is lost with its line. -/
def Free (L : ι → Option (Line κ ν)) (i : ι) : Prop := ∀ l, L i = some l → l.dirty = false

theorem Coherent.empty (mem : κ → ν) : Coherent (fun _ : ι => none) mem mem where
  unique h := by cases h
  held h := by cases h
  stored _ := rfl

theorem Coherent.of_misses (h : Coherent L store mem) {k : κ} (hk : Misses L k) :
    store k = mem k :=
  h.stored fun i l hl hkey => absurd hkey (hk i l hl)

theorem Coherent.of_clean (h : Coherent L store mem) {k : κ}
    (hk : ∀ i l, L i = some l → l.dirty = true → l.key ≠ k) : store k = mem k := by
  apply h.stored
  intro i l hl hkey
  rw [← Bool.not_eq_true]
  exact fun hdirty => hk i l hl hdirty hkey

section Update

variable [DecidableEq ι]

variable {i j : ι} {l : Line κ ν}

theorem update_cases {l' : Line κ ν}
    (h : Function.update L i (some l) j = some l') : j = i ∧ l' = l ∨ j ≠ i ∧ L j = some l' := by
  by_cases hji : j = i
  · subst hji
    rw [Function.update_self] at h
    cases h
    exact .inl ⟨rfl, rfl⟩
  · rw [Function.update_of_ne hji] at h
    exact .inr ⟨hji, h⟩

theorem update_same (i : ι) (l : Line κ ν) : Function.update L i (some l) i = some l :=
  Function.update_self ..

theorem update_other (h : j ≠ i) (l? : Option (Line κ ν)) : Function.update L i l? j = L j :=
  Function.update_of_ne h ..

theorem Coherent.unique_update (h : Coherent L store mem)
    (hother : ∀ j l', j ≠ i → L j = some l' → l'.key ≠ l.key) {j' : ι} {m m' : Line κ ν}
    (hj : Function.update L i (some l) j = some m) (hj' : Function.update L i (some l) j' = some m')
    (hkey : m.key = m'.key) : j = j' := by
  rcases update_cases hj with ⟨rfl, rfl⟩ | ⟨hne, hm⟩
  · rcases update_cases hj' with ⟨rfl, rfl⟩ | ⟨hne', hm'⟩
    · rfl
    · exact absurd hkey.symm (hother j' m' hne' hm')
  · rcases update_cases hj' with ⟨rfl, rfl⟩ | ⟨hne', hm'⟩
    · exact absurd hkey (hother j m hne hm)
    · exact h.unique hm hm' hkey

theorem Coherent.fill (h : Coherent L store mem) {k : κ} (hk : Misses L k)
    (hi : Free L i) : Coherent (Function.update L i (some ⟨k, store k, false⟩)) store mem where
  unique := h.unique_update fun j l' _ hl' => hk j l' hl'
  held := by
    intro j l hl
    rcases update_cases hl with ⟨rfl, rfl⟩ | ⟨_, hl⟩
    · exact (h.of_misses hk).symm
    · exact h.held hl
  stored := by
    intro k' hclean
    apply h.stored
    intro j l hl hkey
    by_cases hji : j = i
    · subst hji
      exact hi l hl
    · exact hclean j l (by rw [update_other hji, hl]) hkey

theorem Coherent.put [DecidableEq κ] (h : Coherent L store mem) {k : κ} (v : ν)
    (hi : (∃ l, L i = some l ∧ l.key = k) ∨ Misses L k ∧ Free L i) :
    Coherent (Function.update L i (some ⟨k, v, true⟩)) store (Function.update mem k v) := by
  have hother : ∀ j l', j ≠ i → L j = some l' → l'.key ≠ k := by
    intro j l' hne hl' hkey
    rcases hi with ⟨l, hl, hlk⟩ | ⟨hk, -⟩
    · exact hne (h.unique hl' hl (hkey.trans hlk.symm))
    · exact hk j l' hl' hkey
  refine ⟨h.unique_update hother, ?_, ?_⟩
  · intro j l hl
    rcases update_cases hl with ⟨rfl, rfl⟩ | ⟨hne, hl⟩
    · exact Function.update_self ..
    · rw [Function.update_of_ne (hother j l hne hl)]
      exact h.held hl
  · intro k' hclean
    have hne : k' ≠ k := by
      rintro rfl
      cases hclean i _ (update_same i _) rfl
    rw [Function.update_of_ne hne]
    apply h.stored
    intro j l hl hkey
    by_cases hji : j = i
    · subst hji
      rcases hi with ⟨l', hl', hlk⟩ | ⟨-, hfree⟩
      · rw [hl] at hl'
        cases hl'
        exact absurd (hkey.symm.trans hlk) hne
      · exact hfree l hl
    · exact hclean j l (by rw [update_other hji, hl]) hkey

theorem Coherent.clean [DecidableEq κ] (h : Coherent L store mem) (hl : L i = some l) :
    Coherent (Function.update L i (some { l with dirty := false }))
      (Function.update store l.key l.value) mem := by
  have hother : ∀ j l', j ≠ i → L j = some l' → l'.key ≠ l.key :=
    fun j l' hne hl' hkey => hne (h.unique hl' hl hkey)
  refine ⟨h.unique_update (l := { l with dirty := false }) hother, ?_, ?_⟩
  · intro j l' hl'
    rcases update_cases hl' with ⟨rfl, rfl⟩ | ⟨_, hl'⟩
    · show mem l.key = l.value
      exact h.held hl
    · exact h.held hl'
  · intro k hclean
    by_cases hk : k = l.key
    · subst hk
      rw [Function.update_self, h.held hl]
    · rw [Function.update_of_ne hk]
      apply h.stored
      intro j l' hl' hkey
      by_cases hji : j = i
      · subst hji
        rw [hl] at hl'
        cases hl'
        exact absurd hkey.symm hk
      · exact hclean j l' (by rw [update_other hji, hl']) hkey

end Update

/-! ## Other keys -/

/-- The line under the key that `f` gives it, if it keeps one. -/
def Line.rekey {κ' : Type*} (f : κ → Option κ') (l : Line κ ν) : Option (Line κ' ν) :=
  (f l.key).map fun k => ⟨k, l.value, l.dirty⟩

theorem Line.rekey_eq_some {κ' : Type*} {f : κ → Option κ'} {l : Line κ ν} {l' : Line κ' ν} :
    l.rekey f = some l' ↔ ∃ k, f l.key = some k ∧ l' = ⟨k, l.value, l.dirty⟩ := by
  unfold Line.rekey
  rw [Option.map_eq_some_iff]
  constructor
  · rintro ⟨k, hk, rfl⟩
    exact ⟨k, hk, rfl⟩
  · rintro ⟨k, hk, rfl⟩
    exact ⟨k, hk, rfl⟩

theorem Coherent.rekey {κ' : Type*} (h : Coherent L store mem) {f : κ → Option κ'}
    {store' mem' : κ' → ν} (hinj : ∀ {k₁ k₂ k}, f k₁ = some k → f k₂ = some k → k₁ = k₂)
    (hold : ∀ k k', f k = some k' → store' k' = store k ∧ mem' k' = mem k)
    (hnew : ∀ k', (∀ k, f k ≠ some k') → store' k' = mem' k') :
    Coherent (fun i => (L i).bind (Line.rekey f)) store' mem' where
  unique := by
    intro i j l l' hl hl' hkey
    obtain ⟨m, hm, hml⟩ := Option.bind_eq_some_iff.1 hl
    obtain ⟨m', hm', hml'⟩ := Option.bind_eq_some_iff.1 hl'
    obtain ⟨k, hk, rfl⟩ := Line.rekey_eq_some.1 hml
    obtain ⟨k', hk', rfl⟩ := Line.rekey_eq_some.1 hml'
    replace hkey : k = k' := hkey
    subst hkey
    exact h.unique hm hm' (hinj hk hk')
  held := by
    intro i l hl
    obtain ⟨m, hm, hml⟩ := Option.bind_eq_some_iff.1 hl
    obtain ⟨k, hk, rfl⟩ := Line.rekey_eq_some.1 hml
    rw [(hold _ _ hk).2]
    exact h.held hm
  stored := by
    intro k' hclean
    by_cases hk : ∃ k, f k = some k'
    · obtain ⟨k, hk⟩ := hk
      rw [(hold k k' hk).1, (hold k k' hk).2]
      apply h.stored
      intro i l hl hkey
      have hnew : (L i).bind (Line.rekey f) = some ⟨k', l.value, l.dirty⟩ := by
        rw [hl, Option.bind_some, Line.rekey, hkey, hk, Option.map_some]
      exact hclean i _ hnew rfl
    · exact hnew k' fun k hfk => hk ⟨k, hfk⟩

theorem Coherent.extend (h : Coherent L store mem) {store' mem' : κ → ν}
    (hkeys : ∀ k, (store' k = store k ∧ mem' k = mem k) ∨ (Misses L k ∧ store' k = mem' k)) :
    Coherent L store' mem' where
  unique := h.unique
  held := by
    intro i l hl
    rcases hkeys l.key with ⟨-, hmem⟩ | ⟨hmiss, -⟩
    · rw [hmem]
      exact h.held hl
    · exact absurd rfl (hmiss i l hl)
  stored := by
    intro k hclean
    rcases hkeys k with ⟨hstore, hmem⟩ | ⟨-, hsame⟩
    · rw [hstore, hmem]
      exact h.stored hclean
    · exact hsame

end WriteBack
