import Mathlib.Data.List.Nodup

/-!
# Tables of slots

A table of `n` slots is a function on their numbers.  The program finds the first
slot of a kind, and counts the slots of a kind.  When one slot changes, the count
changes by what stood there and what stands there now.

A cache that means to give up its oldest key, but always gives up the one in the
last slot, does so exactly in the runs in which that key is the oldest.
-/

namespace Slots

variable {p : Nat → Bool}

/-- The first slot of a kind is one of the slots, and of the kind. -/
theorem find?_range_spec {n i : Nat} (h : (List.range n).find? p = some i) : i < n ∧ p i = true :=
  ⟨List.mem_range.mp (List.mem_of_find?_eq_some h), List.find?_some h⟩

/-- No slot is of the kind. -/
theorem find?_range_none {n : Nat} (h : (List.range n).find? p = none) {i : Nat}
    (hi : i < n) : p i = false := by
  simpa using List.find?_eq_none.mp h i (List.mem_range.mpr hi)

/-- A slot of the kind is found when there is one. -/
theorem find?_range_isSome {n i : Nat} (hi : i < n) (hp : p i = true) :
    ∃ j, (List.range n).find? p = some j := by
  refine Option.isSome_iff_exists.mp (List.find?_isSome.mpr ?_)
  exact ⟨i, List.mem_range.mpr hi, hp⟩

theorem countP_range_update (p p' : Nat → Bool) {n slot : Nat} (hslot : slot < n)
    (hother : ∀ i, i ≠ slot → p' i = p i) :
    (List.range n).countP p' + (p slot).toNat = (List.range n).countP p + (p' slot).toNat := by
  induction n with
  | zero => exact absurd hslot (Nat.not_lt_zero slot)
  | succ n ih =>
    have hsingle : ∀ q : Nat → Bool, [n].countP q = (q n).toNat := by
      intro q
      cases hq : q n <;> simp [hq]
    rw [List.range_succ, List.countP_append, List.countP_append, hsingle, hsingle]
    by_cases hn : slot = n
    · have hlow : (List.range n).countP p' = (List.range n).countP p := by
        refine List.countP_congr fun i hi => ?_
        rw [hother i (by rw [hn]; exact Nat.ne_of_lt (List.mem_range.mp hi))]
      rw [hlow, hn]
      omega
    · have hlow := ih (by omega)
      rw [hother n (Ne.symm hn)]
      omega

theorem countP_range_congr {p p' : Nat → Bool} {n : Nat} (h : ∀ i, i < n → p' i = p i) :
    (List.range n).countP p' = (List.range n).countP p := by
  refine List.countP_congr fun i hi => ?_
  rw [h i (List.mem_range.mp hi)]

/-- There are no slots of a kind. -/
theorem countP_range_eq_zero {n : Nat} (h : ∀ i, i < n → p i = false) :
    (List.range n).countP p = 0 := by
  refine List.countP_eq_zero.mpr fun i hi => ?_
  rw [h i (List.mem_range.mp hi)]
  exact Bool.false_ne_true

theorem foldl_oldest {A : Type*} [LE A] [DecidableLE A] {age : Nat → A} {a : A} (ha : a ≤ a)
    {n : Nat} (h : ∀ i < n, age i = a) :
    (List.range n).foldl
      (fun (victim, oldest) i => if oldest ≤ age i then (i, age i) else (victim, oldest)) (0, a) =
        (n - 1, a) := by
  induction n with
  | zero => rfl
  | succ n ih =>
    rw [List.range_succ, List.foldl_append, ih fun i hi => h i (Nat.lt_succ_of_lt hi)]
    simp [h n (Nat.lt_succ_self n), ha]

/-! ## Caches

A cache of the slots `0 … n` holds a key in each slot that is taken.  A key that
is held stays where it is, and a new one takes the first free slot, or the slot `n`
where none is free.  So the first `n` keys stay forever, and the others share the
last slot. -/

section Cache

variable {ι K : Type*} [DecidableEq K] {n : Nat} {run : List K} {s : Nat → Option K} {k x : K}

/-- A key is held in one of the slots `0 … n`. -/
def Held (n : Nat) (s : Nat → Option K) (k : K) : Prop := ∃ i ≤ n, s i = some k

/-- In a run of stores, `k` was stored after the last `x`. -/
def StoredAfter (run : List K) (x k : K) : Prop :=
  ∃ recent, recent <:+ run ∧ k ∈ recent ∧ x ∉ recent

/-- What a cache that replaces by age does in a run of stores.  After the stores `p`,
the keys in its slots are `slots p`. -/
structure ReplacesOldest (n : Nat) (key : ι → K) (slots : List ι → Nat → Option K)
    (run : List ι) : Prop where
  unique : ∀ p, p <+: run → ∀ i ≤ n, ∀ j ≤ n, ∀ k, slots p i = some k → slots p j = some k → i = j
  oldest : ∀ p y, p ++ [y] <+: run → (∀ i ≤ n, slots p i ≠ none) → ¬ Held n (slots p) (key y) →
    ∃ x, Held n (slots p) x ∧ (∀ k, Held n (slots p) k → k ≠ x → StoredAfter (p.map key) x k) ∧
      ∀ k, Held n (slots (p ++ [y])) k ↔ k = key y ∨ Held n (slots p) k ∧ k ≠ x
  kept : ∀ p x y, p ++ [x, y] <+: run → Held n (slots (p ++ [x, y])) (key x)

def slotFor (n : Nat) (s : Nat → Option K) (k : K) : Nat :=
  match (List.range (n + 1)).find? fun i => decide (s i = some k) with
  | some i => i
  | none =>
    match (List.range (n + 1)).find? fun i => (s i).isNone with
    | some i => i
    | none => n

def storeKey (n : Nat) (s : Nat → Option K) (k : K) : Nat → Option K :=
  Function.update s (slotFor n s k) (some k)

def storeKeys (n : Nat) (run : List K) : Nat → Option K := run.foldl (storeKey n) fun _ => none

/-- Another key is seen, of which the first `n` are kept. -/
def addKey (n : Nat) (keys : List K) (k : K) : List K :=
  if k ∈ keys ∨ n ≤ keys.length then keys else keys ++ [k]

/-- The first `n` keys of a run. -/
def firstKeys (n : Nat) (run : List K) : List K := run.foldl (addKey n) []

/-- Before another key is stored in the last slot, the first `n` keys are all
stored again. -/
def FirstRefreshed (n : Nat) (run : List K) : Prop :=
  ∀ before x between y after, run = before ++ x :: between ++ y :: after →
    x ∉ firstKeys n run → y ∉ firstKeys n run → x ≠ y → between ⊆ firstKeys n run →
      firstKeys n run ⊆ between

/-! ### The first keys -/

theorem firstKeys_snoc (run : List K) (k : K) :
    firstKeys n (run ++ [k]) = addKey n (firstKeys n run) k := by
  rw [firstKeys, List.foldl_append]
  rfl

theorem addKey_of_mem (h : k ∈ firstKeys n run) : firstKeys n (run ++ [k]) = firstKeys n run := by
  rw [firstKeys_snoc, addKey, if_pos (.inl h)]

theorem addKey_of_full (h : (firstKeys n run).length = n) :
    firstKeys n (run ++ [k]) = firstKeys n run := by
  rw [firstKeys_snoc, addKey, if_pos (.inr (Nat.le_of_eq h.symm))]

theorem foldl_addKey_stay (keys run : List K) : keys <+: run.foldl (addKey n) keys := by
  induction run generalizing keys with
  | nil => exact List.prefix_rfl
  | cons k run ih =>
    have hstep : keys <+: addKey n keys k := by
      unfold addKey
      split
      · exact List.prefix_rfl
      · exact List.prefix_append _ _
    exact hstep.trans (ih _)

variable {keys : List K}

theorem foldl_addKey_length (h : keys.length ≤ n) (run : List K) :
    (run.foldl (addKey n) keys).length ≤ n := by
  induction run generalizing keys with
  | nil => exact h
  | cons k run ih =>
    refine ih ?_
    unfold addKey
    split
    · exact h
    next hroom =>
      simp only [not_or, Nat.not_le] at hroom
      simp only [List.length_append, List.length_singleton]
      omega

theorem foldl_addKey_nodup (h : keys.Nodup) (run : List K) : (run.foldl (addKey n) keys).Nodup := by
  induction run generalizing keys with
  | nil => exact h
  | cons k run ih =>
    refine ih ?_
    unfold addKey
    split
    · exact h
    next hroom =>
      simp only [not_or] at hroom
      exact List.nodup_append.mpr ⟨h, List.nodup_singleton k, by
        rintro a ha b hb rfl
        exact hroom.1 (List.mem_singleton.mp hb ▸ ha)⟩

theorem length_firstKeys_le (run : List K) : (firstKeys n run).length ≤ n :=
  foldl_addKey_length (Nat.zero_le n) run

theorem firstKeys_nodup (run : List K) : (firstKeys n run).Nodup :=
  foldl_addKey_nodup List.nodup_nil run

theorem firstKeys_stay (p rest : List K) : firstKeys n p <+: firstKeys n (p ++ rest) := by
  rw [firstKeys, firstKeys, List.foldl_append]
  exact foldl_addKey_stay _ _

theorem firstKeys_append (h : (firstKeys n run).length = n) (rest : List K) :
    firstKeys n (run ++ rest) = firstKeys n run := by
  refine ((firstKeys_stay run rest).eq_of_length ?_).symm
  have hle := length_firstKeys_le (n := n) (run ++ rest)
  have hge := (firstKeys_stay (n := n) run rest).length_le
  omega

theorem foldl_addKey_of_nodup (hlen : keys.length ≤ n)
    (h : (keys ++ run).Nodup) : run.foldl (addKey n) keys = (keys ++ run).take n := by
  induction run generalizing keys with
  | nil => simpa using (List.take_of_length_le hlen).symm
  | cons k run ih =>
    have hnew : k ∉ keys := fun hk =>
      List.disjoint_of_nodup_append h hk (List.mem_cons_self ..)
    rw [List.foldl_cons, addKey]
    split
    next hor =>
      have hfull : keys.length = n := Nat.le_antisymm hlen (hor.resolve_left hnew)
      have hsub : (keys ++ run).Nodup :=
        h.sublist ((List.Sublist.refl keys).append (List.sublist_cons_self k run))
      rw [ih hlen hsub, ← hfull, List.take_left, List.take_left]
    next hor =>
      simp only [not_or, Nat.not_le] at hor
      rw [List.append_cons] at h
      have hlen' : (keys ++ [k]).length ≤ n := by
        rw [List.length_append, List.length_singleton]
        omega
      rw [ih hlen' h, ← List.append_cons]

theorem firstKeys_of_nodup (h : run.Nodup) : firstKeys n run = run.take n :=
  foldl_addKey_of_nodup (Nat.zero_le n) h

/-! ### The slots -/

/-- The slots of a cache after a run of stores: the first `n` keys in their order,
and the last of the other ones. -/
structure Follows (n : Nat) (run : List K) (s : Nat → Option K) : Prop where
  first : ∀ i < n, s i = (firstKeys n run)[i]?
  last_none : s n = none → run ⊆ firstKeys n run
  last_some : ∀ x, s n = some x → (firstKeys n run).length = n ∧
    ∃ before between, run = before ++ x :: between ∧ x ∉ firstKeys n run ∧
      between ⊆ firstKeys n run

theorem Follows.held_iff (h : Follows n run s) :
    Held n s k ↔ k ∈ firstKeys n run ∨ s n = some k := by
  constructor
  · rintro ⟨i, hi, hk⟩
    rcases Nat.lt_or_eq_of_le hi with hlt | rfl
    · rw [h.first i hlt] at hk
      exact .inl (List.mem_of_getElem? hk)
    · exact .inr hk
  · rintro (hk | hk)
    · obtain ⟨i, hi⟩ := List.mem_iff_getElem?.mp hk
      have hlt : i < n :=
        Nat.lt_of_lt_of_le (List.getElem?_eq_some_iff.mp hi).1 (length_firstKeys_le run)
      exact ⟨i, Nat.le_of_lt hlt, (h.first i hlt).trans hi⟩
    · exact ⟨n, Nat.le_refl n, hk⟩

/-- No key is held twice. -/
theorem Follows.unique (h : Follows n run s) {i j : Nat} (hi : i ≤ n) (hj : j ≤ n)
    (hik : s i = some k) (hjk : s j = some k) : i = j := by
  have hlast : s n = some k → ∀ l < n, s l ≠ some k := by
    intro hn l hl hlk
    obtain ⟨-, -, -, -, hnot, -⟩ := h.last_some k hn
    rw [h.first l hl] at hlk
    exact hnot (List.mem_of_getElem? hlk)
  rcases Nat.lt_or_eq_of_le hi with hi' | rfl <;> rcases Nat.lt_or_eq_of_le hj with hj' | rfl
  · rw [h.first i hi'] at hik
    rw [h.first j hj', ← hik] at hjk
    have hlt := (List.getElem?_eq_some_iff.mp hik).1
    exact ((List.getElem?_inj hlt (firstKeys_nodup run)).mp hjk.symm)
  · exact absurd hik (hlast hjk i hi')
  · exact absurd hjk (hlast hik j hj')
  · rfl

omit [DecidableEq K] in
theorem snoc_subset (h : run ⊆ keys) (hk : k ∈ keys) : run ++ [k] ⊆ keys := by
  intro a ha
  rcases List.mem_append.mp ha with hrun | hlast
  · exact h hrun
  · exact List.mem_singleton.mp hlast ▸ hk

theorem Follows.store_held (h : Follows n run s) (hk : Held n s k) : Follows n (run ++ [k]) s := by
  rcases h.held_iff.mp hk with hmem | hlast
  · have hsame := addKey_of_mem hmem
    refine ⟨by rw [hsame]; exact h.first, fun hnone => ?_, fun x hx => ?_⟩
    · rw [hsame]
      exact snoc_subset (h.last_none hnone) hmem
    · obtain ⟨hlen, before, between, hrun, hnot, hsub⟩ := h.last_some x hx
      rw [hsame]
      refine ⟨hlen, before, between ++ [k], by rw [hrun, List.append_assoc]; rfl, hnot, ?_⟩
      exact snoc_subset hsub hmem
  · obtain ⟨hlen, -, -, -, hnot, -⟩ := h.last_some k hlast
    have hsame := addKey_of_full (k := k) hlen
    refine ⟨by rw [hsame]; exact h.first, fun hnone => ?_, fun x hx => ?_⟩
    · rw [hlast] at hnone
      cases hnone
    · rw [hlast] at hx
      cases hx
      rw [hsame]
      exact ⟨hlen, run, [], rfl, hnot, List.nil_subset _⟩

theorem Follows.store_free (h : Follows n run s) (hk : ¬ Held n s k)
    (hroom : (firstKeys n run).length < n) :
    Follows n (run ++ [k]) (Function.update s (firstKeys n run).length (some k)) := by
  rw [h.held_iff, not_or] at hk
  have hadd : firstKeys n (run ++ [k]) = firstKeys n run ++ [k] := by
    rw [firstKeys_snoc, addKey, if_neg (by
      rw [not_or, Nat.not_le]
      exact ⟨hk.1, hroom⟩)]
  have hnone : s n = none := by
    cases hn : s n with
    | none => rfl
    | some x =>
      have := (h.last_some x hn).1
      omega
  have hn : Function.update s (firstKeys n run).length (some k) n = none := by
    rw [Function.update_of_ne (by omega), hnone]
  refine ⟨fun i hi => ?_, fun _ => ?_, fun x hx => ?_⟩
  · rw [hadd]
    rcases Nat.lt_trichotomy i (firstKeys n run).length with hlt | rfl | hgt
    · rw [Function.update_of_ne (Nat.ne_of_lt hlt), List.getElem?_append_left hlt, h.first i hi]
    · rw [Function.update_self, List.getElem?_concat_length]
    · rw [Function.update_of_ne (Nat.ne_of_gt hgt), h.first i hi,
        List.getElem?_eq_none (by omega), List.getElem?_eq_none (by
          rw [List.length_append, List.length_singleton]
          omega)]
  · rw [hadd]
    exact List.append_subset.mpr
      ⟨fun a ha => List.mem_append_left _ (h.last_none hnone ha), List.subset_append_right _ _⟩
  · rw [hn] at hx
    cases hx

theorem Follows.store_last (h : Follows n run s) (hk : ¬ Held n s k)
    (hfull : (firstKeys n run).length = n) :
    Follows n (run ++ [k]) (Function.update s n (some k)) := by
  rw [h.held_iff, not_or] at hk
  have hsame := addKey_of_full (k := k) hfull
  refine ⟨fun i hi => ?_, fun hnone => ?_, fun x hx => ?_⟩
  · rw [Function.update_of_ne (Nat.ne_of_lt hi), hsame, h.first i hi]
  · rw [Function.update_self] at hnone
    cases hnone
  · rw [Function.update_self] at hx
    cases hx
    rw [hsame]
    exact ⟨hfull, run, [], rfl, hk.1, List.nil_subset _⟩

theorem Follows.length_eq (h : Follows n run s) {i : Nat} (hi : i ≤ n)
    (hfree : i < n → s i = none) (htaken : ∀ j < i, s j ≠ none) :
    (firstKeys n run).length = i := by
  refine Nat.le_antisymm ?_ (Nat.le_of_not_lt fun hlt => ?_)
  · rcases Nat.lt_or_eq_of_le hi with hin | rfl
    · have hnone := hfree hin
      rw [h.first i hin] at hnone
      exact List.getElem?_eq_none_iff.mp hnone
    · exact length_firstKeys_le run
  · refine htaken _ hlt ?_
    rw [h.first _ (by omega), List.getElem?_eq_none (Nat.le_refl _)]

theorem Follows.store (h : Follows n run s) (k : K) : Follows n (run ++ [k]) (storeKey n s k) := by
  unfold storeKey slotFor
  split
  next i hfind =>
    have hi := find?_range_spec hfind
    have hik : s i = some k := by simpa using hi.2
    rw [← hik, Function.update_eq_self]
    exact h.store_held ⟨i, Nat.lt_succ_iff.mp hi.1, hik⟩
  next hfind =>
    have hk : ¬ Held n s k := by
      rintro ⟨i, hi, hik⟩
      simpa [hik] using find?_range_none hfind (Nat.lt_succ_iff.mpr hi)
    split
    next i hfree =>
      have hi := find?_range_spec hfree
      have hlen : (firstKeys n run).length = i :=
        h.length_eq (Nat.lt_succ_iff.mp hi.1) (fun _ => by simpa using hi.2) fun j hj => by
          have hj' := (List.find?_range_eq_some.mp hfree).2.2 j hj
          rintro hnone
          simp [hnone] at hj'
      rcases Nat.lt_or_eq_of_le (Nat.lt_succ_iff.mp hi.1) with hlt | rfl
      · rw [← hlen] at hlt ⊢
        exact h.store_free hk hlt
      · exact h.store_last hk hlen
    next hfull =>
      have htaken : ∀ j < n, s j ≠ none := by
        intro j hj hnone
        simpa [hnone] using find?_range_none hfull (Nat.lt_succ_of_lt hj)
      exact h.store_last hk (h.length_eq (Nat.le_refl n) (absurd · (Nat.lt_irrefl n)) htaken)

theorem Follows.foldl (h : Follows n run s) (rest : List K) :
    Follows n (run ++ rest) (rest.foldl (storeKey n) s) := by
  induction rest generalizing run s with
  | nil => simpa using h
  | cons k rest ih =>
    have hnext := ih (h.store k)
    rwa [List.append_assoc, List.singleton_append] at hnext

theorem storeKeys_follows (run : List K) : Follows n run (storeKeys n run) := by
  have hempty : Follows n ([] : List K) fun _ => none :=
    ⟨fun i _ => by simp [firstKeys], fun _ => List.nil_subset _, fun x hx => by cases hx⟩
  exact hempty.foldl run

/-! ### Which key goes -/

variable {before between : List K}

omit [DecidableEq K] in
theorem storedAfter_iff (hx : x ∉ between) :
    StoredAfter (before ++ x :: between) x k ↔ k ∈ between := by
  constructor
  · rintro ⟨recent, hsuffix, hk, hnot⟩
    have hbetween : between <:+ before ++ x :: between :=
      (List.suffix_cons x between).trans (List.suffix_append before _)
    rcases List.suffix_or_suffix_of_suffix hsuffix hbetween with hrecent | hlong
    · exact hrecent.subset hk
    · rcases Nat.lt_or_eq_of_le hlong.length_le with hlt | heq
      · have hcons : x :: between <:+ recent :=
          List.suffix_of_suffix_length_le (List.suffix_append before _) hsuffix
            (Nat.succ_le_of_lt hlt)
        exact absurd (hcons.subset (List.mem_cons_self ..)) hnot
      · rwa [hlong.eq_of_length heq]
  · intro hk
    exact ⟨between, (List.suffix_cons x between).trans (List.suffix_append before _), hk, hx⟩

theorem getLast?_others {keys between : List K} (before : List K) (hx : x ∉ keys)
    (hsub : between ⊆ keys) :
    ((before ++ x :: between).filter fun k => decide (k ∉ keys)).getLast? = some x := by
  have hnil : (between.filter fun k => decide (k ∉ keys)) = [] :=
    List.filter_eq_nil_iff.mpr fun k hk => by simpa using hsub hk
  rw [List.filter_append, List.filter_cons_of_pos (by simpa using hx), hnil, List.getLast?_concat]

theorem Follows.last_eq (h : Follows n (before ++ x :: between) s)
    (hx : x ∉ firstKeys n (before ++ x :: between))
    (hbetween : between ⊆ firstKeys n (before ++ x :: between)) : s n = some x := by
  cases hlast : s n with
  | none => exact absurd (h.last_none hlast (by simp)) hx
  | some z =>
    obtain ⟨-, before', between', hrun, hz, hsub⟩ := h.last_some z hlast
    have hother := getLast?_others before hx hbetween
    rw [hrun] at hother hz hsub
    rw [← hother, getLast?_others before' hz hsub]

theorem Follows.full (h : Follows n run s) (hx : s n = some x) : ∀ i ≤ n, s i ≠ none := by
  obtain ⟨hlen, -, -, -, -, -⟩ := h.last_some x hx
  intro i hi
  rcases Nat.lt_or_eq_of_le hi with hlt | rfl
  · rw [h.first i hlt, List.getElem?_eq_getElem (by omega)]
    nofun
  · rw [hx]
    nofun

theorem storeKey_of_held (hk : Held n s k) : storeKey n s k = s := by
  obtain ⟨i, hi, hik⟩ := hk
  obtain ⟨j, hj⟩ := find?_range_isSome (p := fun i => decide (s i = some k)) (Nat.lt_succ_of_le hi)
    (by simpa using hik)
  have hjk : s j = some k := by simpa using (find?_range_spec hj).2
  rw [storeKey, slotFor, hj]
  exact hjk ▸ Function.update_eq_self j s

theorem Follows.held_storeKey (h : Follows n run s) (hx : s n = some x) (hk : ¬ Held n s k)
    {a : K} : Held n (storeKey n s k) a ↔ a = k ∨ Held n s a ∧ a ≠ x := by
  obtain ⟨hlen, -, -, -, hnot, -⟩ := h.last_some x hx
  have hnew : (List.range (n + 1)).find? (fun i => decide (s i = some k)) = none := by
    refine List.find?_range_eq_none.mpr fun i hi => ?_
    have hik : s i ≠ some k := fun heq => hk ⟨i, Nat.lt_succ_iff.mp hi, heq⟩
    simpa using hik
  have hfull : (List.range (n + 1)).find? (fun i => (s i).isNone) = none := by
    refine List.find?_range_eq_none.mpr fun i hi => ?_
    simpa [Option.isSome_iff_ne_none] using h.full hx i (Nat.lt_succ_iff.mp hi)
  have hstore : storeKey n s k = Function.update s n (some k) := by
    rw [storeKey, slotFor, hnew, hfull]
  rw [(h.store k).held_iff, addKey_of_full hlen, hstore, Function.update_self, h.held_iff, hx]
  constructor
  · rintro (ha | ha)
    · exact .inr ⟨.inl ha, fun heq => hnot (heq ▸ ha)⟩
    · exact .inl (Option.some.inj ha).symm
  · rintro (rfl | ⟨ha | ha, hne⟩)
    · exact .inr rfl
    · exact .inl ha
    · exact absurd (Option.some.inj ha).symm hne

theorem Follows.held_self (h : Follows n run s) (k : K) : Held n (storeKey n s k) k := by
  have hnext := h.store k
  rw [hnext.held_iff]
  by_cases hmem : k ∈ firstKeys n (run ++ [k])
  · exact .inl hmem
  · exact .inr (hnext.last_eq hmem (List.nil_subset _))

theorem Follows.held_first (h : Follows n run s) (hmem : x ∈ firstKeys n run) (k : K) :
    Held n (storeKey n s k) x :=
  (h.store k).held_iff.mpr (.inl ((firstKeys_stay run [k]).subset hmem))

theorem storeKeys_snoc (run : List K) (k : K) :
    storeKeys n (run ++ [k]) = storeKey n (storeKeys n run) k := by
  rw [storeKeys, List.foldl_append]
  rfl

theorem Follows.storedAfter (h : Follows n run s) (hx : s n = some x) (hk : ¬ Held n s k)
    {after : List K} (hfresh : FirstRefreshed n (run ++ k :: after)) {a : K}
    (ha : a ∈ firstKeys n run) : StoredAfter run x a := by
  obtain ⟨hlen, before, between, hrun, hnot, hsub⟩ := h.last_some x hx
  rw [h.held_iff, hx, not_or] at hk
  have hsame := firstKeys_append hlen (k :: after)
  have hall := hfresh before x between k after (by rw [hrun]) (hsame ▸ hnot) (hsame ▸ hk.1)
    (fun heq => hk.2 (congrArg some heq)) (hsame ▸ hsub)
  rw [hrun, storedAfter_iff fun hmem => hnot (hsub hmem)]
  exact hall (hsame ▸ ha)

theorem Follows.refreshed (h : Follows n (before ++ x :: between) s)
    (hk : ¬ Held n s k) (hx : x ∉ firstKeys n (before ++ x :: between)) (hxk : x ≠ k)
    (hsub : between ⊆ firstKeys n (before ++ x :: between))
    (holdest : (∀ i ≤ n, s i ≠ none) → ∃ z, Held n s z ∧
      (∀ a, Held n s a → a ≠ z → StoredAfter (before ++ x :: between) z a) ∧
        ∀ a, Held n (storeKey n s k) a ↔ a = k ∨ Held n s a ∧ a ≠ z) :
    firstKeys n (before ++ x :: between) ⊆ between := by
  have hlast := h.last_eq hx hsub
  obtain ⟨z, -, hafter, hheld⟩ := holdest (h.full hlast)
  have hz : x = z := by
    by_contra hne
    have hstays := (hheld x).mpr (.inr ⟨h.held_iff.mpr (.inr hlast), hne⟩)
    rcases (h.held_storeKey hlast hk).mp hstays with heq | hgone
    · exact hxk heq
    · exact hgone.2 rfl
  subst hz
  intro a ha
  have hne : a ≠ x := fun heq => hx (heq ▸ ha)
  exact (storedAfter_iff fun hmem => hx (hsub hmem)).mp
    (hafter a (h.held_iff.mpr (.inl ha)) hne)

theorem replacesOldest_iff (hn : 0 < n) (key : ι → K) (run : List ι) :
    ReplacesOldest n key (fun p => storeKeys n (p.map key)) run ↔
      FirstRefreshed n (run.map key) := by
  constructor
  · intro h before x between y after hrun hx hy hxy hsub
    obtain ⟨p, rest, rfl, hp, hrest⟩ := List.map_eq_append_iff.mp hrun
    obtain ⟨y', after', rfl, rfl, -⟩ := List.map_eq_cons_iff.mp hrest
    have hfollows := storeKeys_follows (n := n) (p.map key)
    rw [List.map_append, List.map_cons] at hx hy hsub ⊢
    have hlast : storeKeys n (p.map key) n ≠ none := by
      intro hnone
      refine hx ((firstKeys_stay _ _).subset (hfollows.last_none hnone ?_))
      rw [hp]
      simp
    obtain ⟨z, hz⟩ := Option.ne_none_iff_exists'.mp hlast
    have hsame := firstKeys_append (hfollows.last_some z hz).1 (key y' :: after'.map key)
    rw [hsame] at hx hy hsub ⊢
    have holdest := h.oldest p y' ⟨after', by simp⟩
    have hnew : ¬ Held n (storeKeys n (p.map key)) (key y') := by
      have hlast := (hp ▸ hfollows).last_eq (hp ▸ hx) (hp ▸ hsub)
      rw [hfollows.held_iff, hp, hlast, not_or]
      exact ⟨hp ▸ hy, fun heq => hxy (Option.some.inj heq)⟩
    rw [hp] at hfollows hx hsub hnew ⊢
    refine hfollows.refreshed hnew hx hxy hsub fun hfull => ?_
    have := holdest (hp ▸ hfull) (hp ▸ hnew)
    rwa [List.map_append, List.map_singleton, storeKeys_snoc, hp] at this
  · intro h
    refine ⟨fun p _ i hi j hj k => (storeKeys_follows (p.map key)).unique hi hj, ?_, ?_⟩
    · rintro p y ⟨after, rfl⟩ hfull hnew
      have hfollows := storeKeys_follows (n := n) (p.map key)
      obtain ⟨x, hx⟩ := Option.ne_none_iff_exists'.mp (hfull n (Nat.le_refl n))
      refine ⟨x, hfollows.held_iff.mpr (.inr hx), fun k hk hne => ?_, fun k => ?_⟩
      · rw [List.map_append, List.map_append, List.append_assoc, List.map_singleton,
          List.singleton_append] at h
        rcases hfollows.held_iff.mp hk with hmem | hlast
        · exact hfollows.storedAfter hx hnew h hmem
        · exact absurd (Option.some.inj (hlast.symm.trans hx)) hne
      · rw [List.map_append, List.map_singleton, storeKeys_snoc]
        exact hfollows.held_storeKey hx hnew
    · rintro p x y ⟨after, rfl⟩
      have hfollows := storeKeys_follows (n := n) (p.map key ++ [key x])
      have hx : Held n (storeKeys n (p.map key ++ [key x])) (key x) := by
        rw [storeKeys_snoc]
        exact (storeKeys_follows (p.map key)).held_self (key x)
      have hsnoc : (p ++ [x, y]).map key = p.map key ++ [key x] ++ [key y] := by simp
      have hrun : (p ++ [x, y] ++ after).map key =
          p.map key ++ [key x] ++ key y :: after.map key := by simp
      rw [hrun] at h
      rw [hsnoc, storeKeys_snoc]
      by_cases hy : Held n (storeKeys n (p.map key ++ [key x])) (key y)
      · rwa [storeKey_of_held hy]
      · rcases hfollows.held_iff.mp hx with hmem | hlast
        · exact hfollows.held_first hmem (key y)
        · have hlen := (hfollows.last_some _ hlast).1
          obtain ⟨a, ha⟩ := List.exists_mem_of_length_pos (Nat.lt_of_lt_of_eq hn hlen.symm)
          have hafter := hfollows.storedAfter hlast hy h ha
          exact absurd ((storedAfter_iff List.not_mem_nil).mp hafter) List.not_mem_nil

theorem firstRefreshed_of_nodup (hn : 0 < n) (h : run.Nodup) :
    FirstRefreshed n run ↔ run.length ≤ n + 1 := by
  rw [FirstRefreshed, firstKeys_of_nodup h]
  constructor
  · intro hfresh
    by_contra hlong
    obtain ⟨x, y, after, hdrop⟩ : ∃ x y after, run.drop n = x :: y :: after := by
      have hlen : (run.drop n).length = run.length - n := List.length_drop
      match hd : run.drop n with
      | [] | [_] =>
        rw [hd] at hlen
        simp only [List.length_nil, List.length_singleton] at hlen
        omega
      | x :: y :: after => exact ⟨x, y, after, rfl⟩
    have hrun : run = run.take n ++ x :: [] ++ y :: after := by
      rw [List.append_assoc, List.singleton_append, ← hdrop, List.take_append_drop]
    have hnodup : (run.take n ++ x :: y :: after).Nodup := by
      rwa [← hdrop, List.take_append_drop]
    have hout : ∀ a ∈ x :: y :: after, a ∉ run.take n := fun a ha hmem =>
      List.disjoint_of_nodup_append hnodup hmem ha
    have hxy : x ≠ y := by
      have := (List.nodup_append.mp hnodup).2.1
      simp only [List.nodup_cons, List.mem_cons, not_or] at this
      exact this.1.1
    have hnil := hfresh (run.take n) x [] y after hrun (hout x (by simp)) (hout y (by simp)) hxy
      (List.nil_subset _)
    have hlen : (run.take n).length = 0 := by rw [List.subset_nil.mp hnil, List.length_nil]
    rw [List.length_take] at hlen
    omega
  · rintro hlen before x between y after hrun hx - - -
    have hbefore : n ≤ before.length := by
      by_contra hlt
      obtain ⟨m, hm⟩ : ∃ m, n - before.length = m + 1 := ⟨n - before.length - 1, by omega⟩
      refine hx ?_
      rw [hrun, List.append_assoc, List.cons_append, List.take_append, hm, List.take_succ_cons]
      simp
    rw [hrun] at hlen
    simp only [List.length_append, List.length_cons] at hlen
    omega

theorem foldl_storeKey {S : Type*} {step : S → ι → S} {keys : S → Nat → Option K} {key : ι → K}
    (Inv : S → Prop)
    (hstep : ∀ s x, Inv s → Inv (step s x) ∧ keys (step s x) = storeKey n (keys s) (key x))
    {s : S} (hs : Inv s) (run : List ι) :
    keys (run.foldl step s) = (run.map key).foldl (storeKey n) (keys s) := by
  induction run generalizing s with
  | nil => rfl
  | cons x run ih =>
    obtain ⟨hinv, hkeys⟩ := hstep s x hs
    rw [List.foldl_cons, ih hinv, hkeys, List.map_cons, List.foldl_cons]

end Cache
end Slots
