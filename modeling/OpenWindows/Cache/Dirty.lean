import OpenWindows.Cache.Lru

/-!
# The dirty blocks of the cache

`owcache_insert` marks a block dirty, and `owcache_flush` takes the marks off.  A
block that was inserted dirty and not flushed stays in its slot with its data until
an insert into the full table evicts it; nothing in the cache looks at the mark
before that.
-/

namespace Cache

open Memory Recency StepSystem

/-! ## The flush -/

/-- One turn of the loop of `owcache_flush`, with the entries flushed so far. -/
def flushTurn (r : Owcache × Nat) (i : Nat) : Owcache × Nat :=
  if (r.1.entries i).valid && (r.1.entries i).dirty then
    ({ r.1.setEntry i { r.1.entries i with dirty := false } with flushes := inc64 r.1.flushes },
      (r.2 + 1) % 2 ^ 32)
  else r

/-- `owcache_flush` -/
def owcacheFlush (c : Owcache) : Owcache × Nat :=
  if c.initialized = false then (c, 0)
  else (List.range c.capacity).foldl flushTurn (c, 0)

def Entry.cleaned (e : Entry) : Entry := if e.valid && e.dirty then { e with dirty := false } else e

@[simp] theorem Entry.cleaned_valid (e : Entry) : e.cleaned.valid = e.valid := by
  rw [Entry.cleaned]
  split <;> rfl

@[simp] theorem Entry.cleaned_blockIndex (e : Entry) : e.cleaned.blockIndex = e.blockIndex := by
  rw [Entry.cleaned]
  split <;> rfl

@[simp] theorem Entry.cleaned_data (e : Entry) : e.cleaned.data = e.data := by
  rw [Entry.cleaned]
  split <;> rfl

/-- What a flush of the first `n` slots does. -/
structure Flushed (c c' : Owcache) (n : Nat) : Prop where
  initialized : c'.initialized = c.initialized
  capacity : c'.capacity = c.capacity
  buffer : c'.buffer = c.buffer
  blockSize : c'.blockSize = c.blockSize
  below : ∀ i < n, c'.entries i = (c.entries i).cleaned
  above : ∀ {i}, n ≤ i → c'.entries i = c.entries i

variable {c : Owcache}

theorem Flushed.turn {r : Owcache × Nat} {n : Nat} (h : Flushed c r.1 n) :
    Flushed c (flushTurn r n).1 (n + 1) := by
  have hn : r.1.entries n = c.entries n := h.above (Nat.le_refl n)
  unfold flushTurn
  rw [hn]
  split
  next hdirty =>
    refine ⟨h.initialized, h.capacity, h.buffer, h.blockSize, fun i hi => ?_, fun {i} hi => ?_⟩
    · rcases Nat.lt_succ_iff_lt_or_eq.mp hi with hi | rfl
      · exact (if_neg (Nat.ne_of_lt hi)).trans (h.below i hi)
      · exact (if_pos rfl).trans (if_pos hdirty).symm
    · exact (if_neg (Nat.ne_of_gt hi)).trans (h.above (Nat.le_of_succ_le hi))
  next hclean =>
    refine ⟨h.initialized, h.capacity, h.buffer, h.blockSize, fun i hi => ?_, fun {i} hi => ?_⟩
    · rcases Nat.lt_succ_iff_lt_or_eq.mp hi with hi | rfl
      · exact h.below i hi
      · exact hn.trans (if_neg hclean).symm
    · exact h.above (Nat.le_of_succ_le hi)

theorem flushed_foldl (c : Owcache) (n : Nat) :
    Flushed c ((List.range n).foldl flushTurn (c, 0)).1 n := by
  induction n with
  | zero => exact ⟨rfl, rfl, rfl, rfl, fun _ hi => absurd hi (Nat.not_lt_zero _), fun _ => rfl⟩
  | succ n ih =>
    rw [List.range_succ, List.foldl_concat]
    exact ih.turn

theorem flushed_owcacheFlush (h : c.initialized = true) :
    Flushed c (owcacheFlush c).1 c.capacity := by
  rw [owcacheFlush, if_neg (by rw [h]; decide)]
  exact flushed_foldl c c.capacity

/-! ## Runs -/

/-- The use of a cache, the blocks whose last insert was dirty and that were not
flushed since, and the blocks that an insert evicted since they were inserted. -/
structure DirtyUse where
  use : CacheUse
  unflushed : Nat → Bool
  evicted : Nat → Bool

/-- The calls. -/
inductive DirtyOp where
  | lookup (blockIndex : Nat)
  | insert (blockIndex : Nat) (data : Option (Nat → UInt8)) (dirty : Bool)
  | flush

def evictedBlock (c : Owcache) (blockIndex : Nat) : Option Nat :=
  match cacheFind c blockIndex, cacheFreeSlot c with
  | none, none => (cacheLruSlot c).map fun i => (c.entries i).blockIndex
  | _, _ => none

/-- One call. -/
def DirtyUse.next (d : DirtyUse) : DirtyOp → DirtyUse
  | .lookup b => { d with use := d.use.next (.lookup b) }
  | .insert b data dirty =>
    if (owcacheInsert d.use.mem d.use.cache b data dirty).2.2.isSome then
      { use := d.use.next (.insert b data dirty)
        unflushed := Function.update d.unflushed b dirty
        evicted := Function.update
          (fun b' => d.evicted b' || evictedBlock d.use.cache b == some b') b false }
    else { d with use := d.use.next (.insert b data dirty) }
  | .flush =>
    { d with
      use := { d.use with cache := (owcacheFlush d.use.cache).1 }, unflushed := fun _ => false }

/-- The table has no slot for a block: every slot is in use, by another one. -/
def Owcache.FullFor (c : Owcache) (b : Nat) : Prop :=
  ∀ i < c.capacity, (c.entries i).valid = true ∧ (c.entries i).blockIndex ≠ b

/-- A block is valid, marked dirty, and has the data of its last insert. -/
def CacheUse.HoldsDirty (u : CacheUse) (b : Nat) : Prop :=
  ∃ i, cacheFind u.cache b = some i ∧ (u.cache.entries i).dirty = true ∧
    u.blockData i = u.stored b

variable {u u' : CacheUse} {d : DirtyUse} {s b : Nat}

/-- Every slot has its own part of the buffer, and a block one slot with the data of
its last insert. -/
structure Cached (u : CacheUse) : Prop where
  initialized : u.cache.initialized = true
  pos : 0 < u.cache.capacity
  place : ∀ {i}, i < u.cache.capacity →
    (u.cache.entries i).data = u.cache.buffer + i * u.cache.blockSize
  distinct : ∀ {i j}, i < u.cache.capacity → j < u.cache.capacity →
    (u.cache.entries i).valid = true → (u.cache.entries j).valid = true →
    (u.cache.entries i).blockIndex = (u.cache.entries j).blockIndex → i = j
  data : ∀ {i}, i < u.cache.capacity → (u.cache.entries i).valid = true →
    u.blockData i = u.stored (u.cache.entries i).blockIndex

theorem evictedBlock_of_not_fullFor {c : Owcache} (h : ¬ c.FullFor b) :
    evictedBlock c b = none := by
  unfold evictedBlock
  cases hfind : cacheFind c b with
  | some i => rfl
  | none =>
    cases hfree : cacheFreeSlot c with
    | some i => rfl
    | none => exact absurd (fun i hi =>
        ⟨cacheFreeSlot_none hfree hi, cacheFind_none hfind hi (cacheFreeSlot_none hfree hi)⟩) h

/-- A table without a slot gives up a block with the smallest stamp. -/
theorem evictedBlock_of_fullFor {c : Owcache} (hpos : 0 < c.capacity) (h : c.FullFor b) :
    ∃ s < c.capacity, evictedBlock c b = some (c.entries s).blockIndex ∧
      ∀ i < c.capacity, (c.entries s).lastUsed ≤ (c.entries i).lastUsed := by
  have hfind : cacheFind c b = none := by
    cases hf : cacheFind c b with
    | none => rfl
    | some i => exact absurd (cacheFind_some hf).2.2 (h i (cacheFind_some hf).1).2
  have hfree : cacheFreeSlot c = none := by
    cases hf : cacheFreeSlot c with
    | none => rfl
    | some i =>
      obtain ⟨hi, hv⟩ := cacheFreeSlot_some hf
      rw [(h i hi).1] at hv
      cases hv
  have hold := oldest_cacheLruSlot c
  cases hlru : cacheLruSlot c with
  | none =>
    rw [hlru] at hold
    have hv := hold 0 hpos
    rw [(h 0 hpos).1] at hv
    cases hv
  | some s =>
    rw [hlru] at hold
    refine ⟨s, hold.1, ?_, fun i hi => hold.2.2 i hi (h i hi).1⟩
    rw [evictedBlock, hfind, hfree, hlru]
    rfl

theorem Cached.other_of_chosen (h : Cached u) (hc : Chosen u.cache b c s) {i : Nat}
    (hi : i < u.cache.capacity) (hv : (u.cache.entries i).valid = true) (his : i ≠ s) :
    (u.cache.entries i).blockIndex ≠ b := by
  cases hc with
  | found hfind =>
    obtain ⟨hs, hvs, hbs⟩ := cacheFind_some hfind
    exact fun hb => his (h.distinct hi hs hv hvs (hb.trans hbs.symm))
  | free hfind | evicted hfind => exact cacheFind_none hfind hi hv

theorem Cached.stamp (h : Cached u) (hst : Stamped u u' s b)
    (hc : Chosen u.cache b c s) : Cached u' := by
  have hother : ∀ {i}, i < u.cache.capacity → i ≠ s → (u'.cache.entries i).valid = true →
      (u'.cache.entries i).blockIndex ≠ b := by
    intro i hi his hv
    rw [hst.other his] at hv ⊢
    exact h.other_of_chosen hc hi hv his
  refine ⟨hst.initialized.trans h.initialized, ?_, hst.place h.place hc.lt, ?_, ?_⟩
  · rw [hst.capacity]
    exact h.pos
  · intro i j hi hj hvi hvj heq
    rw [hst.capacity] at hi hj
    by_cases his : i = s
    · by_cases hjs : j = s
      · exact his.trans hjs.symm
      · rw [his, hst.block] at heq
        exact absurd heq.symm (hother hj hjs hvj)
    · by_cases hjs : j = s
      · rw [hjs, hst.block] at heq
        exact absurd heq (hother hi his hvi)
      · rw [hst.other his] at hvi heq
        rw [hst.other hjs] at hvj heq
        exact h.distinct hi hj hvi hvj heq
  · intro i hi hv
    rw [hst.capacity] at hi
    by_cases his : i = s
    · rw [his, hst.block]
      exact hst.stored
    · rw [hst.storedOther (hother hi his hv), hst.blockData_eq h.place hi hc.lt his]
      rw [hst.other his] at hv ⊢
      exact h.data hi hv

/-- The blocks that were not evicted are in their slots, the evicted ones in none. -/
structure DirtyUse.Kept (d : DirtyUse) : Prop where
  cached : Cached d.use
  kept : ∀ {b}, d.unflushed b = true → d.evicted b = false →
    ∃ i < d.use.cache.capacity, (d.use.cache.entries i).valid = true ∧
      (d.use.cache.entries i).blockIndex = b ∧ (d.use.cache.entries i).dirty = true
  gone : ∀ {b i}, d.evicted b = true → i < d.use.cache.capacity →
    (d.use.cache.entries i).valid = true → (d.use.cache.entries i).blockIndex ≠ b

theorem DirtyUse.Kept.lookup (h : d.Kept) (b : Nat) : (d.next (.lookup b)).Kept := by
  have hdata : ∀ {s}, cacheFind d.use.cache b = some s → d.use.blockData s = d.use.stored b := by
    intro s hfind
    obtain ⟨hs, hvalid, hblock⟩ := cacheFind_some hfind
    rw [h.cached.data hs hvalid, hblock]
  rcases stamped_lookup h.cached.initialized b hdata with ⟨-, hmiss⟩ | ⟨s, hfind, hst, hdirty⟩
  · simp only [DirtyUse.next, hmiss]
    exact ⟨⟨h.cached.initialized, h.cached.pos, h.cached.place, h.cached.distinct, h.cached.data⟩,
      h.kept, h.gone⟩
  · -- the slot of the block keeps its block and its mark
    obtain ⟨hs, hvalid, hblock⟩ := cacheFind_some hfind
    have hsame : ∀ i, ((d.use.next (.lookup b)).cache.entries i).valid =
          (d.use.cache.entries i).valid ∧
        ((d.use.next (.lookup b)).cache.entries i).blockIndex =
          (d.use.cache.entries i).blockIndex ∧
        ((d.use.next (.lookup b)).cache.entries i).dirty = (d.use.cache.entries i).dirty := by
      intro i
      by_cases his : i = s
      · subst his
        exact ⟨hst.valid.trans hvalid.symm, hst.block.trans hblock.symm, hdirty⟩
      · rw [hst.other his]
        exact ⟨rfl, rfl, rfl⟩
    refine ⟨h.cached.stamp hst (.found hfind), fun {b'} hun hev => ?_, fun {b' i} hev hi hv => ?_⟩
    · obtain ⟨i, hi, hv, hb, hd⟩ := h.kept hun hev
      obtain ⟨hv', hb', hd'⟩ := hsame i
      exact ⟨i, Nat.lt_of_lt_of_eq hi hst.capacity.symm, hv'.trans hv, hb'.trans hb, hd'.trans hd⟩
    · obtain ⟨hv', hb', -⟩ := hsame i
      have hi' : i < d.use.cache.capacity := Nat.lt_of_lt_of_eq hi hst.capacity
      exact fun heq => h.gone hev hi' (hv'.symm.trans hv) (hb'.symm.trans heq)

theorem evictedBlock_of_chosen {c c' : Owcache} (hc : Chosen c b c' s)
    (hv : (c.entries s).valid = true) (hb : (c.entries s).blockIndex ≠ b) :
    evictedBlock c b = some (c.entries s).blockIndex := by
  cases hc with
  | found hfind => exact absurd (cacheFind_some hfind).2.2 hb
  | free _ hfree =>
    rw [(cacheFreeSlot_some hfree).2] at hv
    cases hv
  | evicted hfind hfree hlru =>
    rw [evictedBlock, hfind, hfree, hlru]
    rfl

theorem Cached.ne_evictedBlock (h : Cached u) (hc : Chosen u.cache b c s) {i b' : Nat}
    (hev : evictedBlock u.cache b = some b') (hi : i < u.cache.capacity)
    (hv : (u.cache.entries i).valid = true) (his : i ≠ s) :
    (u.cache.entries i).blockIndex ≠ b' := by
  cases hc with
  | found hfind =>
    rw [evictedBlock, hfind] at hev
    cases hev
  | free hfind hfree =>
    rw [evictedBlock, hfind, hfree] at hev
    cases hev
  | evicted hfind hfree hlru =>
    have hold := oldest_cacheLruSlot u.cache
    rw [evictedBlock, hfind, hfree, hlru] at hev
    rw [hlru] at hold
    cases hev
    exact fun heq => his (h.distinct hi hold.1 hv hold.2.1 heq)

theorem DirtyUse.Kept.insert (h : d.Kept) (b : Nat) (data : Nat → UInt8) (dirty : Bool) :
    (d.next (.insert b (some data) dirty)).Kept := by
  obtain ⟨c, s, hc, hst, hslot, hdirty⟩ :=
    stamped_insert h.cached.initialized h.cached.pos b data dirty
  have hnext : d.next (.insert b (some data) dirty) = _ :=
    if_pos (by rw [hslot]; rfl)
  rw [hnext]
  refine ⟨h.cached.stamp hst hc, fun {b'} hun hev => ?_, fun {b' i} hev hi hv => ?_⟩
  · by_cases hb : b' = b
    · subst hb
      dsimp only at hun
      rw [Function.update_self] at hun
      exact ⟨s, Nat.lt_of_lt_of_eq hc.lt hst.capacity.symm, hst.valid, hst.block,
        hdirty.trans hun⟩
    · dsimp only at hun hev
      rw [Function.update_of_ne hb] at hun hev
      rw [Bool.or_eq_false_iff, beq_eq_false_iff_ne] at hev
      obtain ⟨i, hi, hv, hbi, hd⟩ := h.kept hun hev.1
      have his : i ≠ s := by
        rintro rfl
        have hne : (d.use.cache.entries i).blockIndex ≠ b := by rwa [hbi]
        exact hev.2 (hbi ▸ evictedBlock_of_chosen hc hv hne)
      refine ⟨i, Nat.lt_of_lt_of_eq hi hst.capacity.symm, ?_⟩
      rw [hst.other his]
      exact ⟨hv, hbi, hd⟩
  · by_cases hb : b' = b
    · subst hb
      dsimp only at hev
      rw [Function.update_self] at hev
      cases hev
    · dsimp only at hev
      rw [Function.update_of_ne hb, Bool.or_eq_true, beq_iff_eq] at hev
      by_cases his : i = s
      · rw [his, hst.block]
        exact Ne.symm hb
      · have hi : i < d.use.cache.capacity := Nat.lt_of_lt_of_eq hi hst.capacity
        dsimp only at hv ⊢
        rw [hst.other his] at hv ⊢
        rcases hev with hev | hev
        · exact h.gone hev hi hv
        · exact h.cached.ne_evictedBlock hc hev hi hv his

theorem DirtyUse.Kept.flush (h : d.Kept) : (d.next .flush).Kept := by
  have hf := flushed_owcacheFlush h.cached.initialized
  have hentry : ∀ {i}, i < (d.next .flush).use.cache.capacity →
      i < d.use.cache.capacity ∧
        (d.next .flush).use.cache.entries i = (d.use.cache.entries i).cleaned := fun {i} hi =>
    have hi := Nat.lt_of_lt_of_eq hi hf.capacity
    ⟨hi, hf.below i hi⟩
  refine ⟨⟨hf.initialized.trans h.cached.initialized, ?_, fun {i} hi => ?_,
    fun {i j} hi hj hvi hvj heq => ?_, fun {i} hi hv => ?_⟩, nofun, fun {b i} hev hi hv => ?_⟩
  · exact Nat.lt_of_lt_of_eq h.cached.pos hf.capacity.symm
  · obtain ⟨hi, he⟩ := hentry hi
    rw [he, Entry.cleaned_data, h.cached.place hi]
    show _ = (owcacheFlush d.use.cache).1.buffer + i * (owcacheFlush d.use.cache).1.blockSize
    rw [hf.buffer, hf.blockSize]
  · obtain ⟨hi, hei⟩ := hentry hi
    obtain ⟨hj, hej⟩ := hentry hj
    rw [hei, Entry.cleaned_valid] at hvi
    rw [hej, Entry.cleaned_valid] at hvj
    rw [hei, hej, Entry.cleaned_blockIndex, Entry.cleaned_blockIndex] at heq
    exact h.cached.distinct hi hj hvi hvj heq
  · obtain ⟨hi, he⟩ := hentry hi
    rw [he, Entry.cleaned_valid] at hv
    have hblock : (d.next .flush).use.blockData i = d.use.blockData i := by
      rw [CacheUse.blockData, he, Entry.cleaned_data]
      show load d.use.mem _ (owcacheFlush d.use.cache).1.blockSize = _
      rw [hf.blockSize]
      rfl
    rw [hblock, he, Entry.cleaned_blockIndex]
    exact h.cached.data hi hv
  · obtain ⟨hi, he⟩ := hentry hi
    rw [he, Entry.cleaned_valid] at hv
    rw [he, Entry.cleaned_blockIndex]
    exact h.gone hev hi hv

theorem DirtyUse.Kept.next (h : d.Kept) (op : DirtyOp) : (d.next op).Kept := by
  cases op with
  | lookup b => exact h.lookup b
  | insert b data dirty =>
    cases data with
    | none => exact h
    | some data => exact h.insert b data dirty
  | flush => exact h.flush

theorem owcacheInit_kept {m : Mem} {c c' : Owcache} {capacity buffer blockSize : Nat}
    (h : owcacheInit c capacity buffer blockSize = (c', true)) :
    DirtyUse.Kept ⟨⟨m, c', [], fun _ => []⟩, fun _ => false, fun _ => false⟩ := by
  have hr := owcacheInit_ranked (m := m) h
  have hfree : ∀ {i}, i < c'.capacity → ¬ (c'.entries i).valid = true := fun hi hv =>
    absurd (hr.slots.mpr ⟨hi, hv⟩) List.not_mem_nil
  exact ⟨⟨hr.initialized, hr.pos, hr.place, fun hi _ hv => absurd hv (hfree hi),
    fun hi hv => absurd hv (hfree hi)⟩, nofun, nofun⟩

theorem DirtyUse.Kept.holdsDirty_iff (h : d.Kept) (hun : d.unflushed b = true) :
    d.use.HoldsDirty b ↔ d.evicted b = false := by
  constructor
  · rintro ⟨i, hfind, -⟩
    obtain ⟨hi, hv, hb⟩ := cacheFind_some hfind
    exact Bool.eq_false_of_not_eq_true fun hev => h.gone hev hi hv hb
  · intro hev
    obtain ⟨i, hi, hv, hb, hd⟩ := h.kept hun hev
    cases hfind : cacheFind d.use.cache b with
    | none => exact absurd hb (cacheFind_none hfind hi hv)
    | some j =>
      obtain ⟨hj, hvj, hbj⟩ := cacheFind_some hfind
      cases h.cached.distinct hi hj hv hvj (hb.trans hbj.symm)
      exact ⟨i, hfind, hd, by rw [h.cached.data hi hv, hb]⟩

/-- In every run a block whose last insert was dirty and that was not flushed since is
in its slot, marked, with the data of that insert, exactly when no insert evicted it
since; and an insert evicts a block only when no slot is free or holds its own block,
and then one with the smallest stamp. -/
theorem dirty_kept {m : Mem} {c c' : Owcache} {capacity buffer blockSize : Nat}
    {ops : List DirtyOp} {d : DirtyUse}
    (hinit : owcacheInit c capacity buffer blockSize = (c', true))
    (hrun : Calls (fun _ _ => True) DirtyUse.next
      ⟨⟨m, c', [], fun _ => []⟩, fun _ => false, fun _ => false⟩ ops d) :
    (∀ b, d.unflushed b = true → (d.use.HoldsDirty b ↔ d.evicted b = false)) ∧
      ∀ b, (¬ d.use.cache.FullFor b → evictedBlock d.use.cache b = none) ∧
        (d.use.cache.FullFor b → ∃ s < d.use.cache.capacity,
          evictedBlock d.use.cache b = some (d.use.cache.entries s).blockIndex ∧
            ∀ i < d.use.cache.capacity,
              (d.use.cache.entries s).lastUsed ≤ (d.use.cache.entries i).lastUsed) := by
  have h : d.Kept := hrun.invariant (fun _ op h _ => h.next op) (owcacheInit_kept hinit)
  exact ⟨fun b hun => h.holdsDirty_iff hun, fun b =>
    ⟨evictedBlock_of_not_fullFor, evictedBlock_of_fullFor h.cached.pos⟩⟩

/-- A table of two slots. -/
def twoDirty : DirtyUse := ⟨twoSlots, fun _ => false, fun _ => false⟩

/-- Two dirty blocks and a third one. -/
def threeInserts : List DirtyOp :=
  [.insert 7 (some zeros) true, .insert 8 (some zeros) true, .insert 9 (some zeros) false]

/-- The third block evicts the first one although it is dirty; the second one, dirty as
well, stays, and is the next to go. -/
theorem dirty_kept_one :
    ∃ d : DirtyUse,
      Calls (fun _ _ => True) DirtyUse.next twoDirty threeInserts d ∧
      ¬ d.use.HoldsDirty 7 ∧ d.use.HoldsDirty 8 ∧ d.use.cache.FullFor 10 ∧
        (∃ s < d.use.cache.capacity,
          evictedBlock d.use.cache 10 = some (d.use.cache.entries s).blockIndex ∧
            ∀ i < d.use.cache.capacity,
              (d.use.cache.entries s).lastUsed ≤ (d.use.cache.entries i).lastUsed) ∧
        evictedBlock d.use.cache 10 = some 8 := by
  have hrun : Calls (fun _ _ => True) DirtyUse.next twoDirty threeInserts
      (threeInserts.foldl DirtyUse.next twoDirty) :=
    .snoc (.snoc (.snoc .nil trivial) trivial) trivial
  have hinit : owcacheInit blankCache 2 4096 1 = (twoSlots.cache, true) := rfl
  obtain ⟨hkept, hvictim⟩ := dirty_kept hinit hrun
  have hfull : (threeInserts.foldl DirtyUse.next twoDirty).use.cache.FullFor 10 := by
    show ∀ i < 2, _
    decide
  refine ⟨_, hrun, fun hheld => ?_, (hkept 8 rfl).mpr rfl, hfull, (hvictim 10).2 hfull, rfl⟩
  cases (hkept 7 rfl).mp hheld

/-- An insert of a third block into a table of two slots drops a dirty block. -/
theorem dirty_evicted :
    ∃ (ops : List DirtyOp) (d : DirtyUse),
      Calls (fun _ _ => True) DirtyUse.next twoDirty ops d ∧
        d.unflushed 7 = true ∧ ¬ d.use.HoldsDirty 7 := by
  refine ⟨threeInserts, _,
    .snoc (.snoc (.snoc .nil trivial) trivial) trivial, rfl, ?_⟩
  rintro ⟨i, hfind, -⟩
  cases hfind

end Cache
