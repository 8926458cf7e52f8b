import OpenWindows.Crt64.HeapSizes

/-!
# Reallocation

`ow_realloc` keeps what the caller wrote, and leaves the other allocations alone.
It knows the header of small blocks only.  The one of a large allocation it takes
for damage, and the number of bytes it reads there is that of no block.
-/

namespace Crt64

open Memory StepSystem

variable {k64 : Kernel} {h : Heap} {v : Layout} {fl : List Nat} {s : HeapUse} {p n m : Nat}

/-! ## Copies -/

variable {d k : Nat} {mem : Mem}

theorem copyWords_copies {a : Nat} (hk : k < 8 * n)
    (hap : d + 8 * n ≤ a ∨ a + 8 * n ≤ d) : copyWords mem d a n (d + k) = mem (a + k) := by
  induction n generalizing mem d a k with
  | zero => omega
  | succ n ih =>
    rw [copyWords]
    rcases Nat.lt_or_ge k 8 with hlt | hge
    · rw [copyWords_same _ _ _ _ _ (.inl (by omega))]
      exact storeNum_loadNum mem mem hlt
    · obtain ⟨j, rfl⟩ := Nat.exists_eq_add_of_le hge
      rw [← Nat.add_assoc, ih (by omega) (by omega), ← Nat.add_assoc]
      exact storeNum_of_outside (by omega)

theorem copyBytes_copies {a : Nat} (hk : k < n)
    (hap : d + n ≤ a ∨ a + n ≤ d) : copyBytes mem d a n (d + k) = mem (a + k) := by
  induction n generalizing mem d a k with
  | zero => omega
  | succ n ih =>
    rw [copyBytes]
    cases k with
    | zero =>
      rw [copyBytes_same _ _ _ _ _ (.inl (by omega))]
      simp [store]
    | succ k =>
      rw [show d + (k + 1) = d + 1 + k by omega, show a + (k + 1) = a + 1 + k by omega,
        ih (by omega) (by omega)]
      exact store_of_outside (by rw [List.length_singleton]; omega)

theorem owMemcpy_copies {a : Nat} (hk : k < n) (hap : d + n ≤ a ∨ a + n ≤ d) :
    owMemcpy mem d a n (d + k) = mem (a + k) := by
  have hn : n / 8 * 8 + n % 8 = n := by omega
  unfold owMemcpy
  rcases Nat.lt_or_ge k (n / 8 * 8) with hlt | hge
  · rw [copyBytes_same _ _ _ _ _ (.inl (by omega))]
    exact copyWords_copies (by omega) (by omega)
  · obtain ⟨j, rfl⟩ := Nat.exists_eq_add_of_le hge
    rw [← Nat.add_assoc, copyBytes_copies (by omega) (by omega), ← Nat.add_assoc]
    exact copyWords_same _ _ _ _ _ (by omega)

/-! ## What the caller gets -/

/-- The allocation of `n` bytes at `p` was resized to `m` bytes at `q`, or it could not be and is as
it was.  The others are there, and all bytes that were kept are as they were. -/
def Resized (s : HeapUse) (p n m q : Nat) (h' : Heap) : Prop :=
  if q = 0 then
    h'.corrupt = s.heap.corrupt ∧ (∃ v fl, HeapUse.Sound ⟨h', s.live⟩ v fl) ∧
      ∀ r ∈ s.live, SameOn (Span r.1 (r.1 + r.2)) s.heap.mem h'.mem
  else
    (∃ v fl, HeapUse.Sound ⟨h', (q, m) :: giveUp p s.live⟩ v fl) ∧
      (∀ k < min n m, h'.mem (q + k) = s.heap.mem (p + k)) ∧
      ∀ r ∈ giveUp p s.live, SameOn (Span r.1 (r.1 + r.2)) s.heap.mem h'.mem

/-- `ow_realloc` returns and does that, and the bytes that `ow_malloc_usable_size` promises are
those that were asked for or more. -/
def ReallocRight (k64 : Kernel) (s : HeapUse) (p n m : Nat) : Prop :=
  (∃ q h', owRealloc k64 s.heap p m = some (q, h') ∧ Resized s p n m q h') ∧
    n ≤ owMallocUsableSize s.heap p

/-- The size wraps around, and there is a segment for it. -/
def WrapsHere (k64 : Kernel) (h : Heap) (m : Nat) : Prop :=
  h.corrupt = false ∧ wraps m ∧ ¬ NoSegment k64 h (largeBytes m)

theorem segNew_max (k64 : Kernel) (h : Heap) (bytes : Nat) :
    segNew k64 h bytes = segNew k64 h (max bytes segmentMin) := by
  have hmax : (if bytes < segmentMin then segmentMin else bytes) = max bytes segmentMin := by
    split <;> omega
  have hmin : (if max bytes segmentMin < segmentMin then segmentMin else max bytes segmentMin) =
      max bytes segmentMin := if_neg (by omega)
  unfold segNew
  rw [hmax, hmin]

theorem Coherent.mallocLarge_refused (hk : Lends k64) (c : Coherent h v fl)
    (hnone : NoSegment k64 h (largeBytes m)) : Refused h v (Crt64.mallocLarge k64 h m).2 := by
  have hfst := (segNew_fst k64 h (largeBytes m)).mpr hnone
  unfold Crt64.mallocLarge
  rw [segNew_max] at hfst ⊢
  rcases segNew_spec hk c (Nat.le_max_right (largeBytes m) segmentMin) with
    ⟨h', heq, href⟩ | ⟨i, h', sg, heq, -⟩
  · rw [heq]
    exact href
  · rw [heq] at hfst
    cases hfst

theorem Coherent.malloc_cases (hk : Lends k64) (c : Coherent h v fl) (hw : ¬ WrapsHere k64 h m) :
    ∃ q h', owMalloc k64 h m = some (q, h') ∧ ((q = 0 ∧ Refused h v h') ∨
      (q ≠ 0 ∧ ¬ (h.corrupt = false ∧ wraps m) ∧
        ∃ v', Gained h v q h' v' ∧ Owns h'.segs v' q m)) := by
  by_cases hwrap : h.corrupt = false ∧ wraps m
  · have hnone : NoSegment k64 h (largeBytes m) := by
      by_contra hseg
      exact hw ⟨hwrap.1, hwrap.2, hseg⟩
    have hlarge : m ≥ largeThreshold := by
      have := hwrap.2.1
      unfold largeThreshold
      omega
    have hmax : ¬ m > sizeMax - 32 := by
      have := hwrap.2.2
      unfold sizeMax
      omega
    refine ⟨0, (Crt64.mallocLarge k64 h m).2, ?_, .inl ⟨rfl, c.mallocLarge_refused hk hnone⟩⟩
    rw [owMalloc, if_neg (by simp [hwrap.1]), if_neg hmax, if_pos hlarge,
      ← (mallocLarge_fst k64 h m).mpr hnone]
  · obtain ⟨q, h', v', heq, hm, -⟩ := c.malloced hk fun hc hwm => hwrap ⟨hc, hwm⟩
    refine ⟨q, h', heq, ?_⟩
    by_cases hq : q = 0
    · subst hq
      exact .inl ⟨rfl, hm.null.2⟩
    · exact .inr ⟨hq, hwrap, v', hm.gained hq⟩

/-! ## Headers -/

section Headers

variable {a : Nat} {b : Blk}

theorem Coherent.header_small (c : Coherent h v fl) (hb : IsBlock h.segs v a b)
    (hused : b.used = true) :
    ¬ (loadU32 h.mem (a + 16 - blkHdr + 8) ≠ magicBlk ∨
      loadU32 h.mem (a + 16 - blkHdr + 4) &&& 0xFFFFFFFE ≠ 0) ∧
    blkUser h.mem (a + 16 - blkHdr) = b.size - 28 := by
  have hat := c.shape.blockAt hb id
  have hsz := c.shape.isBlock_fit hb
  rw [show a + 16 - blkHdr = a from rfl, hat.magic, hat.flags, Blk.flags, hused]
  exact ⟨by decide, blkUser_eq hat.size (by omega) hsz.2.2.2⟩

theorem Coherent.owRealloc_small (c : Coherent h v fl) (hb : IsBlock h.segs v a b)
    (hused : b.used = true) (hm : m ≠ 0) :
    owRealloc k64 h (a + 16) m =
      if m ≤ b.size - 28 then some (a + 16, h)
      else
        match owMalloc k64 h m with
        | none => none
        | some (q, h') =>
          if q = 0 then some (0, h')
          else some (q, owFree
            { h' with mem := owMemcpy h'.mem q (a + 16) (b.size - 28) } (a + 16)) := by
  obtain ⟨hflags, huser⟩ := c.header_small hb hused
  rw [owRealloc, if_neg (by omega), if_neg hm]
  simp only [huser]
  exact if_neg hflags

theorem HeapUse.Sound.freed_small (hs : s.Sound v fl) (hb : IsBlock s.heap.segs v a b)
    (hused : b.used = true) (hm : m ≠ 0) {q : Nat} {h' : Heap} (hgrow : ¬ m ≤ b.size - 28)
    (hcall : owMalloc k64 s.heap m = some (q, h')) (hq : q ≠ 0) :
    s.freed k64 (.realloc (a + 16) m) =
      some ({ h' with mem := owMemcpy h'.mem q (a + 16) (b.size - 28) }, a + 16) := by
  obtain ⟨hflags, huser⟩ := hs.coherent.header_small hb hused
  rw [HeapUse.freed, if_neg (by omega), if_neg hm]
  simp only [huser]
  rw [if_neg hflags, if_neg hgrow, hcall]
  exact if_neg hq

theorem Coherent.usable_small (c : Coherent h v fl) (hb : IsBlock h.segs v a b) :
    owMallocUsableSize h (a + 16) = b.size - 28 := by
  have hat := c.shape.blockAt hb id
  have hsz := c.shape.isBlock_fit hb
  rw [owMallocUsableSize, if_neg (by omega), show a + 16 - blkHdr = a from rfl,
    if_neg (by simp [hat.magic])]
  exact blkUser_eq hat.size (by omega) hsz.2.2.2

theorem Coherent.usable_large (c : Coherent h v fl) (hl : IsLarge h.segs v a n) :
    owMallocUsableSize h (a + 16) < n := by
  obtain ⟨i, hi, hv, rfl⟩ := hl
  have hl := c.shape.large hi hv
  have hbig := hl.big
  rw [owMallocUsableSize, if_neg (by omega),
    show (h.segs i).base + 16 - blkHdr = (h.segs i).base from rfl, if_neg (by simp [hl.magic]),
    blkUser, hl.size]
  unfold largeThreshold at hbig
  unfold blkHdr blkCnary blkFtar
  omega

theorem Coherent.moved (c : Coherent h v fl) (hb : IsBlock h.segs v a b) (hused : b.used = true)
    {q : Nat} {h' : Heap} {v' : Layout} (hg : Gained h v q h' v') (hq : Owns h'.segs v' q m)
    (hgrow : b.size - 28 < m)
    (hfoul : ¬ Fouled { h' with mem := owMemcpy h'.mem q (a + 16) (b.size - 28) } a) :
    (∀ k < b.size - 28, (owFree { h' with mem := owMemcpy h'.mem q (a + 16) (b.size - 28) }
      (a + 16)).mem (q + k) = h.mem (a + 16 + k)) ∧
    ∀ {r k}, Owns h.segs v r k → r ≠ a + 16 → SameOn (Span r (r + k)) h.mem
      (owFree { h' with mem := owMemcpy h'.mem q (a + 16) (b.size - 28) } (a + 16)).mem := by
  have hsz := c.shape.isBlock_fit hb
  have hold : Owns h.segs v (a + 16) (b.size - 28) := .inl ⟨a, b, rfl, hb, hused, by omega⟩
  obtain ⟨fl', hc⟩ := hg.coherent
  obtain ⟨hold', hne⟩ := hg.owns hold
  have hap := hq.apart hold' hc.shape (Ne.symm hne)
  have hwrite : SameOn (fun x => x < q ∨ q + m ≤ x) h'.mem
      (owMemcpy h'.mem q (a + 16) (b.size - 28)) :=
    (owMemcpy_same h'.mem q (a + 16) (b.size - 28)).mono fun x hx => by omega
  obtain ⟨v'', hrel⟩ := (hc.write hq hwrite).release hold' hfoul
  constructor
  · intro k hk
    rw [hrel.same hq (Ne.symm hne) (q + k) ⟨by omega, by omega⟩]
    dsimp only
    rw [owMemcpy_copies hk (by omega)]
    exact hg.same _ (hold.busy (by omega) (by omega))
  · intro r k hr hrne
    obtain ⟨hr', hrq⟩ := hg.owns hr
    have hapart := hr'.apart hq hc.shape hrq
    refine ((hg.same.mono fun y hy => hr.busy hy.1 hy.2).trans (hwrite.mono fun y hy => ?_)).trans
      ((hrel.same hr' hrne).mono fun y hy => hy)
    obtain ⟨hlo, hhi⟩ := hy
    omega

end Headers

/-! ## The call -/

theorem HeapUse.Sound.reallocated (hk : Lends k64) (hs : s.Sound v fl) (hmem : (p, n) ∈ s.live)
    (hm : m ≠ 0) (hw : ¬ s.Wraps (.realloc p m)) (hfoul : ¬ s.Fouls k64 (.realloc p m)) {q : Nat}
    {h' : Heap} (hcall : owRealloc k64 s.heap p m = some (q, h')) :
    ∃ v' fl', HeapUse.Sound ⟨h', if q = 0 then s.live else (q, m) :: giveUp p s.live⟩ v' fl' := by
  have hop : s.Allowed (.realloc p m) := .inr ⟨n, hmem⟩
  obtain ⟨s', v', hnext, hmoves⟩ :=
    hs.next (A := fun _ _ => True) hk hop hw hfoul (fun _ _ => trivial) []
  obtain ⟨fl', hs'⟩ := hmoves.sound ⟨fl, hs⟩
  rw [HeapUse.next, hcall, Option.map_some, Option.some_inj] at hnext
  refine ⟨v', fl', ?_⟩
  rw [← hnext] at hs'
  unfold hold at hs'
  by_cases hq : q = 0
  · simpa [hq, hm] using hs'
  · simpa [hq] using hs'

theorem HeapUse.Sound.resized (hk : Lends k64) (hs : s.Sound v fl) (hmem : (p, n) ∈ s.live)
    (hm : m ≠ 0) {a : Nat} {b : Blk} (hp : p = a + 16) (hb : IsBlock s.heap.segs v a b)
    (hused : b.used = true) (hle : n + 28 ≤ b.size) (hfoul : ¬ s.Fouls k64 (.realloc p m))
    (hw : ¬ WrapsHere k64 s.heap m) :
    ∃ q h', owRealloc k64 s.heap p m = some (q, h') ∧ Resized s p n m q h' := by
  subst hp
  have hsz := hs.coherent.shape.isBlock_fit hb
  have hcall := @Coherent.owRealloc_small k64 _ _ _ m _ _ hs.coherent hb hused hm
  by_cases hfits : m ≤ b.size - 28
  · -- the block is large enough
    rw [if_pos hfits] at hcall
    have hnowrap : ¬ s.Wraps (.realloc (a + 16) m) := by
      rintro ⟨-, hwraps, -⟩
      unfold wraps at hwraps
      omega
    refine ⟨_, _, hcall, ?_⟩
    have hs' := hs.reallocated hk hmem hm hnowrap hfoul hcall
    rw [Resized, if_neg (by omega)]
    rw [if_neg (by omega)] at hs'
    exact ⟨hs', fun _ _ => rfl, fun _ _ => SameOn.refl _ _⟩
  rw [if_neg hfits] at hcall
  obtain ⟨q, h1, heq, ⟨rfl, href⟩ | ⟨hq, hnowrap, v1, hg, hown⟩⟩ := hs.coherent.malloc_cases hk hw
  · -- there is no block for it
    simp only [heq, if_true] at hcall
    have hmove : HeapMove k64 (fun _ _ => True) ⟨s, v, []⟩ ⟨⟨h1, s.live⟩, v, []⟩ := .refused href
    obtain ⟨fl', hs'⟩ := hmove.sound ⟨fl, hs⟩
    refine ⟨_, _, hcall, ?_⟩
    rw [Resized, if_pos rfl]
    exact ⟨href.corrupt, ⟨v, fl', hs'⟩, fun r hr => href.same.mono fun y hy =>
      hs.coherent.shape.busy_held ((hs.owned hr).busy hy.1 hy.2)⟩
  · simp only [heq, if_neg hq] at hcall
    have hclean : ¬ Fouled { h1 with mem := owMemcpy h1.mem q (a + 16) (b.size - 28) } a :=
      fun hf => hfoul ⟨_, hs.freed_small hb hused hm hfits heq hq, hf⟩
    obtain ⟨hcopied, hkept⟩ := hs.coherent.moved hb hused hg hown (by omega) hclean
    have hs' := hs.reallocated hk hmem hm (fun hw' => hnowrap ⟨hw'.1, hw'.2.1⟩) hfoul hcall
    refine ⟨_, _, hcall, ?_⟩
    rw [if_neg hq] at hs'
    rw [Resized, if_neg hq]
    refine ⟨hs', fun k hk => hcopied k (by omega), fun r hr => ?_⟩
    obtain ⟨hr, hne⟩ := mem_giveUp.mp hr
    exact hkept (hs.owned hr) hne

theorem HeapUse.Sound.not_wraps_live (hs : s.Sound v fl) (hmem : (p, n) ∈ s.live) : ¬ wraps n := by
  intro hwraps
  obtain ⟨hlow, -⟩ := hwraps
  rcases hs.owned hmem with ⟨a, b, -, hb, -, hle⟩ | ⟨a, -, i, hi, hv, -⟩
  · have hsz := hs.coherent.shape.isBlock_fit hb
    dsimp only at hle
    omega
  · have hroom := (hs.coherent.shape.large hi hv).room
    have hfit := hs.coherent.shape.fit hi (hs.coherent.shape.active_of_large hi hv)
    dsimp only at hroom
    omega

theorem WrapsHere.malloc (hgot : WrapsHere k64 h m) :
    ∃ q h', owMalloc k64 h m = some (q, h') ∧ q ≠ 0 := by
  obtain ⟨hcorrupt, ⟨hlow, hhigh⟩, hseg⟩ := hgot
  have hmax : ¬ m > sizeMax - 32 := by
    unfold sizeMax
    omega
  have hlarge : m ≥ largeThreshold := by
    unfold largeThreshold
    omega
  have hcall : owMalloc k64 h m = some (mallocLarge k64 h m) := by
    rw [owMalloc, if_neg (by simp [hcorrupt]), if_neg hmax, if_pos hlarge]
  exact ⟨_, _, hcall, fun hnull => hseg ((mallocLarge_fst k64 h m).mp hnull)⟩

theorem HeapUse.Sound.reallocRight_iff (hk : Lends k64) (hs : s.Sound v fl) (hmem : (p, n) ∈ s.live)
    (hm : m ≠ 0) (hfoul : ¬ s.Fouls k64 (.realloc p m)) :
    ReallocRight k64 s p n m ↔
      loadU32 s.heap.mem (p - blkHdr + 4) &&& flagLarge = 0 ∧ ¬ WrapsHere k64 s.heap m := by
  rcases hs.owned hmem with ⟨a, b, hp, hb, hused, hle⟩ | ⟨a, hp, hl⟩
  · dsimp only at hp hle
    subst hp
    have hat := hs.coherent.shape.blockAt hb id
    have hsmall : loadU32 s.heap.mem (a + 16 - blkHdr + 4) &&& flagLarge = 0 := by
      rw [show a + 16 - blkHdr = a from rfl, hat.flags, Blk.flags, hused]
      decide
    constructor
    · rintro ⟨⟨q, h', hcall, hres⟩, -⟩
      refine ⟨hsmall, fun hgot => ?_⟩
      -- what comes back does not have room for the size
      have hlow := hgot.2.1.1
      have hsz := hs.coherent.shape.isBlock_fit hb
      obtain ⟨q', h1, heq, hq⟩ := hgot.malloc
      rw [hs.coherent.owRealloc_small hb hused hm, if_neg (by omega), heq] at hcall
      dsimp only at hcall
      rw [if_neg hq, Option.some_inj, Prod.mk.injEq] at hcall
      obtain ⟨rfl, -⟩ := hcall
      rw [Resized, if_neg hq] at hres
      obtain ⟨⟨v', fl', hs'⟩, -⟩ := hres
      exact hs'.not_wraps_live List.mem_cons_self hgot.2.1
    · rintro ⟨-, hw⟩
      refine ⟨hs.resized hk hmem hm rfl hb hused hle hfoul hw, ?_⟩
      rw [hs.coherent.usable_small hb]
      omega
  · dsimp only at hp hl
    subst hp
    refine iff_of_false (fun hright => ?_) (fun hcond => ?_)
    · have := hs.coherent.usable_large hl
      have := hright.2
      omega
    · obtain ⟨i, hi, hv, rfl⟩ := hl
      have hflags := (hs.coherent.shape.large hi hv).flags
      have := hcond.1
      rw [show (s.heap.segs i).base + 16 - blkHdr = (s.heap.segs i).base from rfl, hflags] at this
      exact absurd this (by decide)

/-- After a clean run, `ow_realloc` does to an allocation what it promises, unless it frees a block
that is fouled, exactly when the allocation is a small one and the size does not wrap around. -/
theorem owRealloc_right_iff (hk : Lends k64) {ops : List HeapOp}
    (hrun : Calls (fun o op => ∀ s ∈ o, s.Clean k64 op) (HeapUse.call k64) (some .init) ops
      (some s)) (hmem : (p, n) ∈ s.live) (hm : m ≠ 0) (hfoul : ¬ s.Fouls k64 (.realloc p m)) :
    ReallocRight k64 s p n m ↔
      loadU32 s.heap.mem (p - blkHdr + 4) &&& flagLarge = 0 ∧ ¬ WrapsHere k64 s.heap m := by
  obtain ⟨t, v, fl, heq, hs⟩ := sound_of_clean hk hrun
  cases heq
  exact hs.reallocRight_iff hk hmem hm hfoul

theorem owRealloc_right_iff_grow :
    ∃ s, HeapUse.run fallingKernel [.malloc 100] = some s ∧
      (ReallocRight fallingKernel s 0x400030 100 200 ↔
        loadU32 s.heap.mem 0x400024 &&& flagLarge = 0 ∧ ¬ WrapsHere fallingKernel s.heap 200) := by
  have hlive : (HeapUse.run fallingKernel [.malloc 100]).map HeapUse.live =
      some [(0x400030, 100)] := by decide +kernel
  have hfoul : (HeapUse.run fallingKernel [.malloc 100]).map (fun s =>
      (s.freed fallingKernel (.realloc 0x400030 200)).map fun r =>
        decide (FreeFoot r.1.mem (r.2 - blkHdr - blkFtar))) = some (some false) := by decide +kernel
  obtain ⟨s, hs, hheld⟩ := Option.map_eq_some_iff.mp hlive
  rw [hs, Option.map_some, Option.some_inj] at hfoul
  have hsizes : ∀ n ∈ [100], ¬ wraps n := by decide
  have hrun := calls_mallocs [100] (fun n hn => clean_malloc fallingKernel (hsizes n hn)) hs
  refine ⟨s, hs, owRealloc_right_iff fallingKernel_honest.lends hrun ?_ (by decide) ?_⟩
  · rw [hheld]
    exact List.mem_singleton_self _
  · rintro ⟨r, hr, hfoot, -⟩
    rw [hr, Option.map_some, Option.some_inj, decide_eq_false_iff_not] at hfoul
    exact hfoul hfoot

/-- Growing a large allocation marks the heap corrupt. -/
theorem owRealloc_large_corrupts :
    Lends fallingKernel ∧ ∃ s, Calls (fun o op => ∀ s ∈ o, HeapUse.Allowed s op)
      (HeapUse.call fallingKernel) (some .init) [.malloc 0x20000] (some s) ∧
        (0x400010, 0x20000) ∈ s.live ∧ s.heap.corrupt = false ∧
          (owRealloc fallingKernel s.heap 0x400010 0x30000).map (fun r => (r.1, r.2.corrupt)) =
            some (0, true) ∧ ¬ ReallocRight fallingKernel s 0x400010 0x20000 0x30000 := by
  refine ⟨fallingKernel_honest.lends, ?_⟩
  have hlive : (HeapUse.run fallingKernel [.malloc 0x20000]).map (fun s =>
      (s.live, s.heap.corrupt, owMallocUsableSize s.heap 0x400010,
        (owRealloc fallingKernel s.heap 0x400010 0x30000).map (fun r => (r.1, r.2.corrupt)))) =
      some ([(0x400010, 0x20000)], false, 0x20000 - 28, some (0, true)) := by decide +kernel
  obtain ⟨s, hs, hstate⟩ := Option.map_eq_some_iff.mp hlive
  simp only [Prod.mk.injEq] at hstate
  obtain ⟨hheld, hcorrupt, husable, hcall⟩ := hstate
  refine ⟨s, ?_, ?_, hcorrupt, hcall, fun hright => ?_⟩
  · rw [← hs]
    exact Calls.nil.snoc fun _ _ => trivial
  · rw [hheld]
    exact List.mem_singleton_self _
  · have hle := hright.2
    rw [husable] at hle
    exact absurd hle (by decide)

end Crt64
