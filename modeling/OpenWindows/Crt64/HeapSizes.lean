import OpenWindows.Crt64.HeapArena

/-!
# The sizes of blocks

The block that `ow_malloc` returns lies in its segment and the sums of its sizes do
not wrap around, but for requests from `2 ^ 32` on.  The header of a large block
keeps the lower half of the size only, and close to `SIZE_MAX` the rounding to pages
comes to nothing.
-/

namespace Crt64

open Memory StepSystem

section

variable {k64 : Kernel} {h : Heap} {v : Layout} {fl : List Nat} {n : Nat}

/-- The sizes `ow_malloc` computes for a block of `n` bytes at `p` are those without overflow: the
sum for a large allocation and the number in its header, or the number in the header of a small
one. -/
def SizesExact (h : Heap) (p n : Nat) : Prop :=
  if n < largeThreshold then blkHdr + n + blkCnary + blkFtar ≤ loadU32 h.mem (p - blkHdr)
  else n + blkHdr + blkCnary + 0xFFF < 2 ^ 64 ∧ loadU32 h.mem (p - blkHdr) = n

/-- What `ow_malloc` returns for `n` bytes is null, or its header, its bytes and its canary lie in
a segment, and no size wrapped around. -/
def MallocFits (k64 : Kernel) (h : Heap) (n : Nat) : Prop :=
  ∀ {p h'}, owMalloc k64 h n = some (p, h') → p ≠ 0 →
    (∃ i, i < segMax ∧ (h'.segs i).active = true ∧ (h'.segs i).base ≤ p - blkHdr ∧
      p + n + blkCnary ≤ (h'.segs i).base + (h'.segs i).size) ∧ SizesExact h' p n

/-- The kernel hands out no segment of `bytes` bytes, or there is no entry for it. -/
def NoSegment (k64 : Kernel) (h : Heap) (bytes : Nat) : Prop :=
  (∀ g, k64 h (max bytes segmentMin) = some g → g.base = 0) ∨
    ∀ i < segMax, (h.segs i).active = true

theorem segNew_fst (k64 : Kernel) (h : Heap) (bytes : Nat) :
    (segNew k64 h bytes).1 = none ↔ NoSegment k64 h bytes := by
  have hmax : (if bytes < segmentMin then segmentMin else bytes) = max bytes segmentMin := by
    split <;> omega
  unfold segNew NoSegment
  dsimp only
  rw [hmax]
  cases hg : k64 h (max bytes segmentMin) with
  | none => simp
  | some g =>
    dsimp only
    split
    next hbase => simp [hbase]
    next hbase =>
      cases hfind : (List.range segMax).find? fun i => !(h.segs i).active with
      | none =>
        have hall := List.find?_eq_none.mp hfind
        refine iff_of_true rfl (.inr fun i hi => ?_)
        simpa using hall i (List.mem_range.mpr hi)
      | some i =>
        have hinact := List.find?_some hfind
        have hmem := List.mem_range.mp (List.mem_of_find?_eq_some hfind)
        refine iff_of_false nofun ?_
        rintro (hnone | hall)
        · exact hbase (hnone g rfl)
        · simp [hall i hmem] at hinact

theorem mallocLarge_fst (k64 : Kernel) (h : Heap) (n : Nat) :
    (mallocLarge k64 h n).1 = 0 ↔ NoSegment k64 h (largeBytes n) := by
  rw [← segNew_fst]
  unfold mallocLarge
  split
  next heq => simp [heq]
  next i h' heq =>
    rw [heq]
    simp [blkHdr]

theorem Malloced.fits {p : Nat} {h' : Heap} {v' : Layout} (hm : Malloced h v n p h' v') (hp : p ≠ 0)
    (hn : n < 2 ^ 32) :
    (∃ i, i < segMax ∧ (h'.segs i).active = true ∧ (h'.segs i).base ≤ p - blkHdr ∧
      p + n + blkCnary ≤ (h'.segs i).base + (h'.segs i).size) ∧ SizesExact h' p n := by
  have hhdr : blkHdr = 16 := rfl
  have hcnary : blkCnary = 4 := rfl
  have hftar : blkFtar = 8 := rfl
  cases hm with
  | refused => exact absurd rfl hp
  | small hsmall htook =>
    obtain ⟨fl', hc⟩ := htook.coherent
    obtain ⟨a, rfl, hb⟩ := htook.block
    have hle := le_userBytes n
    have hfits := htook.fits
    have hcarved : n + 28 ≤ carvedSize (fitSize h (userBytes n)) (userBytes n) := by
      unfold carvedSize
      split <;> omega
    have hsize := (hc.shape.blockAt hb id).size
    obtain ⟨j, hj, bs, hv, hmem⟩ := hb
    have hplace := hc.shape.place_fit hj hv hmem
    dsimp only at hplace
    refine ⟨⟨j, hj, hc.shape.active_of_arena hj hv, by omega, by omega⟩, ?_⟩
    rw [SizesExact, if_pos hsmall, show a + 16 - blkHdr = a from rfl, hsize]
    dsimp only
    omega
  | large hlarge htook =>
    obtain ⟨fl', hc⟩ := htook.coherent
    obtain ⟨k, rfl, j, hj, hv, hbase⟩ := htook.large
    have hl := hc.shape.large hj hv
    have hroom := hl.room
    refine ⟨⟨j, hj, hc.shape.active_of_large hj hv, by omega, by omega⟩, ?_⟩
    rw [SizesExact, if_neg (Nat.not_lt.mpr hlarge),
      show 0x1000 * k + 16 - blkHdr = 0x1000 * k from rfl, hbase, hl.size]
    omega

theorem Coherent.mallocFits_iff (hk : Lends k64) (c : Coherent h v fl) :
    MallocFits k64 h n ↔ h.corrupt = true ∨ n > sizeMax - 32 ∨ n < 2 ^ 32 ∨
      NoSegment k64 h (largeBytes n) := by
  constructor
  · intro hfits
    by_contra hcon
    simp only [not_or] at hcon
    obtain ⟨hcorrupt, hmax, hbig, hseg⟩ := hcon
    have hlarge : largeThreshold ≤ n := by
      unfold largeThreshold
      omega
    have hcall : owMalloc k64 h n = some (Crt64.mallocLarge k64 h n) := by
      rw [owMalloc, if_neg (by simpa using hcorrupt), if_neg hmax, if_pos hlarge]
    have hp := fun hnull => hseg ((mallocLarge_fst k64 h n).mp hnull)
    -- the header has room for four bytes of the size
    generalize Crt64.mallocLarge k64 h n = r at hcall hp
    have hexact := (hfits hcall hp).2
    rw [SizesExact, if_neg (Nat.not_lt.mpr hlarge)] at hexact
    have hlt := loadU32_lt r.2.mem (r.1 - blkHdr)
    rw [hexact.2] at hlt
    exact hbig hlt
  · intro hcond p h' hcall hp
    by_cases hn : n < 2 ^ 32
    · have hnowrap : h.corrupt = false → ¬ wraps n := by
        unfold wraps
        omega
      obtain ⟨q, h1, v', heq, hm, -⟩ := c.malloced hk hnowrap
      rw [heq, Option.some_inj, Prod.mk.injEq] at hcall
      obtain ⟨rfl, rfl⟩ := hcall
      exact hm.fits hp hn
    · -- nothing else comes back
      unfold owMalloc at hcall
      split at hcall
      · cases hcall; exact absurd rfl hp
      next hcorrupt =>
        split at hcall
        · cases hcall; exact absurd rfl hp
        next hmax =>
          have hlarge : n ≥ largeThreshold := by
            unfold largeThreshold
            omega
          rw [if_pos hlarge] at hcall
          have hnull : (Crt64.mallocLarge k64 h n).1 = 0 :=
            (mallocLarge_fst k64 h n).mpr
              (((hcond.resolve_left hcorrupt).resolve_left hmax).resolve_left hn)
          rw [Option.some.inj hcall] at hnull
          exact absurd hnull hp

/-- After a clean run, what `ow_malloc` returns for `n` bytes fits exactly when the heap is marked
corrupt, the size is refused, it is less than `2 ^ 32`, or there is no segment for it. -/
theorem owMalloc_fits_iff (hk : Lends k64) {ops : List HeapOp} {s : HeapUse}
    (hrun : Calls (fun o op => ∀ s ∈ o, s.Clean k64 op) (HeapUse.call k64) (some .init) ops
      (some s)) (n : Nat) :
    MallocFits k64 s.heap n ↔ s.heap.corrupt = true ∨ n > sizeMax - 32 ∨ n < 2 ^ 32 ∨
      NoSegment k64 s.heap (largeBytes n) := by
  obtain ⟨t, v, fl, heq, hs⟩ := sound_of_clean hk hrun
  cases heq
  exact hs.coherent.mallocFits_iff hk

theorem owMalloc_fits_iff_third :
    ∃ s, HeapUse.run fallingKernel [.malloc 100, .malloc 50] = some s ∧
      (MallocFits fallingKernel s.heap (2 ^ 33) ↔ s.heap.corrupt = true ∨ 2 ^ 33 > sizeMax - 32 ∨
        2 ^ 33 < 2 ^ 32 ∨ NoSegment fallingKernel s.heap (largeBytes (2 ^ 33))) := by
  obtain ⟨s, hs⟩ : ∃ s, HeapUse.run fallingKernel [.malloc 100, .malloc 50] = some s :=
    Option.isSome_iff_exists.mp (by decide)
  have hsizes : ∀ n ∈ [100, 50], ¬ wraps n := by decide
  exact ⟨s, hs, owMalloc_fits_iff fallingKernel_honest.lends
    (calls_mallocs [100, 50] (fun n hn => clean_malloc _ (hsizes n hn)) hs) (2 ^ 33)⟩

/-- Rounding up a size close to `SIZE_MAX` gives a segment of one page. -/
theorem owMalloc_overflows :
    Lends fallingKernel ∧ ¬ MallocFits fallingKernel Heap.init (2 ^ 64 - 48) := by
  refine ⟨fallingKernel_honest.lends, fun hfits => ?_⟩
  have hcall : (owMalloc fallingKernel Heap.init (2 ^ 64 - 48)).map Prod.fst = some 0x400010 := by
    decide
  obtain ⟨⟨p, h'⟩, heq, rfl⟩ := Option.map_eq_some_iff.mp hcall
  have hexact := (hfits heq (by decide)).2
  rw [SizesExact, if_neg (by decide)] at hexact
  exact absurd hexact.1 (by decide)

end

/-! ## Alignment

The first block of an arena stands at a multiple of 16, and one that is split off
behind a block as many bytes further as that one has.  Nothing rounds these up, so
that what the caller gets is aligned as long as every block that is split has a
multiple of 16 bytes.
-/

section

variable {k64 : Kernel} {h : Heap} {v : Layout} {fl : List Nat} {s : HeapUse} {op : HeapOp}
  {p n : Nat}

/-- A request that splits a block splits it at a multiple of 16. -/
def SplitsAligned (h : Heap) (n : Nat) : Prop :=
  h.corrupt = false → n < largeThreshold → userBytes n + 72 ≤ fitSize h (userBytes n) →
    16 ∣ userBytes n + 28

/-- All blocks, and all that the caller holds, stand at multiples of 16. -/
structure HeapStage.Aligned (a : HeapStage) : Prop where
  blocks : ∀ {x b}, IsBlock a.use.heap.segs a.layout x b → 16 ∣ x
  live : ∀ {q}, q ∈ a.use.live → 16 ∣ q.1

theorem Malloced.aligned {h' : Heap} {v' : Layout} (hm : Malloced h v n p h' v') (hp : p ≠ 0)
    (hcall : owMalloc k64 h n = some (p, h')) (hA : SplitsAligned h n)
    (hblocks : ∀ {x b}, IsBlock h.segs v x b → 16 ∣ x) :
    16 ∣ p ∧ ∀ {x b}, IsBlock h'.segs v' x b → 16 ∣ x := by
  have hcorrupt : h.corrupt = false := by
    cases hc : h.corrupt with
    | false => rfl
    | true =>
      rw [owMalloc, if_pos hc] at hcall
      cases hcall
      exact absurd rfl hp
  cases hm with
  | refused => exact absurd rfl hp
  | small hsmall htook =>
    obtain ⟨a, rfl, hb⟩ := htook.block
    have ha : 16 ∣ a := by
      rcases htook.places hb with ⟨d, hd⟩ | ⟨k, rfl⟩ | ⟨heq, -⟩
      · exact hblocks hd
      · omega
      · omega
    refine ⟨by omega, fun hx => ?_⟩
    rcases htook.places hx with ⟨d, hd⟩ | ⟨k, rfl⟩ | ⟨rfl, hsplit⟩
    · exact hblocks hd
    · omega
    · have := hA hcorrupt hsmall hsplit
      omega
  | large _ htook =>
    obtain ⟨k, rfl, -⟩ := htook.large
    refine ⟨by omega, fun hx => ?_⟩
    obtain ⟨d, hd⟩ := htook.places hx
    exact hblocks hd

theorem HeapMove.aligned {a b : HeapStage} (hm : HeapMove k64 SplitsAligned a b)
    (ha : a.Aligned) : b.Aligned := by
  obtain ⟨hblocks, hlive⟩ := ha
  cases hm with
  | refused href =>
    refine ⟨fun hx => ?_, hlive⟩
    rw [href.segs] at hx
    exact hblocks hx
  | fault => exact ⟨hblocks, hlive⟩
  | gained hA hcall hp hmal _ =>
    obtain ⟨hnew, hblocks'⟩ := hmal.aligned hp hcall hA hblocks
    refine ⟨hblocks', fun hq => ?_⟩
    rcases List.mem_cons.mp hq with rfl | hq
    · exact hnew
    · exact hlive hq
  | resized hmem _ =>
    have hp := hlive hmem
    refine ⟨hblocks, fun hq => ?_⟩
    rcases List.mem_cons.mp hq with rfl | hq
    · exact hp
    · exact hlive (mem_giveUp.mp hq).1
  | wrote _ _ => exact ⟨hblocks, hlive⟩
  | released _ _ hrel =>
    refine ⟨fun hx => ?_, fun hq => hlive (mem_giveUp.mp hq).1⟩
    obtain ⟨d, hd⟩ := hrel.places hx
    exact hblocks hd

theorem HeapUse.answer_mem {s' : HeapUse} (hnext : s.next k64 op = some s')
    (hp : s.answer k64 op ≠ 0) : ∃ n, (s.answer k64 op, n) ∈ s'.live := by
  have hheld : ∀ {p n : Nat} {live : List (Nat × Nat)}, p ≠ 0 → (p, n) ∈ hold p n live := by
    intro p n live hne
    rw [hold, if_neg hne]
    exact List.mem_cons_self
  cases op with
  | malloc size | calloc nmemb size =>
    obtain ⟨r, hr, rfl⟩ := Option.map_eq_some_iff.mp hnext
    simp only [HeapUse.answer, hr, Option.map_some, Option.getD_some] at hp ⊢
    exact ⟨_, hheld hp⟩
  | realloc ptr size =>
    obtain ⟨r, hr, rfl⟩ := Option.map_eq_some_iff.mp hnext
    simp only [HeapUse.answer, hr, Option.map_some, Option.getD_some] at hp ⊢
    rw [if_neg (fun hnull => hp hnull.1)]
    exact ⟨_, hheld hp⟩
  | free ptr | write addr bytes => exact absurd rfl hp

/-- In every clean run whose splits are all aligned, every pointer that is returned is a multiple of
16. -/
theorem answers_aligned (hk : Lends k64) {ops : List HeapOp}
    (hrun : Calls (fun o op => ∀ s ∈ o, s.Clean k64 op ∧
      ∀ n, s.asks op = some n → SplitsAligned s.heap n) (HeapUse.call k64) (some .init) ops
      (some s)) (hclean : s.Clean k64 op) (hA : ∀ n, s.asks op = some n → SplitsAligned s.heap n) :
    16 ∣ s.answer k64 op := by
  have hinit : HeapStage.Aligned ⟨.init, fun _ => .none, []⟩ :=
    ⟨fun ⟨_, _, _, hv, _⟩ => (by cases hv), fun hq => by cases hq⟩
  obtain ⟨t, v, ledger, heq, ⟨fl, hs⟩, hal⟩ :=
    reached_of_moves hk hinit (fun _ hm ha => hm.aligned ha) hrun
  cases heq
  obtain ⟨s', v', hnext, hmoves⟩ :=
    hs.next hk hclean.allowed hclean.fits hclean.unfouled hA ledger
  obtain ⟨-, hal'⟩ := hmoves.invariant ⟨fl, hs⟩ hal fun _ hm ha => hm.aligned ha
  by_cases hp : s.answer k64 op = 0
  · rw [hp]
    exact Nat.dvd_zero 16
  · obtain ⟨n, hn⟩ := HeapUse.answer_mem hnext hp
    exact hal'.live hn

theorem answers_aligned_third :
    ∃ s, HeapUse.run fallingKernel [.malloc 100, .malloc 36] = some s ∧
      s.answer fallingKernel (.malloc 20) = 0x4000f0 ∧
        16 ∣ s.answer fallingKernel (.malloc 20) := by
  have hanswer : (HeapUse.run fallingKernel [.malloc 100, .malloc 36]).map (fun s =>
      s.answer fallingKernel (.malloc 20)) = some 0x4000f0 := by decide
  obtain ⟨s, hs, hp⟩ := Option.map_eq_some_iff.mp hanswer
  have hsizes : ∀ n ∈ [100, 36, 20], ¬ wraps n ∧ 16 ∣ userBytes n + 28 := by decide
  have hguard : ∀ n ∈ [100, 36, 20], ∀ s : HeapUse, s.Clean fallingKernel (.malloc n) ∧
      ∀ m, s.asks (.malloc n) = some m → SplitsAligned s.heap m := by
    intro n hn s
    refine ⟨clean_malloc _ (hsizes n hn).1 s, ?_⟩
    rintro m hm - - -
    cases hm
    exact (hsizes n hn).2
  obtain ⟨hclean, hA⟩ := hguard 20 (by decide) s
  refine ⟨s, hs, hp, answers_aligned fallingKernel_honest.lends
    (calls_mallocs [100, 36] (fun n hn => hguard n ?_) hs) hclean hA⟩
  exact List.mem_append_left [20] hn

/-- The second of two blocks of 16 bytes is not aligned. -/
theorem answer_misaligned :
    Lends fallingKernel ∧ ∃ s, Calls (fun o op => ∀ s ∈ o, HeapUse.Allowed s op)
      (HeapUse.call fallingKernel) (some .init) [.malloc 16] (some s) ∧
        s.Allowed (.malloc 16) ∧ s.answer fallingKernel (.malloc 16) = 0x40005c ∧
          ¬ 16 ∣ s.answer fallingKernel (.malloc 16) := by
  refine ⟨fallingKernel_honest.lends, ?_⟩
  have hanswer : (HeapUse.run fallingKernel [.malloc 16]).map (fun s =>
      s.answer fallingKernel (.malloc 16)) = some 0x40005c := by decide
  obtain ⟨s, hs, hp⟩ := Option.map_eq_some_iff.mp hanswer
  refine ⟨s, ?_, trivial, hp, ?_⟩
  · rw [← hs]
    exact Calls.nil.snoc fun _ _ => trivial
  · rw [hp]
    decide

end

end Crt64
