import OpenWindows.Crt64.HeapRun

/-!
# Freeing stays in the arena

`owcrt_blk_free_core` looks for a free block in front of the one it frees, also when
that is the first of its segment.  There it reads bytes that the kernel left in
memory, and the test of adjacency is of a size that the address was computed from.
So it stays in the arena as long as these bytes are not those of a free footer.
-/

namespace Crt64

open Memory StepSystem

variable {s : HeapUse} {v : Layout} {fl : List Nat} {k64 : Kernel} {op : HeapOp}

/-! ## Clean runs -/

/-- The caller does what it may.  No size wraps around, and no first block of a segment is freed
with the bytes of a free footer in front of it. -/
structure HeapUse.Clean (k64 : Kernel) (s : HeapUse) (op : HeapOp) : Prop where
  allowed : s.Allowed op
  fits : ¬ s.Wraps op
  unfouled : ¬ s.Fouls k64 op

theorem clean_malloc (k64 : Kernel) {n : Nat} (hn : ¬ wraps n) (s : HeapUse) :
    s.Clean k64 (.malloc n) :=
  ⟨trivial, fun hw => hn hw.2, fun ⟨_, hr, _⟩ => by cases hr⟩

theorem reached_of_moves (hk : Lends k64) {A : Heap → Nat → Prop} {P : HeapStage → Prop}
    (hinit : P ⟨.init, fun _ => .none, []⟩)
    (hstep : ∀ {a b}, a.Sound → HeapMove k64 A a b → P a → P b) {ops : List HeapOp}
    {o : Option HeapUse} (hrun : Calls (fun o op => ∀ s ∈ o, s.Clean k64 op ∧
      ∀ n, s.asks op = some n → A s.heap n) (HeapUse.call k64) (some .init) ops o) :
    ∃ s v ledger, o = some s ∧ HeapStage.Sound ⟨s, v, ledger⟩ ∧ P ⟨s, v, ledger⟩ := by
  refine hrun.invariant (P := fun o => ∃ s v ledger, o = some s ∧
    HeapStage.Sound ⟨s, v, ledger⟩ ∧ P ⟨s, v, ledger⟩) ?_
    ⟨_, _, _, rfl, ⟨[], .init⟩, hinit⟩
  rintro _ op ⟨s, v, ledger, rfl, ⟨fl, hs⟩, hP⟩ hguard
  obtain ⟨hclean, hA⟩ := hguard s rfl
  obtain ⟨s', v', hnext, hmoves⟩ :=
    hs.next hk hclean.allowed hclean.fits hclean.unfouled hA ledger
  obtain ⟨hs', hP'⟩ := hmoves.invariant ⟨fl, hs⟩ hP hstep
  exact ⟨s', v', _, hnext, hs', hP'⟩

theorem sound_of_clean (hk : Lends k64) {ops : List HeapOp} {o : Option HeapUse}
    (hrun : Calls (fun o op => ∀ s ∈ o, s.Clean k64 op) (HeapUse.call k64) (some .init) ops o) :
    ∃ s v fl, o = some s ∧ s.Sound v fl := by
  obtain ⟨s, v, _, ho, ⟨fl, hs⟩, -⟩ := reached_of_moves hk (A := fun _ _ => True)
    (P := fun _ => True) trivial (fun _ _ _ => trivial)
    (hrun.mono fun _ _ hguard s hs => ⟨hguard s hs, fun _ _ => trivial⟩)
  exact ⟨s, v, fl, ho, hs⟩

/-! ## The call of `owcrt_blk_free_core` -/

/-- Where `owcrt_blk_free_core` is called, it touches blocks of the arena of the segment that
contains the block. -/
def HeapUse.StaysInArena (k64 : Kernel) (s : HeapUse) (op : HeapOp) : Prop :=
  ∀ {r q}, s.freed k64 op = some r → freeCoreCall r.1 r.2 = some q →
    ∃ i, i < segMax ∧ (q.1.segs i).active = true ∧ (q.1.segs i).base ≤ q.2 ∧
      q.2 < (q.1.segs i).base + (q.1.segs i).size ∧
      ∀ t ∈ freeCoreBlocks q.1 q.2, InArena (q.1.segs i) t

theorem not_inArena_of_freeFoot {h : Heap} {x : Nat} {sg : Seg}
    (hfoot : FreeFoot h.mem (x - blkFtar)) (hlow : 0x1000 ≤ x) (hfit : x + arenaBytes < 2 ^ 64)
    (hx : x = sg.base + segHdr) :
    ¬ ∀ t ∈ freeCoreBlocks h x, InArena sg t := by
  intro hall
  obtain ⟨hflags, hsize⟩ := hfoot
  have hlt : loadU32 h.mem (x - blkFtar) < 2 ^ 32 := loadU32_lt ..
  have hftar : blkFtar = 8 := rfl
  have hmin : minFreeTotal = 44 := rfl
  have hjoin : ∀ total, (joinPrev h x total).1 =
      (x - blkFtar + (2 ^ 64 - (loadU32 h.mem (x - blkFtar) - blkFtar))) % 2 ^ 64 ∧
      (joinPrev h x total).2.1 = total + loadU32 h.mem (x - blkFtar) := by
    intro total
    unfold joinPrev
    dsimp only
    rw [if_pos (by omega), if_pos hflags, if_pos ⟨hsize, by omega⟩]
    exact ⟨rfl, rfl⟩
  obtain ⟨hblk, htotal⟩ := hjoin (loadU32 h.mem x)
  have hfirst := hall ((joinPrev h x (loadU32 h.mem x)).1,
    (joinPrev h x (loadU32 h.mem x)).2.1 - loadU32 h.mem x) (by simp [freeCoreBlocks])
  rw [hblk, htotal, Nat.add_sub_cancel_left] at hfirst
  unfold InArena at hfirst
  dsimp only at hfirst
  omega

theorem HeapUse.Sound.staysInArena_iff (hk : Lends k64) (hs : s.Sound v fl) (hop : s.Allowed op)
    (hw : ¬ s.Wraps op) : s.StaysInArena k64 op ↔ ¬ s.Fouls k64 op := by
  obtain ⟨b, hmoves, hcomes⟩ := hs.comes (A := fun _ _ => True) hk hop hw (fun _ _ => trivial) []
  obtain ⟨fl', hs'⟩ := hmoves.sound ⟨fl, hs⟩
  constructor
  · rintro hstays ⟨r, hr, hfoul⟩
    obtain ⟨hheap, ⟨n, hmem⟩, -⟩ := hcomes.frees hr
    rw [hheap] at hfoul
    obtain ⟨i, bs, d, hi, hv, hfoot, hp, hd, hused⟩ :=
      hs'.coherent.arena_of_fouled (hs'.owned hmem) hfoul
    have hcall := hs'.coherent.freeCoreCall_small hd hused
    rw [← hp, ← hheap] at hcall
    obtain ⟨j, hj, hact, hlo, hhi, hall⟩ := hstays hr hcall
    rw [hheap] at hact hlo hhi hall
    -- the segment that contains the block is the one it is the first block of
    have hsh := hs'.coherent.shape
    have hacti := hsh.active_of_arena hi hv
    have hsize : (b.use.heap.segs i).size = segHdr + arenaBytes + 24 := (hsh.arena hi hv).size
    have hfit := hsh.fit hi hacti
    change (b.use.heap.segs j).base ≤ _ at hlo
    change _ < (b.use.heap.segs j).base + (b.use.heap.segs j).size at hhi
    have hij : j = i := by
      by_contra hne
      have hap := hsh.apart hj hi hne hact hacti
      omega
    subst hij
    exact not_inArena_of_freeFoot (h := b.use.heap.countFree (d.size - 28)) hfoot (by omega)
      (by omega) rfl hall
  · intro hclean r q hr hcall
    obtain ⟨hheap, ⟨n, hmem⟩, -⟩ := hcomes.frees hr
    have hfoul : ¬ Fouled r.1 (r.2 - blkHdr) := fun hf => hclean ⟨r, hr, hf⟩
    rw [hheap] at hcall hfoul
    rcases hs'.owned hmem with ⟨a, d, heq, hd, hused, -⟩ | ⟨a, heq, hl⟩
    · dsimp only at heq
      rw [heq, hs'.coherent.freeCoreCall_small hd hused] at hcall
      rw [heq] at hfoul
      rw [← Option.some.inj hcall]
      exact ((hs'.coherent.countFree (d.size - 28)).freeCore hd hused hfoul).2
    · dsimp only at heq
      rw [heq, hs'.coherent.freeCoreCall_large hl] at hcall
      cases hcall

/-- After a clean run, the next call keeps `owcrt_blk_free_core` in the arena of the block it frees
exactly when it frees no first block of a segment that has the bytes of a free footer in front of
it. -/
theorem blkFreeCore_in_arena_iff (hk : Lends k64) {ops : List HeapOp}
    (hrun : Calls (fun o op => ∀ s ∈ o, s.Clean k64 op) (HeapUse.call k64) (some .init) ops
      (some s)) (hop : s.Allowed op) (hw : ¬ s.Wraps op) :
    s.StaysInArena k64 op ↔ ¬ s.Fouls k64 op := by
  obtain ⟨t, v, fl, heq, hs⟩ := sound_of_clean hk hrun
  cases heq
  exact hs.staysInArena_iff hk hop hw

theorem blkFreeCore_in_arena_iff_second :
    ∃ s, HeapUse.run fallingKernel [.malloc 100, .malloc 50] = some s ∧
      (s.StaysInArena fallingKernel (.free 0x4000b0) ↔
        ¬ s.Fouls fallingKernel (.free 0x4000b0)) := by
  have hlive : (HeapUse.run fallingKernel [.malloc 100, .malloc 50]).map HeapUse.live =
      some [(0x4000b0, 50), (0x400030, 100)] := by decide
  obtain ⟨s, hs, hheld⟩ := Option.map_eq_some_iff.mp hlive
  have hsizes : ∀ n ∈ [100, 50], ¬ wraps n := by decide
  have hrun := calls_mallocs [100, 50] (fun n hn => clean_malloc fallingKernel (hsizes n hn)) hs
  refine ⟨s, hs, blkFreeCore_in_arena_iff fallingKernel_honest.lends hrun (.inr ⟨50, ?_⟩) id⟩
  · rw [hheld]
    exact List.mem_cons_self

/-- A kernel whose blocks have bytes of an earlier use, 64 at 24 and zero elsewhere. -/
def staleKernel : Kernel := fun h bytes =>
  (fallingKernel h bytes).map fun g => { g with fill := fun k => if k = 24 then 64 else 0 }

theorem staleKernel_lends : Lends staleKernel := by
  have hgrant : ∀ {h bytes g}, staleKernel h bytes = some g →
      ∃ g', fallingKernel h bytes = some g' ∧ g.base = g'.base := by
    intro h bytes g hg
    obtain ⟨g', hg', rfl⟩ := Option.map_eq_some_iff.mp hg
    exact ⟨g', hg', rfl⟩
  refine ⟨?_, ?_, ?_⟩
  · intro h bytes g hg
    obtain ⟨g', hg', heq⟩ := hgrant hg
    exact heq ▸ fallingKernel_honest.aligned hg'
  · intro h bytes g hg
    obtain ⟨g', hg', heq⟩ := hgrant hg
    exact heq ▸ fallingKernel_honest.fits hg'
  · intro h bytes g hg i hi hact
    obtain ⟨g', hg', heq⟩ := hgrant hg
    exact heq ▸ fallingKernel_honest.apart hg' hi hact

/-- The first block of a segment is joined with 64 bytes in front of it. -/
theorem blkFreeCore_leaves_arena :
    Lends staleKernel ∧ ∃ s, Calls (fun o op => ∀ s ∈ o, HeapUse.Allowed s op)
      (HeapUse.call staleKernel) (some .init) [.malloc 16] (some s) ∧
        s.Allowed (.free 0x400030) ∧ ¬ s.StaysInArena staleKernel (.free 0x400030) := by
  refine ⟨staleKernel_lends, ?_⟩
  have hlive : (HeapUse.run staleKernel [.malloc 16]).map HeapUse.live =
      some [(0x400030, 16)] := by decide
  have hcall : (HeapUse.run staleKernel [.malloc 16]).map (fun s =>
      (freeCoreCall s.heap 0x400030).map fun q => (freeCoreBlocks q.1 q.2).headD (0, 0)) =
      some (some (0x3fffe0, 64)) := by decide
  have hsegs : (HeapUse.run staleKernel [.malloc 16]).map (fun s =>
      (freeCoreCall s.heap 0x400030).map fun q => decide (∀ i < segMax,
        (q.1.segs i).active = true → (q.1.segs i).base = 0x400000)) = some (some true) := by
    decide
  obtain ⟨s, hs, hheld⟩ := Option.map_eq_some_iff.mp hlive
  rw [hs, Option.map_some, Option.some_inj, Option.map_eq_some_iff] at hcall hsegs
  obtain ⟨q, hq, hhead⟩ := hcall
  obtain ⟨q', hq', hbase⟩ := hsegs
  rw [hq] at hq'
  cases hq'
  refine ⟨s, ?_, .inr ⟨16, ?_⟩, fun hstays => ?_⟩
  · rw [← hs]
    exact Calls.nil.snoc fun _ _ => trivial
  · rw [hheld]
    exact List.mem_singleton_self _
  · obtain ⟨i, hi, hact, -, -, hall⟩ := hstays (r := (s.heap, 0x400030)) rfl hq
    have hfirst := hall ((freeCoreBlocks q.1 q.2).headD (0, 0)) (by simp [freeCoreBlocks])
    rw [hhead, InArena, of_decide_eq_true hbase i hi hact] at hfirst
    exact absurd hfirst.1 (by decide)

end Crt64
