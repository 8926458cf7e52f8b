import Mathlib.Algebra.BigOperators.Group.List.Basic
import OpenWindows.Owheap.Layout

/-!
# Tilings of the arena

`Tiled` says that memory holds a layout that tiles the arena.  Splitting a block, joining it with
the next one and changing its flag keep a tiling: each replaces some blocks by others of the same
extent (`Tiled.replace`).  `Rep` adds the heap record, whose counter is the sum of the payloads
in use.
-/

namespace Owheap

open Memory Tiling

/-- The bytes of the payloads in use. -/
def inUse (bs : List Blk) : Nat := (bs.map fun b => if b.used then b.size else 0).sum

/-- The payload of a block in use begins at `p`. -/
def Live (a : Nat) (bs : List Blk) (p : Nat) : Prop :=
  ∃ y b, (y, b) ∈ place Blk.len a bs ∧ b.used = true ∧ p = heapPayload y

/-- No two free blocks are neighbours. -/
def Merged (bs : List Blk) : Prop := bs.IsChain fun b c => b.used = true ∨ c.used = true

/-- The blocks tile an arena of `n` bytes at `a`. -/
structure Tiled (m : Mem) (a n : Nat) (bs : List Blk) : Prop where
  laid : Laid m 0 a bs 0
  nonempty : bs ≠ []
  tiles : extent Blk.len bs = n
  pos : 0 < a
  fits : a + n ≤ 2 ^ 64
  small : n < 2 ^ 32
  big : ∀ b ∈ bs, 0 < b.size
  aligned : ∀ q ∈ place Blk.len a bs, q.1 % heapUnit = 0

/-- A heap represents a layout. -/
structure Rep (h : Heap) (bs : List Blk) : Prop where
  init : h.initialized = true
  head : h.head = h.arena
  tiled : Tiled h.mem h.arena h.arenaSize bs
  counted : h.bytesInUse.toNat = inUse bs

variable {m m' : Mem} {h h' : Heap} {bs pre mid mid' post : List Blk} {b c : Blk}
  {a n x y p need size : Nat}

@[simp] theorem inUse_append (bs cs : List Blk) : inUse (bs ++ cs) = inUse bs + inUse cs := by
  simp [inUse]

@[simp] theorem inUse_cons (b : Blk) (bs : List Blk) :
    inUse (b :: bs) = (if b.used then b.size else 0) + inUse bs := by
  simp [inUse]

theorem Blk.len_eq (b : Blk) : b.len = 32 + b.size := rfl

/-! ## Neighbours -/

/-- Only the flags of the blocks matter. -/
theorem merged_head (hc : c.used = b.used) : Merged (c :: post) ↔ Merged (b :: post) := by
  unfold Merged
  rw [List.isChain_cons, List.isChain_cons, hc]

theorem merged_last (hc : c.used = b.used) : Merged (pre ++ [c]) ↔ Merged (pre ++ [b]) := by
  unfold Merged
  simp [List.isChain_append, hc]

theorem merged_middle : Merged (pre ++ b :: post) ↔ Merged (pre ++ [b]) ∧ Merged (b :: post) :=
  List.isChain_split

theorem merged_used (hb : b.used = true) : Merged (pre ++ b :: post) ↔ Merged pre ∧ Merged post := by
  unfold Merged
  simp [List.isChain_append, List.isChain_cons, hb]

theorem merged_free (hb : b.used = false) :
    Merged (b :: post) ↔ (∀ c ∈ post.head?, c.used = true) ∧ Merged post := by
  unfold Merged
  simp [List.isChain_cons, hb]

/-! ## What is live -/

theorem live_append {cs : List Blk} :
    Live a (bs ++ cs) p ↔ Live a bs p ∨ Live (a + extent Blk.len bs) cs p := by
  unfold Live
  rw [place_append]
  constructor
  · rintro ⟨y, b, hq, hused, heq⟩
    rcases List.mem_append.1 hq with hq | hq
    · exact .inl ⟨y, b, hq, hused, heq⟩
    · exact .inr ⟨y, b, hq, hused, heq⟩
  · rintro (⟨y, b, hq, hused, heq⟩ | ⟨y, b, hq, hused, heq⟩)
    · exact ⟨y, b, List.mem_append_left _ hq, hused, heq⟩
    · exact ⟨y, b, List.mem_append_right _ hq, hused, heq⟩

theorem live_cons :
    Live a (b :: bs) p ↔ (b.used = true ∧ p = heapPayload a) ∨ Live (a + b.len) bs p := by
  unfold Live
  constructor
  · rintro ⟨y, c, hq, hused, heq⟩
    rcases List.mem_cons.1 hq with hq | hq
    · cases hq
      exact .inl ⟨hused, heq⟩
    · exact .inr ⟨y, c, hq, hused, heq⟩
  · rintro (⟨hused, heq⟩ | ⟨y, c, hq, hused, heq⟩)
    · exact ⟨a, b, List.mem_cons_self, hused, heq⟩
    · exact ⟨y, c, List.mem_cons_of_mem _ hq, hused, heq⟩

theorem Live.bounds (h : Live a bs p) : a + 32 ≤ p ∧ p ≤ a + extent Blk.len bs := by
  obtain ⟨y, b, hq, -, rfl⟩ := h
  have hb := place_bounds hq
  rw [b.len_eq] at hb
  unfold heapPayload blockSize
  omega

/-! ## Tilings -/

theorem Tiled.block_fit (t : Tiled m a n bs) (hx : (x, b) ∈ place Blk.len a bs) :
    a ≤ x ∧ x + (32 + b.size) ≤ a + n ∧ 0 < b.size := by
  have hb := place_bounds hx
  rw [t.tiles, b.len_eq] at hb
  exact ⟨hb.1, hb.2, t.big b (mem_of_mem_place hx)⟩

theorem mem_place_middle (a : Nat) (pre : List Blk) (b : Blk) (post : List Blk) :
    (a + extent Blk.len pre, b) ∈ place Blk.len a (pre ++ b :: post) :=
  mem_place_iff.2 ⟨pre, post, rfl, rfl⟩

theorem Tiled.heapHeader_payload (t : Tiled m a n bs) (hx : (x, b) ∈ place Blk.len a bs) :
    heapHeader (heapPayload x) = x := by
  have hfit := t.block_fit hx
  have hfits := t.fits
  unfold heapHeader heapPayload blockSize
  omega

theorem Tiled.replace (t : Tiled m a n (pre ++ mid ++ post)) (hne : mid' ≠ [])
    (hext : extent Blk.len mid' = extent Blk.len mid) (hbig : ∀ b ∈ mid', 0 < b.size)
    (haligned : ∀ q ∈ place Blk.len (a + extent Blk.len pre) mid', q.1 % heapUnit = 0)
    (hlaid : Laid m' 0 a (pre ++ mid' ++ post) 0) : Tiled m' a n (pre ++ mid' ++ post) where
  laid := hlaid
  nonempty := by simp [hne]
  tiles := by
    have htiles := t.tiles
    simp only [extent_append] at htiles ⊢
    rw [hext, htiles]
  pos := t.pos
  fits := t.fits
  small := t.small
  big := by
    intro b hb
    have hold := t.big b
    simp only [List.mem_append] at hb hold
    rcases hb with (hb | hb) | hb
    · exact hold (.inl (.inl hb))
    · exact hbig b hb
    · exact hold (.inr hb)
  aligned := by
    rintro ⟨y, b⟩ hq
    rcases mem_place_replace hext hq with hq | hq
    · exact haligned (y, b) hq
    · exact t.aligned (y, b) hq.1

theorem Tiled.aligned_middle (t : Tiled m a n (pre ++ b :: post)) :
    (a + extent Blk.len pre) % heapUnit = 0 := t.aligned _ (mem_place_middle a pre b post)

theorem Tiled.reflag (t : Tiled m a n (pre ++ b :: post)) (hc : c.size = b.size) :
    Tiled (setFlags m (a + extent Blk.len pre) c.flags) a n (pre ++ c :: post) := by
  have hlen : c.len = b.len := by rw [c.len_eq, b.len_eq, hc]
  have hsize := t.big b (by simp)
  have hal := t.aligned_middle
  have hlaid := t.laid.reflag hc
  rw [List.append_cons] at t hlaid ⊢
  refine t.replace (List.cons_ne_nil _ _) (by simp [extent, hlen]) ?_ ?_ hlaid
  · intro d hd
    rw [List.mem_singleton.1 hd, hc]
    exact hsize
  · intro q hq
    rw [List.mem_singleton.1 hq]
    exact hal

theorem Tiled.join (t : Tiled m a n (pre ++ b :: c :: post)) (hx : x = a + extent Blk.len pre) :
    Tiled (absorb m x (x + b.len)) a n (pre ++ ⟨b.size + c.len, b.used⟩ :: post) := by
  have hfit := t.fits
  have hsmall := t.small
  have htiles := t.tiles
  have hsize := t.big b (by simp)
  have hal := t.aligned_middle
  simp only [extent_append, extent, b.len_eq, c.len_eq] at htiles
  have hlaid := t.laid.join hx (by rw [c.len_eq]; omega) (by rw [t.tiles]; exact hfit)
  rw [show pre ++ b :: c :: post = pre ++ [b, c] ++ post by simp] at t
  rw [List.append_cons] at hlaid ⊢
  refine t.replace (List.cons_ne_nil _ _) ?_ ?_ ?_ hlaid
  · simp only [extent, Blk.len_eq]
    omega
  · intro d hd
    rw [List.mem_singleton.1 hd]
    dsimp only
    omega
  · intro q hq
    rw [List.mem_singleton.1 hq]
    exact hal

theorem kept_ge (h : need ≤ size) : need ≤ kept size need := by
  unfold kept
  split <;> omega

theorem extent_kept {used : Bool} :
    extent Blk.len (⟨kept size need, used⟩ :: spare size need) = 32 + size := by
  unfold kept spare
  split
  · simp [extent, Blk.len_eq]
  · simp only [extent, Blk.len_eq]
    omega

theorem inUse_spare : inUse (spare size need) = 0 := by
  unfold spare
  split <;> rfl

theorem not_live_spare : ¬ Live x (spare size need) p := by
  unfold spare
  split
  · rintro ⟨y, b, hq, -⟩
    cases hq
  · rw [live_cons]
    rintro (⟨hused, -⟩ | ⟨y, b, hq, -⟩)
    · cases hused
    · cases hq

theorem Tiled.split (t : Tiled m a n (pre ++ b :: post)) (hx : x = a + extent Blk.len pre)
    (hneed : need ≤ b.size) (hpos : 0 < need) (hunit : need % heapUnit = 0) :
    Tiled (heapSplit m x need) a n
      (pre ++ ⟨kept b.size need, b.used⟩ :: (spare b.size need ++ post)) := by
  have hfit := t.fits
  have hsmall := t.small
  have htiles := t.tiles
  have hal := t.aligned_middle
  simp only [extent_append, extent, b.len_eq] at htiles
  have hlaid := t.laid.split hx hneed (by omega) (by rw [t.tiles]; exact hfit)
  rw [← List.cons_append, ← List.append_assoc] at hlaid ⊢
  rw [List.append_cons] at t
  refine t.replace (List.cons_ne_nil _ _) ?_ ?_ ?_ hlaid
  · rw [extent_kept]
    simp [extent, b.len_eq]
  · intro d hd
    rcases List.mem_cons.1 hd with rfl | hd
    · exact Nat.lt_of_lt_of_le hpos (kept_ge hneed)
    · unfold Owheap.spare at hd
      split at hd
      · cases hd
      · rw [List.mem_singleton.1 hd]
        dsimp only
        omega
  · intro q hq
    rcases List.mem_cons.1 hq with rfl | hq
    · exact hal
    · unfold Owheap.spare Owheap.kept at hq
      split at hq
      · cases hq
      · rw [List.mem_singleton.1 hq]
        simp only [Blk.len_eq, heapUnit] at hunit hal ⊢
        omega

/-! ## Coalescing -/

theorem lastAddr_concat {prev : Nat} : lastAddr prev a (pre ++ [b]) = a + extent Blk.len pre := by
  induction pre generalizing prev a with
  | nil => rfl
  | cons c pre ih => rw [List.cons_append, lastAddr, ih, extent, Nat.add_assoc]

theorem live_join (hc : c.used = false) :
    Live a (pre ++ ⟨b.size + c.len, b.used⟩ :: post) p ↔ Live a (pre ++ b :: c :: post) p := by
  have hlen : ∀ x, x + Blk.len ⟨b.size + c.len, b.used⟩ = x + b.len + c.len := by
    intro x
    simp only [Blk.len, blockSize]
    omega
  rw [live_append, live_append, live_cons, live_cons, live_cons, hc, hlen]
  simp

theorem Tiled.middle (t : Tiled m a n (pre ++ b :: post)) (hx : x = a + extent Blk.len pre) :
    HeaderAt m x b (lastAddr 0 a pre) (linkTo (x + b.len) post) := by
  subst hx
  exact (laid_arena.1 t.laid).2.1

theorem Tiled.coalesceNext (t : Tiled m a n (pre ++ b :: post)) (hx : x = a + extent Blk.len pre)
    (hb : b.used = false) :
    ∃ b' post', b'.used = false ∧
      Tiled (if getNext m x ≠ 0 ∧ isFree m (getNext m x) then absorb m x (getNext m x) else m)
        a n (pre ++ b' :: post') ∧
      inUse (pre ++ b' :: post') = inUse (pre ++ b :: post) ∧
      (Merged post → Merged (b' :: post')) ∧
      ∀ p, Live a (pre ++ b' :: post') p ↔ Live a (pre ++ b :: post) p := by
  have hat := t.middle hx
  rw [hat.next]
  cases post with
  | nil =>
    rw [if_neg fun hcon => hcon.1 rfl]
    exact ⟨b, [], hb, t, rfl, fun _ => .singleton b, fun _ => Iff.rfl⟩
  | cons c post =>
    rw [linkTo_cons]
    have hc : (x + b.len, c) ∈ place Blk.len a (pre ++ b :: c :: post) := by
      have hmem := mem_place_middle a (pre ++ [b]) c post
      rwa [List.append_assoc, List.singleton_append, extent_append, extent, extent, Nat.add_zero,
        ← Nat.add_assoc, ← hx] at hmem
    obtain ⟨p, k, hatc⟩ := t.laid.headerAt hc
    rw [hatc.isFree]
    cases hused : c.used with
    | true =>
      rw [if_neg fun hcon => Bool.noConfusion hcon.2]
      refine ⟨b, c :: post, hb, t, rfl, fun hm => (merged_free hb).2 ⟨?_, hm⟩, fun _ => Iff.rfl⟩
      simpa using hused
    | false =>
      rw [if_pos ⟨by rw [b.len_eq]; omega, rfl⟩]
      refine ⟨⟨b.size + c.len, b.used⟩, post, hb, t.join hx, ?_,
        (merged_head (b := c) (c := ⟨b.size + c.len, b.used⟩) (hb.trans hused.symm)).2, fun p => live_join hused⟩
      simp [hb, hused]

theorem Tiled.coalesce (t : Tiled m a n (pre ++ b :: post)) (hx : x = a + extent Blk.len pre)
    (hb : b.used = false) :
    ∃ bs, Tiled (heapCoalesce m x) a n bs ∧ inUse bs = inUse (pre ++ b :: post) ∧
      (Merged pre → Merged post → Merged bs) ∧
      ∀ p, Live a bs p ↔ Live a (pre ++ b :: post) p := by
  obtain ⟨b', post', hb', t', hin, hmerged, hlive⟩ := t.coalesceNext hx hb
  unfold heapCoalesce
  dsimp only
  set m1 := if getNext m x ≠ 0 ∧ isFree m (getNext m x) then absorb m x (getNext m x) else m
  rw [(t'.middle hx).prev]
  rcases List.eq_nil_or_concat pre with rfl | ⟨pre, d, rfl⟩
  · rw [if_neg fun hcon => hcon.1 rfl]
    exact ⟨_, t', hin, fun _ => hmerged, hlive⟩
  · rw [List.concat_eq_append] at *
    rw [lastAddr_concat]
    rw [List.append_assoc, List.singleton_append] at t' hin hlive
    obtain ⟨p, k, hatd⟩ := t'.laid.headerAt (mem_place_middle a pre d (b' :: post'))
    have hpos := t.pos
    have hend : a + extent Blk.len pre + d.len = x := by
      rw [hx, extent_append, extent, extent]
      omega
    rw [hatd.isFree]
    cases hused : d.used with
    | true =>
      rw [if_neg fun hcon => Bool.noConfusion hcon.2]
      refine ⟨_, t', hin, fun hpre hpost => ?_, hlive⟩
      exact (merged_used hused).2 ⟨((merged_used hused).1 hpre).1, hmerged hpost⟩
    | false =>
      rw [if_pos ⟨by omega, rfl⟩]
      have hjoin := t'.join rfl
      rw [hend] at hjoin
      refine ⟨_, hjoin, ?_, fun hpre hpost => ?_, fun p => (live_join hb').trans (hlive p)⟩
      swap
      · exact merged_middle.2 ⟨(merged_last (b := d) (c := ⟨d.size + b'.len, d.used⟩) rfl).2 hpre,
          (merged_head (b := b') (c := ⟨d.size + b'.len, d.used⟩) (hused.trans hb'.symm)).2
            (hmerged hpost)⟩
      rw [← hin]
      simp [hused, hb']

/-! ## Searching -/

/-- The walk of `owheap_alloc` ends at a free block that is large enough, or at the end. -/
theorem findFit_spec (need : Nat) {prev k : Nat} (hl : Laid m prev x bs 0) (hx : 0 < x) (hk : bs.length ≤ k) :
    (findFit m need k (linkTo x bs) = some 0) ∨
      ∃ pre b post, bs = pre ++ b :: post ∧ b.used = false ∧ need ≤ b.size ∧
        findFit m need k (linkTo x bs) = some (x + extent Blk.len pre) := by
  induction bs generalizing prev x k with
  | nil =>
    left
    cases k <;> rfl
  | cons b bs ih =>
    obtain ⟨k, rfl⟩ : ∃ k', k = k' + 1 := ⟨k - 1, by simp at hk; omega⟩
    obtain ⟨y, rfl⟩ : ∃ y, x = y + 1 := ⟨x - 1, by omega⟩
    have hat := hl.1
    have hgo : findFit m need k (getNext m (y + 1)) = findFit m need k (linkTo (y + 1 + b.len) bs) := by
      rw [hat.next]
      rfl
    rw [linkTo_cons, findFit, hat.isFree, hat.size, hgo]
    have hrest := ih hl.2 (by omega) (Nat.le_of_succ_le_succ hk)
    have hskip : findFit m need k (linkTo (y + 1 + b.len) bs) = some 0 ∨
        ∃ pre c post, b :: bs = pre ++ c :: post ∧ c.used = false ∧ need ≤ c.size ∧
          findFit m need k (linkTo (y + 1 + b.len) bs) =
            some (y + 1 + extent Blk.len pre) := by
      rcases hrest with hnone | ⟨pre, c, post, rfl, hc, hle, heq⟩
      · exact .inl hnone
      · refine .inr ⟨b :: pre, c, post, rfl, hc, hle, ?_⟩
        rw [heq, extent, Nat.add_assoc]
    split
    · exact hskip
    next hfree =>
      split
      · exact hskip
      next hle =>
        exact .inr ⟨[], b, bs, rfl, by simpa using hfree, Nat.le_of_not_lt hle, rfl⟩

/-- There are not more blocks than bytes. -/
theorem length_le_extent (bs : List Blk) : bs.length ≤ extent Blk.len bs := by
  induction bs with
  | nil => exact Nat.le_refl _
  | cons b bs ih =>
    rw [List.length_cons, extent, b.len_eq]
    omega

end Owheap
