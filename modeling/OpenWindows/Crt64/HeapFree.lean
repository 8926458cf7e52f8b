import OpenWindows.Crt64.HeapRep

/-!
# Giving blocks back

`owcrt_blk_free_core` joins a block with its free neighbours.  It finds the one
before through the footer there and the one behind through the header there.  The
last block of an arena has the end marker behind it.  In front of the first one
stand bytes of the kernel, so there it stays in the arena as long as these are not
those of a free footer.
-/

namespace Crt64

open Memory Tiling

variable {h : Heap} {v : Layout} {fl : List Nat} {x i : Nat} {pre post : List Blk}

theorem freeFlags_flags (b : Blk) : freeFlags b.flags = !b.used := by
  have hfree : freeFlags 0 = true := by decide
  have hused : freeFlags flagUsed = false := by decide
  unfold Blk.flags
  cases b.used with
  | true => exact hused
  | false => exact hfree

theorem Rep.unlinkMem {skip : Nat → Prop} (r : Rep skip h v fl) (hx : x ∈ fl) :
    ∃ fl', Rep skip (blkFreeUnlink h x) v fl' ∧
      SameBut (fun y => ¬ LinkByte fl y) h (blkFreeUnlink h x) ∧
      ∀ y, y ∈ fl' ↔ y ∈ fl ∧ y ≠ x := by
  obtain ⟨p, q, rfl⟩ := List.append_of_mem hx
  refine ⟨p ++ q, r.unlink.1, r.unlink.2.mono ?_, fun y => ?_⟩
  · rintro y hy ⟨f, hf, hin⟩
    exact hy ⟨f, mem_append_cons hf, hin⟩
  have hnot := (List.nodup_cons.mp (List.nodup_middle.mp r.nodup)).1
  constructor
  · intro hy
    refine ⟨?_, fun heq => hnot (heq ▸ hy)⟩
    rcases List.mem_append.mp hy with hy | hy
    · exact List.mem_append_left _ hy
    · exact List.mem_append_right _ (List.mem_cons_of_mem _ hy)
  · rintro ⟨hy, hne⟩
    rcases List.mem_append.mp hy with hy | hy
    · exact List.mem_append_left _ hy
    · rcases List.mem_cons.mp hy with heq | hy
      · exact absurd heq hne
      · exact List.mem_append_right _ hy

/-! ## Joining -/

/-- What joining takes out of the list: the addresses of `mid`. -/
def Without (a : Nat) (mid : List Blk) (fl fl' : List Nat) : Prop :=
  ∀ y, y ∈ fl' ↔ y ∈ fl ∧ ∀ c, (y, c) ∉ place Blk.size a mid

theorem Without.nil (a : Nat) (fl : List Nat) : Without a [] fl fl := fun y => by simp [place]

variable {b : Blk}

variable {fl' : List Nat} {h' : Heap}

theorem Without.singleton {a : Nat}
    (h : ∀ y, y ∈ fl' ↔ y ∈ fl ∧ y ≠ a) : Without a [b] fl fl' := fun y => by
  rw [h]
  refine and_congr_right fun _ => ?_
  constructor
  · intro hne c hc
    exact hne (mem_place_singleton.mp hc).1
  · rintro hnot rfl
    exact hnot b (mem_place_singleton.mpr ⟨rfl, rfl⟩)

theorem joinPrev_spec (r : Rep allStamped h v fl)
    (hall : ∀ {a b}, IsBlock h.segs v a b → b.used = false → a ∈ fl) (hi : i < segMax)
    (hv : v i = .arena (pre ++ post)) (hm : (pre ++ post).IsChain Merged)
    (hx : x = blockAddr (h.segs i) pre) (hfoot : pre = [] → ¬ FreeFoot h.mem (x - blkFtar))
    (total : Nat) :
    ∃ pre' mid h' fl', pre = pre' ++ mid ∧
      joinPrev h x total = (blockAddr (h.segs i) pre', total + extent Blk.size mid, h') ∧
      SameBut (fun y => ¬ LinkByte fl y) h h' ∧ Rep allStamped h' v fl' ∧
      Without (blockAddr (h.segs i) pre') mid fl fl' ∧ (∀ c ∈ mid, c.used = false) ∧
      ∀ c ∈ pre'.getLast?, c.used = true := by
  have harena := r.shape.arena hi hv
  have hfit := r.shape.fit hi (r.shape.active_of_arena hi hv)
  have hlow : x - blkFtar ≥ 0x100 := by
    rw [hx]
    unfold blockAddr segHdr blkFtar
    omega
  unfold joinPrev
  dsimp only
  rw [if_pos hlow]
  rcases List.eq_nil_or_concat pre with rfl | ⟨pre', c, rfl⟩
  · refine ⟨[], [], h, fl, rfl, ?_, .refl _ _, r, .nil _ _, by simp, by simp⟩
    rw [extent, Nat.add_zero, ← hx]
    split
    next hfree => exact if_neg fun hc => hfoot rfl ⟨hfree, hc.1⟩
    · rfl
  · rw [List.concat_eq_append] at hv hm hx ⊢
    have hv' : v i = .arena (pre' ++ c :: post) := by simpa using hv
    have hblk := isBlock_behind h.segs hi hv'
    have hsz := r.shape.isBlock_fit hblk
    have hat := r.shape.blockAt hblk id
    have hxc : x = blockAddr (h.segs i) pre' + c.size := by
      rw [hx]
      simp [blockAddr, extent, extent_append, Nat.add_assoc]
    have hfoot : loadU32 h.mem (x - blkFtar) = c.size := by
      rw [hxc]
      exact hat.footSize
    have hflags : loadU32 h.mem (x - blkFtar + 4) = c.flags := by
      rw [hxc, ← hat.footFlags]
      congr 1
      unfold blkFtar
      omega
    rw [hfoot, hflags, freeFlags_flags]
    cases hc : c.used with
    | true =>
      refine ⟨pre' ++ [c], [], h, fl, by simp, ?_, .refl _ _, r, .nil _ _, by simp,
        by simpa using hc⟩
      rw [← hx]
      rfl
    | false =>
      obtain ⟨fl', r', hsame, hmem⟩ := r.unlinkMem (hall hblk hc)
      have hprev : (x - blkFtar + (2 ^ 64 - (c.size - blkFtar))) % 2 ^ 64 =
          blockAddr (h.segs i) pre' := by
        unfold blkFtar
        omega
      refine ⟨pre', [c], _, fl', rfl, ?_, hsame, r', .singleton hmem, by simpa using hc, ?_⟩
      · rw [hprev]
        simp only [Bool.not_false, if_true, extent, Nat.add_zero]
        exact if_pos ⟨by unfold minFreeTotal; omega, by omega⟩
      · intro d hd
        have hpair := (List.isChain_append.mp hm.left_of_append).2.2 d hd c (by simp)
        rcases hpair with hd' | hc'
        · exact hd'
        · rw [hc] at hc'
          cases hc'

theorem joinNext_spec (r : Rep allStamped h v fl)
    (hall : ∀ {b}, IsBlock h.segs v (blockAddr (h.segs i) pre) b → b.used = false →
      blockAddr (h.segs i) pre ∈ fl) (hi : i < segMax)
    (hv : v i = .arena (pre ++ post)) (hm : (pre ++ post).IsChain Merged) {total : Nat}
    (hx : x + total = blockAddr (h.segs i) pre) :
    ∃ mid post' h' fl', post = mid ++ post' ∧
      joinNext h x total = (total + extent Blk.size mid, h') ∧
      SameBut (fun y => ¬ LinkByte fl y) h h' ∧ Rep allStamped h' v fl' ∧
      Without (blockAddr (h.segs i) pre) mid fl fl' ∧ (∀ c ∈ mid, c.used = false) ∧
      ∀ c ∈ post'.head?, c.used = true := by
  have harena := r.shape.arena hi hv
  unfold joinNext
  dsimp only
  rw [hx]
  cases post with
  | nil =>
    -- the end marker counts as used
    have hend : loadU32 h.mem (blockAddr (h.segs i) pre + 4) = flagUsed := by
      have htiles := harena.tiles
      rw [List.append_nil] at htiles
      rw [blockAddr, htiles]
      exact harena.marker.2
    refine ⟨[], [], h, fl, rfl, ?_, .refl _ _, r, .nil _ _, by simp, by simp⟩
    rw [hend]
    exact if_neg (fun hc => absurd hc.1 (by decide))
  | cons d post =>
    have hblk := isBlock_behind h.segs hi hv
    have hsz := r.shape.isBlock_fit hblk
    have hat := r.shape.blockAt hblk id
    rw [hat.size, hat.flags, freeFlags_flags]
    cases hd : d.used with
    | true =>
      refine ⟨[], d :: post, h, fl, rfl, ?_, .refl _ _, r, .nil _ _, by simp, by simpa using hd⟩
      exact if_neg (fun hc => absurd hc.1 (by decide))
    | false =>
      obtain ⟨fl', r', hsame, hmem⟩ := r.unlinkMem (hall hblk hd)
      refine ⟨[d], post, _, fl', rfl, ?_, hsame, r', .singleton hmem, by simpa using hd, ?_⟩
      · simp only [extent, Nat.add_zero]
        exact if_pos ⟨rfl, by unfold minFreeTotal; omega⟩
      · intro e he
        cases post with
        | nil => cases he
        | cons f post =>
          have hpair := (List.isChain_cons_cons.mp hm.right_of_append).1
          rw [List.head?_cons, Option.mem_some_iff] at he
          rcases hpair with hd' | he'
          · rw [hd] at hd'
            cases hd'
          · rwa [he] at he'

/-! ## The block goes back -/

theorem isChain_insert_free (hpre : pre.IsChain Merged) (hpost : post.IsChain Merged)
    (hlast : ∀ c ∈ pre.getLast?, c.used = true) (hhead : ∀ c ∈ post.head?, c.used = true) :
    (pre ++ b :: post).IsChain Merged := by
  refine List.isChain_append.mpr ⟨hpre, ?_, fun c hc _ _ => .inl (hlast c hc)⟩
  cases post with
  | nil => exact .singleton _
  | cons d post => exact List.isChain_cons_cons.mpr ⟨.inr (hhead d (by simp)), hpost⟩

theorem Coherent.join (c : Coherent h v fl) (hi : i < segMax) {mid : List Blk}
    (hv : v i = .arena (pre ++ mid ++ post)) (hne : mid ≠ [])
    (r : Rep allStamped h' v fl') (hs : SameBut (fun y => ¬ LinkByte fl y) h h')
    (hx : x = blockAddr (h.segs i) pre) (hw : Without x mid fl fl')
    (hlast : ∀ d ∈ pre.getLast?, d.used = true) (hhead : ∀ d ∈ post.head?, d.used = true) :
    Coherent (blkFreeLink { h' with mem := blkStamp h'.mem x (extent Blk.size mid) 0 } x)
      (replaceIn v i (pre ++ [⟨extent Blk.size mid, false⟩] ++ post)) (x :: fl') ∧
    SameBut (fun y => (y < x ∨ x + extent Blk.size mid ≤ y) ∧ ¬ LinkByte fl y) h
      (blkFreeLink { h' with mem := blkStamp h'.mem x (extent Blk.size mid) 0 } x) := by
  have hsegs := hs.segs
  have harena := c.shape.arena hi hv
  have hpos : ∀ {d}, d ∈ mid → 44 ≤ d.size := fun hd =>
    harena.big _ (List.mem_append_left _ (List.mem_append_right _ hd))
  obtain ⟨d, mid', rfl⟩ := List.exists_cons_of_ne_nil hne
  have hbig : 44 ≤ extent Blk.size (d :: mid') := by
    have := hpos (List.mem_cons_self ..)
    simp only [extent]
    omega
  have hnot : x ∉ fl' := fun hmem => ((hw x).mp hmem).2 d (List.mem_cons_self ..)
  have hout : ∀ {f e}, f ∈ fl' → (f, e) ∉ place Blk.size x (d :: mid') := fun hf =>
    ((hw _).mp hf).2 _
  have hx' : x = blockAddr (h'.segs i) pre := by rw [hsegs, hx]
  have r1 := r.stampOne (b := ⟨extent Blk.size (d :: mid'), false⟩) hi hv rfl hbig
    (by rw [← hx']; exact hout) fun _ hs => hs.elim
  rw [← hx'] at r1
  have hblk : IsBlock h.segs
      (replaceIn v i (pre ++ [⟨extent Blk.size (d :: mid'), false⟩] ++ post)) x
      ⟨extent Blk.size (d :: mid'), false⟩ :=
    ⟨i, hi, _, replaceIn_same .., mem_place_middle.mpr
      (.inr (.inl (mem_place_singleton.mpr ⟨hx, rfl⟩)))⟩
  obtain ⟨r2, hlink⟩ := r1.link (hsegs.symm ▸ hblk) rfl hnot
  have hlt : extent Blk.size (d :: mid') < 2 ^ 32 := by
    have htiles := harena.tiles
    simp only [extent_append, arenaBytes, segHdr, endBlockSize, segmentDefault] at htiles
    omega
  have hstamp := blkStamp_spec h'.mem x (b := ⟨extent Blk.size (d :: mid'), false⟩) hbig hlt
  refine ⟨⟨r2, ?_, ?_⟩, ?_⟩
  · intro a e he hfree
    change IsBlock h'.segs _ a e at he
    rw [hsegs] at he
    rcases (c.shape.isBlock_replace hi hv (by simp [extent])).mp he with ⟨he, hfar⟩ | he
    · refine List.mem_cons_of_mem _ ((hw a).mpr ⟨c.all he hfree, fun g hg => ?_⟩)
      have hbounds := place_bounds hg
      have := hpos (mem_of_mem_place hg)
      have := c.shape.isBlock_fit he
      omega
    · rw [(mem_place_singleton.mp he).1, hx]
      exact List.mem_cons_self
  · intro j bs hj hvj
    by_cases hij : j = i
    · subst hij
      rw [replaceIn_same] at hvj
      cases hvj
      have hm := c.merged hj hv
      rw [List.append_assoc, List.singleton_append]
      exact isChain_insert_free hm.left_of_append.left_of_append hm.right_of_append hlast hhead
    · rw [replaceIn, Function.update_of_ne hij] at hvj
      exact c.merged hj hvj
  · refine ((hs.mono fun y hy => hy.2).trans (SameBut.write (hstamp.2.mono fun y hy => hy.1))).trans
      (hlink.mono ?_)
    rintro y hy ⟨f, hf, hlo, hhi⟩
    rcases List.mem_cons.mp hf with rfl | hf
    · omega
    · exact hy.2 ⟨f, ((hw f).mp hf).1, hlo, hhi⟩

/-- The blocks that `owcrt_blk_free_core` touches, with their bytes: the ones in front and behind
that it unlinks and merges, none where there is nothing to merge, and the block that it stamps. -/
def freeCoreBlocks (h : Heap) (blk : Nat) : List (Nat × Nat) :=
  let total := loadU32 h.mem blk
  let (blk1, total1, h1) := joinPrev h blk total
  let (total2, _) := joinNext h1 blk1 total1
  [(blk1, total1 - total), (blk1 + total1, total2 - total1), (blk1, total2)]

/-- The address lies between the header of the segment and the end marker. -/
def InArena (s : Seg) (r : Nat × Nat) : Prop :=
  s.base + segHdr ≤ r.1 ∧ r.1 + r.2 ≤ s.base + segHdr + arenaBytes

/-- The first block of a segment, with bytes in front of it that are those of a free footer. -/
def Fouled (h : Heap) (x : Nat) : Prop :=
  FreeFoot h.mem (x - blkFtar) ∧
    ∃ i, i < segMax ∧ (h.segs i).active = true ∧ x = (h.segs i).base + segHdr

/-- A block `b` in use at `x` becomes free. -/
structure Freed (h : Heap) (v : Layout) (x : Nat) (b : Blk) (h' : Heap) (v' : Layout) : Prop where
  coherent : ∃ fl', Coherent h' v' fl'
  segs : h'.segs = h.segs
  stats : h'.stats = h.stats
  corrupt : h'.corrupt = h.corrupt
  kept : ∀ {a c}, IsBlock h.segs v a c → c.used = true → a ≠ x → IsBlock h.segs v' a c
  keptLarge : ∀ {a n}, IsLarge h.segs v a n → IsLarge h.segs v' a n
  places : ∀ {a c}, IsBlock h.segs v' a c → ∃ d, IsBlock h.segs v a d
  same : SameOn (fun y => Busy h.segs v y ∧ (y < x ∨ x + b.size ≤ y)) h.mem h'.mem
  clear : Clear h v → Clear h' v'

variable {n : Nat}

theorem Coherent.freed (c : Coherent h v fl) (hi : i < segMax) {mid mid2 : List Blk}
    (hv : v i = .arena (pre ++ (mid ++ b :: mid2) ++ post))
    (hx : x = blockAddr (h.segs i) pre + extent Blk.size mid) (hfree : ∀ d ∈ mid, d.used = false)
    (hfree2 : ∀ d ∈ mid2, d.used = false)
    (hc : Coherent h' (replaceIn v i (pre ++ [⟨n, false⟩] ++ post)) fl')
    (hn : n = extent Blk.size (mid ++ b :: mid2))
    (hs : SameBut (fun y => (y < blockAddr (h.segs i) pre ∨ blockAddr (h.segs i) pre + n ≤ y) ∧
      ¬ LinkByte fl y) h h') :
    Freed h v x b h' (replaceIn v i (pre ++ [⟨n, false⟩] ++ post)) := by
  subst hn
  have hext : extent Blk.size [⟨extent Blk.size (mid ++ b :: mid2), false⟩] =
      extent Blk.size (mid ++ b :: mid2) := by
    simp [extent]
  have hplace : ∀ {f d}, (f, d) ∈ place Blk.size (blockAddr (h.segs i) pre) (mid ++ b :: mid2) →
      d.used = true → f = x ∧ d = b := by
    intro f d hd hused
    rw [place_append, ← hx, List.mem_append, place, List.mem_cons, Prod.mk.injEq] at hd
    rcases hd with hd | hd | hd
    · rw [hfree d (mem_of_mem_place hd)] at hused
      cases hused
    · exact hd
    · rw [hfree2 d (mem_of_mem_place hd)] at hused
      cases hused
  have hblk : IsBlock h.segs v x b :=
    ⟨i, hi, _, hv, mem_place_middle.mpr (.inr (.inl (by
      rw [place_append, ← hx]
      simp [place])))⟩
  have hsame : SameOn (fun y => Busy h.segs v y ∧ (y < x ∨ x + b.size ≤ y)) h.mem h'.mem := by
    refine hs.mem.mono fun y hy => ⟨?_, c.toRep.not_linkByte hy.1⟩
    -- a byte of another allocation is not in what was joined
    by_contra hcon
    obtain ⟨f, d, hd, hlo, hhi⟩ := @place_cover (blockAddr (h.segs i) pre) y (mid ++ b :: mid2)
      (by omega) (by omega)
    cases hdused : d.used with
    | true =>
      obtain ⟨rfl, rfl⟩ := hplace hd hdused
      omega
    | false =>
      have hblk : IsBlock h.segs v f d := ⟨i, hi, _, hv, mem_place_middle.mpr (.inr (.inl hd))⟩
      have hap := c.shape.busy_apart hy.1 hblk hdused
      omega
  refine ⟨⟨_, hc⟩, hs.segs, hs.stats, hs.corrupt, ?_, fun hl => hl.replace hv, ?_, hsame, ?_⟩
  · intro a d hd hused hne
    refine (c.shape.isBlock_replace hi hv hext).mpr (.inl ⟨hd, ?_⟩)
    rcases c.shape.isBlock_cases hi hv hd with hout | hin
    · exact hout
    · exact absurd (hplace hin hused).1 hne
  · intro a d hd
    rcases (c.shape.isBlock_replace hi hv hext).mp hd with ⟨hd, -⟩ | hd
    · exact ⟨d, hd⟩
    · rw [(mem_place_singleton.mp hd).1]
      cases mid with
      | nil =>
        have hv' : v i = .arena (pre ++ b :: (mid2 ++ post)) := by simpa using hv
        exact ⟨b, isBlock_behind h.segs hi hv'⟩
      | cons e mid =>
        have hv' : v i = .arena (pre ++ e :: (mid ++ b :: mid2 ++ post)) := by simpa using hv
        exact ⟨e, isBlock_behind h.segs hi hv'⟩
  · intro hclear
    refine hclear.congr (fun {j bs} _ hvj => ⟨?_, by rw [hs.segs]⟩)
      (hsame.mono fun y hy => ⟨.inr (.inr hy), c.shape.arenaHead_apart hy hblk⟩)
    by_cases hij : j = i
    · exact ⟨_, hij ▸ hv⟩
    · rw [replaceIn, Function.update_of_ne hij] at hvj
      exact ⟨bs, hvj⟩

theorem Coherent.freeCore (c : Coherent h v fl) (hb : IsBlock h.segs v x b)
    (hused : b.used = true) (hfoul : ¬ Fouled h x) :
    (∃ v', Freed h v x b (blkFreeCore h x) v') ∧
      ∃ i, i < segMax ∧ (h.segs i).active = true ∧ (h.segs i).base ≤ x ∧
        x < (h.segs i).base + (h.segs i).size ∧
        ∀ r ∈ freeCoreBlocks h x, InArena (h.segs i) r := by
  have hload : loadU32 h.mem x = b.size := (c.shape.blockAt hb id).size
  have hsz := c.shape.isBlock_fit hb
  -- the block itself is not in the list
  have hxnot : x ∉ fl := by
    intro hx
    obtain ⟨d, hd, hfree⟩ := c.free hx
    rcases c.shape.isBlock_apart hd hb with ⟨-, rfl⟩ | hap
    · rw [hused] at hfree
      cases hfree
    · have := c.shape.isBlock_fit hd
      omega
  obtain ⟨i, hi, bs, hv, hmem⟩ := hb
  obtain ⟨pre, post, rfl, hx⟩ := mem_place_iff.mp hmem
  change x = blockAddr (h.segs i) pre at hx
  have hm := c.merged hi hv
  -- the neighbours
  obtain ⟨pre', mid, h1, fl1, rfl, heq1, hs1, r1, hw1, hfree1, hlast⟩ :=
    joinPrev_spec c.toRep c.all hi hv hm hx (by
      rintro rfl hfoot
      exact hfoul ⟨hfoot, i, hi, c.shape.active_of_arena hi hv, hx⟩) b.size
  have hnext : blockAddr (h1.segs i) (pre' ++ mid ++ [b]) = x + b.size := by
    rw [hs1.segs, hx]
    simp [blockAddr, extent, extent_append, Nat.add_assoc]
  have hx' : x = blockAddr (h.segs i) pre' + extent Blk.size mid := by
    rw [hx]
    simp [blockAddr, extent_append, Nat.add_assoc]
  have hvb : v i = .arena (pre' ++ mid ++ [b] ++ post) := by simpa using hv
  obtain ⟨mid2, post', h2, fl2, rfl, heq2, hs2, r2, hw2, hfree2, hhead⟩ :=
    @joinNext_spec h1 v fl1 (blockAddr (h.segs i) pre') i _ post r1 (by
      intro d hd hdfree
      rw [hnext, hs1.segs] at hd
      rw [hnext]
      refine (hw1 _).mpr ⟨c.all hd hdfree, fun e he => ?_⟩
      have hbounds := place_bounds he
      have := (c.shape.arena hi hv).big e (by simp [mem_of_mem_place he])
      omega) hi hvb (by simpa using hm) (b.size + extent Blk.size mid) (by omega)
  rw [hnext] at hw2
  have hvall : v i = .arena (pre' ++ (mid ++ b :: mid2) ++ post') := by simpa using hv
  -- all that is joined is out of the list
  have hw : Without (blockAddr (h.segs i) pre') (mid ++ b :: mid2) fl fl2 := by
    have hplace : ∀ {f d}, (f, d) ∈ place Blk.size (blockAddr (h.segs i) pre') (mid ++ b :: mid2) ↔
        (f, d) ∈ place Blk.size (blockAddr (h.segs i) pre') mid ∨ (f = x ∧ d = b) ∨
          (f, d) ∈ place Blk.size (x + b.size) mid2 := by
      intro f d
      rw [place_append, ← hx', List.mem_append, place, List.mem_cons, Prod.mk.injEq]
    intro f
    rw [hw2, hw1]
    constructor
    · rintro ⟨⟨hf, hn1⟩, hn2⟩
      refine ⟨hf, fun d hd => ?_⟩
      rcases hplace.mp hd with hd | ⟨rfl, -⟩ | hd
      · exact hn1 d hd
      · exact hxnot hf
      · exact hn2 d hd
    · rintro ⟨hf, hn⟩
      exact ⟨⟨hf, fun d hd => hn d (hplace.mpr (.inl hd))⟩,
        fun d hd => hn d (hplace.mpr (.inr (.inr hd)))⟩
  have hext : b.size + extent Blk.size mid + extent Blk.size mid2 =
      extent Blk.size (mid ++ b :: mid2) := by
    simp only [extent_append, extent]
    omega
  have hs : SameBut (fun y => ¬ LinkByte fl y) h h2 := by
    refine hs1.trans (hs2.mono ?_)
    rintro y hy ⟨f, hf, hin⟩
    exact hy ⟨f, ((hw1 f).mp hf).1, hin⟩
  obtain ⟨hjoin, hsame⟩ := c.join hi hvall (by simp) r2 hs rfl hw hlast hhead
  have heq : blkFreeCore h x = blkFreeLink { h2 with
      mem := blkStamp h2.mem (blockAddr (h.segs i) pre') (extent Blk.size (mid ++ b :: mid2)) 0 }
      (blockAddr (h.segs i) pre') := by
    unfold blkFreeCore
    simp only [hload, heq1, heq2, hext]
  have hblocks : freeCoreBlocks h x = [(blockAddr (h.segs i) pre', extent Blk.size mid),
      (x + b.size, extent Blk.size mid2),
      (blockAddr (h.segs i) pre', extent Blk.size (mid ++ b :: mid2))] := by
    unfold freeCoreBlocks
    simp only [hload, heq1, heq2, hext, Nat.add_sub_cancel_left]
    rw [show blockAddr (h.segs i) pre' + (b.size + extent Blk.size mid) = x + b.size by omega,
      ← hext, Nat.add_sub_cancel_left]
  refine ⟨⟨_, heq ▸ c.freed hi hvall hx' hfree1 hfree2 hjoin rfl hsame⟩, i, hi,
    c.shape.active_of_arena hi hv, ?_, ?_, ?_⟩
  · have hp := c.shape.place_fit hi hv hmem
    omega
  · have hp := c.shape.place_fit hi hv hmem
    omega
  · have htiles := (c.shape.arena hi hvall).tiles
    simp only [extent_append] at htiles hext
    rw [hblocks]
    intro r hr
    unfold InArena
    unfold blockAddr at hr hx'
    simp only [List.mem_cons, List.not_mem_nil, or_false, extent_append] at hr
    rcases hr with rfl | rfl | rfl
    · dsimp only
      omega
    · dsimp only
      omega
    · dsimp only
      omega

/-! ## Large allocations -/

theorem Coherent.destroy (c : Coherent h v fl) (hi : i < segMax)
    (hv : v i = .large n) : Coherent (segDestroy h i) (Function.update v i .none) fl := by
  have hna : ∀ bs, v i ≠ .arena bs := fun bs heq => by
    rw [hv] at heq
    cases heq
  have hsh : Shape allStamped h.mem (Function.update h.segs i .empty)
      (Function.update v i .none) := by
    refine c.shape.update ?_ ?_ ?_ (SameOn.refl _ _) (fun heq => by cases heq)
      (fun heq => by cases heq)
    · simp [Seg.empty]
    · simp [Seg.empty]
    · simp [Seg.empty]
  refine ⟨c.toRep.update hsh rfl rfl hi hna (SameOn.refl _ _), ?_, ?_⟩
  · intro a b hb hfree
    rcases (isBlock_update hi hna).mp hb with hb | ⟨bs, heq, -⟩
    · exact c.all hb hfree
    · cases heq
  · intro j bs hj hvj
    by_cases hij : j = i
    · subst hij
      rw [Function.update_self] at hvj
      cases hvj
    · rw [Function.update_of_ne hij] at hvj
      exact c.merged hj hvj

/-! ## The call -/

/-- The heap and the block that `ow_free` passes to `owcrt_blk_free_core`, none where it takes the
block for damaged or large. -/
def freeCoreCall (h : Heap) (ptr : Nat) : Option (Heap × Nat) :=
  if ptr = 0 then none
  else
    let blk := ptr - blkHdr
    if loadU32 h.mem (blk + 8) ≠ magicBlk then none
    else
      let flags := loadU32 h.mem (blk + 4)
      let usz := loadU32 h.mem blk
      if flags &&& flagLarge ≠ 0 then none
      else if flags &&& 0xFFFFFFFE ≠ 0 ∨ usz < minFreeTotal then none
      else
        let user := blkUser h.mem blk
        if loadU32 h.mem (blk + blkHdr + user) ≠ canaryOf user then none
        else some (h.countFree user, blk)

theorem owFree_of_freeCoreCall {ptr : Nat} {q : Heap × Nat}
    (hq : freeCoreCall h ptr = some q) : owFree h ptr = blkFreeCore q.1 q.2 := by
  unfold freeCoreCall at hq
  unfold owFree
  split at hq
  · cases hq
  next hptr =>
    rw [if_neg hptr]
    dsimp only at hq ⊢
    split at hq
    · cases hq
    next hmagic =>
      rw [if_neg hmagic]
      split at hq
      · cases hq
      next hlarge =>
        rw [if_neg hlarge]
        split at hq
        · cases hq
        next hsmall =>
          rw [if_neg hsmall]
          split at hq
          · cases hq
          next hcanary =>
            rw [if_neg hcanary, ← Option.some.inj hq]

theorem Coherent.freeCoreCall_small (c : Coherent h v fl)
    (hb : IsBlock h.segs v x b) (hused : b.used = true) :
    freeCoreCall h (x + 16) = some (h.countFree (b.size - 28), x) := by
  have hat := c.shape.blockAt hb id
  have hsz := c.shape.isBlock_fit hb
  have hflags : loadU32 h.mem (x + 4) = flagUsed := by
    rw [hat.flags, Blk.flags, hused]
    rfl
  have huser : blkUser h.mem x = b.size - 28 := blkUser_eq hat.size (by omega) hsz.2.2.2
  have hcanary : loadU32 h.mem (x + blkHdr + (b.size - 28)) = canaryOf (b.size - 28) := by
    have haddr : x + blkHdr + (b.size - 28) = x + b.size - 12 := by
      unfold blkHdr
      omega
    rw [haddr, hat.canary]
  have hmin : ¬ b.size < minFreeTotal := by
    unfold minFreeTotal
    omega
  have hbits : ¬ (flagUsed &&& 0xFFFFFFFE ≠ 0 ∨ b.size < minFreeTotal) :=
    not_or.mpr ⟨by decide, hmin⟩
  unfold freeCoreCall
  simp only [show x + 16 - blkHdr = x from rfl, hat.magic, hflags, hat.size, huser, hcanary]
  rw [if_neg (by omega), if_neg (by simp), if_neg (by decide), if_neg hbits, if_neg (by simp)]

theorem Coherent.freeCoreCall_large (c : Coherent h v fl)
    (hl : IsLarge h.segs v x n) : freeCoreCall h (x + 16) = none := by
  obtain ⟨i, hi, hv, rfl⟩ := hl
  have hl := c.shape.large hi hv
  unfold freeCoreCall
  simp only [show (h.segs i).base + 16 - blkHdr = (h.segs i).base from rfl, hl.magic, hl.flags]
  rw [if_neg (by omega), if_neg (by simp), if_pos (by decide)]

theorem owFree_small (c : Coherent h v fl) (hb : IsBlock h.segs v x b) (hused : b.used = true) :
    owFree h (x + 16) = blkFreeCore (h.countFree (b.size - 28)) x := by
  rw [owFree_of_freeCoreCall (c.freeCoreCall_small hb hused)]

theorem owFree_large (c : Coherent h v fl) (hi : i < segMax) (hv : v i = .large n) :
    owFree h ((h.segs i).base + 16) = h.fault ∨
      owFree h ((h.segs i).base + 16) = segDestroy (h.countFree (n % 2 ^ 32)) i := by
  have hl := c.shape.large hi hv
  unfold owFree
  simp only [show (h.segs i).base + 16 - blkHdr = (h.segs i).base from rfl, hl.magic, hl.flags,
    hl.size, hl.index]
  rw [if_neg (by omega), if_neg (by simp), if_pos (by decide)]
  split
  · exact .inl rfl
  · exact .inr rfl

/-- The allocation at `p` is given up: the others are still there, with their bytes. -/
structure Released (h : Heap) (v : Layout) (p : Nat) (h' : Heap) (v' : Layout) : Prop where
  coherent : ∃ fl', Coherent h' v' fl'
  kept : ∀ {a c}, IsBlock h.segs v a c → c.used = true → p ≠ a + 16 → IsBlock h'.segs v' a c
  keptLarge : ∀ {a n}, IsLarge h.segs v a n → p ≠ a + 16 → IsLarge h'.segs v' a n
  places : ∀ {a c}, IsBlock h'.segs v' a c → ∃ d, IsBlock h.segs v a d
  same : ∀ {q k}, Owns h.segs v q k → q ≠ p → SameOn (fun y => q ≤ y ∧ y < q + k) h.mem h'.mem
  clear : Clear h v → Clear h' v'

theorem Released.owns {p q k : Nat} {v' : Layout} (r : Released h v p h' v')
    (hown : Owns h.segs v q k) (hne : q ≠ p) : Owns h'.segs v' q k := by
  rcases hown with ⟨a, b, rfl, hb, hused, hle⟩ | ⟨a, rfl, hl⟩
  · exact .inl ⟨a, b, rfl, r.kept hb hused (Ne.symm hne), hused, hle⟩
  · exact .inr ⟨a, rfl, r.keptLarge hl (Ne.symm hne)⟩

theorem Shape.owns_apart {m : Mem} {segs : Nat → Seg} {skip : Nat → Prop} {q k y : Nat}
    (hsh : Shape skip m segs v) (hown : Owns segs v q k) (hb : IsBlock segs v x b)
    (hne : q ≠ x + 16) (hlo : q ≤ y) (hhi : y < q + k) : y < x ∨ x + b.size ≤ y := by
  rcases hown with ⟨a, d, rfl, hd, -, hle⟩ | ⟨a, rfl, hl⟩
  · rcases hsh.isBlock_apart hd hb with ⟨rfl, -⟩ | hap
    · exact absurd rfl hne
    · omega
  · have hap := hsh.isBlock_isLarge_apart hb hl
    omega

theorem Coherent.countFree (c : Coherent h v fl) (n : Nat) : Coherent (h.countFree n) v fl :=
  c.congr rfl rfl rfl

theorem Coherent.release (c : Coherent h v fl) {p n : Nat} (hown : Owns h.segs v p n)
    (hfoul : ¬ Fouled h (p - blkHdr)) : ∃ v', Released h v p (owFree h p) v' := by
  rcases hown with ⟨a, b, rfl, hb, hused, -⟩ | ⟨a, rfl, i, hi, hv, rfl⟩
  · rw [owFree_small c hb hused]
    obtain ⟨⟨v', hf⟩, -⟩ := (c.countFree (b.size - 28)).freeCore hb hused hfoul
    obtain ⟨hco, hsegs, -, -, hkept, hlarge, hplaces, hsame, hclear⟩ := hf
    refine ⟨v', hco, ?_, ?_, ?_, ?_, hclear⟩
    · intro d e hd he hne
      rw [hsegs]
      exact hkept hd he fun heq => hne (by rw [heq])
    · intro d k hl _
      rw [hsegs]
      exact hlarge hl
    · intro d e hd
      rw [hsegs] at hd
      exact hplaces hd
    · intro q k hq hne
      exact hsame.mono fun y hy => ⟨hq.busy hy.1 hy.2, c.shape.owns_apart hq hb hne hy.1 hy.2⟩
  · rcases owFree_large c hi hv with heq | heq
    · rw [heq]
      exact ⟨v, ⟨fl, c.congr rfl rfl rfl⟩, fun hd _ _ => hd, fun hl _ => hl, fun hd => ⟨_, hd⟩,
        fun _ _ => SameOn.refl _ _, id⟩
    · rw [heq]
      have hna : ∀ bs, v i ≠ .arena bs := fun bs heq => by
        rw [hv] at heq
        cases heq
      refine ⟨_, ⟨fl, (c.countFree (n % 2 ^ 32)).destroy hi hv⟩, fun hd _ _ => ?_, ?_, ?_,
        fun _ _ => SameOn.refl _ _, fun hclear => ?_⟩
      · exact (isBlock_update hi hna).mpr (.inl hd)
      · rintro d k ⟨j, hj, hvj, rfl⟩ hne
        have hij : j ≠ i := fun heq => hne (by rw [heq])
        exact ⟨j, hj, by rw [Function.update_of_ne hij, hvj], by
          change _ = (Function.update h.segs i .empty j).base
          rw [Function.update_of_ne hij]⟩
      · intro d e hd
        rcases (isBlock_update hi hna).mp hd with hd | ⟨bs, heq, -⟩
        · exact ⟨e, hd⟩
        · cases heq
      · refine hclear.congr (fun {j bs} _ hvj => ?_) (SameOn.refl _ _)
        have hij : j ≠ i := by
          rintro rfl
          rw [Function.update_self] at hvj
          cases hvj
        rw [Function.update_of_ne hij] at hvj
        refine ⟨⟨bs, hvj⟩, ?_⟩
        change (Function.update h.segs i .empty j).base = _
        rw [Function.update_of_ne hij]

end Crt64
