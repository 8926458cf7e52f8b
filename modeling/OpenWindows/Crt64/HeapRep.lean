import OpenWindows.Crt64.HeapList

/-!
# What a heap state represents

`Rep` says that a state of the heap represents a layout and a free list.  Each
of the block operations changes what is represented in one way: linking and
unlinking change the list, stamping replaces blocks of an arena by others, and
splitting does both.  While a block is split one of its parts has no header yet.
Its address is in the set `skip` then.

`Coherent` is what holds between calls: nothing is skipped, every free block is in
the list and no two free blocks are neighbours.
-/

namespace Crt64

open Memory Tiling

/-- The segments are laid out as `v`, and `fl` is the free list. -/
structure Rep (skip : Nat → Prop) (h : Heap) (v : Layout) (fl : List Nat) : Prop where
  shape : Shape skip h.mem h.segs v
  chained : Chained h.mem fl
  head : h.freeHead = fl.headD 0
  nodup : fl.Nodup
  free : ∀ {f}, f ∈ fl → ∃ b, IsBlock h.segs v f b ∧ b.used = false

/-- Nothing is left to be stamped. -/
def allStamped : Nat → Prop := fun _ => False

/-- One of two neighbours is in use. -/
def Merged (b c : Blk) : Prop := b.used = true ∨ c.used = true

/-- The state of the heap between calls. -/
structure Coherent (h : Heap) (v : Layout) (fl : List Nat) : Prop extends
    Rep allStamped h v fl where
  all : ∀ {a b}, IsBlock h.segs v a b → b.used = false → a ∈ fl
  merged : ∀ {i bs}, i < segMax → v i = .arena bs → bs.IsChain Merged

variable {skip skip' : Nat → Prop} {h : Heap} {v : Layout} {fl p q : List Nat} {x : Nat}

/-- The heap `h'` is `h`, but for the head of the list and the bytes off `P`. -/
structure SameBut (P : Nat → Prop) (h h' : Heap) : Prop where
  segs : h'.segs = h.segs
  stats : h'.stats = h.stats
  corrupt : h'.corrupt = h.corrupt
  mem : SameOn P h.mem h'.mem

section SameBut

variable {P Q : Nat → Prop} {h' h'' : Heap}

theorem SameBut.refl (P : Nat → Prop) (h : Heap) : SameBut P h h :=
  ⟨rfl, rfl, rfl, SameOn.refl _ _⟩

theorem SameBut.trans (hs : SameBut P h h') (hs' : SameBut P h' h'') : SameBut P h h'' :=
  ⟨hs'.segs.trans hs.segs, hs'.stats.trans hs.stats, hs'.corrupt.trans hs.corrupt,
    hs.mem.trans hs'.mem⟩

theorem SameBut.mono (hs : SameBut P h h') (hPQ : ∀ y, Q y → P y) : SameBut Q h h' :=
  ⟨hs.segs, hs.stats, hs.corrupt, hs.mem.mono hPQ⟩

theorem SameBut.write {m : Mem} (hs : SameOn P h.mem m) : SameBut P h { h with mem := m } :=
  ⟨rfl, rfl, rfl, hs⟩

end SameBut

/-! ## The list -/

theorem Shape.spaced {m : Mem} {segs : Nat → Seg} (hsh : Shape skip m segs v) (hnd : fl.Nodup)
    (hfree : ∀ {f}, f ∈ fl → ∃ b, IsBlock segs v f b ∧ b.used = false) : Spaced fl where
  nodup := hnd
  pos hf := by
    obtain ⟨b, hb, -⟩ := hfree hf
    have := hsh.isBlock_fit hb
    omega
  apart hf hg hne := by
    obtain ⟨b, hb, -⟩ := hfree hf
    obtain ⟨c, hc, -⟩ := hfree hg
    have := hsh.isBlock_fit hb
    have := hsh.isBlock_fit hc
    rcases hsh.isBlock_apart hb hc with ⟨heq, -⟩ | hap
    · exact absurd heq hne
    · omega

theorem Rep.spaced (r : Rep skip h v fl) : Spaced fl := r.shape.spaced r.nodup r.free

theorem Shape.payload_of_linkByte {m : Mem} {segs : Nat → Seg} (hsh : Shape skip m segs v)
    (hfl : ∀ {f}, f ∈ fl → ∃ b, IsBlock segs v f b ∧ b.used = false) (hx : LinkByte fl x) :
    Payload segs v x := by
  obtain ⟨f, hf, hlo, hhi⟩ := hx
  obtain ⟨b, hb, -⟩ := hfl hf
  have := hsh.isBlock_fit hb
  exact .inl ⟨f, b, hb, by omega, by omega⟩

theorem Rep.held_of_linkByte (r : Rep skip h v fl) (hx : LinkByte fl x) : Held h.segs x := by
  obtain ⟨f, hf, hlo, hhi⟩ := hx
  obtain ⟨b, ⟨j, hj, bs, hvj, hmem⟩, -⟩ := r.free hf
  have hp := r.shape.place_fit hj hvj hmem
  exact ⟨j, hj, r.shape.active_of_arena hj hvj, by omega, by omega⟩

@[simp] theorem blkFreeLink_segs (h : Heap) (x : Nat) : (blkFreeLink h x).segs = h.segs := rfl

@[simp] theorem blkFreeUnlink_segs (h : Heap) (x : Nat) : (blkFreeUnlink h x).segs = h.segs := by
  rw [blkFreeUnlink_eq]

theorem Rep.link (r : Rep skip h v fl) {b : Blk} (hx : IsBlock h.segs v x b)
    (hb : b.used = false) (hnot : x ∉ fl) :
    Rep skip (blkFreeLink h x) v (x :: fl) ∧
      SameBut (fun y => ¬ LinkByte (x :: fl) y) h (blkFreeLink h x) := by
  have hfree : ∀ {f}, f ∈ x :: fl → ∃ b, IsBlock h.segs v f b ∧ b.used = false := by
    intro f hf
    rcases List.mem_cons.mp hf with rfl | hf
    · exact ⟨b, hx, hb⟩
    · exact r.free hf
  have hnodup : (x :: fl).Nodup := List.nodup_cons.mpr ⟨hnot, r.nodup⟩
  have hsp : Spaced (x :: fl) := r.shape.spaced hnodup hfree
  obtain ⟨m', heq, hch, hsame⟩ := blkFreeLink_spec r.chained r.head hsp
  rw [heq]
  refine ⟨⟨r.shape.congr (hsame.mono fun y hy hl => ?_), hch, rfl, hnodup, hfree⟩,
    ⟨rfl, rfl, rfl, hsame⟩⟩
  exact hy.2 (r.shape.payload_of_linkByte hfree hl)

theorem Rep.unlink (r : Rep skip h v (p ++ x :: q)) :
    Rep skip (blkFreeUnlink h x) v (p ++ q) ∧
      SameBut (fun y => ¬ LinkByte (p ++ q) y) h (blkFreeUnlink h x) := by
  have hfree : ∀ {f}, f ∈ p ++ q → ∃ b, IsBlock h.segs v f b ∧ b.used = false :=
    fun hf => r.free (mem_append_cons hf)
  obtain ⟨m', heq, hch, hsame⟩ := blkFreeUnlink_spec r.chained r.head r.spaced
  rw [heq]
  refine ⟨⟨r.shape.congr (hsame.mono fun y hy hl => ?_), hch, rfl, r.spaced.tail.nodup, hfree⟩,
    ⟨rfl, rfl, rfl, hsame⟩⟩
  exact hy.2 (r.shape.payload_of_linkByte hfree hl)

/-! ## Stamps -/

section Stamp

variable {i : Nat} {pre mid mid' post : List Blk}

theorem replaceIn_self (hv : v i = .arena (pre ++ mid ++ post)) :
    replaceIn v i (pre ++ mid ++ post) = v := by
  rw [replaceIn, ← hv, Function.update_eq_self]

@[simp] theorem replaceIn_replaceIn (v : Layout) (i : Nat) (bs cs : List Blk) :
    replaceIn (replaceIn v i bs) i cs = replaceIn v i cs := Function.update_idem ..

@[simp] theorem replaceIn_same (v : Layout) (i : Nat) (bs : List Blk) :
    replaceIn v i bs i = .arena bs := Function.update_self ..

theorem Shape.isBlock_cases {m : Mem} {segs : Nat → Seg} (hsh : Shape skip m segs v)
    (hi : i < segMax) (hv : v i = .arena (pre ++ mid ++ post)) {a : Nat} {b : Blk}
    (hb : IsBlock segs v a b) :
    (a + b.size ≤ blockAddr (segs i) pre ∨ blockAddr (segs i) pre + extent Blk.size mid ≤ a) ∨
      (a, b) ∈ place Blk.size (blockAddr (segs i) pre) mid := by
  have hcases := hsh.isBlock_replace hi hv (Eq.refl (extent Blk.size mid)) (a := a) (b := b)
  rw [replaceIn_self hv] at hcases
  rcases hcases.mp hb with ⟨-, hout⟩ | hin
  · exact .inl hout
  · exact .inr hin

theorem Rep.stamp (r : Rep skip h v fl) (hi : i < segMax)
    (hv : v i = .arena (pre ++ mid ++ post)) (hext : extent Blk.size mid' = extent Blk.size mid)
    (hbig : ∀ b ∈ mid', 44 ≤ b.size)
    (hfl : ∀ {f b}, f ∈ fl → (f, b) ∉ place Blk.size (blockAddr (h.segs i) pre) mid)
    (hskip : ∀ {a b}, IsBlock h.segs v a b → ¬ skip' a → skip a →
      blockAddr (h.segs i) pre ≤ a ∧ a < blockAddr (h.segs i) pre + extent Blk.size mid)
    {m' : Mem}
    (hblocks : ∀ {a b}, (a, b) ∈ place Blk.size (blockAddr (h.segs i) pre) mid' → ¬ skip' a →
      BlockAt m' a b)
    (hsame : SameOn (fun x => x < blockAddr (h.segs i) pre ∨
      blockAddr (h.segs i) pre + extent Blk.size mid ≤ x) h.mem m') :
    Rep skip' { h with mem := m' } (replaceIn v i (pre ++ mid' ++ post)) fl := by
  have hout : ∀ {f b}, f ∈ fl → IsBlock h.segs v f b →
      f + b.size ≤ blockAddr (h.segs i) pre ∨
        blockAddr (h.segs i) pre + extent Blk.size mid ≤ f := by
    intro f b hf hb
    rcases r.shape.isBlock_cases hi hv hb with hout | hin
    · exact hout
    · exact absurd hin (hfl hf)
  refine ⟨r.shape.replace hi hv hext hbig hskip hblocks hsame, ?_, r.head, r.nodup, ?_⟩
  · refine r.chained.congr (hsame.mono fun y hy => ?_)
    obtain ⟨f, hf, hlo, hhi⟩ := hy
    obtain ⟨b, hb, -⟩ := r.free hf
    have := r.shape.isBlock_fit hb
    have := hout hf hb
    omega
  · intro f hf
    obtain ⟨b, hb, hused⟩ := r.free hf
    exact ⟨b, (r.shape.isBlock_replace hi hv hext).mpr (.inl ⟨hb, hout hf hb⟩), hused⟩

theorem Rep.stampOne (r : Rep skip h v fl) (hi : i < segMax)
    (hv : v i = .arena (pre ++ mid ++ post)) {b : Blk} (hext : b.size = extent Blk.size mid)
    (hbig : 44 ≤ b.size)
    (hfl : ∀ {f c}, f ∈ fl → (f, c) ∉ place Blk.size (blockAddr (h.segs i) pre) mid)
    (hskip : ∀ {a c}, IsBlock h.segs v a c → skip a →
      blockAddr (h.segs i) pre ≤ a ∧ a < blockAddr (h.segs i) pre + extent Blk.size mid) :
    Rep allStamped { h with mem := blkStamp h.mem (blockAddr (h.segs i) pre) b.size b.flags }
      (replaceIn v i (pre ++ [b] ++ post)) fl := by
  have harena := r.shape.arena hi hv
  have hlt : b.size < 2 ^ 32 := by
    have htiles := harena.tiles
    simp only [extent_append, arenaBytes, segHdr, endBlockSize, segmentDefault] at htiles
    omega
  obtain ⟨hat, hsame⟩ := blkStamp_spec h.mem (blockAddr (h.segs i) pre) hbig hlt
  refine r.stamp hi hv (by simpa [extent] using hext) (by simpa using hbig) hfl ?_ ?_ ?_
  · intro a c hb _ hs
    exact hskip hb hs
  · intro a c hmem _
    rcases List.mem_cons.mp hmem with heq | hmem
    · cases heq
      exact hat
    · cases hmem
  · rwa [← hext]

end Stamp

/-! ## Splitting -/

/-- The blocks that a free block of `size` bytes becomes when `user` bytes of it are taken. -/
def carved (size user : Nat) (used : Bool) : List Blk :=
  if size < user + 72 then [⟨size, used⟩] else [⟨user + 28, used⟩, ⟨size - (user + 28), false⟩]

def carvedList (size user x : Nat) (fl : List Nat) : List Nat :=
  if size < user + 72 then fl else (x + (user + 28)) :: fl

/-- The size of the block that is taken. -/
def carvedSize (size user : Nat) : Nat := if size < user + 72 then size else user + 28

section Split

variable {i size user : Nat} {pre post : List Blk}

theorem mem_place_singleton {a f : Nat} {b c : Blk} :
    (f, c) ∈ place Blk.size a [b] ↔ f = a ∧ c = b := by
  simp [place]

variable {b : Blk}

theorem isBlock_behind (segs : Nat → Seg) (hi : i < segMax) {bs : List Blk}
    (hv : v i = .arena (pre ++ b :: bs)) : IsBlock segs v (blockAddr (segs i) pre) b :=
  ⟨i, hi, _, hv, mem_place_iff.mpr ⟨pre, bs, rfl, rfl⟩⟩

theorem Shape.blockAt {m : Mem} {segs : Nat → Seg} (hsh : Shape skip m segs v) {a : Nat}
    (hb : IsBlock segs v a b) (hskip : ¬ skip a) : BlockAt m a b := by
  obtain ⟨i, hi, bs, hv, hmem⟩ := hb
  exact (hsh.arena hi hv).blocks hmem hskip

theorem not_mem_place_singleton (hnot : x ∉ fl) {f : Nat} {c : Blk} (hf : f ∈ fl) :
    (f, c) ∉ place Blk.size x [b] := fun hc => hnot ((mem_place_singleton.mp hc).1 ▸ hf)

theorem Rep.setUsed (r : Rep allStamped h v fl) (hi : i < segMax)
    (hv : v i = .arena (pre ++ b :: post)) (hx : x = blockAddr (h.segs i) pre) (hnot : x ∉ fl) :
    Rep allStamped { h with mem := blkStamp h.mem x b.size flagUsed }
      (replaceIn v i (pre ++ ⟨b.size, true⟩ :: post)) fl := by
  have hv' : v i = .arena (pre ++ [b] ++ post) := by simpa using hv
  have hsz := r.shape.isBlock_fit (isBlock_behind h.segs hi hv)
  subst hx
  have hstamp := r.stampOne hi hv' (b := ⟨b.size, true⟩) (by simp [extent]) hsz.2.2.1
    (fun hf => not_mem_place_singleton hnot hf) fun _ hs => hs.elim
  simpa [Blk.flags] using hstamp

def splitAt (h : Heap) (x size user : Nat) : Heap :=
  let h := { h with mem := blkStamp h.mem (x + (user + 28)) (size - (user + 28)) 0 }
  let h := blkFreeLink h (x + (user + 28))
  { h with mem := blkStamp h.mem x (user + 28) 0 }

theorem blkSplit_eq (hload : loadU32 h.mem x = size) :
    blkSplit h x user =
      if size < user + 72 then (false, h) else (true, splitAt h x size user) := by
  have htake : blkHdr + user + blkCnary + blkFtar = user + 28 := by
    unfold blkHdr blkCnary blkFtar
    omega
  unfold blkSplit minFreeTotal
  rw [hload, htake]
  rfl

theorem Rep.split (r : Rep allStamped h v fl) (hi : i < segMax)
    (hv : v i = .arena (pre ++ ⟨size, false⟩ :: post)) (hx : x = blockAddr (h.segs i) pre)
    (hnot : x ∉ fl) (huser : 16 ≤ user) (hfit : user + 72 ≤ size) :
    Rep allStamped (splitAt h x size user) (replaceIn v i
      (pre ++ ⟨user + 28, false⟩ :: ⟨size - (user + 28), false⟩ :: post))
      ((x + (user + 28)) :: fl) ∧
    SameBut (fun y => (y < x ∨ x + size ≤ y) ∧ ¬ LinkByte fl y) h (splitAt h x size user) := by
  have hv' : v i = .arena (pre ++ [⟨size, false⟩] ++ post) := by simpa using hv
  have hblk : IsBlock h.segs v x ⟨size, false⟩ := hx ▸ isBlock_behind _ hi hv
  have hsz := r.shape.isBlock_fit hblk
  dsimp only at hsz
  -- the second part is stamped first, and the first part has the old header
  have hsecond := blkStamp_spec h.mem (x + (user + 28)) (b := ⟨size - (user + 28), false⟩)
    (by dsimp only; omega) (by dsimp only; omega)
  have r1 : Rep (· = x)
      { h with mem := blkStamp h.mem (x + (user + 28)) (size - (user + 28)) 0 }
      (replaceIn v i (pre ++ [⟨user + 28, false⟩, ⟨size - (user + 28), false⟩] ++ post)) fl := by
    refine r.stamp hi hv' (by simp [extent]; omega) ?_ ?_ (fun _ _ hs => hs.elim) ?_ ?_
    · intro b hb
      rcases List.mem_cons.mp hb with rfl | hb
      · dsimp only
        omega
      · rw [List.mem_singleton.mp hb]
        dsimp only
        omega
    · rw [← hx]
      exact fun hf => not_mem_place_singleton hnot hf
    · intro a b hmem hne
      rw [← hx] at hmem
      rcases List.mem_cons.mp hmem with heq | hmem
      · cases heq
        exact absurd rfl hne
      · obtain ⟨rfl, rfl⟩ := mem_place_singleton.mp hmem
        exact hsecond.1
    · refine hsecond.2.mono fun y hy => ?_
      rw [← hx] at hy
      simp only [extent] at hy
      dsimp only
      omega
  rw [List.append_assoc, List.cons_append, List.cons_append, List.nil_append] at r1
  -- it goes in front of the list
  have hvsplit : replaceIn v i (pre ++ ⟨user + 28, false⟩ :: ⟨size - (user + 28), false⟩ :: post) i
      = .arena ((pre ++ [⟨user + 28, false⟩]) ++ ⟨size - (user + 28), false⟩ :: post) := by
    rw [replaceIn_same, List.append_assoc, List.singleton_append]
  have hrest : IsBlock h.segs
      (replaceIn v i (pre ++ ⟨user + 28, false⟩ :: ⟨size - (user + 28), false⟩ :: post))
      (x + (user + 28)) ⟨size - (user + 28), false⟩ := by
    have hb := isBlock_behind h.segs hi hvsplit
    rwa [show blockAddr (h.segs i) (pre ++ [⟨user + 28, false⟩]) = x + (user + 28) by
      rw [hx]; simp [blockAddr, extent, extent_append, Nat.add_assoc]] at hb
  have hnotrest : x + (user + 28) ∉ fl := by
    intro hf
    obtain ⟨b, hb, -⟩ := r.free hf
    have := r.shape.isBlock_fit hb
    rcases r.shape.isBlock_apart hb hblk with ⟨heq, -⟩ | hap
    · omega
    · dsimp only at hap
      omega
  obtain ⟨r2, hlink⟩ := r1.link hrest rfl hnotrest
  -- and the first part is stamped
  have r3 := r2.stampOne hi hvsplit (b := ⟨user + 28, false⟩) (by simp [extent])
    (by dsimp only; omega)
    (by
      intro f c hf hc
      rw [blkFreeLink_segs, ← hx] at hc
      obtain ⟨rfl, -⟩ := mem_place_singleton.mp hc
      rcases List.mem_cons.mp hf with heq | hf
      · omega
      · exact hnot hf)
    (by
      intro a c _ hs
      rw [blkFreeLink_segs, ← hx, hs]
      simp [extent])
  rw [replaceIn_replaceIn, List.append_assoc, List.singleton_append, blkFreeLink_segs, ← hx] at r3
  refine ⟨r3, ?_⟩
  -- all writes are to the block or to pointers of the list
  have hfirst := blkStamp_spec
    (blkFreeLink { h with mem := blkStamp h.mem (x + (user + 28)) (size - (user + 28)) 0 }
      (x + (user + 28))).mem x (b := ⟨user + 28, false⟩) (by dsimp only; omega)
    (by dsimp only; omega)
  refine ((SameBut.write (hsecond.2.mono fun y hy => ?_)).trans (hlink.mono fun y hy => ?_)).trans
    (SameBut.write (hfirst.2.mono fun y hy => ?_))
  · dsimp only
    omega
  · rintro ⟨f, hf, hlo, hhi⟩
    rcases List.mem_cons.mp hf with rfl | hf
    · omega
    · exact hy.2 ⟨f, hf, hlo, hhi⟩
  · dsimp only
    omega

theorem Rep.carve (r : Rep allStamped h v fl) (hi : i < segMax)
    (hv : v i = .arena (pre ++ ⟨size, false⟩ :: post)) (hx : x = blockAddr (h.segs i) pre)
    (hnot : x ∉ fl) (huser : 16 ≤ user) :
    loadU32 (blkSplit h x user).2.mem x = carvedSize size user ∧
      Rep allStamped { (blkSplit h x user).2 with
          mem := blkStamp (blkSplit h x user).2.mem x (carvedSize size user) flagUsed }
        (replaceIn v i (pre ++ carved size user true ++ post)) (carvedList size user x fl) ∧
      SameBut (fun y => (y < x ∨ x + size ≤ y) ∧ ¬ LinkByte fl y) h { (blkSplit h x user).2 with
        mem := blkStamp (blkSplit h x user).2.mem x (carvedSize size user) flagUsed } := by
  have hblk : IsBlock h.segs v x ⟨size, false⟩ := hx ▸ isBlock_behind _ hi hv
  have hload : loadU32 h.mem x = size := (r.shape.blockAt hblk id).size
  have hsz := r.shape.isBlock_fit hblk
  have hstamp : ∀ {m : Mem} {n : Nat}, n ≤ size → 44 ≤ n → n < 2 ^ 32 →
      SameOn (fun y => (y < x ∨ x + size ≤ y) ∧ ¬ LinkByte fl y) m (blkStamp m x n flagUsed) := by
    intro m n hle hbig hlt
    exact (blkStamp_spec m x (b := ⟨n, true⟩) hbig hlt).2.mono fun y hy => by dsimp only; omega
  rw [blkSplit_eq hload]
  unfold carvedSize carved carvedList
  by_cases hsplit : size < user + 72
  · rw [if_pos hsplit, if_pos hsplit, if_pos hsplit, if_pos hsplit]
    refine ⟨hload, by simpa using r.setUsed hi hv hx hnot, SameBut.write ?_⟩
    exact hstamp (Nat.le_refl _) (by dsimp only at hsz; omega) hsz.2.2.2
  · obtain ⟨r', hsame⟩ := r.split hi hv hx hnot huser (by omega)
    rw [if_neg hsplit, if_neg hsplit, if_neg hsplit, if_neg hsplit]
    have hfirst := isBlock_behind h.segs hi (replaceIn_same v i
      (pre ++ ⟨user + 28, false⟩ :: ⟨size - (user + 28), false⟩ :: post))
    rw [← hx] at hfirst
    have hused := r'.setUsed hi (replaceIn_same ..) hx (by
      intro hmem
      rcases List.mem_cons.mp hmem with heq | hmem
      · omega
      · exact hnot hmem)
    refine ⟨(r'.shape.blockAt hfirst id).size, by simpa using hused,
      hsame.trans (SameBut.write ?_)⟩
    exact hstamp (by omega) (by omega) (by dsimp only at hsz; omega)

end Split

/-! ## Segments -/

section Segment

variable {m m' : Mem} {segs : Nat → Seg} {i : Nat} {s : Seg} {view : SegView}

theorem isBlock_update (hi : i < segMax) (hv : ∀ bs, v i ≠ .arena bs) {a : Nat} {b : Blk} :
    IsBlock (Function.update segs i s) (Function.update v i view) a b ↔
      IsBlock segs v a b ∨
        ∃ bs, view = .arena bs ∧ (a, b) ∈ place Blk.size (s.base + segHdr) bs := by
  constructor
  · rintro ⟨j, hj, bs, hvj, hmem⟩
    by_cases hij : j = i
    · subst hij
      rw [Function.update_self] at hvj hmem
      exact .inr ⟨bs, hvj, hmem⟩
    · rw [Function.update_of_ne hij] at hvj hmem
      exact .inl ⟨j, hj, bs, hvj, hmem⟩
  · rintro (⟨j, hj, bs, hvj, hmem⟩ | ⟨bs, hview, hmem⟩)
    · have hij : j ≠ i := fun heq => hv bs (heq ▸ hvj)
      exact ⟨j, hj, bs, by rw [Function.update_of_ne hij, hvj],
        by rwa [Function.update_of_ne hij]⟩
    · exact ⟨i, hi, bs, by rw [Function.update_self, hview], by rwa [Function.update_self]⟩

theorem Shape.update (hsh : Shape skip m segs v) (hact : s.active = true ↔ view ≠ .none)
    (hfit : s.active = true → 0x1000 ≤ s.base ∧ s.base + s.size ≤ 2 ^ 64)
    (hapart : s.active = true → ∀ {j}, j < segMax → j ≠ i → (segs j).active = true →
      s.base + s.size ≤ (segs j).base ∨ (segs j).base + (segs j).size ≤ s.base)
    (hsame : SameOn (Held segs) m m')
    (harena : ∀ {bs}, view = .arena bs → ArenaAt skip m' s bs)
    (hlarge : ∀ {user}, view = .large user → LargeAt m' s i user) :
    Shape skip m' (Function.update segs i s) (Function.update v i view) := by
  have hsh' : Shape skip m' segs v := hsh.congr (hsame.mono fun _ hx => hx.1)
  refine ⟨?_, ?_, ?_, ?_, ?_⟩
  · intro j hj ha
    by_cases hij : j = i
    · subst hij
      rw [Function.update_self] at ha ⊢
      exact hfit ha
    · rw [Function.update_of_ne hij] at ha ⊢
      exact hsh.fit hj ha
  · intro j k hj hk hjk ha hb
    by_cases hij : j = i
    · subst hij
      rw [Function.update_self] at ha ⊢
      rw [Function.update_of_ne (Ne.symm hjk)] at hb ⊢
      exact hapart ha hk (Ne.symm hjk) hb
    · rw [Function.update_of_ne hij] at ha ⊢
      by_cases hik : k = i
      · subst hik
        rw [Function.update_self] at hb ⊢
        exact (hapart hb hj hij ha).symm
      · rw [Function.update_of_ne hik] at hb ⊢
        exact hsh.apart hj hk hjk ha hb
  · intro j hj
    by_cases hij : j = i
    · subst hij
      rwa [Function.update_self, Function.update_self]
    · rw [Function.update_of_ne hij, Function.update_of_ne hij]
      exact hsh.active hj
  · intro j bs hj hvj
    by_cases hij : j = i
    · subst hij
      rw [Function.update_self] at hvj ⊢
      exact harena hvj
    · rw [Function.update_of_ne hij] at hvj ⊢
      exact hsh'.arena hj hvj
  · intro j user hj hvj
    by_cases hij : j = i
    · subst hij
      rw [Function.update_self] at hvj ⊢
      exact hlarge hvj
    · rw [Function.update_of_ne hij] at hvj ⊢
      exact hsh'.large hj hvj

theorem Rep.update {h' : Heap} (r : Rep skip h v fl)
    (hsh : Shape skip h'.mem h'.segs (Function.update v i view))
    (hsegs : h'.segs = Function.update h.segs i s) (hhead : h'.freeHead = h.freeHead)
    (hi : i < segMax) (hv : ∀ bs, v i ≠ .arena bs) (hsame : SameOn (Held h.segs) h.mem h'.mem) :
    Rep skip h' (Function.update v i view) fl := by
  refine ⟨hsh, ?_, by rw [hhead, r.head], r.nodup, ?_⟩
  · exact r.chained.congr (hsame.mono fun y hy => r.held_of_linkByte hy)
  · intro f hf
    obtain ⟨b, hb, hfree⟩ := r.free hf
    rw [hsegs]
    exact ⟨b, (isBlock_update hi hv).mpr (.inl hb), hfree⟩

end Segment

theorem Coherent.congr {h' : Heap} (c : Coherent h v fl) (hmem : h'.mem = h.mem)
    (hsegs : h'.segs = h.segs) (hhead : h'.freeHead = h.freeHead) : Coherent h' v fl := by
  obtain ⟨⟨hsh, hch, hh, hnd, hfree⟩, hall, hmerged⟩ := c
  refine ⟨⟨?_, ?_, ?_, hnd, ?_⟩, ?_, hmerged⟩
  · rwa [hmem, hsegs]
  · rwa [hmem]
  · rwa [hhead]
  · rwa [hsegs]
  · rwa [hsegs]

/-! ## Allocations -/

/-- The caller holds `n` bytes at `p`: in a block in use, or as a large allocation. -/
def Owns (segs : Nat → Seg) (v : Layout) (p n : Nat) : Prop :=
  (∃ a b, p = a + 16 ∧ IsBlock segs v a b ∧ b.used = true ∧ n + 28 ≤ b.size) ∨
    ∃ a, p = a + 16 ∧ IsLarge segs v a n

/-- A byte in front of the first block of an arena, behind the header of the segment. -/
def ArenaHead (segs : Nat → Seg) (v : Layout) (y : Nat) : Prop :=
  ∃ i, i < segMax ∧ (∃ bs, v i = .arena bs) ∧ (segs i).base + 16 ≤ y ∧ y < (segs i).base + segHdr

variable {y : Nat} {m : Mem} {segs : Nat → Seg}

theorem Shape.arenaHead_apart (hsh : Shape skip m segs v)
    (hy : ArenaHead segs v y) {b : Blk} (hb : IsBlock segs v x b) : y < x ∨ x + b.size ≤ y := by
  obtain ⟨j, hj, ⟨cs, hvj⟩, hlo, hhi⟩ := hy
  obtain ⟨i, hi, bs, hv, hmem⟩ := hb
  have hp := hsh.place_fit hi hv hmem
  have hhdr : segHdr = 32 := rfl
  by_cases hij : i = j
  · subst hij
    omega
  · have hap := hsh.apart hi hj hij (hsh.active_of_arena hi hv) (hsh.active_of_arena hj hvj)
    have hsize : (segs j).size = segHdr + arenaBytes + 24 := (hsh.arena hj hvj).size
    omega

theorem Shape.arenaHead_isLarge (hsh : Shape skip m segs v) {y n : Nat}
    (hy : ArenaHead segs v y) (hl : IsLarge segs v x n) : y < x ∨ x + 20 + n ≤ y := by
  obtain ⟨j, hj, ⟨cs, hvj⟩, hlo, hhi⟩ := hy
  obtain ⟨i, hi, hv, rfl⟩ := hl
  have hij : i ≠ j := by
    rintro rfl
    rw [hv] at hvj
    cases hvj
  have hroom := (hsh.large hi hv).room
  have hap := hsh.apart hi hj hij (hsh.active_of_large hi hv) (hsh.active_of_arena hj hvj)
  have hsize : (segs j).size = segHdr + arenaBytes + 24 := (hsh.arena hj hvj).size
  omega

/-- A byte that calls for other allocations leave alone: in the payload of a block in use or of a
large allocation, or in front of the first block of an arena. -/
def Busy (segs : Nat → Seg) (v : Layout) (y : Nat) : Prop :=
  (∃ a b, IsBlock segs v a b ∧ b.used = true ∧ Inside a b y) ∨
    (∃ a n, IsLarge segs v a n ∧ a + 16 ≤ y ∧ y < a + 16 + n) ∨ ArenaHead segs v y

theorem Owns.busy {p n y : Nat} (hown : Owns segs v p n) (hlo : p ≤ y)
    (hhi : y < p + n) : Busy segs v y := by
  rcases hown with ⟨a, b, rfl, hb, hused, hle⟩ | ⟨a, rfl, hl⟩
  · exact .inl ⟨a, b, hb, hused, by omega, by omega⟩
  · exact .inr (.inl ⟨a, n, hl, by omega, by omega⟩)

theorem Shape.busy_apart (hsh : Shape skip m segs v)
    (hy : Busy segs v y) {b : Blk} (hb : IsBlock segs v x b) (hfree : b.used = false) :
    y < x ∨ x + b.size ≤ y := by
  rcases hy with ⟨a, d, hd, hused, hlo, hhi⟩ | ⟨a, n, hl, hlo, hhi⟩ | hhead
  · rcases hsh.isBlock_apart hd hb with ⟨-, rfl⟩ | hap
    · rw [hused] at hfree
      cases hfree
    · omega
  · have hap := hsh.isBlock_isLarge_apart hb hl
    omega
  · exact hsh.arenaHead_apart hhead hb

theorem Rep.not_linkByte (r : Rep skip h v fl) (hy : Busy h.segs v y) : ¬ LinkByte fl y := by
  rintro ⟨f, hf, hlo, hhi⟩
  obtain ⟨b, hb, hfree⟩ := r.free hf
  have hsz := r.shape.isBlock_fit hb
  have hap := r.shape.busy_apart hy hb hfree
  omega

theorem IsLarge.replace {i a n : Nat} {bs cs : List Blk}
    (hl : IsLarge segs v a n) (hv : v i = .arena bs) : IsLarge segs (replaceIn v i cs) a n := by
  obtain ⟨j, hj, hvj, rfl⟩ := hl
  have hij : j ≠ i := by
    rintro rfl
    rw [hv] at hvj
    cases hvj
  exact ⟨j, hj, by rw [replaceIn, Function.update_of_ne hij, hvj], rfl⟩

theorem IsLarge.update {i a n : Nat} {s : Seg} {view : SegView}
    (hl : IsLarge segs v a n) (hother : v i = .large n → a ≠ (segs i).base) :
    IsLarge (Function.update segs i s) (Function.update v i view) a n := by
  obtain ⟨j, hj, hvj, rfl⟩ := hl
  have hij : j ≠ i := by
    rintro rfl
    exact hother hvj rfl
  exact ⟨j, hj, by rw [Function.update_of_ne hij, hvj], by rw [Function.update_of_ne hij]⟩

theorem Shape.busy_held (hsh : Shape skip m segs v) (hy : Busy segs v y) : Held segs y := by
  rcases hy with ⟨a, b, ⟨j, hj, bs, hv, hmem⟩, -, hlo, hhi⟩ | ⟨a, n, ⟨j, hj, hv, rfl⟩, hlo, hhi⟩ |
    ⟨j, hj, ⟨bs, hv⟩, hlo, hhi⟩
  · have hp := hsh.place_fit hj hv hmem
    exact ⟨j, hj, hsh.active_of_arena hj hv, by omega, by omega⟩
  · have hroom := (hsh.large hj hv).room
    exact ⟨j, hj, hsh.active_of_large hj hv, by omega, by omega⟩
  · have hsize : (segs j).size = segHdr + arenaBytes + 24 := (hsh.arena hj hv).size
    exact ⟨j, hj, hsh.active_of_arena hj hv, by omega, by omega⟩

/-! ## In front of the first block -/

/-- The footer of a free block seems to stand at `p`. -/
def FreeFoot (m : Mem) (p : Nat) : Prop :=
  freeFlags (loadU32 m (p + 4)) = true ∧ minFreeTotal ≤ loadU32 m p

instance (m : Mem) (p : Nat) : Decidable (FreeFoot m p) := inferInstanceAs (Decidable (_ ∧ _))

/-- In front of no first block of an arena one seems to stand. -/
def Clear (h : Heap) (v : Layout) : Prop :=
  ∀ i bs, i < segMax → v i = .arena bs →
    ¬ FreeFoot h.mem ((h.segs i).base + segHdr - blkFtar)

theorem FreeFoot.congr {m m' : Mem} {p : Nat} (hf : FreeFoot m' p)
    (hs : SameOn (fun y => p ≤ y ∧ y < p + 8) m m') : FreeFoot m p := by
  have hload : ∀ {a}, p ≤ a → a + 4 ≤ p + 8 → loadU32 m' a = loadU32 m a :=
    fun h1 h2 => hs.loadNum_eq fun y hy hy' => ⟨by omega, by omega⟩
  unfold FreeFoot at hf ⊢
  rwa [hload (by omega) (by omega), hload (by omega) (by omega)] at hf

theorem Clear.congr {h' : Heap} {v' : Layout} (hc : Clear h v)
    (harena : ∀ {i bs}, i < segMax → v' i = .arena bs →
      (∃ cs, v i = .arena cs) ∧ (h'.segs i).base = (h.segs i).base)
    (hs : SameOn (ArenaHead h.segs v) h.mem h'.mem) : Clear h' v' := by
  intro i bs hi hv hfoot
  obtain ⟨⟨cs, hcs⟩, hbase⟩ := harena hi hv
  rw [hbase] at hfoot
  refine hc i cs hi hcs (hfoot.congr (hs.mono fun y hy => ⟨i, hi, ⟨cs, hcs⟩, ?_, ?_⟩))
  · unfold segHdr blkFtar at hy
    omega
  · unfold segHdr blkFtar at hy
    unfold segHdr
    omega

/-! ## Other blocks -/

end Crt64
