import Mathlib.Data.List.Perm.Subperm
import OpenWindows.Crt64.HeapFree

/-!
# Taking blocks

`ow_malloc` walks along the free list and takes the first block that is large
enough, or else the first block of a fresh arena.  From the threshold on, it takes
a segment.  The kernel is a parameter.  What it promises is `Lends`: memory of its
own, page-aligned.  What it left in the memory for an arena is `Foul` when it has the
footer of a free block where the first block looks for one.  A kernel that is
`Honest`, and zeroes its memory, leaves nothing of the kind.

`Malloced` says what a call did: nothing, or it took a block, or a segment.
-/

namespace Crt64

open Memory Tiling

variable {h : Heap} {v : Layout} {fl : List Nat} {x i : Nat}

/-! ## The walk -/

theorem findFit_zero (m : Mem) (need fuel : Nat) : findFit m need fuel 0 = some 0 := by
  cases fuel <;> rfl

variable {m : Mem} {n size p : Nat} {b : Blk}

theorem findFit_succ {need it : Nat} (hit : it ≠ 0) : findFit m need (n + 1) it =
      if loadU32 m (it + 4) &&& flagUsed = 0 ∧ loadU32 m it ≥ need then some it
      else findFit m need n (loadU64 m (it + blkHdr)) := by
  cases it with
  | zero => exact absurd rfl hit
  | succ it => rfl

theorem Rep.findFit_suffix (r : Rep allStamped h v fl) (need : Nat) :
    ∀ (post pre : List Nat) (fuel : Nat), fl = pre ++ post → post.length ≤ fuel →
      ∃ it, findFit h.mem need fuel (post.headD 0) = some it ∧
        (it = 0 ∨ it ∈ fl ∧ ∃ b, IsBlock h.segs v it b ∧ b.used = false ∧ need ≤ b.size) := by
  intro post
  induction post with
  | nil => exact fun pre fuel _ _ => ⟨0, findFit_zero .., .inl rfl⟩
  | cons y post ih =>
    intro pre fuel hfl hfuel
    obtain ⟨n, rfl⟩ : ∃ n, fuel = n + 1 := ⟨fuel - 1, by simp at hfuel; omega⟩
    have hy : y ∈ fl := by simp [hfl]
    obtain ⟨b, hb, hfree⟩ := r.free hy
    have hat := r.shape.blockAt hb id
    have hpos := r.shape.isBlock_fit hb
    rw [List.headD_cons, findFit_succ (by omega), hat.size]
    split
    next hfound => exact ⟨y, rfl, .inr ⟨hy, b, hb, hfree, hfound.2⟩⟩
    · rw [(r.chained pre y post hfl).1]
      exact ih (pre ++ [y]) n (by simp [hfl]) (by simpa using hfuel)

theorem Rep.findFit_walk (r : Rep allStamped h v fl) (need : Nat) :
    ∃ it, findFit h.mem need walkBound h.freeHead = some it ∧
      (it = 0 ∨ it ∈ fl ∧ ∃ b, IsBlock h.segs v it b ∧ b.used = false ∧ need ≤ b.size) := by
  rw [r.head]
  refine r.findFit_suffix need fl [] walkBound rfl ?_
  -- there are no more addresses than that
  have hsub : fl ⊆ List.range walkBound := fun f hf =>
    List.mem_range.mpr (r.spaced.pos hf).2
  have hle := (r.nodup.subperm hsub).length_le
  rwa [List.length_range] at hle

/-! ## Carving a block -/

variable {pre post : List Blk} {segs : Nat → Seg} {v' : Layout}

theorem isChain_insert_used (hb : b.used = true)
    (hpre : pre.IsChain Merged) (hpost : post.IsChain Merged) :
    (pre ++ b :: post).IsChain Merged := by
  refine List.isChain_append.mpr ⟨hpre, ?_, ?_⟩
  · exact List.isChain_cons.mpr ⟨fun _ _ => .inl hb, hpost⟩
  · intro c _ d hd
    rw [List.head?_cons, Option.mem_some_iff] at hd
    exact .inr (hd ▸ hb)

theorem isChain_carved {user : Nat} (hm : (pre ++ ⟨size, false⟩ :: post).IsChain Merged) :
    (pre ++ carved size user true ++ post).IsChain Merged := by
  obtain ⟨hpre, htail, -⟩ := List.isChain_append.mp hm
  obtain ⟨hhead, hpost⟩ := List.isChain_cons.mp htail
  have hnext : ∀ c ∈ post.head?, c.used = true := fun c hc => by
    rcases hhead c hc with hc' | hc'
    · cases hc'
    · exact hc'
  unfold carved
  rw [List.append_assoc]
  split
  · exact isChain_insert_used rfl hpre hpost
  · refine isChain_insert_used rfl hpre ?_
    exact isChain_insert_free (List.IsChain.nil) hpost (by simp) hnext

theorem extent_carved (size user : Nat) (used used' : Bool) :
    extent Blk.size (carved size user used) = extent Blk.size [⟨size, used'⟩] := by
  unfold carved
  split
  · rfl
  · simp only [extent]
    omega

theorem Rep.carve_coherent {user : Nat} (r : Rep allStamped h v fl)
    (hi : i < segMax) (hv : v i = .arena (pre ++ ⟨size, false⟩ :: post))
    (hx : x = blockAddr (h.segs i) pre) (hnot : x ∉ fl) (huser : 16 ≤ user)
    (hall : ∀ {a b}, IsBlock h.segs v a b → b.used = false → a = x ∨ a ∈ fl)
    (hmerged : ∀ {j bs}, j < segMax → v j = .arena bs → bs.IsChain Merged) :
    Coherent { (blkSplit h x user).2 with
        mem := blkStamp (blkSplit h x user).2.mem x (carvedSize size user) flagUsed }
      (replaceIn v i (pre ++ carved size user true ++ post)) (carvedList size user x fl) := by
  obtain ⟨-, r', hsame⟩ := r.carve hi hv hx hnot huser
  have hsegs : (blkSplit h x user).2.segs = h.segs := hsame.segs
  have hv' : v i = .arena (pre ++ [⟨size, false⟩] ++ post) := by simpa using hv
  have hsz := r.shape.isBlock_fit (isBlock_behind h.segs hi hv)
  have hext : extent Blk.size (carved size user true) = extent Blk.size [⟨size, false⟩] :=
    extent_carved ..
  have hsub : ∀ {a}, a ∈ fl → a ∈ carvedList size user x fl := by
    intro a ha
    unfold carvedList
    split
    · exact ha
    · exact List.mem_cons_of_mem _ ha
  refine ⟨r', ?_, ?_⟩
  · intro a b hb hfree
    change IsBlock (blkSplit h x user).2.segs _ a b at hb
    rw [hsegs] at hb
    rcases (r.shape.isBlock_replace hi hv' hext).mp hb with ⟨hb, hout⟩ | hb
    · rcases hall hb hfree with rfl | ha
      · have := r.shape.isBlock_fit hb
        simp only [extent] at hout
        dsimp only at hsz
        omega
      · exact hsub ha
    · -- of the carved blocks only the second is free
      rw [← hx] at hb
      unfold carved at hb
      unfold carvedList
      split at hb
      · rw [(mem_place_singleton.mp hb).2] at hfree
        cases hfree
      next hroom =>
        rw [if_neg hroom]
        rcases List.mem_cons.mp hb with heq | hb
        · cases heq
          cases hfree
        · rw [(mem_place_singleton.mp hb).1]
          exact List.mem_cons_self
  · intro j bs hj hvj
    by_cases hij : j = i
    · subst hij
      rw [replaceIn_same] at hvj
      cases hvj
      exact isChain_carved (hmerged hj hv)
    · rw [replaceIn, Function.update_of_ne hij] at hvj
      exact hmerged hj hvj

/-! ## What an allocation gives -/

/-- The counters after an allocation of `user` bytes. -/
structure Counted (h : Heap) (user : Nat) (h' : Heap) : Prop where
  bytes : h'.stats.bytesAllocated = h.stats.bytesAllocated + UInt64.ofNat user
  allocs : h'.stats.allocs = h.stats.allocs + 1
  frees : h'.stats.frees = h.stats.frees

theorem Heap.countAlloc_counted {g : Heap} (user : Nat)
    (hbytes : g.stats.bytesAllocated = h.stats.bytesAllocated)
    (hallocs : g.stats.allocs = h.stats.allocs) (hfrees : g.stats.frees = h.stats.frees) :
    Counted h user (g.countAlloc user) :=
  ⟨congrArg (· + UInt64.ofNat user) hbytes, congrArg (· + 1) hallocs, hfrees⟩

/-- A call that gave nothing. -/
structure Refused (h : Heap) (v : Layout) (h' : Heap) : Prop where
  coherent : ∃ fl', Coherent h' v fl'
  segs : h'.segs = h.segs
  same : SameOn (Held h.segs) h.mem h'.mem
  bytes : h'.stats.bytesAllocated = h.stats.bytesAllocated
  allocs : h'.stats.allocs = h.stats.allocs
  frees : h'.stats.frees = h.stats.frees
  corrupt : h'.corrupt = h.corrupt

/-- The allocations that were there are still there, with their bytes, and none at `p`. -/
structure Gained (h : Heap) (v : Layout) (p : Nat) (h' : Heap) (v' : Layout) : Prop where
  coherent : ∃ fl', Coherent h' v' fl'
  kept : ∀ {a c}, IsBlock h.segs v a c → c.used = true → IsBlock h'.segs v' a c ∧ p ≠ a + 16
  keptLarge : ∀ {a k}, IsLarge h.segs v a k → IsLarge h'.segs v' a k ∧ p ≠ a + 16
  same : SameOn (Busy h.segs v) h.mem h'.mem
  corrupt : h'.corrupt = h.corrupt

/-- A free block of `size` bytes was carved for `user` bytes at `p`. -/
structure Took (h : Heap) (v : Layout) (size user p : Nat) (h' : Heap) (v' : Layout) : Prop extends
    Gained h v p h' v' where
  block : ∃ a, p = a + 16 ∧ IsBlock h'.segs v' a ⟨carvedSize size user, true⟩
  fits : user + 28 ≤ size
  counted : Counted h user h'
  places : ∀ {a c}, IsBlock h'.segs v' a c → (∃ d, IsBlock h.segs v a d) ∨
    (∃ k, a = 0x1000 * k + 32) ∨ (a = p + (user + 12) ∧ user + 72 ≤ size)

/-- A segment was taken for `n` bytes at `p`. -/
structure TookLarge (h : Heap) (v : Layout) (n p : Nat) (h' : Heap) (v' : Layout) : Prop extends
    Gained h v p h' v' where
  large : ∃ k, p = 0x1000 * k + 16 ∧ IsLarge h'.segs v' (0x1000 * k) n
  counted : Counted h n h'
  places : ∀ {a c}, IsBlock h'.segs v' a c → ∃ d, IsBlock h.segs v a d

theorem Owns.pos (hown : Owns segs v p n) : p ≠ 0 := by
  rcases hown with ⟨a, b, rfl, -⟩ | ⟨a, rfl, -⟩ <;> omega

theorem Gained.owns {q k : Nat} {h' : Heap} (g : Gained h v p h' v')
    (hown : Owns h.segs v q k) : Owns h'.segs v' q k ∧ q ≠ p := by
  rcases hown with ⟨a, b, rfl, hb, hused, hle⟩ | ⟨a, rfl, hl⟩
  · obtain ⟨hb', hne⟩ := g.kept hb hused
    exact ⟨.inl ⟨a, b, rfl, hb', hused, hle⟩, Ne.symm hne⟩
  · obtain ⟨hl', hne⟩ := g.keptLarge hl
    exact ⟨.inr ⟨a, rfl, hl'⟩, Ne.symm hne⟩

theorem Shape.ne_free {skip : Nat → Prop}
    (hsh : Shape skip m segs v) (hb : IsBlock segs v x b) (hfree : b.used = false) :
    (∀ {a c}, IsBlock segs v a c → c.used = true → x ≠ a) ∧
      ∀ {a n}, IsLarge segs v a n → x ≠ a := by
  have hsz := hsh.isBlock_fit hb
  constructor
  · rintro a c hc hused rfl
    rcases hsh.isBlock_apart hc hb with ⟨-, rfl⟩ | hap
    · rw [hused] at hfree
      cases hfree
    · have := hsh.isBlock_fit hc
      omega
  · rintro a n hl rfl
    have hap := hsh.isBlock_isLarge_apart hb hl
    omega

theorem Owns.held {skip : Nat → Prop}
    (hown : Owns segs v p n) (hsh : Shape skip m segs v) : Held segs p := by
  rcases hown with ⟨a, b, rfl, ⟨j, hj, bs, hv, hmem⟩, -⟩ | ⟨a, rfl, j, hj, hv, rfl⟩
  · have hp := hsh.place_fit hj hv hmem
    exact ⟨j, hj, hsh.active_of_arena hj hv, by omega, by omega⟩
  · have hroom := (hsh.large hj hv).room
    exact ⟨j, hj, hsh.active_of_large hj hv, by omega, by omega⟩

@[simp] theorem Heap.countAlloc_segs (h : Heap) (n : Nat) : (h.countAlloc n).segs = h.segs := rfl

theorem carvedSize_mem (x size user : Nat) :
    (x, ⟨carvedSize size user, true⟩) ∈ place Blk.size x (carved size user true) := by
  unfold carved carvedSize
  split <;> simp [place]

theorem mem_place_carved {user a : Nat} {c : Blk}
    (hc : (a, c) ∈ place Blk.size x (carved size user true)) :
    a = x ∨ (a = x + (user + 28) ∧ user + 72 ≤ size) := by
  unfold carved at hc
  split at hc
  · exact .inl (mem_place_singleton.mp hc).1
  next hroom =>
    rcases List.mem_cons.mp hc with heq | hc
    · cases heq
      exact .inl rfl
    · exact .inr ⟨(mem_place_singleton.mp hc).1, by omega⟩

theorem Rep.took {size user : Nat} {pre post : List Blk} {h0 : Heap} {v0 : Layout}
    (r : Rep allStamped h v fl) (hi : i < segMax)
    (hv : v i = .arena (pre ++ ⟨size, false⟩ :: post)) (hx : x = blockAddr (h.segs i) pre)
    (hnot : x ∉ fl) (huser : 16 ≤ user) (hfit : user + 28 ≤ size)
    (hall : ∀ {a b}, IsBlock h.segs v a b → b.used = false → a = x ∨ a ∈ fl)
    (hmerged : ∀ {j bs}, j < segMax → v j = .arena bs → bs.IsChain Merged)
    (hkept : ∀ {a c}, IsBlock h0.segs v0 a c → c.used = true → IsBlock h.segs v a c)
    (hlarge : ∀ {a k}, IsLarge h0.segs v0 a k → IsLarge h.segs v a k)
    (hplaces : ∀ {a c}, IsBlock h.segs v a c →
      (∃ d, IsBlock h0.segs v0 a d) ∨ ∃ k, a = 0x1000 * k + 32)
    (hbusy : ∀ {y}, Busy h0.segs v0 y → Busy h.segs v y)
    (hsame : SameOn (Busy h0.segs v0) h0.mem h.mem) (hcorrupt : h.corrupt = h0.corrupt)
    (hbytes : h.stats.bytesAllocated = h0.stats.bytesAllocated)
    (hallocs : h.stats.allocs = h0.stats.allocs) (hfrees : h.stats.frees = h0.stats.frees) :
    Took h0 v0 size user (x + 16) (Heap.countAlloc { (blkSplit h x user).2 with
      mem := blkStamp (blkSplit h x user).2.mem x (carvedSize size user) flagUsed } user)
      (replaceIn v i (pre ++ carved size user true ++ post)) ∧
    (Clear h v → Clear (Heap.countAlloc { (blkSplit h x user).2 with
      mem := blkStamp (blkSplit h x user).2.mem x (carvedSize size user) flagUsed } user)
      (replaceIn v i (pre ++ carved size user true ++ post))) := by
  have hc := r.carve_coherent hi hv hx hnot huser hall hmerged
  obtain ⟨-, -, hbut⟩ := r.carve hi hv hx hnot huser
  have hsegs : (blkSplit h x user).2.segs = h.segs := hbut.segs
  have hafter (m : Mem) :
      (Heap.countAlloc { (blkSplit h x user).2 with mem := m } user).segs = h.segs := hsegs
  have hv' : v i = .arena (pre ++ [⟨size, false⟩] ++ post) := by simpa using hv
  have hext : extent Blk.size (carved size user true) = extent Blk.size [⟨size, false⟩] :=
    extent_carved ..
  have hblk : IsBlock h.segs v x ⟨size, false⟩ := hx ▸ isBlock_behind h.segs hi hv
  obtain ⟨hne, hneLarge⟩ := r.shape.ne_free hblk rfl
  have hreplace : ∀ {a c},
      IsBlock h.segs (replaceIn v i (pre ++ carved size user true ++ post)) a c ↔
      (IsBlock h.segs v a c ∧ (a + c.size ≤ blockAddr (h.segs i) pre ∨
        blockAddr (h.segs i) pre + extent Blk.size [⟨size, false⟩] ≤ a)) ∨
      (a, c) ∈ place Blk.size (blockAddr (h.segs i) pre) (carved size user true) :=
    r.shape.isBlock_replace hi hv' hext
  -- writes are to the carved block and to pointers of free blocks
  have hwrites : SameOn (Busy h.segs v) h.mem
      (blkStamp (blkSplit h x user).2.mem x (carvedSize size user) flagUsed) :=
    hbut.mem.mono fun y hy => ⟨r.shape.busy_apart hy hblk rfl, r.not_linkByte hy⟩
  refine ⟨
    { coherent := ⟨_, hc.congr rfl rfl rfl⟩
      kept := fun {a c} hb hused => ⟨?_, ?_⟩
      keptLarge := fun {a k} hl => ⟨?_, ?_⟩
      same := hsame.trans (hwrites.mono fun y hy => hbusy hy)
      corrupt := hbut.corrupt.trans hcorrupt
      block := ⟨x, rfl, ?_⟩
      fits := hfit
      counted := Heap.countAlloc_counted user
        ((congrArg HeapStats.bytesAllocated hbut.stats).trans hbytes)
        ((congrArg HeapStats.allocs hbut.stats).trans hallocs)
        ((congrArg HeapStats.frees hbut.stats).trans hfrees)
      places := fun {a c} hb => ?_ }, fun hclear => hclear.congr (fun {j bs} _ hvj => ⟨?_, ?_⟩)
        (hwrites.mono fun y hy => .inr (.inr hy))⟩
  · rw [hafter, hreplace]
    rcases r.shape.isBlock_cases hi hv' (hkept hb hused) with hout | hin
    · exact .inl ⟨hkept hb hused, hout⟩
    · rw [(mem_place_singleton.mp hin).2] at hused
      cases hused
  · have := hne (hkept hb hused) hused
    omega
  · rw [hafter]
    exact (hlarge hl).replace hv
  · have := hneLarge (hlarge hl)
    omega
  · rw [hafter, hreplace]
    exact .inr (hx ▸ carvedSize_mem x size user)
  · rw [hafter, hreplace, ← hx] at hb
    have hback : ∀ {a c}, IsBlock h.segs v a c → (∃ d, IsBlock h0.segs v0 a d) ∨
        (∃ k, a = 0x1000 * k + 32) ∨ (a = x + 16 + (user + 12) ∧ user + 72 ≤ size) := by
      intro a c ha
      rcases hplaces ha with hold | hfresh
      · exact .inl hold
      · exact .inr (.inl hfresh)
    rcases hb with ⟨hb, -⟩ | hb
    · exact hback hb
    · rcases mem_place_carved hb with rfl | ⟨rfl, hsplit⟩
      · exact hback hblk
      · exact .inr (.inr ⟨by omega, hsplit⟩)
  · by_cases hij : j = i
    · exact ⟨_, hij ▸ hv⟩
    · rw [replaceIn, Function.update_of_ne hij] at hvj
      exact ⟨bs, hvj⟩
  · rw [Heap.countAlloc_segs]
    change ((blkSplit h x user).2.segs j).base = _
    rw [hsegs]

variable {user : Nat} {k64 : Kernel}

theorem Coherent.takeBlock (c : Coherent h v fl) (hx : x ∈ fl)
    (hb : IsBlock h.segs v x b) (hfree : b.used = false) (huser : 16 ≤ user)
    (hfit : user + 28 ≤ b.size) :
    ∃ v', Took h v b.size user (Crt64.takeBlock h x user).1 (Crt64.takeBlock h x user).2 v' ∧
      (Clear h v → Clear (Crt64.takeBlock h x user).2 v') := by
  obtain ⟨fl', r, hsame, hmem⟩ := c.toRep.unlinkMem hx
  obtain ⟨size, used⟩ := b
  dsimp only at hfree hfit
  subst hfree
  obtain ⟨i, hi, bs, hv, hplace⟩ := hb
  obtain ⟨pre, post, rfl, haddr⟩ := mem_place_iff.mp hplace
  have hnot : x ∉ fl' := fun hx' => ((hmem x).mp hx').2 rfl
  have haddr' : x = blockAddr ((blkFreeUnlink h x).segs i) pre := by
    rw [blkFreeUnlink_segs]
    exact haddr
  have hreal := (r.carve hi hv haddr' hnot huser).1
  have hbusy : SameOn (Busy h.segs v) h.mem (blkFreeUnlink h x).mem :=
    hsame.mem.mono fun _ hy => c.toRep.not_linkByte hy
  obtain ⟨htook, hclear⟩ := @Rep.took _ _ _ _ _ _ user pre post h v r hi hv haddr' hnot huser hfit
    (by
      intro a d hd hdfree
      rw [blkFreeUnlink_segs] at hd
      by_cases ha : a = x
      · exact .inl ha
      · exact .inr ((hmem a).mpr ⟨c.all hd hdfree, ha⟩))
    c.merged (fun hd _ => by rwa [blkFreeUnlink_segs]) (fun hl => by rwa [blkFreeUnlink_segs])
    (fun {a d} hd => .inl ⟨d, by rwa [blkFreeUnlink_segs] at hd⟩)
    (fun hy => by rwa [blkFreeUnlink_segs]) hbusy hsame.corrupt (by rw [hsame.stats])
    (by rw [hsame.stats]) (by rw [hsame.stats])
  have htake : (if blkHdr + user + blkCnary + blkFtar < carvedSize size user
      then carvedSize size user else blkHdr + user + blkCnary + blkFtar) = carvedSize size user := by
    unfold carvedSize blkHdr blkCnary blkFtar
    split <;> split <;> omega
  unfold Crt64.takeBlock
  simp only [hreal, htake]
  refine ⟨_, htook, fun hc => hclear (hc.congr ?_ (hbusy.mono fun y hy => .inr (.inr hy)))⟩
  exact fun {j bs} _ hvj => ⟨⟨bs, hvj⟩, by rw [blkFreeUnlink_segs]⟩

/-! ## New segments -/

/-- What `k64_request_memory_block` promises. -/
structure Honest (k64 : Kernel) : Prop where
  aligned : ∀ {h bytes g}, k64 h bytes = some g → 0x1000 ∣ g.base
  fits : ∀ {h bytes g}, k64 h bytes = some g → g.base + bytes ≤ 2 ^ 64
  apart : ∀ {h bytes g}, k64 h bytes = some g → ∀ {i}, i < segMax → (h.segs i).active = true →
    g.base + bytes ≤ (h.segs i).base ∨ (h.segs i).base + (h.segs i).size ≤ g.base
  zeroed : ∀ {h bytes g}, k64 h bytes = some g → ∀ {k}, k < bytes → g.fill k = 0

/-- What it is documented to promise: nothing about the bytes of the memory. -/
structure Lends (k64 : Kernel) : Prop where
  aligned : ∀ {h bytes g}, k64 h bytes = some g → 0x1000 ∣ g.base
  fits : ∀ {h bytes g}, k64 h bytes = some g → g.base + bytes ≤ 2 ^ 64
  apart : ∀ {h bytes g}, k64 h bytes = some g → ∀ {i}, i < segMax → (h.segs i).active = true →
    g.base + bytes ≤ (h.segs i).base ∨ (h.segs i).base + (h.segs i).size ≤ g.base

theorem Honest.lends (hk : Honest k64) : Lends k64 :=
  ⟨hk.aligned, hk.fits, hk.apart⟩

/-- The memory for the next arena has the footer of a free block where the first block of the arena
looks for one. -/
def Foul (k64 : Kernel) (h : Heap) : Prop :=
  ∃ g, k64 h segmentDefault = some g ∧ FreeFoot g.fill (segHdr - blkFtar)

theorem Honest.not_foul (hk : Honest k64) (h : Heap) : ¬ Foul k64 h := by
  rintro ⟨g, hg, -, hsize⟩
  have hzero : loadU32 g.fill (segHdr - blkFtar) = 0 :=
    loadNum_eq_zero fun x _ hx =>
      hk.zeroed hg (by unfold segHdr blkFtar at hx; unfold segmentDefault; omega)
  rw [hzero] at hsize
  exact absurd hsize (by decide)

/-- A new segment `s` of index `i`. -/
structure NewSeg (h h' : Heap) (i bytes : Nat) (s : Seg) : Prop where
  index : i < segMax
  unused : (h.segs i).active = false
  segs : h'.segs = Function.update h.segs i s
  head : h'.freeHead = h.freeHead
  size : s.size = bytes
  active : s.active = true
  fit : 0x1000 ≤ s.base ∧ s.base + s.size ≤ 2 ^ 64
  apart : ∀ {j}, j < segMax → (h.segs j).active = true →
    s.base + s.size ≤ (h.segs j).base ∨ (h.segs j).base + (h.segs j).size ≤ s.base
  same : SameOn (Held h.segs) h.mem h'.mem
  tag : loadU32 h'.mem (s.base + 4) = bytes % 2 ^ 32
  aligned : ∃ k, s.base = 0x1000 * k
  bytes : h'.stats.bytesAllocated = h.stats.bytesAllocated
  allocs : h'.stats.allocs = h.stats.allocs
  frees : h'.stats.frees = h.stats.frees
  corrupt : h'.corrupt = h.corrupt

theorem segStamp_spec (m : Mem) (p bytes i : Nat) :
    loadU32 (segStamp m p bytes i) (p + 4) = bytes % 2 ^ 32 ∧
      SameOn (fun x => x < p ∨ p + 16 ≤ x) m (segStamp m p bytes i) := by
  unfold segStamp storeU32
  refine ⟨?_, ?_⟩
  · simp (disch := omega) only [loadU32, loadNum_storeNum_of_disjoint, loadNum_storeNum_self]
    rfl
  · exact (((sameOn_storeNum fun x hx => by omega).trans
      (sameOn_storeNum fun x hx => by omega)).trans
      (sameOn_storeNum fun x hx => by omega)).trans (sameOn_storeNum fun x hx => by omega)

theorem granted_same (m : Mem) (g : Grant) (bytes : Nat) :
    SameOn (fun x => x < g.base ∨ g.base + bytes ≤ x) m (granted m g bytes) :=
  fun x hx => if_neg (by omega)

theorem Coherent.outside (c : Coherent h v fl) {h' : Heap} (hsegs : h'.segs = h.segs)
    (hhead : h'.freeHead = h.freeHead) (hsame : SameOn (Held h.segs) h.mem h'.mem) :
    Coherent h' v fl := by
  refine ⟨⟨?_, c.chained.congr (hsame.mono fun _ hy => c.held_of_linkByte hy),
    by rw [hhead, c.head], c.nodup, ?_⟩, ?_, c.merged⟩
  · rw [hsegs]
    exact c.shape.congr (hsame.mono fun _ hx => hx.1)
  · rw [hsegs]
    exact c.free
  · rw [hsegs]
    exact c.all

theorem segStamp_fill (m : Mem) (g : Grant) {bytes : Nat} (hlo : 16 ≤ p) (hhi : p + 4 ≤ bytes) :
    loadU32 (segStamp (granted m g bytes) g.base bytes i) (g.base + p) = loadU32 g.fill p := by
  have hstamp := (segStamp_spec (granted m g bytes) g.base bytes i).2.loadNum_eq (a := g.base + p)
    (n := 4) fun x hx _ => by omega
  unfold loadU32
  rw [hstamp]
  unfold loadNum load
  congr 1
  refine List.map_congr_left fun k hk => ?_
  rw [List.mem_range] at hk
  rw [granted, if_pos (by omega), Nat.add_assoc, Nat.add_sub_cancel_left]

theorem segNew_spec (hk : Lends k64) (c : Coherent h v fl) {bytes : Nat}
    (hbytes : segmentMin ≤ bytes) :
    (∃ h', segNew k64 h bytes = (none, h') ∧ Refused h v h') ∨
    ∃ i h' s, segNew k64 h bytes = (some i, h') ∧ NewSeg h h' i bytes s ∧
      (bytes = segmentDefault → ¬ Foul k64 h → ¬ FreeFoot h'.mem (s.base + segHdr - blkFtar)) := by
  unfold segNew
  dsimp only
  rw [if_neg (by omega)]
  cases hg : k64 h bytes with
  | none =>
    exact .inl ⟨_, rfl, ⟨fl, c.congr rfl rfl rfl⟩, rfl, SameOn.refl _ _, rfl, rfl, rfl, rfl⟩
  | some g =>
    have happ := fun {i} => hk.apart hg (i := i)
    have hsame : SameOn (Held h.segs) h.mem (granted h.mem g bytes) := by
      refine (granted_same h.mem g bytes).mono fun x hx => ?_
      obtain ⟨j, hj, hact, hlo, hhi⟩ := hx
      have := happ hj hact
      omega
    dsimp only
    split
    · exact .inl ⟨_, rfl, ⟨fl, c.congr rfl rfl rfl⟩, rfl, SameOn.refl _ _, rfl, rfl, rfl, rfl⟩
    next hbase =>
      split
      · exact .inl ⟨_, rfl, ⟨fl, c.outside rfl rfl hsame⟩, rfl, hsame, rfl, rfl, rfl, rfl⟩
      next i hfind =>
        have hinact := List.find?_some hfind
        have hmem := List.mem_range.mp (List.mem_of_find?_eq_some hfind)
        have hst := segStamp_spec (granted h.mem g bytes) g.base bytes i
        obtain ⟨k, hk4⟩ := hk.aligned hg
        unfold segmentMin at hbytes
        refine .inr ⟨i, _, ⟨g.base, bytes, memFlagGuard, true⟩, rfl, ⟨hmem, by simpa using hinact,
          rfl, rfl, rfl, rfl, ⟨?_, hk.fits hg⟩, happ, ?_, hst.1, ⟨k, hk4⟩, rfl, rfl, rfl, rfl⟩,
          ?_⟩
        · dsimp only
          omega
        · refine hsame.trans (hst.2.mono fun x hx => ?_)
          obtain ⟨j, hj, hact, hlo, hhi⟩ := hx
          have := happ hj hact
          omega
        · -- the bytes in front of the first block are the kernel's
          rintro rfl hclean ⟨hflags, hsize⟩
          have hword : ∀ {p}, 16 ≤ p → p + 4 ≤ 32 → loadU32 (segStamp
              (granted h.mem g segmentDefault) g.base segmentDefault i) (g.base + p) =
                loadU32 g.fill p :=
            fun h1 h2 => segStamp_fill h.mem g h1 (by unfold segmentDefault; omega)
          refine hclean ⟨g, hg, ?_, ?_⟩
          · rw [← hword (by decide) (by decide)]
            exact hflags
          · rw [← hword (by decide) (by decide)]
            exact hsize

section NewSegment

variable {h' : Heap} {bytes : Nat} {s : Seg}

theorem NewSeg.not_arena (hnew : NewSeg h h' i bytes s) (c : Coherent h v fl) (bs : List Blk) :
    v i ≠ .arena bs := by
  intro hv
  have hact := c.shape.active_of_arena hnew.index hv
  rw [hnew.unused] at hact
  cases hact

theorem NewSeg.not_large (hnew : NewSeg h h' i bytes s) (c : Coherent h v fl) :
    v i ≠ .large user := by
  intro hv
  have hact := c.shape.active_of_large hnew.index hv
  rw [hnew.unused] at hact
  cases hact

theorem NewSeg.not_held (hnew : NewSeg h h' i bytes s) (hlo : s.base ≤ x)
    (hhi : x < s.base + s.size) : ¬ Held h.segs x := by
  rintro ⟨j, hj, hact, hlo', hhi'⟩
  have := hnew.apart hj hact
  omega

theorem NewSeg.same_of_inside (hnew : NewSeg h h' i bytes s) {m : Mem}
    (hs : SameOn (fun x => x < s.base ∨ s.base + s.size ≤ x) h'.mem m) :
    SameOn (Held h.segs) h.mem m := by
  refine hnew.same.trans (hs.mono fun x hx => ?_)
  by_contra hcon
  exact hnew.not_held (by omega) (by omega) hx

end NewSegment

theorem endStamp_spec (m : Mem) (p : Nat) :
    loadU32 (endStamp m p) p = magicEnd ∧ loadU32 (endStamp m p) (p + 4) = flagUsed ∧
      SameOn (fun x => x < p ∨ p + 24 ≤ x) m (endStamp m p) := by
  unfold endStamp storeU32 loadU32
  refine ⟨?_, ?_, ?_⟩
  · simp (disch := omega) only [loadNum_storeNum_of_disjoint, loadNum_storeNum_self]
    decide
  · simp (disch := omega) only [loadNum_storeNum_of_disjoint, loadNum_storeNum_self]
    decide
  · exact (((((sameOn_storeNum fun x hx => by omega).trans
      (sameOn_storeNum fun x hx => by omega)).trans (sameOn_storeNum fun x hx => by omega)).trans
      (sameOn_storeNum fun x hx => by omega)).trans (sameOn_storeNum fun x hx => by omega)).trans
      (sameOn_storeNum fun x hx => by omega)

/-- The memory of a fresh arena, before its first block is carved. -/
def arenaStamp (m : Mem) (base : Nat) : Mem :=
  blkStamp (endStamp m (base + segHdr + arenaBytes)) (base + segHdr) arenaBytes 0

theorem NewSeg.arenaAt {h' : Heap} {s : Seg} (hnew : NewSeg h h' i segmentDefault s) :
    ArenaAt allStamped (arenaStamp h'.mem s.base) s [⟨arenaBytes, false⟩] ∧
      SameOn (fun x => x < s.base + segHdr ∨ s.base + s.size ≤ x) h'.mem
        (arenaStamp h'.mem s.base) := by
  have hsize : s.size = segHdr + arenaBytes + 24 := hnew.size
  have harena : arenaBytes = 262088 := rfl
  have hhdr : segHdr = 32 := rfl
  have hend := endStamp_spec h'.mem (s.base + segHdr + arenaBytes)
  have hblk : BlockAt (arenaStamp h'.mem s.base) (s.base + segHdr) ⟨arenaBytes, false⟩ ∧
      SameOn (fun x => x < s.base + segHdr ∨ s.base + segHdr + arenaBytes ≤ x)
        (endStamp h'.mem (s.base + segHdr + arenaBytes)) (arenaStamp h'.mem s.base) :=
    blkStamp_spec _ _ (b := ⟨arenaBytes, false⟩) (by decide) (by decide)
  have hboth : SameOn (fun x => x < s.base + segHdr ∨ s.base + s.size ≤ x) h'.mem
      (arenaStamp h'.mem s.base) := by
    refine (hend.2.2.mono fun x hx => ?_).trans (hblk.2.mono fun x hx => ?_)
    · omega
    · omega
  refine ⟨⟨hnew.size, ?_, by simp [harena], by simp [extent], ?_, ⟨?_, ?_⟩⟩, hboth⟩
  · rw [loadU32, hboth.loadNum_eq fun x hx hx' => by omega]
    exact hnew.tag
  · intro a b hmem _
    obtain ⟨rfl, rfl⟩ := mem_place_singleton.mp hmem
    exact hblk.1
  · rw [loadU32, hblk.2.loadNum_eq fun x hx hx' => by omega]
    exact hend.1
  · rw [loadU32, hblk.2.loadNum_eq fun x hx hx' => by omega]
    exact hend.2.1

theorem Coherent.freshArena (hk : Lends k64) (c : Coherent h v fl)
    (huser : 16 ≤ user) (hsmall : user < largeThreshold) :
    ((Crt64.freshArena k64 h user).1 = 0 ∧ Refused h v (Crt64.freshArena k64 h user).2) ∨
      ∃ v', Took h v arenaBytes user (Crt64.freshArena k64 h user).1
        (Crt64.freshArena k64 h user).2 v' ∧
        (¬ Foul k64 h → Clear h v → Clear (Crt64.freshArena k64 h user).2 v') := by
  unfold Crt64.freshArena
  rcases segNew_spec hk c (show segmentMin ≤ segmentDefault by decide) with
    ⟨h', heq, href⟩ | ⟨i, h', s, heq, hnew, hclear⟩
  · rw [heq]
    exact .inl ⟨rfl, href⟩
  · obtain ⟨harena, hinside⟩ := hnew.arenaAt
    have hsame := hnew.same_of_inside (hinside.mono fun y hy => by omega)
    have hseg : h'.segs i = s := by rw [hnew.segs, Function.update_self]
    have husable : s.size - segHdr - endBlockSize = arenaBytes := by
      rw [hnew.size]
      rfl
    have hna := hnew.not_arena c
    -- the arena is one free block that is not in the list
    have hshape : Shape allStamped (arenaStamp h'.mem s.base) h'.segs
        (Function.update v i (.arena [⟨arenaBytes, false⟩])) := by
      rw [hnew.segs]
      refine c.shape.update ⟨fun _ => nofun, fun _ => hnew.active⟩ (fun _ => hnew.fit)
        (fun _ _ hj _ hact => hnew.apart hj hact) hsame ?_ (fun heq => by cases heq)
      intro bs heq
      cases heq
      exact harena
    have r : Rep allStamped { h' with mem := arenaStamp h'.mem s.base }
        (Function.update v i (.arena [⟨arenaBytes, false⟩])) fl :=
      c.toRep.update hshape hnew.segs hnew.head hnew.index hna hsame
    have hx : s.base + segHdr = blockAddr (h'.segs i) [] := by
      rw [hseg]
      rfl
    have hbytes : arenaBytes = 262088 := rfl
    have hsize : s.size = segHdr + arenaBytes + 24 := hnew.size
    have hnot : s.base + segHdr ∉ fl := by
      intro hf
      obtain ⟨b, ⟨j, hj, bs, hvj, hmem⟩, -⟩ := c.free hf
      have hp := c.shape.place_fit hj hvj hmem
      exact hnew.not_held (x := s.base + segHdr) (by omega) (by omega)
        ⟨j, hj, c.shape.active_of_arena hj hvj, by omega, by omega⟩
    have hblocks : ∀ {a b},
        IsBlock h'.segs (Function.update v i (.arena [⟨arenaBytes, false⟩])) a b ↔
        IsBlock h.segs v a b ∨ (a = s.base + segHdr ∧ b = ⟨arenaBytes, false⟩) := by
      intro a b
      rw [hnew.segs, isBlock_update hnew.index hna]
      simp [place]
    have hv' : Function.update v i (.arena [⟨arenaBytes, false⟩]) i =
        .arena ([] ++ ⟨arenaBytes, false⟩ :: []) := Function.update_self ..
    have hbusy : ∀ {y}, Busy h.segs v y →
        Busy h'.segs (Function.update v i (.arena [⟨arenaBytes, false⟩])) y := by
      intro y hy
      rw [hnew.segs]
      rcases hy with ⟨a, b, hb, hrest⟩ | ⟨a, n, hl, hrest⟩ | ⟨j, hj, ⟨bs, hvj⟩, hrest⟩
      · exact .inl ⟨a, b, (isBlock_update hnew.index hna).mpr (.inl hb), hrest⟩
      · exact .inr (.inl ⟨a, n, hl.update fun hv => absurd hv (hnew.not_large c), hrest⟩)
      · have hij : j ≠ i := fun heq => hna bs (heq ▸ hvj)
        refine .inr (.inr ⟨j, hj, ⟨bs, by rwa [Function.update_of_ne hij]⟩, ?_⟩)
        rwa [Function.update_of_ne hij]
    obtain ⟨htook, hstays⟩ := @Rep.took _ _ _ _ _ _ user [] [] h v r hnew.index hv' hx hnot huser
        (by unfold largeThreshold at hsmall; omega)
        (by
          intro a b hb hfree
          rcases hblocks.mp hb with hb | ⟨ha, -⟩
          · exact .inr (c.all hb hfree)
          · exact .inl ha)
        (by
          intro j bs hj hvj
          by_cases hij : j = i
          · subst hij
            rw [Function.update_self] at hvj
            cases hvj
            exact .singleton _
          · rw [Function.update_of_ne hij] at hvj
            exact c.merged hj hvj)
        (fun hb _ => hblocks.mpr (.inl hb))
        (by
          intro a n hl
          change IsLarge h'.segs _ a n
          rw [hnew.segs]
          exact hl.update fun hv => absurd hv (hnew.not_large c))
        (by
          intro a b hb
          obtain ⟨k, hk⟩ := hnew.aligned
          rcases hblocks.mp hb with hb | ⟨ha, -⟩
          · exact .inl ⟨b, hb⟩
          · exact .inr ⟨k, by rw [ha, hk]; rfl⟩)
        hbusy (hsame.mono fun _ hy => c.shape.busy_held hy) hnew.corrupt hnew.bytes hnew.allocs
        hnew.frees
    have hreal := (r.carve hnew.index hv' hx hnot huser).1
    rw [heq]
    simp only [hseg, husable]
    unfold arenaStamp at htook hreal hstays
    rw [hreal]
    refine .inr ⟨_, htook, fun hfoul hc => hstays fun j bs hj hvj => ?_⟩
    change ¬ FreeFoot (arenaStamp h'.mem s.base) ((h'.segs j).base + segHdr - blkFtar)
    by_cases hij : j = i
    · subst hij
      rw [hseg]
      refine fun hfoot => hclear rfl hfoul (hfoot.congr (hinside.mono fun y hy => ?_))
      unfold segHdr blkFtar at hy
      unfold segHdr
      omega
    · rw [Function.update_of_ne hij] at hvj
      rw [hnew.segs, Function.update_of_ne hij]
      refine fun hfoot => hc j bs hj hvj (hfoot.congr (hsame.mono fun y hy => ?_))
      have hsz : (h.segs j).size = segHdr + arenaBytes + 24 := (c.shape.arena hj hvj).size
      unfold segHdr blkFtar at hy
      unfold segHdr at hsz
      exact ⟨j, hj, c.shape.active_of_arena hj hvj, by omega, by omega⟩

/-! ## Large allocations -/

/-- The sizes for which rounding up to a page wraps around. -/
def wraps (size : Nat) : Prop := 2 ^ 64 - 4115 ≤ size ∧ size ≤ 2 ^ 64 - 33

instance (size : Nat) : Decidable (wraps size) := inferInstanceAs (Decidable (_ ∧ _))

theorem le_largeBytes (h : user < 2 ^ 64 - 4115) : user + 20 ≤ largeBytes user := by
  unfold largeBytes blkHdr blkCnary
  dsimp only
  omega

theorem largeStamp_spec (m : Mem) {s : Seg} (hi : i < segMax)
    (hbig : largeThreshold ≤ user) (hroom : user + 20 ≤ s.size)
    (hfit : s.base + s.size ≤ 2 ^ 64) :
    LargeAt (largeStamp m s.base user i) s i user ∧
      SameOn (fun x => x < s.base ∨ s.base + s.size ≤ x) m (largeStamp m s.base user i) := by
  have hcan : (s.base + blkHdr + user) % 2 ^ 64 = s.base + 16 + user := by
    unfold blkHdr
    omega
  unfold segMax at hi
  unfold largeStamp storeU32
  rw [hcan]
  refine ⟨⟨hbig, hroom, ?_, ?_, ?_, ?_, ?_⟩, ?_⟩
  · simp (disch := omega) only [loadU32, loadNum_storeNum_of_disjoint, loadNum_storeNum_self]
    rfl
  · simp (disch := omega) only [loadU32, loadNum_storeNum_of_disjoint, loadNum_storeNum_self]
    decide
  · simp (disch := omega) only [loadU32, loadNum_storeNum_of_disjoint, loadNum_storeNum_self]
    decide
  · rw [loadU32, loadNum_storeNum_of_disjoint (by omega), loadNum_storeNum_self]
    exact Nat.mod_eq_of_lt (by omega)
  · rw [loadU32, loadNum_storeNum_self]
    exact Nat.mod_eq_of_lt (canaryOf_lt user)
  · exact ((((sameOn_storeNum fun x hx => by omega).trans
      (sameOn_storeNum fun x hx => by omega)).trans (sameOn_storeNum fun x hx => by omega)).trans
      (sameOn_storeNum fun x hx => by omega)).trans (sameOn_storeNum fun x hx => by omega)

theorem Coherent.mallocLarge (hk : Lends k64) (c : Coherent h v fl)
    (hlarge : largeThreshold ≤ user) (hsize : user < 2 ^ 64 - 4115) :
    ((Crt64.mallocLarge k64 h user).1 = 0 ∧ Refused h v (Crt64.mallocLarge k64 h user).2) ∨
      ∃ v', TookLarge h v user (Crt64.mallocLarge k64 h user).1
        (Crt64.mallocLarge k64 h user).2 v' ∧
        (Clear h v → Clear (Crt64.mallocLarge k64 h user).2 v') := by
  have hroom := le_largeBytes hsize
  unfold Crt64.mallocLarge
  rcases segNew_spec hk c (show segmentMin ≤ largeBytes user by
    unfold largeThreshold at hlarge; unfold segmentMin; omega) with
    ⟨h', heq, href⟩ | ⟨i, h', s, heq, hnew, -⟩
  · rw [heq]
    exact .inl ⟨rfl, href⟩
  · have hseg : h'.segs i = s := by rw [hnew.segs, Function.update_self]
    have hfits : user + 20 ≤ s.size := hnew.size ▸ hroom
    obtain ⟨hlargeAt, hinside⟩ := largeStamp_spec h'.mem hnew.index hlarge hfits hnew.fit.2
    have hsame := hnew.same_of_inside hinside
    have hna := hnew.not_arena c
    have hshape : Shape allStamped (largeStamp h'.mem s.base user i) h'.segs
        (Function.update v i (.large user)) := by
      rw [hnew.segs]
      refine c.shape.update ⟨fun _ => nofun, fun _ => hnew.active⟩ (fun _ => hnew.fit)
        (fun _ _ hj _ hact => hnew.apart hj hact) hsame (fun heq => by cases heq) ?_
      intro user' heq
      cases heq
      exact hlargeAt
    have r : Rep allStamped { h' with mem := largeStamp h'.mem s.base user i }
        (Function.update v i (.large user)) fl :=
      c.toRep.update hshape hnew.segs hnew.head hnew.index hna hsame
    have hblocks : ∀ {a b}, IsBlock h'.segs (Function.update v i (.large user)) a b ↔
        IsBlock h.segs v a b := by
      intro a b
      rw [hnew.segs, isBlock_update hnew.index hna]
      simp
    have hc : Coherent { h' with mem := largeStamp h'.mem s.base user i }
        (Function.update v i (.large user)) fl := by
      refine ⟨r, fun hb hfree => c.all (hblocks.mp hb) hfree, ?_⟩
      intro j bs hj hvj
      by_cases hij : j = i
      · subst hij
        rw [Function.update_self] at hvj
        cases hvj
      · rw [Function.update_of_ne hij] at hvj
        exact c.merged hj hvj
    -- no other allocation stands in the new segment
    have hother : ∀ {q n}, Owns h.segs v q n → s.base + blkHdr ≠ q := by
      rintro q n hq rfl
      have hhdr : blkHdr = 16 := rfl
      exact hnew.not_held (x := s.base + blkHdr) (by omega) (by omega) (hq.held c.shape)
    obtain ⟨k, hk⟩ := hnew.aligned
    rw [heq]
    simp only [hseg]
    refine .inr ⟨Function.update v i (.large user),
      { coherent := ⟨fl, hc.congr rfl rfl rfl⟩
        kept := fun {a b} hb hused => ⟨hblocks.mpr hb, ?_⟩
        keptLarge := fun {a n} hl => ⟨?_, hother (.inr ⟨a, rfl, hl⟩)⟩
        same := hsame.mono fun _ hy => c.shape.busy_held hy
        corrupt := hnew.corrupt
        large := ⟨k, by rw [hk]; rfl, ?_⟩
        counted := Heap.countAlloc_counted user hnew.bytes hnew.allocs hnew.frees
        places := fun hb => ⟨_, hblocks.mp hb⟩ }, fun hclear => hclear.congr ?_
          (hsame.mono fun _ hy => c.shape.busy_held (.inr (.inr hy)))⟩
    · have hsz := c.shape.isBlock_fit hb
      exact hother (n := 0) (.inl ⟨a, b, rfl, hb, hused, by omega⟩)
    · change IsLarge h'.segs _ a n
      rw [hnew.segs]
      exact hl.update fun hv => absurd hv (hnew.not_large c)
    · exact ⟨i, hnew.index, Function.update_self .., by rw [← hk, ← hseg]; rfl⟩
    · intro j bs hj hvj
      have hij : j ≠ i := by
        rintro rfl
        rw [Function.update_self] at hvj
        cases hvj
      rw [Function.update_of_ne hij] at hvj
      refine ⟨⟨bs, hvj⟩, ?_⟩
      change (h'.segs j).base = _
      rw [hnew.segs, Function.update_of_ne hij]

/-! ## The call -/

/-- The bytes `ow_malloc` takes for a small request. -/
def userBytes (size : Nat) : Nat := if size < minFreeUser then minFreeUser else size

/-- The size of the free block that `ow_malloc` carves: the first one of the list that is large
enough, or a fresh arena. -/
def fitSize (h : Heap) (user : Nat) : Nat :=
  match findFit h.mem (blkHdr + user + blkCnary + blkFtar) walkBound h.freeHead with
  | some (it + 1) => loadU32 h.mem (it + 1)
  | _ => arenaBytes

theorem fitSize_zero
    (hit : findFit h.mem (blkHdr + user + blkCnary + blkFtar) walkBound h.freeHead = some 0) :
    fitSize h user = arenaBytes := by
  unfold fitSize
  rw [hit]

theorem fitSize_succ {it : Nat}
    (hit : findFit h.mem (blkHdr + user + blkCnary + blkFtar) walkBound h.freeHead =
      some (it + 1)) : fitSize h user = loadU32 h.mem (it + 1) := by
  unfold fitSize
  rw [hit]

/-- What a call of `ow_malloc` did. -/
inductive Malloced (h : Heap) (v : Layout) (size : Nat) : Nat → Heap → Layout → Prop where
  | refused {h' : Heap} : Refused h v h' → Malloced h v size 0 h' v
  | small {p : Nat} {h' : Heap} {v' : Layout} : size < largeThreshold →
      Took h v (fitSize h (userBytes size)) (userBytes size) p h' v' → Malloced h v size p h' v'
  | large {p : Nat} {h' : Heap} {v' : Layout} : largeThreshold ≤ size →
      TookLarge h v size p h' v' → Malloced h v size p h' v'

theorem Coherent.refused (c : Coherent h v fl) : Refused h v h :=
  ⟨⟨fl, c⟩, rfl, SameOn.refl _ _, rfl, rfl, rfl, rfl⟩

theorem Refused.clear {h' : Heap} (href : Refused h v h') (c : Coherent h v fl)
    (hclear : Clear h v) : Clear h' v := by
  refine hclear.congr (fun {j bs} _ hvj => ⟨⟨bs, hvj⟩, by rw [href.segs]⟩)
    (href.same.mono fun _ hy => c.shape.busy_held (.inr (.inr hy)))

theorem Coherent.malloced (hk : Lends k64) (c : Coherent h v fl)
    (hsize : h.corrupt = false → ¬ wraps size) :
    ∃ p h' v', owMalloc k64 h size = some (p, h') ∧ Malloced h v size p h' v' ∧
      (¬ Foul k64 h → Clear h v → Clear h' v') := by
  unfold owMalloc
  split
  · exact ⟨0, h, v, rfl, .refused c.refused, fun _ => id⟩
  next hcorrupt =>
    split
    · exact ⟨0, h, v, rfl, .refused c.refused, fun _ => id⟩
    next hmax =>
      have hlt : size < 2 ^ 64 - 4115 := by
        have hwrap := hsize (by simpa using hcorrupt)
        unfold wraps at hwrap
        unfold sizeMax at hmax
        omega
      split
      next hlarge =>
        rcases c.mallocLarge hk hlarge hlt with ⟨hnull, href⟩ | ⟨v', htook, hclear⟩
        · exact ⟨0, _, v, by rw [← hnull], .refused href, fun _ => href.clear c⟩
        · exact ⟨_, _, v', rfl, .large hlarge htook, fun _ => hclear⟩
      next hsmall =>
        dsimp only
        have hsmall : size < largeThreshold := Nat.lt_of_not_le hsmall
        have hmin : minFreeUser = 16 := rfl
        have hthr : largeThreshold = 131072 := rfl
        rw [show (if size < minFreeUser then minFreeUser else size) = userBytes size from rfl]
        have h16 : 16 ≤ userBytes size ∧ userBytes size < largeThreshold := by
          unfold userBytes
          split <;> omega
        obtain ⟨it, hit, hcase⟩ :=
          c.toRep.findFit_walk (blkHdr + userBytes size + blkCnary + blkFtar)
        rw [hit]
        cases it with
        | zero =>
          have harena := c.freshArena hk h16.1 h16.2
          rw [← fitSize_zero hit] at harena
          dsimp only
          generalize Crt64.freshArena k64 h (userBytes size) = r at harena ⊢
          obtain ⟨p, h'⟩ := r
          rcases harena with ⟨rfl, href⟩ | ⟨v', htook, hclear⟩
          · exact ⟨0, h', v, rfl, .refused href, fun _ => href.clear c⟩
          · exact ⟨p, h', v', rfl, .small hsmall htook, hclear⟩
        | succ it =>
          rcases hcase with hcase | ⟨hmem, b, hb, hfree, hbig⟩
          · cases hcase
          · have hroom : userBytes size + 28 ≤ b.size := by
              unfold blkHdr blkCnary blkFtar at hbig
              omega
            obtain ⟨v', htook, hclear⟩ := c.takeBlock hmem hb hfree h16.1 hroom
            rw [← (c.shape.blockAt hb id).size, ← fitSize_succ hit] at htook
            dsimp only
            generalize Crt64.takeBlock h (it + 1) (userBytes size) = r at htook hclear ⊢
            exact ⟨r.1, r.2, v', rfl, .small hsmall htook, fun _ => hclear⟩

theorem le_userBytes (size : Nat) : size ≤ userBytes size := by
  unfold userBytes
  split <;> omega

theorem Malloced.gained {h' : Heap} (hm : Malloced h v size p h' v')
    (hp : p ≠ 0) : Gained h v p h' v' ∧ Owns h'.segs v' p size := by
  cases hm with
  | refused => exact absurd rfl hp
  | small _ htook =>
    obtain ⟨a, rfl, hb⟩ := htook.block
    have hle := le_userBytes size
    have hfits := htook.fits
    refine ⟨htook.toGained, .inl ⟨a, _, rfl, hb, rfl, ?_⟩⟩
    dsimp only
    unfold carvedSize
    split <;> omega
  | large _ htook =>
    obtain ⟨k, rfl, hl⟩ := htook.large
    exact ⟨htook.toGained, .inr ⟨_, rfl, hl⟩⟩

theorem Malloced.null {h' : Heap} (hm : Malloced h v size 0 h' v') : v' = v ∧ Refused h v h' := by
  cases hm with
  | refused href => exact ⟨rfl, href⟩
  | small _ htook =>
    obtain ⟨a, hp, -⟩ := htook.block
    omega
  | large _ htook =>
    obtain ⟨k, hp, -⟩ := htook.large
    omega

end Crt64
