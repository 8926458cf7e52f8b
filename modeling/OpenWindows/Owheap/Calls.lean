import OpenWindows.Owheap.Blocks

/-!
# The calls of the heap

What each call does to the layout that the heap represents.  An allocation makes one payload
live (`Granted`), a free ends one (`Rep.free`), and a call that fails leaves the heap as it was,
but for the peak.
-/

namespace Owheap

open Memory Tiling

variable {m : Mem} {h h' : Heap} {bs pre post : List Blk} {b c : Blk} {a x y p need ptr : Nat}
  {size : UInt64}

/-! ## Counters -/

theorem inUse_le (bs : List Blk) : inUse bs ≤ extent Blk.len bs := by
  induction bs with
  | nil => exact Nat.le_refl _
  | cons b bs ih =>
    rw [inUse_cons, extent, b.len_eq]
    split <;> omega

theorem account_grow {k : Nat} (hfit : h.bytesInUse.toNat + k < 2 ^ 32) :
    (heapAccountGrow h k).bytesInUse.toNat = h.bytesInUse.toNat + k := by
  have hk : (UInt64.ofNat k).toNat = k := by
    rw [UInt64.toNat_ofNat']
    omega
  unfold heapAccountGrow
  rw [UInt64.toNat_add, hk]
  omega

theorem account_shrink {k : Nat} (hle : k ≤ h.bytesInUse.toNat) :
    (heapAccountShrink h k).bytesInUse.toNat = h.bytesInUse.toNat - k := by
  have hlt : h.bytesInUse.toNat < 2 ^ 64 := h.bytesInUse.toNat_lt
  have hk : (UInt64.ofNat k).toNat = k := by
    rw [UInt64.toNat_ofNat']
    omega
  have hge : UInt64.ofNat k ≤ h.bytesInUse := by
    rw [UInt64.le_iff_toNat_le, hk]
    exact hle
  unfold heapAccountShrink
  dsimp only
  rw [if_pos hge, UInt64.toNat_sub_of_le _ _ hge, hk]

@[simp] theorem heapAccountShrink_mem (h : Heap) (k : Nat) :
    (heapAccountShrink h k).mem = h.mem := rfl

theorem heapAlign_spec (hne : heapAlign size ≠ 0) :
    0 < heapAlign size ∧ heapAlign size % heapUnit = 0 ∧ heapAlign size < 2 ^ 32 := by
  refine ⟨Nat.pos_of_ne_zero hne, ?_⟩
  unfold heapAlign at hne ⊢
  dsimp only at hne ⊢
  split at hne
  · exact absurd rfl hne
  next h1 =>
    rw [if_neg h1]
    split at hne
    · exact absurd rfl hne
    next h2 =>
      rw [if_neg h2]
      refine ⟨Nat.mul_mod_left _ _, ?_⟩
      omega

theorem Rep.counter_le (r : Rep h bs) : h.bytesInUse.toNat ≤ h.arenaSize ∧ h.arenaSize < 2 ^ 32 := by
  rw [r.counted]
  exact ⟨(inUse_le bs).trans_eq r.tiled.tiles, r.tiled.small⟩

/-! ## Allocation -/

/-- The heap `h'` has one more live payload than `h`, of `need` bytes at least. -/
structure Granted (h : Heap) (bs : List Blk) (need ptr : Nat) (h' : Heap) (bs' : List Blk) :
    Prop where
  rep : Rep h' bs'
  arena : h'.arena = h.arena
  arenaSize : h'.arenaSize = h.arenaSize
  block : ∃ y c, (y, c) ∈ place Blk.len h.arena bs' ∧ c.used = true ∧ ptr = heapPayload y ∧
    need ≤ c.size
  live : ∀ p, Live h.arena bs' p ↔ Live h.arena bs p ∨ p = ptr
  fresh : ¬ Live h.arena bs ptr

theorem not_live_middle (hb : b.used = false) (hx : x = a + extent Blk.len pre) :
    ¬ Live a (pre ++ b :: post) (heapPayload x) := by
  rw [live_append, live_cons]
  rintro (hpre | ⟨hused, -⟩ | hpost)
  · have := hpre.bounds
    unfold heapPayload blockSize at this
    omega
  · rw [hb] at hused
    cases hused
  · have := hpost.bounds
    rw [b.len_eq] at this
    unfold heapPayload blockSize at this
    omega

theorem live_cut {used : Bool} (hx : x = a + extent Blk.len pre) :
    Live a (pre ++ ⟨kept b.size need, used⟩ :: (spare b.size need ++ post)) p ↔
      Live a (pre ++ ⟨b.size, used⟩ :: post) p := by
  have hend : x + Blk.len ⟨kept b.size need, used⟩ + extent Blk.len (spare b.size need) =
      x + Blk.len ⟨b.size, used⟩ := by
    have hext : extent Blk.len (⟨kept b.size need, used⟩ :: spare b.size need) = 32 + b.size :=
      extent_kept
    rw [extent] at hext
    rw [Nat.add_assoc, hext]
    rfl
  rw [live_append, live_append, live_cons, live_cons, live_append, ← hx, hend]
  simp [not_live_spare]

theorem live_used (hb : b.used = false) (hx : x = a + extent Blk.len pre) :
    Live a (pre ++ ⟨b.size, true⟩ :: post) p ↔
      Live a (pre ++ b :: post) p ∨ p = heapPayload x := by
  have hlen : Blk.len ⟨b.size, true⟩ = b.len := rfl
  rw [live_append, live_append, live_cons, live_cons, hb, hlen, ← hx]
  constructor
  · rintro (h | ⟨-, rfl⟩ | h)
    · exact .inl (.inl h)
    · exact .inr rfl
    · exact .inl (.inr (.inr h))
  · rintro ((h | ⟨hcon, -⟩ | h) | rfl)
    · exact .inl h
    · cases hcon
    · exact .inr (.inr h)
    · exact .inr (.inl ⟨rfl, rfl⟩)

/-- The rest of a block is free, so nothing but the block behind it matters. -/
theorem merged_spare {size : Nat} :
    Merged (spare size need ++ post) ↔ (spare size need = [] ∨ ∀ c ∈ post.head?, c.used = true) ∧
      Merged post := by
  unfold spare
  split
  · simp
  · simp [merged_free]

theorem merged_take (hb : b.used = false) (h : Merged (pre ++ b :: post)) :
    Merged (pre ++ ⟨kept b.size need, true⟩ :: (spare b.size need ++ post)) := by
  obtain ⟨hpre, hpost⟩ := merged_middle.1 h
  obtain ⟨hhead, hrest⟩ := (merged_free hb).1 hpost
  exact (merged_used rfl).2 ⟨hpre.left_of_append, merged_spare.2 ⟨.inr hhead, hrest⟩⟩

theorem Rep.take (r : Rep h (pre ++ b :: post)) (hx : x = h.arena + extent Blk.len pre)
    (hb : b.used = false) (hneed : need ≤ b.size) (hpos : 0 < need)
    (hunit : need % heapUnit = 0) :
    ∃ bs', Granted h (pre ++ b :: post) need (heapPayload x) (takeBlock h x need) bs' ∧
      (Merged (pre ++ b :: post) → Merged bs') := by
  have ht := r.tiled.split hx hneed hpos hunit
  have hsplit := ht.middle hx
  have hflags : getFlags (heapSplit h.mem x need) x &&& (2 ^ 32 - 1 - flagFree) =
      Blk.flags ⟨kept b.size need, true⟩ := by
    rw [hsplit.flags, Blk.flags, hb]
    rfl
  have ht' := ht.reflag (c := ⟨kept b.size need, true⟩) rfl
  rw [← hx] at ht'
  have hsize : getSize (setFlags (heapSplit h.mem x need) x (Blk.flags ⟨kept b.size need, true⟩)) x =
      kept b.size need := (ht'.middle hx).size
  have htake : takeBlock h x need = heapAccountGrow
      { h with
        mem := setFlags (heapSplit h.mem x need) x (Blk.flags ⟨kept b.size need, true⟩)
        allocCount := h.allocCount + 1 } (kept b.size need) := by
    unfold takeBlock
    dsimp only
    rw [hflags, hsize]
  have hcounter := r.counter_le
  have htotal := inUse_le (pre ++ ⟨kept b.size need, true⟩ :: (spare b.size need ++ post))
  rw [ht'.tiles] at htotal
  have hcounted := r.counted
  simp only [inUse_append, inUse_cons, hb, inUse_spare, if_true] at htotal hcounted
  have hgrow : (heapAccountGrow { h with
        mem := setFlags (heapSplit h.mem x need) x (Blk.flags ⟨kept b.size need, true⟩)
        allocCount := h.allocCount + 1 } (kept b.size need)).bytesInUse.toNat =
      h.bytesInUse.toNat + kept b.size need := by
    refine account_grow ?_
    dsimp only
    simp only [Bool.false_eq_true, if_false] at hcounted
    omega
  rw [htake]
  refine ⟨_, ⟨⟨r.init, r.head, ht', ?_⟩, rfl, rfl,
    ⟨x, ⟨kept b.size need, true⟩, ?_, rfl, rfl, kept_ge hneed⟩, ?_, ?_⟩, merged_take hb⟩
  · rw [hgrow]
    simp only [inUse_append, inUse_cons, inUse_spare, if_true]
    simp only [Bool.false_eq_true, if_false] at hcounted
    omega
  · rw [hx]
    exact mem_place_middle _ _ _ _
  · intro p
    rw [live_cut hx, live_used hb hx]
  · exact not_live_middle hb hx

theorem Rep.alloc (r : Rep h bs) (size : UInt64) :
    ∃ ptr h', owheapAlloc h size = some (ptr, h') ∧
      ((ptr = 0 ∧ h' = h) ∨ (ptr ≠ 0 ∧ ∃ bs', Granted h bs (heapAlign size) ptr h' bs' ∧
        (Merged bs → Merged bs'))) := by
  unfold owheapAlloc
  split
  · exact ⟨0, h, rfl, .inl ⟨rfl, rfl⟩⟩
  · dsimp only
    split
    · exact ⟨0, h, rfl, .inl ⟨rfl, rfl⟩⟩
    next hne =>
      obtain ⟨hpos, hunit, -⟩ := heapAlign_spec hne
      have hstart : h.head = linkTo h.arena bs := by
        rw [r.head]
        cases hbs : bs with
        | nil => exact absurd hbs r.tiled.nonempty
        | cons b bs => rfl
      have hlen : bs.length ≤ walkBound := by
        have hle := length_le_extent bs
        have hsmall := r.tiled.small
        rw [r.tiled.tiles] at hle
        unfold walkBound
        omega
      rw [hstart]
      rcases findFit_spec (heapAlign size) r.tiled.laid r.tiled.pos hlen with
        hnone | ⟨pre, b, post, rfl, hb, hle, hfind⟩
      · rw [hnone]
        exact ⟨0, h, rfl, .inl ⟨rfl, rfl⟩⟩
      · rw [hfind]
        have hapos := r.tiled.pos
        obtain ⟨y, hy⟩ : ∃ y, h.arena + extent Blk.len pre = y + 1 :=
          ⟨h.arena + extent Blk.len pre - 1, by omega⟩
        rw [hy]
        exact ⟨_, _, rfl, .inr ⟨Nat.succ_ne_zero _, r.take hy.symm hb hle hpos hunit⟩⟩

/-! ## Release -/

/-- The heap `h'` has the live payloads of `h` but for the one at `ptr`. -/
structure Released (h : Heap) (bs : List Blk) (ptr : Nat) (h' : Heap) (bs' : List Blk) : Prop where
  rep : Rep h' bs'
  arena : h'.arena = h.arena
  arenaSize : h'.arenaSize = h.arenaSize
  live : ∀ p, Live h.arena bs' p ↔ Live h.arena bs p ∧ p ≠ ptr

theorem live_freed (hb : b.used = true) (hx : x = a + extent Blk.len pre) :
    Live a (pre ++ ⟨b.size, false⟩ :: post) p ↔
      Live a (pre ++ b :: post) p ∧ p ≠ heapPayload x := by
  have hnot : ¬ Live a (pre ++ ⟨b.size, false⟩ :: post) (heapPayload x) := not_live_middle rfl hx
  have hused : Live a (pre ++ ⟨b.size, true⟩ :: post) p ↔
      Live a (pre ++ ⟨b.size, false⟩ :: post) p ∨ p = heapPayload x :=
    live_used (b := ⟨b.size, false⟩) rfl hx
  have heq : (⟨b.size, true⟩ : Blk) = b := by rw [← hb]
  rw [heq] at hused
  rw [hused]
  constructor
  · intro h
    refine ⟨.inl h, ?_⟩
    rintro rfl
    exact hnot h
  · rintro ⟨h | h, hne⟩
    · exact h
    · exact absurd h hne

theorem Tiled.passes (t : Tiled h.mem h.arena h.arenaSize bs)
    (hx : (x, b) ∈ place Blk.len h.arena bs) (hb : b.used = true) :
    passes h (heapPayload x) = true := by
  obtain ⟨p, n, hat⟩ := t.laid.headerAt hx
  have hfit := t.block_fit hx
  have hin : ¬ (heapPayload x < h.arena ∨ heapPayload x ≥ h.arena + h.arenaSize) := by
    unfold heapPayload blockSize
    omega
  unfold Owheap.passes
  rw [t.heapHeader_payload hx, hat.magic, hat.isFree, hb]
  simpa using hin

theorem Rep.of_live (r : Rep h bs) (hlive : Live h.arena bs ptr) :
    ∃ pre b post, bs = pre ++ b :: post ∧ b.used = true ∧
      ptr = heapPayload (h.arena + extent Blk.len pre) ∧
      heapHeader ptr = h.arena + extent Blk.len pre ∧ ptr ≠ 0 ∧ passes h ptr = true ∧
      getSize h.mem (h.arena + extent Blk.len pre) = b.size := by
  obtain ⟨y, b, hmem, hb, rfl⟩ := hlive
  have hpass := r.tiled.passes hmem hb
  have hhead := r.tiled.heapHeader_payload hmem
  obtain ⟨pre, post, rfl, rfl⟩ := mem_place_iff.1 hmem
  refine ⟨pre, b, post, rfl, hb, rfl, hhead, ?_, hpass, (r.tiled.middle rfl).size⟩
  unfold heapPayload blockSize
  omega

theorem Rep.free (r : Rep h bs) (hlive : Live h.arena bs ptr) :
    (owheapFree h ptr).1 = true ∧ ∃ bs', Released h bs ptr (owheapFree h ptr).2 bs' ∧
      (Merged bs → Merged bs') := by
  obtain ⟨pre, b, post, rfl, hb, hptr, hhead, hne, hpass, hsize⟩ := r.of_live hlive
  have hcounted := r.counted
  simp only [inUse_append, inUse_cons, hb, if_true] at hcounted
  have hflags : getFlags h.mem (h.arena + extent Blk.len pre) ||| flagFree =
      Blk.flags ⟨b.size, false⟩ := by
    rw [(r.tiled.middle rfl).flags, Blk.flags, hb]
    rfl
  have ht := r.tiled.reflag (c := ⟨b.size, false⟩) rfl
  obtain ⟨bs', ht', hin, hmerged, hlive'⟩ := ht.coalesce rfl rfl
  have hshrink := account_shrink (h := h) (k := b.size) (by omega)
  have hfree : owheapFree h ptr = (true, { heapAccountShrink h b.size with
      mem := heapCoalesce (setFlags h.mem (h.arena + extent Blk.len pre) (Blk.flags ⟨b.size, false⟩))
        (h.arena + extent Blk.len pre)
      freeCount := h.freeCount + 1 }) := by
    unfold owheapFree
    rw [if_neg (by simp [r.init, hne]), if_neg (by simp [hpass]), hhead]
    dsimp only
    rw [hsize, heapAccountShrink_mem, hflags]
    rfl
  generalize heapCoalesce _ _ = m at ht' hfree
  rw [hfree]
  refine ⟨rfl, bs', ⟨⟨r.init, r.head, ht', ?_⟩, rfl, rfl, ?_⟩, fun hm => ?_⟩
  · dsimp only
    rw [hshrink, hin]
    simp only [inUse_append, inUse_cons, Bool.false_eq_true, if_false]
    omega
  · intro p
    rw [hlive', live_freed hb rfl, ← hptr]
  · obtain ⟨hpre, hpost⟩ := (merged_used hb).1 hm
    exact hmerged hpre hpost

/-- A pointer that fails the checks is left alone. -/
theorem owheapFree_of_not_passes (hpass : passes h ptr = false) : owheapFree h ptr = (false, h) := by
  unfold owheapFree
  split
  · rfl
  · rfl

/-! ## Writing to payloads -/

theorem headerByte_outside (hx : (x, b) ∈ place Blk.len a bs) (hy : HeaderByte a bs y) :
    y < x + 32 ∨ x + 32 + b.size ≤ y := by
  obtain ⟨⟨z, c⟩, hz, hlo, hhi⟩ := hy
  have hc := c.len_eq
  have hb := b.len_eq
  unfold blockSize at hhi
  dsimp only at hlo hhi
  rcases place_apart hx hz with ⟨rfl, -⟩ | hap
  · omega
  · omega

/-- Writing to a payload, or outside the arena. -/
theorem Tiled.congr {n : Nat} {m' : Mem} (t : Tiled m a n bs)
    (hs : SameOn (HeaderByte a bs) m m') : Tiled m' a n bs :=
  ⟨t.laid.congr hs, t.nonempty, t.tiles, t.pos, t.fits, t.small, t.big, t.aligned⟩

theorem copyLoop_same (m : Mem) (dst src n : Nat) :
    SameOn (fun x => x < dst ∨ dst + n ≤ x) m (copyLoop m dst src n) := by
  induction n generalizing m dst src with
  | zero => exact SameOn.refl _ _
  | succ n ih =>
    refine SameOn.trans (sameOn_store fun x hx => ?_) ((ih _ _ _).mono fun x hx => by omega)
    rw [List.length_singleton]
    omega

/-! ## Reallocation -/

/-- The payload at `q` is live in place of the one at `ptr`, or `q` is null and nothing has
changed. -/
structure Replaced (h : Heap) (bs : List Blk) (ptr q : Nat) (h' : Heap) (bs' : List Blk) :
    Prop where
  rep : Rep h' bs'
  arena : h'.arena = h.arena
  arenaSize : h'.arenaSize = h.arenaSize
  live : ∀ p, Live h.arena bs' p ↔
    if q = 0 then Live h.arena bs p else (Live h.arena bs p ∧ p ≠ ptr) ∨ p = q
  fresh : q = ptr ∨ ¬ Live h.arena bs q

theorem not_live_zero : ¬ Live a bs 0 := by
  intro hlive
  have hb := hlive.bounds
  omega

theorem Rep.replaced_null (r : Rep h' bs) (harena : h'.arena = h.arena)
    (hsize : h'.arenaSize = h.arenaSize) : Replaced h bs ptr 0 h' bs :=
  ⟨r, harena, hsize, fun _ => by rw [if_pos rfl], .inr (not_live_zero)⟩

/-- The payload keeps its place. -/
theorem Rep.replaced_self {bs' : List Blk} (r : Rep h' bs') (harena : h'.arena = h.arena)
    (hsize : h'.arenaSize = h.arenaSize) (hlive : Live h.arena bs ptr) (hptr : ptr ≠ 0)
    (hsame : ∀ p, Live h.arena bs' p ↔ Live h.arena bs p) : Replaced h bs ptr ptr h' bs' := by
  refine ⟨r, harena, hsize, fun p => ?_, .inl rfl⟩
  rw [if_neg hptr, hsame]
  constructor
  · intro hp
    by_cases heq : p = ptr
    · exact .inr heq
    · exact .inl ⟨hp, heq⟩
  · rintro (⟨hp, -⟩ | rfl)
    · exact hp
    · exact hlive

theorem Rep.move (r : Rep h bs) (hlive : Live h.arena bs ptr) {original : Nat}
    (hneed : heapAlign size = need) :
    ∃ q h' bs', moveBlock h ptr size original need = some (q, h') ∧
      Replaced h bs ptr q h' bs' ∧ (Merged bs → Merged bs') := by
  obtain ⟨q, h1, heq, hcases⟩ := r.alloc size
  unfold moveBlock
  rw [heq]
  rcases hcases with ⟨rfl, rfl⟩ | ⟨hq, bs1, hg, hm1⟩
  · exact ⟨0, h1, bs, rfl, r.replaced_null rfl rfl, id⟩
  · obtain ⟨k, rfl⟩ : ∃ k, q = k + 1 := ⟨q - 1, by omega⟩
    dsimp only
    set copy := if original < need then original else need with hcopy
    have hle : copy ≤ need := by
      rw [hcopy]
      split <;> omega
    obtain ⟨y, c, hmem, hused, hpay, hroom⟩ := hg.block
    rw [hneed] at hroom
    -- the copy stays in the fresh payload
    have r2 : Rep { h1 with mem := copyLoop h1.mem (k + 1) ptr copy } bs1 := by
      refine ⟨hg.rep.init, hg.rep.head, hg.rep.tiled.congr ?_, hg.rep.counted⟩
      refine (copyLoop_same h1.mem (k + 1) ptr copy).mono fun x hx => ?_
      rw [hg.arena] at hx
      have hout := headerByte_outside hmem hx
      unfold heapPayload blockSize at hpay
      omega
    have hlive1 : Live h1.arena bs1 ptr := by
      rw [hg.arena]
      exact (hg.live ptr).2 (.inl hlive)
    obtain ⟨-, bs2, hrel, hm2⟩ := r2.free hlive1
    have hqptr : k + 1 ≠ ptr := by
      rintro hcon
      exact hg.fresh (hcon ▸ hlive)
    refine ⟨k + 1, _, bs2, rfl, ⟨hrel.rep, hrel.arena.trans hg.arena,
      hrel.arenaSize.trans hg.arenaSize, fun p => ?_, .inr hg.fresh⟩, hm2 ∘ hm1⟩
    have hlive2 := hrel.live p
    dsimp only at hlive2
    rw [hg.arena] at hlive2
    rw [hlive2, hg.live, if_neg hq]
    constructor
    · rintro ⟨hp | hp, hne⟩
      · exact .inl ⟨hp, hne⟩
      · exact .inr hp
    · rintro (⟨hp, hne⟩ | rfl)
      · exact ⟨.inl hp, hne⟩
      · exact ⟨.inr rfl, hqptr⟩

/-- The counter is brought up to date after a block has changed in place. -/
theorem Rep.recount {bs' : List Blk} {original k : Nat} (r : Rep h bs)
    (ht : Tiled m h.arena h.arenaSize bs') (hin : inUse bs' + original = inUse bs + k)
    (hle : original ≤ inUse bs) :
    Rep (heapAccountGrow { heapAccountShrink h original with mem := m } k) bs' := by
  have hcounter := r.counter_le
  have htotal := inUse_le bs'
  rw [ht.tiles] at htotal
  have hcounted := r.counted
  have hshrink := account_shrink (h := h) (k := original) (by omega)
  have hgrow := account_grow (h := { heapAccountShrink h original with mem := m }) (k := k) (by
    dsimp only
    rw [hshrink]
    omega)
  refine ⟨r.init, r.head, ht, ?_⟩
  rw [hgrow]
  dsimp only
  rw [hshrink]
  omega

theorem live_cut_used (hb : b.used = true) (hx : x = a + extent Blk.len pre) :
    Live a (pre ++ ⟨kept b.size need, b.used⟩ :: (spare b.size need ++ post)) p ↔
      Live a (pre ++ b :: post) p := by
  rw [hb, live_cut hx]
  have heq : (⟨b.size, true⟩ : Blk) = b := by rw [← hb]
  rw [heq]

/-- A block is cut in front of a free one. -/
def CutsBefore (h : Heap) (ptr : Nat) (size : UInt64) : Prop :=
  heapAlign size ≠ 0 ∧
    heapAlign size + (blockSize + heapUnit) ≤ getSize h.mem (heapHeader ptr) ∧
    getNext h.mem (heapHeader ptr) ≠ 0 ∧ isFree h.mem (getNext h.mem (heapHeader ptr)) = true

theorem merged_cut (t : Tiled m a n (pre ++ b :: post)) (hx : x = a + extent Blk.len pre)
    (hb : b.used = true) (hm : Merged (pre ++ b :: post)) :
    Merged (pre ++ ⟨kept b.size need, b.used⟩ :: (spare b.size need ++ post)) ↔
      ¬ (need + 40 ≤ b.size ∧ getNext m x ≠ 0 ∧ isFree m (getNext m x) = true) := by
  obtain ⟨hpre, hpost⟩ := (merged_used hb).1 hm
  have hspare : spare b.size need = [] ↔ ¬ need + 40 ≤ b.size := by
    unfold spare
    split
    next h => simpa using h
    next h => simpa using h
  rw [merged_used (b := ⟨kept b.size need, b.used⟩) hb, and_iff_right hpre, merged_spare, and_iff_left hpost,
    hspare, (t.middle hx).next, not_and_or]
  refine or_congr_right ?_
  cases post with
  | nil => simp [linkTo]
  | cons c post =>
    have hc : (x + b.len, c) ∈ place Blk.len a (pre ++ b :: c :: post) := by
      have hmem := mem_place_middle a (pre ++ [b]) c post
      rwa [List.append_assoc, List.singleton_append, extent_append, extent, extent, Nat.add_zero,
        ← Nat.add_assoc, ← hx] at hmem
    obtain ⟨_, _, hatc⟩ := t.laid.headerAt hc
    have hpos : x + b.len ≠ 0 := by
      rw [b.len_eq]
      omega
    rw [linkTo_cons, hatc.isFree, not_and, imp_iff_right hpos]
    simp

theorem Rep.realloc (r : Rep h bs) (hlive : Live h.arena bs ptr) (hsize0 : size ≠ 0) :
    ∃ q h' bs', owheapRealloc h ptr size = some (q, h') ∧ Replaced h bs ptr q h' bs' ∧
      (Merged bs → (Merged bs' ↔ ¬ CutsBefore h ptr size)) := by
  obtain ⟨pre, b, post, rfl, hb, hptr, hhead, hne, hpass, hsize⟩ := r.of_live hlive
  have hle : b.size ≤ inUse (pre ++ b :: post) := by
    simp only [inUse_append, inUse_cons, hb, if_true]
    omega
  unfold owheapRealloc CutsBefore
  rw [if_neg (by simp [r.init]), if_neg hne, if_neg hsize0, if_neg (by simp [hpass]), hhead]
  dsimp only
  rw [hsize]
  generalize hx : h.arena + extent Blk.len pre = x at *
  split
  next hneed0 =>
    exact ⟨0, h, _, rfl, r.replaced_null rfl rfl, fun hm => iff_of_true hm fun hc => hc.1 hneed0⟩
  next hneed0 =>
    obtain ⟨hpos, hunit, hsmall⟩ := heapAlign_spec hneed0
    split
    next hfits =>
      -- the block is cut in place
      have ht := r.tiled.split hx.symm hfits hpos hunit
      rw [heapAccountShrink_mem, (ht.middle hx.symm).size]
      refine ⟨ptr, _, _, rfl, Rep.replaced_self (r.recount ht ?_ hle) rfl rfl hlive hne
        fun p => live_cut_used hb hx.symm, fun hm => ?_⟩
      swap
      · rw [merged_cut r.tiled hx.symm hb hm, and_iff_right hneed0]
        exact Iff.rfl
      simp only [inUse_append, inUse_cons, inUse_spare, hb, if_true]
      omega
    next hgrow =>
      split
      next hnext =>
        -- the block grows into the one behind it
        have hmid := r.tiled.middle hx.symm
        rw [heapAccountShrink_mem, hmid.next] at hnext ⊢
        cases post with
        | nil => exact absurd rfl hnext.1
        | cons c post =>
          rw [linkTo_cons] at hnext ⊢
          have hc : (x + b.len, c) ∈ place Blk.len h.arena (pre ++ b :: c :: post) := by
            have hmem := mem_place_middle h.arena (pre ++ [b]) c post
            rwa [List.append_assoc, List.singleton_append, extent_append, extent, extent,
              Nat.add_zero, ← Nat.add_assoc, hx] at hmem
          obtain ⟨pc, nc, hatc⟩ := r.tiled.laid.headerAt hc
          rw [hatc.isFree, hatc.size] at hnext
          have hcfree : c.used = false := by simpa using hnext.2.1
          have hroom : heapAlign size ≤ b.size + c.len := by
            have hmod := hnext.2.2
            have hmodle := Nat.mod_le (b.size + blockSize + c.size) (2 ^ 32)
            rw [c.len_eq]
            unfold blockSize at hmod hmodle
            omega
          have hjoin := r.tiled.join hx.symm
          have ht := hjoin.split hx.symm hroom hpos hunit
          rw [(ht.middle hx.symm).size]
          refine ⟨ptr, _, _, rfl, Rep.replaced_self (r.recount ht ?_ hle) rfl rfl hlive hne
            fun p => (live_cut_used (b := ⟨b.size + c.len, b.used⟩) hb hx.symm).trans
              (live_join hcfree), fun hm =>
              iff_of_true ?_ fun hc => hgrow (Nat.le_of_add_right_le hc.2.1)⟩
          swap
          · obtain ⟨hpre, hpost⟩ := (merged_used hb).1 hm
            exact (merged_used (b := ⟨kept (b.size + c.len) (heapAlign size), b.used⟩) hb).2
              ⟨hpre, merged_spare.2 (((merged_free hcfree).1 hpost).imp_left .inr)⟩
          simp only [inUse_append, inUse_cons, inUse_spare, hb, hcfree, if_true,
            Bool.false_eq_true, if_false]
          omega
      · have r' : Rep (heapAccountGrow (heapAccountShrink h b.size) b.size) (pre ++ b :: post) :=
          r.recount r.tiled rfl hle
        obtain ⟨q, h', bs', heq, hrep, hm⟩ := r'.move hlive rfl
        exact ⟨q, h', bs', heq, ⟨hrep.rep, hrep.arena, hrep.arenaSize, hrep.live, hrep.fresh⟩,
          fun h => iff_of_true (hm h) fun hc => hgrow (Nat.le_of_add_right_le hc.2.1)⟩

end Owheap
