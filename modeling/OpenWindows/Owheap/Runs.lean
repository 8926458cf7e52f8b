import OpenWindows.Lib.Linked
import OpenWindows.Lib.StepSystem
import OpenWindows.Owheap.Calls

/-!
# The heap in use

A program allocates, frees and reallocates, writes to the payloads it holds and to memory outside
the arena, and may free pointers that it does not hold.  The blocks stay in order through every
such run in which a pointer that is not live does not look live when it is freed.  A freed block
keeps its header in the payload of the block that absorbed it, and a later header that overlaps
it can clear its flag: `stale_pointer_freed`.
-/

namespace Owheap

open Memory Tiling Linked StepSystem

variable {m : Mem} {h : Heap} {bs : List Blk} {b : Blk} {a n x : Nat}

/-! ## The block list -/

/-- A pointer, if it is not null. -/
def toLink (p : Nat) : Option Nat := if p = 0 then none else some p

/-- The block list from `head`, with the payloads that are live. -/
structure Ordered (h : Heap) (live l : List Nat) : Prop where
  visited : Visits (fun b => toLink (getNext h.mem b)) (toLink h.head) l
  ascending : l.Pairwise (· < ·)
  first : l.head? = some h.arena
  adjacent : l.IsChain fun b c => heapPayload b + getSize h.mem b = c
  last : ∀ b ∈ l.getLast?, heapPayload b + getSize h.mem b = h.arena + h.arenaSize
  back : ∀ b ∈ l, (getNext h.mem b ≠ 0 → getPrev h.mem (getNext h.mem b) = b) ∧
    (getPrev h.mem b ≠ 0 → getNext h.mem (getPrev h.mem b) = b)
  held : ∀ p, p ∈ live ↔ ∃ b ∈ l, isFree h.mem b = false ∧ p = heapPayload b
  aligned : ∀ p ∈ live, p % heapUnit = 0
  apart : live.Pairwise fun p q => p + getSize h.mem (heapHeader p) ≤ q ∨
    q + getSize h.mem (heapHeader q) ≤ p
  counted : h.bytesInUse.toNat =
    ((l.filter fun b => !isFree h.mem b).map fun b => getSize h.mem b).sum

def addrs (a : Nat) (bs : List Blk) : List Nat := (place Blk.len a bs).map Prod.fst

theorem mem_addrs : x ∈ addrs a bs ↔ ∃ b, (x, b) ∈ place Blk.len a bs := by
  simp [addrs]

theorem addrs_cons : addrs a (b :: bs) = a :: addrs (a + b.len) bs := rfl

variable {prev stop : Nat}

theorem Laid.visits (hl : Laid m prev a bs 0) (ha : 0 < a) :
    Visits (fun b => toLink (getNext m b)) (toLink (linkTo a bs)) (addrs a bs) := by
  induction bs generalizing prev a with
  | nil => exact .nil
  | cons b bs ih =>
    have hrest := ih hl.2 (by rw [b.len_eq]; omega)
    have hnext : getNext m a = linkTo (a + b.len) bs := hl.1.next
    rw [linkTo_cons, addrs_cons, toLink, if_neg (by omega)]
    refine .cons ?_
    rw [hnext]
    exact hrest

theorem Laid.chain (hl : Laid m prev a bs stop) :
    (addrs a bs).IsChain fun b c => heapPayload b + getSize m b = c := by
  induction bs generalizing prev a with
  | nil => exact .nil
  | cons b bs ih =>
    cases bs with
    | nil => exact .singleton _
    | cons c bs =>
      refine .cons_cons ?_ (ih hl.2)
      rw [hl.1.size, b.len_eq]
      unfold heapPayload blockSize
      omega

theorem Laid.last_end (hl : Laid m prev a bs stop) :
    ∀ b ∈ (addrs a bs).getLast?, heapPayload b + getSize m b = a + extent Blk.len bs := by
  induction bs generalizing prev a with
  | nil => exact fun b hb => by cases hb
  | cons b bs ih =>
    cases bs with
    | nil =>
      intro y hy
      obtain rfl : a = y := Option.some.inj hy
      rw [hl.1.size, extent, extent, b.len_eq]
      unfold heapPayload blockSize
      omega
    | cons c bs =>
      intro y hy
      rw [addrs_cons, addrs_cons, List.getLast?_cons_cons, ← addrs_cons] at hy
      rw [ih hl.2 y hy, extent.eq_2 _ b, Nat.add_assoc]

theorem Laid.counts (hl : Laid m prev a bs stop) :
    (((addrs a bs).filter fun b => !isFree m b).map fun b => getSize m b).sum = inUse bs := by
  induction bs generalizing prev a with
  | nil => rfl
  | cons b bs ih =>
    rw [addrs_cons, List.filter_cons, hl.1.isFree, inUse_cons, ← ih hl.2]
    cases b.used with
    | true => simp [hl.1.size]
    | false => simp

theorem addrs_ascending (a : Nat) (bs : List Blk) : (addrs a bs).Pairwise (· < ·) := by
  refine List.isChain_iff_pairwise.1 ((List.isChain_map _).2 ?_)
  refine place_isChain.imp fun p q hpq => ?_
  rw [Blk.len_eq] at hpq
  omega

theorem Tiled.back (t : Tiled m a n bs) (hmem : x ∈ addrs a bs) :
    (getNext m x ≠ 0 → getPrev m (getNext m x) = x) ∧
      (getPrev m x ≠ 0 → getNext m (getPrev m x) = x) := by
  obtain ⟨b, hplace⟩ := mem_addrs.1 hmem
  obtain ⟨pre, post, rfl, hx⟩ := mem_place_iff.1 hplace
  have hat := t.middle hx
  constructor
  · intro hne
    cases post with
    | nil => exact absurd hat.next hne
    | cons c post =>
      rw [hat.next, linkTo_cons]
      have hlaid := (laid_arena.1 t.laid).2.2.1
      rw [← hx] at hlaid
      exact hlaid.prev
  · intro hne
    rcases List.eq_nil_or_concat pre with rfl | ⟨pre, d, rfl⟩
    · exact absurd hat.prev hne
    · rw [List.concat_eq_append] at *
      rw [hat.prev, lastAddr_concat]
      rw [List.append_assoc, List.singleton_append] at t
      rw [(t.middle rfl).next, linkTo_cons, hx, extent_append, extent, extent]
      omega

/-- The flags of the headers are those of the blocks. -/
theorem Tiled.merged_iff (t : Tiled m a n bs) :
    ((addrs a bs).IsChain fun b c => isFree m b = false ∨ isFree m c = false) ↔ Merged bs := by
  have hplace : (place Blk.len a bs).map Prod.snd = bs := map_snd_place
  unfold addrs Merged
  conv => rhs; rw [← hplace]
  rw [List.isChain_map, List.isChain_map]
  refine List.IsChain.iff_of_mem_imp fun p q hp hq => ?_
  obtain ⟨_, _, hatp⟩ := t.laid.headerAt hp
  obtain ⟨_, _, hatq⟩ := t.laid.headerAt hq
  rw [hatp.isFree, hatq.isFree]
  simp

theorem Rep.ordered (r : Rep h bs) {live : List Nat} (hlive : ∀ p, p ∈ live ↔ Live h.arena bs p)
    (hnodup : live.Nodup) : Ordered h live (addrs h.arena bs) where
  visited := by
    have hv := r.tiled.laid.visits r.tiled.pos
    have hstart : linkTo h.arena bs = h.head := by
      rw [r.head]
      cases hbs : bs with
      | nil => exact absurd hbs r.tiled.nonempty
      | cons b bs => rfl
    rwa [hstart] at hv
  ascending := addrs_ascending _ _
  first := by
    cases hbs : bs with
    | nil => exact absurd hbs r.tiled.nonempty
    | cons b bs => rfl
  adjacent := r.tiled.laid.chain
  last := by
    intro b hb
    rw [r.tiled.laid.last_end b hb, r.tiled.tiles]
  back := fun b hb => r.tiled.back hb
  held := by
    intro p
    rw [hlive]
    constructor
    · rintro ⟨y, b, hmem, hused, rfl⟩
      obtain ⟨_, _, hat⟩ := r.tiled.laid.headerAt hmem
      exact ⟨y, mem_addrs.2 ⟨b, hmem⟩, by rw [hat.isFree, hused]; rfl, rfl⟩
    · rintro ⟨y, hy, hfree, rfl⟩
      obtain ⟨b, hmem⟩ := mem_addrs.1 hy
      obtain ⟨_, _, hat⟩ := r.tiled.laid.headerAt hmem
      rw [hat.isFree] at hfree
      exact ⟨y, b, hmem, by simpa using hfree, rfl⟩
  aligned := by
    intro p hp
    obtain ⟨y, b, hmem, -, rfl⟩ := (hlive p).1 hp
    have hal := r.tiled.aligned _ hmem
    simp only [heapPayload, blockSize, heapUnit] at hal ⊢
    omega
  apart := by
    refine hnodup.pairwise_of_forall_ne fun p hp q hq hne => ?_
    obtain ⟨y, b, hmem, -, rfl⟩ := (hlive p).1 hp
    obtain ⟨z, c, hmem', -, rfl⟩ := (hlive q).1 hq
    obtain ⟨_, _, hat⟩ := r.tiled.laid.headerAt hmem
    obtain ⟨_, _, hat'⟩ := r.tiled.laid.headerAt hmem'
    rw [r.tiled.heapHeader_payload hmem, r.tiled.heapHeader_payload hmem', hat.size, hat'.size]
    rcases place_apart hmem hmem' with ⟨rfl, -⟩ | hap
    · exact absurd rfl hne
    · rw [b.len_eq, c.len_eq] at hap
      unfold heapPayload blockSize
      omega
  counted := by rw [r.counted, r.tiled.laid.counts]

/-! ## Programs -/

/-- The heap and the payloads that a program holds. -/
structure Sys where
  heap : Heap
  live : List Nat

/-- What a program does. -/
inductive Op
  | alloc (size : UInt64)
  | free (ptr : Nat)
  | realloc (ptr : Nat) (size : UInt64)
  | write (addr : Nat) (bytes : List UInt8)

/-- The state after a call that returned, or as it was when the call does not return. -/
def returned (s : Sys) (o : Option (Nat × Heap)) (live : Nat → List Nat) : Sys :=
  match o with
  | none => s
  | some (p, h) => ⟨h, live p⟩

/-- The state after one operation. -/
def next (s : Sys) : Op → Sys
  | .alloc size =>
    returned s (owheapAlloc s.heap size) fun p => if p = 0 then s.live else p :: s.live
  | .free ptr => ⟨(owheapFree s.heap ptr).2, s.live.erase ptr⟩
  | .realloc ptr size =>
    returned s (owheapRealloc s.heap ptr size) fun p =>
      -- a null pointer leaves the old payload, unless the size was zero
      if p = 0 then (if size = 0 then s.live.erase ptr else s.live) else p :: s.live.erase ptr
  | .write addr bytes => ⟨{ s.heap with mem := store s.heap.mem addr bytes }, s.live⟩

/-- What a program may do: it reallocates payloads it holds, and writes to them or outside the
arena. -/
def Allowed (s : Sys) : Op → Prop
  | .realloc ptr _ => ptr = 0 ∨ ptr ∈ s.live
  | .write addr bytes =>
    (∃ p ∈ s.live, p ≤ addr ∧ addr + bytes.length ≤ p + getSize s.heap.mem (heapHeader p)) ∨
      addr + bytes.length ≤ s.heap.arena ∨ s.heap.arena + s.heap.arenaSize ≤ addr
  | _ => True

/-- The calls that walk along the blocks return. -/
def Returns (s : Sys) : Op → Prop
  | .alloc size => (owheapAlloc s.heap size).isSome
  | .realloc ptr size => (owheapRealloc s.heap ptr size).isSome
  | _ => True

/-- A free of a pointer that is not live changes nothing. -/
def Inert (s : Sys) : Op → Prop
  | .free ptr => ptr ∉ s.live → owheapFree s.heap ptr = (false, s.heap)
  | _ => True

/-- The memory in front of a pointer into the arena reads as the header of a block in use. -/
def LooksLive (h : Heap) (ptr : Nat) : Prop :=
  (h.arena ≤ ptr ∧ ptr < h.arena + h.arenaSize) ∧ getMagic h.mem (heapHeader ptr) = heapMagic ∧
    isFree h.mem (heapHeader ptr) = false

def Discerned (s : Sys) : Op → Prop
  | .free ptr => ptr ∈ s.live ∨ ¬ LooksLive s.heap ptr
  | _ => True

/-- A reallocation does not cut a block in front of a free one. -/
def Uncut (s : Sys) : Op → Prop
  | .realloc ptr size => ptr ≠ 0 → size ≠ 0 → ¬ CutsBefore s.heap ptr size
  | _ => True

/-- The blocks are in order. -/
def Sound (s : Sys) : Prop := ∃ l, Ordered s.heap s.live l

/-- What the heap promises of an operation. -/
def Keeps (s : Sys) (op : Op) : Prop := Returns s op ∧ Inert s op ∧ Sound (next s op)

/-- The heap represents a layout, and the program holds what is live of it. -/
structure Inv (s : Sys) (bs : List Blk) : Prop where
  rep : Rep s.heap bs
  held : ∀ p, p ∈ s.live ↔ Live s.heap.arena bs p
  nodup : s.live.Nodup

variable {s : Sys} {ptr : Nat} {size : UInt64}

theorem Inv.sound (i : Inv s bs) : Sound s := ⟨_, i.rep.ordered i.held i.nodup⟩

theorem passes_iff : passes h ptr = true ↔ LooksLive h ptr := by
  unfold passes LooksLive
  simp [and_assoc]

/-! ## One operation -/

theorem Inv.not_mem_zero (i : Inv s bs) : 0 ∉ s.live := fun h => not_live_zero ((i.held 0).1 h)

theorem Inv.alloc (i : Inv s bs) (size : UInt64) :
    Returns s (.alloc size) ∧ ∃ bs', Inv (next s (.alloc size)) bs' ∧
      (Merged bs → Merged bs') := by
  obtain ⟨p, h', heq, hcases⟩ := i.rep.alloc size
  rw [Returns, next, heq]
  refine ⟨rfl, ?_⟩
  rcases hcases with ⟨rfl, rfl⟩ | ⟨hp, bs', hg, hm⟩
  · exact ⟨bs, ⟨i.rep, i.held, i.nodup⟩, id⟩
  · refine ⟨bs', ⟨hg.rep, ?_, ?_⟩, hm⟩
    · intro q
      dsimp only [returned]
      rw [if_neg hp, hg.arena, hg.live, List.mem_cons, i.held, or_comm]
    · dsimp only [returned]
      rw [if_neg hp, List.nodup_cons, i.held]
      exact ⟨hg.fresh, i.nodup⟩

theorem Inv.released {h' : Heap} {bs' : List Blk} (i : Inv s bs)
    (hr : Released s.heap bs ptr h' bs') : Inv ⟨h', s.live.erase ptr⟩ bs' := by
  refine ⟨hr.rep, fun p => ?_, i.nodup.erase ptr⟩
  dsimp only
  rw [hr.arena, hr.live, i.nodup.mem_erase_iff, i.held, and_comm]

theorem Inv.free_live (i : Inv s bs) (hptr : ptr ∈ s.live) :
    ∃ bs', Inv (next s (.free ptr)) bs' ∧ (Merged bs → Merged bs') := by
  obtain ⟨-, bs', hr, hm⟩ := i.rep.free ((i.held ptr).1 hptr)
  exact ⟨bs', i.released hr, hm⟩

theorem Inv.free_stray (i : Inv s bs) (hptr : ptr ∉ s.live) (hlook : ¬ LooksLive s.heap ptr) :
    owheapFree s.heap ptr = (false, s.heap) ∧ Inv (next s (.free ptr)) bs := by
  have hpass : passes s.heap ptr = false := by
    rw [← passes_iff, Bool.not_eq_true] at hlook
    exact hlook
  have hfree := owheapFree_of_not_passes hpass
  refine ⟨hfree, ?_⟩
  rw [next, hfree, List.erase_of_not_mem hptr]
  exact i

theorem Inv.free_iff (i : Inv s bs) : Inert s (.free ptr) ↔ Discerned s (.free ptr) := by
  constructor
  · intro hin
    by_cases hptr : ptr ∈ s.live
    · exact .inl hptr
    · refine .inr fun hlook => ?_
      have hne : ptr ≠ 0 := by
        rintro rfl
        have hpos := i.rep.tiled.pos
        have hlo := hlook.1.1
        omega
      -- a pointer that looks live is freed
      have hres := congrArg Prod.fst (hin hptr)
      unfold owheapFree at hres
      rw [if_neg (by simp [i.rep.init, hne]), if_neg (by simp [passes_iff.2 hlook])] at hres
      exact Bool.noConfusion hres
  · rintro (hptr | hlook) hnot
    · exact absurd hptr hnot
    · exact (i.free_stray hnot hlook).1

theorem Inv.realloc (i : Inv s bs) (hop : Allowed s (.realloc ptr size)) :
    Returns s (.realloc ptr size) ∧ ∃ bs', Inv (next s (.realloc ptr size)) bs' ∧
      (Merged bs → (Merged bs' ↔ Uncut s (.realloc ptr size))) := by
  rcases hop with rfl | hptr
  · -- a null pointer is allocated
    have hcall : owheapRealloc s.heap 0 size = owheapAlloc s.heap size := by
      unfold owheapRealloc
      rw [if_neg (by simp [i.rep.init]), if_pos rfl]
    have herase : s.live.erase 0 = s.live := List.erase_of_not_mem i.not_mem_zero
    have hret : Returns s (.realloc 0 size) = Returns s (.alloc size) := by
      rw [Returns, Returns, hcall]
    have hnext : next s (.realloc 0 size) = next s (.alloc size) := by
      simp only [next, hcall, herase, ite_self]
    rw [hret, hnext]
    obtain ⟨hreturns, bs', hinv, hm⟩ := i.alloc size
    exact ⟨hreturns, bs', hinv, fun h => iff_of_true (hm h) fun hne => absurd rfl hne⟩
  · have hlive := (i.held ptr).1 hptr
    obtain ⟨_, _, _, -, -, -, -, hne, -, -⟩ := i.rep.of_live hlive
    by_cases hsize : size = 0
    · obtain ⟨-, bs', hr, hm⟩ := i.rep.free hlive
      have hcall : owheapRealloc s.heap ptr size = some (0, (owheapFree s.heap ptr).2) := by
        unfold owheapRealloc
        rw [if_neg (by simp [i.rep.init]), if_neg hne, if_pos hsize]
      rw [Returns, next, hcall]
      refine ⟨rfl, bs', ?_, fun h => iff_of_true (hm h) fun _ hsize' => absurd hsize hsize'⟩
      dsimp only [returned]
      rw [if_pos rfl, if_pos hsize]
      exact i.released hr
    · obtain ⟨q, h', bs', heq, hr, hm⟩ := i.rep.realloc hlive hsize
      have huncut : Uncut s (.realloc ptr size) ↔ ¬ CutsBefore s.heap ptr size :=
        ⟨fun h => h hne hsize, fun h _ _ => h⟩
      rw [Returns, next, heq, huncut]
      refine ⟨rfl, bs', ⟨hr.rep, fun p => ?_, ?_⟩, hm⟩
      · dsimp only [returned]
        rw [hr.arena, hr.live, if_neg hsize]
        split
        · exact i.held p
        · rw [List.mem_cons, i.nodup.mem_erase_iff, i.held, or_comm, and_comm]
      · dsimp only [returned]
        rw [if_neg hsize]
        split
        · exact i.nodup
        · rw [List.nodup_cons, i.nodup.mem_erase_iff, i.held]
          refine ⟨fun hq => ?_, i.nodup.erase ptr⟩
          exact hr.fresh.elim hq.1 fun hnot => hnot hq.2

theorem Inv.write (i : Inv s bs) {addr : Nat} {bytes : List UInt8}
    (hop : Allowed s (.write addr bytes)) : Inv (next s (.write addr bytes)) bs := by
  refine ⟨⟨i.rep.init, i.rep.head, i.rep.tiled.congr ?_, i.rep.counted⟩, i.held, i.nodup⟩
  refine sameOn_store fun x hx => ?_
  have hbounds := hx.bounds
  rw [i.rep.tiled.tiles] at hbounds
  rcases hop with ⟨p, hp, hlo, hhi⟩ | hout
  · obtain ⟨y, b, hmem, -, rfl⟩ := (i.held p).1 hp
    obtain ⟨_, _, hat⟩ := i.rep.tiled.laid.headerAt hmem
    rw [i.rep.tiled.heapHeader_payload hmem, hat.size] at hhi
    have hside := headerByte_outside hmem hx
    unfold heapPayload blockSize at hlo hhi
    omega
  · omega

/-- What one operation keeps. -/
theorem Inv.next (i : Inv s bs) {op : Op} (hop : Allowed s op) (hd : Discerned s op) :
    Returns s op ∧ ∃ bs', Inv (next s op) bs' ∧ (Merged bs → (Merged bs' ↔ Uncut s op)) := by
  cases op with
  | alloc size =>
    obtain ⟨hreturns, bs', hinv, hm⟩ := i.alloc size
    exact ⟨hreturns, bs', hinv, fun h => iff_of_true (hm h) trivial⟩
  | free ptr =>
    refine ⟨trivial, ?_⟩
    by_cases hptr : ptr ∈ s.live
    · obtain ⟨bs', hinv, hm⟩ := i.free_live hptr
      exact ⟨bs', hinv, fun h => iff_of_true (hm h) trivial⟩
    · exact ⟨bs, (i.free_stray hptr (hd.resolve_left hptr)).2, fun h => iff_of_true h trivial⟩
  | realloc ptr size => exact i.realloc hop
  | write addr bytes => exact ⟨trivial, bs, i.write hop, fun h => iff_of_true h trivial⟩

theorem Inv.keeps_iff (i : Inv s bs) {op : Op} :
    Allowed s op ∧ Keeps s op ↔ Allowed s op ∧ Discerned s op := by
  constructor
  · rintro ⟨hop, -, hin, -⟩
    cases op with
    | free ptr => exact ⟨hop, i.free_iff.1 hin⟩
    | _ => exact ⟨hop, trivial⟩
  · rintro ⟨hop, hd⟩
    obtain ⟨hret, bs', hnext, -⟩ := i.next hop hd
    refine ⟨hop, hret, ?_, hnext.sound⟩
    cases op with
    | free ptr => exact i.free_iff.2 hd
    | _ => trivial

/-! ## Runs -/

/-- The heap after `owheap_init`. -/
def started (h : Heap) (arena : Nat) (size : UInt64) : Sys := ⟨(owheapInit h arena size).2, []⟩

theorem started_inv {arena : Nat} (hok : (owheapInit h arena size).1 = true)
    (hfit : arena + size.toNat ≤ 2 ^ 64) :
    ∃ usable, Inv (started h arena size) [⟨usable - 32, false⟩] := by
  unfold started
  unfold owheapInit at hok ⊢
  split at hok
  · exact Bool.noConfusion hok
  next hne =>
    rw [if_neg hne]
    dsimp only at hok ⊢
    split at hok
    · exact Bool.noConfusion hok
    next hskip =>
      rw [if_neg hskip]
      split at hok
      · exact Bool.noConfusion hok
      next hlow =>
        rw [if_neg hlow]
        split at hok
        · exact Bool.noConfusion hok
        next hhigh =>
          rw [if_neg hhigh]
          unfold heapUnit blockSize at *
          generalize hal : (arena + (8 - 1)) % 2 ^ 64 / 8 * 8 = aligned at *
          generalize hus : size.toNat - (aligned + (2 ^ 64 - arena)) % 2 ^ 64 = usable at *
          have hrange : 0 < aligned ∧ aligned + usable ≤ 2 ^ 64 ∧ aligned % 8 = 0 := by omega
          have hlen : Blk.len ⟨usable - 32, false⟩ = usable := by
            rw [Blk.len_eq]
            dsimp only
            omega
          have hhead : HeaderAt (stampRest h.mem aligned (usable - 32) 0 0) aligned
              ⟨usable - 32, false⟩ 0 0 :=
            stampRest_header h.mem aligned (by omega) (by decide) (by decide)
          refine ⟨usable, ⟨rfl, rfl, ?_, rfl⟩, fun p => ?_, List.nodup_nil⟩
          · refine ⟨⟨hhead, trivial⟩, List.cons_ne_nil _ _, ?_, hrange.1, hrange.2.1, ?_, ?_, ?_⟩
            · simp [extent, hlen]
            · dsimp only
              omega
            · intro b hb
              rw [List.mem_singleton.1 hb]
              dsimp only
              omega
            · intro q hq
              rw [List.mem_singleton.1 hq]
              exact hrange.2.2
          · refine ⟨fun hp => (List.not_mem_nil hp).elim, ?_⟩
            rintro ⟨y, b, hmem, hused, -⟩
            rw [List.mem_singleton.1 (mem_of_mem_place hmem)] at hused
            cases hused

/-- In every run over every arena the blocks stay in order, and pointers that are not live are
freed without effect, exactly when no pointer that is not live looks so when it is freed. -/
theorem ordered_iff_discerned (h : Heap) {arena : Nat} {size : UInt64}
    (hok : (owheapInit h arena size).1 = true) (hfit : arena + size.toNat ≤ 2 ^ 64)
    {ops : List Op} (hops : Along next Allowed (started h arena size) ops) :
    Sound (started h arena size) ∧ Along next Keeps (started h arena size) ops ↔
      Along next Discerned (started h arena size) ops := by
  obtain ⟨usable, hinv⟩ := started_inv hok hfit
  have halong : Along next (fun s op => Allowed s op ∧ Keeps s op) (started h arena size) ops ↔
      Along next (fun s op => Allowed s op ∧ Discerned s op) (started h arena size) ops :=
    along_iff (I := fun s => ∃ bs, Inv s bs) (fun _ _ ⟨_, i⟩ => i.keeps_iff)
      (fun _ _ ⟨_, i⟩ hq =>
        let ⟨_, bs', hnext, _⟩ := i.next hq.1 hq.2
        ⟨bs', hnext⟩) ⟨_, hinv⟩ ops
  rw [along_and, along_and, and_iff_right hops, and_iff_right hops] at halong
  rw [halong]
  exact and_iff_right hinv.sound

/-! ## Fragments -/

/-- No two blocks of the list that stand side by side are free, and without a live payload the
list is one free block that takes up the arena. -/
def Whole (s : Sys) : Prop :=
  ∃ l, Ordered s.heap s.live l ∧
    (l.IsChain fun b c => isFree s.heap.mem b = false ∨ isFree s.heap.mem c = false) ∧
    (s.live = [] → l = [s.heap.arena] ∧ isFree s.heap.mem s.heap.arena = true ∧
      heapPayload s.heap.arena + getSize s.heap.mem s.heap.arena =
        s.heap.arena + s.heap.arenaSize)

theorem Merged.single (hm : Merged bs) (hne : bs ≠ []) (hfree : ∀ b ∈ bs, b.used = false) :
    ∃ b, bs = [b] ∧ b.used = false := by
  cases bs with
  | nil => exact absurd rfl hne
  | cons b bs =>
    have hb := hfree b List.mem_cons_self
    cases bs with
    | nil => exact ⟨b, rfl, hb⟩
    | cons c bs =>
      have hc := hfree c (List.mem_cons_of_mem _ List.mem_cons_self)
      have hused := ((merged_free hb).1 hm).1 c rfl
      rw [hc] at hused
      cases hused

theorem Inv.whole_iff (i : Inv s bs) : Whole s ↔ Merged bs := by
  have hordered := i.rep.ordered i.held i.nodup
  constructor
  · rintro ⟨l, hl, hchain, -⟩
    rw [hl.visited.unique hordered.visited] at hchain
    exact i.rep.tiled.merged_iff.1 hchain
  · intro hm
    refine ⟨_, hordered, i.rep.tiled.merged_iff.2 hm, fun hlive => ?_⟩
    have hfree : ∀ b ∈ bs, b.used = false := by
      intro b hb
      have hplace : (place Blk.len s.heap.arena bs).map Prod.snd = bs := map_snd_place
      rw [← hplace] at hb
      obtain ⟨⟨x, b⟩, hx, rfl⟩ := List.mem_map.1 hb
      cases hused : b.used with
      | false => rfl
      | true =>
        have hmem := (i.held _).2 ⟨x, b, hx, hused, rfl⟩
        rw [hlive] at hmem
        cases hmem
    obtain ⟨b, rfl, hb⟩ := hm.single i.rep.tiled.nonempty hfree
    refine ⟨rfl, ?_, hordered.last _ rfl⟩
    rw [i.rep.tiled.laid.1.isFree, hb]
    rfl

/-- A program uses the heap as it is meant. -/
def Proper (s : Sys) (op : Op) : Prop := Allowed s op ∧ Discerned s op

/-- In every run of a program over every arena no two free blocks are ever neighbours, and the
arena is one free block whenever nothing is live, exactly when no block is cut in place in front
of a free one. -/
theorem whole_iff_uncut (h : Heap) {arena : Nat} {size : UInt64}
    (hok : (owheapInit h arena size).1 = true) (hfit : arena + size.toNat ≤ 2 ^ 64)
    {ops : List Op} (hops : Along next Proper (started h arena size) ops) :
    Whole (started h arena size) ∧
        Along next (fun s op => Whole (next s op)) (started h arena size) ops ↔
      Along next Uncut (started h arena size) ops := by
  obtain ⟨usable, hinv⟩ := started_inv hok hfit
  have hwhole : Whole (started h arena size) := hinv.whole_iff.2 (.singleton _)
  have halong : Along next (fun s op => Proper s op ∧ Whole (next s op))
        (started h arena size) ops ↔
      Along next (fun s op => Proper s op ∧ Uncut s op) (started h arena size) ops := by
    refine along_iff (I := fun s => ∃ bs, Inv s bs ∧ Merged bs) ?_ ?_
      ⟨_, hinv, .singleton _⟩ ops
    · rintro s op ⟨bs, i, hm⟩
      refine and_congr_right fun hp => ?_
      obtain ⟨-, bs', hnext, hm'⟩ := i.next hp.1 hp.2
      rw [hnext.whole_iff, hm' hm]
    · rintro s op ⟨bs, i, hm⟩ ⟨hp, hu⟩
      obtain ⟨-, bs', hnext, hm'⟩ := i.next hp.1 hp.2
      exact ⟨bs', hnext, (hm' hm).2 hu⟩
  rw [along_and, along_and, and_iff_right hops, and_iff_right hops] at halong
  rw [halong]
  exact and_iff_right hwhole

/-- A heap record and memory of zero bytes. -/
def blank : Heap := ⟨fun _ => 0, 0, 0, 0, 0, 0, 0, 0, false⟩

/-- Two payloads; the second one is freed, and the first one grown and freed. -/
def grownAndFreed : List Op := [.alloc 32, .alloc 8, .free 4192, .realloc 4128 64, .free 4128]

theorem proper_grownAndFreed : Along next Proper (started blank 4096 256) grownAndFreed := by
  have hlive : ((grownAndFreed.take 2).foldl next (started blank 4096 256)).live = [4192, 4128] ∧
      ((grownAndFreed.take 3).foldl next (started blank 4096 256)).live = [4128] ∧
      ((grownAndFreed.take 4).foldl next (started blank 4096 256)).live = [4128] := by
    decide
  refine ⟨⟨trivial, trivial⟩, ⟨trivial, trivial⟩, ⟨trivial, .inl ?_⟩, ⟨.inr ?_, trivial⟩,
    ⟨trivial, .inl ?_⟩, trivial⟩
  · exact hlive.1 ▸ List.mem_cons_self
  · exact hlive.2.1 ▸ List.mem_cons_self
  · exact hlive.2.2 ▸ List.mem_cons_self

theorem whole_iff_uncut_grown :
    Whole (started blank 4096 256) ∧
      Along next (fun s op => Whole (next s op)) (started blank 4096 256) grownAndFreed := by
  refine (whole_iff_uncut blank (by decide) (by decide) proper_grownAndFreed).mpr
    ⟨trivial, trivial, trivial, fun _ _ hcut => ?_, trivial, trivial⟩
  exact absurd hcut.2.1 (by decide)

/-- A payload of 64 bytes is cut to 8 in front of the free tail of the arena, and freed. -/
def cutAndFreed : List Op := [.alloc 64, .realloc 4128 8, .free 4128]

/-- The payload is gone, and the arena is two free blocks. -/
theorem fragments_left :
    (owheapInit blank 4096 256).1 = true ∧
      Along next Proper (started blank 4096 256) cutAndFreed ∧
      (cutAndFreed.foldl next (started blank 4096 256)).live = [] ∧
      ¬ Whole (cutAndFreed.foldl next (started blank 4096 256)) := by
  have hlive : ((cutAndFreed.take 1).foldl next (started blank 4096 256)).live = [4128] ∧
      ((cutAndFreed.take 2).foldl next (started blank 4096 256)).live = [4128] ∧
      (cutAndFreed.foldl next (started blank 4096 256)).live = [] := by
    decide
  have hmem : (cutAndFreed.foldl next (started blank 4096 256)).heap.arena = 4096 ∧
      heapPayload 4096 + getSize (cutAndFreed.foldl next (started blank 4096 256)).heap.mem 4096 ≠
        4096 + (cutAndFreed.foldl next (started blank 4096 256)).heap.arenaSize := by
    decide
  refine ⟨by decide, ?_, hlive.2.2, ?_⟩
  · refine ⟨⟨trivial, trivial⟩, ⟨.inr ?_, trivial⟩, ⟨trivial, .inl ?_⟩, trivial⟩
    · exact hlive.1 ▸ List.mem_cons_self
    · exact hlive.2.1 ▸ List.mem_cons_self
  · rintro ⟨l, -, -, hend⟩
    obtain ⟨-, -, hsize⟩ := hend hlive.2.2
    rw [hmem.1] at hsize
    exact hmem.2 hsize

/-- Two payloads are freed, the memory is allocated again, and the second payload is freed
again.  The header of the tail of the new block overlaps its old header. -/
def freedAgain : List Op :=
  [.alloc 32, .alloc 8, .free 4192, .free 4128, .alloc 8, .free 4192]

theorem ordered_iff_discerned_grown :
    Sound (started blank 4096 256) ∧
      Along next Keeps (started blank 4096 256) grownAndFreed := by
  obtain ⟨hallowed, hdiscerned⟩ := along_and.mp proper_grownAndFreed
  exact (ordered_iff_discerned blank (by decide) (by decide) hallowed).mpr hdiscerned

/-- The second free of the pointer succeeds: the counter is cleared while a payload is live, and a
link back is lost. -/
theorem stale_pointer_freed :
    (owheapInit blank 4096 256).1 = true ∧
      Along next Allowed (started blank 4096 256) freedAgain ∧
      ¬ Along next Keeps (started blank 4096 256) freedAgain ∧
      ((freedAgain.take 5).foldl next (started blank 4096 256)).live = [4128] ∧
      (freedAgain.foldl next (started blank 4096 256)).heap.bytesInUse = 0 ∧
      getPrev (freedAgain.foldl next (started blank 4096 256)).heap.mem 4136 ≠ 4096 := by
  have hlive : ((freedAgain.take 5).foldl next (started blank 4096 256)).live = [4128] := by
    decide
  refine ⟨by decide, ?_, ?_, hlive, by decide, by decide⟩
  · exact ⟨trivial, trivial, trivial, trivial, trivial, trivial, trivial⟩
  · intro hkeeps
    have hlast : Keeps ((freedAgain.take 5).foldl next (started blank 4096 256)) (.free 4192) :=
      (along_append.1 (show Along next Keeps (started blank 4096 256)
        (freedAgain.take 5 ++ [.free 4192]) from hkeeps)).2.1
    have hres := congrArg Prod.fst (hlast.2.1 (by rw [hlive]; decide))
    exact absurd hres (by decide)

end Owheap
