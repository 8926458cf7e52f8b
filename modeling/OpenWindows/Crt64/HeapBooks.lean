import Mathlib.Algebra.BigOperators.Group.Finset.Basic
import Mathlib.Order.Interval.Finset.Nat
import OpenWindows.Crt64.HeapSizes

/-!
# The books of the heap

`ow_malloc` adds the bytes it was asked for, rounded up, to the number of bytes
allocated.  `ow_free` takes off what the header of the block says.  These are the
same as long as every block that is handed out is of just the size that was asked
for, so that the number is the sum over the live allocations, and zero when there
are none.
-/

namespace Crt64

open Memory StepSystem

variable {k64 : Kernel} {h : Heap} {v : Layout} {fl : List Nat} {p k n : Nat}
  {ledger live : List (Nat × Nat)}

/-! ## Ledgers -/

/-- The amounts together. -/
def total (ledger : List (Nat × Nat)) : Nat := (ledger.map Prod.snd).sum

@[simp] theorem total_cons (q : Nat × Nat) (ledger : List (Nat × Nat)) :
    total (q :: ledger) = q.2 + total ledger := by
  simp [total]

theorem perm_giveUp (hd : ledger.Pairwise fun p q => p.1 ≠ q.1) (hmem : (p, k) ∈ ledger) :
    ledger.Perm ((p, k) :: giveUp p ledger) := by
  induction ledger with
  | nil => cases hmem
  | cons q ledger ih =>
    obtain ⟨r, j⟩ := q
    obtain ⟨hq, hd⟩ := List.pairwise_cons.mp hd
    rcases List.mem_cons.mp hmem with heq | hmem
    · cases heq
      have hrest : giveUp p ((p, k) :: ledger) = ledger := by
        rw [giveUp, List.filter_cons_of_neg (by simp)]
        exact List.filter_eq_self.mpr fun r hr => by simpa using Ne.symm (hq r hr)
      rw [hrest]
    · have hne : r ≠ p := hq _ hmem
      rw [giveUp_cons hne]
      exact ((ih hd hmem).cons _).trans (.swap ..)

theorem total_giveUp (hd : ledger.Pairwise fun p q => p.1 ≠ q.1) (hmem : (p, k) ∈ ledger) :
    total ledger = k + total (giveUp p ledger) ∧
      ledger.length = (giveUp p ledger).length + 1 := by
  have hperm := perm_giveUp hd hmem
  refine ⟨?_, by simpa using hperm.length_eq⟩
  have hsum := (hperm.map Prod.snd).sum_eq
  simpa [total] using hsum

theorem total_le {lo hi : Nat} (hap : ledger.Pairwise ApartFrom)
    (hin : ∀ q ∈ ledger, lo ≤ q.1 ∧ q.1 + q.2 ≤ hi) : total ledger ≤ hi - lo := by
  have hcover : ∃ S : Finset Nat, S.card = total ledger ∧
      ∀ x, x ∈ S ↔ ∃ q ∈ ledger, q.1 ≤ x ∧ x < q.1 + q.2 := by
    clear hin
    induction ledger with
    | nil => exact ⟨∅, rfl, by simp⟩
    | cons q ledger ih =>
      obtain ⟨hq, hap⟩ := List.pairwise_cons.mp hap
      obtain ⟨S, hcard, hS⟩ := ih hap
      have hdisj : Disjoint (Finset.Ico q.1 (q.1 + q.2)) S := by
        refine Finset.disjoint_left.mpr fun x hx hxS => ?_
        obtain ⟨r, hr, hlo, hhi⟩ := (hS x).mp hxS
        rw [Finset.mem_Ico] at hx
        have := hq r hr
        unfold ApartFrom at this
        omega
      refine ⟨Finset.Ico q.1 (q.1 + q.2) ∪ S, ?_, fun x => ?_⟩
      · rw [Finset.card_union_of_disjoint hdisj, hcard, Nat.card_Ico, total_cons]
        omega
      · simp [hS]
  obtain ⟨S, hcard, hS⟩ := hcover
  rw [← hcard, ← Nat.card_Ico]
  refine Finset.card_le_card fun x hx => Finset.mem_Ico.mpr ?_
  obtain ⟨q, hq, hlo, hhi⟩ := (hS x).mp hx
  have := hin q hq
  omega

/-! ## The books -/

/-- The state, with the amounts that were added for the live allocations. -/
structure HeapBooks where
  use : HeapUse
  ledger : List (Nat × Nat)

/-- Program start. -/
def HeapBooks.init : HeapBooks := ⟨.init, []⟩

def HeapBooks.call (k64 : Kernel) (o : Option HeapBooks) (op : HeapOp) : Option HeapBooks :=
  o.bind fun a => (a.use.next k64 op).map fun u => ⟨u, book op (a.use.answer k64 op) a.ledger⟩

/-- The number of bytes allocated is the sum over the live allocations, and when there are none it
is zero and as many were freed as were allocated. -/
structure HeapBooks.Balanced (a : HeapBooks) : Prop where
  live : ∀ p, (∃ n, (p, n) ∈ a.use.live) ↔ ∃ k, (p, k) ∈ a.ledger
  bytes : a.use.heap.stats.bytesAllocated.toNat = total a.ledger
  zero : a.use.live = [] → a.use.heap.stats.bytesAllocated = 0 ∧
    a.use.heap.stats.allocs = a.use.heap.stats.frees

/-- A request that is served gets a block of just its size: the block that is carved for it is of
that size or is split, and the size of a large allocation fits into its header. -/
def Exact (k64 : Kernel) (h : Heap) (n : Nat) : Prop :=
  h.corrupt = false →
    if n < largeThreshold then
      fitSize h (userBytes n) = userBytes n + 28 ∨ userBytes n + 72 ≤ fitSize h (userBytes n)
    else n < 2 ^ 32 ∨ n > sizeMax - 32 ∨ NoSegment k64 h (largeBytes n)

/-- A block or a segment for just `k` bytes. -/
def Holds (segs : Nat → Seg) (v : Layout) (p k : Nat) : Prop :=
  (∃ a, p = a + 16 ∧ IsBlock segs v a ⟨k + 28, true⟩) ∨
    ∃ a, p = a + 16 ∧ IsLarge segs v a k ∧ k < 2 ^ 32

/-- The amounts are those of the blocks, and the counters count them. -/
structure HeapStage.Booked (a : HeapStage) : Prop where
  live : ∀ p, (∃ n, (p, n) ∈ a.use.live) ↔ ∃ k, (p, k) ∈ a.ledger
  holds : ∀ {q}, q ∈ a.ledger → Holds a.use.heap.segs a.layout q.1 q.2
  distinct : a.ledger.Pairwise fun p q => p.1 ≠ q.1
  bytes : a.use.heap.stats.bytesAllocated = UInt64.ofNat (total a.ledger)
  allocs : a.use.heap.stats.allocs = a.use.heap.stats.frees + UInt64.ofNat a.ledger.length

theorem Holds.owns {segs : Nat → Seg} (hh : Holds segs v p k) : Owns segs v p k := by
  rcases hh with ⟨a, hp, hb⟩ | ⟨a, hp, hl, -⟩
  · exact .inl ⟨a, _, hp, hb, rfl, Nat.le_refl _⟩
  · exact .inr ⟨a, hp, hl⟩

theorem Malloced.holds {h' : Heap} {v' : Layout} (hm : Malloced h v n p h' v') (hp : p ≠ 0)
    (hcall : owMalloc k64 h n = some (p, h')) (hA : Exact k64 h n) :
    Holds h'.segs v' p (added n) ∧ Counted h (added n) h' := by
  have hcorrupt : h.corrupt = false := by
    cases hc : h.corrupt with
    | false => rfl
    | true =>
      rw [owMalloc, if_pos hc] at hcall
      cases hcall
      exact absurd rfl hp
  have hexact := hA hcorrupt
  unfold added
  cases hm with
  | refused => exact absurd rfl hp
  | small hsmall htook =>
    rw [if_pos hsmall] at hexact ⊢
    obtain ⟨a, rfl, hb⟩ := htook.block
    have hsize : carvedSize (fitSize h (userBytes n)) (userBytes n) = userBytes n + 28 := by
      unfold carvedSize
      split <;> omega
    rw [hsize] at hb
    exact ⟨.inl ⟨a, rfl, hb⟩, htook.counted⟩
  | large hlarge htook =>
    rw [if_neg (Nat.not_lt.mpr hlarge)] at hexact ⊢
    obtain ⟨a, rfl, hl⟩ := htook.large
    refine ⟨.inr ⟨_, rfl, hl, ?_⟩, htook.counted⟩
    rcases hexact with hlt | hmax | hnone
    · exact hlt
    · rw [owMalloc, if_neg (by simp [hcorrupt]), if_pos hmax] at hcall
      cases hcall
    · by_cases hmax : n > sizeMax - 32
      · rw [owMalloc, if_neg (by simp [hcorrupt]), if_pos hmax] at hcall
        cases hcall
      · rw [owMalloc, if_neg (by simp [hcorrupt]), if_neg hmax, if_pos hlarge,
          Option.some_inj] at hcall
        have hnull := (mallocLarge_fst k64 h n).mpr hnone
        rw [hcall] at hnull
        exact absurd hnull hp

theorem Coherent.countedFree (c : Coherent h v fl) (hh : Holds h.segs v p k)
    (hfoul : ¬ Fouled h (p - blkHdr)) :
    (owFree h p).stats.bytesAllocated = h.stats.bytesAllocated - UInt64.ofNat k ∧
      (owFree h p).stats.allocs = h.stats.allocs ∧
      (owFree h p).stats.frees = h.stats.frees + 1 := by
  rcases hh with ⟨a, rfl, hb⟩ | ⟨a, rfl, ⟨i, hi, hv, rfl⟩, hlt⟩
  · rw [owFree_small c hb rfl]
    obtain ⟨⟨v', hf⟩, -⟩ := (c.countFree (k + 28 - 28)).freeCore hb rfl hfoul
    rw [hf.stats]
    exact ⟨rfl, rfl, rfl⟩
  · have hl := c.shape.large hi hv
    have hmod : k % 2 ^ 32 = k := Nat.mod_eq_of_lt hlt
    have hfree : owFree h ((h.segs i).base + 16) = segDestroy (h.countFree k) i := by
      unfold owFree
      simp only [show (h.segs i).base + 16 - blkHdr = (h.segs i).base from rfl, hl.magic, hl.flags,
        hl.size, hl.index, hmod]
      rw [if_neg (by omega), if_neg (by simp), if_pos (by decide)]
      refine if_neg (not_or.mpr ⟨Nat.not_le.mpr hi, ?_⟩)
      exact not_not_intro hl.canary
    rw [hfree]
    exact ⟨rfl, rfl, rfl⟩

/-! ## Moves -/

theorem Holds.mono {segs segs' : Nat → Seg} {v' : Layout} (hh : Holds segs v p k)
    (hb : ∀ {a b}, IsBlock segs v a b → b.used = true → p = a + 16 → IsBlock segs' v' a b)
    (hl : ∀ {a n}, IsLarge segs v a n → p = a + 16 → IsLarge segs' v' a n) :
    Holds segs' v' p k := by
  rcases hh with ⟨a, hp, hblk⟩ | ⟨a, hp, hlarge, hlt⟩
  · exact .inl ⟨a, hp, hb hblk rfl hp⟩
  · exact .inr ⟨a, hp, hl hlarge hp, hlt⟩

theorem mem_keys_giveUp {a : Nat} :
    (∃ n, (a, n) ∈ giveUp p live) ↔ (∃ n, (a, n) ∈ live) ∧ a ≠ p := by
  constructor
  · rintro ⟨n, hmem⟩
    obtain ⟨hmem, hne⟩ := mem_giveUp.mp hmem
    exact ⟨⟨n, hmem⟩, hne⟩
  · rintro ⟨⟨n, hmem⟩, hne⟩
    exact ⟨n, mem_giveUp.mpr ⟨hmem, hne⟩⟩

theorem mem_keys_cons {a : Nat} : (∃ n, (a, n) ∈ (p, k) :: live) ↔ a = p ∨ ∃ n, (a, n) ∈ live := by
  constructor
  · rintro ⟨n, hmem⟩
    rcases List.mem_cons.mp hmem with heq | hmem
    · exact .inl (Prod.mk.inj heq).1
    · exact .inr ⟨n, hmem⟩
  · rintro (rfl | ⟨n, hmem⟩)
    · exact ⟨k, List.mem_cons_self⟩
    · exact ⟨n, List.mem_cons_of_mem _ hmem⟩

theorem HeapMove.booked {a b : HeapStage} (hm : HeapMove k64 (Exact k64) a b) (ha : a.Sound)
    (hbk : a.Booked) : b.Booked := by
  obtain ⟨fl, hs⟩ := ha
  obtain ⟨hlive, hholds, hdistinct, hbytes, hallocs⟩ := hbk
  cases hm with
  | refused href =>
    refine ⟨hlive, fun hq => ?_, hdistinct, href.bytes.trans hbytes, ?_⟩
    · rw [href.segs]
      exact hholds hq
    · rw [href.allocs, href.frees]
      exact hallocs
  | fault => exact ⟨hlive, hholds, hdistinct, hbytes, hallocs⟩
  | gained hA hcall hp hmal _ =>
    obtain ⟨hnew, hcount⟩ := hmal.holds hp hcall hA
    obtain ⟨hg, -⟩ := hmal.gained hp
    refine ⟨fun q => ?_, fun hq => ?_, List.pairwise_cons.mpr ⟨fun q hq => ?_, hdistinct⟩, ?_, ?_⟩
    · rw [mem_keys_cons, mem_keys_cons]
      exact or_congr_right (hlive q)
    · rcases List.mem_cons.mp hq with rfl | hq
      · exact hnew
      · exact (hholds hq).mono (fun hb hused _ => (hg.kept hb hused).1)
          fun hl _ => (hg.keptLarge hl).1
    · exact Ne.symm (hg.owns (hholds hq).owns).2
    · rw [hcount.bytes, total_cons, UInt64.ofNat_add, UInt64.add_comm]
      exact congrArg (_ + ·) hbytes
    · rw [hcount.allocs, hcount.frees, List.length_cons, UInt64.ofNat_add, ← UInt64.add_assoc]
      exact congrArg (· + 1) hallocs
  | resized hmem _ =>
    refine ⟨fun q => ?_, hholds, hdistinct, hbytes, hallocs⟩
    rw [mem_keys_cons, mem_keys_giveUp, ← hlive q]
    constructor
    · rintro (rfl | ⟨hq, -⟩)
      · exact ⟨_, hmem⟩
      · exact hq
    · intro hq
      exact or_iff_not_imp_left.mpr fun hne => ⟨hq, hne⟩
  | wrote _ _ => exact ⟨hlive, hholds, hdistinct, hbytes, hallocs⟩
  | released hmem hfoul hrel =>
    obtain ⟨k, hk⟩ := (hlive _).mp ⟨_, hmem⟩
    obtain ⟨hsum, hlen⟩ := total_giveUp hdistinct hk
    obtain ⟨hb, ha, hf⟩ := hs.coherent.countedFree (hholds hk) hfoul
    refine ⟨fun q => ?_, fun hq => ?_, hdistinct.filter _, ?_, ?_⟩
    · rw [mem_keys_giveUp, mem_keys_giveUp, hlive q]
    · obtain ⟨hq, hne⟩ := mem_giveUp.mp hq
      exact (hholds hq).mono (fun hb hused heq => hrel.kept hb hused (heq ▸ Ne.symm hne))
        fun hl heq => hrel.keptLarge hl (heq ▸ Ne.symm hne)
    · dsimp only at hbytes ⊢
      rw [hb, hbytes, hsum, UInt64.ofNat_add, UInt64.add_comm, UInt64.add_sub_cancel]
    · dsimp only at hallocs ⊢
      rw [ha, hf, hallocs, hlen, UInt64.ofNat_add, UInt64.add_assoc, UInt64.add_comm 1]
      rfl

theorem HeapStage.Booked.balanced {a : HeapStage} (hbk : a.Booked) (ha : a.Sound) :
    HeapBooks.Balanced ⟨a.use, a.ledger⟩ := by
  obtain ⟨fl, hs⟩ := ha
  refine ⟨hbk.live, ?_, fun hnil => ?_⟩
  · -- the allocations are apart in the address space
    have hsum : total a.ledger ≤ 2 ^ 64 - 16 := by
      refine total_le (hbk.distinct.imp_of_mem fun hp hq hne =>
        (hbk.holds hp).owns.apart (hbk.holds hq).owns hs.coherent.shape hne) fun q hq => ?_
      rcases (hbk.holds hq).owns with ⟨b, c, hp, hb, -, hle⟩ | ⟨b, hp, i, hi, hv, hbase⟩
      · have := hs.coherent.shape.isBlock_fit hb
        omega
      · have hroom := (hs.coherent.shape.large hi hv).room
        have hfit := hs.coherent.shape.fit hi (hs.coherent.shape.active_of_large hi hv)
        omega
    dsimp only
    rw [hbk.bytes, UInt64.toNat_ofNat']
    exact Nat.mod_eq_of_lt (by omega)
  · have hempty : a.ledger = [] := by
      cases hl : a.ledger with
      | nil => rfl
      | cons q ledger =>
        obtain ⟨n, hn⟩ := (hbk.live q.1).mpr ⟨q.2, by rw [hl]; exact List.mem_cons_self⟩
        rw [show a.use.live = [] from hnil] at hn
        cases hn
    dsimp only
    rw [hbk.bytes, hbk.allocs, hempty]
    exact ⟨rfl, UInt64.add_zero _⟩

/-! ## Runs -/

/-- After every clean run whose requests are all exact, the books balance. -/
theorem books_balance (hk : Lends k64) {ops : List HeapOp} {o : Option HeapBooks}
    (hrun : Calls (fun o op => ∀ a ∈ o, a.use.Clean k64 op ∧
      ∀ n, a.use.asks op = some n → Exact k64 a.use.heap n) (HeapBooks.call k64)
      (some .init) ops o) : ∃ a, o = some a ∧ a.Balanced := by
  have hbooked : ∃ a v, o = some a ∧ HeapStage.Sound ⟨a.use, v, a.ledger⟩ ∧
      HeapStage.Booked ⟨a.use, v, a.ledger⟩ := by
    refine hrun.invariant (P := fun o => ∃ a v, o = some a ∧
      HeapStage.Sound ⟨a.use, v, a.ledger⟩ ∧ HeapStage.Booked ⟨a.use, v, a.ledger⟩) ?_
      ⟨.init, _, rfl, ⟨[], .init⟩, fun _ => Iff.rfl, fun hq => (by cases hq), .nil, rfl, rfl⟩
    rintro _ op ⟨a, v, rfl, ⟨fl, hs⟩, hbk⟩ hguard
    obtain ⟨hclean, hA⟩ := hguard a rfl
    obtain ⟨s', v', hnext, hmoves⟩ :=
      hs.next hk hclean.allowed hclean.fits hclean.unfouled hA a.ledger
    obtain ⟨hs', hbk'⟩ := hmoves.invariant ⟨fl, hs⟩ hbk fun hc hm => hm.booked hc
    refine ⟨⟨s', book op (a.use.answer k64 op) a.ledger⟩, v', ?_, hs', hbk'⟩
    rw [HeapBooks.call, Option.bind_some, hnext, Option.map_some]
  obtain ⟨a, v, rfl, hs, hbk⟩ := hbooked
  exact ⟨a, rfl, hbk.balanced hs⟩

/-- The state after some calls. -/
def HeapBooks.run (k64 : Kernel) (ops : List HeapOp) : Option HeapBooks :=
  ops.foldl (HeapBooks.call k64) (some .init)

theorem books_live {o : Option HeapBooks} {a : HeapBooks}
    (ho : o.map (fun a => a.use.live) = some live) (ha : a ∈ o) : a.use.live = live := by
  rw [Option.mem_def.mp ha] at ho
  exact Option.some.inj ho

theorem books_balance_freed :
    ∃ a, HeapBooks.run fallingKernel [.malloc 100, .free 0x400030] = some a ∧ a.Balanced := by
  have hlive : (HeapBooks.run fallingKernel [.malloc 100]).map (fun a => a.use.live) =
      some [(0x400030, 100)] := by decide
  have hfoot : (HeapBooks.run fallingKernel [.malloc 100]).map (fun a =>
      decide (FreeFoot a.use.heap.mem 0x400018)) = some false := by decide
  refine books_balance fallingKernel_honest.lends ((Calls.nil.snoc (a := HeapOp.malloc 100) ?_).snoc
    (a := HeapOp.free 0x400030) ?_)
  · rintro a ha
    cases ha
    refine ⟨clean_malloc _ (by decide) _, ?_⟩
    rintro n hn -
    cases hn
    rw [if_pos (by decide)]
    exact .inr (by decide)
  · intro a ha
    refine ⟨⟨.inr ⟨100, ?_⟩, id, ?_⟩, fun n hn => by cases hn⟩
    · rw [books_live hlive ha]
      exact List.mem_singleton_self _
    · rintro ⟨r, hr, hf, -⟩
      cases hr
      rw [show HeapBooks.call fallingKernel (some .init) (.malloc 100) =
        HeapBooks.run fallingKernel [.malloc 100] from rfl, Option.mem_def] at ha
      rw [ha, Option.map_some, Option.some_inj, decide_eq_false_iff_not] at hfoot
      exact hfoot hf

/-- A block that is handed out for less than it has is taken off for all it has. -/
theorem books_unbalanced :
    Lends fallingKernel ∧ ∃ a, Calls (fun o op => ∀ a ∈ o, a.use.Allowed op)
      (HeapBooks.call fallingKernel) (some .init) [.malloc 100, .malloc 100, .free 0x400030,
        .malloc 90, .free 0x400030, .free 0x4000b0] (some a) ∧ a.use.live = [] ∧
      a.use.heap.stats.bytesAllocated = UInt64.ofNat (2 ^ 64 - 10) ∧ ¬ a.Balanced := by
  refine ⟨fallingKernel_honest.lends, ?_⟩
  have hfirst : (HeapBooks.run fallingKernel [.malloc 100, .malloc 100]).map
      (fun a => a.use.live) = some [(0x4000b0, 100), (0x400030, 100)] := by decide
  have hsecond : (HeapBooks.run fallingKernel [.malloc 100, .malloc 100, .free 0x400030,
      .malloc 90]).map (fun a => a.use.live) = some [(0x400030, 90), (0x4000b0, 100)] := by
    decide
  have hthird : (HeapBooks.run fallingKernel [.malloc 100, .malloc 100, .free 0x400030,
      .malloc 90, .free 0x400030]).map (fun a => a.use.live) = some [(0x4000b0, 100)] := by
    decide
  have hend : (HeapBooks.run fallingKernel [.malloc 100, .malloc 100, .free 0x400030,
      .malloc 90, .free 0x400030, .free 0x4000b0]).map (fun a =>
        (a.use.live, a.use.heap.stats.bytesAllocated)) = some ([], UInt64.ofNat (2 ^ 64 - 10)) := by
    decide
  obtain ⟨a, ha, hstate⟩ := Option.map_eq_some_iff.mp hend
  obtain ⟨hlive, hbytes⟩ := Prod.mk.inj hstate
  refine ⟨a, ?_, hlive, hbytes, fun hbal => ?_⟩
  · rw [← ha]
    refine (((((Calls.nil.snoc ?_).snoc ?_).snoc ?_).snoc ?_).snoc ?_).snoc ?_
    · exact fun _ _ => trivial
    · exact fun _ _ => trivial
    · intro a ha
      exact .inr ⟨100, by rw [books_live hfirst ha]; simp⟩
    · exact fun _ _ => trivial
    · intro a ha
      exact .inr ⟨90, by rw [books_live hsecond ha]; simp⟩
    · intro a ha
      exact .inr ⟨100, by rw [books_live hthird ha]; simp⟩
  · have hzero := (hbal.zero hlive).1
    rw [hbytes] at hzero
    exact absurd hzero (by decide)

end Crt64
