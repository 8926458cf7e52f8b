import OpenWindows.Lib.Tiling
import OpenWindows.Owheap.Heap

/-!
# Layouts of the arena

A layout is the list of the blocks of an arena in address order.  `Laid` says that memory holds
the headers of a layout, linked both ways.  A block that is split, or joined with the block
behind it, changes the layout there and nowhere else: `Laid.split`, `Laid.join`.
-/

namespace Owheap

open Memory Tiling

/-- A block: the bytes of its payload, and whether it is in use. -/
structure Blk where
  size : Nat
  used : Bool
deriving DecidableEq, Repr

/-- The bytes of a block with its header. -/
def Blk.len (b : Blk) : Nat := blockSize + b.size

def Blk.flags (b : Blk) : Nat := if b.used then 0 else flagFree

/-- The header of a block, with the links `prev` and `next`. -/
structure HeaderAt (m : Mem) (a : Nat) (b : Blk) (prev next : Nat) : Prop where
  size : getSize m a = b.size
  flags : getFlags m a = b.flags
  magic : getMagic m a = heapMagic
  next : getNext m a = next
  prev : getPrev m a = prev

/-- The headers of the blocks from `a` on.  The first one points back to `prev`, and the last
one on to `stop`. -/
def Laid (m : Mem) : Nat → Nat → List Blk → Nat → Prop
  | _, _, [], _ => True
  | prev, a, b :: bs, stop =>
    HeaderAt m a b prev (if bs.isEmpty then stop else a + b.len) ∧ Laid m a (a + b.len) bs stop

/-- The address of the last block, `prev` when there is none. -/
def lastAddr : Nat → Nat → List Blk → Nat
  | prev, _, [] => prev
  | _, a, b :: bs => lastAddr a (a + b.len) bs

def HeaderByte (a : Nat) (bs : List Blk) (x : Nat) : Prop :=
  ∃ q ∈ place Blk.len a bs, q.1 ≤ x ∧ x < q.1 + blockSize

variable {m m' : Mem} {prev prev' a x stop next need : Nat} {b c : Blk} {bs cs pre post : List Blk}

/-! ## Headers -/

theorem HeaderAt.congr (h : HeaderAt m a b prev next)
    (hs : SameOn (fun x => a ≤ x ∧ x < a + blockSize) m m') : HeaderAt m' a b prev next := by
  unfold blockSize at hs
  obtain ⟨h1, h2, h3, h4, h5⟩ := h
  refine ⟨?_, ?_, ?_, ?_, ?_⟩
  · exact (hs.loadNum_eq fun x _ _ => by omega).trans h1
  · exact (hs.loadNum_eq fun x _ _ => by omega).trans h2
  · exact (hs.loadNum_eq fun x _ _ => by omega).trans h3
  · exact (hs.loadNum_eq fun x _ _ => by omega).trans h4
  · exact (hs.loadNum_eq fun x _ _ => by omega).trans h5

/-- Only the pointer back differs. -/
theorem HeaderAt.relink (h : HeaderAt m a b prev next)
    (hs : SameOn (fun x => a ≤ x ∧ x < a + 24) m m') (hprev : getPrev m' a = prev') :
    HeaderAt m' a b prev' next := by
  obtain ⟨h1, h2, h3, h4, -⟩ := h
  refine ⟨?_, ?_, ?_, ?_, hprev⟩
  · exact (hs.loadNum_eq fun x _ _ => by omega).trans h1
  · exact (hs.loadNum_eq fun x _ _ => by omega).trans h2
  · exact (hs.loadNum_eq fun x _ _ => by omega).trans h3
  · exact (hs.loadNum_eq fun x _ _ => by omega).trans h4

theorem HeaderAt.isFree (h : HeaderAt m a b prev next) : isFree m a = !b.used := by
  unfold Owheap.isFree
  rw [h.flags, Blk.flags]
  cases b.used <;> rfl

/-! ## Lists of headers -/

theorem Laid.congr (h : Laid m prev a bs stop) (hs : SameOn (HeaderByte a bs) m m') :
    Laid m' prev a bs stop := by
  induction bs generalizing prev a with
  | nil => trivial
  | cons b bs ih =>
    refine ⟨h.1.congr (hs.mono fun x hx => ⟨(a, b), List.mem_cons_self, hx⟩), ?_⟩
    refine ih h.2 (hs.mono fun x hx => ?_)
    obtain ⟨q, hq, hin⟩ := hx
    exact ⟨q, List.mem_cons_of_mem _ hq, hin⟩

theorem HeaderByte.bounds (h : HeaderByte a bs x) : a ≤ x ∧ x < a + extent Blk.len bs := by
  obtain ⟨⟨y, b⟩, hq, hin⟩ := h
  have hb := place_bounds hq
  have hlen : b.len = blockSize + b.size := rfl
  dsimp only at hin
  omega

theorem Laid.congr_span (h : Laid m prev a bs stop)
    (hs : SameOn (fun x => a ≤ x ∧ x < a + extent Blk.len bs) m m') : Laid m' prev a bs stop :=
  h.congr (hs.mono fun _ hx => hx.bounds)

theorem laid_append : Laid m prev a (bs ++ cs) stop ↔
    Laid m prev a bs (if cs.isEmpty then stop else a + extent Blk.len bs) ∧
      Laid m (lastAddr prev a bs) (a + extent Blk.len bs) cs stop := by
  induction bs generalizing prev a with
  | nil => simp [Laid, lastAddr, extent]
  | cons b bs ih =>
    rw [List.cons_append, Laid, Laid, ih, and_assoc, lastAddr, extent, ← Nat.add_assoc]
    refine and_congr ?_ Iff.rfl
    cases bs with
    | nil => simp [extent]
    | cons c bs => simp

/-- A block of a list, what stands in front of it and what stands behind. -/
theorem laid_middle : Laid m prev a (pre ++ b :: post) stop ↔
    Laid m prev a pre (a + extent Blk.len pre) ∧
      HeaderAt m (a + extent Blk.len pre) b (lastAddr prev a pre)
        (if post.isEmpty then stop else a + extent Blk.len pre + b.len) ∧
      Laid m (a + extent Blk.len pre) (a + extent Blk.len pre + b.len) post stop := by
  rw [laid_append]
  rfl

/-- The first block gets another block in front of it. -/
theorem Laid.relink (h : Laid m prev a bs stop)
    (hs : SameOn (fun x => a ≤ x ∧ ¬ (a + 24 ≤ x ∧ x < a + 32)) m m')
    (hprev : bs ≠ [] → getPrev m' a = prev') : Laid m' prev' a bs stop := by
  cases bs with
  | nil => trivial
  | cons b bs =>
    refine ⟨h.1.relink (hs.mono fun x hx => by omega) (hprev (List.cons_ne_nil _ _)), ?_⟩
    refine h.2.congr_span (hs.mono fun x hx => ?_)
    unfold Blk.len blockSize at hx
    omega

theorem Laid.headerAt (h : Laid m prev a bs stop) (hx : (x, b) ∈ place Blk.len a bs) :
    ∃ p n, HeaderAt m x b p n := by
  obtain ⟨pre, post, rfl, rfl⟩ := mem_place_iff.1 hx
  exact ⟨_, _, (laid_middle.1 h).2.1⟩

/-! ## Single stores -/

theorem getPrev_linkBack {p v : Nat} (hp : p ≠ 0) (hv : v < 2 ^ 64) :
    getPrev (linkBack m p v) p = v := by
  unfold linkBack
  rw [if_pos hp, getPrev, setPrev, loadNum_storeNum_self]
  exact Nat.mod_eq_of_lt hv

theorem sameOn_linkBack {P : Nat → Prop} {p v : Nat}
    (hP : p ≠ 0 → ∀ x, P x → x < p + 24 ∨ p + 32 ≤ x) : SameOn P m (linkBack m p v) := by
  unfold linkBack
  split
  next hp => exact sameOn_storeNum fun x hx => hP hp x hx
  · exact SameOn.refl _ _

theorem Laid.reflag (h : Laid m prev a (pre ++ b :: post) stop)
    (hc : c.size = b.size) :
    Laid (setFlags m (a + extent Blk.len pre) c.flags) prev a (pre ++ c :: post) stop := by
  rw [laid_middle] at h ⊢
  obtain ⟨hpre, hb, hpost⟩ := h
  have hlen : c.len = b.len := by rw [Blk.len, Blk.len, hc]
  generalize hx : a + extent Blk.len pre = x at *
  have hsame : SameOn (fun y => y < x + 4 ∨ x + 8 ≤ y) m (setFlags m x c.flags) :=
    sameOn_storeNum fun y hy => hy
  refine ⟨hpre.congr_span (hsame.mono fun y hy => by omega), ?_, ?_⟩
  · obtain ⟨h1, h2, h3, h4, h5⟩ := hb
    rw [hlen]
    refine ⟨?_, ?_, ?_, ?_, ?_⟩
    · rw [hc]
      exact (hsame.loadNum_eq fun y _ _ => by omega).trans h1
    · rw [getFlags, setFlags, loadNum_storeNum_self, Blk.flags]
      cases c.used <;> rfl
    · exact (hsame.loadNum_eq fun y _ _ => by omega).trans h3
    · exact (hsame.loadNum_eq fun y _ _ => by omega).trans h4
    · exact (hsame.loadNum_eq fun y _ _ => by omega).trans h5
  · rw [hlen]
    refine hpost.congr_span (hsame.mono fun y hy => ?_)
    unfold Blk.len blockSize at hy
    omega

/-! ## Splitting -/

/-- The pointer to the blocks from `x` on. -/
def linkTo (x : Nat) (bs : List Blk) : Nat := if bs.isEmpty then 0 else x

theorem linkTo_cons : linkTo x (b :: bs) = x := rfl

theorem laid_arena : Laid m 0 a (pre ++ b :: post) 0 ↔
    Laid m 0 a pre (a + extent Blk.len pre) ∧
      HeaderAt m (a + extent Blk.len pre) b (lastAddr 0 a pre)
        (linkTo (a + extent Blk.len pre + b.len) post) ∧
      Laid m (a + extent Blk.len pre) (a + extent Blk.len pre + b.len) post 0 := laid_middle

theorem Laid.linkedBack (h : Laid m prev x bs 0) {p : Nat} (hx : 0 < x) (hp : p < 2 ^ 64)
    (hs : SameOn (fun y => x ≤ y) m m') :
    Laid (linkBack m' (linkTo x bs) p) p x bs 0 := by
  cases bs with
  | nil => trivial
  | cons b bs =>
    rw [linkTo_cons]
    refine Laid.relink h ?_ fun _ => getPrev_linkBack (by omega) hp
    refine (hs.mono fun y hy => hy.1).trans (sameOn_linkBack fun _ y hy => ?_)
    omega

/-- What is left of a block of `size` bytes that is cut down to `need` bytes. -/
def kept (size need : Nat) : Nat := if size < need + 40 then size else need

/-- The free block that is cut off. -/
def spare (size need : Nat) : List Blk :=
  if size < need + 40 then [] else [⟨size - (need + 32), false⟩]

/-- The header of the tail that `heap_split` writes. -/
def stampRest (m : Mem) (rest size next block : Nat) : Mem :=
  let m := setSize m rest size
  let m := setFlags m rest flagFree
  let m := setMagic m rest heapMagic
  let m := setReserved m rest 0
  let m := setNext m rest next
  setPrev m rest block

theorem stampRest_same (m : Mem) (x size next p : Nat) :
    SameOn (fun y => y < x ∨ x + 32 ≤ y) m (stampRest m x size next p) := by
  intro y hy
  unfold stampRest setSize setFlags setMagic setReserved setNext setPrev
  simp (disch := omega) only [storeNum_of_outside]

theorem stampRest_header (m : Mem) (x : Nat) {size next p : Nat} (hsize : size < 2 ^ 32)
    (hnext : next < 2 ^ 64) (hp : p < 2 ^ 64) :
    HeaderAt (stampRest m x size next p) x ⟨size, false⟩ p next := by
  unfold stampRest setSize setFlags setMagic setReserved setNext setPrev
  refine ⟨?_, ?_, ?_, ?_, ?_⟩
  · unfold getSize
    simp (disch := omega) only [loadNum_storeNum_self, loadNum_storeNum_of_disjoint]
    exact Nat.mod_eq_of_lt hsize
  · unfold getFlags
    simp (disch := omega) only [loadNum_storeNum_self, loadNum_storeNum_of_disjoint]
    rfl
  · unfold getMagic
    simp (disch := omega) only [loadNum_storeNum_self, loadNum_storeNum_of_disjoint]
    rfl
  · unfold getNext
    simp (disch := omega) only [loadNum_storeNum_self, loadNum_storeNum_of_disjoint]
    exact Nat.mod_eq_of_lt hnext
  · unfold getPrev
    simp only [loadNum_storeNum_self]
    exact Nat.mod_eq_of_lt hp

theorem heapSplit_small (hsize : getSize m x = b.size) (hneed : need ≤ b.size)
    (hb : b.size < 2 ^ 32) (hsmall : b.size < need + 40) : heapSplit m x need = m := by
  unfold heapSplit
  dsimp only
  rw [hsize, if_pos]
  unfold blockSize heapUnit
  omega

theorem heapSplit_large (hsize : getSize m x = b.size) (hb : b.size < 2 ^ 32)
    (hlarge : need + 40 ≤ b.size) :
    heapSplit m x need = setSize (setNext (linkBack
      (stampRest m (x + 32 + need) (b.size - (need + 32)) (getNext m x) x)
        (getNext m x) (x + 32 + need)) x (x + 32 + need)) x need := by
  have hnext : getNext (setReserved (setMagic (setFlags
      (setSize m (x + 32 + need) (b.size - (need + 32))) (x + 32 + need) flagFree)
      (x + 32 + need) heapMagic) (x + 32 + need) 0) x = getNext m x := by
    unfold getNext setReserved setMagic setFlags setSize
    simp (disch := omega) only [loadNum_storeNum_of_disjoint]
  have hnext' : getNext (stampRest m (x + 32 + need) (b.size - (need + 32)) (getNext m x) x) x =
      getNext m x :=
    (stampRest_same m (x + 32 + need) _ _ _).loadNum_eq fun y _ _ => by omega
  unfold heapSplit heapPayload
  dsimp only
  rw [hsize, if_neg (by unfold blockSize heapUnit; omega),
    show (b.size + (2 ^ 32 - need)) % 2 ^ 32 - blockSize = b.size - (need + 32) by
      unfold blockSize; omega]
  unfold blockSize
  rw [hnext]
  change setSize (setNext (linkBack (stampRest m _ _ _ _) (getNext (stampRest m _ _ _ _) x) _)
    x _) x need = _
  rw [hnext']

theorem linkTo_lt (hfit : x + extent Blk.len bs ≤ 2 ^ 64) : linkTo x bs < 2 ^ 64 := by
  cases bs with
  | nil => exact Nat.two_pow_pos 64
  | cons b bs =>
    rw [linkTo_cons]
    simp only [extent, Blk.len, blockSize] at hfit
    omega

theorem linkTo_ne_zero (h : linkTo x bs ≠ 0) : linkTo x bs = x := by
  cases bs with
  | nil => exact absurd rfl h
  | cons b bs => rfl

theorem HeaderAt.resize (h : HeaderAt m x b prev next) {size : Nat} (hsize : size < 2 ^ 32) :
    HeaderAt (setSize m x size) x ⟨size, b.used⟩ prev next := by
  obtain ⟨-, h2, h3, h4, h5⟩ := h
  have hs : SameOn (fun y => x + 4 ≤ y) m (setSize m x size) := sameOn_storeNum fun y hy => .inr hy
  refine ⟨?_, ?_, ?_, ?_, ?_⟩
  · rw [getSize, setSize, loadNum_storeNum_self]
    exact Nat.mod_eq_of_lt hsize
  · exact (hs.loadNum_eq fun y _ _ => by omega).trans h2
  · exact (hs.loadNum_eq fun y _ _ => by omega).trans h3
  · exact (hs.loadNum_eq fun y _ _ => by omega).trans h4
  · exact (hs.loadNum_eq fun y _ _ => by omega).trans h5

theorem HeaderAt.renext (h : HeaderAt m x b prev next) {n : Nat} (hn : n < 2 ^ 64) :
    HeaderAt (setNext m x n) x b prev n := by
  obtain ⟨h1, h2, h3, -, h5⟩ := h
  have hs : SameOn (fun y => y < x + 16 ∨ x + 24 ≤ y) m (setNext m x n) :=
    sameOn_storeNum fun y hy => by omega
  refine ⟨?_, ?_, ?_, ?_, ?_⟩
  · exact (hs.loadNum_eq fun y _ _ => by omega).trans h1
  · exact (hs.loadNum_eq fun y _ _ => by omega).trans h2
  · exact (hs.loadNum_eq fun y _ _ => by omega).trans h3
  · rw [getNext, setNext, loadNum_storeNum_self]
    exact Nat.mod_eq_of_lt hn
  · exact (hs.loadNum_eq fun y _ _ => by omega).trans h5

theorem setSize_same (m : Mem) (x size : Nat) :
    SameOn (fun y => y < x ∨ x + 24 ≤ y) m (setSize m x size) :=
  sameOn_storeNum fun y hy => by omega

theorem setNext_same (m : Mem) (x n : Nat) :
    SameOn (fun y => y < x ∨ x + 24 ≤ y) m (setNext m x n) :=
  sameOn_storeNum fun y hy => by omega

theorem Laid.split (h : Laid m 0 a (pre ++ b :: post) 0) (hx : x = a + extent Blk.len pre)
    (hneed : need ≤ b.size) (hb : b.size < 2 ^ 32)
    (hfit : a + extent Blk.len (pre ++ b :: post) ≤ 2 ^ 64) :
    Laid (heapSplit m x need) 0 a
      (pre ++ ⟨kept b.size need, b.used⟩ :: (spare b.size need ++ post)) 0 := by
  have hmid := laid_arena.1 h
  rw [← hx] at hmid
  obtain ⟨hpre, hat, hpost⟩ := hmid
  unfold kept spare
  split
  next hsmall =>
    rw [heapSplit_small hat.size hneed hb hsmall]
    exact h
  next hlarge =>
    have hlen : b.len = 32 + b.size := rfl
    simp only [extent_append, extent, ← Nat.add_assoc] at hfit
    rw [← hx] at hfit
    have hnext : linkTo (x + b.len) post < 2 ^ 64 := linkTo_lt hfit
    rw [heapSplit_large hat.size hb (by omega), hat.next]
    set rest := x + 32 + need with hrest
    set n := linkTo (x + b.len) post with hn
    set m1 := stampRest m rest (b.size - (need + 32)) n x
    set m2 := linkBack m1 n rest
    set m3 := setSize (setNext m2 x rest) x need
    have h1 : SameOn (fun y => y < rest ∨ rest + 32 ≤ y) m m1 := stampRest_same m rest _ _ _
    have h2 : SameOn (fun y => y < x + b.len) m1 m2 := by
      refine sameOn_linkBack fun hne y hy => ?_
      have heq : n = x + b.len := linkTo_ne_zero hne
      omega
    have h3 : SameOn (fun y => y < x ∨ x + 24 ≤ y) m2 m3 :=
      (setNext_same m2 x rest).trans (setSize_same _ x need)
    have hstamped : HeaderAt m1 rest ⟨b.size - (need + 32), false⟩ x n :=
      stampRest_header m rest (by omega) hnext (by omega)
    have hbegin : x + Blk.len ⟨need, b.used⟩ = rest := by
      simp only [Blk.len, blockSize]
      omega
    have hend : rest + Blk.len ⟨b.size - (need + 32), false⟩ = x + b.len := by
      simp only [Blk.len, blockSize]
      omega
    rw [List.singleton_append]
    refine laid_arena.2 ⟨?_, ?_, ?_⟩
    · rw [← hx]
      refine hpre.congr_span ?_
      exact ((h1.mono fun y hy => by omega).trans (h2.mono fun y hy => by omega)).trans
        (h3.mono fun y hy => by omega)
    · rw [← hx, hbegin, linkTo_cons]
      refine ((hat.congr ((h1.mono fun y hy => ?_).trans (h2.mono fun y hy => ?_))).renext
        (by omega)).resize (by omega)
      · unfold blockSize at hy
        omega
      · unfold blockSize at hy
        omega
    · rw [← hx, hbegin]
      refine ⟨?_, ?_⟩
      · rw [hend]
        refine hstamped.congr ((h2.mono fun y hy => ?_).trans (h3.mono fun y hy => ?_))
        · unfold blockSize at hy
          omega
        · unfold blockSize at hy
          omega
      · rw [hend]
        refine (hpost.linkedBack (p := rest) (by omega) (by omega) (h1.mono fun y hy => by omega)).congr_span
          (h3.mono fun y hy => by omega)

/-! ## Joining -/

theorem Laid.join (h : Laid m 0 a (pre ++ b :: c :: post) 0) (hx : x = a + extent Blk.len pre)
    (hb : b.size + c.len < 2 ^ 32)
    (hfit : a + extent Blk.len (pre ++ b :: c :: post) ≤ 2 ^ 64) :
    Laid (absorb m x (x + b.len)) 0 a (pre ++ ⟨b.size + c.len, b.used⟩ :: post) 0 := by
  have hmid := laid_arena.1 h
  rw [← hx] at hmid
  obtain ⟨hpre, hat, hrest⟩ := hmid
  have hrest : HeaderAt m (x + b.len) c x (linkTo (x + b.len + c.len) post) ∧
    Laid m (x + b.len) (x + b.len + c.len) post 0 := hrest
  obtain ⟨hnextAt, hpost⟩ := hrest
  have hlenb : b.len = 32 + b.size := rfl
  have hlenc : c.len = 32 + c.size := rfl
  have hlen : Blk.len ⟨b.size + c.len, b.used⟩ = b.len + c.len := by
    simp only [Blk.len, blockSize]
    omega
  simp only [extent_append, extent, ← Nat.add_assoc] at hfit
  rw [← hx] at hfit
  have hnext : linkTo (x + b.len + c.len) post < 2 ^ 64 := linkTo_lt hfit
  set n := linkTo (x + b.len + c.len) post with hn
  set m1 := setSize m x (b.size + c.len) with hm1
  set m2 := setNext m1 x n with hm2
  have h1 : SameOn (fun y => y < x ∨ x + 24 ≤ y) m m1 := setSize_same m x _
  have h2 : SameOn (fun y => y < x ∨ x + 24 ≤ y) m1 m2 := setNext_same m1 x n
  have heq : absorb m x (x + b.len) = linkBack m2 n x := by
    have hn1 : getNext m1 (x + b.len) = n :=
      (h1.loadNum_eq fun y _ _ => by omega).trans hnextAt.next
    have hn2 : getNext m2 (x + b.len) = n :=
      (h2.loadNum_eq fun y _ _ => by omega).trans hn1
    unfold absorb
    dsimp only
    rw [hat.size, hnextAt.size]
    change linkBack (setNext m1 x (getNext m1 (x + b.len)))
      (getNext (setNext m1 x (getNext m1 (x + b.len))) (x + b.len)) x = _
    rw [hn1, ← hm2, hn2]
  have h3 : SameOn (fun y => y < x + b.len + c.len) m2 (linkBack m2 n x) := by
    refine sameOn_linkBack fun hne y hy => ?_
    have hne : n = x + b.len + c.len := linkTo_ne_zero hne
    omega
  rw [heq]
  refine laid_arena.2 ⟨?_, ?_, ?_⟩
  · rw [← hx]
    refine hpre.congr_span ?_
    exact ((h1.mono fun y hy => by omega).trans (h2.mono fun y hy => by omega)).trans
      (h3.mono fun y hy => by omega)
  · rw [← hx, hlen, ← Nat.add_assoc, ← hn]
    refine ((hat.resize hb).renext hnext).congr (h3.mono fun y hy => ?_)
    unfold blockSize at hy
    omega
  · rw [← hx, hlen, ← Nat.add_assoc]
    exact hpost.linkedBack (by omega) (by omega)
      ((h1.mono fun y hy => by omega).trans (h2.mono fun y hy => by omega))

end Owheap
