import OpenWindows.Lib.StepSystem
import OpenWindows.Crt64.HeapAlloc

/-!
# The heap in use

A caller of the heap keeps the pointers it got, with the number of bytes it asked
for, frees and reallocates no others, and writes to those bytes only.  The heap is
coherent after every call then, and what the caller holds does not overlap, as
long as no size is so large that rounding it up to pages goes past `2 ^ 64`, and
no block is freed that has the footer of a free block in front of its segment's
first one.

A call is a sequence of moves.  Each of them takes, gives back or writes one
allocation, so that what holds of a run is shown for the moves.
-/

namespace Crt64

open Memory StepSystem

variable {h : Heap} {v : Layout} {fl : List Nat}

/-! ## Writing to allocations -/

variable {n p : Nat}

theorem Owns.apart {skip : Nat → Prop} {m : Mem} {segs : Nat → Seg} {q k : Nat}
    (hp : Owns segs v p n) (hq : Owns segs v q k) (hsh : Shape skip m segs v) (hne : p ≠ q) :
    p + n ≤ q ∨ q + k ≤ p := by
  rcases hp with ⟨a, b, rfl, hb, -, hle⟩ | ⟨a, rfl, hl⟩ <;>
    rcases hq with ⟨a', b', rfl, hb', -, hle'⟩ | ⟨a', rfl, hl'⟩
  · rcases hsh.isBlock_apart hb hb' with ⟨heq, -⟩ | hap
    · exact absurd (by rw [heq]) hne
    · omega
  · have hap := hsh.isBlock_isLarge_apart hb hl'
    omega
  · have hap := hsh.isBlock_isLarge_apart hb' hl
    omega
  · have hap := hsh.isLarge_apart hl hl'
    omega

theorem Owns.payload {segs : Nat → Seg} {x : Nat} (hown : Owns segs v p n) (hlo : p ≤ x)
    (hhi : x < p + n) : Payload segs v x := by
  rcases hown with ⟨a, b, rfl, hb, -, hle⟩ | ⟨a, rfl, hl⟩
  · exact .inl ⟨a, b, hb, by omega, by omega⟩
  · exact .inr ⟨a, n, hl, by omega, by omega⟩

theorem Coherent.write (c : Coherent h v fl) (hown : Owns h.segs v p n) {m : Mem}
    (hsame : SameOn (fun x => x < p ∨ p + n ≤ x) h.mem m) :
    Coherent { h with mem := m } v fl := by
  refine ⟨⟨c.shape.congr (hsame.mono fun x hx => ?_), c.chained.congr (hsame.mono fun x hx => ?_),
    c.head, c.nodup, c.free⟩, c.all, c.merged⟩
  · by_contra hcon
    exact hx.2 (hown.payload (by omega) (by omega))
  · by_contra hcon
    exact c.toRep.not_linkByte (hown.busy (by omega) (by omega)) hx

/-! ## `ow_memset` and `ow_memcpy` -/

theorem setWords_same (m : Mem) (d c n : Nat) :
    SameOn (fun x => x < d ∨ d + 8 * n ≤ x) m (setWords m d c n) := by
  induction n generalizing m d with
  | zero => exact SameOn.refl _ _
  | succ n ih =>
    exact (sameOn_storeNum fun x hx => by omega).trans ((ih _ _).mono fun x hx => by omega)

theorem setBytes_same (m : Mem) (d : Nat) (c : UInt8) (n : Nat) :
    SameOn (fun x => x < d ∨ d + n ≤ x) m (setBytes m d c n) := by
  induction n generalizing m d with
  | zero => exact SameOn.refl _ _
  | succ n ih =>
    refine SameOn.trans (sameOn_store fun x hx => ?_) ((ih _ _).mono fun x hx => by omega)
    rw [List.length_singleton]
    omega

theorem copyWords_same (m : Mem) (d s n : Nat) :
    SameOn (fun x => x < d ∨ d + 8 * n ≤ x) m (copyWords m d s n) := by
  induction n generalizing m d s with
  | zero => exact SameOn.refl _ _
  | succ n ih =>
    exact (sameOn_storeNum fun x hx => by omega).trans ((ih _ _ _).mono fun x hx => by omega)

theorem copyBytes_same (m : Mem) (d s n : Nat) :
    SameOn (fun x => x < d ∨ d + n ≤ x) m (copyBytes m d s n) := by
  induction n generalizing m d s with
  | zero => exact SameOn.refl _ _
  | succ n ih =>
    refine SameOn.trans (sameOn_store fun x hx => ?_) ((ih _ _ _).mono fun x hx => by omega)
    rw [List.length_singleton]
    omega

theorem owMemset_same (m : Mem) (d : Nat) (c : UInt8) (n : Nat) :
    SameOn (fun x => x < d ∨ d + n ≤ x) m (owMemset m d c n) :=
  ((setWords_same m d _ (n / 8)).mono fun x hx => by omega).trans
    ((setBytes_same _ _ c (n % 8)).mono fun x hx => by omega)

theorem owMemcpy_same (m : Mem) (d s n : Nat) :
    SameOn (fun x => x < d ∨ d + n ≤ x) m (owMemcpy m d s n) :=
  ((copyWords_same m d s (n / 8)).mono fun x hx => by omega).trans
    ((copyBytes_same _ _ _ (n % 8)).mono fun x hx => by omega)

/-! ## Callers -/

/-- The heap and the allocations its caller holds: pointers, with the bytes asked for. -/
structure HeapUse where
  heap : Heap
  live : List (Nat × Nat)

/-- The calls, and what owners write. -/
inductive HeapOp where
  | malloc (size : Nat)
  | calloc (nmemb size : Nat)
  | realloc (ptr size : Nat)
  | free (ptr : Nat)
  | write (addr : Nat) (bytes : List UInt8)

/-- Program start. -/
def HeapUse.init : HeapUse := ⟨.init, []⟩

/-- The allocations but for the one at `ptr`. -/
def giveUp (ptr : Nat) (live : List (Nat × Nat)) : List (Nat × Nat) :=
  live.filter fun q => q.1 ≠ ptr

/-- The allocations with a pointer that was returned for `n` bytes. -/
def hold (p n : Nat) (live : List (Nat × Nat)) : List (Nat × Nat) :=
  if p = 0 then live else (p, n) :: live

/-- The state after a call, `none` when the call does not return. -/
def HeapUse.next (k64 : Kernel) (s : HeapUse) : HeapOp → Option HeapUse
  | .malloc size =>
    (owMalloc k64 s.heap size).map fun r => ⟨r.2, hold r.1 size s.live⟩
  | .calloc nmemb size =>
    (owCalloc k64 s.heap nmemb size).map fun r => ⟨r.2, hold r.1 (nmemb * size) s.live⟩
  | .realloc ptr size =>
    (owRealloc k64 s.heap ptr size).map fun r =>
      -- a null pointer leaves the old allocation, unless the size was zero
      ⟨r.2, if r.1 = 0 ∧ size ≠ 0 then s.live else hold r.1 size (giveUp ptr s.live)⟩
  | .free ptr => some ⟨owFree s.heap ptr, giveUp ptr s.live⟩
  | .write addr bytes => some ⟨{ s.heap with mem := store s.heap.mem addr bytes }, s.live⟩

def HeapUse.Allowed (s : HeapUse) : HeapOp → Prop
  | .malloc _ => True
  | .calloc _ _ => True
  | .realloc ptr _ => ptr = 0 ∨ ∃ n, (ptr, n) ∈ s.live
  | .free ptr => ptr = 0 ∨ ∃ n, (ptr, n) ∈ s.live
  | .write addr bytes => ∃ p n, (p, n) ∈ s.live ∧ p ≤ addr ∧ addr + bytes.length ≤ p + n

/-- The call comes to round up a size that wraps around. -/
def HeapUse.Wraps (s : HeapUse) : HeapOp → Prop
  | .malloc size => s.heap.corrupt = false ∧ wraps size
  | .calloc nmemb size => s.heap.corrupt = false ∧ wraps (nmemb * size)
  | .realloc ptr size => s.heap.corrupt = false ∧ wraps size ∧
      (ptr = 0 ∨ loadU32 s.heap.mem (ptr - blkHdr + 4) &&& 0xFFFFFFFE = 0)
  | .free _ => False
  | .write _ _ => False

/-- The size that a call passes to `ow_malloc`, if it comes to that. -/
def HeapUse.asks (s : HeapUse) : HeapOp → Option Nat
  | .malloc size => some size
  | .calloc nmemb size =>
    if nmemb ≠ 0 ∧ size > sizeMax / nmemb then none else some (nmemb * size % 2 ^ 64)
  | .realloc ptr size =>
    if ptr = 0 then some size
    else if size = 0 then none
    else
      let blk := ptr - blkHdr
      if loadU32 s.heap.mem (blk + 8) ≠ magicBlk ∨
          loadU32 s.heap.mem (blk + 4) &&& 0xFFFFFFFE ≠ 0 then none
      else if size ≤ blkUser s.heap.mem blk then none
      else some size
  | .free _ => none
  | .write _ _ => none

/-- The heap and the pointer that a call passes to `ow_free`, if it comes to that. -/
def HeapUse.freed (k64 : Kernel) (s : HeapUse) : HeapOp → Option (Heap × Nat)
  | .free ptr => if ptr = 0 then none else some (s.heap, ptr)
  | .realloc ptr size =>
    if ptr = 0 then none
    else if size = 0 then some (s.heap, ptr)
    else
      let blk := ptr - blkHdr
      if loadU32 s.heap.mem (blk + 8) ≠ magicBlk ∨
          loadU32 s.heap.mem (blk + 4) &&& 0xFFFFFFFE ≠ 0 then none
      else
        let old := blkUser s.heap.mem blk
        if size ≤ old then none
        else
          match owMalloc k64 s.heap size with
          | none => none
          | some (np, h) =>
            if np = 0 then none else some ({ h with mem := owMemcpy h.mem np ptr old }, ptr)
  | .malloc _ => none
  | .calloc _ _ => none
  | .write _ _ => none

/-- The call frees the first block of a segment, in front of which stand bytes that are those of a
free footer. -/
def HeapUse.Fouls (k64 : Kernel) (s : HeapUse) (op : HeapOp) : Prop :=
  ∃ r, s.freed k64 op = some r ∧ Fouled r.1 (r.2 - blkHdr)

/-- The pointer that a call returns, 0 where it returns nothing. -/
def HeapUse.answer (k64 : Kernel) (s : HeapUse) : HeapOp → Nat
  | .malloc size => ((owMalloc k64 s.heap size).map Prod.fst).getD 0
  | .calloc nmemb size => ((owCalloc k64 s.heap nmemb size).map Prod.fst).getD 0
  | .realloc ptr size => ((owRealloc k64 s.heap ptr size).map Prod.fst).getD 0
  | .free _ => 0
  | .write _ _ => 0

/-- What `ow_malloc` adds to the number of bytes allocated. -/
def added (size : Nat) : Nat := if size < largeThreshold then userBytes size else size

/-- The allocations with the amounts that were added for them, after a call that returned `p`. -/
def book (op : HeapOp) (p : Nat) (ledger : List (Nat × Nat)) : List (Nat × Nat) :=
  match op with
  | .malloc size => hold p (added size) ledger
  | .calloc nmemb size => hold p (added (nmemb * size)) ledger
  | .realloc ptr size =>
    if ptr = 0 then hold p (added size) ledger
    else if size = 0 then giveUp ptr ledger
    else if p = 0 ∨ p = ptr then ledger
    else (p, added size) :: giveUp ptr ledger
  | .free ptr => if ptr = 0 then ledger else giveUp ptr ledger
  | .write _ _ => ledger

/-- Two allocations do not overlap. -/
def ApartFrom (p q : Nat × Nat) : Prop := p.1 + p.2 ≤ q.1 ∨ q.1 + q.2 ≤ p.1

/-- The heap is coherent, and what the caller holds is held, each allocation once. -/
structure HeapUse.Sound (s : HeapUse) (v : Layout) (fl : List Nat) : Prop where
  coherent : Coherent s.heap v fl
  owned : ∀ {q}, q ∈ s.live → Owns s.heap.segs v q.1 q.2
  distinct : s.live.Pairwise fun p q => p.1 ≠ q.1

variable {live : List (Nat × Nat)} {op : HeapOp}

variable {ptr size : Nat}

theorem mem_giveUp {q : Nat × Nat} : q ∈ giveUp ptr live ↔ q ∈ live ∧ q.1 ≠ ptr := by
  simp [giveUp]

variable {s : HeapUse}

theorem HeapUse.Sound.apart (hs : s.Sound v fl) : s.live.Pairwise ApartFrom :=
  hs.distinct.imp_of_mem fun hp hq hne =>
    (hs.owned hp).apart (hs.owned hq) hs.coherent.shape hne

theorem HeapUse.Sound.giveUp_zero (hs : s.Sound v fl) : giveUp 0 s.live = s.live :=
  List.filter_eq_self.mpr fun _ hq => by simpa using (hs.owned hq).pos

/-! ## Moves -/

/-- A state in the middle of a call, with the layout of the heap and the amounts added. -/
structure HeapStage where
  use : HeapUse
  layout : Layout
  ledger : List (Nat × Nat)

/-- The caller of the stage is in order. -/
def HeapStage.Sound (a : HeapStage) : Prop := ∃ fl, a.use.Sound a.layout fl

/-- A call does one thing to the heap.  It passes sizes to `ow_malloc` for which `A` holds. -/
inductive HeapMove (k64 : Kernel) (A : Heap → Nat → Prop) : HeapStage → HeapStage → Prop where
  | refused {h h' : Heap} {v : Layout} {live ledger : List (Nat × Nat)} :
      Refused h v h' → HeapMove k64 A ⟨⟨h, live⟩, v, ledger⟩ ⟨⟨h', live⟩, v, ledger⟩
  | fault {h : Heap} {v : Layout} {live ledger : List (Nat × Nat)} :
      HeapMove k64 A ⟨⟨h, live⟩, v, ledger⟩ ⟨⟨h.fault, live⟩, v, ledger⟩
  | gained {h h' : Heap} {v v' : Layout} {live ledger : List (Nat × Nat)} {p n : Nat} :
      A h n → owMalloc k64 h n = some (p, h') → p ≠ 0 → Malloced h v n p h' v' →
        (¬ Foul k64 h → Clear h v → Clear h' v') →
        HeapMove k64 A ⟨⟨h, live⟩, v, ledger⟩ ⟨⟨h', (p, n) :: live⟩, v', (p, added n) :: ledger⟩
  | resized {h : Heap} {v : Layout} {live ledger : List (Nat × Nat)} {p n k : Nat} :
      (p, n) ∈ live → Owns h.segs v p k →
        HeapMove k64 A ⟨⟨h, live⟩, v, ledger⟩ ⟨⟨h, (p, k) :: giveUp p live⟩, v, ledger⟩
  | wrote {h : Heap} {v : Layout} {live ledger : List (Nat × Nat)} {p n : Nat} {m : Mem} :
      (p, n) ∈ live → SameOn (fun x => x < p ∨ p + n ≤ x) h.mem m →
        HeapMove k64 A ⟨⟨h, live⟩, v, ledger⟩ ⟨⟨{ h with mem := m }, live⟩, v, ledger⟩
  | released {h : Heap} {v v' : Layout} {live ledger : List (Nat × Nat)} {p n : Nat} :
      (p, n) ∈ live → ¬ Fouled h (p - blkHdr) → Released h v p (owFree h p) v' →
        HeapMove k64 A ⟨⟨h, live⟩, v, ledger⟩
          ⟨⟨owFree h p, giveUp p live⟩, v', giveUp p ledger⟩

abbrev HeapMoves (k64 : Kernel) (A : Heap → Nat → Prop) : HeapStage → HeapStage → Prop :=
  Relation.ReflTransGen (HeapMove k64 A)

variable {k64 : Kernel} {A : Heap → Nat → Prop} {a b : HeapStage}

theorem HeapMove.sound (hm : HeapMove k64 A a b) (ha : a.Sound) : b.Sound := by
  obtain ⟨fl, hs⟩ := ha
  cases hm with
  | refused href =>
    obtain ⟨fl', hc⟩ := href.coherent
    refine ⟨fl', hc, fun hq => ?_, hs.distinct⟩
    rw [href.segs]
    exact hs.owned hq
  | fault => exact ⟨fl, hs.coherent.congr rfl rfl rfl, hs.owned, hs.distinct⟩
  | gained _ _ hp hmal _ =>
    obtain ⟨hg, hown⟩ := hmal.gained hp
    obtain ⟨fl', hc⟩ := hg.coherent
    refine ⟨fl', hc, fun hq => ?_, List.pairwise_cons.mpr ⟨fun q hq => ?_, hs.distinct⟩⟩
    · rcases List.mem_cons.mp hq with rfl | hq
      · exact hown
      · exact (hg.owns (hs.owned hq)).1
    · exact Ne.symm (hg.owns (hs.owned hq)).2
  | resized _ hown =>
    refine ⟨fl, hs.coherent, fun hq => ?_,
      List.pairwise_cons.mpr ⟨fun q hq => ?_, hs.distinct.filter _⟩⟩
    · rcases List.mem_cons.mp hq with rfl | hq
      · exact hown
      · exact hs.owned (mem_giveUp.mp hq).1
    · exact Ne.symm (mem_giveUp.mp hq).2
  | wrote hmem hsame => exact ⟨fl, hs.coherent.write (hs.owned hmem) hsame, hs.owned, hs.distinct⟩
  | released _ _ hrel =>
    obtain ⟨fl', hc⟩ := hrel.coherent
    refine ⟨fl', hc, fun hq => ?_, hs.distinct.filter _⟩
    obtain ⟨hq, hne⟩ := mem_giveUp.mp hq
    exact hrel.owns (hs.owned hq) hne

theorem HeapMoves.invariant {P : HeapStage → Prop} (hm : HeapMoves k64 A a b) (ha : a.Sound)
    (hP : P a) (hstep : ∀ {c d}, c.Sound → HeapMove k64 A c d → P c → P d) : b.Sound ∧ P b := by
  induction hm with
  | refl => exact ⟨ha, hP⟩
  | tail _ hcd ih => exact ⟨hcd.sound ih.1, hstep ih.1 hcd ih.2⟩

theorem HeapMoves.sound (hm : HeapMoves k64 A a b) (ha : a.Sound) : b.Sound :=
  (hm.invariant (P := fun _ => True) ha trivial fun _ _ _ => trivial).1

theorem HeapMove.clear (hm : HeapMove k64 A a b) (ha : a.Sound) (hk : ∀ h, ¬ Foul k64 h)
    (hclear : Clear a.use.heap a.layout) : Clear b.use.heap b.layout := by
  obtain ⟨fl, hs⟩ := ha
  cases hm with
  | refused href => exact href.clear hs.coherent hclear
  | fault => exact hclear
  | gained _ _ _ _ hkeep => exact hkeep (hk _) hclear
  | resized => exact hclear
  | wrote hmem hsame =>
    refine hclear.congr (fun {j bs} _ hvj => ⟨⟨bs, hvj⟩, rfl⟩) (hsame.mono fun y hy => ?_)
    by_contra hcon
    rcases hs.owned hmem with ⟨c, d, heq, hd, -, hle⟩ | ⟨c, heq, hl⟩
    · have hap := hs.coherent.shape.arenaHead_apart hy hd
      dsimp only at heq hle hcon
      omega
    · have hap := hs.coherent.shape.arenaHead_isLarge hy hl
      dsimp only at heq hcon
      omega
  | released _ _ hrel => exact hrel.clear hclear

/-! ## Calls as moves -/

theorem callocBytes_eq {nmemb : Nat} (hfit : ¬ (nmemb ≠ 0 ∧ size > sizeMax / nmemb)) :
    nmemb * size % 2 ^ 64 = nmemb * size := by
  refine Nat.mod_eq_of_lt ?_
  rcases Nat.eq_zero_or_pos nmemb with rfl | hpos
  · rw [Nat.zero_mul]
    exact Nat.two_pow_pos 64
  · have hle : size ≤ sizeMax / nmemb := by
      by_contra hcon
      exact hfit ⟨by omega, by omega⟩
    have hmul := (Nat.le_div_iff_mul_le hpos).mp hle
    rw [Nat.mul_comm] at hmul
    unfold sizeMax at hmul
    omega

theorem HeapUse.not_wraps (hw : ¬ s.Wraps op) (hn : s.asks op = some n)
    (hc : s.heap.corrupt = false) : ¬ wraps n := by
  intro hwn
  cases op with
  | malloc size =>
    cases hn
    exact hw ⟨hc, hwn⟩
  | calloc nmemb size =>
    simp only [HeapUse.asks] at hn
    split at hn
    · cases hn
    next hfit =>
      rw [callocBytes_eq hfit] at hn
      cases hn
      exact hw ⟨hc, hwn⟩
  | realloc ptr size =>
    simp only [HeapUse.asks] at hn
    split at hn
    next hptr =>
      cases hn
      exact hw ⟨hc, hwn, .inl hptr⟩
    · split at hn
      · cases hn
      · split at hn
        · cases hn
        next hhead =>
          split at hn
          · cases hn
          · cases hn
            exact hw ⟨hc, hwn, .inr (by simpa using (not_or.mp hhead).2)⟩
  | free ptr => cases hn
  | write addr bytes => cases hn

theorem HeapUse.Sound.malloc (hk : Lends k64) (hs : s.Sound v fl) (hA : A s.heap n)
    (hsize : s.heap.corrupt = false → ¬ wraps n) (ledger : List (Nat × Nat)) :
    ∃ p h' v', owMalloc k64 s.heap n = some (p, h') ∧
      HeapMove k64 A ⟨s, v, ledger⟩ ⟨⟨h', hold p n s.live⟩, v', hold p (added n) ledger⟩ := by
  obtain ⟨p, h', v', heq, hmal, hclear⟩ := hs.coherent.malloced hk hsize
  refine ⟨p, h', v', heq, ?_⟩
  unfold hold
  by_cases hp : p = 0
  · subst hp
    obtain ⟨rfl, href⟩ := hmal.null
    exact .refused href
  · rw [if_neg hp, if_neg hp]
    exact .gained hA heq hp hmal hclear

/-- What the moves of a call lead to, but for the call of `ow_free` at its end. -/
structure HeapUse.Comes (k64 : Kernel) (s : HeapUse) (op : HeapOp) (ledger : List (Nat × Nat))
    (b : HeapStage) : Prop where
  stays : s.freed k64 op = none →
    s.next k64 op = some b.use ∧ b.ledger = book op (s.answer k64 op) ledger
  frees : ∀ {r}, s.freed k64 op = some r → r.1 = b.use.heap ∧ (∃ n, (r.2, n) ∈ b.use.live) ∧
    s.next k64 op = some ⟨owFree r.1 r.2, giveUp r.2 b.use.live⟩ ∧
    giveUp r.2 b.ledger = book op (s.answer k64 op) ledger

theorem HeapUse.Comes.of_stays {ledger : List (Nat × Nat)}
    (hf : s.freed k64 op = none) (hn : s.next k64 op = some b.use)
    (hl : b.ledger = book op (s.answer k64 op) ledger) : s.Comes k64 op ledger b :=
  ⟨fun _ => ⟨hn, hl⟩, fun hr => by rw [hf] at hr; cases hr⟩

theorem giveUp_cons (hne : p ≠ ptr) : giveUp ptr ((p, n) :: live) = (p, n) :: giveUp ptr live :=
  List.filter_cons_of_pos (by simpa using hne)

theorem HeapUse.Sound.comesMalloc (hk : Lends k64) (hs : s.Sound v fl)
    (hA : A s.heap n) (hw : ¬ s.Wraps (.malloc n)) (ledger : List (Nat × Nat)) :
    ∃ b, HeapMoves k64 A ⟨s, v, ledger⟩ b ∧ s.Comes k64 (.malloc n) ledger b := by
  obtain ⟨p, h', v', heq, hmove⟩ := hs.malloc hk hA (fun hc hwn => hw ⟨hc, hwn⟩) ledger
  refine ⟨_, .single hmove, .of_stays rfl ?_ ?_⟩
  · rw [HeapUse.next, heq]
    rfl
  · rw [HeapUse.answer, heq]
    rfl

theorem HeapUse.Sound.comesCalloc (hk : Lends k64) (hs : s.Sound v fl) {nmemb : Nat}
    (hw : ¬ s.Wraps (.calloc nmemb size)) (hA : ∀ n, s.asks (.calloc nmemb size) = some n →
      A s.heap n) (ledger : List (Nat × Nat)) :
    ∃ b, HeapMoves k64 A ⟨s, v, ledger⟩ b ∧ s.Comes k64 (.calloc nmemb size) ledger b := by
  by_cases hfit : nmemb ≠ 0 ∧ size > sizeMax / nmemb
  · have hcall : owCalloc k64 s.heap nmemb size = some (0, s.heap) := by
      rw [owCalloc, if_pos hfit]
    refine ⟨_, .refl, .of_stays rfl ?_ ?_⟩
    · rw [HeapUse.next, hcall]
      rfl
    · rw [HeapUse.answer, hcall]
      rfl
  · have hask : s.asks (.calloc nmemb size) = some (nmemb * size) := by
      rw [HeapUse.asks, if_neg hfit, callocBytes_eq hfit]
    obtain ⟨p, h', v', heq, hmove⟩ := hs.malloc hk (hA _ hask) (s.not_wraps hw hask) ledger
    have hcall : owCalloc k64 s.heap nmemb size = some (p,
        if p ≠ 0 then { h' with mem := owMemset h'.mem p 0 (nmemb * size) } else h') := by
      rw [owCalloc, if_neg hfit, callocBytes_eq hfit]
      simp only [heq]
    have hanswer : s.answer k64 (.calloc nmemb size) = p := by
      rw [HeapUse.answer, hcall]
      rfl
    by_cases hp : p = 0
    · rw [if_neg (not_not_intro hp)] at hcall
      refine ⟨_, .single hmove, .of_stays rfl ?_ ?_⟩
      · rw [HeapUse.next, hcall]
        rfl
      · rw [hanswer]
        rfl
    · rw [if_pos hp] at hcall
      refine ⟨_, (Relation.ReflTransGen.single hmove).tail
        (.wrote (n := nmemb * size) ?_ (owMemset_same h'.mem p 0 _)), .of_stays rfl ?_ ?_⟩
      · rw [hold, if_neg hp]
        exact List.mem_cons_self
      · rw [HeapUse.next, hcall]
        rfl
      · rw [hanswer]
        rfl

theorem Owns.header (hown : Owns h.segs v p n) (c : Coherent h v fl) :
    loadU32 h.mem (p - blkHdr + 8) = magicBlk ∧
      (loadU32 h.mem (p - blkHdr + 4) &&& 0xFFFFFFFE ≠ 0 ∨
        loadU32 h.mem (p - blkHdr + 4) &&& 0xFFFFFFFE = 0 ∧
          ∀ {size}, size ≤ blkUser h.mem (p - blkHdr) → Owns h.segs v p size) := by
  rcases hown with ⟨a, b, rfl, hb, hused, hle⟩ | ⟨a, rfl, i, hi, hv, rfl⟩
  · have hat := c.shape.blockAt hb id
    have hsz := c.shape.isBlock_fit hb
    rw [show a + 16 - blkHdr = a from rfl]
    refine ⟨hat.magic, .inr ⟨?_, ?_⟩⟩
    · rw [hat.flags, Blk.flags, hused]
      decide
    · intro size hsize
      rw [blkUser_eq hat.size (by omega) hsz.2.2.2] at hsize
      exact .inl ⟨a, b, rfl, hb, hused, by omega⟩
  · have hl := c.shape.large hi hv
    rw [show (h.segs i).base + 16 - blkHdr = (h.segs i).base from rfl]
    refine ⟨hl.magic, .inl ?_⟩
    rw [hl.flags]
    decide

theorem HeapUse.Sound.comesRealloc (hk : Lends k64) (hs : s.Sound v fl)
    (hmem : (ptr, n) ∈ s.live) (hw : ¬ s.Wraps (.realloc ptr size))
    (hA : ∀ n, s.asks (.realloc ptr size) = some n → A s.heap n) (ledger : List (Nat × Nat)) :
    ∃ b, HeapMoves k64 A ⟨s, v, ledger⟩ b ∧ s.Comes k64 (.realloc ptr size) ledger b := by
  have hown := hs.owned hmem
  have hptr : ptr ≠ 0 := hown.pos
  obtain ⟨hmagic, hflags⟩ := hown.header hs.coherent
  dsimp only at hmagic hflags
  by_cases hsize : size = 0
  · have hcall : owRealloc k64 s.heap ptr size = some (0, owFree s.heap ptr) := by
      rw [owRealloc, if_neg hptr, if_pos hsize]
    have hfreed : s.freed k64 (.realloc ptr size) = some (s.heap, ptr) := by
      rw [HeapUse.freed, if_neg hptr, if_pos hsize]
    refine ⟨_, .refl, fun hf => ?_, fun {r} hr => ?_⟩
    · rw [hfreed] at hf
      cases hf
    · rw [hfreed] at hr
      cases hr
      refine ⟨rfl, ⟨n, hmem⟩, ?_, ?_⟩
      · rw [HeapUse.next, hcall]
        simp [hsize, hold]
      · rw [book, if_neg hptr, if_pos hsize]
  rcases hflags with hflags | ⟨hflags, hshrink⟩
  · -- a large allocation is taken for damage
    have hcall : owRealloc k64 s.heap ptr size = some (0, s.heap.fault) := by
      rw [owRealloc, if_neg hptr, if_neg hsize]
      exact if_pos (.inr hflags)
    refine ⟨_, .single .fault, .of_stays ?_ ?_ ?_⟩
    · rw [HeapUse.freed, if_neg hptr, if_neg hsize]
      exact if_pos (.inr hflags)
    · rw [HeapUse.next, hcall]
      simp [hsize]
    · rw [HeapUse.answer, hcall, book, if_neg hptr, if_neg hsize]
      exact (if_pos (.inl rfl)).symm
  have hhead : ¬ (loadU32 s.heap.mem (ptr - blkHdr + 8) ≠ magicBlk ∨
      loadU32 s.heap.mem (ptr - blkHdr + 4) &&& 0xFFFFFFFE ≠ 0) := by
    simp [hmagic, hflags]
  by_cases hle : size ≤ blkUser s.heap.mem (ptr - blkHdr)
  · have hcall : owRealloc k64 s.heap ptr size = some (ptr, s.heap) := by
      rw [owRealloc, if_neg hptr, if_neg hsize]
      exact (if_neg hhead).trans (if_pos hle)
    refine ⟨_, .single (.resized hmem (hshrink hle)), .of_stays ?_ ?_ ?_⟩
    · rw [HeapUse.freed, if_neg hptr, if_neg hsize]
      exact (if_neg hhead).trans (if_pos hle)
    · rw [HeapUse.next, hcall]
      simp [hptr, hold]
    · rw [HeapUse.answer, hcall, book, if_neg hptr, if_neg hsize]
      exact (if_pos (.inr rfl)).symm
  have hask : s.asks (.realloc ptr size) = some size := by
    rw [HeapUse.asks, if_neg hptr, if_neg hsize]
    exact (if_neg hhead).trans (if_neg hle)
  obtain ⟨np, h1, v1, heq, hmove⟩ := hs.malloc hk (hA _ hask) (s.not_wraps hw hask) ledger
  by_cases hnp : np = 0
  · subst hnp
    have hcall : owRealloc k64 s.heap ptr size = some (0, h1) := by
      rw [owRealloc, if_neg hptr, if_neg hsize]
      dsimp only
      rw [if_neg hhead, if_neg hle, heq]
      rfl
    refine ⟨_, .single hmove, .of_stays ?_ ?_ ?_⟩
    · rw [HeapUse.freed, if_neg hptr, if_neg hsize]
      dsimp only
      rw [if_neg hhead, if_neg hle, heq]
      rfl
    · rw [HeapUse.next, hcall]
      simp [hsize, hold]
    · rw [HeapUse.answer, hcall, book, if_neg hptr, if_neg hsize]
      exact (if_pos (.inl rfl)).symm
  · -- the old bytes are copied, and then the old block goes
    set old := blkUser s.heap.mem (ptr - blkHdr) with hold'
    have hcall : owRealloc k64 s.heap ptr size =
        some (np, owFree { h1 with mem := owMemcpy h1.mem np ptr old } ptr) := by
      rw [owRealloc, if_neg hptr, if_neg hsize]
      dsimp only
      rw [if_neg hhead, if_neg hle, heq]
      dsimp only
      rw [if_neg hnp]
    have hfreed : s.freed k64 (.realloc ptr size) =
        some ({ h1 with mem := owMemcpy h1.mem np ptr old }, ptr) := by
      rw [HeapUse.freed, if_neg hptr, if_neg hsize]
      dsimp only
      rw [if_neg hhead, if_neg hle, heq]
      dsimp only
      rw [if_neg hnp]
    rw [hold, hold, if_neg hnp, if_neg hnp] at hmove
    have hcopy : HeapMove k64 A ⟨⟨h1, (np, size) :: s.live⟩, v1, (np, added size) :: ledger⟩
        ⟨⟨{ h1 with mem := owMemcpy h1.mem np ptr old }, (np, size) :: s.live⟩, v1,
          (np, added size) :: ledger⟩ :=
      .wrote List.mem_cons_self ((owMemcpy_same h1.mem np ptr old).mono fun x hx => by omega)
    have hmoves : HeapMoves k64 A _ _ := (Relation.ReflTransGen.single hmove).tail hcopy
    obtain ⟨fl1, hs1⟩ := hmoves.sound ⟨fl, hs⟩
    have hne : np ≠ ptr := (List.pairwise_cons.mp hs1.distinct).1 _ hmem
    refine ⟨_, hmoves, fun hf => ?_, fun {r} hr => ?_⟩
    · rw [hfreed] at hf
      cases hf
    · rw [hfreed] at hr
      obtain rfl := Option.some.inj hr
      refine ⟨rfl, ⟨n, List.mem_cons_of_mem _ hmem⟩, ?_, ?_⟩
      · rw [HeapUse.next, hcall, giveUp_cons hne, Option.map_some, if_neg (by simp [hnp]), hold,
          if_neg hnp]
      · rw [HeapUse.answer, hcall, book, if_neg hptr, if_neg hsize, giveUp_cons hne]
        exact (if_neg (by simp [hnp, hne])).symm

theorem HeapUse.Sound.comes (hk : Lends k64) (hs : s.Sound v fl)
    (hop : s.Allowed op) (hw : ¬ s.Wraps op) (hA : ∀ n, s.asks op = some n → A s.heap n)
    (ledger : List (Nat × Nat)) :
    ∃ b, HeapMoves k64 A ⟨s, v, ledger⟩ b ∧ s.Comes k64 op ledger b := by
  cases op with
  | malloc size => exact hs.comesMalloc hk (hA _ rfl) hw ledger
  | calloc nmemb size => exact hs.comesCalloc hk hw hA ledger
  | realloc ptr size =>
    rcases hop with rfl | ⟨n, hmem⟩
    · obtain ⟨b, hmoves, hcomes⟩ := hs.comesMalloc hk (n := size) (hA _ rfl)
        (fun ⟨hc, hws⟩ => hw ⟨hc, hws, .inl rfl⟩) ledger
      obtain ⟨hnext, hbook⟩ := hcomes.stays rfl
      refine ⟨b, hmoves, .of_stays rfl ?_ hbook⟩
      simp only [HeapUse.next, Option.map_eq_some_iff] at hnext ⊢
      obtain ⟨r, hr, heq⟩ := hnext
      refine ⟨r, hr, ?_⟩
      rw [← heq, hs.giveUp_zero]
      unfold hold
      by_cases hp : r.1 = 0
      · simp [hp]
      · simp [hp]
    · exact hs.comesRealloc hk hmem hw hA ledger
  | free ptr =>
    by_cases hptr : ptr = 0
    · subst hptr
      refine ⟨_, .refl, .of_stays rfl ?_ rfl⟩
      rw [HeapUse.next, hs.giveUp_zero]
      rfl
    · have hfreed : s.freed k64 (.free ptr) = some (s.heap, ptr) := if_neg hptr
      refine ⟨_, .refl, fun hf => ?_, fun {r} hr => ?_⟩
      · rw [hfreed] at hf
        cases hf
      · rw [hfreed] at hr
        cases hr
        exact ⟨rfl, hop.resolve_left hptr, rfl, by rw [book, if_neg hptr]⟩
  | write addr bytes =>
    obtain ⟨p, n, hmem, hlo, hhi⟩ := hop
    refine ⟨_, .single (.wrote hmem (sameOn_store fun x hx => ?_)), .of_stays rfl rfl rfl⟩
    omega

theorem HeapUse.Sound.next (hk : Lends k64) (hs : s.Sound v fl)
    (hop : s.Allowed op) (hw : ¬ s.Wraps op) (hf : ¬ s.Fouls k64 op)
    (hA : ∀ n, s.asks op = some n → A s.heap n) (ledger : List (Nat × Nat)) :
    ∃ s' v', s.next k64 op = some s' ∧ HeapMoves k64 A ⟨s, v, ledger⟩
      ⟨s', v', book op (s.answer k64 op) ledger⟩ := by
  obtain ⟨b, hmoves, hcomes⟩ := hs.comes hk hop hw hA ledger
  cases hr : s.freed k64 op with
  | none =>
    obtain ⟨hnext, hbook⟩ := hcomes.stays hr
    exact ⟨b.use, b.layout, hnext, hbook ▸ hmoves⟩
  | some r =>
    obtain ⟨hheap, ⟨n, hmem⟩, hnext, hbook⟩ := hcomes.frees hr
    have hclean : ¬ Fouled r.1 (r.2 - blkHdr) := fun hfoul => hf ⟨r, hr, hfoul⟩
    rw [hheap] at hclean hnext
    obtain ⟨fl', hs'⟩ := hmoves.sound ⟨fl, hs⟩
    obtain ⟨v', hrel⟩ := hs'.coherent.release (hs'.owned hmem) hclean
    exact ⟨_, v', hnext, hbook ▸ hmoves.tail (.released hmem hclean hrel)⟩

theorem Coherent.arena_of_fouled (c : Coherent h v fl) (hown : Owns h.segs v p n)
    (hfoul : Fouled h (p - blkHdr)) :
    ∃ i bs b, i < segMax ∧ v i = .arena bs ∧ FreeFoot h.mem ((h.segs i).base + segHdr - blkFtar) ∧
      p = (h.segs i).base + segHdr + 16 ∧ IsBlock h.segs v ((h.segs i).base + segHdr) b ∧
      b.used = true := by
  obtain ⟨hfoot, i, hi, hact, hx⟩ := hfoul
  have hroom := c.shape.segment_room hi hact
  rw [hx] at hfoot
  unfold segHdr blkHdr at hx
  rcases hown with ⟨a, b, rfl, hb, hused, -⟩ | ⟨a, rfl, j, hj, hv, rfl⟩
  · obtain ⟨j, hj, bs, hv, hmem⟩ := hb
    have hp := c.shape.place_fit hj hv hmem
    by_cases hij : j = i
    · subst hij
      have ha : a = (h.segs j).base + segHdr := by
        unfold segHdr
        omega
      exact ⟨j, bs, b, hj, hv, hfoot, by rw [ha], ha ▸ ⟨j, hj, bs, hv, hmem⟩, hused⟩
    · have hap := c.shape.apart hj hi hij (c.shape.active_of_arena hj hv) hact
      omega
  · -- no large allocation begins there
    have hij : j ≠ i := by
      rintro rfl
      omega
    have hap := c.shape.apart hj hi hij (c.shape.active_of_large hj hv) hact
    have hroom' := c.shape.segment_room hj (c.shape.active_of_large hj hv)
    omega

theorem HeapUse.Sound.not_fouls (hk : Lends k64) (hfree : ∀ h, ¬ Foul k64 h) (hs : s.Sound v fl)
    (hclear : Clear s.heap v) (hop : s.Allowed op) (hw : ¬ s.Wraps op) :
    ¬ s.Fouls k64 op := by
  rintro ⟨r, hr, hfoul⟩
  obtain ⟨b, hmoves, hcomes⟩ := hs.comes (A := fun _ _ => True) hk hop hw (fun _ _ => trivial) []
  obtain ⟨⟨fl', hs'⟩, hb⟩ := hmoves.invariant (P := fun a => Clear a.use.heap a.layout) ⟨fl, hs⟩
    hclear fun hc hm => hm.clear hc hfree
  obtain ⟨hheap, ⟨n, hmem⟩, -⟩ := hcomes.frees hr
  rw [hheap] at hfoul
  obtain ⟨i, bs, -, hi, hv, hfoot, -⟩ := hs'.coherent.arena_of_fouled (hs'.owned hmem) hfoul
  exact hb i bs hi hv hfoot

/-! ## Runs -/

theorem HeapUse.Sound.init : HeapUse.init.Sound (fun _ => .none) [] where
  coherent :=
    { shape :=
        { fit := fun _ hact => by cases hact
          apart := fun _ _ _ hact => by cases hact
          active := fun _ => ⟨fun hact => (by cases hact), fun hne => absurd rfl hne⟩
          arena := fun _ hv => by cases hv
          large := fun _ hv => by cases hv }
      chained := fun pre x post heq => by simp at heq
      head := rfl
      nodup := .nil
      free := fun hf => by cases hf
      all := fun ⟨_, _, _, hv, _⟩ => by cases hv
      merged := fun _ hv => by cases hv }
  owned := fun hq => by cases hq
  distinct := .nil

def HeapUse.call (k64 : Kernel) (o : Option HeapUse) (op : HeapOp) : Option HeapUse :=
  o.bind fun s => s.next k64 op

/-- The heap is in order: it is coherent for some layout of blocks and some free list, and the
allocations the caller holds do not overlap. -/
def HeapUse.InOrder (s : HeapUse) : Prop :=
  (∃ v fl, Coherent s.heap v fl) ∧ s.live.Pairwise ApartFrom

/-- A call that rounds up no size that wraps around returns and leaves the heap sound. -/
theorem HeapUse.Sound.nextClear {k64 : Kernel} (hk : Honest k64) (hs : s.Sound v fl)
    (hclear : Clear s.heap v) (op : HeapOp) (hop : s.Allowed op) (hw : ¬ s.Wraps op) :
    ∃ s' v' fl', s.next k64 op = some s' ∧ s'.Sound v' fl' ∧ Clear s'.heap v' := by
  obtain ⟨s', v', hnext, hmoves⟩ := hs.next (A := fun _ _ => True) hk.lends hop hw
    (hs.not_fouls hk.lends hk.not_foul hclear hop hw) (fun _ _ => trivial) []
  obtain ⟨⟨fl', hs'⟩, hclear'⟩ := hmoves.invariant (P := fun a => Clear a.use.heap a.layout)
    ⟨fl, hs⟩ hclear fun hc hm => hm.clear hc hk.not_foul
  exact ⟨s', v', fl', hnext, hs', hclear'⟩

/-- Calls that keep to what the caller may do, none of which rounds up a size that wraps around,
all return and leave the heap in order. -/
theorem heap_in_order {k64 : Kernel} (hk : Honest k64) {ops : List HeapOp} {o : Option HeapUse}
    (hrun : Calls (fun o op => ∀ s ∈ o, s.Allowed op ∧ ¬ s.Wraps op) (HeapUse.call k64)
      (some HeapUse.init) ops o) : ∃ s, o = some s ∧ s.InOrder := by
  have hsound : ∃ s v fl, o = some s ∧ s.Sound v fl ∧ Clear s.heap v := by
    refine hrun.invariant (P := fun o => ∃ s v fl, o = some s ∧ s.Sound v fl ∧ Clear s.heap v) ?_
      ⟨_, _, _, rfl, .init, fun _ _ _ hv => by cases hv⟩
    rintro _ op ⟨s, v, fl, rfl, hs, hclear⟩ hguard
    obtain ⟨hop, hw⟩ := hguard s rfl
    exact hs.nextClear hk hclear op hop hw
  obtain ⟨s, v, fl, rfl, hs, -⟩ := hsound
  exact ⟨s, rfl, ⟨v, fl, hs.coherent⟩, hs.apart⟩

/-- A kernel that hands out blocks at falling addresses. -/
def fallingKernel : Kernel := fun h bytes =>
  let base := 0x400000 - 0x100000 * (h.requests % 4)
  if base + bytes ≤ 2 ^ 64 ∧ ∀ i < segMax, (h.segs i).active = true →
      base + bytes ≤ (h.segs i).base ∨ (h.segs i).base + (h.segs i).size ≤ base then
    some ⟨base, fun _ => 0⟩
  else none

theorem fallingKernel_honest : Honest fallingKernel := by
  have hgrant : ∀ {h bytes g}, fallingKernel h bytes = some g →
      g = ⟨0x400000 - 0x100000 * (h.requests % 4), fun _ => 0⟩ ∧ g.base + bytes ≤ 2 ^ 64 ∧
        ∀ i < segMax, (h.segs i).active = true →
          g.base + bytes ≤ (h.segs i).base ∨ (h.segs i).base + (h.segs i).size ≤ g.base := by
    intro h bytes g hg
    unfold fallingKernel at hg
    dsimp only at hg
    split at hg
    next hfit =>
      cases hg
      exact ⟨rfl, hfit⟩
    · cases hg
  refine ⟨?_, ?_, ?_, ?_⟩
  · intro h bytes g hg
    rw [(hgrant hg).1]
    dsimp only
    omega
  · intro h bytes g hg
    exact (hgrant hg).2.1
  · intro h bytes g hg i hi hact
    exact (hgrant hg).2.2 i hi hact
  · intro h bytes g hg k _
    rw [(hgrant hg).1]

/-- The state after some calls. -/
def HeapUse.run (k64 : Kernel) (ops : List HeapOp) : Option HeapUse :=
  ops.foldl (HeapUse.call k64) (some .init)

theorem calls_mallocs {G : HeapUse → HeapOp → Prop} (sizes : List Nat)
    (h : ∀ n ∈ sizes, ∀ s, G s (.malloc n)) {o : Option HeapUse}
    (ho : HeapUse.run k64 (sizes.map .malloc) = o) :
    Calls (fun o op => ∀ s ∈ o, G s op) (HeapUse.call k64) (some .init) (sizes.map .malloc) o := by
  subst ho
  induction sizes using List.reverseRecOn with
  | nil => exact .nil
  | append_singleton sizes n ih =>
    rw [List.map_append, HeapUse.run, List.foldl_append]
    refine (ih fun m hm => h m (List.mem_append_left _ hm)).snoc fun s _ => ?_
    exact h n (List.mem_append_right _ (List.mem_singleton_self n)) s

theorem live_of_mem {o : Option HeapUse}
    (ho : o.map HeapUse.live = some live) (hs : s ∈ o) : s.live = live := by
  rw [Option.mem_def.mp hs] at ho
  exact Option.some.inj ho

theorem heap_in_order_free :
    ∃ s, HeapUse.run fallingKernel
      [.malloc 100, .write 0x400030 [1, 2, 3], .free 0x400030] = some s ∧ s.InOrder := by
  have hfirst : (HeapUse.run fallingKernel [.malloc 100]).map HeapUse.live =
      some [(0x400030, 100)] := by decide
  have hsecond : (HeapUse.run fallingKernel [.malloc 100, .write 0x400030 [1, 2, 3]]).map
      HeapUse.live = some [(0x400030, 100)] := by decide
  refine heap_in_order fallingKernel_honest (((Calls.nil.snoc (a := HeapOp.malloc 100) ?_).snoc
    (a := HeapOp.write 0x400030 [1, 2, 3]) ?_).snoc (a := HeapOp.free 0x400030) ?_)
  · rintro s -
    exact ⟨trivial, fun hw => absurd hw.2 (by decide)⟩
  · intro s hs
    refine ⟨⟨0x400030, 100, ?_, by decide, by decide⟩, id⟩
    rw [live_of_mem hfirst hs]
    exact List.mem_singleton_self _
  · intro s hs
    refine ⟨.inr ⟨100, ?_⟩, id⟩
    rw [live_of_mem hsecond hs]
    exact List.mem_singleton_self _

/-- A size that wraps around gets one page, and the pointer stands for more than that. -/
theorem heap_disordered :
    Honest fallingKernel ∧ ∃ s, Calls (fun o op => ∀ s ∈ o, HeapUse.Allowed s op)
      (HeapUse.call fallingKernel) (some .init) [.malloc 100, .malloc (2 ^ 64 - 48)] (some s) ∧
        ¬ s.InOrder := by
  refine ⟨fallingKernel_honest, ?_⟩
  have hlive : (HeapUse.run fallingKernel [.malloc 100, .malloc (2 ^ 64 - 48)]).map HeapUse.live =
      some [(0x300010, 2 ^ 64 - 48), (0x400030, 100)] := by decide
  obtain ⟨s, hs, hheld⟩ := Option.map_eq_some_iff.mp hlive
  refine ⟨s, ?_, ?_⟩
  · rw [← hs]
    exact (Calls.nil.snoc fun _ _ => trivial).snoc fun _ _ => trivial
  · rintro ⟨-, hapart⟩
    rw [hheld] at hapart
    have hpair := (List.pairwise_cons.mp hapart).1 (0x400030, 100) (List.mem_singleton_self _)
    unfold ApartFrom at hpair
    omega

end Crt64
