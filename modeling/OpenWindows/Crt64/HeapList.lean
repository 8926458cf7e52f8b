import Mathlib.Data.List.Nodup
import OpenWindows.Crt64.HeapLayout

/-!
# The free list

A list of addresses is chained in memory when each of them points to the next
and the previous one.  Linking puts an address in front, unlinking takes one out,
and both write pointer fields of the list only.
-/

namespace Crt64

open Memory

/-- The addresses of a list, each with pointers to the next and the previous. -/
def Chained (m : Mem) (fl : List Nat) : Prop :=
  ∀ pre x post, fl = pre ++ x :: post →
    loadU64 m (x + blkHdr) = post.headD 0 ∧ loadU64 m (x + blkHdr + 8) = pre.getLastD 0

def LinkByte (fl : List Nat) (x : Nat) : Prop := ∃ f ∈ fl, f + 16 ≤ x ∧ x < f + 32

/-- The pointers of a list do not overlap, and no address is null. -/
structure Spaced (fl : List Nat) : Prop where
  nodup : fl.Nodup
  pos : ∀ {f}, f ∈ fl → 0 < f ∧ f < 2 ^ 64
  apart : ∀ {f g}, f ∈ fl → g ∈ fl → f ≠ g → f + 32 ≤ g ∨ g + 32 ≤ f

variable {m m' : Mem} {fl pre post : List Nat} {x : Nat}

theorem Chained.congr (h : Chained m fl) (hs : SameOn (LinkByte fl) m m') : Chained m' fl := by
  intro pre x post heq
  have hx : x ∈ fl := by simp [heq]
  obtain ⟨hn, hp⟩ := h pre x post heq
  have hload : ∀ {p}, x + 16 ≤ p → p + 8 ≤ x + 32 → loadU64 m' p = loadU64 m p := by
    intro p h1 h2
    exact hs.loadNum_eq fun y hy hy' => ⟨x, hx, by omega, by omega⟩
  unfold blkHdr at hn hp ⊢
  rw [hload (by omega) (by omega), hload (by omega) (by omega)]
  exact ⟨hn, hp⟩

theorem loadU64_storeU64_self {p v : Nat} (hv : v < 2 ^ 64) : loadU64 (storeU64 m p v) p = v := by
  rw [loadU64, storeU64, loadNum_storeNum_self]
  exact Nat.mod_eq_of_lt hv

theorem loadU64_storeU64_of_disjoint {p q v : Nat} (h : q + 8 ≤ p ∨ p + 8 ≤ q) :
    loadU64 (storeU64 m p v) q = loadU64 m q := loadNum_storeNum_of_disjoint h

theorem mem_append_cons {f : Nat} (hf : f ∈ pre ++ post) : f ∈ pre ++ x :: post := by
  rcases List.mem_append.mp hf with hf | hf
  · exact List.mem_append_left _ hf
  · exact List.mem_append_right _ (List.mem_cons_of_mem _ hf)

theorem Spaced.tail (h : Spaced (pre ++ x :: post)) : Spaced (pre ++ post) where
  nodup := (List.nodup_cons.mp (List.nodup_middle.mp h.nodup)).2
  pos hf := h.pos (mem_append_cons hf)
  apart hf hg := h.apart (mem_append_cons hf) (mem_append_cons hg)

theorem headD_mem {l : List Nat} (h : l.headD 0 ≠ 0) : l.headD 0 ∈ l := by
  cases l with
  | nil => exact absurd rfl h
  | cons x l => exact List.mem_cons_self

theorem getLastD_append_cons (l : List Nat) (x : Nat) (k : List Nat) :
    (l ++ x :: k).getLastD 0 = (x :: k).getLastD 0 := by
  rcases List.eq_nil_or_concat k with rfl | ⟨init, y, rfl⟩
  · simp
  · rw [List.concat_eq_append, ← List.cons_append, ← List.append_assoc, List.getLastD_concat,
      List.getLastD_concat]

theorem getLastD_cons_mem (x : Nat) (l : List Nat) : (x :: l).getLastD 0 ∈ x :: l := by
  rcases List.eq_nil_or_concat (x :: l) with hnil | ⟨init, y, heq⟩
  · cases hnil
  · rw [heq]
    simp

theorem getLastD_mem {l : List Nat} (h : l.getLastD 0 ≠ 0) : l.getLastD 0 ∈ l := by
  cases l with
  | nil => exact absurd rfl h
  | cons x l => exact getLastD_cons_mem x l

theorem Spaced.lt (h : Spaced fl) {f : Nat} (hf : f ≠ 0 → f ∈ fl) : f < 2 ^ 64 := by
  by_cases h0 : f = 0
  · rw [h0]
    decide
  · exact (h.pos (hf h0)).2

theorem sameOn_storeLink {f p v : Nat} (hf : f ∈ fl) (hlo : f + 16 ≤ p) (hhi : p + 8 ≤ f + 32) :
    SameOn (fun y => ¬ LinkByte fl y) m (storeU64 m p v) := by
  refine sameOn_storeNum fun y hy => ?_
  by_contra hcon
  exact hy ⟨f, hf, by omega, by omega⟩

/-! ## Linking -/

theorem blkFreeLink_spec {h : Heap} (hc : Chained h.mem fl) (hhead : h.freeHead = fl.headD 0)
    (hsp : Spaced (x :: fl)) :
    ∃ m', blkFreeLink h x = { h with mem := m', freeHead := x } ∧ Chained m' (x :: fl) ∧
      SameOn (fun y => ¬ LinkByte (x :: fl) y) h.mem m' := by
  refine ⟨_, rfl, ?_, ?_⟩
  · obtain ⟨hx, hxlt⟩ := hsp.pos (List.mem_cons_self ..)
    have hxfl : x ∉ fl := (List.nodup_cons.mp hsp.nodup).1
    rw [hhead]
    cases fl with
    | nil =>
      intro pre y post heq
      obtain ⟨rfl, rfl, rfl⟩ : pre = [] ∧ y = x ∧ post = [] := by
        cases pre with
        | nil =>
          cases heq
          exact ⟨rfl, rfl, rfl⟩
        | cons p pre => simp at heq
      simp only [List.headD_nil, ne_eq, not_true_eq_false, if_false, List.getLastD_nil]
      exact ⟨by
        rw [loadU64_storeU64_of_disjoint (by omega), loadU64_storeU64_self (by decide)],
        loadU64_storeU64_self (by decide)⟩
    | cons g fl =>
      have hg := hsp.pos (show g ∈ x :: g :: fl by simp)
      have hxg : x ≠ g := fun heq => hxfl (by simp [heq])
      have hap := hsp.apart (show x ∈ x :: g :: fl by simp) (show g ∈ x :: g :: fl by simp) hxg
      simp only [List.headD_cons, ne_eq, show g ≠ 0 by omega, not_false_eq_true, if_true]
      unfold blkHdr
      intro pre y post heq
      cases pre with
      | nil =>
        obtain ⟨rfl, rfl⟩ : y = x ∧ post = g :: fl := by
          cases heq
          exact ⟨rfl, rfl⟩
        simp only [List.headD_cons, List.getLastD_nil, blkHdr]
        refine ⟨?_, ?_⟩
        · rw [loadU64_storeU64_of_disjoint (by omega), loadU64_storeU64_of_disjoint (by omega),
            loadU64_storeU64_self hg.2]
        · rw [loadU64_storeU64_of_disjoint (by omega), loadU64_storeU64_self (by decide)]
      | cons p pre =>
        obtain ⟨rfl, htail⟩ : x = p ∧ g :: fl = pre ++ y :: post := by
          simpa using heq
        have hy : y ∈ g :: fl := by simp [htail]
        obtain ⟨hn, hp⟩ := hc pre y post htail
        have hxy : x ≠ y := fun heq => hxfl (heq ▸ hy)
        have hapx := hsp.apart (show x ∈ x :: g :: fl by simp)
          (show y ∈ x :: g :: fl from List.mem_cons_of_mem _ hy) hxy
        unfold blkHdr at hn hp ⊢
        cases pre with
        | nil =>
          -- the old head now points back
          obtain ⟨rfl, rfl⟩ : g = y ∧ fl = post := by simpa using htail
          refine ⟨?_, ?_⟩
          · simp (disch := omega) only [loadU64_storeU64_of_disjoint, hn]
          · rw [loadU64_storeU64_self hxlt]
            rfl
        | cons p pre =>
          obtain ⟨rfl, htail'⟩ : g = p ∧ fl = pre ++ y :: post := by simpa using htail
          have hgy : g ≠ y := by
            rintro rfl
            have hnd := (List.nodup_cons.mp hsp.nodup).2
            rw [htail'] at hnd
            exact (List.nodup_cons.mp hnd).1 (by simp)
          have hapg := hsp.apart (show g ∈ x :: g :: fl by simp)
            (show y ∈ x :: g :: fl from List.mem_cons_of_mem _ hy) hgy
          refine ⟨?_, ?_⟩
          · simp (disch := omega) only [loadU64_storeU64_of_disjoint, hn]
          · simp (disch := omega) only [loadU64_storeU64_of_disjoint, hp]
            simp
  · have hx : x ∈ x :: fl := List.mem_cons_self ..
    have hnew : SameOn (fun y => ¬ LinkByte (x :: fl) y) h.mem
        (storeU64 (storeU64 h.mem (x + blkHdr) h.freeHead) (x + blkHdr + 8) 0) :=
      (sameOn_storeLink hx (by unfold blkHdr; omega) (by unfold blkHdr; omega)).trans
        (sameOn_storeLink hx (by unfold blkHdr; omega) (by unfold blkHdr; omega))
    split
    next hne =>
      have hh : h.freeHead ∈ x :: fl := by
        rw [hhead] at hne ⊢
        exact List.mem_cons_of_mem _ (headD_mem hne)
      exact hnew.trans (sameOn_storeLink hh (by unfold blkHdr; omega) (by unfold blkHdr; omega))
    · exact hnew

/-! ## Unlinking -/

/-- The memory after an address between `prev` and `next` was taken out. -/
def bridge (m : Mem) (prev next : Nat) : Mem :=
  let m := if prev ≠ 0 then storeU64 m (prev + blkHdr) next else m
  if next ≠ 0 then storeU64 m (next + blkHdr + 8) prev else m

theorem blkFreeUnlink_eq (h : Heap) (blk : Nat) :
    blkFreeUnlink h blk =
      { h with
        mem := bridge h.mem (loadU64 h.mem (blk + blkHdr + 8)) (loadU64 h.mem (blk + blkHdr))
        freeHead := if loadU64 h.mem (blk + blkHdr + 8) ≠ 0 then h.freeHead
          else loadU64 h.mem (blk + blkHdr) } := by
  unfold blkFreeUnlink bridge
  by_cases hp : loadU64 h.mem (blk + blkHdr + 8) = 0 <;>
    by_cases hn : loadU64 h.mem (blk + blkHdr) = 0 <;> simp [hp, hn]

theorem bridge_load {prev next y : Nat} (hnext : next < 2 ^ 64) (hprev : prev < 2 ^ 64)
    (hy : 0 < y) (hyp : prev ≠ 0 → y ≠ prev → y + 32 ≤ prev ∨ prev + 32 ≤ y)
    (hyn : next ≠ 0 → y ≠ next → y + 32 ≤ next ∨ next + 32 ≤ y) :
    loadU64 (bridge m prev next) (y + blkHdr) =
        (if y = prev then next else loadU64 m (y + blkHdr)) ∧
      loadU64 (bridge m prev next) (y + blkHdr + 8) =
        (if y = next then prev else loadU64 m (y + blkHdr + 8)) := by
  unfold bridge blkHdr
  dsimp only
  set m1 : Mem := if prev ≠ 0 then storeU64 m (prev + 16) next else m with hm1
  have hfirst : loadU64 m1 (y + 16) = (if y = prev then next else loadU64 m (y + 16)) ∧
      loadU64 m1 (y + 16 + 8) = loadU64 m (y + 16 + 8) := by
    by_cases hp : prev = 0
    · rw [hm1, if_neg (not_not.mpr hp), if_neg (by omega)]
      exact ⟨rfl, rfl⟩
    · rw [hm1, if_pos hp]
      by_cases hyprev : y = prev
      · rw [if_pos hyprev, hyprev]
        exact ⟨loadU64_storeU64_self hnext, loadU64_storeU64_of_disjoint (by omega)⟩
      · have hap := hyp hp hyprev
        rw [if_neg hyprev]
        exact ⟨loadU64_storeU64_of_disjoint (by omega), loadU64_storeU64_of_disjoint (by omega)⟩
  by_cases hn : next = 0
  · rw [if_neg (not_not.mpr hn), if_neg (show y ≠ next by omega)]
    exact hfirst
  · rw [if_pos hn]
    by_cases hynext : y = next
    · subst hynext
      rw [if_pos rfl]
      exact ⟨by rw [loadU64_storeU64_of_disjoint (by omega), hfirst.1],
        loadU64_storeU64_self hprev⟩
    · have hap := hyn hn hynext
      rw [if_neg hynext]
      exact ⟨by rw [loadU64_storeU64_of_disjoint (by omega), hfirst.1],
        by rw [loadU64_storeU64_of_disjoint (by omega), hfirst.2]⟩

theorem split_middle {p q : List Nat} {y : Nat} (heq : pre ++ post = p ++ y :: q) :
    (∃ c, pre = p ++ y :: c ∧ q = c ++ post) ∨ (∃ a, post = a ++ y :: q ∧ p = pre ++ a) := by
  rcases List.append_eq_append_iff.mp heq with ⟨a, hp, hpost⟩ | ⟨c, hpre, hq⟩
  · exact .inr ⟨a, hpost, hp⟩
  · cases c with
    | nil =>
      rw [List.append_nil] at hpre
      exact .inr ⟨[], by simpa using hq.symm, by simp [hpre]⟩
    | cons z c =>
      obtain ⟨rfl, rfl⟩ : y = z ∧ q = c ++ post := by simpa using hq
      exact .inl ⟨c, hpre, rfl⟩

theorem Chained.bridge (hc : Chained m (pre ++ x :: post)) (hsp : Spaced (pre ++ x :: post)) :
    Chained (bridge m (pre.getLastD 0) (post.headD 0)) (pre ++ post) := by
  -- the neighbours, where there are any
  have hprev : pre.getLastD 0 ≠ 0 → pre.getLastD 0 ∈ pre ++ x :: post := fun h0 =>
    List.mem_append_left _ (getLastD_mem h0)
  have hnext : post.headD 0 ≠ 0 → post.headD 0 ∈ pre ++ x :: post := fun h0 =>
    mem_append_cons (List.mem_append_right _ (headD_mem h0))
  have hnd := hsp.tail.nodup
  have hdisj : ∀ {f}, f ∈ pre → f ∈ post → False := fun hf hf' =>
    (List.nodup_append.mp hnd).2.2 _ hf _ hf' rfl
  intro p y q heq
  have hy : y ∈ pre ++ x :: post := mem_append_cons (by simp [heq])
  have hypos := (hsp.pos hy).1
  obtain ⟨hload1, hload2⟩ := bridge_load (m := m) (hsp.lt hnext) (hsp.lt hprev) hypos
    (fun h0 hne => hsp.apart hy (hprev h0) hne) (fun h0 hne => hsp.apart hy (hnext h0) hne)
  rw [hload1, hload2]
  rcases split_middle heq with ⟨c, hpre, rfl⟩ | ⟨a, hpost, rfl⟩
  · -- the address stands before the one taken out
    have hypre : y ∈ pre := by simp [hpre]
    obtain ⟨hn', hp'⟩ := hc p y (c ++ x :: post) (by simp [hpre])
    have hynext : y ≠ post.headD 0 := by
      intro heq
      exact hdisj hypre (heq ▸ headD_mem (by omega))
    rw [if_neg hynext, hn', hp']
    refine ⟨?_, rfl⟩
    cases c with
    | nil =>
      have hlast : y = pre.getLastD 0 := by simp [hpre]
      rw [if_pos hlast, List.nil_append]
    | cons z c =>
      have hlast : y ≠ pre.getLastD 0 := by
        have hndp := (List.nodup_append.mp hnd).1
        rw [hpre] at hndp ⊢
        have hnotin := (List.nodup_cons.mp (List.nodup_append.mp hndp).2.1).1
        have hmem := getLastD_cons_mem z c
        have hend : (p ++ y :: z :: c).getLastD 0 = (z :: c).getLastD 0 := by
          rw [getLastD_append_cons, ← List.singleton_append, getLastD_append_cons]
        intro heq
        rw [← hend, ← heq] at hmem
        exact hnotin hmem
      rw [if_neg hlast]
      rfl
  · -- the address stands behind it
    have hypost : y ∈ post := by simp [hpost]
    obtain ⟨hn', hp'⟩ := hc (pre ++ x :: a) y q (by simp [hpost])
    have hyprev : y ≠ pre.getLastD 0 := by
      intro heq
      exact hdisj (heq ▸ getLastD_mem (by omega)) hypost
    rw [if_neg hyprev, hn', hp']
    refine ⟨rfl, ?_⟩
    cases a with
    | nil =>
      have hfirst : y = post.headD 0 := by simp [hpost]
      rw [if_pos hfirst, List.append_nil]
    | cons z a =>
      have hfirst : y ≠ post.headD 0 := by
        have hndp := (List.nodup_append.mp hnd).2.1
        rw [hpost] at hndp ⊢
        have hnotin := (List.nodup_cons.mp hndp).1
        rintro rfl
        exact hnotin (by simp)
      rw [if_neg hfirst, ← List.singleton_append, ← List.append_assoc, getLastD_append_cons,
        getLastD_append_cons]

theorem bridge_same (m : Mem) (pre post : List Nat) :
    SameOn (fun y => ¬ LinkByte (pre ++ post) y) m
      (bridge m (pre.getLastD 0) (post.headD 0)) := by
  unfold bridge
  dsimp only
  have hfirst : SameOn (fun y => ¬ LinkByte (pre ++ post) y) m
      (if pre.getLastD 0 ≠ 0 then storeU64 m (pre.getLastD 0 + blkHdr) (post.headD 0) else m) := by
    split
    next hne =>
      exact sameOn_storeLink (List.mem_append_left _ (getLastD_mem hne)) (by unfold blkHdr; omega)
        (by unfold blkHdr; omega)
    · exact SameOn.refl _ _
  split
  next hne =>
    exact hfirst.trans (sameOn_storeLink (List.mem_append_right _ (headD_mem hne))
      (by unfold blkHdr; omega) (by unfold blkHdr; omega))
  · exact hfirst

theorem blkFreeUnlink_spec {h : Heap} (hc : Chained h.mem (pre ++ x :: post))
    (hhead : h.freeHead = (pre ++ x :: post).headD 0) (hsp : Spaced (pre ++ x :: post)) :
    ∃ m', blkFreeUnlink h x = { h with mem := m', freeHead := (pre ++ post).headD 0 } ∧
      Chained m' (pre ++ post) ∧ SameOn (fun y => ¬ LinkByte (pre ++ post) y) h.mem m' := by
  obtain ⟨hn, hp⟩ := hc pre x post rfl
  rw [blkFreeUnlink_eq, hn, hp]
  have hfirst : (if pre.getLastD 0 ≠ 0 then h.freeHead else post.headD 0) =
      (pre ++ post).headD 0 := by
    rw [hhead]
    cases pre with
    | nil => simp
    | cons p pre =>
      have hlast := hsp.pos (List.mem_append_left _ (getLastD_cons_mem p pre))
      have hne : (p :: pre).getLastD 0 ≠ 0 := by omega
      rw [if_pos hne]
      rfl
  exact ⟨bridge h.mem (pre.getLastD 0) (post.headD 0), by rw [hfirst], hc.bridge hsp,
    bridge_same h.mem pre post⟩

end Crt64
