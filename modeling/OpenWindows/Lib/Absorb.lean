import OpenWindows.Lib.Bytes

/-!
# Hashing block by block

A hash function compresses blocks of one length.  Data come in pieces, so what does not fill a block
is kept.  `absorb` does this one item at a time, and pieces are then no matter at all.  A program
fills the block it has begun, takes whole blocks from the data, and keeps the rest (`update`).  At
the end a mark, zeros and the length fill the last block or the last two (`finish`).  Both are
`absorb`, and `absorb` of a padded message compresses its blocks one after the other.
-/

namespace Absorb

open Bytes

variable {σ α : Type*} {n : Nat} {compress : σ → List α → σ} {h : σ} {c : σ × List α}
  {buf data : List α}

/-! ## One item at a time -/

/-- An item is put behind the block that was begun. -/
def feed (n : Nat) (compress : σ → List α → σ) (c : σ × List α) (x : α) : σ × List α :=
  if c.2.length + 1 = n then (compress c.1 (c.2 ++ [x]), []) else (c.1, c.2 ++ [x])

/-- The chaining value and the block that is begun, after the data. -/
def absorb (n : Nat) (compress : σ → List α → σ) (c : σ × List α) (data : List α) : σ × List α :=
  data.foldl (feed n compress) c

@[simp] theorem absorb_nil : absorb n compress c [] = c := rfl

theorem absorb_append (as bs : List α) :
    absorb n compress c (as ++ bs) = absorb n compress (absorb n compress c as) bs :=
  List.foldl_append

theorem absorb_short (hlen : buf.length + data.length < n) :
    absorb n compress (h, buf) data = (h, buf ++ data) := by
  induction data generalizing buf with
  | nil => rw [absorb_nil, List.append_nil]
  | cons x data ih =>
    rw [List.length_cons] at hlen
    have hroom : ¬ buf.length + 1 = n := by omega
    have hrest : absorb n compress (h, buf ++ [x]) data = (h, buf ++ [x] ++ data) := by
      refine ih ?_
      rw [List.length_append, List.length_singleton]
      omega
    rw [List.append_assoc, List.singleton_append] at hrest
    rw [← hrest, absorb, List.foldl_cons, feed, if_neg hroom]
    rfl

theorem absorb_full (hbuf : buf.length < n) (hlen : buf.length + data.length = n) :
    absorb n compress (h, buf) data = (compress h (buf ++ data), []) := by
  rcases List.eq_nil_or_concat data with rfl | ⟨front, x, rfl⟩
  · rw [List.length_nil] at hlen
    omega
  · rw [List.concat_eq_append] at hlen ⊢
    rw [List.length_append, List.length_singleton] at hlen
    have hlast : (buf ++ front).length + 1 = n := by
      rw [List.length_append]
      omega
    have hfront : absorb n compress (h, buf) front = (h, buf ++ front) := absorb_short (by omega)
    rw [absorb_append, hfront]
    change feed n compress (h, buf ++ front) x = _
    rw [feed, if_pos hlast, List.append_assoc]

theorem length_absorb (hbuf : c.2.length < n) :
    (absorb n compress c data).2.length = (c.2.length + data.length) % n := by
  induction data generalizing c with
  | nil => exact (Nat.mod_eq_of_lt hbuf).symm
  | cons x data ih =>
    have hstep : absorb n compress c (x :: data) = absorb n compress (feed n compress c x) data :=
      rfl
    have hfeed : (feed n compress c x).2.length = (c.2.length + 1) % n := by
      rw [feed]
      split
      next hfull => rw [hfull, Nat.mod_self]; rfl
      next hroom =>
        rw [Nat.mod_eq_of_lt (by omega), List.length_append, List.length_singleton]
    rw [hstep, ih (by rw [hfeed]; exact Nat.mod_lt _ (by omega)), hfeed, Nat.mod_add_mod,
      List.length_cons, Nat.add_assoc, Nat.add_comm 1]

theorem length_absorb_lt (hbuf : c.2.length < n) : (absorb n compress c data).2.length < n := by
  rw [length_absorb hbuf]
  exact Nat.mod_lt _ (by omega)

theorem absorb_chunks {k m : Nat} (hdata : data.length = m * (k + 1)) :
    absorb (k + 1) compress (h, []) data = ((chunks k data).foldl compress h, []) := by
  induction m generalizing h data with
  | zero =>
    obtain rfl : data = [] := List.length_eq_zero_iff.1 (by omega)
    rw [chunks_nil, absorb_nil]
    rfl
  | succ m ih =>
    rw [Nat.succ_mul] at hdata
    have hne : data ≠ [] := by
      rintro rfl
      rw [List.length_nil] at hdata
      omega
    have hblock : (data.take (k + 1)).length = k + 1 := by
      rw [List.length_take]
      omega
    have hrest : (data.drop (k + 1)).length = m * (k + 1) := by
      rw [List.length_drop]
      omega
    have hfirst : absorb (k + 1) compress (h, []) (data.take (k + 1)) =
        (compress h ([] ++ data.take (k + 1)), []) :=
      absorb_full (Nat.succ_pos k) ((Nat.zero_add _).trans hblock)
    rw [chunks, if_neg hne, List.foldl_cons, ← ih hrest]
    conv_lhs => rw [← List.take_append_drop (k + 1) data, absorb_append, hfirst]
    rfl

/-! ## Two compressions -/

section Hom

variable {τ : Type*} {f : σ → τ} {compress' : τ → List α → τ}

theorem absorb_hom (hf : ∀ h p, compress' (f h) p = f (compress h p)) :
    absorb n compress' (f c.1, c.2) data =
      (f (absorb n compress c data).1, (absorb n compress c data).2) := by
  induction data generalizing c with
  | nil => rfl
  | cons x data ih =>
    have hfeed : feed n compress' (f c.1, c.2) x =
        (f (feed n compress c x).1, (feed n compress c x).2) := by
      rw [feed, feed]
      dsimp only
      split
      · rw [hf]
      · rfl
    change absorb n compress' (feed n compress' (f c.1, c.2) x) data = _
    rw [hfeed, ih]
    rfl

end Hom

/-! ## Block by block -/

/-- Whole blocks from the data, at most `k` of them, and what is left. -/
def wholeBlocks (n : Nat) (compress : σ → List α → σ) : (k : Nat) → σ → List α → σ × List α
  | 0, h, p => (h, p)
  | k + 1, h, p =>
    if n ≤ p.length then wholeBlocks n compress k (compress h p) (p.drop n) else (h, p)

/-- The block that was begun is filled first, then whole blocks are taken, then the rest is kept. -/
def update (n : Nat) (compress : σ → List α → σ) (c : σ × List α) (data : List α) : σ × List α :=
  let take := min data.length (n - c.2.length)
  let buf := c.2 ++ data.take take
  let (c, p) :=
    if c.2 = [] then (c, data)
    else if buf.length = n then ((compress c.1 buf, []), data.drop take)
    else ((c.1, buf), data.drop take)
  let (h, p) := wholeBlocks n compress p.length c.1 p
  (h, c.2 ++ p)

theorem wholeBlocks_nil (k : Nat) (hn : 0 < n) : wholeBlocks n compress k h [] = (h, []) := by
  cases k with
  | zero => rfl
  | succ k => rw [wholeBlocks, if_neg (by rw [List.length_nil]; omega)]

/-- A compression reads no more than a block. -/
def Local (n : Nat) (compress : σ → List α → σ) : Prop :=
  ∀ h p, compress h p = compress h (p.take n)

theorem wholeBlocks_eq (hn : 0 < n) (hlocal : Local n compress) {k : Nat} {p : List α}
    (hk : p.length ≤ k) : wholeBlocks n compress k h p = absorb n compress (h, []) p := by
  induction k generalizing h p with
  | zero =>
    obtain rfl : p = [] := List.length_eq_zero_iff.1 (by omega)
    rfl
  | succ k ih =>
    rw [wholeBlocks]
    split
    next hblock =>
      have hfirst : (p.take n).length = n := by
        rw [List.length_take]
        omega
      have hfull : absorb n compress (h, []) (p.take n) = (compress h ([] ++ p.take n), []) :=
        absorb_full hn ((Nat.zero_add _).trans hfirst)
      rw [ih (by rw [List.length_drop]; omega), hlocal]
      conv_rhs => rw [← List.take_append_drop n p, absorb_append, hfull]
      rfl
    next hrest =>
      rw [absorb_short (by rw [List.length_nil]; omega)]
      rfl

/-- Block by block is item by item. -/
theorem update_eq (hlocal : Local n compress) (hbuf : c.2.length < n) (data : List α) :
    update n compress c data = absorb n compress c data := by
  obtain ⟨h, buf⟩ := c
  have hn : 0 < n := by omega
  dsimp only at hbuf
  unfold update
  dsimp only
  split
  next hnil =>
    subst hnil
    dsimp only
    rw [wholeBlocks_eq hn hlocal le_rfl, List.nil_append]
  · obtain ⟨k, hk⟩ : ∃ k, k = min data.length (n - buf.length) := ⟨_, rfl⟩
    have htake : (data.take k).length = k := by
      rw [List.length_take]
      omega
    rw [← hk]
    split
    next hfull =>
      rw [List.length_append] at hfull
      dsimp only
      rw [wholeBlocks_eq hn hlocal le_rfl, List.nil_append]
      conv_rhs => rw [← List.take_append_drop k data, absorb_append, absorb_full hbuf hfull]
    next hroom =>
      rw [List.length_append, htake] at hroom
      have hall : data.length ≤ k := by omega
      dsimp only
      rw [List.drop_eq_nil_of_le hall, List.take_of_length_le hall, wholeBlocks_nil _ hn,
        List.append_nil, absorb_short (by omega)]

/-! ## The last block -/

/-- How many items of zero stand between the mark and the length of a message of `k` items. -/
def gap (n k len : Nat) : Nat := (n - (k + 1 + len) % n) % n

def padded (n : Nat) (zero mark : α) (msg len : List α) : List α :=
  msg ++ mark :: (List.replicate (gap n msg.length len.length) zero ++ len)

def fillTo (n : Nat) (zero : α) (buf : List α) : List α :=
  buf ++ List.replicate (n - buf.length) zero

/-- The end of the message: one block more, or two when the length does not fit. -/
def finish (n : Nat) (compress : σ → List α → σ) (zero mark : α) (c : σ × List α)
    (len : List α) : σ :=
  let buf := c.2 ++ [mark]
  let (h, buf) :=
    if n - len.length < buf.length then (compress c.1 (fillTo n zero buf), []) else (c.1, buf)
  compress h (fillTo (n - len.length) zero buf ++ len)

variable {len : List α} {zero mark : α}

theorem finish_of_gt (h : n - len.length < (c.2 ++ [mark]).length) :
    finish n compress zero mark c len =
      compress (compress c.1 (fillTo n zero (c.2 ++ [mark])))
        (fillTo (n - len.length) zero [] ++ len) := by
  rw [finish]
  dsimp only
  rw [if_pos h]

theorem finish_of_le (h : ¬ n - len.length < (c.2 ++ [mark]).length) :
    finish n compress zero mark c len =
      compress c.1 (fillTo (n - len.length) zero (c.2 ++ [mark]) ++ len) := by
  rw [finish]
  dsimp only
  rw [if_neg h]

theorem finish_hom {τ : Type*} {f : σ → τ} {compress' : τ → List α → τ}
    (hf : ∀ h p, compress' (f h) p = f (compress h p)) (len : List α) :
    finish n compress' zero mark (f c.1, c.2) len = f (finish n compress zero mark c len) := by
  rw [finish, finish]
  dsimp only
  split
  · rw [hf, hf]
  · rw [hf]

theorem gap_of_le {b len : Nat} (h : b + 1 + len ≤ n) : gap n b len = n - len - (b + 1) := by
  rcases Nat.lt_or_eq_of_le h with h | h
  · rw [gap, Nat.mod_eq_of_lt h, Nat.mod_eq_of_lt (by omega)]
    omega
  · rw [gap, h, Nat.mod_self, Nat.sub_zero, Nat.mod_self]
    omega

theorem gap_of_gt {b len : Nat} (hb : b < n) (hlen : len < n) (h : n < b + 1 + len) :
    gap n b len = (n - (b + 1)) + (n - len) := by
  have hsub : (b + 1 + len - n) % n = b + 1 + len - n := Nat.mod_eq_of_lt (by omega)
  rw [gap, Nat.mod_eq_sub_mod h.le, hsub, Nat.mod_eq_of_lt (by omega)]
  omega

theorem gap_mod (k len : Nat) : gap n (k % n) len = gap n k len := by
  rw [gap, gap, Nat.add_assoc, Nat.add_assoc, Nat.mod_add_mod]

theorem absorb_end (zero mark : α) (hc : c.2.length < n) (hpos : 0 < len.length)
    (hlen : len.length < n) :
    absorb n compress c (mark :: (List.replicate (gap n c.2.length len.length) zero ++ len)) =
      (finish n compress zero mark c len, []) := by
  obtain ⟨h, buf⟩ := c
  dsimp only at hc
  unfold finish
  dsimp only
  rw [List.length_append, List.length_singleton]
  split
  next htwo =>
    have hfirst : buf.length + (mark :: List.replicate (n - (buf.length + 1)) zero).length = n := by
      rw [List.length_cons, List.length_replicate]
      omega
    have hsecond : ([] : List α).length + (List.replicate (n - len.length) zero ++ len).length =
        n := by
      rw [List.length_nil, List.length_append, List.length_replicate]
      omega
    rw [gap_of_gt hc hlen (by omega), List.replicate_add, List.append_assoc, ← List.cons_append,
      absorb_append, absorb_full hc hfirst, absorb_full (by rw [List.length_nil]; omega) hsecond]
    simp [fillTo]
  next hone =>
    have hlast : buf.length + (mark :: (List.replicate (n - len.length - (buf.length + 1)) zero ++
        len)).length = n := by
      rw [List.length_cons, List.length_append, List.length_replicate]
      omega
    rw [gap_of_le (by omega), absorb_full hc hlast]
    simp [fillTo]

theorem length_padded {msg len : List α} (hn : 0 < n) :
    ∃ m, (padded n zero mark msg len).length = m * n := by
  have hmod : (padded n zero mark msg len).length % n = 0 := by
    have hadd : (padded n zero mark msg len).length =
        (msg.length + 1 + len.length) + gap n msg.length len.length := by
      rw [padded, List.length_append, List.length_cons, List.length_append, List.length_replicate]
      omega
    have hdiv := Nat.div_add_mod (msg.length + 1 + len.length) n
    have hlt := Nat.mod_lt (msg.length + 1 + len.length) hn
    have hround : msg.length + 1 + len.length + (n - (msg.length + 1 + len.length) % n) =
        n * ((msg.length + 1 + len.length) / n) + n := by
      omega
    rw [hadd, gap, Nat.add_mod_mod, hround, Nat.mul_add_mod, Nat.mod_self]
  exact ⟨_, (Nat.div_mul_cancel (Nat.dvd_of_mod_eq_zero hmod)).symm⟩

theorem finish_absorb {k : Nat} {msg len : List α} (hpos : 0 < len.length)
    (hlen : len.length < k + 1) :
    finish (k + 1) compress zero mark (absorb (k + 1) compress (h, []) msg) len =
      (chunks k (padded (k + 1) zero mark msg len)).foldl compress h := by
  have hbuf : (absorb (k + 1) compress (h, []) msg).2.length = msg.length % (k + 1) := by
    rw [length_absorb (Nat.succ_pos k), List.length_nil, Nat.zero_add]
  have hlt : (absorb (k + 1) compress (h, []) msg).2.length < k + 1 := by
    rw [hbuf]
    exact Nat.mod_lt _ (Nat.succ_pos k)
  have hend : absorb (k + 1) compress _ _ = _ := absorb_end zero mark hlt hpos hlen
  rw [hbuf, gap_mod, ← absorb_append] at hend
  obtain ⟨m, hm⟩ : ∃ m, (padded (k + 1) zero mark msg len).length = m * (k + 1) :=
    length_padded (Nat.succ_pos k)
  have hblocks : absorb (k + 1) compress (h, []) (padded (k + 1) zero mark msg len) =
      ((chunks k (padded (k + 1) zero mark msg len)).foldl compress h, []) := absorb_chunks hm
  exact congrArg Prod.fst (hend.symm.trans hblocks)

end Absorb
