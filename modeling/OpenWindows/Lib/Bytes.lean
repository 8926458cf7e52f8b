import Mathlib.Data.List.Basic
import Mathlib.Tactic.Ring

/-!
# Numbers as bytes, and chunks

A list of bytes read as a number, lowest byte first, a number written as a
given count of bytes, and a list cut into chunks of one length, of which the
last may be shorter.  Numbers of 16, 32 and 64 bits in network order, highest byte
first, and their reading from the front of a list, where a byte that is missing reads
as zero.
-/

namespace Bytes

/-! ## Numbers -/

/-- The number of a list of bytes. -/
def leNum : List UInt8 → Nat
  | [] => 0
  | b :: bs => b.toNat + 256 * leNum bs

/-- The lowest `n` bytes of a number. -/
def leBytes : Nat → Nat → List UInt8
  | 0, _ => []
  | n + 1, x => UInt8.ofNat x :: leBytes n (x / 256)

@[simp] theorem leNum_nil : leNum [] = 0 := rfl

theorem leNum_append (as bs : List UInt8) :
    leNum (as ++ bs) = leNum as + 256 ^ as.length * leNum bs := by
  induction as with
  | nil => simp
  | cons a as ih =>
    simp only [List.cons_append, leNum, ih, List.length_cons]
    ring

theorem leNum_lt (bs : List UInt8) : leNum bs < 256 ^ bs.length := by
  induction bs with
  | nil => simp
  | cons b bs ih =>
    have hb := b.toNat_lt
    simp only [leNum, List.length_cons, Nat.pow_succ]
    omega

@[simp] theorem leNum_replicate_zero (n : Nat) : leNum (List.replicate n 0) = 0 := by
  induction n with
  | zero => rfl
  | succ n ih => simp [List.replicate_succ, leNum, ih]

/-- Reading one byte more, zero when there is none. -/
theorem leNum_take_succ (bs : List UInt8) (n : Nat) :
    leNum (bs.take (n + 1)) = leNum (bs.take n) + (bs.getD n 0).toNat * 256 ^ n := by
  induction bs generalizing n with
  | nil => simp
  | cons b bs ih =>
    cases n with
    | zero => simp [leNum]
    | succ n =>
      simp only [List.take_succ_cons, leNum, ih, List.getD_cons_succ]
      ring

theorem leNum_split (bs : List UInt8) (n : Nat) :
    leNum bs = leNum (bs.take n) + 256 ^ n * leNum (bs.drop n) := by
  rcases Nat.le_total n bs.length with h | h
  · conv_lhs => rw [← List.take_append_drop n bs]
    rw [leNum_append, List.length_take, Nat.min_eq_left h]
  · rw [List.take_of_length_le h, List.drop_eq_nil_of_le h]
    simp

theorem leNum_take_lt (bs : List UInt8) (n : Nat) : leNum (bs.take n) < 256 ^ n := by
  refine Nat.lt_of_lt_of_le (leNum_lt _) (Nat.pow_le_pow_right (by decide) ?_)
  rw [List.length_take]
  exact Nat.min_le_left ..

theorem leNum_take (bs : List UInt8) (n : Nat) : leNum (bs.take n) = leNum bs % 256 ^ n := by
  rw [leNum_split bs n, Nat.add_mul_mod_self_left, Nat.mod_eq_of_lt (leNum_take_lt bs n)]

theorem leNum_drop (bs : List UInt8) (n : Nat) : leNum (bs.drop n) = leNum bs / 256 ^ n := by
  rw [leNum_split bs n, Nat.add_mul_div_left _ _ (Nat.pow_pos (by decide)),
    Nat.div_eq_of_lt (leNum_take_lt bs n), Nat.zero_add]

theorem leNum_take_add (bs : List UInt8) (m n : Nat) :
    leNum (bs.take (m + n)) = leNum (bs.take m) + 256 ^ m * leNum ((bs.drop m).take n) := by
  rw [leNum_split (bs.take (m + n)) m, List.take_take, Nat.min_eq_left (Nat.le_add_right m n),
    List.drop_take, Nat.add_sub_cancel_left]

theorem leBytes_add (m n x : Nat) :
    leBytes (m + n) x = leBytes m x ++ leBytes n (x / 256 ^ m) := by
  induction m generalizing x with
  | zero => simp [leBytes]
  | succ m ih =>
    rw [Nat.succ_add, leBytes, leBytes, ih, List.cons_append, Nat.div_div_eq_div_mul,
      Nat.pow_succ']

theorem leBytes_mod (n x : Nat) : leBytes n (x % 256 ^ n) = leBytes n x := by
  induction n generalizing x with
  | zero => rfl
  | succ n ih =>
    have hlow : UInt8.ofNat (x % 256 ^ (n + 1)) = UInt8.ofNat x := by
      apply UInt8.toNat_inj.mp
      rw [UInt8.toNat_ofNat', UInt8.toNat_ofNat']
      exact Nat.mod_mod_of_dvd x (Dvd.intro _ Nat.pow_succ'.symm)
    have hhigh : x % 256 ^ (n + 1) / 256 = x / 256 % 256 ^ n := by
      rw [Nat.pow_succ', Nat.mod_mul_right_div_self]
    rw [leBytes, leBytes, hlow, hhigh, ih]

theorem leBytes_inj {n x y : Nat} (h : leBytes n x = leBytes n y) :
    x % 256 ^ n = y % 256 ^ n := by
  induction n generalizing x y with
  | zero => simp [Nat.mod_one]
  | succ n ih =>
    simp only [leBytes, List.cons.injEq] at h
    obtain ⟨hlow, hhigh⟩ := h
    have hmod : x % 256 = y % 256 := by
      have hlow := congrArg UInt8.toNat hlow
      simpa using hlow
    rw [Nat.pow_succ', Nat.mod_mul, Nat.mod_mul, hmod, ih hhigh]

theorem leBytes_leNum (bs : List UInt8) : leBytes bs.length (leNum bs) = bs := by
  induction bs with
  | nil => rfl
  | cons b bs ih =>
    have hb := b.toNat_lt
    have hlow : UInt8.ofNat (b.toNat + 256 * leNum bs) = b := by
      apply UInt8.toNat_inj.mp
      rw [UInt8.toNat_ofNat', Nat.add_mul_mod_self_left]
      exact Nat.mod_eq_of_lt hb
    have hhigh : (b.toNat + 256 * leNum bs) / 256 = leNum bs := by omega
    rw [leNum, List.length_cons, leBytes, hlow, hhigh, ih]

theorem leNum_inj {as bs : List UInt8} (hlen : as.length = bs.length) (h : leNum as = leNum bs) :
    as = bs := by
  rw [← leBytes_leNum as, ← leBytes_leNum bs, hlen, h]

/-! ## Chunks -/

section Chunks

variable {α : Type*}

/-- A list in chunks of `k + 1`. -/
def chunks (k : Nat) (l : List α) : List (List α) :=
  if l = [] then [] else l.take (k + 1) :: chunks k (l.drop (k + 1))
termination_by l.length
decreasing_by
  rename_i h
  have := List.length_pos_iff.mpr h
  rw [List.length_drop]
  omega

theorem chunks_nil (k : Nat) : chunks k ([] : List α) = [] := by
  rw [chunks, if_pos rfl]

theorem chunks_flatten {k : Nat} {full : List (List α)} (hfull : ∀ b ∈ full, b.length = k + 1)
    {rest : List α} (hrest : rest.length < k + 1) :
    chunks k (full.flatten ++ rest) = full ++ if rest = [] then [] else [rest] := by
  induction full with
  | nil =>
    rw [List.flatten_nil, List.nil_append, List.nil_append]
    by_cases h : rest = []
    · rw [h, chunks_nil, if_pos rfl]
    · rw [chunks, if_neg h, if_neg h, List.take_of_length_le (by omega),
        List.drop_eq_nil_of_le (by omega), chunks_nil]
  | cons b full ih =>
    obtain ⟨hb, hfull⟩ := List.forall_mem_cons.mp hfull
    rw [chunks, if_neg, List.flatten_cons, List.append_assoc, List.take_left' hb,
      List.drop_left' hb, ih hfull, List.cons_append]
    intro hnil
    have hlen := congrArg List.length hnil
    simp [hb] at hlen

theorem length_le_of_mem_chunks {k : Nat} {l b : List α} (h : b ∈ chunks k l) :
    b.length ≤ k + 1 := by
  induction hn : l.length using Nat.strongRecOn generalizing l with
  | _ n ih =>
    rw [chunks] at h
    split at h
    · cases h
    next hne =>
      have hpos := List.length_pos_iff.mpr hne
      rcases List.mem_cons.mp h with rfl | h
      · exact List.length_take_le _ _
      · exact ih _ (by rw [List.length_drop]; omega) h rfl

end Chunks

end Bytes

namespace Words

/-! ## Writing -/

def put16 (v : UInt16) : List UInt8 := [(v >>> 8).toUInt8, v.toUInt8]

def put32 (v : UInt32) : List UInt8 :=
  [(v >>> 24).toUInt8, (v >>> 16).toUInt8, (v >>> 8).toUInt8, v.toUInt8]

/-- The high half, then the low half. -/
def put64 (v : UInt64) : List UInt8 := put32 (v >>> 32).toUInt32 ++ put32 v.toUInt32

@[simp] theorem length_put16 (v : UInt16) : (put16 v).length = 2 := rfl

@[simp] theorem length_put32 (v : UInt32) : (put32 v).length = 4 := rfl

@[simp] theorem length_put64 (v : UInt64) : (put64 v).length = 8 := rfl

/-! ## Reading -/

def get16 (p : List UInt8) : UInt16 := ((p.getD 0 0).toUInt16 <<< 8) ||| (p.getD 1 0).toUInt16

def get32 (p : List UInt8) : UInt32 :=
  ((p.getD 0 0).toUInt32 <<< 24) ||| ((p.getD 1 0).toUInt32 <<< 16)
    ||| ((p.getD 2 0).toUInt32 <<< 8) ||| (p.getD 3 0).toUInt32

def get64 (p : List UInt8) : UInt64 :=
  ((get32 p).toUInt64 <<< 32) ||| (get32 (p.drop 4)).toUInt64

/-! ## Reading back

Each bit of the number stands in one of the bytes. -/

theorem setWidth_halves16 (v : BitVec 16) :
    ((v >>> 8).setWidth 8).setWidth 16 <<< 8 ||| (v.setWidth 8).setWidth 16 = v := by
  ext i hi
  simp only [BitVec.getElem_or, BitVec.getElem_shiftLeft, BitVec.getElem_setWidth,
    BitVec.getLsbD_setWidth, BitVec.getLsbD_ushiftRight]
  by_cases h : i < 8
  · simp [h, BitVec.getLsbD_eq_getElem hi]
  · have hlow : i - 8 < 8 := by omega
    have hback : 8 + (i - 8) = i := by omega
    simp [h, hlow, hback, BitVec.getLsbD_eq_getElem hi]

theorem setWidth_bytes32 (v : BitVec 32) :
    ((v >>> 24).setWidth 8).setWidth 32 <<< 24 ||| ((v >>> 16).setWidth 8).setWidth 32 <<< 16
      ||| ((v >>> 8).setWidth 8).setWidth 32 <<< 8 ||| (v.setWidth 8).setWidth 32 = v := by
  ext i hi
  simp only [BitVec.getElem_or, BitVec.getElem_shiftLeft, BitVec.getElem_setWidth,
    BitVec.getLsbD_setWidth, BitVec.getLsbD_ushiftRight]
  rcases (show i < 8 ∨ (8 ≤ i ∧ i < 16) ∨ (16 ≤ i ∧ i < 24) ∨ 24 ≤ i by omega) with h | h | h | h
  · simp [h, show i < 24 by omega, show i < 16 by omega, BitVec.getLsbD_eq_getElem hi]
  · simp [h, show i < 24 by omega, show ¬ i < 8 by omega, show i - 8 < 8 by omega,
      show 8 + (i - 8) = i by omega, BitVec.getLsbD_eq_getElem hi]
  · simp [h, show ¬ i < 16 by omega, show ¬ i < 8 by omega, show ¬ i - 8 < 8 by omega,
      show i - 16 < 8 by omega, show 16 + (i - 16) = i by omega, BitVec.getLsbD_eq_getElem hi]
  · simp [show ¬ i < 24 by omega, show ¬ i < 16 by omega, show ¬ i < 8 by omega,
      show ¬ i - 8 < 8 by omega, show ¬ i - 16 < 8 by omega, show i - 24 < 8 by omega,
      show 24 + (i - 24) = i by omega, BitVec.getLsbD_eq_getElem hi]

theorem setWidth_halves64 (v : BitVec 64) :
    ((v >>> 32).setWidth 32).setWidth 64 <<< 32 ||| (v.setWidth 32).setWidth 64 = v := by
  ext i hi
  simp only [BitVec.getElem_or, BitVec.getElem_shiftLeft, BitVec.getElem_setWidth,
    BitVec.getLsbD_setWidth, BitVec.getLsbD_ushiftRight]
  by_cases h : i < 32
  · simp [h, BitVec.getLsbD_eq_getElem hi]
  · have hlow : i - 32 < 32 := by omega
    have hback : 32 + (i - 32) = i := by omega
    simp [h, hlow, hback, BitVec.getLsbD_eq_getElem hi]

@[simp] theorem get16_put16 (v : UInt16) (rest : List UInt8) : get16 (put16 v ++ rest) = v := by
  apply UInt16.toBitVec_inj.mp
  exact setWidth_halves16 v.toBitVec

@[simp] theorem get32_put32 (v : UInt32) (rest : List UInt8) : get32 (put32 v ++ rest) = v := by
  apply UInt32.toBitVec_inj.mp
  exact setWidth_bytes32 v.toBitVec

@[simp] theorem get64_put64 (v : UInt64) (rest : List UInt8) : get64 (put64 v ++ rest) = v := by
  have hhigh : get32 (put64 v ++ rest) = (v >>> 32).toUInt32 := by
    rw [put64, List.append_assoc, get32_put32]
  have hlow : get32 ((put64 v ++ rest).drop 4) = v.toUInt32 := by
    rw [put64, List.append_assoc, List.drop_left' (length_put32 _), get32_put32]
  apply UInt64.toBitVec_inj.mp
  rw [get64, hhigh, hlow]
  exact setWidth_halves64 v.toBitVec

end Words
