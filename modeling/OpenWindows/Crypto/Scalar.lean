import OpenWindows.Crypto.ChaCha20
import OpenWindows.Lib.Division
import OpenWindows.Lib.StepSystem

/-!
# Scalars of Ed25519

Arithmetic modulo the group order on little-endian bytes.  `owc_sc_reduce` divides
64 bytes by testing bits and subtracting shifted copies of the order; what is left
in the low half is then brought below the order by plain subtractions.
-/

namespace Crypto

open Bytes StepSystem

/-! ## The functions -/

/-- `owc_sc_L`. -/
def scL : List UInt8 :=
  [0xED, 0xD3, 0xF5, 0x5C, 0x1A, 0x63, 0x12, 0x58,
   0xD6, 0x9C, 0xF7, 0xA2, 0xDE, 0xF9, 0xDE, 0x14,
   0x00, 0x00, 0x00, 0x00, 0x00, 0x00, 0x00, 0x00,
   0x00, 0x00, 0x00, 0x00, 0x00, 0x00, 0x00, 0x10]

/-- `owc_sc_getbit`. -/
def scGetbit (s : List UInt8) (bit : Nat) : Bool :=
  (byteAt s (bit / 8) >>> UInt8.ofNat (bit % 8)) &&& 1 == 1

/-- The loop of `owc_sc_sub_bytes`, with the borrow into it and out of it. -/
def scSubLoop : List UInt8 → List UInt8 → Nat → List UInt8 × Nat
  | a :: as, b :: bs, borrow =>
    let bi := b.toNat + borrow
    let (a', borrow') :=
      if a.toNat < bi then (UInt8.ofNat (a.toNat + 256 - bi), 1)
      else (UInt8.ofNat (a.toNat - bi), 0)
    let (rest, out) := scSubLoop as bs borrow'
    (a' :: rest, out)
  | as, _, borrow => (as, borrow)

/-- `owc_sc_sub_bytes`. -/
def scSubBytes (a b : List UInt8) : List UInt8 × Nat := scSubLoop a b 0

/-- The bytes of `owc_sc_subshift` from the byte offset on: `l` shifted by fewer than
eight bits, and the carry out of the last byte. -/
def scShiftBytes (bitOff : Nat) : List UInt8 → Nat → List UInt8
  | [], carry => [UInt8.ofNat carry]
  | b :: bs, carry =>
    let out := (b.toNat <<< bitOff) ||| carry
    UInt8.ofNat out :: scShiftBytes bitOff bs (out >>> 8)

/-- The array `t` of `owc_sc_subshift`.  What lies behind 64 bytes is not written. -/
def scShifted (l : List UInt8) (bits : Nat) : List UInt8 :=
  (List.replicate (bits / 8) 0 ++ (scShiftBytes (bits % 8) l 0 ++ List.replicate 64 0)).take 64

/-- `owc_sc_subshift`. -/
def scSubshift (a l : List UInt8) (bits : Nat) : List UInt8 := (scSubBytes a (scShifted l bits)).1

/-- `owc_sc_leb_ge` on the lowest `n` bytes. -/
def scLebGeFrom (a b : List UInt8) : Nat → Bool
  | 0 => true
  | i + 1 => if byteAt a i ≠ byteAt b i then byteAt a i > byteAt b i else scLebGeFrom a b i

/-- `owc_sc_leb_ge`. -/
def scLebGe (a b : List UInt8) : Bool := scLebGeFrom a b 32

/-- The `for` loop of `owc_sc_reduce`, for the turns below `n`. -/
def scSweep : Nat → List UInt8 → List UInt8
  | 0, s => s
  | n + 1, s => scSweep n (if scGetbit s (252 + n) then scSubshift s scL n else s)

/-- One turn of the `while` loop of `owc_sc_reduce`. -/
def scTurn (s : List UInt8) : List UInt8 ⊕ List UInt8 :=
  if scLebGe s scL then .inl (scSubBytes s (scL ++ List.replicate 32 0)).1 else .inr s

/-- `owc_sc_reduce`.  The `while` loop makes fewer than sixteen turns. -/
def scReduce (s : List UInt8) : List UInt8 := (runFor scTurn 16 (scSweep 260 s)).elim id id

/-- The eight words of a scalar. -/
def scWords (a : List UInt8) : List Nat := (List.range 8).map fun i => (get32le (a.drop (4 * i))).toNat

/-- The inner loop of `owc_sc_mulmod`, for the words below `n`. -/
def scAccRow (i : Nat) (x : Nat) (bl : List Nat) : Nat → List Nat → List Nat
  | 0, acc => acc
  | j + 1, acc =>
    let acc := scAccRow i x bl j acc
    acc.set (i + j) (acc.getD (i + j) 0 + x * bl.getD j 0)

/-- The outer loop of `owc_sc_mulmod`, for the words below `n`.  A slot holds at most
eight products, so the accumulators do not overflow. -/
def scAcc (al bl : List Nat) : Nat → List Nat
  | 0 => List.replicate 32 0
  | i + 1 => scAccRow i (al.getD i 0) bl 8 (scAcc al bl i)

/-- The carries of `owc_sc_mulmod`. -/
def scCarry : List Nat → Nat → List UInt8
  | [], _ => []
  | v :: vs, carry => put32le (UInt32.ofNat (v + carry)) ++ scCarry vs ((v + carry) >>> 32)

/-- The product of `owc_sc_mulmod` before it is reduced.  The turns of the last loop
from 16 on write nothing. -/
def scProduct (a b : List UInt8) : List UInt8 :=
  scCarry ((scAcc (scWords a) (scWords b) 8).take 16) 0

/-- `owc_sc_mulmod`. -/
def scMulmod (a b : List UInt8) : List UInt8 := (scReduce (scProduct a b)).take 32

/-- `owc_sc_reduce32`. -/
def scReduce32 (s : List UInt8) : List UInt8 :=
  (scReduce (s.take 32 ++ List.replicate 32 0)).take 32

/-! ## What `owc_sc_reduce` computes

The bytes are read as numbers.  The `for` loop is a sweep of tested bits with the
group order as the modulus, in words of 512 bits.  It gives the remainder exactly
for the numbers that meet no gap; for all others something is left above the low
half.
-/

section

open Bytes StepSystem Division

def groupOrder : Nat := 2 ^ 252 + 27742317777372353535851937790883648493

theorem leNum_scL : leNum scL = groupOrder := by decide

/-! ### Bytes as numbers -/

theorem byteBit_eq (b : UInt8) {k : Nat} (hk : k < 8) :
    ((b >>> UInt8.ofNat k) &&& 1 == 1) = b.toNat.testBit k := by
  have hshift : (UInt8.ofNat k).toNat % 8 = k := by
    rw [UInt8.toNat_ofNat']
    omega
  have hmask : ((b >>> UInt8.ofNat k) &&& 1).toNat = b.toNat / 2 ^ k % 2 := by
    rw [UInt8.toNat_and, UInt8.toNat_shiftRight, hshift, Nat.shiftRight_eq_div_pow]
    exact Nat.and_one_is_mod _
  rw [Nat.testBit_eq_decide_div_mod_eq, ← hmask, Bool.eq_iff_iff, beq_iff_eq, decide_eq_true_iff]
  exact UInt8.toNat_inj.symm

theorem scGetbit_eq (s : List UInt8) (bit : Nat) : scGetbit s bit = (leNum s).testBit bit := by
  rw [scGetbit, byteBit_eq _ (Nat.mod_lt bit (by decide))]
  induction s generalizing bit with
  | nil => simp [byteAt]
  | cons b bs ih =>
    have hb : b.toNat < 2 ^ 8 := b.toNat_lt
    have hnum : leNum (b :: bs) = 2 ^ 8 * leNum bs + b.toNat := by
      rw [leNum]
      omega
    rw [hnum, Nat.testBit_two_pow_mul_add _ hb]
    split
    next hlow =>
      have hzero : bit / 8 = 0 := by omega
      have hmod : bit % 8 = bit := by omega
      rw [hzero, hmod]
      rfl
    next hhigh =>
      have hsucc : bit / 8 = (bit - 8) / 8 + 1 := by omega
      have hmod : bit % 8 = (bit - 8) % 8 := by omega
      rw [hsucc, hmod, ← ih]
      rfl

theorem scSubLoop_spec {a b : List UInt8} (hlen : a.length = b.length) {borrow : Nat}
    (hborrow : borrow ≤ 1) :
    (scSubLoop a b borrow).1.length = a.length ∧
      leNum a + 256 ^ a.length * (scSubLoop a b borrow).2 =
        leNum (scSubLoop a b borrow).1 + leNum b + borrow := by
  induction a generalizing b borrow with
  | nil =>
    cases b with
    | nil => simp [scSubLoop]
    | cons b bs => cases hlen
  | cons a as ih =>
    cases b with
    | nil => cases hlen
    | cons b bs =>
      have hlen' : as.length = bs.length := Nat.succ.inj hlen
      have ha : a.toNat < 256 := a.toNat_lt
      have hb : b.toNat < 256 := b.toNat_lt
      simp only [scSubLoop]
      split
      next hlt =>
        obtain ⟨hrest, heq⟩ := ih hlen' (Nat.le_refl 1)
        have hbyte : (UInt8.ofNat (a.toNat + 256 - (b.toNat + borrow))).toNat =
            a.toNat + 256 - (b.toNat + borrow) := by
          rw [UInt8.toNat_ofNat']
          exact Nat.mod_eq_of_lt (by omega)
        refine ⟨by simp [hrest], ?_⟩
        simp only [leNum, List.length_cons, Nat.pow_succ, hbyte]
        rw [Nat.mul_comm (256 ^ as.length) 256, Nat.mul_assoc]
        omega
      next hge =>
        obtain ⟨hrest, heq⟩ := ih hlen' (Nat.zero_le 1)
        have hbyte : (UInt8.ofNat (a.toNat - (b.toNat + borrow))).toNat =
            a.toNat - (b.toNat + borrow) := by
          rw [UInt8.toNat_ofNat']
          exact Nat.mod_eq_of_lt (by omega)
        refine ⟨by simp [hrest], ?_⟩
        simp only [leNum, List.length_cons, Nat.pow_succ, hbyte]
        rw [Nat.mul_comm (256 ^ as.length) 256, Nat.mul_assoc]
        omega

theorem pow_256_64 : 256 ^ 64 = 2 ^ 512 := by
  have hexp : 8 * 64 = 512 := rfl
  rw [← hexp, Nat.pow_mul]

variable {s : List UInt8}

theorem leNum_lt_of_length (h : s.length = 64) : leNum s < 2 ^ 512 := by
  have hlt := leNum_lt s
  rwa [h, pow_256_64] at hlt

theorem scSubBytes_spec {a b : List UInt8} (ha : a.length = 64) (hb : b.length = 64) :
    (scSubBytes a b).1.length = 64 ∧
      leNum (scSubBytes a b).1 = (leNum a + (2 ^ 512 - leNum b)) % 2 ^ 512 := by
  obtain ⟨hlen, heq⟩ := scSubLoop_spec (ha.trans hb.symm) (Nat.zero_le 1)
  have hlen' : (scSubBytes a b).1.length = 64 := hlen.trans ha
  refine ⟨hlen', ?_⟩
  have hout := leNum_lt_of_length hlen'
  have hbn := leNum_lt_of_length hb
  have han := leNum_lt_of_length ha
  rw [ha, pow_256_64] at heq
  change leNum a + 2 ^ 512 * (scSubBytes a b).2 = leNum (scSubBytes a b).1 + leNum b + 0 at heq
  generalize (scSubBytes a b).2 = borrow at heq
  rcases Nat.lt_or_ge (leNum a) (leNum b) with hlt | hge
  · have hone : borrow = 1 := by omega
    rw [hone] at heq
    rw [Nat.mod_eq_of_lt (by omega)]
    omega
  · have hzero : borrow = 0 := by omega
    rw [hzero] at heq
    rw [sub_step han hge]
    omega

theorem scShiftBytes_spec {bitOff : Nat} (l : List UInt8) {carry : Nat} (hbits : bitOff < 8)
    (hcarry : carry < 2 ^ bitOff) :
    leNum (scShiftBytes bitOff l carry) = leNum l * 2 ^ bitOff + carry := by
  have hpow : 2 ^ bitOff ≤ 2 ^ 7 := Nat.pow_le_pow_right (by decide) (by omega)
  induction l generalizing carry with
  | nil =>
    have hbyte : (UInt8.ofNat carry).toNat = carry := by
      rw [UInt8.toNat_ofNat']
      exact Nat.mod_eq_of_lt (by omega)
    simp [scShiftBytes, leNum, hbyte]
  | cons b bs ih =>
    have hb : b.toNat < 256 := b.toNat_lt
    have hout : (b.toNat <<< bitOff) ||| carry = b.toNat * 2 ^ bitOff + carry := by
      rw [← Nat.shiftLeft_add_eq_or_of_lt hcarry, Nat.shiftLeft_eq]
    have hmul : b.toNat * 2 ^ bitOff ≤ 255 * 2 ^ bitOff := Nat.mul_le_mul_right _ (by omega)
    have hnext : (b.toNat * 2 ^ bitOff + carry) / 256 < 2 ^ bitOff := by
      rw [Nat.div_lt_iff_lt_mul (by decide)]
      omega
    have hsplit := Nat.div_add_mod (b.toNat * 2 ^ bitOff + carry) 256
    simp only [scShiftBytes, leNum, hout, Nat.shiftRight_eq_div_pow, UInt8.toNat_ofNat']
    rw [show (2 : Nat) ^ 8 = 256 from rfl, ih hnext, Nat.add_mul, Nat.mul_assoc]
    omega

theorem length_scShiftBytes (bitOff : Nat) (l : List UInt8) (carry : Nat) :
    (scShiftBytes bitOff l carry).length = l.length + 1 := by
  induction l generalizing carry with
  | nil => rfl
  | cons b bs ih => simp [scShiftBytes, ih]

theorem scShifted_spec (l : List UInt8) (bits : Nat) :
    (scShifted l bits).length = 64 ∧ leNum (scShifted l bits) = leNum l * 2 ^ bits % 2 ^ 512 := by
  constructor
  · simp [scShifted, length_scShiftBytes]
    omega
  · have hbits : 2 ^ bits = 256 ^ (bits / 8) * 2 ^ (bits % 8) := by
      rw [show (256 : Nat) = 2 ^ 8 from rfl, ← Nat.pow_mul, ← Nat.pow_add, Nat.div_add_mod]
    rw [scShifted, leNum_take, leNum_append, leNum_append, leNum_replicate_zero, leNum_replicate_zero,
      List.length_replicate, pow_256_64, scShiftBytes_spec l (Nat.mod_lt bits (by decide))
        (Nat.two_pow_pos _), hbits, Nat.zero_add, Nat.mul_zero, Nat.add_zero,
      Nat.mul_left_comm]

/-! ### The sweep -/

theorem groupOrder_mul_lt {n : Nat} (hn : n < 260) : groupOrder * 2 ^ n < 2 ^ 512 := by
  have hpow : 2 ^ (253 + n) ≤ 2 ^ 512 := by
    apply Nat.pow_le_pow_right
    · decide
    · omega
  have horder : groupOrder < 2 ^ 253 := by decide
  calc groupOrder * 2 ^ n < 2 ^ 253 * 2 ^ n := Nat.mul_lt_mul_of_pos_right horder (Nat.two_pow_pos n)
    _ = 2 ^ (253 + n) := (Nat.pow_add ..).symm
    _ ≤ 2 ^ 512 := hpow

theorem scSweep_spec {n : Nat} (hn : n ≤ 260) (hs : s.length = 64) :
    (scSweep n s).length = 64 ∧ leNum (scSweep n s) = sweep groupOrder 252 512 n (leNum s) := by
  induction n generalizing s with
  | zero => exact ⟨hs, rfl⟩
  | succ n ih =>
    rw [scSweep, sweep, scGetbit_eq]
    split
    · obtain ⟨htlen, ht⟩ := scShifted_spec scL n
      obtain ⟨hlen, hval⟩ := scSubBytes_spec hs htlen
      rw [ht, leNum_scL, Nat.mod_eq_of_lt (groupOrder_mul_lt (by omega))] at hval
      rw [← hval]
      exact ih (by omega) hlen
    · exact ih (by omega) hs

/-! ### The last loop -/

theorem scLebGeFrom_iff (a b : List UInt8) (n : Nat) :
    scLebGeFrom a b n = true ↔ leNum (b.take n) ≤ leNum (a.take n) := by
  induction n with
  | zero => simp [scLebGeFrom]
  | succ n ih =>
    have ha : leNum (a.take n) < 256 ^ n := by
      rw [leNum_take]
      exact Nat.mod_lt _ (Nat.pow_pos (by decide))
    have hb : leNum (b.take n) < 256 ^ n := by
      rw [leNum_take]
      exact Nat.mod_lt _ (Nat.pow_pos (by decide))
    rw [scLebGeFrom, leNum_take_succ, leNum_take_succ]
    change (if byteAt a n ≠ byteAt b n then _ else _) = true ↔
      leNum (b.take n) + (byteAt b n).toNat * 256 ^ n ≤ leNum (a.take n) + (byteAt a n).toNat * 256 ^ n
    split
    next hne =>
      have hne' : (byteAt a n).toNat ≠ (byteAt b n).toNat := fun h => hne (UInt8.toNat_inj.mp h)
      rw [decide_eq_true_iff, gt_iff_lt, UInt8.lt_iff_toNat_lt]
      rcases Nat.lt_or_gt_of_ne hne' with hlt | hgt
      · have hmul := Nat.mul_le_mul_right (256 ^ n) (Nat.succ_le_of_lt hlt)
        rw [Nat.succ_mul] at hmul
        omega
      · have hmul := Nat.mul_le_mul_right (256 ^ n) (Nat.succ_le_of_lt hgt)
        rw [Nat.succ_mul] at hmul
        omega
    next heq =>
      rw [not_not.mp heq, ih]
      omega

theorem scLebGe_iff (s : List UInt8) : scLebGe s scL = true ↔ groupOrder ≤ leNum s % 2 ^ 256 := by
  have hL : leNum (scL.take 32) = groupOrder := by decide
  have hpow : 256 ^ 32 = 2 ^ 256 := by decide
  rw [scLebGe, scLebGeFrom_iff, hL, leNum_take, hpow]

theorem order_spec : (scL ++ List.replicate 32 0).length = 64 ∧
    leNum (scL ++ List.replicate 32 0) = groupOrder := by decide

theorem scTurn_inl (hs : s.length = 64) (h : groupOrder ≤ leNum s % 2 ^ 256) :
    ∃ t, scTurn s = .inl t ∧ t.length = 64 ∧ leNum t = leNum s - groupOrder := by
  refine ⟨_, if_pos ((scLebGe_iff s).mpr h), ?_⟩
  obtain ⟨hlen, hval⟩ := scSubBytes_spec hs order_spec.1
  have hle : groupOrder ≤ leNum s := Nat.le_trans h (Nat.mod_le _ _)
  rw [order_spec.2, sub_step (leNum_lt_of_length hs) hle] at hval
  exact ⟨hlen, hval⟩

theorem scTurn_inr (h : ¬ groupOrder ≤ leNum s % 2 ^ 256) : scTurn s = .inr s :=
  if_neg fun hge => h ((scLebGe_iff s).mp hge)

theorem scTurn_halts {q : Nat} (hs : s.length = 64)
    (hq : leNum s % 2 ^ 256 / groupOrder = q) :
    ∃ r, Halts scTurn q s r ∧ r.length = 64 ∧
      leNum r = leNum s / 2 ^ 256 * 2 ^ 256 + leNum s % 2 ^ 256 % groupOrder := by
  have hpos : 0 < groupOrder := by decide
  induction q generalizing s with
  | zero =>
    have hlt : leNum s % 2 ^ 256 < groupOrder := by
      rcases Nat.div_eq_zero_iff.mp hq with hzero | hlt
      · omega
      · exact hlt
    refine ⟨s, ⟨s, .refl s, scTurn_inr (Nat.not_le.mpr hlt)⟩, hs, ?_⟩
    rw [Nat.mod_eq_of_lt hlt]
    omega
  | succ q ih =>
    have hge : groupOrder ≤ leNum s % 2 ^ 256 := by
      rcases Nat.lt_or_ge (leNum s % 2 ^ 256) groupOrder with hlt | hge
      · rw [Nat.div_eq_of_lt hlt] at hq
        omega
      · exact hge
    obtain ⟨t, ht, htlen, htval⟩ := scTurn_inl hs hge
    have hlow : leNum t % 2 ^ 256 = leNum s % 2 ^ 256 - groupOrder := by omega
    have hhigh : leNum t / 2 ^ 256 = leNum s / 2 ^ 256 := by omega
    have hq' : leNum t % 2 ^ 256 / groupOrder = q := by
      rw [Nat.div_eq_sub_div hpos hge] at hq
      rw [hlow]
      omega
    obtain ⟨r, hr, hrlen, hrval⟩ := ih htlen hq'
    refine ⟨r, ?_, hrlen, ?_⟩
    · rw [Nat.add_comm q 1]
      exact Halts.of_steps (.one ht) hr
    · rw [hrval, hhigh, hlow, Nat.mod_eq_sub_mod hge]

theorem scReduce_spec (hs : s.length = 64) :
    (∃ k, Halts scTurn k (scSweep 260 s) (scReduce s)) ∧ (scReduce s).length = 64 ∧
      leNum ((scReduce s).take 32) =
        sweep groupOrder 252 512 260 (leNum s) % 2 ^ 256 % groupOrder ∧
      leNum ((scReduce s).drop 32) = sweep groupOrder 252 512 260 (leNum s) / 2 ^ 256 := by
  obtain ⟨hlen, hval⟩ := scSweep_spec (Nat.le_refl 260) hs
  obtain ⟨r, hr, hrlen, hrval⟩ := scTurn_halts hlen rfl
  have horder : 2 ^ 252 < groupOrder ∧ groupOrder < 2 ^ 256 := by decide
  have hfew : leNum (scSweep 260 s) % 2 ^ 256 / groupOrder < 16 := by
    rw [Nat.div_lt_iff_lt_mul (by decide)]
    omega
  have hreduce : scReduce s = r := by
    rw [scReduce, runFor_eq_inr.mpr ⟨_, hfew, hr⟩]
    rfl
  have hpow : 256 ^ 32 = 2 ^ 256 := by decide
  have hlow : leNum (scSweep 260 s) % 2 ^ 256 % groupOrder < groupOrder := Nat.mod_lt _ (by decide)
  rw [hreduce, ← hval, leNum_take, leNum_drop, hrval, hpow]
  refine ⟨⟨_, hr⟩, hrlen, ?_, ?_⟩
  · omega
  · omega

/-! ### The gaps -/

/-- No remainder of the number lies between `2 ^ (252 + i)` and the order shifted by
`i`. -/
def Gapless (x : Nat) : Prop := Clear groupOrder 252 260 x

theorem groupOrder_ge : 2 ^ 252 ≤ groupOrder := by decide

theorem leNum_lt_sweep (hs : s.length = 64) : leNum s < 2 ^ (252 + 260) := by
  have hexp : 252 + 260 = 512 := rfl
  rw [hexp]
  exact leNum_lt_of_length hs

theorem length_scReduce_low (hs : s.length = 64) : ((scReduce s).take 32).length = 32 := by
  rw [List.length_take, (scReduce_spec hs).2.1]
  rfl

theorem scReduce_low_lt (hs : s.length = 64) : leNum ((scReduce s).take 32) < groupOrder := by
  rw [(scReduce_spec hs).2.2.1]
  exact Nat.mod_lt _ (by decide)

theorem scReduce_of_gapless (hs : s.length = 64) (h : Gapless (leNum s)) :
    leNum ((scReduce s).take 32) = leNum s % groupOrder ∧ leNum ((scReduce s).drop 32) = 0 := by
  obtain ⟨_, _, hlow, hhigh⟩ := scReduce_spec hs
  have hsweep := sweep_of_clear (w := 512) groupOrder_ge (by decide) (leNum_lt_sweep hs) h
  have horder : groupOrder < 2 ^ 256 := by decide
  have hlt : leNum s % groupOrder < groupOrder := Nat.mod_lt _ (by decide)
  rw [hlow, hhigh, hsweep, Nat.mod_eq_of_lt (Nat.lt_trans hlt horder), Nat.mod_mod]
  exact ⟨rfl, Nat.div_eq_of_lt (Nat.lt_trans hlt horder)⟩

theorem scReduce_of_gap (hs : s.length = 64) (h : ¬ Gapless (leNum s)) :
    leNum ((scReduce s).drop 32) ≠ 0 := by
  have hroom : ∀ i < 260, 2 ^ (252 + i) ≤ leNum s →
      2 ^ 256 + (2 * groupOrder - 2 ^ 252) * 2 ^ i ≤ 2 ^ 512 := by
    intro i hi _
    have hfactor : 1 + (2 * groupOrder - 2 ^ 252) ≤ 2 ^ 253 := by decide
    have hpow : 2 ^ i ≤ 2 ^ 259 := by
      apply Nat.pow_le_pow_right
      · decide
      · omega
    have hlow : 2 ^ 256 ≤ 2 ^ 259 := by
      apply Nat.pow_le_pow_right
      · decide
      · decide
    have hsplit : 2 ^ 512 = 2 ^ 253 * 2 ^ 259 := by rw [← Nat.pow_add]
    rw [hsplit]
    refine Nat.le_trans ?_ (Nat.mul_le_mul_right _ hfactor)
    rw [Nat.add_mul, Nat.one_mul]
    exact Nat.add_le_add hlow (Nat.mul_le_mul_left _ hpow)
  have hsweep := (sweep_of_gap groupOrder_ge (by decide) (leNum_lt_sweep hs) hroom h).1
  rw [(scReduce_spec hs).2.2.2]
  exact Nat.ne_of_gt (Nat.div_pos hsweep (Nat.two_pow_pos 256))

theorem scReduce_offset (hs : s.length = 64) (hx : leNum s < 2 ^ 505) :
    ∃ d, d ≤ 2 ^ 249 ∧ (d = 0 ↔ Gapless (leNum s)) ∧
      leNum ((scReduce s).take 32) = (leNum s + 2 ^ 256 * d) % groupOrder := by
  by_cases h : Gapless (leNum s)
  · refine ⟨0, Nat.zero_le _, ⟨fun _ => h, fun _ => rfl⟩, ?_⟩
    rw [(scReduce_of_gapless hs h).1, Nat.mul_zero, Nat.add_zero]
  · have hroom : ∀ i < 260, 2 ^ (252 + i) ≤ leNum s →
        2 ^ 512 - 2 ^ 505 + (2 * groupOrder - 2 ^ 252) * 2 ^ i ≤ 2 ^ 512 := by
      intro i _ hi
      have hbit : 252 + i < 505 := by
        by_contra hge
        have hpow : 2 ^ 505 ≤ 2 ^ (252 + i) := by
          apply Nat.pow_le_pow_right
          · decide
          · omega
        omega
      have hfactor : 2 * groupOrder - 2 ^ 252 ≤ 2 ^ 253 := by decide
      have hmul := Nat.mul_le_mul_right (2 ^ i) hfactor
      rw [← Nat.pow_add] at hmul
      have htop : 2 ^ (253 + i) ≤ 2 ^ 505 := by
        apply Nat.pow_le_pow_right
        · decide
        · omega
      have hwide : 2 ^ 505 ≤ 2 ^ 512 := by
        apply Nat.pow_le_pow_right
        · decide
        · decide
      omega
    obtain ⟨hge, hlt, hmod⟩ :=
      sweep_of_gap groupOrder_ge (by decide) (leNum_lt_sweep hs) hroom h
    have hsquare : 2 ^ 512 = 2 ^ 256 * 2 ^ 256 := by rw [← Nat.pow_add]
    have hpart : 2 ^ 505 = 2 ^ 256 * 2 ^ 249 := by rw [← Nat.pow_add]
    rw [hsquare] at hge hlt hmod
    rw [hpart] at hge
    rw [(scReduce_spec hs).2.2.1]
    generalize sweep groupOrder 252 512 260 (leNum s) = v at hge hlt hmod
    refine ⟨2 ^ 256 - v / 2 ^ 256, ?_, ⟨fun hzero => ?_, fun hclear => absurd hclear h⟩, ?_⟩
    · omega
    · omega
    · have hcancel : v % 2 ^ 256 + v / 2 ^ 256 * 2 ^ 256 ≡
          leNum s + 2 ^ 256 * (2 ^ 256 - v / 2 ^ 256) + v / 2 ^ 256 * 2 ^ 256 [MOD groupOrder] := by
        have hleft : v % 2 ^ 256 + v / 2 ^ 256 * 2 ^ 256 = v := by omega
        have hright : leNum s + 2 ^ 256 * (2 ^ 256 - v / 2 ^ 256) + v / 2 ^ 256 * 2 ^ 256 =
            leNum s + 2 ^ 256 * 2 ^ 256 := by omega
        rw [hleft, hright]
        exact hmod
      exact Nat.ModEq.add_right_cancel' _ hcancel

end

end Crypto
