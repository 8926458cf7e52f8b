import OpenWindows.Lib.StepSystem
import OpenWindows.Sentinel.Context

/-!
# State checksums

The entries of the checksum table name a region of memory, one of four algorithms
and the expected value.  `dc_fletcher32` reduces its sums in a loop that a sum of
exactly `0xFFFF` never leaves, so checking an entry may not end.
-/

namespace Sentinel

open Memory StepSystem

/-- One turn of `while (sum >= 0xFFFF) sum = (sum & 0xFFFF) + (sum >> 16)`. -/
def reduceStep (sum : Nat) : Nat ⊕ Nat :=
  if 0xFFFF ≤ sum then .inl ((sum &&& 0xFFFF) + (sum >>> 16)) else .inr sum

/-- The whole loop; `none` when it does not end. -/
def reduceSum (sum : Nat) : Option Nat :=
  match runFor reduceStep 4 sum with
  | .inr r => some r
  | .inl _ => none

/-- The turn of `dc_fletcher32` for one word. -/
def fletcherWord (sums : Nat × Nat) (word : Nat) : Option (Nat × Nat) := do
  let sum1 ← reduceSum (sums.1 + word)
  let sum2 ← reduceSum (sums.2 + sum1)
  return (sum1, sum2)

/-- The loop of `dc_fletcher32` over pairs of bytes and a last single one. -/
def fletcherLoop : List UInt8 → Nat × Nat → Option (Nat × Nat)
  | [], sums => some sums
  | [b], sums => fletcherWord sums b.toNat
  | b :: c :: rest, sums => do
      let sums ← fletcherWord sums (b.toNat + 256 * c.toNat)
      fletcherLoop rest sums

/-- `sum = (sum & 0xFFFF) + (sum >> 16)` -/
def foldSum (sum : Nat) : Nat := (sum &&& 0xFFFF) + (sum >>> 16)

/-- `dc_fletcher32` -/
def dcFletcher32 (data : List UInt8) : Option Nat := do
  let sums ← fletcherLoop data (0, 0)
  return foldSum (foldSum sums.2) * 2 ^ 16 % 2 ^ 32 ||| foldSum (foldSum sums.1)

/-- `dc_fletcher16`; its loops subtract `255`. -/
def dcFletcher16 (data : List UInt8) : Nat :=
  let sums := data.foldl
    (fun sums b =>
      let sum1 := (sums.1 + b.toNat) % 255
      (sum1, (sums.2 + sum1) % 255)) (0, 0)
  (sums.2 * 2 ^ 8 ||| sums.1) % 2 ^ 16

/-- `dc_xor16` -/
def dcXor16 : List UInt8 → Nat → Nat
  | [], result => result
  | [b], result => result ^^^ b.toNat
  | b :: c :: rest, result => dcXor16 rest (result ^^^ (b.toNat + 256 * c.toNat))

/-- `dc_compute_checksum` -/
def dcComputeChecksum (type : Nat) (data : List UInt8) : Option Nat :=
  if type = 0x01 then some (Crc.crc32c data)
  else if type = 0x02 then some (dcFletcher16 data)
  else if type = 0x03 then dcFletcher32 data
  else if type = 0x04 then some (dcXor16 data 0)
  else some 0

/-- `sentinel_checksum_entry_t` -/
structure ChecksumEntry where
  address : Nat
  size : Nat
  expectedValueLo : Nat
  expectedValueHi : Nat
  checksumType : Nat

def DcContext.checksumAt (ctx : DcContext) (index : Nat) : ChecksumEntry :=
  let base := ctx.header.checksumTableOffset + 24 * index
  { address := loadNum ctx.image base 8
    size := loadNum ctx.image (base + 8) 4
    expectedValueLo := loadNum ctx.image (base + 12) 2
    expectedValueHi := loadNum ctx.image (base + 14) 2
    checksumType := loadNum ctx.image (base + 16) 1 }

/-- `dc_validate_checksum`, over the memory the entries point to -/
def dcValidateChecksum (mem : Mem) (entry : ChecksumEntry) : Option Bool :=
  if entry.checksumType = 0x00 then some true
  else if entry.size = 0 then some true
  else
    (dcComputeChecksum entry.checksumType (load mem entry.address entry.size)).map fun computed =>
      computed == entry.expectedValueLo + entry.expectedValueHi * 2 ^ 16

/-! ## The loop that does not end -/

variable {sum : Nat}

theorem reduceStep_of_le (h : 0xFFFF ≤ sum) :
    reduceStep sum = .inl (sum % 65536 + sum / 65536) := by
  rw [reduceStep, if_pos h, show (0xFFFF : Nat) = 2 ^ 16 - 1 from rfl,
    Nat.and_two_pow_sub_one_eq_mod, Nat.shiftRight_eq_div_pow]

theorem reduceStep_of_lt (h : sum < 0xFFFF) : reduceStep sum = .inr sum :=
  if_neg (Nat.not_le_of_lt h)

/-- A sum of `0xFFFF` stays. -/
theorem not_halts_reduce (n r : Nat) : ¬ Halts reduceStep n 0xFFFF r := by
  refine not_halts_of_invariant (P := fun sum => sum = 0xFFFF) ?_ rfl n r
  rintro sum rfl
  exact ⟨0xFFFF, rfl, rfl⟩

theorem reduce_settles (h : sum < 2 ^ 32) :
    (∃ k < 3, ∃ r, Halts reduceStep k sum r) ∨ ∃ k, Steps reduceStep k sum 0xFFFF := by
  rcases Nat.lt_or_ge sum 0xFFFF with h0 | h0
  · exact .inl ⟨0, by decide, sum, sum, .refl sum, reduceStep_of_lt h0⟩
  have hstep := reduceStep_of_le h0
  rcases Nat.lt_or_ge (sum % 65536 + sum / 65536) 0xFFFF with h1 | h1
  · exact .inl ⟨1, by decide, _, _, .one hstep, reduceStep_of_lt h1⟩
  have hstep' := reduceStep_of_le h1
  have honce : sum % 65536 + sum / 65536 ≤ 0x1FFFE := by omega
  generalize sum % 65536 + sum / 65536 = once at *
  -- the carry of the second turn is at most one
  have htwice : once % 65536 + once / 65536 ≤ 0xFFFF := by omega
  rcases Nat.lt_or_eq_of_le htwice with h2 | h2
  · exact .inl ⟨2, by decide, _, _, (Steps.one hstep).tail hstep', reduceStep_of_lt h2⟩
  · rw [h2] at hstep'
    exact .inr ⟨2, (Steps.one hstep).tail hstep'⟩

/-- Four turns decide whether the loop ends. -/
theorem reduceSum_none (hsum : sum < 2 ^ 32) :
    reduceSum sum = none ↔ ∀ n r, ¬ Halts reduceStep n sum r := by
  constructor
  · intro hnone n r hh
    rcases reduce_settles hsum with ⟨k, hk, r', hh'⟩ | ⟨k, hsteps⟩
    · have hrun := runFor_eq_inr.mpr ⟨k, Nat.lt_succ_of_lt hk, hh'⟩
      rw [reduceSum, hrun] at hnone
      cases hnone
    · obtain ⟨m, hm⟩ := Halts.of_moved hsteps hh
      exact not_halts_reduce m r hm
  · intro hnever
    unfold reduceSum
    split
    next r hrun =>
      obtain ⟨k, -, hh⟩ := runFor_eq_inr.mp hrun
      exact absurd hh (hnever k r)
    · rfl

/-! ## The residues -/

/-- The little-endian words of the data, with a zero after a last single byte. -/
def wordsOf : List UInt8 → List Nat
  | [] => []
  | [b] => [b.toNat]
  | b :: c :: rest => (b.toNat + 256 * c.toNat) :: wordsOf rest

/-- The sum of the words modulo `m`. -/
def residue (m : Nat) (ws : List Nat) : Nat := ws.sum % m

/-- The sum of the residues after each word, modulo `m`. -/
def residueSum (m : Nat) (ws : List Nat) : Nat :=
  ((List.range ws.length).map fun i => residue m (ws.take (i + 1))).sum % m

variable {m : Nat} {ws : List Nat} {w : Nat}

theorem residue_concat (m : Nat) (ws : List Nat) (w : Nat) :
    residue m (ws ++ [w]) = (residue m ws + w) % m := by
  rw [residue, residue, List.sum_append_nat, List.sum_singleton, Nat.mod_add_mod]

theorem residueSum_concat (m : Nat) (ws : List Nat) (w : Nat) :
    residueSum m (ws ++ [w]) = (residueSum m ws + residue m (ws ++ [w])) % m := by
  have hlast : (ws ++ [w]).take (ws.length + 1) = ws ++ [w] :=
    List.take_of_length_le (by rw [List.length_append, List.length_singleton])
  have hinit : (List.range ws.length).map (fun i => residue m ((ws ++ [w]).take (i + 1))) =
      (List.range ws.length).map fun i => residue m (ws.take (i + 1)) := by
    refine List.map_congr_left fun i hi => ?_
    rw [List.take_append_of_le_length (List.mem_range.mp hi)]
  rw [residueSum, residueSum, List.length_append, List.length_singleton, List.range_succ,
    List.map_append, List.sum_append_nat, List.map_singleton, List.sum_singleton, hlast, hinit,
    Nat.mod_add_mod]

theorem residue_lt (hm : 0 < m) : residue m ws < m := Nat.mod_lt _ hm

theorem residueSum_lt (hm : 0 < m) : residueSum m ws < m := Nat.mod_lt _ hm

theorem residues_zero (m : Nat) (h : ∀ w ∈ ws, w = 0) :
    residue m ws = 0 ∧ residueSum m ws = 0 := by
  induction ws using List.reverseRecOn with
  | nil => exact ⟨Nat.zero_mod m, Nat.zero_mod m⟩
  | append_singleton ws w ih =>
    obtain ⟨ha, hb⟩ := ih fun v hv => h v (List.mem_append_left _ hv)
    have hw : w = 0 := h w (List.mem_append_right _ (List.mem_singleton_self w))
    have hzero : residue m (ws ++ [w]) = 0 := by rw [residue_concat, ha, hw, Nat.zero_mod]
    exact ⟨hzero, by rw [residueSum_concat, hb, hzero, Nat.zero_mod]⟩

theorem wordsOf_lt {data : List UInt8} (h : w ∈ wordsOf data) : w < 2 ^ 16 := by
  induction data using wordsOf.induct with
  | case1 => cases h
  | case2 b =>
    rw [wordsOf, List.mem_singleton] at h
    have := b.toNat_lt
    omega
  | case3 b c rest ih =>
    rcases List.mem_cons.mp h with rfl | h
    · have := b.toNat_lt
      have := c.toNat_lt
      omega
    · exact ih h

theorem fletcherLoop_eq (data : List UInt8) (sums : Nat × Nat) :
    fletcherLoop data sums = (wordsOf data).foldlM fletcherWord sums := by
  induction data using wordsOf.induct generalizing sums with
  | case1 => rfl
  | case2 b =>
    rw [fletcherLoop, wordsOf, List.foldlM_cons]
    simp only [List.foldlM_nil, bind_pure]
  | case3 b c rest ih =>
    rw [fletcherLoop, wordsOf, List.foldlM_cons]
    exact congrArg _ (funext ih)

theorem reduceSum_eq (h : sum < 2 * 0xFFFF) :
    reduceSum sum = if sum = 0xFFFF then none else some (sum % 0xFFFF) := by
  split
  next heq =>
    rw [heq]
    exact (reduceSum_none (by decide)).mpr not_halts_reduce
  next hne =>
    rcases Nat.lt_or_gt_of_ne hne with hlt | hgt
    · rw [Nat.mod_eq_of_lt hlt, reduceSum, runFor, reduceStep_of_lt hlt]
    · have hcarry : sum % 65536 + sum / 65536 = sum % 0xFFFF := by omega
      rw [reduceSum, runFor, reduceStep_of_le (Nat.le_of_lt hgt), hcarry]
      dsimp only
      rw [runFor, reduceStep_of_lt (Nat.mod_lt _ (by decide))]

/-- The words so far are all zero, or neither residue is zero. -/
def Unreduced (ws : List Nat) : Prop :=
  (∀ w ∈ ws, w = 0) ∨ (residue 0xFFFF ws ≠ 0 ∧ residueSum 0xFFFF ws ≠ 0)

theorem fletcherWord_eq (h : Unreduced ws) (hw : w < 2 ^ 16) :
    (Unreduced (ws ++ [w]) →
        fletcherWord (residue 0xFFFF ws, residueSum 0xFFFF ws) w =
          some (residue 0xFFFF (ws ++ [w]), residueSum 0xFFFF (ws ++ [w]))) ∧
      (¬ Unreduced (ws ++ [w]) →
        fletcherWord (residue 0xFFFF ws, residueSum 0xFFFF ws) w = none) := by
  have ha : residue 0xFFFF ws < 0xFFFF := residue_lt (by decide)
  have hb : residueSum 0xFFFF ws < 0xFFFF := residueSum_lt (by decide)
  have ha' := residue_concat 0xFFFF ws w
  have hb' := residueSum_concat 0xFFFF ws w
  have hlt' : residue 0xFFFF (ws ++ [w]) < 0xFFFF := residue_lt (by decide)
  have hzero : (∀ v ∈ ws, v = 0) → residue 0xFFFF ws = 0 ∧ residueSum 0xFFFF ws = 0 :=
    residues_zero 0xFFFF
  have hall : (∀ v ∈ ws ++ [w], v = 0) ↔ (∀ v ∈ ws, v = 0) ∧ w = 0 := by
    rw [List.forall_mem_append, List.forall_mem_singleton]
  unfold Unreduced at h ⊢
  rw [hall]
  have hsum1 : residue 0xFFFF ws + w < 2 * 0xFFFF := by omega
  have hsum2 : residueSum 0xFFFF ws + residue 0xFFFF (ws ++ [w]) < 2 * 0xFFFF := by omega
  unfold fletcherWord
  dsimp only
  rw [reduceSum_eq hsum1, ← ha']
  by_cases h1 : residue 0xFFFF ws + w = 0xFFFF
  · rw [if_pos h1]
    refine ⟨?_, fun _ => rfl⟩
    rintro (⟨hz, rfl⟩ | ⟨hne, -⟩)
    · have := (hzero hz).1
      omega
    · rw [h1, Nat.mod_self] at ha'
      exact absurd ha' hne
  rw [if_neg h1, Option.bind_eq_bind, Option.bind_some, reduceSum_eq hsum2, ← hb']
  by_cases h2 : residueSum 0xFFFF ws + residue 0xFFFF (ws ++ [w]) = 0xFFFF
  · rw [if_pos h2]
    refine ⟨?_, fun _ => rfl⟩
    rintro (⟨hz, rfl⟩ | ⟨-, hne⟩)
    · have := hzero hz
      omega
    · rw [h2, Nat.mod_self] at hb'
      exact absurd hb' hne
  · rw [if_neg h2]
    refine ⟨fun _ => rfl, fun hnot => absurd ?_ hnot⟩
    rcases h with hz | ⟨hane, hbne⟩
    · have := hzero hz
      by_cases hw0 : w = 0
      · exact .inl ⟨hz, hw0⟩
      · exact .inr (by omega)
    · exact .inr (by omega)

/-- After every word the residues are not zero, but for zeros at the start. -/
def NeverReduced (ws : List Nat) : Prop := ∀ p, p <+: ws → Unreduced p

theorem neverReduced_concat :
    NeverReduced (ws ++ [w]) ↔ NeverReduced ws ∧ Unreduced (ws ++ [w]) := by
  constructor
  · exact fun h => ⟨fun p hp => h p (hp.trans (List.prefix_append ..)), h _ List.prefix_rfl⟩
  · rintro ⟨h, hlast⟩ p hp
    rcases List.prefix_concat_iff.mp hp with rfl | hp
    · exact hlast
    · exact h p hp

theorem foldlM_fletcherWord (h : ∀ w ∈ ws, w < 2 ^ 16) :
    (NeverReduced ws → ws.foldlM fletcherWord (0, 0) =
        some (residue 0xFFFF ws, residueSum 0xFFFF ws)) ∧
      (¬ NeverReduced ws → ws.foldlM fletcherWord (0, 0) = none) := by
  induction ws using List.reverseRecOn with
  | nil =>
    refine ⟨fun _ => rfl, fun hnot => absurd (fun p hp => ?_) hnot⟩
    rw [List.prefix_nil.mp hp]
    exact .inl nofun
  | append_singleton ws w ih =>
    obtain ⟨hsome, hnone⟩ := ih fun v hv => h v (List.mem_append_left _ hv)
    have hw := h w (List.mem_append_right _ (List.mem_singleton_self w))
    have hconcat : (ws ++ [w]).foldlM fletcherWord (0, 0) =
        (ws.foldlM fletcherWord (0, 0)).bind fun sums => fletcherWord sums w := by
      simp [List.foldlM_append]
    rw [hconcat, neverReduced_concat]
    by_cases hws : NeverReduced ws
    · obtain ⟨hword, hloop⟩ := fletcherWord_eq (hws ws List.prefix_rfl) hw
      rw [hsome hws, Option.bind_some]
      exact ⟨fun hboth => hword hboth.2, fun hnot => hloop fun hlast => hnot ⟨hws, hlast⟩⟩
    · rw [hnone hws]
      exact ⟨fun hboth => absurd hboth.1 hws, fun _ => rfl⟩

theorem foldSum_of_lt (h : sum < 0xFFFF) : foldSum sum = sum := by
  rw [foldSum, show (0xFFFF : Nat) = 2 ^ 16 - 1 from rfl, Nat.and_two_pow_sub_one_eq_mod,
    Nat.shiftRight_eq_div_pow, Nat.mod_eq_of_lt (Nat.lt_of_lt_of_le h (by decide)),
    Nat.div_eq_of_lt (Nat.lt_of_lt_of_le h (by decide))]
  rfl

/-- The two residues of the words in one number. -/
def fletcher (m bits : Nat) (ws : List Nat) : Nat := residueSum m ws <<< bits ||| residue m ws

theorem dcFletcher32_eq (data : List UInt8) :
    (NeverReduced (wordsOf data) → dcFletcher32 data = some (fletcher 0xFFFF 16 (wordsOf data))) ∧
      (¬ NeverReduced (wordsOf data) → dcFletcher32 data = none) := by
  have hwords : ∀ w ∈ wordsOf data, w < 2 ^ 16 := fun _ hw => wordsOf_lt hw
  obtain ⟨hsome, hnone⟩ := foldlM_fletcherWord hwords
  unfold dcFletcher32
  rw [fletcherLoop_eq]
  refine ⟨fun h => ?_, fun h => ?_⟩
  · have ha : residue 0xFFFF (wordsOf data) < 0xFFFF := residue_lt (by decide)
    have hb : residueSum 0xFFFF (wordsOf data) < 0xFFFF := residueSum_lt (by decide)
    rw [hsome h, Option.bind_eq_bind, Option.bind_some, foldSum_of_lt ha, foldSum_of_lt ha,
      foldSum_of_lt hb, foldSum_of_lt hb, Nat.mod_eq_of_lt (by omega), fletcher, Nat.shiftLeft_eq]
    rfl
  · rw [hnone h]
    rfl

theorem foldl_fletcher16 (data : List UInt8) :
    data.foldl
        (fun sums b =>
          let sum1 := (sums.1 + b.toNat) % 255
          (sum1, (sums.2 + sum1) % 255)) (0, 0) =
      (residue 255 (data.map UInt8.toNat), residueSum 255 (data.map UInt8.toNat)) := by
  induction data using List.reverseRecOn with
  | nil => rfl
  | append_singleton data b ih =>
    rw [List.foldl_concat, ih, List.map_append, List.map_singleton, residueSum_concat,
      residue_concat]

theorem dcFletcher16_eq (data : List UInt8) :
    dcFletcher16 data = fletcher 255 8 (data.map UInt8.toNat) := by
  have ha : residue 255 (data.map UInt8.toNat) < 255 := residue_lt (by decide)
  have hb : residueSum 255 (data.map UInt8.toNat) < 255 := residueSum_lt (by decide)
  have hor : residueSum 255 (data.map UInt8.toNat) * 2 ^ 8 ||| residue 255 (data.map UInt8.toNat) <
      2 ^ 16 := Nat.or_lt_two_pow (by omega) (by omega)
  unfold dcFletcher16
  rw [foldl_fletcher16]
  dsimp only
  rw [Nat.mod_eq_of_lt hor, fletcher, Nat.shiftLeft_eq]

/-- Both checksums end with the residues of the data. -/
structure FletcherRight (data : List UInt8) : Prop where
  fletcher32 : dcFletcher32 data = some (fletcher 0xFFFF 16 (wordsOf data))
  fletcher16 : dcFletcher16 data = fletcher 255 8 (data.map UInt8.toNat)

/-- The checksums are right exactly when no running sum of `dc_fletcher32` comes back to
zero. -/
theorem fletcherRight_iff (data : List UInt8) :
    FletcherRight data ↔ NeverReduced (wordsOf data) := by
  obtain ⟨hsome, hnone⟩ := dcFletcher32_eq data
  constructor
  · intro h
    by_contra hnot
    have hend := h.fletcher32
    rw [hnone hnot] at hend
    cases hend
  · exact fun h => ⟨hsome h, dcFletcher16_eq data⟩

/-- On the word `0xFFFF` the loop of `dc_fletcher32` does not end. -/
theorem fletcher32_loops :
    dcFletcher32 [0xFF, 0xFF] = none ∧ (∀ n r, ¬ Halts reduceStep n (0 + 0xFFFF) r) ∧
      ¬ FletcherRight [0xFF, 0xFF] := by
  have hnone : dcFletcher32 [0xFF, 0xFF] = none := by decide
  refine ⟨hnone, not_halts_reduce, fun h => ?_⟩
  have hend := h.fletcher32
  rw [hnone] at hend
  cases hend

end Sentinel
