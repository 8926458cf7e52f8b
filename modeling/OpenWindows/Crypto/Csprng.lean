import OpenWindows.Crypto.Aes
import OpenWindows.Crypto.Blake2b

/-!
# The random generator of `owcrypt`

A block of 64 bytes is a block of the ChaCha20 stream for the key, the nonce and the counter 0.
After each block the nonce counts up, and after 8192 bytes fresh entropy is mixed into the key.
Requests take their bytes from the block, however they are cut.

Entropy is a sequence of numbers that is fixed in advance, and the state tells how many of them have
been taken.  It also keeps the keys and nonces that blocks were made with, for the statements.
-/

namespace Crypto

open Bytes

/-! ## The functions -/

/-- The variables `owc_rng_key` and so on. -/
structure Rng where
  key : List UInt8 := List.replicate 32 0
  nonce : List UInt8 := List.replicate 12 0
  block : List UInt8 := List.replicate 64 0
  consumed : Nat := 0
  generated : Nat := 0
  ready : Bool := false
  /-- How many numbers of entropy have been taken. -/
  taken : Nat := 0
  /-- The key and the nonce of each block, the last one first, in one list for each time between two
  changes of the key. -/
  used : List (List (List UInt8 × List UInt8)) := []
  deriving DecidableEq

/-- `OWC_RNG_RESEED`. -/
def rngReseed : Nat := 8192

variable (entropy : Nat → UInt64)

/-- `owc_rng_gather`, from number `k` of the entropy on. -/
def rngGather (k : Nat) : List UInt8 := (List.range 8).flatMap fun i => put64le (entropy (k + i))

/-- The loop of `owc_rng_advance_nonce`, for the next `left` bytes. -/
def rngAdvanceNonce : Nat → List UInt8 → List UInt8
  | 0, bs => bs
  | _ + 1, [] => []
  | left + 1, b :: bs => (b + 1) :: if b + 1 ≠ 0 then bs else rngAdvanceNonce left bs

/-- `owc_rng_rekey`. -/
def rngRekey (s : Rng) : Rng :=
  let ent := rngGather entropy s.taken
  { s with
    key := blake2b 32 (s.key ++ ent.take 32)
    taken := s.taken + 8
    used := [] :: s.used }

/-- The block `owc_rng_next_block` makes is recorded. -/
def rngRecord (s : Rng) : List (List (List UInt8 × List UInt8)) :=
  match s.used with
  | [] => [[(s.key, s.nonce)]]
  | seg :: segs => ((s.key, s.nonce) :: seg) :: segs

/-- `owc_rng_next_block`. -/
def rngNextBlock (s : Rng) : Rng :=
  let s := { s with
    block := chacha20Xor s.key s.nonce 0 (List.replicate 64 0)
    nonce := rngAdvanceNonce 8 s.nonce
    consumed := 0
    generated := s.generated + 64
    used := rngRecord s }
  if s.generated ≥ rngReseed then rngRekey entropy { s with generated := 0 } else s

/-- `owcrypt_csprng_init`. -/
def csprngInit (m : Module) (s : Rng) : Status × Rng :=
  if !m.initialized then (.errUninitialized, s)
  else
    (.ok,
      { key := blake2b 32 (rngGather entropy s.taken)
        nonce := put64le (entropy (s.taken + 8)) ++ [0, 0, 0, 0]
        block := List.replicate 64 0
        consumed := 64
        generated := 0
        ready := true
        taken := s.taken + 9
        used := [[]] })

/-- The loop of `owcrypt_csprng_generate` for `n` more bytes, for at most `fuel` turns: the bytes it
writes. -/
def csprngLoop : (fuel : Nat) → Rng → (n : Nat) → List UInt8 × Rng
  | 0, s, _ => ([], s)
  | fuel + 1, s, n =>
    if n = 0 then ([], s)
    else
      let s := if s.consumed ≥ 64 then rngNextBlock entropy s else s
      let c := if 64 - s.consumed > n then n else 64 - s.consumed
      let bytes := (List.range c).map fun i => byteAt s.block (s.consumed + i)
      let rest := csprngLoop fuel { s with consumed := s.consumed + c } (n - c)
      (bytes ++ rest.1, rest.2)

/-- `owcrypt_csprng_generate`, where `out` tells whether the buffer is given.  Each turn of the loop
writes a byte at least. -/
def csprngGenerate (m : Module) (s : Rng) (out : Bool) (n : Nat) : Status × List UInt8 × Rng :=
  if !m.initialized then (.errUninitialized, [], s)
  else if !s.ready then (.errUninitialized, [], s)
  else if !out ∧ n > 0 then (.errBadArg, [], s)
  else (.ok, csprngLoop entropy n s n)

/-! ## Byte by byte -/

def rngByte (s : Rng) : UInt8 × Rng :=
  let s := if s.consumed ≥ 64 then rngNextBlock entropy s else s
  (byteAt s.block s.consumed, { s with consumed := s.consumed + 1 })

/-- The next `n` bytes. -/
def rngBytes : Nat → Rng → List UInt8 × Rng
  | 0, s => ([], s)
  | n + 1, s =>
    let r := rngByte entropy s
    (r.1 :: (rngBytes n r.2).1, (rngBytes n r.2).2)

variable {entropy}

theorem rngBytes_add (n k : Nat) (s : Rng) : rngBytes entropy (n + k) s =
    ((rngBytes entropy n s).1 ++ (rngBytes entropy k (rngBytes entropy n s).2).1,
      (rngBytes entropy k (rngBytes entropy n s).2).2) := by
  induction n generalizing s with
  | zero => rw [Nat.zero_add, rngBytes, List.nil_append]
  | succ n ih => rw [Nat.succ_add, rngBytes, rngBytes, ih, List.cons_append]

variable {s : Rng}

theorem length_rngBytes (n : Nat) (s : Rng) : (rngBytes entropy n s).1.length = n := by
  induction n generalizing s with
  | zero => rfl
  | succ n ih => rw [rngBytes, List.length_cons, ih]

theorem rngBytes_within {c : Nat} (hc : s.consumed + c ≤ 64) : rngBytes entropy c s =
    ((List.range c).map fun i => byteAt s.block (s.consumed + i),
      { s with consumed := s.consumed + c }) := by
  induction c generalizing s with
  | zero => rfl
  | succ c ih =>
    have hroom : ¬ s.consumed ≥ 64 := by omega
    have hnext := ih (s := { s with consumed := s.consumed + 1 }) (by dsimp only; omega)
    rw [rngBytes, rngByte, if_neg hroom]
    dsimp only at hnext ⊢
    rw [hnext, List.range_succ_eq_map, List.map_cons, List.map_map]
    simp only [Nat.add_zero, Function.comp_def, Nat.succ_eq_add_one, Nat.add_assoc, Nat.add_comm 1]

theorem rngNextBlock_consumed (s : Rng) : (rngNextBlock entropy s).consumed = 0 := by
  unfold rngNextBlock
  dsimp only
  split
  · rfl
  · rfl

theorem rngByte_next (h : s.consumed ≥ 64) :
    rngByte entropy s = rngByte entropy (rngNextBlock entropy s) := by
  have hroom : ¬ (rngNextBlock entropy s).consumed ≥ 64 := by
    rw [rngNextBlock_consumed]
    decide
  rw [rngByte, rngByte, if_pos h, if_neg hroom]

theorem csprngLoop_eq {fuel n : Nat} (hfuel : n ≤ fuel) (s : Rng) :
    csprngLoop entropy fuel s n = rngBytes entropy n s := by
  induction fuel generalizing n s with
  | zero =>
    obtain rfl : n = 0 := Nat.le_zero.1 hfuel
    rfl
  | succ fuel ih =>
    rw [csprngLoop]
    split
    next hn =>
      subst hn
      rfl
    next hn =>
      obtain ⟨u, hu⟩ : ∃ u, u = if s.consumed ≥ 64 then rngNextBlock entropy s else s := ⟨_, rfl⟩
      obtain ⟨c, hc⟩ : ∃ c, c = if 64 - u.consumed > n then n else 64 - u.consumed := ⟨_, rfl⟩
      have hroom : u.consumed < 64 := by
        rw [hu]
        split
        · rw [rngNextBlock_consumed]; decide
        next h => exact Nat.lt_of_not_le h
      have hcn : 0 < c ∧ c ≤ n ∧ u.consumed + c ≤ 64 := by
        rw [hc]
        split <;> omega
      have hsame : rngBytes entropy n s = rngBytes entropy n u := by
        rw [hu]
        split
        next h =>
          cases n with
          | zero => exact absurd rfl hn
          | succ n => rw [rngBytes, rngBytes, rngByte_next h]
        · rfl
      have hcut : n = c + (n - c) := by omega
      dsimp only
      rw [← hu, ← hc, ih (by omega), hsame]
      conv_rhs => rw [hcut, rngBytes_add, rngBytes_within hcn.2.2]

/-! ## Keys and nonces -/

theorem rngAdvanceNonce_eq (n v : Nat) (rest : List UInt8) :
    rngAdvanceNonce n (leBytes n v ++ rest) = leBytes n (v + 1) ++ rest := by
  induction n generalizing v with
  | zero => rfl
  | succ n ih =>
    have hbyte : UInt8.ofNat v + 1 = UInt8.ofNat (v + 1) := (UInt8.ofNat_add v 1).symm
    have hzero : UInt8.ofNat (v + 1) = 0 ↔ (v + 1) % 256 = 0 := by
      rw [← UInt8.toNat_inj, UInt8.toNat_ofNat']
      rfl
    rw [leBytes, leBytes, List.cons_append, List.cons_append, rngAdvanceNonce, hbyte]
    split
    next hne =>
      have hsame : (v + 1) / 256 = v / 256 := by
        rw [ne_eq, hzero] at hne
        omega
      rw [hsame]
    next heq =>
      have hcarry : (v + 1) / 256 = v / 256 + 1 := by
        rw [not_not, hzero] at heq
        omega
      rw [ih, hcarry]

/-- What a block was made with. -/
abbrev Pair := List UInt8 × List UInt8

/-- The pairs of `k` blocks for one key, the nonces from `v` on, the last one first. -/
def counted (key rest : List UInt8) (v : Nat) : Nat → List Pair
  | 0 => []
  | k + 1 => (key, leBytes 8 (v + k) ++ rest) :: counted key rest v k

theorem mem_counted {key rest : List UInt8} {v k : Nat} {p : Pair}
    (h : p ∈ counted key rest v k) : ∃ i < k, p = (key, leBytes 8 (v + i) ++ rest) := by
  induction k with
  | zero => simp [counted] at h
  | succ k ih =>
    rw [counted, List.mem_cons] at h
    rcases h with rfl | h
    · exact ⟨k, Nat.lt_succ_self k, rfl⟩
    · obtain ⟨i, hi, rfl⟩ := ih h
      exact ⟨i, Nat.lt_succ_of_lt hi, rfl⟩

theorem nodup_counted (key rest : List UInt8) (v : Nat) {k : Nat} (hk : k ≤ 128) :
    (counted key rest v k).Nodup := by
  induction k with
  | zero => exact List.nodup_nil
  | succ k ih =>
    rw [counted, List.nodup_cons]
    refine ⟨?_, ih (by omega)⟩
    intro hmem
    obtain ⟨i, hi, heq⟩ := mem_counted hmem
    have hnonce : leBytes 8 (v + k) ++ rest = leBytes 8 (v + i) ++ rest := (Prod.mk.inj heq).2
    have hmod := leBytes_inj (List.append_cancel_right hnonce)
    norm_num at hmod
    omega

/-- What a run keeps. -/
structure RngSound (s : Rng) : Prop where
  ready : s.ready = true
  older : ∀ seg ∈ s.used.tail, seg.Nodup
  current : ∃ rest v k, s.used.head? = some (counted s.key rest v k) ∧
    s.nonce = leBytes 8 (v + k) ++ rest ∧ s.generated = 64 * k ∧ k < 128

theorem RngSound.nodup (h : RngSound s) : ∀ seg ∈ s.used, seg.Nodup := by
  obtain ⟨rest, v, k, hhead, -, -, hk⟩ := h.current
  obtain ⟨segs, hused⟩ := List.head?_eq_some_iff.1 hhead
  have holder := h.older
  rw [hused] at holder ⊢
  rw [List.forall_mem_cons]
  exact ⟨nodup_counted s.key rest v hk.le, holder⟩

theorem RngSound.nextBlock (h : RngSound s) : RngSound (rngNextBlock entropy s) := by
  obtain ⟨rest, v, k, hhead, hnonce, hgen, hk⟩ := h.current
  obtain ⟨segs, hused⟩ := List.head?_eq_some_iff.1 hhead
  have holder := h.older
  rw [hused, List.tail_cons] at holder
  have hrecord : rngRecord s = counted s.key rest v (k + 1) :: segs := by
    rw [rngRecord, hused, counted, hnonce]
  have hadvance : rngAdvanceNonce 8 s.nonce = leBytes 8 (v + (k + 1)) ++ rest := by
    rw [hnonce, rngAdvanceNonce_eq, Nat.add_assoc]
  unfold rngNextBlock
  dsimp only
  split
  next hfull =>
    refine ⟨h.ready, ?_, ⟨rest, v + (k + 1), 0, rfl, hadvance, rfl, by decide⟩⟩
    rw [rngRekey, List.tail_cons, hrecord, List.forall_mem_cons]
    exact ⟨nodup_counted s.key rest v hk, holder⟩
  next hroom =>
    refine ⟨h.ready, ?_, ⟨rest, v, k + 1, ?_, hadvance, ?_, ?_⟩⟩
    · rw [hrecord]
      exact holder
    · rw [hrecord, List.head?_cons]
    · dsimp only
      rw [hgen, Nat.mul_succ]
    · rw [rngReseed] at hroom
      omega

theorem RngSound.consume (h : RngSound s) (c : Nat) : RngSound { s with consumed := c } :=
  ⟨h.ready, h.older, h.current⟩

theorem RngSound.bytes (h : RngSound s) (n : Nat) : RngSound (rngBytes entropy n s).2 := by
  induction n generalizing s with
  | zero => exact h
  | succ n ih =>
    refine ih (RngSound.consume ?_ _)
    split
    · exact h.nextBlock
    · exact h

variable {m : Module}

theorem RngSound.init {s0 s : Rng} (h : csprngInit entropy m s0 = (.ok, s)) :
    m.initialized = true ∧ RngSound s := by
  unfold csprngInit at h
  split at h
  · simp at h
  next hm =>
    obtain rfl := (Prod.mk.inj h).2
    refine ⟨by simpa using hm, rfl, by simp, ⟨[0, 0, 0, 0], (entropy (s0.taken + 8)).toNat, 0, rfl, ?_,
      rfl, by decide⟩⟩
    exact congrArg (· ++ [0, 0, 0, 0]) (put64le_eq _)

/-! ## Requests -/

theorem csprngGenerate_eq (hm : m.initialized = true) (hs : RngSound s)
    (n : Nat) : csprngGenerate entropy m s true n = (.ok, rngBytes entropy n s) := by
  have hready := hs.ready
  rw [csprngGenerate, hm, hready, csprngLoop_eq le_rfl]
  simp

def csprngRequests (entropy : Nat → UInt64) (m : Module) :
    List Nat → Rng → List (Status × List UInt8) × Rng
  | [], s => ([], s)
  | n :: ns, s =>
    let (st, bytes, s) := csprngGenerate entropy m s true n
    let (answers, s) := csprngRequests entropy m ns s
    ((st, bytes) :: answers, s)

theorem csprngRequests_spec (hm : m.initialized = true) (ns : List Nat) (hs : RngSound s) :
    (csprngRequests entropy m ns s).1.map (Prod.map id List.length) = ns.map (.ok, ·) ∧
      ((csprngRequests entropy m ns s).1.flatMap Prod.snd, (csprngRequests entropy m ns s).2) =
        rngBytes entropy ns.sum s := by
  induction ns generalizing s with
  | nil => exact ⟨rfl, rfl⟩
  | cons n ns ih =>
    obtain ⟨hok, hbytes⟩ := ih (hs.bytes n)
    rw [List.sum_cons, rngBytes_add, ← hbytes, csprngRequests, csprngGenerate_eq hm hs]
    dsimp only
    rw [List.map_cons, hok, Prod.map, length_rngBytes, List.flatMap_cons]
    exact ⟨rfl, rfl⟩

/-- Each request gets as many bytes as it asks for.  After any requests the bytes and the state are
those of one request for all the bytes, a request may be cut in two, and no key and nonce were used
twice between two changes of the key. -/
theorem csprng_requests {m : Module} {s0 s : Rng} (h : csprngInit entropy m s0 = (.ok, s))
    (ns : List Nat) {t : Rng} (ht : t = (csprngRequests entropy m ns s).2) :
    csprngGenerate entropy m s true ns.sum =
        (.ok, (csprngRequests entropy m ns s).1.flatMap Prod.snd, t) ∧
      (csprngRequests entropy m ns s).1.map (Prod.map id List.length) = ns.map (.ok, ·) ∧
      (∀ n k, ∃ as u bs v, csprngGenerate entropy m t true n = (.ok, as, u) ∧
        csprngGenerate entropy m u true k = (.ok, bs, v) ∧
        csprngGenerate entropy m t true (n + k) = (.ok, as ++ bs, v)) ∧
      ∀ seg ∈ t.used, seg.Nodup := by
  obtain ⟨hm, hs⟩ := RngSound.init h
  obtain ⟨hok, hbytes⟩ := csprngRequests_spec hm ns hs
  have hsound : RngSound t := by
    have hstate := congrArg Prod.snd hbytes
    rw [← ht] at hstate
    rw [hstate]
    exact hs.bytes _
  refine ⟨?_, hok, ?_, hsound.nodup⟩
  · rw [csprngGenerate_eq hm hs, ← hbytes, ht]
  · intro n k
    refine ⟨_, _, _, _, csprngGenerate_eq hm hsound n, csprngGenerate_eq hm (hsound.bytes n) k, ?_⟩
    rw [csprngGenerate_eq hm hsound, rngBytes_add]

theorem csprng_requests_sample : ∃ s t : Rng,
    csprngInit UInt64.ofNat { Module.zero with initialized := true } {} = (.ok, s) ∧
      csprngGenerate UInt64.ofNat { Module.zero with initialized := true } s true 8300 =
        (.ok, (csprngRequests UInt64.ofNat { Module.zero with initialized := true } [8000, 300]
          s).1.flatMap Prod.snd, t) ∧
      ∀ seg ∈ t.used, seg.Nodup :=
  have h := csprng_requests (m := { Module.zero with initialized := true }) rfl [8000, 300] rfl
  ⟨_, _, rfl, h.1, h.2.2.2⟩

end Crypto
