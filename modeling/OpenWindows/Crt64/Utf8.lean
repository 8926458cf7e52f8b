import OpenWindows.Crt64.Format
import OpenWindows.Extensions.Sutf8

/-!
# The UTF-8 helpers of `owcrt64`

A code point takes one to four bytes.  `ow_utf8_decode` looks at the bits of each byte alone, and
`ow_utf8_strlen` goes on by the length that the code point should have instead of the bytes that
were read.  So an encoded text is read back code point by code point and its length is right.  But
the decoder also accepts sequences that the encoder never writes: longer ones than needed, and
values above the last code point.

Code points have at most 21 bits and are plain numbers.  An address of 0 is `NULL`.
-/

namespace Crt64

open Memory
open Sutf8

/-! ## The functions -/

/-- `ow_utf8_seqlen`. -/
def owUtf8Seqlen (cp : Nat) : Nat :=
  if cp ≤ 0x7F then 1
  else if cp ≤ 0x7FF then 2
  else if cp ≤ 0xFFFF then 3
  else if cp ≤ 0x10FFFF then 4
  else 0

/-- What a first byte says: the bits of `cp` and `need`. -/
def utf8Lead (b : UInt8) : Option (Nat × Nat) :=
  if b < 0x80 then some (b.toNat, 1)
  else if b &&& 0xE0 = 0xC0 then some ((b &&& 0x1F).toNat, 2)
  else if b &&& 0xF0 = 0xE0 then some ((b &&& 0x0F).toNat, 3)
  else if b &&& 0xF8 = 0xF0 then some ((b &&& 0x07).toNat, 4)
  else none

/-- The loop over the continuation bytes, from index `i` on: the code point, or the index of a byte
that is none. -/
def utf8Tails (m : Mem) (s : Nat) : (left i cp : Nat) → Except Nat Nat
  | 0, _, cp => .ok cp
  | left + 1, i, cp =>
    if m (s + i) &&& 0xC0 ≠ 0x80 then .error i
    else utf8Tails m s left (i + 1) (cp <<< 6 ||| (m (s + i) &&& 0x3F).toNat)

/-- What `ow_utf8_decode` returns for an error. -/
def utf8Invalid : Nat := 0xFFFFFFFF

/-- `ow_utf8_decode`, with `*consumed`. -/
def owUtf8Decode (m : Mem) (s n : Nat) : Nat × Nat :=
  if s = 0 ∨ n = 0 then (0, 0)
  else
    match utf8Lead (m s) with
    | none => (utf8Invalid, 1)
    | some (cp, need) =>
      if n < need then (utf8Invalid, 0)
      else
        match utf8Tails m s (need - 1) 1 cp with
        | .error i => (utf8Invalid, i)
        | .ok cp => (cp, need)

/-- `ow_utf8_encode`: the bytes it writes.  Their number is what it returns. -/
def owUtf8Encode (cp out : Nat) : List UInt8 :=
  if out = 0 ∨ cp > 0x10FFFF then []
  else if cp ≤ 0x7F then [UInt8.ofNat cp]
  else if cp ≤ 0x7FF then
    [UInt8.ofNat (0xC0 ||| cp >>> 6), UInt8.ofNat (0x80 ||| (cp &&& 0x3F))]
  else if cp ≤ 0xFFFF then
    [UInt8.ofNat (0xE0 ||| cp >>> 12), UInt8.ofNat (0x80 ||| (cp >>> 6 &&& 0x3F)),
      UInt8.ofNat (0x80 ||| (cp &&& 0x3F))]
  else
    [UInt8.ofNat (0xF0 ||| cp >>> 18), UInt8.ofNat (0x80 ||| (cp >>> 12 &&& 0x3F)),
      UInt8.ofNat (0x80 ||| (cp >>> 6 &&& 0x3F)), UInt8.ofNat (0x80 ||| (cp &&& 0x3F))]

/-- The loop of `ow_utf8_strlen`.  `fuel` bounds its turns. -/
def utf8StrlenLoop (m : Mem) (s : Nat) : (fuel i count : Nat) → Option Nat
  | 0, _, _ => none
  | fuel + 1, i, count =>
    if m (s + i) = 0 then some count
    else
      let k := owUtf8Seqlen (owUtf8Decode m (s + i) 4).1
      utf8StrlenLoop m s fuel (if k = 0 then i + 1 else i + k) (count + 1)

/-- `ow_utf8_strlen`, none when `fuel` turns do not reach the NUL. -/
def owUtf8Strlen (m : Mem) (s fuel : Nat) : Option Nat := utf8StrlenLoop m s fuel 0 0

/-! ## Sequences of bytes -/

theorem utf8Lead_leadOf (n t : Nat) (hn : n < 4) (ht : t < leadRoom (n + 1)) :
    utf8Lead (leadOf (n + 1) t) = some (t, n + 1) := by
  have table : ∀ n : Fin 4, ∀ t < leadRoom (n.val + 1),
      utf8Lead (leadOf (n.val + 1) t) = some (t, n.val + 1) := by
    decide
  exact table ⟨n, hn⟩ t ht

set_option maxRecDepth 8000 in
theorem utf8Lead_cases {b : UInt8} {t need : Nat} (h : utf8Lead b = some (t, need)) :
    ∃ n, need = n + 1 ∧ n < 4 ∧ t < leadRoom (n + 1) ∧ b = leadOf (n + 1) t := by
  have table : ∀ i : Fin 256, ∀ r ∈ utf8Lead (UInt8.ofNat i),
      0 < r.2 ∧ r.2 ≤ 4 ∧ r.1 < leadRoom r.2 ∧ UInt8.ofNat i = leadOf r.2 r.1 := by
    decide
  obtain ⟨hpos, hfour, ht, hb⟩ := of_forall_byte (p := fun b => ∀ r ∈ utf8Lead b,
    0 < r.2 ∧ r.2 ≤ 4 ∧ r.1 < leadRoom r.2 ∧ b = leadOf r.2 r.1) table b _ h
  obtain ⟨n, rfl⟩ : ∃ n, need = n + 1 := ⟨need - 1, (Nat.sub_add_cancel hpos).symm⟩
  exact ⟨n, rfl, Nat.lt_of_succ_le hfour, ht, hb⟩

variable {m : Mem} {bs : List UInt8} {cp out : Nat}

variable {i s v n c : Nat}

theorem utf8Tails_map {xs : List Nat} (hxs : ∀ x ∈ xs, x < 64)
    (hload : load m (s + i) xs.length = xs.map tailOf) (top : Nat) :
    utf8Tails m s xs.length i top = .ok (ofDigits top xs) := by
  induction xs generalizing i top with
  | nil => rfl
  | cons x xs ih =>
    obtain ⟨hmark, hbits, -⟩ := tailOf_spec (hxs x List.mem_cons_self)
    rw [List.length_cons, load_succ, List.map_cons, List.cons.injEq] at hload
    have hrest := ih (fun y hy => hxs y (List.mem_cons_of_mem x hy)) (i := i + 1)
      (by rw [← hload.2, Nat.add_assoc]) (top * 64 + x)
    simp only [List.length_cons, utf8Tails, hload.1, hmark, ne_eq, not_true_eq_false, if_false,
      hbits, shift_or top (hxs x List.mem_cons_self), ofDigits_cons, hrest]

theorem utf8Tails_eq_ok {left top : Nat} (h : utf8Tails m s left i top = .ok v) :
    ∃ xs, (∀ x ∈ xs, x < 64) ∧ xs.length = left ∧ load m (s + i) left = xs.map tailOf ∧
      v = ofDigits top xs := by
  induction left generalizing i top with
  | zero => exact ⟨[], by simp, rfl, rfl, by simpa [utf8Tails, eq_comm] using h⟩
  | succ left ih =>
    simp only [utf8Tails] at h
    split at h
    · simp at h
    next hmark =>
      simp only [ne_eq, not_not] at hmark
      obtain ⟨xs, hxs, hlen, hload, rfl⟩ := ih h
      refine ⟨(m (s + i) &&& 0x3F).toNat :: xs, ?_, ?_, ?_, ?_⟩
      · exact List.forall_mem_cons.2 ⟨tail_lt _, hxs⟩
      · rw [List.length_cons, hlen]
      · rw [load_succ, List.map_cons, ← tail_unique hmark, ← hload, Nat.add_assoc]
      · rw [ofDigits_cons, shift_or _ (tail_lt _)]

/-- The bytes `bs` are a first byte and the continuation bytes it announces, with the value `v`. -/
def Spells (bs : List UInt8) (v : Nat) : Prop :=
  ∃ t xs, xs.length < 4 ∧ t < leadRoom (xs.length + 1) ∧ (∀ x ∈ xs, x < 64) ∧
    bs = leadOf (xs.length + 1) t :: xs.map tailOf ∧ v = ofDigits t xs

theorem Spells.length_pos (h : Spells bs v) : 0 < bs.length := by
  obtain ⟨t, xs, -, -, -, rfl, -⟩ := h
  simp

theorem Spells.lt (h : Spells bs v) : v < leadRoom bs.length * 64 ^ (bs.length - 1) := by
  obtain ⟨t, xs, -, ht, hxs, rfl, rfl⟩ := h
  simp only [List.length_cons, List.length_map, Nat.add_sub_cancel]
  exact Nat.lt_of_lt_of_le (ofDigits_lt hxs t) (Nat.mul_le_mul_right _ ht)

theorem Spells.unique {cs : List UInt8} (hb : Spells bs v) (hc : Spells cs v)
    (hlen : bs.length = cs.length) : bs = cs := by
  obtain ⟨s, xs, -, -, hxs, rfl, rfl⟩ := hb
  obtain ⟨t, ys, -, -, hys, rfl, hv⟩ := hc
  have hxy : xs.length = ys.length := by simpa using hlen
  obtain ⟨rfl, rfl⟩ := ofDigits_injective hxy hxs hys hv
  rfl

theorem Spells.decode (h : Spells bs v) (hs : s ≠ 0)
    (hload : load m s bs.length = bs) (hn : bs.length ≤ n) :
    owUtf8Decode m s n = (v, bs.length) := by
  obtain ⟨t, xs, hfour, ht, hxs, rfl, rfl⟩ := h
  simp only [List.length_cons, List.length_map] at hload hn ⊢
  rw [load_succ, List.cons.injEq] at hload
  have hn0 : ¬ (s = 0 ∨ n = 0) := by omega
  have hroom : ¬ n < xs.length + 1 := by omega
  simp only [owUtf8Decode, hn0, if_false, hload.1, utf8Lead_leadOf _ t hfour ht, hroom,
    Nat.add_sub_cancel, utf8Tails_map hxs hload.2]

theorem owUtf8Decode_cases (h : owUtf8Decode m s n = (v, c))
    (hv : v ≠ utf8Invalid) (hc : 0 < c) : s ≠ 0 ∧ c ≤ n ∧ Spells (load m s c) v := by
  simp only [owUtf8Decode] at h
  split at h
  · simp only [Prod.mk.injEq] at h
    omega
  next hs =>
    split at h
    · simp only [Prod.mk.injEq] at h; exact absurd h.1.symm hv
    next t need hlead =>
      split at h
      · simp only [Prod.mk.injEq] at h; exact absurd h.1.symm hv
      next hroom =>
        split at h
        · simp only [Prod.mk.injEq] at h; exact absurd h.1.symm hv
        next w htails =>
          cases h
          obtain ⟨k, rfl, hfour, ht, hb⟩ := utf8Lead_cases hlead
          obtain ⟨xs, hxs, hlen, hload, rfl⟩ := utf8Tails_eq_ok htails
          rw [Nat.add_sub_cancel] at hlen hload
          subst hlen
          exact ⟨fun h0 => hs (.inl h0), by omega,
            t, xs, hfour, ht, hxs, by rw [load_succ, hb, hload], rfl⟩

/-! ## What the encoder writes -/

theorem seqlen_cases (h : cp ≤ 0x10FFFF) :
    (cp ≤ 0x7F ∧ owUtf8Seqlen cp = 1) ∨ (0x7F < cp ∧ cp ≤ 0x7FF ∧ owUtf8Seqlen cp = 2) ∨
      (0x7FF < cp ∧ cp ≤ 0xFFFF ∧ owUtf8Seqlen cp = 3) ∨
      (0xFFFF < cp ∧ cp ≤ 0x10FFFF ∧ owUtf8Seqlen cp = 4) := by
  unfold owUtf8Seqlen
  split_ifs <;> simp <;> omega

theorem seqlen_iff (cp : Nat) :
    (cp ≤ 0x10FFFF ∧ owUtf8Seqlen cp = 1 ↔ cp ≤ 0x7F) ∧
      (cp ≤ 0x10FFFF ∧ owUtf8Seqlen cp = 2 ↔ 0x7F < cp ∧ cp ≤ 0x7FF) ∧
      (cp ≤ 0x10FFFF ∧ owUtf8Seqlen cp = 3 ↔ 0x7FF < cp ∧ cp ≤ 0xFFFF) ∧
      (cp ≤ 0x10FFFF ∧ owUtf8Seqlen cp = 4 ↔ 0xFFFF < cp ∧ cp ≤ 0x10FFFF) := by
  by_cases h : cp ≤ 0x10FFFF
  · have := seqlen_cases h
    omega
  · omega

theorem tailOf_bits (cp k : Nat) :
    UInt8.ofNat (0x80 ||| (cp >>> (6 * k) &&& 0x3F)) = tailOf (sixBits cp k) := by
  rw [tailOf, Nat.or_comm, sixBits, Nat.shiftRight_eq_div_pow, Nat.pow_mul,
    ← Nat.and_two_pow_sub_one_eq_mod (cp / 64 ^ k) 6]

theorem owUtf8Encode_eq (hout : out ≠ 0) (h : cp ≤ 0x10FFFF) :
    owUtf8Encode cp out = leadOf (owUtf8Seqlen cp) (cp / 64 ^ (owUtf8Seqlen cp - 1)) ::
      ((List.range (owUtf8Seqlen cp - 1)).reverse.map (sixBits cp)).map tailOf := by
  have hok : ¬ (out = 0 ∨ cp > 0x10FFFF) := by omega
  have h0 := tailOf_bits cp 0
  have h1 := tailOf_bits cp 1
  have h2 := tailOf_bits cp 2
  simp only [Nat.mul_zero, Nat.shiftRight_zero, Nat.mul_one, Nat.reduceMul] at h0 h1 h2
  simp only [owUtf8Encode, hok, if_false, h0, h1, h2]
  rcases seqlen_cases h with ⟨hc, hl⟩ | ⟨hc, hc', hl⟩ | ⟨hc, hc', hl⟩ | ⟨hc, hc', hl⟩
  · simp [hl, hc, leadOf]
  · have hc : ¬ cp ≤ 0x7F := by omega
    simp [hl, hc, hc', leadOf, Nat.shiftRight_eq_div_pow]
  · have hone : ¬ cp ≤ 0x7F := by omega
    have htwo : ¬ cp ≤ 0x7FF := by omega
    simp [hl, hone, htwo, hc', leadOf, Nat.shiftRight_eq_div_pow, List.range_succ]
  · have hone : ¬ cp ≤ 0x7F := by omega
    have htwo : ¬ cp ≤ 0x7FF := by omega
    have hthree : ¬ cp ≤ 0xFFFF := by omega
    simp [hl, hone, htwo, hthree, leadOf, Nat.shiftRight_eq_div_pow, List.range_succ]

theorem spells_encode (hout : out ≠ 0) (h : cp ≤ 0x10FFFF) : Spells (owUtf8Encode cp out) cp := by
  obtain ⟨n, hl, hn, hlead⟩ : ∃ n, owUtf8Seqlen cp = n + 1 ∧ n < 4 ∧
      cp / 64 ^ n < leadRoom (n + 1) := by
    rcases seqlen_cases h with ⟨hc, hl⟩ | ⟨hc, hc', hl⟩ | ⟨hc, hc', hl⟩ | ⟨hc, hc', hl⟩
    · exact ⟨0, hl, by decide, by simp [leadRoom]; omega⟩
    · exact ⟨1, hl, by decide, by simp [leadRoom]; omega⟩
    · exact ⟨2, hl, by decide, by simp [leadRoom]; omega⟩
    · exact ⟨3, hl, by decide, by simp [leadRoom]; omega⟩
  rw [owUtf8Encode_eq hout h, hl, Nat.add_sub_cancel]
  refine ⟨cp / 64 ^ n, (List.range n).reverse.map (sixBits cp), ?_, ?_, ?_, ?_, ?_⟩
  · simpa using hn
  · simpa using hlead
  · simp [sixBits_lt]
  · simp
  · exact (ofDigits_sixBits cp n).symm

theorem owUtf8Encode_length (hout : out ≠ 0) (h : cp ≤ 0x10FFFF) :
    (owUtf8Encode cp out).length = owUtf8Seqlen cp := by
  rw [owUtf8Encode_eq hout h]
  rcases seqlen_cases h with ⟨-, hl⟩ | ⟨-, -, hl⟩ | ⟨-, -, hl⟩ | ⟨-, -, hl⟩ <;> simp [hl]

/-- The bytes of a list of code points, each written at some `out`. -/
def encodeAll (out : Nat) (cps : List Nat) : List UInt8 := cps.flatMap (owUtf8Encode · out)

/-- The calls of `ow_utf8_decode` over `n` bytes, each at the end of what the one before it
consumed.  None when a call fails or `calls` do not reach the end. -/
def decodeAll (m : Mem) : (calls s n : Nat) → Option (List Nat)
  | _, _, 0 => some []
  | 0, _, _ + 1 => none
  | calls + 1, s, n + 1 =>
    let (v, c) := owUtf8Decode m s (n + 1)
    if v = utf8Invalid ∨ c = 0 then none
    else (decodeAll m calls (s + c) (n + 1 - c)).map (v :: ·)

theorem encodeAll_cons (out cp : Nat) (cps : List Nat) :
    encodeAll out (cp :: cps) = owUtf8Encode cp out ++ encodeAll out cps := List.flatMap_cons

theorem decodeAll_step {calls : Nat} (h : owUtf8Decode m s n = (v, c))
    (hv : v ≠ utf8Invalid) (hc : c ≠ 0) (hn : n ≠ 0) :
    decodeAll m (calls + 1) s n = (decodeAll m calls (s + c) (n - c)).map (v :: ·) := by
  cases n with
  | zero => exact absurd rfl hn
  | succ n => simp [decodeAll, h, hv, hc]

theorem decodeAll_encodeAll (hout : out ≠ 0) {cps : List Nat}
    (hcps : ∀ cp ∈ cps, cp ≤ 0x10FFFF) (hs : s ≠ 0)
    (hload : load m s (encodeAll out cps).length = encodeAll out cps) {calls : Nat}
    (hcalls : (encodeAll out cps).length ≤ calls) :
    decodeAll m calls s (encodeAll out cps).length = some cps := by
  induction cps generalizing s calls with
  | nil => cases calls <;> rfl
  | cons cp cps ih =>
    rw [List.forall_mem_cons] at hcps
    rw [encodeAll_cons] at hload hcalls ⊢
    have hspells := spells_encode hout hcps.1
    have hpos := hspells.length_pos
    obtain ⟨hfirst, hrest⟩ := load_append hload
    have hdec := hspells.decode hs hfirst
      (n := (owUtf8Encode cp out ++ encodeAll out cps).length) (by simp)
    have hvalid : cp ≠ utf8Invalid := by
      rw [utf8Invalid]
      omega
    rw [List.length_append] at hdec hcalls ⊢
    cases calls with
    | zero => omega
    | succ calls =>
      rw [decodeAll_step hdec hvalid (by omega) (by omega), Nat.add_sub_cancel_left,
        ih hcps.2 (by omega) hrest (by omega), Option.map_some]

theorem utf8StrlenLoop_encodeAll (hout : out ≠ 0) {cps : List Nat}
    (hcps : ∀ cp ∈ cps, 1 ≤ cp ∧ cp ≤ 0x10FFFF) (hs : s ≠ 0) {count : Nat}
    (hload : load m (s + i) (encodeAll out cps ++ [0]).length = encodeAll out cps ++ [0])
    {fuel : Nat} (hfuel : cps.length < fuel) :
    utf8StrlenLoop m s fuel i count = some (count + cps.length) := by
  induction cps generalizing i count fuel with
  | nil =>
    cases fuel with
    | zero => simp at hfuel
    | succ fuel =>
      have hnul : m (s + i) = 0 := by simpa [encodeAll, load] using hload
      simp [utf8StrlenLoop, hnul]
  | cons cp cps ih =>
    rw [List.forall_mem_cons] at hcps
    rw [encodeAll_cons, List.append_assoc] at hload
    obtain ⟨hfirst, hrest⟩ := load_append hload
    have hspells := spells_encode hout hcps.1.2
    have hlen := owUtf8Encode_length hout hcps.1.2
    have hfour : (owUtf8Encode cp out).length ≤ 4 := by
      rcases seqlen_cases hcps.1.2 with ⟨-, hl⟩ | ⟨-, -, hl⟩ | ⟨-, -, hl⟩ | ⟨-, -, hl⟩ <;> omega
    have hdec := hspells.decode (by omega) hfirst hfour
    have hbyte : m (s + i) ≠ 0 := by
      intro h0
      have hzero : owUtf8Decode m (s + i) 4 = (0, 1) := by
        rw [owUtf8Decode, if_neg (by omega)]
        simp [h0, utf8Lead, utf8Tails]
      rw [hzero, Prod.mk.injEq] at hdec
      omega
    have hpos : owUtf8Seqlen cp ≠ 0 := by
      have := hspells.length_pos
      omega
    cases fuel with
    | zero => simp at hfuel
    | succ fuel =>
      rw [← hlen] at hpos
      rw [Nat.add_assoc] at hrest
      have hnext : utf8StrlenLoop m s fuel (i + (owUtf8Encode cp out).length) (count + 1) =
          some (count + 1 + cps.length) := ih hcps.2 hrest (by simpa using hfuel)
      simp only [utf8StrlenLoop, hbyte, if_false, hdec, ← hlen, hpos, hnext, List.length_cons]
      rw [Nat.add_assoc, Nat.add_comm 1]

/-- An encoded text is decoded to its code points, and its length is their number. -/
theorem owUtf8_round_trip {cps : List Nat} (hcps : ∀ cp ∈ cps, 1 ≤ cp ∧ cp ≤ 0x10FFFF)
    {out s : Nat} (hout : out ≠ 0) (hs : s ≠ 0) {m : Mem}
    (hload : load m s (encodeAll out cps ++ [0]).length = encodeAll out cps ++ [0]) :
    (∀ calls, (encodeAll out cps).length ≤ calls →
      decodeAll m calls s (encodeAll out cps).length = some cps) ∧
    ∀ fuel, cps.length < fuel → owUtf8Strlen m s fuel = some cps.length := by
  constructor
  · intro calls hcalls
    exact decodeAll_encodeAll hout (fun cp hcp => (hcps cp hcp).2) hs (load_append hload).1 hcalls
  · intro fuel hfuel
    have hcount : utf8StrlenLoop m s fuel 0 0 = some (0 + cps.length) :=
      utf8StrlenLoop_encodeAll hout hcps hs hload hfuel
    rw [owUtf8Strlen, hcount, Nat.zero_add]

theorem owUtf8_round_trip_sample :
    (∀ calls, 4 ≤ calls →
      decodeAll (store blank 16 [0x41, 0xE4, 0xBD, 0xA0, 0]) calls 16 4 = some [0x41, 0x4F60]) ∧
    ∀ fuel, 2 < fuel →
      owUtf8Strlen (store blank 16 [0x41, 0xE4, 0xBD, 0xA0, 0]) 16 fuel = some 2 :=
  @owUtf8_round_trip [0x41, 0x4F60] (by decide) 8 16 (by decide) (by decide) _ (by decide)

/-! ## Canonical sequences -/

/-- The number of bytes that a first byte announces, 0 for a byte that is none. -/
def announced (b : UInt8) : Nat :=
  if b < 0x80 then 1
  else if b < 0xC0 then 0
  else if b < 0xE0 then 2
  else if b < 0xF0 then 3
  else if b < 0xF8 then 4
  else 0

/-- The `n` bytes at `s` begin with a first byte and the continuation bytes it announces. -/
structure Complete (m : Mem) (s n : Nat) : Prop where
  present : s ≠ 0
  lead : 0 < announced (m s)
  room : announced (m s) ≤ n
  tails : ∀ i, 1 ≤ i → i < announced (m s) → 0x80 ≤ m (s + i) ∧ m (s + i) < 0xC0

/-- The first two bytes are not those of a form that is too long or of a value that is too high. -/
def Canonical (b0 b1 : UInt8) : Prop :=
  b0 ≠ 0xC0 ∧ b0 ≠ 0xC1 ∧ (b0 = 0xE0 → 0xA0 ≤ b1) ∧ (b0 = 0xF0 → 0x90 ≤ b1) ∧
    (b0 = 0xF4 → b1 < 0x90) ∧ b0 < 0xF5

theorem announced_leadOf (n t : Nat) (hn : n < 4) (ht : t < leadRoom (n + 1)) :
    announced (leadOf (n + 1) t) = n + 1 := by
  have table : ∀ n : Fin 4, ∀ t < leadRoom (n.val + 1),
      announced (leadOf (n.val + 1) t) = n.val + 1 := by
    decide
  exact table ⟨n, hn⟩ t ht

theorem tailOf_range {x : Nat} (hx : x < 64) : 0x80 ≤ tailOf x ∧ tailOf x < 0xC0 := by
  have table : ∀ x < 64, 0x80 ≤ tailOf x ∧ tailOf x < 0xC0 := by decide
  exact table x hx

theorem leadOf_toNat (n t : Nat) (hn : n < 4) (ht : t < leadRoom (n + 1)) :
    (leadOf (n + 1) t).toNat = [0, 0xC0, 0xE0, 0xF0].getD n 0 + t := by
  have table : ∀ n : Fin 4, ∀ t < leadRoom (n.val + 1),
      (leadOf (n.val + 1) t).toNat = [0, 0xC0, 0xE0, 0xF0].getD n.val 0 + t := by
    decide
  exact table ⟨n, hn⟩ t ht

theorem tailOf_toNat {x : Nat} (hx : x < 64) : (tailOf x).toNat = 0x80 + x := by
  have table : ∀ x < 64, (tailOf x).toNat = 0x80 + x := by decide
  exact table x hx

theorem Complete.of_spells (hs : s ≠ 0) (hn : c ≤ n)
    (h : Spells (load m s c) v) : Complete m s n := by
  obtain ⟨t, xs, hfour, ht, hxs, hload, -⟩ := h
  obtain rfl : c = xs.length + 1 := by simpa using congrArg List.length hload
  rw [load_succ, List.cons.injEq] at hload
  have hlead := announced_leadOf _ t hfour ht
  rw [← hload.1] at hlead
  refine ⟨hs, by omega, by omega, ?_⟩
  intro i hi hlt
  obtain ⟨j, rfl⟩ : ∃ j, i = 1 + j := ⟨i - 1, by omega⟩
  have hj : j < xs.length := by omega
  have hbyte : m (s + (1 + j)) = tailOf xs[j] := by
    have hget := congrArg (·[j]?) hload.2
    simpa [load, hj, Nat.add_assoc] using hget
  rw [hbyte]
  exact tailOf_range (hxs _ (List.getElem_mem hj))

set_option maxRecDepth 8000 in
theorem Complete.accepted {m : Mem} {s n : Nat} (h : Complete m s n) :
    ∃ v c, owUtf8Decode m s n = (v, c) ∧ v ≠ utf8Invalid ∧ 0 < c := by
  have hlead : ∃ t, utf8Lead (m s) = some (t, announced (m s)) := by
    have table : ∀ i : Fin 256, 0 < announced (UInt8.ofNat i) →
        (utf8Lead (UInt8.ofNat i)).map Prod.snd = some (announced (UInt8.ofNat i)) := by
      decide
    have hmap := of_forall_byte (p := fun b => 0 < announced b →
      (utf8Lead b).map Prod.snd = some (announced b)) table (m s) h.lead
    obtain ⟨⟨t, need⟩, hsome, hneed⟩ := Option.map_eq_some_iff.1 hmap
    exact ⟨t, hneed ▸ hsome⟩
  obtain ⟨t, hlead⟩ := hlead
  obtain ⟨n', hneed, hfour, ht, hb⟩ := utf8Lead_cases hlead
  have hmarks : ∀ i, 1 ≤ i → i < announced (m s) → m (s + i) &&& 0xC0 = 0x80 := by
    intro i hi hlt
    have table : ∀ i : Fin 256, 0x80 ≤ UInt8.ofNat i → UInt8.ofNat i < 0xC0 →
        UInt8.ofNat i &&& 0xC0 = 0x80 := by
      decide
    have hrange := h.tails i hi hlt
    exact of_forall_byte (p := fun b => 0x80 ≤ b → b < 0xC0 → b &&& 0xC0 = 0x80) table _
      hrange.1 hrange.2
  have hspells : Spells (load m s (n' + 1))
      (ofDigits t ((load m (s + 1) n').map fun b => (b &&& 0x3F).toNat)) := by
    refine ⟨t, (load m (s + 1) n').map fun b => (b &&& 0x3F).toNat, ?_, ?_, ?_, ?_, rfl⟩
    · simpa using hfour
    · simpa using ht
    · intro x hx
      obtain ⟨b, -, rfl⟩ := List.mem_map.1 hx
      exact tail_lt b
    · rw [load_succ, hb, List.length_map, length_load, List.map_map]
      congr 1
      refine (List.map_id _).symm.trans (List.map_congr_left ?_)
      intro b hb
      obtain ⟨i, hi, rfl⟩ := List.mem_map.1 hb
      rw [List.mem_range] at hi
      have hmark := hmarks (1 + i) (by omega) (by omega)
      rw [← Nat.add_assoc] at hmark
      exact tail_unique hmark
  have hdec := hspells.decode h.present (n := n) (by rw [length_load])
    (by rw [length_load, ← hneed]; exact h.room)
  rw [length_load] at hdec
  refine ⟨_, _, hdec, ?_, Nat.succ_pos _⟩
  have hlt := hspells.lt
  rw [length_load, Nat.add_sub_cancel] at hlt
  rw [utf8Invalid]
  interval_cases n' <;> simp only [leadRoom] at hlt <;> omega

theorem Spells.canonical_iff (h : Spells (load m s c) v) :
    v ≤ 0x10FFFF ∧ owUtf8Seqlen v = c ↔ Canonical (m s) (m (s + 1)) := by
  obtain ⟨t, xs, hfour, ht, hxs, hload, rfl⟩ := h
  obtain rfl : c = xs.length + 1 := by simpa using congrArg List.length hload
  rw [load_succ, List.cons.injEq] at hload
  have h0 := leadOf_toNat _ t hfour ht
  rw [← hload.1] at h0
  have h1 : ∀ x ∈ xs.head?, (m (s + 1)).toNat = 0x80 + x := by
    intro x hx
    obtain ⟨ys, rfl⟩ := List.head?_eq_some_iff.1 hx
    rw [List.length_cons, load_succ, List.map_cons, List.cons.injEq] at hload
    rw [hload.2.1, tailOf_toNat (hxs x List.mem_cons_self)]
  simp only [Canonical, ne_eq, UInt8.lt_iff_toNat_lt, UInt8.le_iff_toNat_le, ← UInt8.toNat_inj]
  norm_num only [UInt8.toNat_ofNat]
  have hclass := seqlen_iff (ofDigits t xs)
  rcases xs with _ | ⟨x, _ | ⟨y, _ | ⟨z, xs⟩⟩⟩
  · simp only [leadRoom, ofDigits_nil, List.length_nil, Nat.zero_add, List.getD_cons_zero] at *
    omega
  · simp [leadRoom] at h0 h1 hxs ht hclass ⊢
    omega
  · simp [leadRoom] at h0 h1 hxs ht hclass ⊢
    omega
  · obtain rfl : xs = [] := by
      simp only [List.length_cons] at hfour
      exact List.length_eq_zero_iff.1 (by omega)
    simp [leadRoom] at h0 h1 hxs ht hclass ⊢
    omega

/-- The decoder accepts the encoder's bytes only, exactly where a complete sequence begins as a
canonical one does. -/
theorem owUtf8Decode_canonical_iff (m : Mem) (s n : Nat) {out : Nat} (hout : out ≠ 0) :
    (∀ v c, owUtf8Decode m s n = (v, c) → v ≠ utf8Invalid → 0 < c →
      v ≤ 0x10FFFF ∧ owUtf8Encode v out = load m s c) ↔
    (Complete m s n → Canonical (m s) (m (s + 1))) := by
  have hencode : ∀ v c, Spells (load m s c) v →
      (v ≤ 0x10FFFF ∧ owUtf8Encode v out = load m s c ↔ Canonical (m s) (m (s + 1))) := by
    intro v c hspells
    rw [← hspells.canonical_iff]
    refine and_congr_right fun hv => ⟨?_, ?_⟩
    · intro heq
      rw [← owUtf8Encode_length hout hv, heq, length_load]
    · intro hlen
      refine (spells_encode hout hv).unique hspells ?_
      rw [owUtf8Encode_length hout hv, hlen, length_load]
  constructor
  · intro h hcomplete
    obtain ⟨v, c, hdec, hv, hc⟩ := hcomplete.accepted
    obtain ⟨-, -, hspells⟩ := owUtf8Decode_cases hdec hv hc
    exact (hencode v c hspells).1 (h v c hdec hv hc)
  · intro h v c hdec hv hc
    obtain ⟨hs, hn, hspells⟩ := owUtf8Decode_cases hdec hv hc
    exact (hencode v c hspells).2 (h (.of_spells hs hn hspells))

theorem owUtf8Decode_canonical_iff_sample :
    (∀ v c, owUtf8Decode (store blank 16 [0xC3, 0xA9]) 16 2 = (v, c) → v ≠ utf8Invalid → 0 < c →
      v ≤ 0x10FFFF ∧ owUtf8Encode v 8 = load (store blank 16 [0xC3, 0xA9]) 16 c) ↔
    (Complete (store blank 16 [0xC3, 0xA9]) 16 2 → Canonical 0xC3 0xA9) :=
  @owUtf8Decode_canonical_iff (store blank 16 [0xC3, 0xA9]) 16 2 8 (by decide)

/-- `C0 80` is decoded to 0 and both bytes are consumed, where the encoder writes one. -/
theorem owUtf8Decode_overlong :
    ¬ ∀ (m : Mem) (s n out v c : Nat), out ≠ 0 → owUtf8Decode m s n = (v, c) → v ≠ utf8Invalid →
      0 < c → v ≤ 0x10FFFF ∧ owUtf8Encode v out = load m s c := by
  intro h
  have hbad := h (store blank 16 [0xC0, 0x80]) 16 2 8 0 2 (by decide) (by decide)
    (by decide) (by decide)
  exact absurd hbad.2 (by decide)

end Crt64
