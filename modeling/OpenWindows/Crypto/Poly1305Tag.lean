import OpenWindows.Crypto.Poly1305Lanes

/-!
# The tag of Poly1305

However a message is cut into pieces, the state after them holds the lane run
of the full blocks so far and the bytes that are left.  The tag is the lane run
of all blocks plus `s`.  It is the tag of RFC 8439 when no carry was lost and
the run ended below the modulus.  Where a carry can only be lost in the last
block, the tag is that of the RFC in no other case.
-/

namespace Crypto

open Bytes

/-! ## Keys -/

theorem and_words {x0 c0 : Nat} (x1 c1 : Nat) (hx : x0 < 2 ^ 64) (hc : c0 < 2 ^ 64) :
    (x0 + 2 ^ 64 * x1) &&& (c0 + 2 ^ 64 * c1) = (x0 &&& c0) + 2 ^ 64 * (x1 &&& c1) := by
  have hmod : ((x0 + 2 ^ 64 * x1) &&& (c0 + 2 ^ 64 * c1)) % 2 ^ 64 = x0 &&& c0 := by
    rw [Nat.and_mod_two_pow, Nat.add_mul_mod_self_left, Nat.add_mul_mod_self_left,
      Nat.mod_eq_of_lt hx, Nat.mod_eq_of_lt hc]
  have hdiv : ((x0 + 2 ^ 64 * x1) &&& (c0 + 2 ^ 64 * c1)) / 2 ^ 64 = x1 &&& c1 := by
    rw [Nat.and_div_two_pow, Nat.add_mul_div_left _ _ (by decide),
      Nat.add_mul_div_left _ _ (by decide), Nat.div_eq_of_lt hx, Nat.div_eq_of_lt hc,
      Nat.zero_add, Nat.zero_add]
  rw [← hmod, ← hdiv, Nat.mod_add_div]

theorem get64le_pair (p : List UInt8) :
    (get64le p).toNat + 2 ^ 64 * (get64le (p.drop 8)).toNat = leNum (p.take 16) := by
  rw [get64le_toNat, get64le_toNat, leNum_take_add p 8 8]
  rfl

theorem p1305Init_keyed (key : List UInt8) : (p1305Init key).Keyed (keyMultiplier key) := by
  obtain ⟨hb, -, hv⟩ := splitLanes_spec (get64le key &&& 0x0FFFFFFC0FFFFFFF)
    (get64le (key.drop 8) &&& 0x0FFFFFFC0FFFFFFC)
  have hfive : ∀ {x : UInt64}, x.toNat < 2 ^ 26 → (x * 5).toNat = 5 * x.toNat := by
    intro x hx
    rw [toNat_mul_of_lt (by
      show x.toNat * 5 < 2 ^ 64
      omega), Nat.mul_comm]
    rfl
  refine ⟨hb, ?_, hfive hb.l1, hfive hb.l2, hfive hb.l3, hfive hb.l4⟩
  show (splitLanes _ _).val = clamp (leNum (key.take 16))
  rw [hv, UInt64.toNat_and, UInt64.toNat_and, ← get64le_pair, clamp]
  exact (and_words _ 0x0FFFFFFC0FFFFFFC (get64le key).toNat_lt (by decide)).symm

/-! ## Streams -/

/-- The state after the bytes `data`. -/
structure P1305.Fed (c : P1305) (key data : List UInt8) : Prop where
  keyed : c.Keyed (keyMultiplier key)
  below : c.h.Below (2 ^ 26)
  pad0 : c.pad0 = get64le (key.drop 16)
  pad1 : c.pad1 = get64le (key.drop 24)
  run : ∃ full : List (List UInt8), (∀ b ∈ full, b.length = 16) ∧
    data = full.flatten ++ c.block ∧
    c.h.val = laneRun (keyMultiplier key) 0 (full.map blockNum)

theorem p1305Init_fed (key : List UInt8) : (p1305Init key).Fed key [] where
  keyed := p1305Init_keyed key
  below :=
    have hzero : (0 : UInt64).toNat < 2 ^ 26 := by decide
    ⟨hzero, hzero, hzero, hzero, hzero⟩
  pad0 := rfl
  pad1 := rfl
  run := ⟨[], nofun, rfl, rfl⟩

theorem laneRun_concat (r : Nat) (ms : List Nat) (m : Nat) :
    laneRun r 0 (ms ++ [m]) = absorb r (laneRun r 0 ms) m % 2 ^ 130 := by
  rw [laneRun, List.foldl_concat, laneRun]

variable {c : P1305} {key data bytes : List UInt8}

theorem P1305.Fed.block (h : c.Fed key data) (hfull : (c.block ++ bytes).length = 16) :
    (p1305Block { c with block := [], room := by decide } (c.block ++ bytes) 16).Fed key
      (data ++ bytes) := by
  obtain ⟨full, hlen, hdata, hrun⟩ := h.run
  obtain ⟨hmb, hmv⟩ := blockLanes_full hfull
  obtain ⟨hb, hv⟩ := p1305Block_spec (c := { c with block := [], room := by decide })
    (r := keyMultiplier key)
    ⟨h.keyed.below, h.keyed.val, h.keyed.s0, h.keyed.s1, h.keyed.s2, h.keyed.s3⟩ h.below hmb hmv
    (blockNum_lt hfull.le)
  refine ⟨⟨h.keyed.below, h.keyed.val, h.keyed.s0, h.keyed.s1, h.keyed.s2, h.keyed.s3⟩, hb, h.pad0,
    h.pad1, full ++ [c.block ++ bytes], ?_, ?_, ?_⟩
  · intro b hmem
    rcases List.mem_append.mp hmem with hmem | hmem
    · exact hlen b hmem
    · rw [List.mem_singleton.mp hmem, hfull]
  · show data ++ bytes = (full ++ [c.block ++ bytes]).flatten ++ []
    rw [hdata]
    simp
  · rw [hv, List.map_append, List.map_singleton, laneRun_concat, hrun]

theorem P1305.Fed.buffer (h : c.Fed key data) (hroom : (c.block ++ bytes).length < 16) :
    ({ c with block := c.block ++ bytes, room := hroom } : P1305).Fed key (data ++ bytes) := by
  obtain ⟨full, hlen, hdata, hrun⟩ := h.run
  refine ⟨⟨h.keyed.below, h.keyed.val, h.keyed.s0, h.keyed.s1, h.keyed.s2, h.keyed.s3⟩, h.below,
    h.pad0, h.pad1, full, hlen, ?_, hrun⟩
  rw [hdata, List.append_assoc]

theorem P1305.Fed.updateLoop (h : c.Fed key data)
    {n : Nat} (hn : bytes.length ≤ n) : (p1305UpdateLoop n c bytes).Fed key (data ++ bytes) := by
  induction n generalizing c data bytes with
  | zero =>
    rw [List.length_eq_zero_iff.mp (Nat.le_zero.mp hn), List.append_nil]
    exact h
  | succ n ih =>
    unfold p1305UpdateLoop
    split
    next hnil =>
      rw [hnil, List.append_nil]
      exact h
    next hne =>
      have hpos := List.length_pos_iff.mpr hne
      have hroom := c.room
      dsimp only
      set take := min bytes.length (16 - c.block.length) with htake
      have hdrop : (bytes.drop take).length ≤ n := by
        rw [List.length_drop]
        omega
      have hbytes : data ++ bytes = (data ++ bytes.take take) ++ bytes.drop take := by
        rw [List.append_assoc, List.take_append_drop]
      rw [hbytes]
      split
      next hfull => exact ih (h.block hfull) hdrop
      · exact ih (h.buffer _) hdrop

theorem P1305.Fed.update (h : c.Fed key data)
    (bytes : List UInt8) : (p1305Update c bytes).Fed key (data ++ bytes) :=
  h.updateLoop (Nat.le_refl _)

theorem P1305.Fed.pieces (h : c.Fed key data) (pieces : List (List UInt8)) :
    (pieces.foldl p1305Update c).Fed key (data ++ pieces.flatten) := by
  induction pieces generalizing c data with
  | nil => simpa using h
  | cons piece pieces ih =>
    rw [List.foldl_cons, List.flatten_cons, ← List.append_assoc]
    exact ih (h.update piece)

/-! ## Tags -/

variable {h : Lanes}

theorem subtractP_eq (hb : h.Below (2 ^ 26)) : subtractP h = h := by
  have h0 : ¬ h.l0 + 5 < h.l0 := by
    have hlt := hb.l0
    have hsum : (h.l0 + 5).toNat = h.l0.toNat + 5 := toNat_add_of_lt (by
      show h.l0.toNat + 5 < 2 ^ 64
      omega)
    rw [UInt64.lt_iff_toNat_lt, hsum]
    omega
  have hzero : ∀ x : UInt64, ¬ x + 0 < 0 := fun x => UInt64.not_lt_zero
  simp only [subtractP, if_neg h0, hzero, if_false, ne_eq, not_true_eq_false]

theorem tagLanes_words (hb : h.Below (2 ^ 26)) :
    (h.l0 ||| (h.l1 <<< 26) ||| ((h.l2 &&& 0xFFF) <<< 52)).toNat = h.val % 2 ^ 64 ∧
      ((h.l2 >>> 12) ||| (h.l3 <<< 14) ||| ((h.l4 &&& 0xFFFF) <<< 40) |||
        ((h.l4 >>> 16) <<< 56)).toNat = h.val / 2 ^ 64 % 2 ^ 64 := by
  obtain ⟨h0, h1, h2, h3, h4⟩ := hb
  have hand2 : (h.l2 &&& 0xFFF).toNat = h.l2.toNat % 2 ^ 12 := by
    rw [UInt64.toNat_and]
    exact Nat.and_two_pow_sub_one_eq_mod _ 12
  have hand4 : (h.l4 &&& 0xFFFF).toNat = h.l4.toNat % 2 ^ 16 := by
    rw [UInt64.toNat_and]
    exact Nat.and_two_pow_sub_one_eq_mod _ 16
  have hshr2 : (h.l2 >>> 12).toNat = h.l2.toNat / 2 ^ 12 :=
    toNat_shiftRight_of_eq rfl (by decide)
  -- the bits of the last lane from 130 on are shifted out
  have hshl4 : ((h.l4 >>> 16) <<< 56).toNat = h.l4.toNat / 2 ^ 16 % 2 ^ 8 * 2 ^ 56 := by
    rw [toNat_shiftLeft_of_eq (k := 56) rfl (by decide),
      toNat_shiftRight_of_eq (k := 16) rfl (by decide)]
    omega
  have e01 := toNat_or_shiftLeft (x := h.l0) (y := h.l1) (s := 26) (k := 26) rfl (by decide) h0
    (by omega)
  have e0 := toNat_or_shiftLeft (x := h.l0 ||| (h.l1 <<< 26)) (y := h.l2 &&& 0xFFF) (s := 52)
    (k := 52) rfl (by decide) (by rw [e01]; omega) (by rw [hand2]; omega)
  have e11 := toNat_or_shiftLeft (x := h.l2 >>> 12) (y := h.l3) (s := 14) (k := 14) rfl (by decide)
    (by rw [hshr2]; omega) (by omega)
  have e12 := toNat_or_shiftLeft (x := (h.l2 >>> 12) ||| (h.l3 <<< 14)) (y := h.l4 &&& 0xFFFF)
    (s := 40) (k := 40) rfl (by decide) (by rw [e11, hshr2]; omega) (by rw [hand4]; omega)
  refine ⟨?_, ?_⟩
  · rw [e0, e01, hand2, Lanes.val]
    omega
  · rw [UInt64.toNat_or, hshl4, ← Nat.shiftLeft_eq, or_shiftLeft, e12, e11, hshr2, hand4, Lanes.val]
    · omega
    · rw [e12, e11, hshr2, hand4]
      omega

theorem tagLanes_eq (hb : h.Below (2 ^ 26)) (pad0 pad1 : UInt64) :
    tagLanes h pad0 pad1 = leBytes 16 (h.val + (pad0.toNat + 2 ^ 64 * pad1.toNat)) := by
  obtain ⟨he0, he1⟩ := tagLanes_words hb
  unfold tagLanes
  dsimp only
  generalize h.l0 ||| (h.l1 <<< 26) ||| ((h.l2 &&& 0xFFF) <<< 52) = e0 at he0 ⊢
  generalize (h.l2 >>> 12) ||| (h.l3 <<< 14) ||| ((h.l4 &&& 0xFFFF) <<< 40) |||
    ((h.l4 >>> 16) <<< 56) = e1 at he1 ⊢
  have hp0 := pad0.toNat_lt
  have hp1 := pad1.toNat_lt
  have hlow : (e0 + pad0).toNat =
      (h.val + (pad0.toNat + 2 ^ 64 * pad1.toNat)) % 256 ^ 8 := by
    rw [UInt64.toNat_add, he0]
    omega
  have hcarry : (if e0 + pad0 < e0 then (1 : UInt64) else 0).toNat =
      (h.val % 2 ^ 64 + pad0.toNat) / 2 ^ 64 := by
    have hadd : (e0 + pad0).toNat = (e0.toNat + pad0.toNat) % 2 ^ 64 := UInt64.toNat_add ..
    have hlt := e0.toNat_lt
    rw [← he0]
    split
    next hc =>
      rw [UInt64.lt_iff_toNat_lt] at hc
      show 1 = _
      omega
    next hc =>
      rw [UInt64.lt_iff_toNat_lt] at hc
      show 0 = _
      omega
  have hhigh : (e1 + pad1 + if e0 + pad0 < e0 then 1 else 0).toNat =
      (h.val + (pad0.toNat + 2 ^ 64 * pad1.toNat)) / 256 ^ 8 % 256 ^ 8 := by
    rw [UInt64.toNat_add, UInt64.toNat_add, hcarry, he1]
    omega
  rw [put64le_eq, put64le_eq, hlow, hhigh, leBytes_mod, leBytes_mod, ← leBytes_add]

theorem p1305Tag_eq (key : List UInt8) (pieces : List (List UInt8)) :
    p1305Tag key pieces =
      leBytes 16 (laneRun (keyMultiplier key) 0 (blockNums pieces.flatten) +
        leNum ((key.drop 16).take 16)) := by
  have hfed := (p1305Init_fed key).pieces pieces
  rw [List.nil_append] at hfed
  unfold p1305Tag p1305Final
  generalize pieces.foldl p1305Update (p1305Init key) = c at hfed ⊢
  obtain ⟨hk, hb, hp0, hp1, full, hlen, hdata, hrun⟩ := hfed
  have hpads : c.pad0.toNat + 2 ^ 64 * c.pad1.toNat = leNum ((key.drop 16).take 16) := by
    rw [hp0, hp1, ← get64le_pair, List.drop_drop]
  have hchunks := chunks_flatten (k := 15) hlen c.room
  rw [← hdata] at hchunks
  dsimp only
  split
  next hne =>
    have hne : c.block ≠ [] := fun hnil => hne (by rw [hnil, List.length_nil])
    obtain ⟨hmb, hmv⟩ := blockLanes_part c.room
    obtain ⟨hb', hv'⟩ := p1305Block_spec hk hb hmb hmv (blockNum_lt c.room.le)
    have hpads' : (p1305Block c (c.block ++ List.replicate (16 - c.block.length) 0)
          c.block.length).pad0.toNat + 2 ^ 64 * (p1305Block c
          (c.block ++ List.replicate (16 - c.block.length) 0) c.block.length).pad1.toNat =
        leNum ((key.drop 16).take 16) := hpads
    rw [subtractP_eq hb', tagLanes_eq hb', hpads', hv', hrun, ← laneRun_concat, blockNums, hchunks,
      if_neg hne, List.map_append, List.map_singleton]
  next hnil =>
    have hnil : c.block = [] := List.length_eq_zero_iff.mp (not_not.mp hnil)
    rw [subtractP_eq hb, tagLanes_eq hb, hrun, hpads, blockNums, hchunks, if_pos hnil,
      List.append_nil]

/-! ## RFC 8439 -/

theorem keyMultiplier_lt (key : List UInt8) : keyMultiplier key < 2 ^ 130 := by
  have hle : keyMultiplier key ≤ 0x0FFFFFFC0FFFFFFC0FFFFFFC0FFFFFFF := Nat.and_le_right
  omega

theorem blockNums_lt (msg : List UInt8) : ∀ m ∈ blockNums msg, m < 2 ^ 129 := by
  intro m hm
  obtain ⟨b, hb, rfl⟩ := List.mem_map.mp hm
  exact blockNum_lt (length_le_of_mem_chunks hb)

theorem leBytes_16 (x : Nat) : leBytes 16 (x % 2 ^ 128) = leBytes 16 x := leBytes_mod 16 x

/-- `owcrypt_poly1305` returns the tag of RFC 8439, however the message is cut,
when no carry is lost and the run ends below the modulus.  When no block but the
last can lose a carry, it returns that tag in no other case. -/
theorem owcryptPoly1305_correct (key msg : List UInt8) :
    (Reduces (keyMultiplier key) (blockNums msg) →
      owcryptPoly1305 key msg = rfc8439Tag key msg ∧
        ∀ pieces : List (List UInt8), pieces.flatten = msg →
          p1305Tag key pieces = rfc8439Tag key msg) ∧
    (Carried (keyMultiplier key) 0 (blockNums msg).dropLast →
      owcryptPoly1305 key msg = rfc8439Tag key msg →
        Reduces (keyMultiplier key) (blockNums msg)) := by
  have hr := keyMultiplier_lt key
  have hms := blockNums_lt msg
  have hone : owcryptPoly1305 key msg = p1305Tag key [msg] := rfl
  have hsingle : [msg].flatten = msg := by simp
  constructor
  · intro hred
    have htag : ∀ pieces : List (List UInt8), pieces.flatten = msg →
        p1305Tag key pieces = rfc8439Tag key msg := by
      intro pieces hp
      rw [p1305Tag_eq, hp, hred.laneRun_eq hr hms, rfc8439Tag, leBytes_16]
    exact ⟨hone.trans (htag [msg] hsingle), htag⟩
  · intro hc htag
    rw [hone, p1305Tag_eq, hsingle, rfc8439Tag, leBytes_16] at htag
    have hmod := leBytes_inj htag
    refine reduces_of_laneRun_eq hr hms hc ?_
    exact Nat.ModEq.add_right_cancel' _ hmod

/-- The multiplier 4 and a block of ones. -/
theorem owcryptPoly1305_lost_carry :
    owcryptPoly1305 (4 :: List.replicate 31 0) (List.replicate 16 0xFF) ≠
      rfc8439Tag (4 :: List.replicate 31 0) (List.replicate 16 0xFF) := by
  have hchunks : chunks 15 ([List.replicate 16 (0xFF : UInt8)].flatten ++ []) = _ :=
    chunks_flatten (by decide) (by decide)
  have hblocks : blockNums (List.replicate 16 0xFF) = [2 ^ 129 - 1] := by
    rw [blockNums, show List.replicate 16 (0xFF : UInt8) =
      [List.replicate 16 (0xFF : UInt8)].flatten ++ [] by decide, hchunks]
    decide
  rw [rfc8439Tag, hblocks]
  decide

end Crypto
