import OpenWindows.Crt64.Utf8
import OpenWindows.Owjson.Parser
import OpenWindows.Owxml.Entity

/-!
# The translation of `unitrans.h`

UTF-8 to codepoints and back.  The decoder takes as many bytes as a first byte announces
and looks at no continuation byte; both loops end in one return for several reasons.
-/

namespace Unitrans

open Utf8 Sutf8

/-- The results of `unitrans.h`. -/
inductive Status where
  | ok
  | invalidUtf8
  | bufferFull
  | trapRange
  deriving DecidableEq

/-- How many bytes follow a first byte, and its bits. -/
def utf8Lead (b0 : UInt8) : Option (Nat × Nat) :=
  if b0 &&& 0x80 = 0x00 then some (0, b0.toNat)
  else if b0 &&& 0xE0 = 0xC0 then some (1, (b0 &&& 0x1F).toNat)
  else if b0 &&& 0xF0 = 0xE0 then some (2, (b0 &&& 0x0F).toNat)
  else if b0 &&& 0xF8 = 0xF0 then some (3, (b0 &&& 0x07).toNat)
  else none

/-- The codepoint of the bits of a first byte and the bytes behind it. -/
def codepoint (top : Nat) (seq : List UInt8) : Nat :=
  seq.foldl (fun cp b => cp <<< 6 ||| (b &&& 0x3F).toNat) top

/-- What a translation gives: its status, what it stored, and the input that is left. -/
structure Translated where
  status : Status
  out : List Nat
  rest : List UInt8

/-- `unitrans_utf8_to_sucs`, on a buffer with room for so many codepoints. -/
def utf8ToSucs : Nat → List UInt8 → Translated
  | 0, bs => ⟨.bufferFull, [], bs⟩
  | _ + 1, [] => ⟨.ok, [], []⟩
  | max + 1, b0 :: bs =>
    match utf8Lead b0 with
    | none => ⟨.invalidUtf8, [], b0 :: bs⟩
    | some (n, top) =>
      if bs.length < n then ⟨.ok, [], b0 :: bs⟩
      else if 0x7FFFFFF0 ≤ codepoint top (bs.take n) ∧ codepoint top (bs.take n) ≤ 0x7FFFFFFE then
        ⟨.trapRange, [], b0 :: bs⟩
      else
        let t := utf8ToSucs max (bs.drop n)
        { t with out := codepoint top (bs.take n) :: t.out }

/-- The loop of `unitrans_sucs_to_sutf8`, on a buffer of `max` bytes with `out` in it. -/
def sucsToSutf8Loop (max : Nat) (out : List UInt8) : List Nat → List UInt8
  | [] => out
  | cp :: cps =>
    if 0x10FFFF < cp then sucsToSutf8Loop max out cps
    else if max < out.length + (layout cp).length then out
    else sucsToSutf8Loop max (out ++ layout cp) cps

/-- `unitrans_sucs_to_sutf8`. -/
def sucsToSutf8 (max : Nat) (cps : List Nat) : Status × List UInt8 :=
  (.ok, sucsToSutf8Loop max [] cps)

/-! ## What is promised -/

/-- The bytes are the encoding of the codepoints. -/
def Encodes (bs : List UInt8) (cps : List Nat) : Prop :=
  bs = cps.flatMap layout ∧ ∀ cp ∈ cps, cp ≤ 0x10FFFF

/-- What is left behind so many sequences, as their first bytes announce them. -/
def after : Nat → List UInt8 → Option (List UInt8)
  | 0, bs => some bs
  | _ + 1, [] => none
  | n + 1, b0 :: bs =>
    (utf8Lead b0).bind fun l => if bs.length < l.1 then none else after n (bs.drop l.1)

def Cut : List UInt8 → Prop
  | [] => False
  | b0 :: bs => ∃ l ∈ utf8Lead b0, bs.length < l.1

variable {top cp : Nat} {b0 : UInt8} {cps : List Nat}

theorem codepoint_lt {k : Nat} (htop : top < k) (seq : List UInt8) :
    codepoint top seq < k * 64 ^ seq.length := by
  induction seq generalizing top k with
  | nil =>
    rw [List.length_nil, Nat.pow_zero, Nat.mul_one]
    exact htop
  | cons b seq ih =>
    have hb := tail_lt b
    have hstep : top <<< 6 ||| (b &&& 0x3F).toNat < k * 64 := by
      rw [shift_or top hb]
      omega
    have hrest := ih hstep
    rwa [Nat.mul_assoc, ← Nat.pow_succ'] at hrest

set_option maxRecDepth 8000 in
theorem utf8Lead_room {n : Nat} (h : utf8Lead b0 = some (n, top)) :
    (top + 1) * 64 ^ n ≤ 2 ^ 21 := by
  have table : ∀ i : Fin 256, ∀ r ∈ utf8Lead (UInt8.ofNat i), (r.2 + 1) * 64 ^ r.1 ≤ 2 ^ 21 := by
    decide
  exact of_forall_byte (p := fun b => ∀ r ∈ utf8Lead b, (r.2 + 1) * 64 ^ r.1 ≤ 2 ^ 21) table b0 _ h

theorem codepoint_take_lt {n : Nat} (h : utf8Lead b0 = some (n, top))
    {bs : List UInt8} (hlen : ¬ bs.length < n) : codepoint top (bs.take n) < 2 ^ 21 := by
  have hlt := codepoint_lt (Nat.lt_succ_self top) (bs.take n)
  rw [List.length_take_of_le (Nat.le_of_not_lt hlen)] at hlt
  exact Nat.lt_of_lt_of_le hlt (utf8Lead_room h)

theorem utf8ToSucs_cons {n : Nat} (h : utf8Lead b0 = some (n, top))
    {bs : List UInt8} (hlen : ¬ bs.length < n) (max : Nat) :
    utf8ToSucs (max + 1) (b0 :: bs) = { utf8ToSucs max (bs.drop n) with
      out := codepoint top (bs.take n) :: (utf8ToSucs max (bs.drop n)).out } := by
  have hlt := codepoint_take_lt h hlen
  simp only [utf8ToSucs, h]
  rw [if_neg hlen, if_neg (by omega)]

/-! ## Encodings -/

theorem layout_read (h : cp ≤ 0x10FFFF) :
    ∃ b0 seq top, layout cp = b0 :: seq ∧ utf8Lead b0 = some (seq.length, top) ∧
      codepoint top seq = cp := by
  have tails : ∀ x < 64, (UInt8.ofNat (x + 0x80) &&& 0x3F).toNat = x := by decide
  have leads1 : ∀ x < 128, utf8Lead (UInt8.ofNat x) = some (0, x) := by decide
  have leads2 : ∀ x < 32, utf8Lead (UInt8.ofNat (x + 0xC0)) = some (1, x) := by decide
  have leads3 : ∀ x < 16, utf8Lead (UInt8.ofNat (x + 0xE0)) = some (2, x) := by decide
  have leads4 : ∀ x < 8, utf8Lead (UInt8.ofNat (x + 0xF0)) = some (3, x) := by decide
  have step (top x : Nat) : top <<< 6 ||| (UInt8.ofNat (x % 64 + 0x80) &&& 0x3F).toNat =
      top * 64 + x % 64 := by
    rw [tails _ (Nat.mod_lt x (by decide)), shift_or top (Nat.mod_lt x (by decide))]
  unfold layout
  split
  next h1 => exact ⟨_, [], cp, rfl, leads1 cp h1, rfl⟩
  next h1 =>
    split
    next h2 =>
      rw [lead2_eq h2, tail_eq]
      refine ⟨_, _, _, rfl, leads2 _ (Nat.mod_lt _ (by decide)), ?_⟩
      simp only [codepoint, List.foldl_cons, List.foldl_nil, step]
      omega
    next h2 =>
      split
      next h3 =>
        rw [lead3_eq h3, tail_eq, tail_eq]
        refine ⟨_, _, _, rfl, leads3 _ (Nat.mod_lt _ (by decide)), ?_⟩
        simp only [codepoint, List.foldl_cons, List.foldl_nil, step, Nat.shiftRight_eq_div_pow]
        omega
      next h3 =>
        rw [lead4_eq (by omega), tail_eq, tail_eq, tail_eq]
        refine ⟨_, _, _, rfl, leads4 _ (Nat.mod_lt _ (by decide)), ?_⟩
        simp only [codepoint, List.foldl_cons, List.foldl_nil, step, Nat.shiftRight_eq_div_pow]
        omega

/-- The decoder reads a codepoint of an encoding. -/
theorem utf8ToSucs_layout (h : cp ≤ 0x10FFFF) (max : Nat) (bs : List UInt8) :
    utf8ToSucs (max + 1) (layout cp ++ bs) =
      { utf8ToSucs max bs with out := cp :: (utf8ToSucs max bs).out } := by
  obtain ⟨b0, seq, top, heq, hlead, rfl⟩ := layout_read h
  have hlen : ¬ (seq ++ bs).length < seq.length := by simp
  rw [heq, List.cons_append, utf8ToSucs_cons hlead hlen, List.take_left, List.drop_left]

theorem utf8ToSucs_encoding (h : ∀ cp ∈ cps, cp ≤ 0x10FFFF) (max : Nat) :
    utf8ToSucs max (cps.flatMap layout) =
      ⟨if cps.length < max then .ok else .bufferFull, cps.take max,
        (cps.drop max).flatMap layout⟩ := by
  induction cps generalizing max with
  | nil => cases max <;> rfl
  | cons cp cps ih =>
    cases max with
    | zero => rfl
    | succ max =>
      rw [List.flatMap_cons, utf8ToSucs_layout (h cp List.mem_cons_self),
        ih fun c hc => h c (List.mem_cons_of_mem _ hc)]
      simp

theorem Encodes.read {bs : List UInt8} (h : Encodes bs cps) {max : Nat}
    (hmax : cps.length < max) : (utf8ToSucs max bs).out = cps ∧ (utf8ToSucs max bs).rest = [] := by
  rw [h.1, utf8ToSucs_encoding h.2]
  refine ⟨List.take_of_length_le (Nat.le_of_lt hmax), ?_⟩
  dsimp only
  rw [List.drop_eq_nil_of_le (Nat.le_of_lt hmax), List.flatMap_nil]

/-! ## Where the decoder stops -/

variable {bs rest : List UInt8} {max n k : Nat}

theorem after_add (n k : Nat) (bs : List UInt8) : after (n + k) bs = (after n bs).bind (after k) := by
  induction n generalizing bs with
  | zero => rw [Nat.zero_add]; rfl
  | succ n ih =>
    rw [Nat.add_right_comm]
    cases bs with
    | nil => rfl
    | cons b0 bs =>
      simp only [after]
      cases utf8Lead b0 with
      | none => rfl
      | some l =>
        simp only [Option.bind_some]
        split
        · rfl
        · exact ih _

theorem after_one (h : (after 1 rest).isSome) : rest ≠ [] ∧ ¬ Cut rest := by
  cases rest with
  | nil => cases h
  | cons b0 bs =>
    refine ⟨nofun, ?_⟩
    rintro ⟨l, hl, hlt⟩
    simp only [after, Option.mem_def.mp hl, Option.bind_some, if_pos hlt] at h
    cases h

/-- Where and why a translation stops. -/
structure Stops (bs : List UInt8) (max n : Nat) (rest : List UInt8) : Prop where
  reach : after n bs = some rest
  length : (utf8ToSucs max bs).out.length = n
  left : (utf8ToSucs max bs).rest = rest
  why : (n = max ∧ (utf8ToSucs max bs).status = .bufferFull) ∨
    (n < max ∧ after 1 rest = none ∧
      (((utf8ToSucs max bs).status = .ok ∧ (rest = [] ∨ Cut rest)) ∨
        ((utf8ToSucs max bs).status = .invalidUtf8 ∧ rest ≠ [] ∧ ¬ Cut rest)))

theorem Stops.before (h : Stops bs max k rest) {r : List UInt8} (hr : after n bs = some r)
    (hn : n < k) : r ≠ [] ∧ ¬ Cut r := by
  obtain ⟨d, rfl⟩ : ∃ d, k = n + (1 + d) := ⟨k - n - 1, by omega⟩
  have hk := h.reach
  rw [after_add, hr, Option.bind_some, after_add, Option.bind_eq_some_iff] at hk
  obtain ⟨s, hs, -⟩ := hk
  exact after_one (by rw [hs]; rfl)

/-- And nothing is behind it. -/
theorem Stops.behind (h : Stops bs max k rest) (hnone : after 1 rest = none) (hn : k < n) :
    after n bs = none := by
  obtain ⟨d, rfl⟩ : ∃ d, n = k + (1 + d) := ⟨n - k - 1, by omega⟩
  rw [after_add, h.reach, Option.bind_some, after_add, hnone, Option.bind_none]

theorem sucsToSutf8Loop_encodes (h : ∀ cp ∈ cps, cp ≤ 0x10FFFF)
    {out : List UInt8} (hfits : (out ++ cps.flatMap layout).length ≤ max) :
    sucsToSutf8Loop max out cps = out ++ cps.flatMap layout := by
  induction cps generalizing out with
  | nil => simp [sucsToSutf8Loop]
  | cons cp cps ih =>
    rw [List.flatMap_cons, ← List.append_assoc] at hfits ⊢
    have hroom : ¬ max < out.length + (layout cp).length := by
      rw [List.length_append, List.length_append] at hfits
      omega
    rw [sucsToSutf8Loop, if_neg (Nat.not_lt.mpr (h cp List.mem_cons_self)), if_neg hroom]
    exact ih (fun c hc => h c (List.mem_cons_of_mem _ hc)) hfits

theorem owUtf8Encode_layout {out : Nat} (hout : out ≠ 0) (h : cp ≤ 0x10FFFF) :
    Crt64.owUtf8Encode cp out = layout cp := by
  unfold Crt64.owUtf8Encode layout
  rw [if_neg (by omega)]
  simp only [Nat.lt_succ_iff]

/-- The four encoders give the same bytes, and both decoders read them back. -/
theorem encoders_agree {cps : List Nat} (h : ∀ cp ∈ cps, cp ≤ 0x10FFFF) {out max : Nat}
    (hout : out ≠ 0) (hmax : cps.length < max) :
    cps.flatMap Owjson.utf8Bytes = Crt64.encodeAll out cps ∧
      (cps.flatMap fun cp => Owxml.xmlEncodeUtf8 (UInt32.ofNat cp)) = Crt64.encodeAll out cps ∧
      sucsToSutf8 (Crt64.encodeAll out cps).length cps = (.ok, Crt64.encodeAll out cps) ∧
      utf8ToSucs max (Crt64.encodeAll out cps) = ⟨.ok, cps, []⟩ ∧
      ∀ m s, s ≠ 0 →
        Memory.load m s (Crt64.encodeAll out cps).length = Crt64.encodeAll out cps →
        Crt64.decodeAll m (Crt64.encodeAll out cps).length s (Crt64.encodeAll out cps).length =
          some cps := by
  have htext : Crt64.encodeAll out cps = cps.flatMap layout :=
    List.flatMap_congr fun cp hcp => owUtf8Encode_layout hout (h cp hcp)
  refine ⟨htext.symm, ?_, ?_, ?_, fun m s hs hload => ?_⟩
  · rw [htext]
    refine List.flatMap_congr fun cp hcp => ?_
    have hnat : (UInt32.ofNat cp).toNat = cp :=
      UInt32.toNat_ofNat_of_lt' (Nat.lt_of_le_of_lt (h cp hcp) (by decide))
    rw [Owxml.xmlEncodeUtf8, hnat]
  · rw [htext]
    exact congrArg (Prod.mk _) (sucsToSutf8Loop_encodes h (Nat.le_refl _))
  · rw [htext, utf8ToSucs_encoding h, if_pos hmax, List.take_of_length_le (Nat.le_of_lt hmax),
      List.drop_eq_nil_of_le (Nat.le_of_lt hmax), List.flatMap_nil]
  · exact Crt64.decodeAll_encodeAll hout h hs hload (Nat.le_refl _)

theorem encoders_agree_mixed :
    let cps := [0x41, 0x20AC, 0x1F600]
    let text : List UInt8 := [0x41, 0xE2, 0x82, 0xAC, 0xF0, 0x9F, 0x98, 0x80]
    cps.flatMap Owjson.utf8Bytes = text ∧
      (cps.flatMap fun cp => Owxml.xmlEncodeUtf8 (UInt32.ofNat cp)) = text ∧
      sucsToSutf8 8 cps = (.ok, text) ∧ utf8ToSucs 4 text = ⟨.ok, cps, []⟩ ∧
      Crt64.decodeAll (Memory.store (fun _ => 0) 16 text) 8 16 8 = some cps := by
  intro cps text
  have htext : Crt64.encodeAll 1 cps = text := by decide
  obtain ⟨hjson, hxml, hstream, hback, hall⟩ :=
    @encoders_agree cps (by decide) 1 4 (by decide) (by decide)
  rw [htext] at hjson hxml hstream hback hall
  exact ⟨hjson, hxml, hstream, hback, hall _ 16 (by decide) (Memory.load_store_self _ _ _)⟩

end Unitrans
