import Mathlib.Tactic.Ring
import OpenWindows.Lib.Backref

/-!
# The OWZIP1 codec

The LZSS codec of `owzip64.c`.  The writer packs the tokens in groups of up to eight
behind a control byte whose bits tell literals from matches.  The compressor takes the
longest match of the window at each position, and the decompressor reads groups until the
input is used up.  Sizes are numbers without a bound: no object in memory reaches 2^64.
-/

namespace Owzip

/-- `OWZIP_WINDOW_SIZE`. -/
def windowSize : Nat := 4096

/-- `OWZIP_MIN_MATCH`. -/
def minMatch : Nat := 3

/-- `OWZIP_MAX_MATCH`. -/
def maxMatch : Nat := 18

/-! ## The writer -/

/-- `ow_zip_writer_t`; `len` is the number of bytes of `out` written so far. -/
structure Writer where
  out : List UInt8
  cap : Nat
  flagIndex : Nat
  nflags : Nat
  overflow : Bool
deriving DecidableEq, Repr

/-- `ow_zip_writer_init`. -/
def writerInit (cap : Nat) : Writer := ⟨[], cap, 0, 0, false⟩

/-- The first part of `ow_zip_writer_token`: a control byte in front of each group. -/
def writerControl (w : Writer) : Writer :=
  if w.nflags = 0 then
    if w.out.length ≥ w.cap then { w with overflow := true }
    else { w with flagIndex := w.out.length, out := w.out ++ [0x00] }
  else w

/-- The second part of `ow_zip_writer_token`: the bytes of the token. -/
def writerPut (w : Writer) (literal : Bool) (word : Nat) : Writer :=
  if literal then
    if w.out.length ≥ w.cap then { w with overflow := true }
    else
      { w with
        out := w.out.modify w.flagIndex (· ||| UInt8.ofNat (1 <<< w.nflags)) ++ [UInt8.ofNat word]
        nflags := (w.nflags + 1) &&& 7 }
  else
    if w.out.length + 2 > w.cap then { w with overflow := true }
    else
      { w with
        out := w.out ++ [UInt8.ofNat (word &&& 0xFF), UInt8.ofNat ((word >>> 8) &&& 0xFF)]
        nflags := (w.nflags + 1) &&& 7 }

/-- `ow_zip_writer_token`. -/
def writerToken (w : Writer) (literal : Bool) (word : Nat) : Writer :=
  if w.overflow then w
  else
    let w' := writerControl w
    if w'.overflow then w' else writerPut w' literal word

/-! ## The search -/

/-- The inner loop of `ow_zip_find_match`: `left` is `max_len - l`. -/
def matchLoop (src : List UInt8) (j pos : Nat) : Nat → Nat → Nat
  | 0, l => l
  | left + 1, l =>
    if src.getD (j + l) 0 = src.getD (pos + l) 0 then matchLoop src j pos left (l + 1) else l

/-- The outer loop of `ow_zip_find_match` over the `left` places before `pos`: the best
length and distance. -/
def searchLoop (src : List UInt8) (pos maxLen : Nat) : Nat → Nat × Nat → Nat × Nat
  | 0, best => best
  | left + 1, best =>
    let j := pos - (left + 1)
    let l := matchLoop src j pos maxLen 0
    if l > best.1 then
      if l = maxLen then (l, pos - j) else searchLoop src pos maxLen left (l, pos - j)
    else searchLoop src pos maxLen left best

/-- `ow_zip_find_match`: the length, 0 if there is no match, and the distance. -/
def findMatch (src : List UInt8) (pos : Nat) : Nat × Nat :=
  if pos < 1 ∨ pos ≥ src.length then (0, 0)
  else
    let maxLen := if src.length - pos > maxMatch then maxMatch else src.length - pos
    if maxLen < minMatch then (0, 0)
    else
      let windowStart := if pos > windowSize then pos - windowSize else 0
      let best := searchLoop src pos maxLen (pos - windowStart) (0, 0)
      if best.1 < minMatch then (0, 0) else best

/-! ## Compression -/

def matchWord (dist mlen : Nat) : Nat := (((dist - 1) &&& 0x0FFF) ||| ((mlen - 3) <<< 12)) % 2 ^ 16

/-- The loop of `owzip_compress`.  Each round takes a byte at least, so there are no more
rounds than bytes. -/
def compressLoop (src : List UInt8) : Nat → Nat → Writer → Option Writer
  | 0, _, w => some w
  | rounds + 1, pos, w =>
    if pos < src.length then
      let (mlen, dist) := findMatch src pos
      if mlen ≥ minMatch ∧ dist ≥ 1 then
        let w' := writerToken w false (matchWord dist mlen)
        if w'.overflow then none else compressLoop src rounds (pos + mlen) w'
      else
        let w' := writerToken w true (src.getD pos 0).toNat
        if w'.overflow then none else compressLoop src rounds (pos + 1) w'
    else some w

/-- `owzip_compress`: the bytes written, or none for false. -/
def compress (src : List UInt8) (dstCap : Nat) : Option (List UInt8) :=
  (compressLoop src src.length 0 (writerInit dstCap)).map Writer.out

/-! ## Decompression -/

/-- The loop over the bits of a control byte, from number `bit` on: the input that is left and
the output. -/
def bitLoop (dstCap : Nat) (flags : UInt8) :
    Nat → Nat → List UInt8 → List UInt8 → Option (List UInt8 × List UInt8)
  | 0, _, input, out => some (input, out)
  | _ + 1, _, [], out => some ([], out)
  | left + 1, bit, b :: input, out =>
    if (flags.toNat >>> bit) &&& 1 ≠ 0 then
      if out.length ≥ dstCap then none
      else bitLoop dstCap flags left (bit + 1) input (out ++ [b])
    else
      match input with
      | [] => none
      | b' :: input' =>
        let v := b.toNat ||| (b'.toNat <<< 8)
        let off := (v &&& 0x0FFF) + 1
        let len := ((v >>> 12) &&& 0x0F) + minMatch
        if off > out.length then none
        else if out.length + len > dstCap then none
        else bitLoop dstCap flags left (bit + 1) input' (Backref.copyBack off len out)

def groupLoop (dstCap : Nat) : Nat → List UInt8 → List UInt8 → Option (List UInt8)
  | _, [], out => some out
  | 0, _ :: _, _ => none
  | groups + 1, flags :: input, out =>
    match bitLoop dstCap flags 8 0 input out with
    | none => none
    | some (input', out') => groupLoop dstCap groups input' out'

/-- `owzip_decompress`: the bytes written, or none for false. -/
def decompress (src : List UInt8) (dstCap : Nat) : Option (List UInt8) :=
  groupLoop dstCap src.length src []

/-! ## The OWZIP1 stream

`stream` is the grammar of the header comment: groups of eight tokens behind their control
byte.  The compressor writes the stream of a factorisation of its input
(`compress_stream`), the decompressor expands the tokens of a stream
(`decompress_stream`), and the two meet in the round trip.
-/

section

open Backref

/-! ### The grammar -/

/-- The bit of a token in its control byte. -/
def flagBit : Token UInt8 → Nat
  | .literal _ => 1
  | .copy _ _ => 0

/-- The control bits of a group, the first token in the lowest bit. -/
def flagBits : List (Token UInt8) → Nat
  | [] => 0
  | t :: ts => flagBit t + 2 * flagBits ts

def tokenBytes : Token UInt8 → List UInt8
  | .literal x => [x]
  | .copy dist mlen =>
    [UInt8.ofNat (matchWord dist mlen &&& 0xFF), UInt8.ofNat ((matchWord dist mlen >>> 8) &&& 0xFF)]

def groupBytes (ts : List (Token UInt8)) : List UInt8 :=
  UInt8.ofNat (flagBits ts) :: ts.flatMap tokenBytes

def stream : List (Token UInt8) → List UInt8
  | [] => []
  | t :: ts => groupBytes ((t :: ts).take 8) ++ stream ((t :: ts).drop 8)
termination_by ts => ts.length

/-- The distances and lengths that fit in a match word. -/
def Encodable : Token UInt8 → Prop
  | .literal _ => True
  | .copy dist mlen => 1 ≤ dist ∧ dist ≤ windowSize ∧ minMatch ≤ mlen ∧ mlen ≤ maxMatch

theorem flagBit_le (t : Token UInt8) : flagBit t ≤ 1 := by
  cases t <;> simp [flagBit]

theorem flagBits_lt (ts : List (Token UInt8)) : flagBits ts < 2 ^ ts.length := by
  induction ts with
  | nil => decide
  | cons t ts ih =>
    have := flagBit_le t
    rw [flagBits, List.length_cons, Nat.pow_succ]
    omega

theorem flagBits_snoc (ts : List (Token UInt8)) (t : Token UInt8) :
    flagBits (ts ++ [t]) = flagBits ts + flagBit t * 2 ^ ts.length := by
  induction ts with
  | nil => simp [flagBits]
  | cons u ts ih =>
    rw [List.cons_append, flagBits, ih, flagBits, List.length_cons, Nat.pow_succ]
    ring

theorem stream_nil : stream [] = [] := by rw [stream]

theorem stream_of_ne_nil (ts : List (Token UInt8)) (h : ts ≠ []) :
    stream ts = groupBytes (ts.take 8) ++ stream (ts.drop 8) := by
  cases ts with
  | nil => exact absurd rfl h
  | cons t ts => rw [stream]

theorem stream_short (ts : List (Token UInt8)) (h : ts ≠ []) (h8 : ts.length ≤ 8) :
    stream ts = groupBytes ts := by
  rw [stream_of_ne_nil ts h, List.take_of_length_le h8, List.drop_of_length_le h8, stream_nil,
    List.append_nil]

variable {n : Nat}

theorem stream_append {ts us : List (Token UInt8)} (h : ts.length = 8 * n) :
    stream (ts ++ us) = stream ts ++ stream us := by
  induction n generalizing ts with
  | zero =>
    rw [List.eq_nil_of_length_eq_zero h, stream_nil]
    rfl
  | succ n ih =>
    have hne : ts ≠ [] := by
      rintro rfl
      simp at h
    have h8 : 8 ≤ ts.length := by omega
    rw [stream_of_ne_nil (ts ++ us) (by simp [hne]), stream_of_ne_nil ts hne,
      List.take_append_of_le_length h8, List.drop_append_of_le_length h8,
      ih (by rw [List.length_drop]; omega), List.append_assoc]

theorem length_stream (ts : List (Token UInt8)) :
    (stream ts).length = (ts.flatMap tokenBytes).length + (ts.length + 7) / 8 := by
  induction ts using stream.induct with
  | case1 => rw [stream_nil]; rfl
  | case2 t ts ih =>
    have hsplit : (((t :: ts).take 8).flatMap tokenBytes).length +
        (((t :: ts).drop 8).flatMap tokenBytes).length = ((t :: ts).flatMap tokenBytes).length := by
      rw [← List.length_append, ← List.flatMap_append, List.take_append_drop]
    rw [stream_of_ne_nil _ (List.cons_ne_nil t ts), List.length_append, ih, groupBytes,
      List.length_cons, ← hsplit, List.length_drop]
    have : 0 < (t :: ts).length := by simp
    omega

/-! ### The writer -/

/-- `ow_zip_writer_token` with the arguments for a token. -/
def writeToken (w : Writer) : Token UInt8 → Writer
  | .literal x => writerToken w true x.toNat
  | .copy dist mlen => writerToken w false (matchWord dist mlen)

/-- The writer has written the stream of the tokens; the last group is `cur`. -/
structure Written (w : Writer) (ts : List (Token UInt8)) : Prop where
  out : w.out = stream ts
  fits : w.overflow = false
  group : ∃ full cur n, ts = full ++ cur ∧ full.length = 8 * n ∧ cur.length = w.nflags ∧
    w.nflags < 8 ∧ (cur ≠ [] → w.flagIndex = (stream full).length)

theorem Written.init (cap : Nat) : Written (writerInit cap) [] where
  out := stream_nil.symm
  fits := rfl
  group := ⟨[], [], 0, rfl, rfl, rfl, Nat.zero_lt_succ 7, fun h => absurd rfl h⟩

theorem modify_middle (as bs : List UInt8) (b : UInt8) (f : UInt8 → UInt8) :
    (as ++ b :: bs).modify as.length f = as ++ f b :: bs := by
  induction as with
  | nil => rfl
  | cons a as ih => rw [List.cons_append, List.length_cons, List.modify_succ_cons, ih]; rfl

theorem flags_literal (cur : List (Token UInt8)) (x : UInt8) :
    UInt8.ofNat (flagBits cur) ||| UInt8.ofNat (1 <<< cur.length) =
      UInt8.ofNat (flagBits (cur ++ [.literal x])) := by
  rw [← UInt8.ofNat_or, Nat.or_comm, ← Nat.shiftLeft_add_eq_or_of_lt (flagBits_lt cur),
    flagBits_snoc, Nat.shiftLeft_eq, flagBit, Nat.add_comm]

/-- A control byte is open: the writer stands behind the tokens of a group of less than eight. -/
structure Opened (w : Writer) (full cur : List (Token UInt8)) : Prop where
  out : w.out = stream full ++ groupBytes cur
  index : w.flagIndex = (stream full).length
  nflags : w.nflags = cur.length
  fits : w.overflow = false

variable {full cur : List (Token UInt8)} {w : Writer} {ts : List (Token UInt8)}

theorem writerControl_opens
    (hw : w.out = stream (full ++ cur)) (hf : w.overflow = false) (hfull : full.length = 8 * n)
    (hcur : cur.length = w.nflags) (h8 : w.nflags < 8)
    (hi : cur ≠ [] → w.flagIndex = (stream full).length) :
    ((writerControl w).overflow = true ∧ cur = [] ∧ w.cap ≤ w.out.length) ∨
      (Opened (writerControl w) full cur ∧ (writerControl w).cap = w.cap) := by
  rw [stream_append hfull] at hw
  cases cur with
  | nil =>
    have h0 : w.nflags = 0 := hcur.symm
    rw [stream_nil, List.append_nil] at hw
    simp only [writerControl, h0, if_true]
    split
    next hroom => exact .inl ⟨rfl, trivial, hroom⟩
    · exact .inr ⟨⟨by rw [hw]; rfl, by rw [hw], rfl, hf⟩, rfl⟩
  | cons t ts =>
    have h0 : w.nflags ≠ 0 := by
      rw [← hcur]
      simp
    have hshort := stream_short _ (List.cons_ne_nil t ts) (by omega)
    simp only [writerControl, h0, if_false]
    exact .inr ⟨⟨by rw [hw, hshort], hi (List.cons_ne_nil t ts), hcur.symm, hf⟩, trivial⟩

/-- `writerPut` with the arguments for a token. -/
def putToken (w : Writer) : Token UInt8 → Writer
  | .literal x => writerPut w true x.toNat
  | .copy dist mlen => writerPut w false (matchWord dist mlen)

theorem writeToken_eq (h : w.overflow = false) (t : Token UInt8) : writeToken w t =
      if (writerControl w).overflow then writerControl w else putToken (writerControl w) t := by
  cases t <;> simp only [writeToken, writerToken, h, Bool.false_eq_true, if_false, putToken]

theorem putToken_cases (h : Opened w full cur) (t : Token UInt8) :
    ((putToken w t).overflow = true ∧ w.cap < w.out.length + (tokenBytes t).length) ∨
      ((putToken w t).out = stream full ++ groupBytes (cur ++ [t]) ∧
        (putToken w t).flagIndex = w.flagIndex ∧ (putToken w t).nflags = (cur.length + 1) &&& 7 ∧
        (putToken w t).overflow = false ∧ (putToken w t).cap = w.cap) := by
  cases t with
  | literal x =>
    simp only [putToken, writerPut, if_true]
    split
    next hroom => exact .inl ⟨rfl, Nat.lt_succ_of_le hroom⟩
    · refine .inr ⟨?_, rfl, by rw [h.nflags], h.fits, rfl⟩
      have hflags := flags_literal cur x
      simp only [h.out, h.index, h.nflags, groupBytes, modify_middle, UInt8.ofNat_toNat, hflags]
      simp [tokenBytes]
  | copy dist mlen =>
    simp only [putToken, writerPut, Bool.false_eq_true, if_false]
    split
    next hroom => exact .inl ⟨rfl, hroom⟩
    · refine .inr ⟨?_, rfl, by rw [h.nflags], h.fits, rfl⟩
      simp only [h.out, groupBytes, flagBits_snoc, flagBit, Nat.zero_mul, Nat.add_zero]
      simp [tokenBytes]

theorem Written.of_group (hfull : full.length = 8 * n) (hpos : cur ≠ []) (h8 : cur.length ≤ 8)
    (hout : w.out = stream full ++ groupBytes cur) (hi : w.flagIndex = (stream full).length)
    (hn : w.nflags = cur.length &&& 7) (hf : w.overflow = false) : Written w (full ++ cur) where
  out := by rw [hout, stream_append hfull, stream_short cur hpos h8]
  fits := hf
  group := by
    rw [show (7 : Nat) = 2 ^ 3 - 1 by rfl, Nat.and_two_pow_sub_one_eq_mod] at hn
    rcases Nat.lt_or_eq_of_le h8 with h8 | h8
    · exact ⟨full, cur, n, rfl, hfull, by omega, by omega, fun _ => hi⟩
    · refine ⟨full ++ cur, [], n + 1, by simp, by simp [hfull, h8]; omega, ?_, by omega,
        fun h => absurd rfl h⟩
      rw [hn, h8]
      rfl

theorem writeToken_cases (h : Written w ts) (t : Token UInt8) :
    ((writeToken w t).overflow = true ∧ w.cap < (stream (ts ++ [t])).length) ∨
      (Written (writeToken w t) (ts ++ [t]) ∧ (writeToken w t).cap = w.cap) := by
  obtain ⟨full, cur, n, rfl, hfull, hcur, h8, hi⟩ := h.group
  have hlen : (stream (full ++ cur ++ [t])).length =
      (stream full).length + (groupBytes (cur ++ [t])).length := by
    have hlast : (cur ++ [t]).length ≤ 8 := by
      rw [List.length_append, List.length_singleton]
      omega
    rw [List.append_assoc, stream_append hfull, stream_short (cur ++ [t]) (by simp) hlast,
      List.length_append]
  rw [writeToken_eq h.fits]
  rcases writerControl_opens h.out h.fits hfull hcur h8 hi with ⟨hov, rfl, hroom⟩ | ⟨hopen, hcap⟩
  · rw [if_pos hov]
    refine .inl ⟨hov, ?_⟩
    have hout := h.out
    rw [List.append_nil] at hout
    rw [hlen, ← hout, groupBytes, List.length_cons]
    omega
  · rw [if_neg (by simp [hopen.fits])]
    rcases putToken_cases hopen t with ⟨hov, hroom⟩ | ⟨hout, hindex, hn, hf, hc⟩
    · refine .inl ⟨hov, ?_⟩
      rw [hlen, groupBytes, List.flatMap_append, List.length_cons, List.length_append]
      rw [hopen.out, groupBytes, List.length_append, List.length_cons, hcap] at hroom
      simpa [Nat.add_assoc, Nat.add_comm, Nat.add_left_comm] using hroom
    · refine .inr ⟨?_, hc.trans hcap⟩
      rw [List.append_assoc]
      exact .of_group hfull (by simp) (by simp; omega) hout (hindex.trans hopen.index)
        (by simpa using hn) hf

/-! ### The search -/

theorem matchLoop_spec (src : List UInt8) (j pos left l : Nat) :
    l ≤ matchLoop src j pos left l ∧ matchLoop src j pos left l ≤ l + left ∧
      ∀ k, l ≤ k → k < matchLoop src j pos left l → src.getD (j + k) 0 = src.getD (pos + k) 0 := by
  induction left generalizing l with
  | zero =>
    refine ⟨Nat.le_refl l, Nat.le_refl l, ?_⟩
    intro k hk hlt
    exact absurd hlt (Nat.not_lt.2 hk)
  | succ left ih =>
    simp only [matchLoop]
    split
    next heq =>
      obtain ⟨hlow, hhigh, hsame⟩ := ih (l + 1)
      refine ⟨by omega, by omega, ?_⟩
      intro k hk hlt
      rcases Nat.lt_or_eq_of_le hk with hk | rfl
      · exact hsame k hk hlt
      · exact heq
    · exact ⟨Nat.le_refl l, by omega, fun k hk hlt => absurd hlt (Nat.not_lt.2 hk)⟩

/-- The length and the distance of a match: the bytes are equal and the distance stays in the
window. -/
structure IsMatch (src : List UInt8) (pos maxLen reach : Nat) (best : Nat × Nat) : Prop where
  length_le : best.1 ≤ maxLen
  distance_pos : 0 < best.1 → 0 < best.2
  distance_le : best.2 ≤ reach
  same : ∀ k < best.1, src.getD (pos + k - best.2) 0 = src.getD (pos + k) 0

variable {src : List UInt8}

variable {pos dist mlen : Nat}

theorem searchLoop_spec {maxLen reach : Nat} (hr : reach ≤ pos)
    {left : Nat} (hl : left ≤ reach) {best : Nat × Nat} (h : IsMatch src pos maxLen reach best) :
    IsMatch src pos maxLen reach (searchLoop src pos maxLen left best) := by
  induction left generalizing best with
  | zero => exact h
  | succ left ih =>
    obtain ⟨-, hle, hsame⟩ := matchLoop_spec src (pos - (left + 1)) pos maxLen 0
    have hbest : IsMatch src pos maxLen reach
        (matchLoop src (pos - (left + 1)) pos maxLen 0, pos - (pos - (left + 1))) := by
      refine ⟨by simpa using hle, fun _ => by simp only; omega, by simp only; omega, ?_⟩
      intro k hk
      have hplace : pos + k - (pos - (pos - (left + 1))) = pos - (left + 1) + k := by omega
      simp only [hplace]
      exact hsame k (Nat.zero_le k) hk
    simp only [searchLoop]
    split
    · split
      · exact hbest
      · exact ih (by omega) hbest
    · exact ih (by omega) h

theorem findMatch_spec (h : findMatch src pos = (mlen, dist))
    (hm : mlen ≥ minMatch) (hd : dist ≥ 1) :
    Encodable (.copy dist mlen) ∧ dist ≤ pos ∧ pos + mlen ≤ src.length ∧
      ∀ k < mlen, src.getD (pos + k - dist) 0 = src.getD (pos + k) 0 := by
  simp only [findMatch] at h
  generalize hM : (if src.length - pos > maxMatch then maxMatch else src.length - pos) = maxLen at h
  generalize hW : pos - (if pos > windowSize then pos - windowSize else 0) = reach at h
  have hmax : maxLen ≤ maxMatch ∧ maxLen ≤ src.length - pos := by
    split at hM <;> omega
  have hreach : reach ≤ pos ∧ reach ≤ windowSize := by
    split at hW <;> omega
  have hnone : IsMatch src pos maxLen reach (0, 0) :=
    ⟨Nat.zero_le _, fun h => absurd h (Nat.lt_irrefl 0), Nat.zero_le _,
      fun k hk => absurd hk (Nat.not_lt_zero k)⟩
  have hspec := searchLoop_spec hreach.1 (Nat.le_refl reach) hnone
  split at h
  · cases h
    cases hd
  next hpos =>
    split at h
    · cases h
      cases hd
    · split at h
      · cases h
        cases hd
      · rw [h] at hspec
        have hlen := hspec.length_le
        have hdist := hspec.distance_le
        simp only at hlen hdist
        exact ⟨⟨hd, hdist.trans hreach.2, hm, hlen.trans hmax.1⟩, hdist.trans hreach.1, by omega,
          hspec.same⟩

/-! ### Compression -/

/-- The tokens cut the first `pos` bytes of the input, in no more bytes and no more tokens. -/
structure Cut (src : List UInt8) (ts : List (Token UInt8)) (pos : Nat) : Prop
    extends Factors src ts pos where
  encodable : ∀ t ∈ ts, Encodable t
  payload : (ts.flatMap tokenBytes).length ≤ pos
  count : ts.length ≤ pos

theorem Cut.nil (src : List UInt8) : Cut src [] 0 where
  toFactors := .nil
  encodable := by simp
  payload := Nat.le_refl 0
  count := Nat.le_refl 0

theorem Cut.snoc {src : List UInt8} {ts : List (Token UInt8)} {pos pos' : Nat} (h : Cut src ts pos)
    {t : Token UInt8} (hf : Factors src (ts ++ [t]) pos') (he : Encodable t)
    (hp : pos + (tokenBytes t).length ≤ pos') (hc : pos < pos') : Cut src (ts ++ [t]) pos' where
  toFactors := hf
  encodable := by simpa [or_imp, forall_and, he] using h.encodable
  payload := by
    have := h.payload
    simp only [List.flatMap_append, List.flatMap_singleton, List.length_append]
    omega
  count := by
    have := h.count
    rw [List.length_append, List.length_singleton]
    omega

theorem Cut.size_le (h : Cut src ts pos) :
    (stream ts).length ≤ src.length + (src.length + 7) / 8 := by
  have := h.payload
  have := h.count
  have := h.le
  rw [length_stream]
  omega

theorem compressLoop_spec {rounds : Nat} (hcut : Cut src ts pos) (hw : Written w ts)
    (hr : src.length ≤ pos + rounds) :
    (∃ w' us, compressLoop src rounds pos w = some w' ∧ Cut src us src.length ∧ Written w' us) ∨
      (∃ us pos', compressLoop src rounds pos w = none ∧ Cut src us pos' ∧
        w.cap < (stream us).length) := by
  induction rounds generalizing pos w ts with
  | zero =>
    obtain rfl : pos = src.length := Nat.le_antisymm hcut.le hr
    exact .inl ⟨w, ts, rfl, hcut, hw⟩
  | succ rounds ih =>
    have hstep : ∀ {t : Token UInt8} {pos'}, Cut src (ts ++ [t]) pos' → src.length ≤ pos' + rounds →
        compressLoop src (rounds + 1) pos w =
          (if (writeToken w t).overflow then none
            else compressLoop src rounds pos' (writeToken w t)) →
        (∃ w' us, compressLoop src (rounds + 1) pos w = some w' ∧ Cut src us src.length ∧
          Written w' us) ∨
        (∃ us pos', compressLoop src (rounds + 1) pos w = none ∧ Cut src us pos' ∧
          w.cap < (stream us).length) := by
      intro t pos' hcut' hr' hloop
      rcases writeToken_cases hw t with ⟨hov, hroom⟩ | ⟨hw', hcap⟩
      · rw [if_pos hov] at hloop
        exact .inr ⟨_, pos', hloop, hcut', hroom⟩
      · rw [if_neg (by simp [hw'.fits])] at hloop
        rw [hloop, ← hcap]
        exact ih hcut' hw' hr'
    by_cases hpos : pos < src.length
    · generalize hfind : findMatch src pos = found
      obtain ⟨mlen, dist⟩ := found
      by_cases hm : mlen ≥ minMatch ∧ dist ≥ 1
      · obtain ⟨henc, hd, hlen, hsame⟩ := findMatch_spec hfind hm.1 hm.2
        have hthree : 3 ≤ mlen := hm.1
        refine hstep (t := .copy dist mlen) (hcut.snoc
          (hcut.toFactors.copy hm.2 hd hlen hsame) henc ?_ (by omega)) (by omega) ?_
        · simp only [tokenBytes, List.length_cons, List.length_nil]
          omega
        · simp only [compressLoop, hpos, if_true, hfind, hm, writeToken, and_self]
          rfl
      · refine hstep (hcut.snoc (hcut.toFactors.literal hpos) trivial (Nat.le_refl _)
          (Nat.lt_succ_self pos)) (by omega) ?_
        simp only [compressLoop, hpos, if_true, hfind, hm, if_false, writeToken]
        rfl
    · obtain rfl : pos = src.length := Nat.le_antisymm hcut.le (Nat.le_of_not_lt hpos)
      exact .inl ⟨w, ts, by simp only [compressLoop, hpos, if_false], hcut, hw⟩

theorem compress_cases (src : List UInt8) (dstCap : Nat) :
    (∃ ts, compress src dstCap = some (stream ts) ∧ Cut src ts src.length) ∨
      (∃ ts pos, compress src dstCap = none ∧ Cut src ts pos ∧ dstCap < (stream ts).length) := by
  rcases compressLoop_spec (Cut.nil src) (Written.init dstCap) (by omega : src.length ≤ 0 + src.length)
    with ⟨w, ts, hloop, hcut, hw⟩ | ⟨ts, pos, hloop, hcut, hroom⟩
  · exact .inl ⟨ts, by rw [compress, hloop, Option.map_some, hw.out], hcut⟩
  · exact .inr ⟨ts, pos, by rw [compress, hloop, Option.map_none], hcut, hroom⟩

/-! ### Decompression -/

theorem matchWord_eq (h : Encodable (.copy dist mlen)) :
    matchWord dist mlen = (dist - 1) + 4096 * (mlen - 3) := by
  obtain ⟨hd, hw, hl, hm⟩ := h
  simp only [windowSize, maxMatch, minMatch] at hw hm hl
  rw [matchWord, show (0x0FFF : Nat) = 2 ^ 12 - 1 by rfl, Nat.and_two_pow_sub_one_eq_mod, Nat.or_comm,
    ← Nat.shiftLeft_add_eq_or_of_lt (Nat.mod_lt _ (by decide)), Nat.shiftLeft_eq]
  omega

theorem read_matchWord (h : Encodable (.copy dist mlen)) :
    let v := (UInt8.ofNat (matchWord dist mlen &&& 0xFF)).toNat |||
      ((UInt8.ofNat ((matchWord dist mlen >>> 8) &&& 0xFF)).toNat <<< 8)
    (v &&& 0x0FFF) + 1 = dist ∧ ((v >>> 12) &&& 0x0F) + minMatch = mlen := by
  have heq := matchWord_eq h
  obtain ⟨hd, hw, hl, hm⟩ := h
  simp only [windowSize, maxMatch, minMatch] at hw hm hl ⊢
  have hlow : ∀ n : Nat, n &&& 0xFF = n % 256 := fun n => Nat.and_two_pow_sub_one_eq_mod n 8
  have hword : (UInt8.ofNat (matchWord dist mlen &&& 0xFF)).toNat |||
      ((UInt8.ofNat ((matchWord dist mlen >>> 8) &&& 0xFF)).toNat <<< 8) = matchWord dist mlen := by
    rw [hlow, hlow, UInt8.toNat_ofNat', UInt8.toNat_ofNat', Nat.or_comm,
      ← Nat.shiftLeft_add_eq_or_of_lt (Nat.mod_lt _ (by decide)), Nat.shiftLeft_eq,
      Nat.shiftRight_eq_div_pow]
    omega
  rw [hword, heq, show (0x0FFF : Nat) = 2 ^ 12 - 1 by rfl, show (0x0F : Nat) = 2 ^ 4 - 1 by rfl,
    Nat.and_two_pow_sub_one_eq_mod, Nat.and_two_pow_sub_one_eq_mod, Nat.shiftRight_eq_div_pow]
  omega

/-- The bits from one number on are those of the tokens that are left. -/
theorem flag_shift {flags bit b rest : Nat} (hb : b ≤ 1) (h : flags >>> bit = b + 2 * rest) :
    ((flags >>> bit) &&& 1 ≠ 0 ↔ b = 1) ∧ flags >>> (bit + 1) = rest := by
  constructor
  · rw [Nat.and_one_is_mod, h]
    omega
  · rw [Nat.shiftRight_add, h, Nat.shiftRight_eq_div_pow]
    omega

variable {dstCap : Nat}

theorem bitLoop_spec (left : Nat) {bit : Nat} {flags : UInt8}
    (rest : List UInt8) {out : List UInt8} (hflags : flags.toNat >>> bit = flagBits ts)
    (henc : ∀ t ∈ ts, Encodable t) (hback : Backed out ts) (hcap : (expand out ts).length ≤ dstCap)
    (hleft : ts.length = left ∨ ts.length ≤ left ∧ rest = []) :
    bitLoop dstCap flags left bit (ts.flatMap tokenBytes ++ rest) out =
      some (rest, expand out ts) := by
  induction ts generalizing left bit out with
  | nil =>
    cases left with
    | zero => rfl
    | succ left =>
      obtain rfl : rest = [] := by simpa using hleft
      rfl
  | cons t ts ih =>
    obtain ⟨left, rfl⟩ : ∃ n, left = n + 1 := ⟨left - 1, by simp at hleft; omega⟩
    obtain ⟨hbit, hnext⟩ := flag_shift (flagBit_le t) hflags
    rw [List.forall_mem_cons] at henc
    have hgrow := length_le_expand (t.apply out) ts
    have hrec := ih left hnext henc.2 hback.2 hcap (by simpa using hleft)
    cases t with
    | literal x =>
      have hroom : ¬ out.length ≥ dstCap := by
        simp [Token.apply] at hgrow
        simp at hcap
        have := Nat.le_trans hgrow hcap
        omega
      simp only [List.flatMap_cons, tokenBytes, List.cons_append, List.nil_append, bitLoop]
      rw [if_pos (hbit.2 rfl), if_neg hroom]
      exact hrec
    | copy dist mlen =>
      obtain ⟨hdist, hlen⟩ := read_matchWord henc.1
      have hb : ¬ ((flags.toNat >>> bit) &&& 1 ≠ 0) := fun h => absurd (hbit.1 h) (by simp [flagBit])
      have hoff : ¬ dist > out.length := Nat.not_lt.2 hback.1
      have hroom : ¬ out.length + mlen > dstCap := by
        simp [Token.apply] at hgrow
        simp at hcap
        have := Nat.le_trans hgrow hcap
        omega
      simp only [List.flatMap_cons, tokenBytes, List.cons_append, List.nil_append, bitLoop, hdist,
        hlen]
      rw [if_neg hb, if_neg hoff, if_neg hroom]
      exact hrec

theorem groupLoop_stream {groups : Nat} {out : List UInt8}
    (henc : ∀ t ∈ ts, Encodable t) (hback : Backed out ts) (hcap : (expand out ts).length ≤ dstCap)
    (hg : (ts.length + 7) / 8 ≤ groups) :
    groupLoop dstCap groups (stream ts) out = some (expand out ts) := by
  induction ts using stream.induct generalizing groups out with
  | case1 => rw [stream_nil]; cases groups <;> rfl
  | case2 t ts ih =>
    generalize hts : t :: ts = us at *
    have hne : us ≠ [] := by rw [← hts]; exact List.cons_ne_nil t ts
    have hsplit : us.take 8 ++ us.drop 8 = us := List.take_append_drop 8 us
    rw [← hsplit, backed_append] at hback
    rw [← hsplit, expand_append] at hcap ⊢
    have hpos : 0 < us.length := List.length_pos_iff.2 hne
    obtain ⟨groups, rfl⟩ : ∃ n, groups = n + 1 := ⟨groups - 1, by omega⟩
    have hflags : (UInt8.ofNat (flagBits (us.take 8))).toNat >>> 0 = flagBits (us.take 8) := by
      have hlt := flagBits_lt (us.take 8)
      have hle : 2 ^ (us.take 8).length ≤ 2 ^ 8 := Nat.pow_le_pow_right (by decide) (by simp)
      rw [Nat.shiftRight_zero, UInt8.toNat_ofNat']
      exact Nat.mod_eq_of_lt (Nat.lt_of_lt_of_le hlt hle)
    have hgroup := bitLoop_spec 8 (stream (us.drop 8)) hflags
      (fun u hu => henc u (List.mem_of_mem_take hu)) hback.1
      (Nat.le_trans (length_le_expand _ _) hcap) (by
        rcases Nat.lt_or_ge us.length 8 with h8 | h8
        · rw [List.drop_of_length_le (Nat.le_of_lt h8), stream_nil]
          exact .inr ⟨by simp, rfl⟩
        · exact .inl (by simp [h8]))
    rw [hsplit, stream_of_ne_nil us hne, groupBytes, List.cons_append, groupLoop, hgroup]
    exact ih (fun u hu => henc u (List.mem_of_mem_drop hu)) hback.2 hcap (by
      rw [List.length_drop]
      omega)

theorem decompress_stream (henc : ∀ t ∈ ts, Encodable t)
    (hback : Backed [] ts) (hcap : (expand [] ts).length ≤ dstCap) :
    decompress (stream ts) dstCap = some (expand [] ts) := by
  refine groupLoop_stream henc hback hcap ?_
  rw [length_stream]
  omega

/-- The compressor succeeds when it has a byte for each byte of the input and one for each
eight of them, and the decompressor undoes it. -/
theorem roundTrip (x : List UInt8) (dstCap : Nat) :
    (x.length + (x.length + 7) / 8 ≤ dstCap → (compress x dstCap).isSome) ∧
      ∀ out, compress x dstCap = some out →
        ∀ cap, x.length ≤ cap → decompress out cap = some x := by
  rcases compress_cases x dstCap with ⟨ts, hc, hcut⟩ | ⟨ts, pos, hc, hcut, hroom⟩
  · refine ⟨fun _ => by rw [hc]; rfl, ?_⟩
    intro out hout cap hcap
    obtain rfl : stream ts = out := by simpa [hc] using hout
    have hx := hcut.expand_eq
    rw [decompress_stream hcut.encodable hcut.backed (by rwa [hx]), hx]
  · have hsize := hcut.size_le
    refine ⟨fun hcap => by omega, ?_⟩
    intro out hout
    rw [hc] at hout
    cases hout

end

end Owzip
