import OpenWindows.Crypto.Aead

/-!
# Sealed frames of `owcrypt`

A frame carries its lengths, the associated data in the clear, the ciphertext and
the tag.  Opening reads the lengths back, authenticates, decrypts, and may search
the plaintext for a BANcode.
-/

namespace Crypto

open Words

/-- `OWCRYPT_FRAME_MAGIC`. -/
def frameMagic : UInt32 := 0x4653574F

/-- `OWCRYPT_FRAME_OVERHEAD`. -/
def frameOverhead : Nat := 12

/-- `owcrypt_scan_ban_stream`: the first word in the range of the BANcodes, at any
offset, or zero. -/
def scanBanStream (data : List UInt8) : UInt32 :=
  let words := (List.range (data.length - 3)).map fun i => get32le (data.drop i)
  (words.find? fun v => 0x0011A000 ≤ v && v ≤ 0x0011AEFF).getD 0

def frameHead (aad : List UInt8) (plen : Nat) : List UInt8 :=
  put32le frameMagic ++ put32le (UInt32.ofNat aad.length) ++ put32le (UInt32.ofNat plen) ++ aad

/-- `owcrypt_seal_frame`, with the frame and the length it leaves. -/
def sealFrame (m : Module) (key nonce aad plain frame : Ptr) (frameLen : Option Nat) :
    Status × Ptr × Option Nat :=
  if !m.initialized then (.errUninitialized, frame, frameLen)
  else
    match key, nonce, frame, frameLen, plain, aad with
    | some key, some nonce, some buf, some cap, some plain, some aad =>
      let need := frameOverhead + aad.length + plain.length + 16
      if cap < need then (.errShortOut, frame, frameLen)
      else
        let head := frameHead aad plain.length
        match chachaPolySeal m (some key) (some nonce) aad (some plain)
            (some (buf.drop head.length)) (some (List.replicate 16 0)) with
        | (.ok, some p, some tag) =>
          (.ok, some (head ++ (p.take plain.length ++ overlay (p.drop plain.length) tag)),
            some need)
        | (st, _, _) => (st, some (overlay buf head), some need)
    | _, _, _, _, _, _ => (.errBadArg, frame, frameLen)

/-- What `owcrypt_open_frame` leaves behind. -/
structure Opened where
  status : Status
  /-- `plain_out` -/
  out : Ptr
  /-- The frame, which is decrypted in place when `plain_out` is `NULL`. -/
  frame : Ptr
  /-- `*plain_len`, if it was written -/
  plainLen : Option Nat := none
  /-- What `*aad_out` and `*aad_len_out` stand for, if they were written. -/
  aad : Option (List UInt8) := none
  /-- The BANcode given to the hook, if it was called. -/
  signal : Option UInt32 := none
  deriving DecidableEq

/-- `owcrypt_open_frame`, where `outs` tells whether the pointers for the lengths and
the associated data are given. -/
def openFrame (m : Module) (key nonce frame plainOut : Ptr) (outs scanBan : Bool) : Opened :=
  if !m.initialized then { status := .errUninitialized, out := plainOut, frame }
  else
    match key, nonce, frame, outs with
    | some key, some nonce, some bytes, true =>
      if bytes.length < frameOverhead + 16 ∨ get32le bytes ≠ frameMagic then
        { status := .errBadArg, out := plainOut, frame }
      else
        let aadlen := (get32le (bytes.drop 4)).toNat
        let clen := (get32le (bytes.drop 8)).toNat
        if bytes.length < frameOverhead + aadlen + clen + 16 then
          { status := .errBadArg, out := plainOut, frame }
        else
          let aad := (bytes.drop frameOverhead).take aadlen
          let cipher := (bytes.drop (frameOverhead + aadlen)).take clen
          let tag := bytes.drop (frameOverhead + aadlen + clen)
          let out := plainOut.getD (bytes.drop (frameOverhead + aadlen))
          let (st, out) := chachaPolyOpen m (some key) (some nonce) aad (some cipher) (some tag) out
          let left : Opened :=
            match plainOut with
            | some _ => { status := st, out := some out, frame }
            | none =>
              { status := st, out := none
                frame := some (bytes.take (frameOverhead + aadlen) ++ out) }
          if st ≠ .ok then left
          else
            let left := { left with plainLen := some clen, aad := some aad }
            let bancode := scanBanStream (out.take clen)
            if scanBan && 0 < clen && bancode ≠ 0 then
              { left with status := .banBancode, signal := some bancode }
            else left
    | _, _, _, _ => { status := .errBadArg, out := plainOut, frame }

theorem sealFrame_congr {m m' : Module} (h : m.initialized = m'.initialized)
    (key nonce aad plain frame : Ptr) (frameLen : Option Nat) :
    sealFrame m key nonce aad plain frame frameLen =
      sealFrame m' key nonce aad plain frame frameLen := by
  unfold sealFrame chachaPolySeal
  rw [h]

theorem openFrame_congr {m m' : Module} (h : m.initialized = m'.initialized)
    (key nonce frame plainOut : Ptr) (outs scanBan : Bool) :
    openFrame m key nonce frame plainOut outs scanBan =
      openFrame m' key nonce frame plainOut outs scanBan := by
  unfold openFrame chachaPolyOpen
  rw [h]

variable {frame plainOut : Ptr} {outs scanBan : Bool}

theorem openFrame_initialized {m : Module} {key nonce : Ptr}
    (h : (openFrame m key nonce frame plainOut outs scanBan).status = .ok) :
    m.initialized = true := by
  unfold openFrame at h
  split at h
  · cases h
  next hm => simpa using hm

theorem openFrame_unscanned {m : Module} {key nonce : Ptr}
    (h : (openFrame m key nonce frame plainOut outs scanBan).status = .ok) :
    openFrame m key nonce frame plainOut outs scanBan =
      openFrame m key nonce frame plainOut outs false := by
  cases scanBan with
  | false => rfl
  | true =>
    unfold openFrame at h ⊢
    split at h
    next hm => rw [if_pos hm, if_pos hm]
    next hm =>
      rw [if_neg hm, if_neg hm]
      split at h
      · dsimp only at h ⊢
        simp only [Bool.false_and, Bool.false_eq_true, if_false]
        split_ifs at h ⊢ with hsize hroom hst hscan
        · rfl
        · rfl
      · rfl

/-! ## What was sealed opens -/

@[simp] theorem length_put32le (v : UInt32) : (put32le v).length = 4 := rfl

theorem or_reverse {n : Nat} (a b c d : BitVec n) : a ||| b ||| c ||| d = d ||| c ||| b ||| a := by
  ac_rfl

theorem get32le_put32le (v : UInt32) (rest : List UInt8) : get32le (put32le v ++ rest) = v := by
  apply UInt32.toBitVec_inj.mp
  refine Eq.trans (or_reverse _ _ _ _) ?_
  exact setWidth_bytes32 v.toBitVec

def sealedBytes (key nonce aad plain : List UInt8) : List UInt8 :=
  let cipher := chacha20Xor key nonce 1 plain
  frameHead aad plain.length ++ (cipher ++ aeadMac key nonce aad cipher)

@[simp] theorem length_frameHead (aad : List UInt8) (plen : Nat) :
    (frameHead aad plen).length = frameOverhead + aad.length := by
  simp [frameHead, frameOverhead]
  omega

theorem length_sealedBytes (key nonce aad plain : List UInt8) :
    (sealedBytes key nonce aad plain).length = frameOverhead + aad.length + plain.length + 16 := by
  simp [sealedBytes, length_aeadMac]
  omega

variable {m : Module} {key nonce aad plain : List UInt8}

theorem sealFrame_initialized {key nonce aad plain : Ptr} {frameLen : Option Nat}
    (h : (sealFrame m key nonce aad plain frame frameLen).1 = .ok) : m.initialized = true := by
  unfold sealFrame at h
  split at h
  · cases h
  next hm => simpa using hm

theorem sealFrame_eq (hm : m.initialized = true) (buf : List UInt8) {cap : Nat}
    (hcap : frameOverhead + aad.length + plain.length + 16 ≤ cap) :
    sealFrame m (some key) (some nonce) (some aad) (some plain) (some buf) (some cap) =
      (.ok, some (overlay buf (sealedBytes key nonce aad plain)),
        some (frameOverhead + aad.length + plain.length + 16)) := by
  have hlen := length_chacha20Xor key nonce 1 plain
  simp only [sealFrame, hm, Bool.not_true, Bool.false_eq_true, if_false, if_neg (Nat.not_lt.mpr hcap),
    chachaPolySeal]
  have hcipher (rest : List UInt8) : (overlay rest (chacha20Xor key nonce 1 plain)).take plain.length =
      chacha20Xor key nonce 1 plain := List.take_left' hlen
  have hrest (rest : List UInt8) : (overlay rest (chacha20Xor key nonce 1 plain)).drop plain.length =
      rest.drop plain.length := by
    rw [overlay, List.drop_left' hlen, hlen]
  rw [hcipher, hrest]
  simp [overlay, sealedBytes, length_aeadMac, hlen, Nat.add_assoc]

/-- What opening leaves behind after a frame of `aad` and `plain` was accepted. -/
def openedAs (bytes aad plain : List UInt8) : Ptr → Opened
  | some out =>
    { status := .ok, out := some (overlay out plain), frame := some bytes
      plainLen := some plain.length, aad := some aad }
  | none =>
    { status := .ok, out := none
      frame := some (bytes.take (frameOverhead + aad.length) ++
        overlay (bytes.drop (frameOverhead + aad.length)) plain)
      plainLen := some plain.length, aad := some aad }

theorem openFrame_sealedBytes_ptr (hm : m.initialized = true) (haad : aad.length < 2 ^ 32)
    (hplain : plain.length < 2 ^ 32) (key nonce rest : List UInt8) (plainOut : Ptr) :
    openFrame m (some key) (some nonce) (some (sealedBytes key nonce aad plain ++ rest)) plainOut
        true false =
      openedAs (sealedBytes key nonce aad plain ++ rest) aad plain plainOut := by
  obtain ⟨cipher, hcipher⟩ : ∃ cipher, cipher = chacha20Xor key nonce 1 plain := ⟨_, rfl⟩
  have hlen : cipher.length = plain.length := by rw [hcipher, length_chacha20Xor]
  have hback : chacha20Xor key nonce 1 cipher = plain := by
    rw [hcipher, chacha20Xor_chacha20Xor]
  obtain ⟨bytes, hbytes⟩ : ∃ bytes, bytes = sealedBytes key nonce aad plain ++ rest := ⟨_, rfl⟩
  have hlayout : bytes = put32le frameMagic ++ (put32le (UInt32.ofNat aad.length) ++
      (put32le (UInt32.ofNat plain.length) ++
        (aad ++ (cipher ++ (aeadMac key nonce aad cipher ++ rest))))) := by
    simp [hbytes, hcipher, sealedBytes, frameHead]
  have hsize : ¬ (bytes.length < frameOverhead + 16 ∨ get32le bytes ≠ frameMagic) := by
    rw [not_or, hlayout, get32le_put32le, not_not]
    refine ⟨?_, rfl⟩
    simp [length_aeadMac, frameOverhead]
    omega
  have hfour : get32le (bytes.drop 4) = UInt32.ofNat aad.length := by
    rw [hlayout, List.drop_left' (length_put32le _), get32le_put32le]
  have height : get32le (bytes.drop 8) = UInt32.ofNat plain.length := by
    rw [hlayout, ← List.append_assoc, List.drop_left' (by simp), get32le_put32le]
  have haadlen : (get32le (bytes.drop 4)).toNat = aad.length := by
    rw [hfour, UInt32.toNat_ofNat', Nat.mod_eq_of_lt haad]
  have hclen : (get32le (bytes.drop 8)).toNat = plain.length := by
    rw [height, UInt32.toNat_ofNat', Nat.mod_eq_of_lt hplain]
  have hfits : ¬ bytes.length < frameOverhead + aad.length + plain.length + 16 := by
    rw [hbytes, List.length_append, length_sealedBytes]
    omega
  have hbody : bytes.drop frameOverhead =
      aad ++ (cipher ++ (aeadMac key nonce aad cipher ++ rest)) := by
    rw [hlayout, ← List.append_assoc, ← List.append_assoc]
    exact List.drop_left' (by simp [frameOverhead])
  have hafter : bytes.drop (frameOverhead + aad.length) =
      cipher ++ (aeadMac key nonce aad cipher ++ rest) := by
    rw [← List.drop_drop, hbody, List.drop_left' rfl]
  have htag : bytes.drop (frameOverhead + aad.length + plain.length) =
      aeadMac key nonce aad cipher ++ rest := by
    rw [← List.drop_drop, hafter, List.drop_left' hlen]
  have hmac : ctMemcmp (aeadMac key nonce aad cipher) (aeadMac key nonce aad cipher ++ rest) 16 =
      true := by
    refine ctMemcmp_of_eq fun i hi => ?_
    have hlt : i < (aeadMac key nonce aad cipher).length := by
      rw [length_aeadMac]
      exact hi
    simp [byteAt, List.getElem?_append_left hlt]
  rw [← hbytes]
  simp only [openFrame, hm, Bool.not_true, Bool.false_eq_true, if_false, if_neg hsize, haadlen, hclen,
    if_neg hfits, hbody, hafter, htag, List.take_left' hlen, List.take_left, chachaPolyOpen, hmac,
    hback, ne_eq, not_true_eq_false, Bool.false_and]
  cases plainOut with
  | some out => rfl
  | none => rw [openedAs, hafter, Option.getD_none]

theorem openFrame_sealedBytes (hm : m.initialized = true) (haad : aad.length < 2 ^ 32)
    (hplain : plain.length < 2 ^ 32) (key nonce rest out : List UInt8) :
    openFrame m (some key) (some nonce) (some (sealedBytes key nonce aad plain ++ rest)) (some out)
        true false =
      { status := .ok, out := some (overlay out plain)
        frame := some (sealedBytes key nonce aad plain ++ rest)
        plainLen := some plain.length, aad := some aad } :=
  openFrame_sealedBytes_ptr hm haad hplain key nonce rest (some out)

theorem openFrame_lengths {key nonce : Ptr}
    (h : (openFrame m key nonce frame plainOut outs scanBan).status = .ok) :
    (∃ n < 2 ^ 32, (openFrame m key nonce frame plainOut outs scanBan).plainLen = some n) ∧
      ∃ a : List UInt8, a.length < 2 ^ 32 ∧
        (openFrame m key nonce frame plainOut outs scanBan).aad = some a := by
  unfold openFrame at h ⊢
  split at h
  · simp at h
  next hm =>
    rw [if_neg hm]
    split at h
    next key nonce bytes =>
      dsimp only at h ⊢
      split at h
      · simp at h
      next hhead =>
        rw [if_neg hhead]
        split at h
        · simp at h
        next hfits =>
          rw [if_neg hfits]
          split at h
          next hst => exact absurd (by cases plainOut <;> exact h) hst
          next hst =>
            rw [if_neg hst]
            have haad : ((bytes.drop frameOverhead).take (get32le (bytes.drop 4)).toNat).length <
                2 ^ 32 :=
              Nat.lt_of_le_of_lt (List.length_take_le _ _) (UInt32.toNat_lt _)
            split
            · exact ⟨⟨_, UInt32.toNat_lt _, rfl⟩, _, haad, rfl⟩
            · exact ⟨⟨_, UInt32.toNat_lt _, rfl⟩, _, haad, rfl⟩
    · simp at h

/-! ## The round trip of a frame -/

/-- Opening succeeded, with the lengths and the bytes that were sealed.  The plaintext is at the
front of `plain_out`, or in the frame when that is `NULL`. -/
def Recovered (o : Opened) (plainOut : Ptr) (aad plain : List UInt8) : Prop :=
  o.status = .ok ∧ o.plainLen = some plain.length ∧ o.aad = some aad ∧
    match plainOut with
    | some _ => o.out.map (List.take plain.length) = some plain
    | none =>
      o.frame.map (fun f => (f.drop (frameOverhead + aad.length)).take plain.length) = some plain

theorem sealFrame_ok {buf f : List UInt8} {cap n : Nat}
    (h : sealFrame m (some key) (some nonce) (some aad) (some plain) (some buf) (some cap) =
      (.ok, some f, some n)) :
    m.initialized = true ∧ f.take n = sealedBytes key nonce aad plain := by
  have hm : m.initialized = true := sealFrame_initialized (by rw [h])
  refine ⟨hm, ?_⟩
  by_cases hcap : frameOverhead + aad.length + plain.length + 16 ≤ cap
  · rw [sealFrame_eq hm buf hcap] at h
    simp only [Prod.mk.injEq, true_and, Option.some.injEq] at h
    rw [← h.1, ← h.2, ← length_sealedBytes key nonce, take_overlay]
  · simp [sealFrame, hm, Nat.lt_of_not_le hcap] at h

/-- What was sealed is recovered exactly when both lengths have 32 bits. -/
theorem sealFrame_recovered_iff {buf f : List UInt8} {cap n : Nat}
    (h : sealFrame m (some key) (some nonce) (some aad) (some plain) (some buf) (some cap) =
      (.ok, some f, some n)) (plainOut : Ptr) :
    Recovered (openFrame m (some key) (some nonce) (some (f.take n)) plainOut true false) plainOut
        aad plain ↔
      aad.length < 2 ^ 32 ∧ plain.length < 2 ^ 32 := by
  obtain ⟨hm, hframe⟩ := sealFrame_ok h
  rw [hframe]
  constructor
  · rintro ⟨hok, hlen, haad, -⟩
    obtain ⟨⟨n, hn, hn'⟩, a, ha, ha'⟩ := openFrame_lengths hok
    rw [hlen, Option.some.injEq] at hn'
    rw [haad, Option.some.injEq] at ha'
    exact ⟨ha' ▸ ha, hn' ▸ hn⟩
  · rintro ⟨haad, hplain⟩
    have hopen := openFrame_sealedBytes_ptr hm haad hplain key nonce [] plainOut
    rw [List.append_nil] at hopen
    rw [hopen]
    cases plainOut with
    | some out => exact ⟨rfl, rfl, rfl, by simp [openedAs, take_overlay]⟩
    | none =>
      refine ⟨rfl, rfl, rfl, ?_⟩
      have hhead : ((sealedBytes key nonce aad plain).take (frameOverhead + aad.length)).length =
          frameOverhead + aad.length := by
        rw [List.length_take, length_sealedBytes]
        omega
      rw [openedAs, Option.map_some, List.drop_left' hhead, take_overlay]

theorem sealFrame_recovered_iff_small :
    let m := { Module.zero with initialized := true }
    let key := (List.range 32).map UInt8.ofNat
    let nonce := (List.range 12).map UInt8.ofNat
    let out := List.replicate 16 (0 : UInt8)
    ∃ f n, sealFrame m (some key) (some nonce) (some [1, 2, 3]) (some [4, 5, 6, 7, 8])
        (some (List.replicate 64 0)) (some 64) = (.ok, some f, some n) ∧
      Recovered (openFrame m (some key) (some nonce) (some (f.take n)) (some out) true false)
        (some out) [1, 2, 3] [4, 5, 6, 7, 8] := by
  intro m key nonce out
  have hseal := @sealFrame_eq m key nonce [1, 2, 3] [4, 5, 6, 7, 8] rfl (List.replicate 64 0) 64
    (by decide)
  exact ⟨_, _, hseal, (sealFrame_recovered_iff hseal (some out)).mpr (by decide)⟩

/-- A plaintext of 2³² bytes is sealed with a length of 0. -/
theorem sealFrame_truncates : ¬ ∀ (m : Module) (key nonce aad plain buf f : List UInt8) (cap n : Nat)
    (plainOut : Ptr),
    sealFrame m (some key) (some nonce) (some aad) (some plain) (some buf) (some cap) =
      (.ok, some f, some n) →
    Recovered (openFrame m (some key) (some nonce) (some (f.take n)) plainOut true false) plainOut
      aad plain := by
  intro h
  have hlen : (List.replicate (2 ^ 32) (0 : UInt8)).length = 2 ^ 32 := List.length_replicate ..
  generalize List.replicate (2 ^ 32) (0 : UInt8) = plain at hlen
  have hseal := @sealFrame_eq { Module.zero with initialized := true } [] [] [] plain rfl []
    (2 ^ 32 + 28) (by
      rw [hlen]
      decide)
  obtain ⟨hok, hn, -⟩ := h _ _ _ _ _ _ _ _ _ none hseal
  obtain ⟨⟨n, hlt, hn'⟩, -⟩ := openFrame_lengths hok
  rw [hn, hlen, Option.some.injEq] at hn'
  omega

end Crypto
