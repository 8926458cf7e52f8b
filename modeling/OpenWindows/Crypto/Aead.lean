import OpenWindows.Crypto.AesTables
import OpenWindows.Crypto.Gcm

/-!
# Authenticated encryption of `owcrypt`

ChaCha20-Poly1305 and AES-GCM share one shape.  Sealing combines the plaintext
with the key stream and computes a tag over the ciphertext.  Opening computes the
tag over the ciphertext it is given, compares, and only then combines it with the
same key stream.  So what was sealed opens to the plaintext, and nothing is
written when the tag is wrong.
-/

namespace Crypto

open Stream Words

/-! ## Buffers -/

/-- A pointer to a buffer, or `NULL`.  Where a length of zero goes with it, `NULL`
is the empty buffer. -/
abbrev Ptr := Option (List UInt8)

/-- Write to the front of a buffer. -/
def overlay (buf data : List UInt8) : List UInt8 := data ++ buf.drop data.length

/-- `owcrypt_ct_memcmp`. -/
def ctMemcmp (x y : List UInt8) (n : Nat) : Bool :=
  (List.range n).foldl (fun diff i => diff ||| (byteAt x i ^^^ byteAt y i)) 0 == 0

theorem ctMemcmp_of_eq {x y : List UInt8} {n : Nat} (h : ∀ i < n, byteAt x i = byteAt y i) :
    ctMemcmp x y n = true := by
  have hdiff : (List.range n).foldl (fun diff i => diff ||| (byteAt x i ^^^ byteAt y i)) 0 = 0 := by
    induction n with
    | zero => rfl
    | succ n ih =>
      rw [List.range_succ, List.foldl_append, ih fun i hi => h i (Nat.lt_succ_of_lt hi)]
      simp [h n (Nat.lt_succ_self n)]
  rw [ctMemcmp, hdiff]
  rfl

theorem ctMemcmp_overlay {tag : List UInt8} (buf : List UInt8) (h : tag.length = 16) :
    ctMemcmp tag (overlay buf tag) 16 = true := by
  refine ctMemcmp_of_eq fun i hi => ?_
  have hlt : i < tag.length := by omega
  simp [byteAt, overlay, List.getElem?_append_left hlt]

theorem take_overlay (buf data : List UInt8) : (overlay buf data).take data.length = data :=
  List.take_left

/-! ## ChaCha20-Poly1305 -/

/-- `owcrypt_chacha_poly_seal`, with the output and the tag it leaves. -/
def chachaPolySeal (m : Module) (key nonce : Ptr) (aad : List UInt8) (plain out tag : Ptr) :
    Status × Ptr × Ptr :=
  if !m.initialized then (.errUninitialized, out, tag)
  else
    match key, nonce, out, tag, plain with
    | some key, some nonce, some out, some tag, some plain =>
      let cipher := chacha20Xor key nonce 1 plain
      (.ok, some (overlay out cipher), some (overlay tag (aeadMac key nonce aad cipher)))
    | _, _, _, _, _ => (.errBadArg, out, tag)

/-- `owcrypt_chacha_poly_open`, with the output it leaves. -/
def chachaPolyOpen (m : Module) (key nonce : Ptr) (aad : List UInt8) (cipher tag : Ptr)
    (out : List UInt8) : Status × List UInt8 :=
  if !m.initialized then (.errUninitialized, out)
  else
    match key, nonce, tag, cipher with
    | some key, some nonce, some tag, some cipher =>
      if !ctMemcmp (aeadMac key nonce aad cipher) tag 16 then (.banAuthFail, out)
      else (.ok, overlay out (chacha20Xor key nonce 1 cipher))
    | _, _, _, _ => (.errBadArg, out)

theorem length_aeadMac (key nonce aad ct : List UInt8) : (aeadMac key nonce aad ct).length = 16 :=
  rfl

variable {m : Module}

theorem chachaPolyOpen_seal (hm : m.initialized = true)
    (key nonce aad plain out tag buf : List UInt8) :
    ∃ c t, chachaPolySeal m (some key) (some nonce) aad (some plain) (some out) (some tag) =
        (.ok, some c, some t) ∧
      chachaPolyOpen m (some key) (some nonce) aad (some (c.take plain.length)) (some t) buf =
        (.ok, overlay buf plain) := by
  refine ⟨overlay out (chacha20Xor key nonce 1 plain),
    overlay tag (aeadMac key nonce aad (chacha20Xor key nonce 1 plain)), ?_, ?_⟩
  · rw [chachaPolySeal, hm]
    rfl
  · have hcipher : (overlay out (chacha20Xor key nonce 1 plain)).take plain.length =
        chacha20Xor key nonce 1 plain := by
      conv_lhs => rw [← length_chacha20Xor key nonce 1 plain]
      exact take_overlay ..
    have htag := ctMemcmp_overlay tag
      (length_aeadMac key nonce aad (chacha20Xor key nonce 1 plain))
    rw [chachaPolyOpen, hm, hcipher]
    simp only [Bool.not_true, Bool.false_eq_true, if_false, htag, chacha20Xor_chacha20Xor]

theorem chachaPolyOpen_out {key nonce cipher tag : Ptr} {aad out : List UInt8}
    (h : (chachaPolyOpen m key nonce aad cipher tag out).1 ≠ .ok) :
    (chachaPolyOpen m key nonce aad cipher tag out).2 = out := by
  unfold chachaPolyOpen at h ⊢
  split at h
  next hinit => rw [if_pos hinit]
  next hinit =>
    rw [if_neg hinit]
    split at h
    · split at h
      next htag => rw [if_pos htag]
      · exact absurd rfl h
    · rfl

/-! ## AES-GCM -/

/-- The counter block of a nonce. -/
def gcmJ0 (nonce : List UInt8) : List UInt8 := (List.range 12).map (byteAt nonce) ++ put32 1

def gcmTag (m : Module) (rk : List UInt8) (nr : Nat) (j0 aad cipher : List UInt8) : List UInt8 :=
  let h := aesEncryptBlock m rk (List.replicate 16 0) nr
  let enc := ghStore (ghash h aad cipher)
  let e0 := aesEncryptBlock m rk j0 nr
  (List.range 16).map fun i => byteAt e0 i ^^^ byteAt enc i

/-- `owcrypt_aes_gcm_seal`, with the output and the tag it leaves. -/
def aesGcmSeal (m : Module) (key : Ptr) (keybits : Nat) (nonce aad plain out tag : Ptr) :
    Status × Ptr × Ptr :=
  if !m.initialized then (.errUninitialized, out, tag)
  else
    match key, nonce, tag, out, plain, aad with
    | some key, some nonce, some tag, some out, some plain, some aad =>
      if keybits ≠ 128 ∧ keybits ≠ 256 then (.errBadArg, some out, some tag)
      else
        let rk := aesExpand m key keybits
        let cipher := gcmCtr m rk (rounds keybits) (gcmJ0 nonce) plain
        (.ok, some (overlay out cipher),
          some (overlay tag (gcmTag m rk (rounds keybits) (gcmJ0 nonce) aad cipher)))
    | _, _, _, _, _, _ => (.errBadArg, out, tag)

/-- `owcrypt_aes_gcm_open`, with the output it leaves. -/
def aesGcmOpen (m : Module) (key : Ptr) (keybits : Nat) (nonce aad cipher tag : Ptr)
    (out : List UInt8) : Status × List UInt8 :=
  if !m.initialized then (.errUninitialized, out)
  else
    match key, nonce, tag, cipher, aad with
    | some key, some nonce, some tag, some cipher, some aad =>
      if keybits ≠ 128 ∧ keybits ≠ 256 then (.errBadArg, out)
      else
        let rk := aesExpand m key keybits
        let expect := gcmTag m rk (rounds keybits) (gcmJ0 nonce) aad cipher
        if !ctMemcmp expect tag 16 then (.banAuthFail, out)
        else (.ok, overlay out (gcmCtr m rk (rounds keybits) (gcmJ0 nonce) cipher))
    | _, _, _, _, _ => (.errBadArg, out)

theorem aesGcmOpen_seal (hm : m.initialized = true) {keybits : Nat}
    (hbits : keybits = 128 ∨ keybits = 256) (key nonce aad plain out tag buf : List UInt8) :
    ∃ c t, aesGcmSeal m (some key) keybits (some nonce) (some aad) (some plain) (some out)
        (some tag) = (.ok, some c, some t) ∧
      aesGcmOpen m (some key) keybits (some nonce) (some aad) (some (c.take plain.length))
        (some t) buf = (.ok, overlay buf plain) := by
  have hsize : ¬ (keybits ≠ 128 ∧ keybits ≠ 256) := by
    rintro ⟨h, h'⟩
    exact hbits.elim h h'
  obtain ⟨cipher, hcipher⟩ : ∃ cipher, cipher =
      gcmCtr m (aesExpand m key keybits) (rounds keybits) (gcmJ0 nonce) plain := ⟨_, rfl⟩
  have hlen : cipher.length = plain.length := by
    rw [hcipher]
    exact length_gcmCtr ..
  have hback : gcmCtr m (aesExpand m key keybits) (rounds keybits) (gcmJ0 nonce) cipher = plain := by
    rw [hcipher]
    exact gcmCtr_gcmCtr ..
  obtain ⟨t, ht⟩ : ∃ t, t =
      gcmTag m (aesExpand m key keybits) (rounds keybits) (gcmJ0 nonce) aad cipher := ⟨_, rfl⟩
  have htag : ctMemcmp t (overlay tag t) 16 = true := by
    refine ctMemcmp_overlay tag ?_
    rw [ht]
    exact List.length_map ..
  refine ⟨overlay out cipher, overlay tag t, ?_, ?_⟩
  · rw [aesGcmSeal, hm, ht, hcipher]
    exact if_neg hsize
  · rw [aesGcmOpen, hm, ← hlen, take_overlay]
    simp only [Bool.not_true, Bool.false_eq_true, if_false, if_neg hsize, ← ht, htag, hback]

theorem aesGcmOpen_out {key nonce aad cipher tag : Ptr} {keybits : Nat} {out : List UInt8}
    (h : (aesGcmOpen m key keybits nonce aad cipher tag out).1 ≠ .ok) :
    (aesGcmOpen m key keybits nonce aad cipher tag out).2 = out := by
  unfold aesGcmOpen at h ⊢
  split at h
  next hinit => rw [if_pos hinit]
  next hinit =>
    rw [if_neg hinit]
    split at h
    · split at h
      next hbits => rw [if_pos hbits]
      next hbits =>
        rw [if_neg hbits]
        dsimp only at h ⊢
        split at h
        next htag => rw [if_pos htag]
        · exact absurd rfl h
    · rfl

/-! ## Both constructions -/

/-- After the module was initialized, what was sealed opens to the plaintext, with
either construction and for data of any length.  In every state of the module,
opening changes the output buffer only when it succeeds. -/
theorem aead_opens (boot : Bool) (m : Module) (h : (moduleInit boot m).1 = .ok) :
    (∀ key nonce aad plain out tag buf : List UInt8,
      (∃ c t, chachaPolySeal (moduleInit boot m).2 (some key) (some nonce) aad (some plain)
          (some out) (some tag) = (.ok, some c, some t) ∧
        chachaPolyOpen (moduleInit boot m).2 (some key) (some nonce) aad
          (some (c.take plain.length)) (some t) buf = (.ok, overlay buf plain)) ∧
      ∀ keybits, keybits = 128 ∨ keybits = 256 →
        ∃ c t, aesGcmSeal (moduleInit boot m).2 (some key) keybits (some nonce) (some aad)
            (some plain) (some out) (some tag) = (.ok, some c, some t) ∧
          aesGcmOpen (moduleInit boot m).2 (some key) keybits (some nonce) (some aad)
            (some (c.take plain.length)) (some t) buf = (.ok, overlay buf plain)) ∧
    ∀ (m : Module) (key nonce cipher tag : Ptr) (buf : List UInt8),
      (∀ aad, (chachaPolyOpen m key nonce aad cipher tag buf).1 ≠ .ok →
        (chachaPolyOpen m key nonce aad cipher tag buf).2 = buf) ∧
      ∀ keybits aad, (aesGcmOpen m key keybits nonce aad cipher tag buf).1 ≠ .ok →
        (aesGcmOpen m key keybits nonce aad cipher tag buf).2 = buf := by
  have hm := moduleInit_initialized h
  refine ⟨fun key nonce aad plain out tag buf => ⟨?_, fun keybits hbits => ?_⟩,
    fun m key nonce cipher tag buf => ⟨fun aad => chachaPolyOpen_out, fun keybits aad => aesGcmOpen_out⟩⟩
  · exact chachaPolyOpen_seal hm key nonce aad plain out tag buf
  · exact aesGcmOpen_seal hm hbits key nonce aad plain out tag buf

theorem aead_opens_boot :
    (moduleInit true .zero).1 = .ok ∧
      ∃ c t, aesGcmSeal (moduleInit true .zero).2 (some (List.replicate 32 7)) 256
          (some (List.replicate 12 1)) (some [9]) (some [1, 2, 3]) (some (List.replicate 3 0))
          (some (List.replicate 16 0)) = (.ok, some c, some t) ∧
        aesGcmOpen (moduleInit true .zero).2 (some (List.replicate 32 7)) 256
          (some (List.replicate 12 1)) (some [9]) (some (c.take 3)) (some t)
          (List.replicate 3 0) = (.ok, overlay (List.replicate 3 0) [1, 2, 3]) := by
  have hboot : (moduleInit true .zero).1 = .ok := moduleInit_ok .zero
  exact ⟨hboot, ((aead_opens true .zero hboot).1 _ _ _ _ _ _ _).2 256 (.inr rfl)⟩

end Crypto
