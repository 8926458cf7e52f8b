import OpenWindows.Lib.Memory
import OpenWindows.Vipm.Mapping

/-!
# Labels

`vipm_volume_register` has its label checked by `vp_validate_path`, which ends on every
string and refuses those of `VIPM_PATH_MAX` bytes or more.  The buffer of a label has
`VIPM_LABEL_MAX` bytes, which are fewer.  A label of a length in between is copied past
the buffer, unless it is refused for its bytes or before they are looked at.
-/

namespace Vipm

open Memory StepSystem Sutf8

/-! ## Validating ends -/

/-- Where `vp_validate_path` is: at a byte of the string, or at byte `pos` of `blen`. -/
inductive Scan where
  | counting (blen : Nat)
  | decoding (blen pos cpcount : Nat)

/-- One turn of the two loops of `vp_validate_path` over the string at `path`. -/
def scanStep (path : Mem) : Scan → Scan ⊕ Except Status (Nat × Nat)
  | .counting blen =>
    if path blen ≠ 0 then .inl (.counting (blen + 1))
    else if blen ≥ pathMax then .inr (.error .errPathTooLong)
    else .inl (.decoding blen 0 0)
  | .decoding blen pos cpcount =>
    if pos < blen then
      let (cp, adv) := sutf8NextCodepoint (load path pos (blen - pos))
      if adv = 0 then .inr (.ok (blen, cpcount))
      else if cp = sucsInvalidCodepoint then .inr (.error .errInvalidSutf8)
      else .inl (.decoding blen (pos + adv) (cpcount + 1))
    else .inr (.ok (blen, cpcount))

/-- A string stands in memory with its NUL. -/
def CString.At (s : CString) (path : Mem) : Prop :=
  load path 0 s.bytes.length = s.bytes ∧ path s.bytes.length = 0

variable {path : Mem} {label : CString} {blen pos cpcount : Nat}

theorem CString.At.ne_zero (h : label.At path) {i : Nat} (hi : i < label.bytes.length) :
    path i ≠ 0 := by
  intro hzero
  have hmem : path i ∈ load path 0 label.bytes.length :=
    List.mem_map.mpr ⟨i, List.mem_range.mpr hi, by rw [Nat.zero_add]⟩
  rw [h.1, hzero] at hmem
  exact label.noNul hmem

theorem CString.At.counts (h : label.At path) {i : Nat} (hi : i ≤ label.bytes.length) :
    Steps (scanStep path) i (.counting 0) (.counting i) := by
  induction i with
  | zero => exact .refl _
  | succ i ih => exact (ih (Nat.le_of_succ_le hi)).tail (if_pos (h.ne_zero hi))

theorem sutf8NextCodepoint_advances {bs : List UInt8} (h : 0 ∉ bs) (hne : bs ≠ []) :
    0 < (sutf8NextCodepoint bs).2 := by
  cases bs with
  | nil => exact absurd rfl hne
  | cons b rest =>
    have hb : b ≠ 0 := fun hb => h (hb ▸ List.mem_cons_self ..)
    rw [sutf8NextCodepoint, if_neg hb]
    cases hdecode : sutf8DecodeChar (b :: rest) with
    | none => exact Nat.one_pos
    | some r => exact sutf8DecodeChar_len_pos hdecode

/-- What the second loop comes to. -/
def scanned (blen : Nat) : Option Nat → Except Status (Nat × Nat)
  | none => .error .errInvalidSutf8
  | some cpcount => .ok (blen, cpcount)

theorem load_drop (path : Mem) (a n k : Nat) :
    (load path a n).drop k = load path (a + k) (n - k) := by
  rcases Nat.le_total k n with hk | hk
  · obtain ⟨d, rfl⟩ := Nat.exists_eq_add_of_le hk
    rw [load_add, List.drop_left' (length_load ..), Nat.add_sub_cancel_left]
  · rw [List.drop_eq_nil_of_le (by rwa [length_load]), Nat.sub_eq_zero_of_le hk]
    rfl

theorem decoding_halts (cpcount : Nat) (hnul : 0 ∉ load path pos (blen - pos)) {rounds : Nat}
    (hrounds : blen - pos ≤ rounds) :
    ∃ n ≤ rounds, Halts (scanStep path) n (.decoding blen pos cpcount)
      (scanned blen (validateLoop rounds (load path pos (blen - pos)) cpcount)) := by
  induction rounds generalizing pos cpcount with
  | zero =>
    refine ⟨0, Nat.le_refl 0, _, .refl _, ?_⟩
    rw [scanStep, if_neg (by omega)]
    rfl
  | succ rounds ih =>
    rcases Nat.lt_or_ge pos blen with hpos | hpos
    · have hne : load path pos (blen - pos) ≠ [] := by
        rw [← List.length_pos_iff, length_load]
        omega
      have hadv := sutf8NextCodepoint_advances hnul hne
      obtain ⟨b, rest, hbs⟩ := List.exists_cons_of_ne_nil hne
      cases hnext : sutf8NextCodepoint (load path pos (blen - pos)) with
      | mk cp adv =>
        rw [hnext] at hadv
        have hturn : scanStep path (.decoding blen pos cpcount) =
            if cp = sucsInvalidCodepoint then .inr (.error .errInvalidSutf8)
            else .inl (.decoding blen (pos + adv) (cpcount + 1)) := by
          rw [scanStep, if_pos hpos, hnext]
          exact if_neg (Nat.ne_of_gt hadv)
        have hloop : validateLoop (rounds + 1) (load path pos (blen - pos)) cpcount =
            if cp = sucsInvalidCodepoint then none
            else validateLoop rounds (load path (pos + adv) (blen - (pos + adv)))
              (cpcount + 1) := by
          rw [← Nat.sub_sub, ← load_drop]
          rw [hbs] at hnext ⊢
          rw [validateLoop, hnext]
          exact if_neg (Nat.ne_of_gt hadv)
        rw [hloop]
        by_cases hcp : cp = sucsInvalidCodepoint
        · rw [if_pos hcp] at hturn ⊢
          exact ⟨0, Nat.zero_le _, _, .refl _, hturn⟩
        · rw [if_neg hcp] at hturn ⊢
          have hrest : 0 ∉ load path (pos + adv) (blen - (pos + adv)) := by
            rw [← Nat.sub_sub, ← load_drop]
            exact fun hmem => hnul (List.mem_of_mem_drop hmem)
          obtain ⟨n, hn, t, hsteps, hstop⟩ := ih (cpcount + 1) hrest (by omega)
          exact ⟨n + 1, Nat.succ_le_succ hn, t, .head hturn hsteps, hstop⟩
    · refine ⟨0, Nat.zero_le _, _, .refl _, ?_⟩
      rw [scanStep, if_neg (Nat.not_lt_of_le hpos), Nat.sub_eq_zero_of_le hpos]
      rfl

theorem validate_halts (h : label.At path) :
    ∃ n ≤ 2 * label.bytes.length + 1,
      Halts (scanStep path) n (.counting 0) (vpValidatePath label) := by
  have hcounts := h.counts (Nat.le_refl _)
  have hend : ¬ path label.bytes.length ≠ 0 := not_not_intro h.2
  unfold vpValidatePath
  dsimp only
  split
  next hlong =>
    refine ⟨_, by omega, _, hcounts, ?_⟩
    rw [scanStep, if_neg hend, if_pos hlong]
  next hshort =>
    have hstart : scanStep path (.counting label.bytes.length) =
        .inl (.decoding label.bytes.length 0 0) := by
      rw [scanStep, if_neg hend, if_neg hshort]
    have hload : load path 0 (label.bytes.length - 0) = label.bytes := h.1
    have hnul : 0 ∉ load path 0 (label.bytes.length - 0) := by
      rw [hload]
      exact label.noNul
    obtain ⟨n, hn, t, hsteps, hstop⟩ :=
      decoding_halts 0 hnul (Nat.le_refl (label.bytes.length - 0))
    refine ⟨label.bytes.length + 1 + n, by omega, t, (hcounts.tail hstart).trans hsteps, ?_⟩
    rw [hload] at hstop
    rw [hstop]
    cases validateLoop label.bytes.length label.bytes 0 <;> rfl

/-! ## Which labels are refused -/

/-- Every codepoint decodes. -/
inductive Decodable : List UInt8 → Prop where
  | nil : Decodable []
  | next {bs : List UInt8} {cp adv : Nat} : sutf8NextCodepoint bs = (cp, adv) → 0 < adv →
      cp ≠ sucsInvalidCodepoint → Decodable (bs.drop adv) → Decodable bs

theorem validateLoop_isSome (cpcount : Nat) {bs : List UInt8} (h : 0 ∉ bs) {rounds : Nat}
    (hrounds : bs.length ≤ rounds) :
    (validateLoop rounds bs cpcount).isSome = true ↔ Decodable bs := by
  induction rounds generalizing bs cpcount with
  | zero =>
    rw [List.eq_nil_of_length_eq_zero (Nat.le_zero.mp hrounds)]
    exact ⟨fun _ => .nil, fun _ => rfl⟩
  | succ rounds ih =>
    cases bs with
    | nil => exact ⟨fun _ => .nil, fun _ => rfl⟩
    | cons b rest =>
      have hadv := sutf8NextCodepoint_advances h (List.cons_ne_nil b rest)
      cases hnext : sutf8NextCodepoint (b :: rest) with
      | mk cp adv =>
        rw [hnext] at hadv
        rw [validateLoop, hnext]
        dsimp only at hadv ⊢
        rw [if_neg (Nat.ne_of_gt hadv)]
        have hrest : 0 ∉ (b :: rest).drop adv := fun hmem => h (List.mem_of_mem_drop hmem)
        have hlen : ((b :: rest).drop adv).length ≤ rounds := by
          rw [List.length_drop]
          omega
        split
        next hcp =>
          refine ⟨nofun, fun hd => ?_⟩
          cases hd with
          | next heq _ hne _ =>
            rw [hnext] at heq
            cases heq
            exact absurd hcp hne
        next hcp =>
          rw [ih (cpcount + 1) hrest hlen]
          refine ⟨fun hd => .next hnext hadv hcp hd, fun hd => ?_⟩
          cases hd with
          | next heq _ _ hd =>
            rw [hnext] at heq
            cases heq
            exact hd

theorem vpValidatePath_ok_iff :
    (∃ cps, vpValidatePath label = .ok (label.bytes.length, cps)) ↔
      label.bytes.length < pathMax ∧ Decodable label.bytes := by
  rw [← validateLoop_isSome 0 label.noNul (Nat.le_refl _)]
  unfold vpValidatePath
  dsimp only
  split
  next hlong =>
    constructor
    · rintro ⟨cps, h⟩
      cases h
    · exact fun h => absurd h.1 (Nat.not_lt_of_le hlong)
  next hshort =>
    cases validateLoop label.bytes.length label.bytes 0 with
    | none =>
      constructor
      · rintro ⟨cps, h⟩
        cases h
      · exact fun h => absurd h.2 Bool.false_ne_true
    | some cps => exact ⟨fun _ => ⟨Nat.lt_of_not_le hshort, rfl⟩, fun _ => ⟨cps, rfl⟩⟩

/-! ## Registering -/

variable {m : Manager} {volumeId : UInt8} {base : UInt64}

/-- The indices of the label's buffer that `vipm_volume_register` writes. -/
def labelWrites (m : Manager) (volumeId : UInt8) (label : CString) : List Nat :=
  if !m.initialized then []
  else if volumeId.toNat ≥ maxVolumes then []
  else
    match vpValidatePath label with
    | .error _ => []
    | .ok (blen, _) =>
      if hasVolume m volumeId then []
      else
        match (List.range maxVolumes).find? fun i => !(m.volumes i).registered with
        | none => []
        | some _ => List.range (blen + 1)

/-- What a call is meant to do with its label: the buffer is not overrun, and a label that
does not fit is refused, with `VIPM_ERR_LABEL_TOO_LONG` where the call comes to it. -/
structure KeepsLabel (m : Manager) (volumeId : UInt8) (base : UInt64) (label : CString) : Prop where
  inside : ∀ i ∈ labelWrites m volumeId label, i < labelMax
  refused : labelMax ≤ label.bytes.length →
    ∃ st, st ≠ .ok ∧ vipmVolumeRegister m volumeId base label = some (st, m)
  status : labelMax ≤ label.bytes.length → m.initialized = true → volumeId.toNat < maxVolumes →
    vipmVolumeRegister m volumeId base label = some (.errLabelTooLong, m)

/-- The call comes to a label that is too long for its buffer and passes as a path. -/
structure PassesAsPath (m : Manager) (volumeId : UInt8) (label : CString) : Prop where
  initialized : m.initialized = true
  volume : volumeId.toNat < maxVolumes
  long : labelMax ≤ label.bytes.length
  short : label.bytes.length < pathMax
  decodable : Decodable label.bytes

theorem register_of_ok {cps : Nat} (hok : vpValidatePath label = .ok (label.bytes.length, cps))
    (hinit : m.initialized = true) (hvolume : volumeId.toNat < maxVolumes) :
    vipmVolumeRegister m volumeId base label ≠ some (.errLabelTooLong, m) := by
  rw [vipmVolumeRegister, hinit, hok]
  simp only [Bool.not_true, Bool.false_eq_true, if_false, Nat.not_le.mpr hvolume]
  split
  · simp
  · split
    · simp
    · split
      · simp
      · simp

theorem register_of_error {st : Status} (herr : vpValidatePath label = .error st)
    (hinit : m.initialized = true) (hvolume : volumeId.toNat < maxVolumes) :
    vipmVolumeRegister m volumeId base label = some (.errLabelTooLong, m) := by
  rw [vipmVolumeRegister, hinit, herr]
  simp [hvolume]

theorem labelWrites_of_error {st : Status} (herr : vpValidatePath label = .error st) :
    labelWrites m volumeId label = [] := by
  rw [labelWrites, herr]
  split
  · rfl
  · split
    · rfl
    · rfl

theorem labelWrites_le {i : Nat} (h : i ∈ labelWrites m volumeId label) :
    i ≤ label.bytes.length := by
  rcases vpValidatePath_cases label with ⟨cps, hok⟩ | herr | herr
  · rw [labelWrites, hok] at h
    simp only [ge_iff_le] at h
    split at h
    · cases h
    · split at h
      · cases h
      · split at h
        · cases h
        · split at h
          · cases h
          · exact Nat.le_of_lt_succ (List.mem_range.mp h)
  · rw [labelWrites_of_error herr] at h
    cases h
  · rw [labelWrites_of_error herr] at h
    cases h

theorem refused_early (h : ¬ (m.initialized = true ∧ volumeId.toNat < maxVolumes)) :
    labelWrites m volumeId label = [] ∧
      ∃ st, st ≠ .ok ∧ vipmVolumeRegister m volumeId base label = some (st, m) := by
  cases hinit : m.initialized with
  | false =>
    rw [labelWrites, vipmVolumeRegister, hinit]
    exact ⟨rfl, .errNotInit, (by decide), rfl⟩
  | true =>
    have hvolume : volumeId.toNat ≥ maxVolumes := Nat.le_of_not_lt fun hlt => h ⟨hinit, hlt⟩
    rw [labelWrites, vipmVolumeRegister, hinit]
    simp only [Bool.not_true, Bool.false_eq_true, if_false, if_pos hvolume]
    exact ⟨trivial, .errInvalidKey, (by decide), rfl⟩

theorem keepsLabel_of_early (h : ¬ (m.initialized = true ∧ volumeId.toNat < maxVolumes)) :
    KeepsLabel m volumeId base label := by
  obtain ⟨hwrites, hrefused⟩ :
      labelWrites m volumeId label = [] ∧
        ∃ st, st ≠ .ok ∧ vipmVolumeRegister m volumeId base label = some (st, m) :=
    refused_early h
  refine ⟨?_, fun _ => hrefused, fun _ hinit hvolume => absurd ⟨hinit, hvolume⟩ h⟩
  rw [hwrites]
  nofun

theorem keepsLabel_of_error {st : Status} (herr : vpValidatePath label = .error st) :
    KeepsLabel m volumeId base label := by
  refine ⟨?_, fun _ => ?_, fun _ hinit hvolume => register_of_error herr hinit hvolume⟩
  · rw [labelWrites_of_error herr]
    nofun
  · by_cases hcome : m.initialized = true ∧ volumeId.toNat < maxVolumes
    · exact ⟨.errLabelTooLong, by decide, register_of_error herr hcome.1 hcome.2⟩
    · exact (refused_early hcome).2

/-- `vp_validate_path` ends on every string, and a call keeps to its label exactly if the
label does not pass as a path that is too long for it. -/
theorem label_registered (m : Manager) (volumeId : UInt8) (base : UInt64) (label : CString) :
    (∀ path, label.At path → ∃ n r, Halts (scanStep path) n (.counting 0) r) ∧
      (KeepsLabel m volumeId base label ↔ ¬ PassesAsPath m volumeId label) := by
  refine ⟨fun path hat => ?_, fun hkeeps hpasses => ?_, fun hnot => ?_⟩
  · obtain ⟨n, -, hhalts⟩ := validate_halts hat
    exact ⟨n, _, hhalts⟩
  · obtain ⟨cps, hok⟩ := vpValidatePath_ok_iff.mpr ⟨hpasses.short, hpasses.decodable⟩
    exact register_of_ok hok hpasses.initialized hpasses.volume
      (hkeeps.status hpasses.long hpasses.initialized hpasses.volume)
  · rcases vpValidatePath_cases label with ⟨cps, hok⟩ | herr | herr
    · obtain ⟨hshort, hdecodable⟩ := vpValidatePath_ok_iff.mp ⟨cps, hok⟩
      rcases Nat.lt_or_ge label.bytes.length labelMax with hfits | hlong
      · exact
          { inside := fun i hi => Nat.lt_of_le_of_lt (labelWrites_le hi) hfits
            refused := fun h => absurd hfits (Nat.not_lt_of_le h)
            status := fun h => absurd hfits (Nat.not_lt_of_le h) }
      · exact keepsLabel_of_early fun hcome =>
          hnot ⟨hcome.1, hcome.2, hlong, hshort, hdecodable⟩
    · exact keepsLabel_of_error herr
    · exact keepsLabel_of_error herr

def longLabel : CString := ⟨List.replicate 48 97, by decide⟩

/-- On a manager that was just initialized the NUL of a label of 48 letters is written to
index 48. -/
theorem label_overrun :
    labelMax ≤ longLabel.bytes.length ∧ 48 ∈ labelWrites (vipmInitManager .zeroed).2 0 longLabel ∧
      ¬ KeepsLabel (vipmInitManager .zeroed).2 0 0 longLabel := by
  have hmem : 48 ∈ labelWrites (vipmInitManager .zeroed).2 0 longLabel := by decide
  exact ⟨by decide, hmem, fun h => absurd (h.inside 48 hmem) (by decide)⟩

end Vipm
