import OpenWindows.Netwerk.Link

/-!
# The keep-alive account

`netwerk_link_tick` counts the full keep-alive intervals since the last activity.
It adds to `missed_beats` and to `heartbeats` what `interval_count` does not have
yet, so a tick that comes late makes up for those that did not come.  Ticks whose
times do not decrease leave the account that one tick at the last time leaves
(`Link.ticks_eq`), up to the tick that finds the link timed out.

A time before the last activity starts the account again.  Such a tick keeps
`missed_beats`, and what comes after it depends on the ticks that were called.
-/

namespace Netwerk

/-- The argument of a call of `netwerk_link_tick`, and the kernel clock during it. -/
structure Tick where
  now : UInt64
  clock : Option UInt64

/-- The time that a call reads. -/
def Tick.time? (k : Tick) : Option UInt64 := Link.now? k.now k.clock

def Link.ticks (ln : Link) (ks : List Tick) : Link :=
  ks.foldl (fun ln k => (ln.tick k.now k.clock).2) ln

/-- Ticks in the order of time. -/
inductive Schedule : UInt64 → List Tick → UInt64 → Prop where
  | nil {t : UInt64} : Schedule t [] t
  | cons {p s t : UInt64} {k : Tick} {ks : List Tick} :
      k.time? = some s → p ≤ s → Schedule s ks t → Schedule p (k :: ks) t

/-- The time since the last activity. -/
def Link.elapsed (ln : Link) (t : UInt64) : Nat := t.toNat - ln.lastActivity.toNat

/-- The full keep-alive intervals since the last activity. -/
def Link.intervals (ln : Link) (t : UInt64) : Nat := ln.elapsed t / ln.keepaliveMs.toNat

def Link.accounted (ln : Link) (t : UInt64) : Link :=
  { ln with
    intervalCount := UInt64.ofNat (max ln.intervalCount.toNat (ln.intervals t))
    missedBeats := ln.missedBeats + UInt32.ofNat (ln.intervals t - ln.intervalCount.toNat)
    heartbeats := ln.heartbeats + UInt32.ofNat (ln.intervals t - ln.intervalCount.toNat) }

theorem Schedule.le {p t : UInt64} {ks : List Tick} (h : Schedule p ks t) : p ≤ t := by
  induction h with
  | nil => exact UInt64.le_refl _
  | cons _ hle _ ih => exact UInt64.le_trans hle ih

namespace Link

variable {ln : Link} {s t : UInt64} {k : Tick} {ks ks' : List Tick}

/-! ## Intervals -/

theorem intervals_lt (ln : Link) (t : UInt64) : ln.intervals t < 2 ^ 64 :=
  Nat.lt_of_le_of_lt (Nat.div_le_self ..) (Nat.lt_of_le_of_lt (Nat.sub_le ..) t.toNat_lt)

theorem elapsed_le (ln : Link) (h : s ≤ t) : ln.elapsed s ≤ ln.elapsed t :=
  Nat.sub_le_sub_right (UInt64.le_iff_toNat_le.mp h) _

theorem intervals_le (ln : Link) (h : s ≤ t) : ln.intervals s ≤ ln.intervals t :=
  Nat.div_le_div_right (elapsed_le ln h)

theorem toNat_full (h : ln.lastActivity ≤ t) :
    ((t - ln.lastActivity) / ln.keepaliveMs.toUInt64).toNat = ln.intervals t := by
  rw [UInt64.toNat_div, UInt64.toNat_sub_of_le _ _ h, UInt32.toNat_toUInt64]
  rfl

@[simp] theorem toNat_accounted_intervalCount (ln : Link) (t : UInt64) :
    (ln.accounted t).intervalCount.toNat = max ln.intervalCount.toNat (ln.intervals t) :=
  UInt64.toNat_ofNat_of_lt' (Nat.max_lt.mpr ⟨ln.intervalCount.toNat_lt, ln.intervals_lt t⟩)

@[simp] theorem intervals_accounted (ln : Link) (s t : UInt64) :
    (ln.accounted s).intervals t = ln.intervals t := rfl

theorem accounted_of_le (h : ln.intervals t ≤ ln.intervalCount.toNat) : ln.accounted t = ln := by
  simp [accounted, Nat.max_eq_left h, Nat.sub_eq_zero_of_le h]

theorem accounted_accounted (h : s ≤ t) : (ln.accounted s).accounted t = ln.accounted t := by
  have hle := intervals_le ln h
  have hmax : max (max ln.intervalCount.toNat (ln.intervals s)) (ln.intervals t) =
      max ln.intervalCount.toNat (ln.intervals t) := by
    rw [Nat.max_assoc, Nat.max_eq_right hle]
  have hsum : ln.intervals s - ln.intervalCount.toNat +
      (ln.intervals t - max ln.intervalCount.toNat (ln.intervals s)) =
      ln.intervals t - ln.intervalCount.toNat := by omega
  have hadd : ∀ a : UInt32, a + UInt32.ofNat (ln.intervals s - ln.intervalCount.toNat) +
      UInt32.ofNat (ln.intervals t - max ln.intervalCount.toNat (ln.intervals s)) =
      a + UInt32.ofNat (ln.intervals t - ln.intervalCount.toNat) := by
    intro a
    rw [UInt32.add_assoc, ← UInt32.ofNat_add, hsum]
  rw [accounted, toNat_accounted_intervalCount, intervals_accounted, hmax]
  simp only [accounted, hadd]

/-! ## Ticks -/

/-- A count that fits 32 bits is not cut off. -/
theorem clamp32_eq {missed : UInt64} (h : missed.toNat < 2 ^ 32) :
    clamp32 missed = UInt32.ofNat missed.toNat := by
  have hle : ¬ missed > 0xFFFFFFFF := by
    rw [gt_iff_lt, UInt64.lt_iff_toNat_lt]
    exact Nat.not_lt.mpr (Nat.le_of_lt_succ h)
  rw [clamp32, if_neg hle]
  rfl

/-- The beats that a tick at a time counts. -/
def counted (ln : Link) (t : UInt64) : Link :=
  let full := (t - ln.lastActivity) / ln.keepaliveMs.toUInt64
  if full > ln.intervalCount then
    let missed := clamp32 (full - ln.intervalCount)
    { ln with
      intervalCount := full
      missedBeats := ln.missedBeats + missed
      heartbeats := ln.heartbeats + missed }
  else ln

@[simp] theorem counted_timeoutMs (ln : Link) (t : UInt64) :
    (ln.counted t).timeoutMs = ln.timeoutMs := by
  simp only [counted]
  split <;> rfl

theorem counted_eq (hle : ln.lastActivity ≤ t) (helapsed : ln.elapsed t < 2 ^ 32) :
    ln.counted t = ln.accounted t := by
  unfold counted
  have hfull := toNat_full hle
  dsimp only
  generalize (t - ln.lastActivity) / ln.keepaliveMs.toUInt64 = full at hfull ⊢
  split
  next hmore =>
    have hlt : ln.intervalCount.toNat < ln.intervals t := by
      rw [← hfull]
      exact UInt64.lt_iff_toNat_lt.mp hmore
    have hsmall : ln.intervals t < 2 ^ 32 := Nat.lt_of_le_of_lt (Nat.div_le_self ..) helapsed
    have hsub : (full - ln.intervalCount).toNat = ln.intervals t - ln.intervalCount.toNat := by
      rw [UInt64.toNat_sub_of_le _ _ (UInt64.le_of_lt hmore), hfull]
    have hclamp : clamp32 (full - ln.intervalCount) =
        UInt32.ofNat (ln.intervals t - ln.intervalCount.toNat) := by
      rw [clamp32_eq (by omega), hsub]
    have hcount : full = UInt64.ofNat (max ln.intervalCount.toNat (ln.intervals t)) := by
      rw [Nat.max_eq_right (Nat.le_of_lt hlt), ← hfull, UInt64.ofNat_toNat]
    rw [hclamp, accounted, ← hcount]
  next hmore =>
    refine (accounted_of_le ?_).symm
    rw [← hfull]
    exact UInt64.le_iff_toNat_le.mp (UInt64.not_lt.mp hmore)

theorem timedOut_iff (hle : ln.lastActivity ≤ t) :
    t - ln.lastActivity ≥ ln.timeoutMs.toUInt64 ↔ ln.timeoutMs.toNat ≤ ln.elapsed t := by
  rw [ge_iff_le, UInt64.le_iff_toNat_le, UInt64.toNat_sub_of_le _ _ hle, UInt32.toNat_toUInt64]
  rfl

theorem tick_secure (hsecure : ln.state = .secure) (hkeepalive : ln.keepaliveMs ≠ 0)
    (htime : k.time? = some t) (hle : ln.lastActivity ≤ t) :
    ln.tick k.now k.clock =
      let ln' := ln.counted t
      if ln'.timeoutMs ≠ 0 ∧ t - ln.lastActivity ≥ ln'.timeoutMs.toUInt64 then
        (.banLinkDead, { ln' with state := .dead })
      else (if ln'.missedBeats > 0 then .warnBeatsMissed else .ok, ln') := by
  unfold tick
  rw [show now? k.now k.clock = some t from htime]
  dsimp only
  rw [if_neg (by rw [hsecure]; nofun), if_neg (by rw [hsecure]; nofun), if_neg (not_not.mpr hsecure),
    if_neg hkeepalive, if_neg (UInt64.not_lt.mpr hle)]
  rfl

theorem tick_eq (hsecure : ln.state = .secure) (hkeepalive : ln.keepaliveMs ≠ 0)
    (htime : k.time? = some t) (hle : ln.lastActivity ≤ t)
    (helapsed : ln.elapsed t < ln.timeoutMs.toNat) :
    ln.tick k.now k.clock =
      (if (ln.accounted t).missedBeats > 0 then .warnBeatsMissed else .ok, ln.accounted t) := by
  have hcounted := counted_eq hle (Nat.lt_trans helapsed ln.timeoutMs.toNat_lt)
  have htimeout : ¬ (ln.timeoutMs ≠ 0 ∧ t - ln.lastActivity ≥ ln.timeoutMs.toUInt64) := by
    rintro ⟨-, hout⟩
    exact Nat.not_le.mpr helapsed ((timedOut_iff hle).mp hout)
  rw [tick_secure hsecure hkeepalive htime hle, hcounted]
  exact if_neg htimeout

theorem tick_dead (hsecure : ln.state = .secure) (hkeepalive : ln.keepaliveMs ≠ 0)
    (htimeout : ln.timeoutMs ≠ 0) (htime : k.time? = some t) (hle : ln.lastActivity ≤ t)
    (helapsed : ln.timeoutMs.toNat ≤ ln.elapsed t) :
    (ln.tick k.now k.clock).1 = .banLinkDead ∧ (ln.tick k.now k.clock).2.state = .dead := by
  have hout : (ln.counted t).timeoutMs ≠ 0 ∧
      t - ln.lastActivity ≥ (ln.counted t).timeoutMs.toUInt64 := by
    rw [counted_timeoutMs]
    exact ⟨htimeout, (timedOut_iff hle).mpr helapsed⟩
  rw [tick_secure hsecure hkeepalive htime hle]
  dsimp only
  rw [if_pos hout]
  exact ⟨rfl, rfl⟩

/-! ## Schedules -/

theorem ticks_eq {p : UInt64} (h : Schedule p ks t) (hp : ln.lastActivity ≤ p)
    (hsecure : ln.state = .secure) (hkeepalive : ln.keepaliveMs ≠ 0)
    (hstart : ln.intervals p ≤ ln.intervalCount.toNat)
    (helapsed : ln.elapsed t < ln.timeoutMs.toNat) : ln.ticks ks = ln.accounted t := by
  induction h generalizing ln with
  | nil => exact (accounted_of_le hstart).symm
  | @cons p s t k ks htime hle hrest ih =>
    have hs : ln.lastActivity ≤ s := UInt64.le_trans hp hle
    have hbefore : ln.elapsed s < ln.timeoutMs.toNat :=
      Nat.lt_of_le_of_lt (elapsed_le ln hrest.le) helapsed
    have hstep : (ln.tick k.now k.clock).2 = ln.accounted s := by
      rw [tick_eq hsecure hkeepalive htime hs hbefore]
    have hcaught : (ln.accounted s).intervals s ≤ (ln.accounted s).intervalCount.toNat := by
      simp
    have hrun : (ln.accounted s).ticks ks = (ln.accounted s).accounted t :=
      ih hs hsecure hkeepalive hcaught helapsed
    show ((ln.tick k.now k.clock).2).ticks ks = ln.accounted t
    rw [hstep, hrun, accounted_accounted hrest.le]

theorem intervals_lastActivity (ln : Link) : ln.intervals ln.lastActivity = 0 := by
  simp [intervals, elapsed]

/-- Ticks at times that do not decrease, from the last activity on and below the
timeout, leave an account that depends on the last time only.  The tick that
finds the link timed out kills it. -/
theorem keepalive_accounts (ln : Link) (ks ks' : List Tick) (t : UInt64)
    (hsecure : ln.state = .secure) (hkeepalive : ln.keepaliveMs ≠ 0)
    (h : Schedule ln.lastActivity ks t) (h' : Schedule ln.lastActivity ks' t)
    (helapsed : ln.elapsed t < ln.timeoutMs.toNat) :
    ln.ticks ks = ln.ticks ks' ∧ (ln.ticks ks).state = .secure ∧
    (ln.ticks ks).intervalCount.toNat = max ln.intervalCount.toNat (ln.intervals t) ∧
    (ln.ticks ks).missedBeats =
      ln.missedBeats + UInt32.ofNat (ln.intervals t - ln.intervalCount.toNat) ∧
    (ln.ticks ks).heartbeats =
      ln.heartbeats + UInt32.ofNat (ln.intervals t - ln.intervalCount.toNat) ∧
    (ln.missedBeats.toNat = ln.intervalCount.toNat → ln.intervalCount.toNat ≤ ln.intervals t →
      (ln.ticks ks).missedBeats.toNat = ln.intervals t ∧
        (ln.ticks ks).intervalCount.toNat = ln.intervals t) ∧
    ∀ (k : Tick) (t' : UInt64), k.time? = some t' → t ≤ t' →
      ln.timeoutMs.toNat ≤ ln.elapsed t' →
      ((ln.ticks ks).tick k.now k.clock).1 = .banLinkDead ∧
        ((ln.ticks ks).tick k.now k.clock).2.state = .dead := by
  have hstart : ln.intervals ln.lastActivity ≤ ln.intervalCount.toNat := by
    rw [intervals_lastActivity]
    exact Nat.zero_le _
  have hticks := ticks_eq h (UInt64.le_refl _) hsecure hkeepalive hstart helapsed
  have hticks' := ticks_eq h' (UInt64.le_refl _) hsecure hkeepalive hstart helapsed
  have hsmall : ln.intervals t < 2 ^ 32 :=
    Nat.lt_of_le_of_lt (Nat.div_le_self ..) (Nat.lt_trans helapsed ln.timeoutMs.toNat_lt)
  rw [hticks]
  refine ⟨hticks'.symm, hsecure, toNat_accounted_intervalCount ln t, rfl, rfl, fun heven hle => ?_,
    fun k t' htime hlater hout => ?_⟩
  · refine ⟨?_, by simp [Nat.max_eq_right hle]⟩
    show (ln.missedBeats + UInt32.ofNat (ln.intervals t - ln.intervalCount.toNat)).toNat = _
    have hmore : ln.intervals t - ln.intervalCount.toNat < UInt32.size :=
      Nat.lt_of_le_of_lt (Nat.sub_le ..) hsmall
    rw [UInt32.toNat_add, heven, UInt32.toNat_ofNat_of_lt' hmore, Nat.add_sub_cancel' hle]
    exact Nat.mod_eq_of_lt hsmall
  · have hpos : ln.timeoutMs ≠ 0 := by
      rintro hzero
      rw [hzero] at helapsed
      exact Nat.not_lt_zero _ helapsed
    exact tick_dead hsecure hkeepalive hpos htime (UInt64.le_trans h.le hlater) hout

/-- The first link of a session with a beat in 10 and a timeout of 100, active at 100. -/
def active : Link := ((((Session.init.alloc 0 none).2.2.links 0).setKeepalive 10 100).2.tx 100 none).2

/-- A call with a time. -/
def tickAt (t : UInt64) : Tick := ⟨t, none⟩

theorem schedule_tickAt {p t : UInt64} (hle : p ≤ t) (hpos : t ≠ 0) : Schedule p [tickAt t] t :=
  .cons (if_pos hpos) hle .nil

/-- A late tick makes up for those that did not come, and the one at 200 is too late. -/
theorem keepalive_accounts_active :
    (active.ticks [tickAt 135, tickAt 185]).missedBeats = 8 ∧
      active.ticks [tickAt 135, tickAt 185] = active.ticks [tickAt 185] ∧
      ((active.ticks [tickAt 135, tickAt 185]).tick 200 none).2.state = .dead := by
  have hlate : Schedule active.lastActivity [tickAt 185] 185 :=
    schedule_tickAt (by decide) (by decide)
  have hboth : Schedule active.lastActivity [tickAt 135, tickAt 185] 185 :=
    .cons rfl (by decide) (schedule_tickAt (by decide) (by decide))
  obtain ⟨hsame, -, -, hmissed, -, -, hdead⟩ := keepalive_accounts active _ _ 185 (by decide)
    (by decide) hboth hlate (by decide)
  exact ⟨hmissed.trans (by decide), hsame, (hdead (tickAt 200) 200 rfl (by decide) (by decide)).2⟩

/-- Before the last activity the ticks that were called matter, and a link that the clock has set
back keeps the beats it had missed. -/
theorem keepalive_clock_back :
    (¬ ∀ (ln : Link) (ks ks' : List Tick) (p t : UInt64), ln.state = .secure → ln.keepaliveMs ≠ 0 →
      Schedule p ks t → Schedule p ks' t → ln.elapsed t < ln.timeoutMs.toNat →
      (ln.ticks ks).missedBeats = (ln.ticks ks').missedBeats) ∧
    ¬ ∀ (ln : Link) (ks : List Tick) (t : UInt64), ln.state = .secure → ln.keepaliveMs ≠ 0 →
      Schedule ln.lastActivity ks t → ln.elapsed t < ln.timeoutMs.toNat →
      (ln.ticks ks).missedBeats.toNat = ln.intervals t := by
  constructor
  · intro h
    have hboth : Schedule 50 [tickAt 50, tickAt 70] 70 :=
      .cons rfl (by decide) (schedule_tickAt (by decide) (by decide))
    have hsame := h active _ _ 50 70 (by decide) (by decide) hboth
      (schedule_tickAt (by decide) (by decide)) (by decide)
    revert hsame
    decide
  · intro h
    have hbeats := h (active.ticks [tickAt 135, tickAt 50]) [tickAt 75] 75 (by decide) (by decide)
      (schedule_tickAt (by decide) (by decide)) (by decide)
    revert hbeats
    decide

end Link

end Netwerk
