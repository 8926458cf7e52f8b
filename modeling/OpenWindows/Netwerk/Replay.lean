import OpenWindows.Netwerk.Run
import OpenWindows.Lib.Window

/-!
# Replay protection of links

A link keeps the highest sequence number it has accepted and a mask of 64 bits for
the numbers below it.  Over every run since its allocation the two stand for exactly
the numbers accepted: so no number is accepted twice, and a number inside the window
that was not accepted before is let through to the cryptography.
-/

namespace Netwerk

open Crypto (Ptr Module)
open StepSystem Window Words

/-! ## The window -/

/-- The window of a link stands for the numbers it has accepted. -/
def Tracking (ln : Link) (seen : List UInt64) : Prop :=
  Tracks 64 ln.rxHi.toNat ln.rxMask.toNat.testBit (· ∈ seen.map UInt64.toNat)

theorem toNat_mem_map {seen : List UInt64} {seq : UInt64} :
    seq.toNat ∈ seen.map UInt64.toNat ↔ seq ∈ seen := by
  constructor
  · intro h
    obtain ⟨q, hq, heq⟩ := List.mem_map.mp h
    rwa [← UInt64.toNat_inj.mp heq]
  · exact List.mem_map_of_mem

theorem toNat_distance {hi seq : UInt64} (h : ¬ seq > hi) :
    (hi - seq).toNat = hi.toNat - seq.toNat :=
  UInt64.toNat_sub_of_le hi seq (UInt64.not_lt.mp h)

variable {ln ln' : Link} {seen : List UInt64} {seq : UInt64}

theorem Tracking.of_wiped (hmask : ln.rxMask = 0) : Tracking ln [] := by
  have hbits : ln.rxMask.toNat.testBit = fun _ => false := by
    funext d
    rw [hmask]
    exact Nat.zero_testBit d
  have hnone : (· ∈ ([] : List UInt64).map UInt64.toNat) = fun _ => False := by
    funext n
    simp
  unfold Tracking
  rw [hbits, hnone]
  exact Tracks.empty 64 ln.rxHi.toNat

theorem Tracking.replayOk_iff (h : Tracking ln seen) :
    ln.replayOk seq = true ↔ seq ∉ seen ∧ ln.rxHi.toNat < seq.toNat + 64 := by
  unfold Link.replayOk
  split
  next hgt =>
    have hlt := UInt64.lt_iff_toNat_lt.mp hgt
    have hnew : seq ∉ seen := by
      intro hmem
      have hle := h.le _ (toNat_mem_map.mpr hmem)
      omega
    exact ⟨fun _ => ⟨hnew, by omega⟩, fun _ => rfl⟩
  next hle =>
    have hdist := toNat_distance hle
    have hseq : seq.toNat ≤ ln.rxHi.toNat := UInt64.le_iff_toNat_le.mp (UInt64.not_lt.mp hle)
    split
    next hfar =>
      have hfar' : 64 ≤ (ln.rxHi - seq).toNat := UInt64.le_iff_toNat_le.mp hfar
      have hbelow : ¬ ln.rxHi.toNat < seq.toNat + 64 := by omega
      exact ⟨fun hno => (Bool.false_ne_true hno).elim, fun hyes => absurd hyes.2 hbelow⟩
    next hnear =>
      have hnear' : (ln.rxHi - seq).toNat < 64 := UInt64.lt_iff_toNat_lt.mp (UInt64.not_le.mp hnear)
      have hinside : ln.rxHi.toNat < seq.toNat + 64 := by omega
      have hbit := h.bit_iff hseq (by omega)
      rw [toNat_mem_map, ← hdist] at hbit
      rw [beq_iff_eq, and_one_shiftLeft _ _ hnear', ← hbit, Bool.not_eq_true]
      exact ⟨fun hclear => ⟨hclear, hinside⟩, fun hyes => hyes.1⟩

theorem Tracking.congr (h : Tracking ln seen) (hhi : ln'.rxHi = ln.rxHi)
    (hmask : ln'.rxMask = ln.rxMask) : Tracking ln' seen := by
  unfold Tracking
  rw [hhi, hmask]
  exact h

theorem mem_map_concat (seen : List UInt64) (seq : UInt64) :
    (· ∈ (seen ++ [seq]).map UInt64.toNat) =
      fun n => n ∈ seen.map UInt64.toNat ∨ n = seq.toNat := by
  funext n
  simp

theorem Tracking.accept (h : Tracking ln seen) (hok : ln.replayOk seq = true) :
    Tracking (ln.replayAccept seq) (seen ++ [seq]) := by
  have hinside := (h.replayOk_iff.mp hok).2
  unfold Tracking
  rw [mem_map_concat]
  unfold Link.replayAccept
  split
  next hgt =>
    have hlt := UInt64.lt_iff_toNat_lt.mp hgt
    have hstep : (seq - ln.rxHi).toNat = seq.toNat - ln.rxHi.toNat :=
      UInt64.toNat_sub_of_le seq ln.rxHi (UInt64.le_of_lt hgt)
    have hback : seq.toNat = ln.rxHi.toNat + (seq - ln.rxHi).toNat := by omega
    rw [hback]
    refine Tracks.advance h (by omega) fun d hd => ?_
    dsimp only
    split
    next hfar =>
      -- nothing of the old mask is left
      have hfar' : 64 ≤ (seq - ln.rxHi).toNat := UInt64.le_iff_toNat_le.mp hfar
      have hone : (1 : UInt64).toNat = 1 := rfl
      have hout : decide ((seq - ln.rxHi).toNat ≤ d) = false := decide_eq_false (by omega)
      rw [hone, hout, Bool.false_and, Bool.or_false, testBit_one]
    next hnear =>
      have hnear' : (seq - ln.rxHi).toNat < 64 := UInt64.lt_iff_toNat_lt.mp (UInt64.not_le.mp hnear)
      rw [UInt64.toNat_or, Nat.testBit_or, testBit_shiftLeft _ _ hnear' hd, Bool.or_comm]
      exact congrArg (· || _) (testBit_one d)
  next hle =>
    have hdist := toNat_distance hle
    have hseq : seq.toNat ≤ ln.rxHi.toNat := UInt64.le_iff_toNat_le.mp (UInt64.not_lt.mp hle)
    refine Tracks.mark h hseq fun d hd => ?_
    dsimp only
    rw [UInt64.toNat_or, Nat.testBit_or, testBit_one_shiftLeft _ (by omega) hd, hdist]

/-! ## Runs since an allocation -/

/-- The number that a call has link `i` accept. -/
def acceptedBy (i : Fin maxLinks) (w : World) : Op → Option UInt64
  | .openLinkFrame j key frame plainOut lenOut scanBan =>
    if j = i ∧ (w.openFrame j key frame plainOut lenOut scanBan).status = .ok then
      frame.bind readEnvelope
    else none
  | _ => none

/-- A call, together with the numbers that link `i` has accepted so far. -/
def observe (i : Fin maxLinks) (t : World × List UInt64) (op : Op) : World × List UInt64 :=
  (t.1.next op, t.2 ++ (acceptedBy i t.1 op).toList)

def SameWindow (ln ln' : Link) : Prop := ln'.rxHi = ln.rxHi ∧ ln'.rxMask = ln.rxMask

theorem SameWindow.of_eq (h : ln' = ln) : SameWindow ln ln' := by
  rw [h]
  exact ⟨rfl, rfl⟩

theorem Link.tick_window (ln : Link) (now : UInt64) (clock : Option UInt64) :
    SameWindow ln (ln.tick now clock).2 := by
  unfold Link.tick
  split
  · exact ⟨rfl, rfl⟩
  next t =>
    dsimp only
    repeat' split
    all_goals exact ⟨rfl, rfl⟩

theorem Link.tx_window (ln : Link) (now : UInt64) (clock : Option UInt64) :
    SameWindow ln (ln.tx now clock).2 := by
  unfold Link.tx
  split
  · exact ⟨rfl, rfl⟩
  · split
    · exact ⟨rfl, rfl⟩
    · exact ⟨rfl, rfl⟩

theorem LinkCall.run_window {call : LinkCall} (h : call ≠ .reset) :
    SameWindow ln (call.run ln).2 := by
  cases call with
  | reset => exact absurd rfl h
  | activate =>
    simp only [LinkCall.run, Link.activate]
    split
    · exact ⟨rfl, rfl⟩
    · split
      · exact ⟨rfl, rfl⟩
      · exact ⟨rfl, rfl⟩
  | close => exact ⟨rfl, rfl⟩
  | setKeepalive keepaliveMs timeoutMs =>
    simp only [LinkCall.run, Link.setKeepalive]
    split
    · exact ⟨rfl, rfl⟩
    · split
      · exact ⟨rfl, rfl⟩
      · exact ⟨rfl, rfl⟩
  | setBanSignal hook ctx => exact ⟨rfl, rfl⟩
  | tx now clock | rx now clock => exact ln.tx_window now clock
  | tick now clock => exact ln.tick_window now clock

/-- What a call does to the window of link `i`: nothing, or it accepts a number that
the window lets through. -/
inductive WindowStep (ln ln' : Link) : Option UInt64 → Prop where
  | kept : SameWindow ln ln' → WindowStep ln ln' none
  | accepted {seq : UInt64} : ln.replayOk seq = true → SameWindow (ln.replayAccept seq) ln' →
      WindowStep ln ln' (some seq)

variable {w : World} {i : Fin maxLinks}

theorem window_openLinkFrame (w : World) (i j : Fin maxLinks) (key frame plainOut : Ptr)
    (lenOut scanBan : Bool) :
    WindowStep (w.session.links i)
      ((w.next (.openLinkFrame j key frame plainOut lenOut scanBan)).session.links i)
      (acceptedBy i w (.openLinkFrame j key frame plainOut lenOut scanBan)) := by
  have hend : OpenEnd w.session j frame (w.openFrame j key frame plainOut lenOut scanBan).status
      (w.openFrame j key frame plainOut lenOut scanBan).session := openLinkFrame_end ..
  simp only [World.next, acceptedBy]
  generalize w.openFrame j key frame plainOut lenOut scanBan = r at hend ⊢
  obtain ⟨st, s', _, _, _, _⟩ := r
  dsimp only at hend ⊢
  have hnone (hst : st ≠ .ok) :
      (if j = i ∧ st = .ok then frame.bind readEnvelope else none) = none :=
    if_neg fun h => hst h.2
  by_cases hji : j = i
  · subst hji
    cases hend with
    | refused hst =>
      rw [hnone hst]
      exact .kept ⟨rfl, rfl⟩
    | replayed =>
      rw [hnone nofun, Session.setLink_links_self]
      exact .kept ⟨rfl, rfl⟩
    | forged =>
      rw [hnone nofun, noteAuthFail_links, Function.update_self]
      exact .kept ⟨rfl, rfl⟩
    | banned =>
      rw [hnone nofun, noteBan_links, Function.update_self]
      exact .kept ⟨rfl, rfl⟩
    | accepted hframe hseq hban hok =>
      rw [if_pos ⟨rfl, rfl⟩, hframe, Option.bind_some, hseq, noteAccept_links, Function.update_self]
      exact .accepted hok ⟨rfl, rfl⟩
  · rw [if_neg fun h => hji h.1]
    exact .kept (.of_eq (hend.links_ne (Ne.symm hji)))

variable {op : Op} {plain : List UInt8}

theorem window_step (h : SameAllocation i w op) :
    WindowStep (w.session.links i) ((w.next op).session.links i) (acceptedBy i w op) := by
  cases op with
  | moduleInit k64 boot =>
    refine .kept (.of_eq ?_)
    simp only [World.next, moduleInit_session]
  | moduleShutdown =>
    refine .kept (.of_eq ?_)
    simp only [World.next, moduleShutdown_session]
  | cryptoInit boot | cryptoShutdown => exact .kept ⟨rfl, rfl⟩
  | sessionInit => exact h.elim
  | sessionReset => exact h.elim
  | sessionSetBanSignal hook ctx => exact .kept ⟨rfl, rfl⟩
  | alloc dir peer => exact .kept (.of_eq (Session.alloc_links h))
  | free j =>
    refine .kept ?_
    by_cases hij : i = j
    · subst hij
      rcases Session.free_links_self (s := w.session) (i := i) with heq | heq
      · exact .of_eq heq
      · simp only [World.next, heq]
        exact ⟨rfl, rfl⟩
    · exact .of_eq (Session.free_links hij)
  | onLink j call =>
    refine .kept ?_
    by_cases hij : i = j
    · subst hij
      simp only [World.next, Session.setLink_links_self]
      exact LinkCall.run_window fun hreset => by
        rw [hreset] at h
        exact h rfl
    · exact .of_eq (Session.setLink_links_ne _ _ hij)
  | sealLinkFrame j key seq plain frame frameLen =>
    refine .kept ?_
    simp only [World.next, World.sealFrame]
    rcases sealLinkFrame_cases w.crypto w.session j key seq plain frame frameLen with
      ⟨_, heq⟩ | ⟨_, total, heq⟩
    · exact .of_eq (by rw [heq])
    · rw [heq, noteSeal_links]
      by_cases hij : i = j
      · subst hij
        rw [Function.update_self]
        exact ⟨rfl, rfl⟩
      · exact .of_eq (Function.update_of_ne hij ..)
  | openLinkFrame j key frame plainOut lenOut scanBan =>
    exact window_openLinkFrame w i j key frame plainOut lenOut scanBan

/-- What an allocated link has accepted, in every run. -/
def Protected (i : Fin maxLinks) (t : World × List UInt64) : Prop :=
  Tracking (t.1.session.links i) t.2 ∧ t.2.Nodup

theorem Protected.step {t : World × List UInt64} (h : Protected i t)
    (hop : SameAllocation i t.1 op) : Protected i (observe i t op) := by
  obtain ⟨htrack, hnodup⟩ := h
  have hstep := window_step hop
  unfold observe Protected
  dsimp only
  generalize (t.1.next op).session.links i = ln' at hstep ⊢
  generalize acceptedBy i t.1 op = seq? at hstep ⊢
  cases hstep with
  | kept hsame =>
    rw [Option.toList_none, List.append_nil]
    exact ⟨htrack.congr hsame.1 hsame.2, hnodup⟩
  | @accepted seq hok hsame =>
    have hnew := (htrack.replayOk_iff.mp hok).1
    refine ⟨(htrack.accept hok).congr hsame.1 hsame.2, ?_⟩
    rw [Option.toList_some, List.nodup_append]
    refine ⟨hnodup, List.nodup_cons.mpr ⟨List.not_mem_nil, List.nodup_nil⟩, ?_⟩
    rintro a ha b hb rfl
    rw [List.mem_singleton.mp hb] at ha
    exact hnew ha

theorem Session.alloc_wiped {s : Session} {dir : Nat} {peer : Ptr}
    (h : (s.alloc dir peer).2.1 = some i) : ((s.alloc dir peer).2.2.links i).rxMask = 0 := by
  unfold Session.alloc at h ⊢
  split at h
  · cases h
  next hinit =>
    rw [if_neg hinit]
    split at h
    · cases h
    next dir' hdir =>
      split at h
      · cases h
      next hfull =>
        rw [if_neg hfull]
        split at h
        · cases h
        next j hslot =>
          cases h
          simp

/-! ## Frames that are authentic -/

/-- The envelope is well formed, and `owcrypt_open_frame` accepts what is behind it
under the nonce of the sequence number, with that number as the associated data. -/
def Authentic (m : Module) (key : List UInt8) (seq : UInt64) (frame : List UInt8) : Prop :=
  readEnvelope frame = some seq ∧ ∀ out,
    (Crypto.openFrame m (some key) (some (linkMakeNonce seq)) (some (frame.drop linkEnvelope))
        (some out) true false).status = .ok ∧
      (Crypto.openFrame m (some key) (some (linkMakeNonce seq)) (some (frame.drop linkEnvelope))
        (some out) true false).aad = some (seqAad seq)

theorem readEnvelope_envelope (seq : UInt64) {total : Nat} {body : List UInt8}
    (htotal : total = linkEnvelope + body.length) (hmin : Crypto.frameOverhead + seqAadSize + 16 ≤ body.length)
    (hfits : total < 2 ^ 32) : readEnvelope (envelope seq total ++ body) = some seq := by
  have hlen : (envelope seq total ++ body).length = total := by
    simp [envelope, htotal, linkEnvelope]
    omega
  have hlong : ¬ (envelope seq total ++ body).length <
      linkEnvelope + Crypto.frameOverhead + seqAadSize + 16 := by omega
  have hmagic : get32 (envelope seq total ++ body) = frameMagic := by
    rw [envelope, List.append_assoc, get32_put32]
  have hversion : Crypto.byteAt (envelope seq total ++ body) 4 = frameVersion := rfl
  have hseq : (envelope seq total ++ body).drop 5 = put64 seq ++ (put32 (UInt32.ofNat total) ++ body) := by
    rw [envelope, ← List.append_assoc, List.append_assoc _ _ body, List.drop_left' (by rfl), List.append_assoc]
  have hfield : (envelope seq total ++ body).drop 13 = put32 (UInt32.ofNat total) ++ body := by
    rw [show (13 : Nat) = 5 + 8 from rfl, ← List.drop_drop, hseq, List.drop_left' (length_put64 seq)]
  have hnat : (UInt32.ofNat total).toNat = total := by
    rw [UInt32.toNat_ofNat', Nat.mod_eq_of_lt hfits]
  rw [readEnvelope, if_neg hlong, hmagic, hversion, if_neg (by simp), hfield, get32_put32, hnat, hlen,
    if_neg (by simp), hseq, get64_put64]

def linkFrame (key : List UInt8) (seq : UInt64) (plain : List UInt8) : List UInt8 :=
  let body := Crypto.sealedBytes key (linkMakeNonce seq) (seqAad seq) plain
  envelope seq (linkEnvelope + body.length) ++ body

theorem length_linkFrame (key : List UInt8) (seq : UInt64) (plain : List UInt8) :
    (linkFrame key seq plain).length =
      linkEnvelope + Crypto.frameOverhead + seqAadSize + plain.length + 16 := by
  simp [linkFrame, envelope, Crypto.length_sealedBytes, linkEnvelope, seqAad, seqAadSize]
  omega

theorem authentic_linkFrame {m : Module} (hm : m.initialized = true) {key : List UInt8}
    (hfits : (linkFrame key seq plain).length < 2 ^ 32) :
    Authentic m key seq (linkFrame key seq plain) := by
  rw [length_linkFrame] at hfits
  have hlen := Crypto.length_sealedBytes key (linkMakeNonce seq) (seqAad seq) plain
  have haad : (seqAad seq).length = seqAadSize := rfl
  have hsize : seqAadSize = 8 := rfl
  rw [haad] at hlen
  refine ⟨readEnvelope_envelope seq rfl (by omega) (by omega), fun out => ?_⟩
  have hbehind : (linkFrame key seq plain).drop linkEnvelope =
      Crypto.sealedBytes key (linkMakeNonce seq) (seqAad seq) plain := List.drop_left' (by rfl)
  have hopen := Crypto.openFrame_sealedBytes (m := m) hm (by omega : (seqAad seq).length < 2 ^ 32)
    (by omega : plain.length < 2 ^ 32) key (linkMakeNonce seq) [] out
  rw [List.append_nil] at hopen
  rw [hbehind, hopen]
  exact ⟨rfl, rfl⟩

theorem Authentic.accepted {m : Module} {s : Session} {key frame : List UInt8}
    (h : Authentic m key seq frame) (hban : (s.links i).state ≠ .banned)
    (hok : (s.links i).replayOk seq = true) (out : List UInt8) :
    (openLinkFrame m s i (some key) (some frame) (some out) true false).status = .ok := by
  obtain ⟨henv, hopen⟩ := h
  obtain ⟨hst, haad⟩ := hopen out
  have hsame : Crypto.ctMemcmp (seqAad seq) (seqAad seq) seqAadSize = true :=
    Crypto.ctMemcmp_of_eq fun _ _ => rfl
  have hcheck : ¬ ((seqAad seq).length ≠ seqAadSize ∨
      (!Crypto.ctMemcmp (seqAad seq) (seqAad seq) seqAadSize) = true) := by
    rw [hsame]
    simp [seqAad, seqAadSize]
  simp only [openLinkFrame, if_neg hban, henv, hok, Bool.not_true, Bool.false_eq_true, if_false,
    hst, ne_eq, not_true_eq_false, haad, Option.getD_some]
  rw [if_neg hcheck]

/-- Over every run since the allocation of a link, each sequence number is accepted
at most once; a frame that is not accepted leaves the window as it is; and an
authentic frame whose number was not accepted and is greater than `rx_hi - 64` is
accepted, unless the link is banned. -/
theorem replay_protection (u : World) (dir : Nat) (peer : Ptr) {i : Fin maxLinks}
    (halloc : (u.session.alloc dir peer).2.1 = some i) {ops : List Op} {w : World}
    {seen : List UInt64}
    (hrun : Calls (fun t op => SameAllocation i t.1 op) (observe i) (u.next (.alloc dir peer), [])
      ops (w, seen)) :
    seen.Nodup ∧
    (∀ key frame plainOut lenOut scanBan,
      (w.openFrame i key frame plainOut lenOut scanBan).status ≠ .ok →
      ((w.openFrame i key frame plainOut lenOut scanBan).session.links i).rxHi =
          (w.session.links i).rxHi ∧
        ((w.openFrame i key frame plainOut lenOut scanBan).session.links i).rxMask =
          (w.session.links i).rxMask) ∧
    ∀ key seq frame out, Authentic w.crypto key seq frame → seq ∉ seen →
      (w.session.links i).rxHi.toNat < seq.toNat + 64 → (w.session.links i).state ≠ .banned →
      (w.openFrame i (some key) (some frame) (some out) true false).status = .ok := by
  have hinit : Protected i (u.next (.alloc dir peer), []) :=
    ⟨.of_wiped (Session.alloc_wiped halloc), List.nodup_nil⟩
  have hprot : Protected i (w, seen) := hrun.invariant (fun _ _ h hop => h.step hop) hinit
  refine ⟨hprot.2, fun key frame plainOut lenOut scanBan hst => ?_,
    fun key seq frame out hauth hnew hinside hban => ?_⟩
  · have hstep := window_openLinkFrame w i i key frame plainOut lenOut scanBan
    rw [acceptedBy, if_neg fun h => hst h.2] at hstep
    cases hstep with
    | kept hsame => exact hsame
  · exact hauth.accepted hban (hprot.1.replayOk_iff.mpr ⟨hnew, hinside⟩) out

theorem replay_protection_sealed :
    ∃ u w : World, (u.session.alloc 0 none).2.1 = some 0 ∧
      Calls (fun t op => SameAllocation 0 t.1 op) (observe 0) (u.next (.alloc 0 none), [])
        [.openLinkFrame 0 (some (List.replicate 32 7)) (some (linkFrame (List.replicate 32 7) 5 [1]))
          (some [0]) true true] (w, [5]) ∧
      [(5 : UInt64)].Nodup ∧
      (w.openFrame 0 (some (List.replicate 32 7)) (some (linkFrame (List.replicate 32 7) 4 [9]))
        (some [0]) true false).status = .ok := by
  obtain ⟨u, hu⟩ : ∃ u : World,
      u = { session := .init, crypto := { Crypto.Module.zero with initialized := true } } := ⟨_, rfl⟩
  have halloc : (u.session.alloc 0 none).2.1 = some 0 := by
    rw [hu]
    rfl
  obtain ⟨t, ht⟩ : ∃ t, t = observe 0 (u.next (.alloc 0 none), [])
      (.openLinkFrame 0 (some (List.replicate 32 7)) (some (linkFrame (List.replicate 32 7) 5 [1]))
        (some [0]) true true) := ⟨_, rfl⟩
  have hstate : t.2 = [5] ∧ (t.1.session.links 0).rxHi = 5 ∧
      (t.1.session.links 0).state = .secure ∧ t.1.crypto.initialized = true := by
    rw [ht, hu]
    decide +kernel
  obtain ⟨hseen, hhi, hsecure, hm⟩ := hstate
  have hrun : Calls (fun t op => SameAllocation 0 t.1 op) (observe 0) (u.next (.alloc 0 none), [])
      [.openLinkFrame 0 (some (List.replicate 32 7)) (some (linkFrame (List.replicate 32 7) 5 [1]))
        (some [0]) true true] (t.1, [5]) := by
    rw [← hseen, ht]
    exact .snoc .nil trivial
  obtain ⟨hnodup, _, haccepts⟩ := replay_protection u 0 none halloc hrun
  refine ⟨u, t.1, halloc, hrun, hnodup, haccepts _ 4 _ _ (authentic_linkFrame hm ?_) (by decide) ?_ ?_⟩
  · rw [length_linkFrame]
    decide
  · rw [hhi]
    decide
  · rw [hsecure]
    decide

/-! ## Delivery -/

/-- The bytes that a peer sends for a frame it has sealed. -/
def SealedAs (key : List UInt8) (seq : UInt64) (plain frame : List UInt8) : Prop :=
  ∃ (m : Module) (s : Session) (j : Fin maxLinks) (buf : List UInt8) (cap : Nat),
    let r := sealLinkFrame m s j (some key) seq (some plain) (some buf) (some cap)
    r.status = .ok ∧ frame = (r.frame.getD []).take (r.frameLen.getD 0)

theorem SealedAs.eq_linkFrame {key frame : List UInt8} (h : SealedAs key seq plain frame) :
    frame = linkFrame key seq plain := by
  obtain ⟨m, s, j, buf, cap, hok, rfl⟩ := h
  have hbody := Crypto.length_sealedBytes key (linkMakeNonce seq) (seqAad seq) plain
  have haad : (seqAad seq).length = seqAadSize := rfl
  rw [haad] at hbody
  unfold sealLinkFrame at hok ⊢
  dsimp only at hok ⊢
  split_ifs at hok ⊢ with hid hban hdead hcap hst
  · exact absurd hok (sealStatus_ne_ok _)
  · have hm := Crypto.sealFrame_initialized (not_not.mp hst)
    rw [Crypto.sealFrame_eq hm _ (by simp only [haad, linkEnvelope] at hcap ⊢; omega)]
    simp only [Option.getD_some, haad, linkFrame, ← hbody]
    rw [Crypto.overlay, ← List.append_assoc]
    refine List.take_left' ?_
    simp [envelope, linkEnvelope]
    omega

theorem readEnvelope_fits {frame : List UInt8} (h : readEnvelope frame = some seq) :
    frame.length < 2 ^ 32 := by
  unfold readEnvelope at h
  split_ifs at h with hmin hhead htotal
  rw [← not_not.mp htotal]
  exact UInt32.toNat_lt _

theorem readEnvelope_linkFrame {key : List UInt8}
    (hfits : (linkFrame key seq plain).length < 2 ^ 32) :
    readEnvelope (linkFrame key seq plain) = some seq := by
  have hbody := Crypto.length_sealedBytes key (linkMakeNonce seq) (seqAad seq) plain
  have haad : (seqAad seq).length = seqAadSize := rfl
  rw [haad] at hbody
  rw [length_linkFrame] at hfits
  exact readEnvelope_envelope seq rfl (by omega) (by omega)

theorem linkFrame_drop (key : List UInt8) (seq : UInt64) (plain : List UInt8) :
    (linkFrame key seq plain).drop linkEnvelope =
      Crypto.sealedBytes key (linkMakeNonce seq) (seqAad seq) plain ++ [] := by
  rw [List.append_nil]
  exact List.drop_left' (by rfl)

theorem openLinkFrame_linkFrame {m : Module} {s : Session} {key out : List UInt8} {scanBan : Bool}
    (h : (openLinkFrame m s i (some key) (some (linkFrame key seq plain)) (some out) true
      scanBan).status = .ok) :
    readEnvelope (linkFrame key seq plain) = some seq ∧
      (openLinkFrame m s i (some key) (some (linkFrame key seq plain)) (some out) true
        scanBan).plainOut = some (Crypto.overlay out plain) ∧
      (openLinkFrame m s i (some key) (some (linkFrame key seq plain)) (some out) true
        scanBan).plainLen = some plain.length := by
  unfold openLinkFrame at h ⊢
  dsimp only at h ⊢
  split_ifs at h ⊢ with hban
  split at h
  · cases h
  next seq' hseq =>
    have hfits := readEnvelope_fits hseq
    have hlen := length_linkFrame key seq plain
    have hsmall : plain.length < 2 ^ 32 := by omega
    have hseq' := readEnvelope_linkFrame hfits
    rw [hseq', Option.some.injEq] at hseq
    subst hseq
    rw [hseq']
    by_cases hre : (!(s.links i).replayOk seq) = true
    · rw [if_pos hre] at h
      cases h
    · rw [if_neg hre] at h ⊢
      by_cases hst : (Crypto.openFrame m (some key) (some (linkMakeNonce seq))
          (some ((linkFrame key seq plain).drop linkEnvelope)) (some out) true scanBan).status = .ok
      · have hm := Crypto.openFrame_initialized hst
        have haad : (seqAad seq).length < 2 ^ 32 := (by decide : 8 < 2 ^ 32)
        have hopen := Crypto.openFrame_sealedBytes hm haad hsmall key (linkMakeNonce seq) [] out
        rw [if_neg (not_not.mpr hst)] at h ⊢
        split_ifs at h ⊢ with hsame
        rw [Crypto.openFrame_unscanned hst, linkFrame_drop, hopen]
        exact ⟨rfl, rfl, rfl⟩
      · rw [if_pos hst] at h
        exact absurd h (openStatus_ne_ok _)

/-- The plaintext that a call puts at `plain_out` for a frame it accepts on link `i`. -/
def readBy (i : Fin maxLinks) (w : World) : Op → Option (List UInt8)
  | .openLinkFrame j key frame plainOut lenOut scanBan =>
    let r := w.openFrame j key frame plainOut lenOut scanBan
    if j = i ∧ r.status = .ok then some ((r.plainOut.getD []).take (r.plainLen.getD 0)) else none
  | _ => none

def deliver (i : Fin maxLinks) (t : (World × List UInt64) × List (List UInt8)) (op : Op) :
    (World × List UInt64) × List (List UInt8) :=
  (observe i t.1 op, t.2 ++ (readBy i t.1.1 op).toList)

/-- The frames accepted on link `i` were sealed under the key, each number for one message. -/
def Genuine (i : Fin maxLinks) (key : List UInt8) (msg : UInt64 → List UInt8) (w : World) : Op → Prop
  | .openLinkFrame j key' frame plainOut lenOut scanBan =>
    j = i → (w.openFrame i key' frame plainOut lenOut scanBan).status = .ok →
      key' = some key ∧ ∃ seq bytes, frame = some bytes ∧ SealedAs key seq (msg seq) bytes
  | _ => True

variable {key : List UInt8} {msg : UInt64 → List UInt8}

/-- What was read from the link is what was sealed under the numbers it has accepted. -/
def Delivered (i : Fin maxLinks) (msg : UInt64 → List UInt8)
    (t : (World × List UInt64) × List (List UInt8)) : Prop :=
  Protected i t.1 ∧ t.2 = t.1.2.map msg

theorem readBy_eq (h : Genuine i key msg w op) : readBy i w op = (acceptedBy i w op).map msg := by
  cases op with
  | openLinkFrame j key' frame plainOut lenOut scanBan =>
    dsimp only [readBy, acceptedBy]
    by_cases hacc : j = i ∧ (w.openFrame j key' frame plainOut lenOut scanBan).status = .ok
    · obtain ⟨rfl, hok⟩ := hacc
      obtain ⟨rfl, seq, bytes, rfl, hsealed⟩ := h rfl hok
      obtain rfl := hsealed.eq_linkFrame
      rw [if_pos ⟨rfl, hok⟩, if_pos ⟨rfl, hok⟩]
      unfold World.openFrame at hok ⊢
      cases plainOut with
      | none => cases hok
      | some out =>
        cases lenOut with
        | false => cases hok
        | true =>
          obtain ⟨hread, hout, hlen⟩ := openLinkFrame_linkFrame hok
          rw [hout, hlen, Option.bind_some, hread, Option.getD_some, Option.getD_some,
            Crypto.take_overlay]
          rfl
    · rw [if_neg hacc, if_neg hacc]
      rfl
  | _ => rfl

theorem Delivered.step {t : (World × List UInt64) × List (List UInt8)}
    (h : Delivered i msg t) (hop : SameAllocation i t.1.1 op) (hgen : Genuine i key msg t.1.1 op) :
    Delivered i msg (deliver i t op) := by
  refine ⟨h.1.step hop, ?_⟩
  unfold deliver observe
  dsimp only
  rw [h.2, readBy_eq hgen, List.map_append]
  cases acceptedBy i t.1.1 op with
  | none => rfl
  | some seq => rfl

/-- The open of the frame that carries the number as its only byte. -/
def opens (i : Fin maxLinks) (seq : UInt64) : Op :=
  .openLinkFrame i (some (List.replicate 32 7))
    (some (linkFrame (List.replicate 32 7) seq [seq.toUInt8])) (some [0]) true false

end Netwerk
