import OpenWindows.Crypto.Frame
import OpenWindows.Lib.StepSystem

/-!
# Links of `netwerk`

A session is a table of sixteen links.  A link has a lifecycle state, a keep-alive
account, and the window of sequence numbers it has accepted.  Frames are sealed and
opened by `owcrypt`, behind an envelope that carries the sequence number in the
clear.

The calls of the kernel clock and of the ban hook leave the module: the clock is an
argument, and calls of the hook are recorded.
-/

namespace Netwerk

open Crypto (Ptr Module)
open Words

/-- `netwerk_status_t`. -/
inductive Status where
  | ok | banK64Boot | banAuthFail | banReplay | banBancode | banEnvelope | banLinkDead
  | warnBeatsMissed | errUninitialized | errBadArg | errShortOut | errState | errLinksFull
  deriving DecidableEq, Repr

/-- `netwerk_dir_t`. -/
inductive Dir where
  | inbound | outbound
  deriving DecidableEq, Repr

/-- The value of a `netwerk_dir_t`, if it is one of the two. -/
def Dir.ofNat? : Nat → Option Dir
  | 0 => some .inbound
  | 1 => some .outbound
  | _ => none

/-- `netwerk_link_state_t`. -/
inductive LinkState where
  | down | syn | secure | dead | banned
  deriving DecidableEq, Repr

/-- `netwerk_link_t`.  Its defaults are the record that `owcrypt_cleanse` leaves. -/
structure Link where
  state : LinkState := .down
  dir : Dir := .inbound
  id : UInt16 := 0
  peer : List UInt8 := List.replicate 16 0
  /-- Whether `owner` is the session; else it is `NULL`. -/
  owner : Bool := false
  rxHi : UInt64 := 0
  rxMask : UInt64 := 0
  keepaliveMs : UInt32 := 0
  timeoutMs : UInt32 := 0
  lastActivity : UInt64 := 0
  intervalCount : UInt64 := 0
  missedBeats : UInt32 := 0
  heartbeats : UInt32 := 0
  framesTx : UInt64 := 0
  framesRx : UInt64 := 0
  bytesTx : UInt64 := 0
  bytesRx : UInt64 := 0
  authFails : UInt32 := 0
  replays : UInt32 := 0
  bans : UInt32 := 0
  /-- `ban_hook`, with `NULL` as `none` -/
  banHook : Option UInt64 := none
  banCtx : UInt64 := 0
  deriving DecidableEq

/-- `NETW_MAX_LINKS`. -/
abbrev maxLinks : Nat := 16

/-- `netwerk_session_t`. -/
structure Session where
  links : Fin maxLinks → Link := fun _ => {}
  banHook : Option UInt64 := none
  banCtx : UInt64 := 0
  totalFramesTx : UInt64 := 0
  totalFramesRx : UInt64 := 0
  totalAuthFails : UInt32 := 0
  totalBans : UInt32 := 0
  linkCount : UInt32 := 0
  initialized : Bool := false

namespace Session

def setLink (s : Session) (i : Fin maxLinks) (ln : Link) : Session :=
  { s with links := Function.update s.links i ln }

@[simp] theorem setLink_links_self (s : Session) (i : Fin maxLinks) (ln : Link) :
    (s.setLink i ln).links i = ln := Function.update_self ..

theorem setLink_links_ne (s : Session) {i j : Fin maxLinks} (ln : Link) (h : j ≠ i) :
    (s.setLink i ln).links j = s.links j := Function.update_of_ne h ..

/-! ## The registry -/

/-- `netwerk_session_init`. -/
def init : Session := { initialized := true }

/-- `netwerk_session_reset`. -/
def reset : Session := {}

/-- `netwerk_session_set_ban_signal`. -/
def setBanSignal (s : Session) (hook : Option UInt64) (ctx : UInt64) : Session :=
  { s with banHook := hook, banCtx := ctx }

def freeSlot (s : Session) : Option (Fin maxLinks) :=
  (List.finRange maxLinks).find? fun i => (s.links i).id == 0

/-- `netwerk_link_alloc`, with the link it gives out. -/
def alloc (s : Session) (dir : Nat) (peer : Ptr) : Status × Option (Fin maxLinks) × Session :=
  if !s.initialized then (.errUninitialized, none, s)
  else
    match Dir.ofNat? dir with
    | none => (.errBadArg, none, s)
    | some dir =>
      if maxLinks ≤ s.linkCount.toNat then (.errLinksFull, none, s)
      else
        match s.freeSlot with
        | none => (.errLinksFull, none, s)
        | some i =>
          let ln : Link :=
            { id := UInt16.ofNat (i.val + 1), state := .secure, dir, owner := true
              peer := peer.getD (List.replicate 16 0)
              banHook := s.banHook, banCtx := s.banCtx }
          (.ok, some i, { s.setLink i ln with linkCount := s.linkCount + 1 })

/-- `netwerk_link_free`. -/
def free (s : Session) (i : Fin maxLinks) : Status × Session :=
  let ln := s.links i
  if ln.id = 0 then (.errBadArg, s)
  else
    (.ok, { s.setLink i { ln with state := .down, id := 0, owner := false } with
      linkCount := if s.linkCount > 0 then s.linkCount - 1 else s.linkCount })

end Session

/-! ## Link state -/

namespace Link

/-- `netwerk_link_reset`. -/
def reset (_ : Link) : Status × Link := (.ok, {})

/-- `netwerk_link_activate`. -/
def activate (ln : Link) : Status × Link :=
  if ln.state = .banned then (.errState, ln)
  else if ln.state = .secure then (.ok, ln)
  else (.ok, { ln with state := .secure, missedBeats := 0, intervalCount := 0 })

/-- `netwerk_link_close`. -/
def close (ln : Link) : Status × Link :=
  (.ok, { ln with state := .down, missedBeats := 0, intervalCount := 0 })

/-- `netwerk_link_set_keepalive`. -/
def setKeepalive (ln : Link) (keepaliveMs timeoutMs : UInt32) : Status × Link :=
  if keepaliveMs ≠ 0 ∧ timeoutMs ≠ 0 ∧ timeoutMs < keepaliveMs then (.errBadArg, ln)
  else if (keepaliveMs != 0) != (timeoutMs != 0) then (.errBadArg, ln)
  else (.ok, { ln with keepaliveMs, timeoutMs, missedBeats := 0, intervalCount := 0 })

/-- `netwerk_link_set_ban_signal`. -/
def setBanSignal (ln : Link) (hook : Option UInt64) (ctx : UInt64) : Status × Link :=
  (.ok, { ln with banHook := hook, banCtx := ctx })

/-! ## Keep-alive -/

/-- `netw_now`, where `clock` is the answer of `k64_query_system_time`. -/
def now? (now : UInt64) (clock : Option UInt64) : Option UInt64 :=
  if now ≠ 0 then some now else clock

/-- `netw_note_activity`. -/
def noteActivity (ln : Link) (now : UInt64) : Link :=
  { ln with lastActivity := now, intervalCount := 0, missedBeats := 0 }

/-- `netwerk_link_tx`, and `netwerk_link_rx` with the same body. -/
def tx (ln : Link) (now : UInt64) (clock : Option UInt64) : Status × Link :=
  match now? now clock with
  | none => (.banK64Boot, ln)
  | some t => if ln.state = .banned then (.errState, ln) else (.ok, ln.noteActivity t)

/-- `netwerk_link_rx`. -/
def rx (ln : Link) (now : UInt64) (clock : Option UInt64) : Status × Link := ln.tx now clock

/-- The count of `missed` as 32 bits, cut off at `UINT32_MAX`. -/
def clamp32 (missed : UInt64) : UInt32 :=
  if missed > 0xFFFFFFFF then 0xFFFFFFFF else missed.toUInt32

/-- `netwerk_link_tick`. -/
def tick (ln : Link) (now : UInt64) (clock : Option UInt64) : Status × Link :=
  match now? now clock with
  | none => (.banK64Boot, ln)
  | some t =>
    if ln.state = .banned then (.errState, ln)
    else if ln.state = .dead then (.banLinkDead, ln)
    else if ln.state ≠ .secure then (.errState, ln)
    else if ln.keepaliveMs = 0 then (.ok, ln)
    else if t < ln.lastActivity then
      -- the clock went back
      (.ok, { ln with lastActivity := t, intervalCount := 0 })
    else
      let elapsed := t - ln.lastActivity
      let full := elapsed / ln.keepaliveMs.toUInt64
      let ln :=
        if full > ln.intervalCount then
          let missed := clamp32 (full - ln.intervalCount)
          { ln with
            intervalCount := full
            missedBeats := ln.missedBeats + missed
            heartbeats := ln.heartbeats + missed }
        else ln
      if ln.timeoutMs ≠ 0 ∧ elapsed ≥ ln.timeoutMs.toUInt64 then
        (.banLinkDead, { ln with state := .dead })
      else (if ln.missedBeats > 0 then .warnBeatsMissed else .ok, ln)

/-! ## The replay window -/

/-- `netw_replay_ok`. -/
def replayOk (ln : Link) (seq : UInt64) : Bool :=
  if seq > ln.rxHi then true
  else if ln.rxHi - seq ≥ 64 then false
  else ln.rxMask &&& ((1 : UInt64) <<< (ln.rxHi - seq)) == 0

/-- `netw_replay_accept`. -/
def replayAccept (ln : Link) (seq : UInt64) : Link :=
  if seq > ln.rxHi then
    { ln with
      rxMask := if seq - ln.rxHi ≥ 64 then 1 else (ln.rxMask <<< (seq - ln.rxHi)) ||| 1
      rxHi := seq }
  else { ln with rxMask := ln.rxMask ||| ((1 : UInt64) <<< (ln.rxHi - seq)) }

end Link

/-! ## Link frames -/

/-- `NETW_FRAME_MAGIC`. -/
def frameMagic : UInt32 := 0x4E574C31

/-- `NETW_FRAME_VERSION`. -/
def frameVersion : UInt8 := 1

/-- `NETW_LINK_ENVELOPE`. -/
def linkEnvelope : Nat := 17

/-- `NETW_SEQ_AAD`. -/
def seqAadSize : Nat := 8

/-- `netwerk_link_make_nonce`. -/
def linkMakeNonce (seq : UInt64) : List UInt8 :=
  [0, 0, 0, 0, seq.toUInt8, (seq >>> 8).toUInt8, (seq >>> 16).toUInt8, (seq >>> 24).toUInt8,
    (seq >>> 32).toUInt8, (seq >>> 40).toUInt8, (seq >>> 48).toUInt8, (seq >>> 56).toUInt8]

/-- `netw_seq_aad`. -/
def seqAad (seq : UInt64) : List UInt8 := put64 seq

/-- The envelope in front of a sealed frame, where `total` is the length of both. -/
def envelope (seq : UInt64) (total : Nat) : List UInt8 :=
  put32 frameMagic ++ ([frameVersion] ++ (put64 seq ++ put32 (UInt32.ofNat total)))

/-- The status that sealing gives for a failure of `owcrypt`. -/
def sealStatus : Crypto.Status → Status
  | .errBadArg => .errBadArg
  | .errShortOut => .errShortOut
  | _ => .banAuthFail

def noteSeal (s : Session) (i : Fin maxLinks) (frameLen : Nat) : Session :=
  let ln := s.links i
  let s' := s.setLink i { ln with
    framesTx := ln.framesTx + 1
    bytesTx := ln.bytesTx + UInt64.ofNat frameLen }
  if ln.owner then { s' with totalFramesTx := s.totalFramesTx + 1 } else s'

/-- What `netwerk_seal_link_frame` leaves behind. -/
structure Sealed where
  status : Status
  session : Session
  frame : Ptr
  frameLen : Option Nat

/-- `netwerk_seal_link_frame`. -/
def sealLinkFrame (m : Module) (s : Session) (i : Fin maxLinks) (key : Ptr) (seq : UInt64)
    (plain frame : Ptr) (frameLen : Option Nat) : Sealed :=
  let ln := s.links i
  match key, frame, frameLen, plain with
  | some key, some buf, some cap, some bytes =>
    if ln.id = 0 then ⟨.errBadArg, s, frame, frameLen⟩
    else if ln.state = .banned then ⟨.errState, s, frame, frameLen⟩
    else if ln.state = .dead then ⟨.banLinkDead, s, frame, frameLen⟩
    else
      let need := linkEnvelope + Crypto.frameOverhead + seqAadSize + bytes.length + 16
      if cap < need then ⟨.errShortOut, s, frame, frameLen⟩
      else
        let (st, sutf, sutfLen) :=
          Crypto.sealFrame m (some key) (some (linkMakeNonce seq)) (some (seqAad seq)) plain
            (some (buf.drop linkEnvelope)) (some (cap - linkEnvelope))
        if st ≠ .ok then
          ⟨sealStatus st, s, some (buf.take linkEnvelope ++ sutf.getD []), frameLen⟩
        else
          let total := linkEnvelope + sutfLen.getD 0
          ⟨.ok, noteSeal s i total, some (envelope seq total ++ sutf.getD []), some total⟩
  | _, _, _, _ => ⟨.errBadArg, s, frame, frameLen⟩

/-- The sequence number of a frame whose envelope is well formed. -/
def readEnvelope (frame : List UInt8) : Option UInt64 :=
  if frame.length < linkEnvelope + Crypto.frameOverhead + seqAadSize + 16 then none
  else if get32 frame ≠ frameMagic ∨ Crypto.byteAt frame 4 ≠ frameVersion then none
  else if (get32 (frame.drop 13)).toNat ≠ frame.length then none
  else some (get64 (frame.drop 5))

/-- The status that opening gives for a failure of `owcrypt`. -/
def openStatus : Crypto.Status → Status
  | .banBancode => .banBancode
  | .errBadArg => .errBadArg
  | .errShortOut => .errShortOut
  | .errUninitialized => .errUninitialized
  | _ => .banAuthFail

/-- A call of the ban hook. -/
structure BanSignal where
  hook : UInt64
  ctx : UInt64
  bancode : UInt32
  subcode : UInt64
  deriving DecidableEq, Repr

/-- `netw_ban_relay`. -/
def banRelay (ln : Link) (bancode : UInt32) (subcode : UInt64) : Option BanSignal :=
  ln.banHook.map fun hook => ⟨hook, ln.banCtx, bancode, subcode⟩

/-- What `netwerk_open_link_frame` leaves behind. -/
structure OpenedLink where
  status : Status
  session : Session
  plainOut : Ptr
  /-- `*plain_len`, if it was written -/
  plainLen : Option Nat := none
  /-- What `*aad_out` and `*aad_len_out` stand for, if the frame was accepted. -/
  aad : Option (List UInt8) := none
  signal : Option BanSignal := none

def noteAuthFail (s : Session) (i : Fin maxLinks) : Session :=
  let ln := s.links i
  let s' := s.setLink i { ln with authFails := ln.authFails + 1 }
  if ln.owner then { s' with totalAuthFails := s.totalAuthFails + 1 } else s'

def noteBan (s : Session) (i : Fin maxLinks) : Session :=
  let ln := s.links i
  let s' := s.setLink i { ln with bans := ln.bans + 1, state := .banned }
  if ln.owner then { s' with totalBans := s.totalBans + 1 } else s'

def noteAccept (s : Session) (i : Fin maxLinks) (seq : UInt64) (frameLen : Nat) : Session :=
  let ln := (s.links i).replayAccept seq
  let s' := s.setLink i { ln with
    framesRx := ln.framesRx + 1
    bytesRx := ln.bytesRx + UInt64.ofNat frameLen }
  if ln.owner then { s' with totalFramesRx := s.totalFramesRx + 1 } else s'

/-- `netwerk_open_link_frame`, where `lenOut` tells whether `plain_len` is given. -/
def openLinkFrame (m : Module) (s : Session) (i : Fin maxLinks) (key frame plainOut : Ptr)
    (lenOut scanBan : Bool) : OpenedLink :=
  let ln := s.links i
  match key, frame, plainOut, lenOut with
  | some key, some bytes, some _, true =>
    if ln.state = .banned then { status := .errState, session := s, plainOut }
    else
      match readEnvelope bytes with
      | none => { status := .banEnvelope, session := s, plainOut }
      | some seq =>
        if !ln.replayOk seq then
          { status := .banReplay, session := s.setLink i { ln with replays := ln.replays + 1 }
            plainOut }
        else
          let o := Crypto.openFrame m (some key) (some (linkMakeNonce seq))
            (some (bytes.drop linkEnvelope)) plainOut true scanBan
          let signal := o.signal.bind fun bancode => banRelay ln bancode 0
          if o.status ≠ .ok then
            { status := openStatus o.status
              session :=
                if o.status = .banAuthFail then noteAuthFail s i
                else if o.status = .banBancode then noteBan s i
                else s
              plainOut := o.out, plainLen := o.plainLen, signal }
          else
            let innerAad := o.aad.getD []
            if innerAad.length ≠ seqAadSize ∨
                !Crypto.ctMemcmp innerAad (seqAad seq) seqAadSize then
              { status := .banAuthFail, session := noteAuthFail s i
                plainOut := o.out, plainLen := o.plainLen, signal }
            else
              { status := .ok, session := noteAccept s i seq bytes.length
                plainOut := o.out, plainLen := o.plainLen, aad := some innerAad, signal }
  | _, _, _, _ => { status := .errBadArg, session := s, plainOut }

end Netwerk
