import OpenWindows.Netwerk.Link

/-!
# Runs of `netwerk`

The calls a program can make on a session and its links, in any order.  `owcrypt`
has calls of its own, which other modules may make at any time.

What a call does to one link is said once for each kind of call: the calls on
another link do nothing to it, and the calls that open a frame end in one of five
ways.
-/

namespace Netwerk

open Crypto (Ptr Module)

/-- The calls that take a link and nothing else of the session. -/
inductive LinkCall where
  | reset
  | activate
  | close
  | setKeepalive (keepaliveMs timeoutMs : UInt32)
  | setBanSignal (hook : Option UInt64) (ctx : UInt64)
  | tx (now : UInt64) (clock : Option UInt64)
  | rx (now : UInt64) (clock : Option UInt64)
  | tick (now : UInt64) (clock : Option UInt64)

def LinkCall.run (ln : Link) : LinkCall → Status × Link
  | .reset => ln.reset
  | .activate => ln.activate
  | .close => ln.close
  | .setKeepalive keepaliveMs timeoutMs => ln.setKeepalive keepaliveMs timeoutMs
  | .setBanSignal hook ctx => ln.setBanSignal hook ctx
  | .tx now clock => ln.tx now clock
  | .rx now clock => ln.rx now clock
  | .tick now clock => ln.tick now clock

/-- The calls. -/
inductive Op where
  | moduleInit (k64 boot : Bool)
  | moduleShutdown
  | cryptoInit (boot : Bool)
  | cryptoShutdown
  | sessionInit
  | sessionReset
  | sessionSetBanSignal (hook : Option UInt64) (ctx : UInt64)
  | alloc (dir : Nat) (peer : Ptr)
  | free (i : Fin maxLinks)
  | onLink (i : Fin maxLinks) (call : LinkCall)
  | sealLinkFrame (i : Fin maxLinks) (key : Ptr) (seq : UInt64) (plain frame : Ptr)
      (frameLen : Option Nat)
  | openLinkFrame (i : Fin maxLinks) (key frame plainOut : Ptr) (lenOut scanBan : Bool)

/-- The session, the state of `owcrypt`, the variable `netwerk_initialized`, and the
calls of ban hooks so far. -/
structure World where
  session : Session := {}
  crypto : Module := .zero
  initialized : Bool := false
  signals : List BanSignal := []

namespace World

/-- `netwerk_module_init`, where `k64` and `boot` tell whether the kernel answers here
and in `owcrypt_module_init`. -/
def moduleInit (w : World) (k64 boot : Bool) : Status × World :=
  if w.initialized then (.ok, w)
  else if !k64 then (.banK64Boot, w)
  else
    let (st, crypto) := Crypto.moduleInit boot w.crypto
    if st ≠ .ok then (.banK64Boot, { w with crypto }) else (.ok, { w with crypto, initialized := true })

/-- `netwerk_module_shutdown`. -/
def moduleShutdown (w : World) : Status × World :=
  if !w.initialized then (.errUninitialized, w) else (.ok, { w with initialized := false })

def sealFrame (w : World) (i : Fin maxLinks) (key : Ptr) (seq : UInt64) (plain frame : Ptr)
    (frameLen : Option Nat) : Sealed :=
  sealLinkFrame w.crypto w.session i key seq plain frame frameLen

def openFrame (w : World) (i : Fin maxLinks) (key frame plainOut : Ptr) (lenOut scanBan : Bool) :
    OpenedLink :=
  openLinkFrame w.crypto w.session i key frame plainOut lenOut scanBan

def next (w : World) : Op → World
  | .moduleInit k64 boot => (w.moduleInit k64 boot).2
  | .moduleShutdown => w.moduleShutdown.2
  | .cryptoInit boot => { w with crypto := (Crypto.moduleInit boot w.crypto).2 }
  | .cryptoShutdown => { w with crypto := (Crypto.moduleShutdown w.crypto).2 }
  | .sessionInit => { w with session := .init }
  | .sessionReset => { w with session := .reset }
  | .sessionSetBanSignal hook ctx => { w with session := w.session.setBanSignal hook ctx }
  | .alloc dir peer => { w with session := (w.session.alloc dir peer).2.2 }
  | .free i => { w with session := (w.session.free i).2 }
  | .onLink i call =>
    { w with session := w.session.setLink i (call.run (w.session.links i)).2 }
  | .sealLinkFrame i key seq plain frame frameLen =>
    { w with session := (w.sealFrame i key seq plain frame frameLen).session }
  | .openLinkFrame i key frame plainOut lenOut scanBan =>
    let r := w.openFrame i key frame plainOut lenOut scanBan
    { w with session := r.session, signals := w.signals ++ r.signal.toList }

end World

/-- The calls after which link `i` is still the one that was allocated: it was not
wiped, and its slot was not given out again. -/
def SameAllocation (i : Fin maxLinks) (w : World) : Op → Prop
  | .sessionInit => False
  | .sessionReset => False
  | .alloc dir peer => (w.session.alloc dir peer).2.1 ≠ some i
  | .onLink j .reset => j ≠ i
  | _ => True

/-! ## One call and one link -/

variable {m : Module} {s : Session} {i j : Fin maxLinks}

theorem Session.alloc_links {dir : Nat} {peer : Ptr} (h : (s.alloc dir peer).2.1 ≠ some i) :
    (s.alloc dir peer).2.2.links i = s.links i := by
  unfold Session.alloc at h ⊢
  split
  · rfl
  next hinit =>
    rw [if_neg hinit] at h
    split
    · rfl
    next dir' hdir =>
      rw [hdir] at h
      dsimp only at h ⊢
      split
      · rfl
      next hfull =>
        rw [if_neg hfull] at h
        cases hslot : s.freeSlot with
        | none => rfl
        | some j =>
          rw [hslot] at h
          exact Session.setLink_links_ne s _ fun heq => h (congrArg some heq.symm)

theorem Session.free_links (h : i ≠ j) : (s.free j).2.links i = s.links i := by
  unfold Session.free
  dsimp only
  split
  · rfl
  · exact Session.setLink_links_ne s _ h

theorem Session.free_links_self : (s.free i).2.links i = s.links i ∨
    (s.free i).2.links i = { s.links i with state := .down, id := 0, owner := false } := by
  unfold Session.free
  dsimp only
  split
  · exact .inl rfl
  · exact .inr (Session.setLink_links_self s i _)

theorem moduleInit_session (w : World) (k64 boot : Bool) :
    (w.moduleInit k64 boot).2.session = w.session := by
  unfold World.moduleInit
  repeat' split
  all_goals rfl

theorem moduleShutdown_session (w : World) : w.moduleShutdown.2.session = w.session := by
  unfold World.moduleShutdown
  split
  · rfl
  · rfl

/-! ## Sealing and opening -/

theorem noteSeal_links (s : Session) (i : Fin maxLinks) (frameLen : Nat) :
    (noteSeal s i frameLen).links = Function.update s.links i { s.links i with
      framesTx := (s.links i).framesTx + 1
      bytesTx := (s.links i).bytesTx + UInt64.ofNat frameLen } := by
  unfold noteSeal
  dsimp only
  split
  · rfl
  · rfl

theorem noteAuthFail_links (s : Session) (i : Fin maxLinks) :
    (noteAuthFail s i).links =
      Function.update s.links i { s.links i with authFails := (s.links i).authFails + 1 } := by
  unfold noteAuthFail
  dsimp only
  split
  · rfl
  · rfl

theorem noteBan_links (s : Session) (i : Fin maxLinks) :
    (noteBan s i).links = Function.update s.links i { s.links i with
      bans := (s.links i).bans + 1
      state := .banned } := by
  unfold noteBan
  dsimp only
  split
  · rfl
  · rfl

theorem noteAccept_links (s : Session) (i : Fin maxLinks) (seq : UInt64) (frameLen : Nat) :
    (noteAccept s i seq frameLen).links =
      Function.update s.links i { (s.links i).replayAccept seq with
        framesRx := ((s.links i).replayAccept seq).framesRx + 1
        bytesRx := ((s.links i).replayAccept seq).bytesRx + UInt64.ofNat frameLen } := by
  unfold noteAccept
  dsimp only
  split
  · rfl
  · rfl

theorem sealStatus_ne_ok (st : Crypto.Status) : sealStatus st ≠ .ok := by
  cases st <;> nofun

theorem openStatus_ne_ok (st : Crypto.Status) : openStatus st ≠ .ok := by
  cases st <;> nofun

theorem sealLinkFrame_cases (m : Module) (s : Session) (i : Fin maxLinks) (key : Ptr)
    (seq : UInt64) (plain frame : Ptr) (frameLen : Option Nat) :
    ((sealLinkFrame m s i key seq plain frame frameLen).status ≠ .ok ∧
        (sealLinkFrame m s i key seq plain frame frameLen).session = s) ∨
      ((s.links i).state ≠ .banned ∧ ∃ total,
        (sealLinkFrame m s i key seq plain frame frameLen).session = noteSeal s i total) := by
  unfold sealLinkFrame
  dsimp only
  split
  next key buf cap bytes =>
    split
    · exact .inl ⟨nofun, rfl⟩
    · split
      · exact .inl ⟨nofun, rfl⟩
      next hban =>
        split
        · exact .inl ⟨nofun, rfl⟩
        · split
          · exact .inl ⟨nofun, rfl⟩
          · split
            · exact .inl ⟨sealStatus_ne_ok _, rfl⟩
            · exact .inr ⟨hban, _, rfl⟩
  · exact .inl ⟨nofun, rfl⟩

/-- How opening a frame ends. -/
inductive OpenEnd (s : Session) (i : Fin maxLinks) (frame : Ptr) : Status → Session → Prop where
  | refused {st : Status} : st ≠ .ok → OpenEnd s i frame st s
  | replayed : OpenEnd s i frame .banReplay
      (s.setLink i { s.links i with replays := (s.links i).replays + 1 })
  | forged : OpenEnd s i frame .banAuthFail (noteAuthFail s i)
  | banned : (s.links i).state ≠ .banned → OpenEnd s i frame .banBancode (noteBan s i)
  | accepted {bytes : List UInt8} {seq : UInt64} : frame = some bytes →
      readEnvelope bytes = some seq → (s.links i).state ≠ .banned →
      (s.links i).replayOk seq = true → OpenEnd s i frame .ok (noteAccept s i seq bytes.length)

theorem OpenEnd.links_ne {s s' : Session} {frame : Ptr} {st : Status} (h : OpenEnd s j frame st s')
    (hij : i ≠ j) : s'.links i = s.links i := by
  cases h with
  | refused => rfl
  | replayed => exact Session.setLink_links_ne _ _ hij
  | forged => rw [noteAuthFail_links, Function.update_of_ne hij]
  | banned => rw [noteBan_links, Function.update_of_ne hij]
  | accepted => rw [noteAccept_links, Function.update_of_ne hij]

theorem openLinkFrame_end (m : Module) (s : Session) (i : Fin maxLinks) (key frame plainOut : Ptr)
    (lenOut scanBan : Bool) :
    OpenEnd s i frame (openLinkFrame m s i key frame plainOut lenOut scanBan).status
      (openLinkFrame m s i key frame plainOut lenOut scanBan).session := by
  unfold openLinkFrame
  dsimp only
  split
  next key bytes out =>
    split
    · exact .refused nofun
    next hban =>
      split
      · exact .refused nofun
      next seq hseq =>
        split
        · exact .replayed
        next hok =>
          have hfresh : (s.links i).replayOk seq = true := by simpa using hok
          split
          · dsimp only
            split
            next hst =>
              rw [hst]
              exact .forged
            · split
              next hst =>
                rw [hst]
                exact .banned hban
              · exact .refused (openStatus_ne_ok _)
          · split
            · exact .forged
            · exact .accepted rfl hseq hban hfresh
  · exact .refused nofun

end Netwerk
