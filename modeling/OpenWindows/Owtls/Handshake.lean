import OpenWindows.Owtls.Invariant

/-!
# What an established connection has seen

The handshake takes any Finished for the server's: its verify data is not looked at, and
neither is whether a ChangeCipherSpec came before it.  A connection whose peer sends a genuine
Finished under the inbound cipher has sent its own flight, has received a ChangeCipherSpec
before it, and returns only decrypted records as application data.
-/

namespace Owtls

open StepSystem

variable {E : Type} {derive : List UInt8 → List UInt8} {w : World E} {m : Machine E}

/-! ## What is promised -/

/-- The state after a call that returns. -/
def next (w : World E) (m : Machine E) (c : Call × Nat) : Machine E :=
  match perform w m c.1 c.2 with
  | some (_, m) => m
  | none => m

/-- What the handshake promises. -/
structure Secured (derive : List UInt8 → List UInt8) (m : Machine E) : Prop where
  established : m.conn.state = .established → Proven derive m.log
  application : ∀ bytes decrypted, .delivered bytes decrypted ∈ m.log → decrypted = true

/-! ## Rounds -/

/-- A change that the handshake does not depend on. -/
theorem Core.keep (h : Core derive m) (f : Conn → Conn) (hstate : (f m.conn).state = m.conn.state)
    (hstep : (f m.conn).flightStep = m.conn.flightStep)
    (henc : (f m.conn).recvEncrypted = m.conn.recvEncrypted)
    (hbuf : (f m.conn).writeBuf = m.conn.writeBuf)
    (hpending : (f m.conn).pendingLen ≤ m.conn.pendingLen) : Core derive (m.set f) := by
  refine h.grow hstate hstep ?_ ?_ ?_ ?_ ?_ ?_ (List.append_nil _).symm nofun
  · exact fun he => henc.trans he
  · exact fun he => h.opened (henc.symm.trans he)
  · exact fun hd => henc.trans (h.decrypted hd)
  · exact fun hs hp => h.pending hs (Nat.lt_of_lt_of_le hp hpending)
  · exact fun he hi => hbuf.trans (h.settled he hi)
  · intro hs hne
    have hne' : m.conn.writeBuf ≠ [] := fun h0 => hne (hbuf.trans h0)
    exact ⟨fun h1 => h.sendingSpec hs h1 hne', fun h2 => (h.sendingFinished hs h2).2 hne'⟩

theorem Core.consume (h : Core derive m) : Core derive (consume m) :=
  h.keep _ rfl rfl rfl rfl (Nat.le_refl _)

theorem Core.down (h : Core derive m) {st : ConnState} (hst : st = .closed ∨ st = .error) :
    Core derive (m.enter st) := by
  rcases hst with rfl | rfl <;>
    exact ⟨by simp [ConnState.Early], by simp [ConnState.Early], by simp, by simp, by simp,
      h.opened, h.decrypted, by simp, by simp, h.application⟩

def Live (m : Machine E) : Prop := m.conn.state ≠ .closed ∧ m.conn.state ≠ .error

theorem writeRecord_state (w : World E) (m : Machine E) (piece : Piece) (r : Plain) :
    (writeRecord w m piece r).2.conn.state = m.conn.state := by
  have hw := writeRecord_wrote w m piece r
  generalize writeRecord w m piece r = res at hw
  cases hw with
  | mk => rfl

variable {r : Status × Machine E}

theorem andThen_live {f : Machine E → Status × Machine E}
    (h : Live r.2) (hf : ∀ m, Live m → Live (f m).2) : Live (andThen r f).2 := by
  unfold andThen
  split
  next m => exact hf m h
  · exact h

theorem writeRecord_live (w : World E) (h : Live m) (piece : Piece) (r : Plain) :
    Live (writeRecord w m piece r).2 := by
  unfold Live
  rw [writeRecord_state]
  exact h

theorem sendClientFlight_live (w : World E) (h : Live m) : Live (sendClientFlight w m).2 := by
  refine andThen_live (andThen_live ?_ ?_) ?_
  · unfold sendKeyExchange
    split
    · exact andThen_live (writeRecord_live w h _ _) fun _ hm => hm
    · exact h
  · intro m hm
    unfold sendCipherSpec
    split
    · exact andThen_live (writeRecord_live w hm _ _) fun _ hm => hm
    · exact hm
  · intro m hm
    unfold sendFinished
    split
    · exact andThen_live (writeRecord_live w hm _ _) fun _ _ => ⟨nofun, nofun⟩
    · exact hm

theorem handleHandshake_live (w : World E) (h : Live m) (type : UInt8) (body : List UInt8) :
    Live (handleHandshake w m type body).2 := by
  unfold handleHandshake
  split
  · split <;> first | exact h | exact ⟨by simp, by simp⟩
  · split
    · split <;> first | exact h | exact ⟨by simp, by simp⟩
    · split
      · exact h
      · split
        · split
          · exact h
          · exact sendClientFlight_live w ⟨by simp, by simp⟩
        · split
          · split <;> first | exact h | exact ⟨by simp, by simp⟩
          · exact h

theorem processLoop_live (w : World E) (fuel : Nat) (h : Live m) (p : List UInt8) :
    Live (processLoop w fuel m p).2 := by
  induction fuel generalizing m p with
  | zero => exact h
  | succ fuel ih =>
    obtain ⟨st, -, heq⟩ | ⟨type, body, rest, heq⟩ := processLoop_succ w fuel m p
    · rw [heq]
      exact h
    · rw [heq]
      exact andThen_live (handleHandshake_live w h type body) fun _ hm => ih hm _

theorem readRecord_core (w : World E) (h : Inv derive m) : Inv derive (readRecord w m).2 ∧
      ∀ type payload, (readRecord w m).1 = .ok (type, payload) →
        (∃ d, .received type d ∈ (readRecord w m).2.log) ∧
          (readRecord w m).2.decrypted = (readRecord w m).2.conn.recvEncrypted := by
  have hread := readRecord_cases w m
  generalize readRecord w m = r at hread
  cases hread with
  | stopped st env buf len type _ =>
    refine ⟨fun hg => ?_, nofun⟩
    exact (h hg).grow rfl rfl id (h hg).opened (h hg).decrypted (h hg).pending (h hg).settled
      (fun hs hbuf => ⟨fun h1 => (h hg).sendingSpec hs h1 hbuf,
        fun h2 => ((h hg).sendingFinished hs h2).2 hbuf⟩) (List.append_nil _).symm nofun
  | read env buf len type payload seq d hd =>
    constructor
    · intro hg
      have hcore := h (Genuine.of_append hg)
      refine hcore.grow rfl rfl id ?_ ?_ ?_ hcore.settled ?_ rfl ?_
      · intro henc
        exact (hcore.opened henc).imp fun d hd => List.mem_append_left _ hd
      · intro hdec
        exact hd ▸ hdec
      · intro hs _
        exact hd.trans (hcore.established hs).2.1
      · intro hs hbuf
        exact ⟨fun h1 => hcore.sendingSpec hs h1 hbuf,
          fun h2 => (hcore.sendingFinished hs h2).2 hbuf⟩
      · intro bytes d' hd'
        simp at hd'
    · intro type' payload' heq
      cases heq
      exact ⟨⟨d, List.mem_append_right _ (List.mem_singleton.mpr rfl)⟩, hd⟩

theorem handleAlert_core (h : Inv derive m) (p : List UInt8) : Inv derive (handleAlert m p).2 := by
  unfold handleAlert
  split
  · exact h
  · split
    · exact fun hg => (h hg).down (.inl rfl)
    · split
      · exact fun hg => (h hg).down (.inr rfl)
      · exact h

theorem Core.open (h : Core derive m) (hd : ∃ d, .received ctChangeCipherSpec d ∈ m.log) :
    Core derive (m.set fun c => { c with recvEncrypted := true }) :=
  h.grow rfl rfl (fun _ => rfl) (fun _ => hd) (fun _ => rfl) h.pending h.settled
    (fun hs hbuf => ⟨fun h1 => h.sendingSpec hs h1 hbuf,
      fun h2 => (h.sendingFinished hs h2).2 hbuf⟩) (List.append_nil _).symm nofun

/-- The invariant of what a round goes on with or stops with. -/
def After (derive : List UInt8 → List UInt8) : Machine E ⊕ (Status × Machine E) → Prop
  | .inl m => Inv derive m ∧ Live m
  | .inr r => Inv derive r.2

theorem handshakeRecord_after (h : Inv derive m) (hlive : Live m) (type : UInt8)
    (payload : List UInt8) (hd : ∃ d, .received type d ∈ m.log) :
    After derive (handshakeRecord w m type payload) := by
  unfold handshakeRecord
  split
  next ht =>
    subst ht
    exact ⟨fun hg => ((h hg).open hd).consume, hlive⟩
  · split
    · exact fun hg => (handleAlert_core h payload hg).consume
    · split
      · have hp : Inv derive (processHandshake w m payload).2 := processLoop_core w _ h payload
        have hl : Live (processHandshake w m payload).2 := processLoop_live w _ hlive payload
        simp only
        split
        · exact fun hg => (hp hg).consume
        · split
          · exact fun hg => (hp hg).consume.down (.inr rfl)
          · split
            · exact fun hg => (hp hg).consume
            · exact ⟨fun hg => (hp hg).consume, hl⟩
      · exact fun hg => (h hg).consume.down (.inr rfl)

theorem resumeFlight_core (h : Inv derive m) (hlive : Live m) :
    Inv derive (resumeFlight w m).2 ∧ Live (resumeFlight w m).2 := by
  unfold resumeFlight
  split
  next hstep =>
    refine ⟨sendClientFlight_core fun hg => ⟨h hg, ?_, fun h0 => by omega⟩,
      sendClientFlight_live w hlive⟩
    cases hs : m.conn.state with
    | closed => exact absurd hs hlive.1
    | error => exact absurd hs hlive.2
    | serverDoneRecv => rfl
    | init | clientHelloSent | serverHelloRecv | serverCertRecv =>
      have := (h hg).early (by simp [hs, ConnState.Early])
      omega
    | cipherSpecSent =>
      have := ((h hg).flown hs).1
      omega
    | established =>
      have := ((h hg).established hs).1
      omega
  · exact ⟨h, hlive⟩

theorem readRecord_state (w : World E) (m : Machine E) :
    (readRecord w m).2.conn.state = m.conn.state := by
  have hread := readRecord_cases w m
  generalize readRecord w m = r at hread
  cases hread with
  | stopped => rfl
  | read => rfl

theorem handshakeRound_after (h : Inv derive m) (hlive : Live m) :
    After derive (handshakeRound w m) := by
  unfold handshakeRound
  obtain ⟨hr, hl⟩ := resumeFlight_core (w := w) h hlive
  split
  next m' heq =>
    rw [heq] at hr hl
    obtain ⟨hi, hread⟩ := readRecord_core w hr
    have hl' : Live (readRecord w m').2 := by
      unfold Live
      rw [readRecord_state]
      exact hl
    split
    next type payload m'' hrec =>
      rw [hrec] at hi hread hl'
      exact handshakeRecord_after hi hl' type payload (hread type payload rfl).1
    next m'' hrec =>
      rw [hrec] at hi
      exact hi
    next st m'' _ hrec =>
      rw [hrec] at hi
      exact fun hg => (hi hg).down (.inr rfl)
  next st m' _ heq =>
    rw [heq] at hr
    exact hr

variable {n : Nat}

theorem handshakeLoop_inv (h : Inv derive m) (hlive : Live m)
    (hr : stopped (runFor (handshakeRound w) n m) = some r) : Inv derive r.2 := by
  refine stopped_ends (P := fun m => Inv derive m ∧ Live m) (S := fun r => Inv derive r.2)
    ?_ ?_ hr ⟨h, hlive⟩
  · intro s t hs heq
    have hafter := handshakeRound_after (w := w) hs.1 hs.2
    rwa [heq] at hafter
  · intro s r hs heq
    have hafter := handshakeRound_after (w := w) hs.1 hs.2
    rwa [heq] at hafter

theorem Core.greeted (h : Core derive m) (hs : m.conn.state = .init) (hbuf : m.conn.writeBuf = []) :
    Core derive (m.enter .clientHelloSent) where
  early := fun _ => h.early (.inl hs)
  settled := fun _ _ => hbuf
  sendingSpec := by simp
  sendingFinished := by simp
  flown := by simp
  opened := h.opened
  decrypted := h.decrypted
  established := by simp
  pending := by simp
  application := h.application

theorem handshake_inv (h : Inv derive m) (hr : handshake w n m = some r) : Inv derive r.2 := by
  unfold handshake at hr
  split at hr
  · cases hr; exact h
  · split at hr
    · cases hr; exact h
    next hdown =>
      have hlive : Live m := not_or.mp hdown
      split at hr
      next hs =>
        have hw := writeRecord_core w .clientHello (clientHello m.conn)
          fun hg : Genuine derive m.log => ⟨h hg, fun _ => hs, by simp [hs]⟩
        rw [← sendClientHello] at hw
        split at hr
        next m' heq =>
          rw [heq] at hw
          refine handshakeLoop_inv (fun hg => ?_) ⟨by simp, by simp⟩ hr
          obtain ⟨-, hcore, hstate, -, hrest⟩ := hw hg
          exact hcore.greeted (hstate.trans hs) (hrest rfl).1
        next st m' _ heq =>
          rw [heq] at hw
          cases hr
          exact fun hg => (hw hg).2.1
      · exact handshakeLoop_inv h hlive hr

/-! ## Application data -/

theorem Flushed.core (hf : Flushed m r) (h : Inv derive m)
    (hs : m.conn.state = .established) (hne : m.conn.writeBuf ≠ []) :
    Inv derive r.2 ∧ r.2.conn.state = .established := by
  have hw : Wrote m m.piece r := hf.wrote hne
  have hw' := hw
  cases hw with
  | mk st env piece' seq buf off es _ _ _ =>
    refine ⟨fun hg => ?_, hs⟩
    exact (h (Genuine.of_append hg)).wrote hw' (by simp [hs, ConnState.Early]) (by simp [hs])

theorem writeRecord_established (w : World E) (h : Inv derive m) (hs : m.conn.state = .established)
    (piece : Piece) (r : Plain) :
    Inv derive (writeRecord w m piece r).2 ∧
      (writeRecord w m piece r).2.conn.state = .established := by
  have hw := writeRecord_core w piece r fun hg : Genuine derive m.log =>
    ⟨h hg, by simp [hs, ConnState.Early], by simp [hs]⟩
  exact ⟨fun hg => (hw hg).2.1, (writeRecord_state w m piece r).trans hs⟩

/-- The invariant of the loops of an established connection. -/
def Up (derive : List UInt8 → List UInt8) (m : Machine E) : Prop :=
  Inv derive m ∧ m.conn.state = .established

/-- What such a loop goes on with or stops with. -/
def UpAfter (derive : List UInt8 → List UInt8) : Machine E ⊕ (Status × Machine E) → Prop
  | .inl m => Up derive m
  | .inr r => Inv derive r.2

theorem stopped_up {step : Machine E → Machine E ⊕ (Status × Machine E)}
    (hround : ∀ m, Up derive m → UpAfter derive (step m))
    (h : stopped (runFor step n m) = some r) (hm : Up derive m) : Inv derive r.2 := by
  refine stopped_ends (P := Up derive) (S := fun r => Inv derive r.2) ?_ ?_ h hm
  · intro s t hs heq
    have hafter := hround s hs
    rwa [heq] at hafter
  · intro s r hs heq
    have hafter := hround s hs
    rwa [heq] at hafter

theorem sendFragment_up (w : World E) (data : List UInt8) (h : Up derive m) :
    UpAfter derive (sendFragment w data m) := by
  unfold sendFragment
  simp only
  have hw := writeRecord_established w h.1 h.2
    (.fragment (m.conn.txUserDone + (fragmentOf data m.conn.txUserDone).length = data.length))
    ⟨ctApplicationData, fragmentOf data m.conn.txUserDone, true⟩
  split
  next m' heq =>
    rw [heq] at hw
    exact ⟨fun hg => (hw.1 hg).keep _ rfl rfl rfl rfl (Nat.le_refl _), hw.2⟩
  next st m' _ heq =>
    rw [heq] at hw
    intro hg
    exact Core.keep (hw.1 hg) (fun c => { c with txUserDone := _ }) rfl rfl rfl rfl (Nat.le_refl _)

theorem sendRound_up (w : World E) (data : List UInt8) (h : Up derive m) :
    UpAfter derive (sendRound w data m) := by
  unfold sendRound
  split
  · split
    · exact sendFragment_up w data h
    next hne =>
      have hf := (flush_cases w m).core h.1 h.2 hne
      split
      next m' heq =>
        rw [heq] at hf
        exact sendFragment_up w data hf
      next st m' _ heq =>
        rw [heq] at hf
        exact hf.1
  · intro hg
    exact Core.keep (h.1 hg) (fun c => { c with txUserDone := 0 }) rfl rfl rfl rfl (Nat.le_refl _)

theorem drainApp_core (h : Inv derive m) (hdec : Genuine derive m.log → m.decrypted = true)
    (cap : Nat) : Inv derive (drainApp cap m).2 := by
  unfold drainApp
  simp only
  have hdrained : Inv derive ((m.set fun c =>
      { c with
        pendingOff := c.pendingOff + min m.conn.pendingLen cap
        pendingLen := c.pendingLen - min m.conn.pendingLen cap }).note
      (.delivered ((m.conn.recvBuf.drop m.conn.pendingOff).take (min m.conn.pendingLen cap))
        m.decrypted)) := by
    intro hg
    have hcore := h (Genuine.of_append hg)
    have hd := hdec (Genuine.of_append hg)
    refine hcore.grow rfl rfl id ?_ hcore.decrypted (fun _ _ => hd) hcore.settled ?_ rfl ?_
    · intro henc
      exact (hcore.opened henc).imp fun d hd => List.mem_append_left _ hd
    · intro hs hbuf
      exact ⟨fun h1 => hcore.sendingSpec hs h1 hbuf, fun h2 => (hcore.sendingFinished hs h2).2 hbuf⟩
    · intro bytes d hmem
      cases List.mem_singleton.mp hmem
      exact hd
  split
  · exact fun hg => (hdrained hg).consume
  · exact hdrained

theorem processHandshake_up (w : World E) (h : Up derive m) (payload : List UInt8) :
    Up derive (processHandshake w m payload).2 := by
  refine ⟨processLoop_core w _ h.1 payload, ?_⟩
  obtain ⟨es, heq, -⟩ := processLoop_established w payload.length h.2 payload
  rw [processHandshake, heq]
  exact h.2

theorem recvRound_up (w : World E) (cap : Nat) (h : Up derive m) :
    UpAfter derive (recvRound w cap m) := by
  unfold recvRound
  obtain ⟨hi, hread⟩ := readRecord_core w h.1
  have hs : (readRecord w m).2.conn.state = .established := (readRecord_state w m).trans h.2
  split
  next st m' heq =>
    rw [heq] at hi
    exact hi
  next type payload m' heq =>
    rw [heq] at hi hread hs
    obtain ⟨hd, hdec⟩ := hread type payload rfl
    split
    · refine drainApp_core (fun hg => ?_) (fun hg => ?_) cap
      · have hcore := hi hg
        have henc := (hcore.established hs).2.1
        refine hcore.grow rfl rfl id hcore.opened hcore.decrypted (fun _ _ => hdec.trans henc)
          hcore.settled ?_ (List.append_nil _).symm nofun
        exact fun hs hbuf => ⟨fun h1 => hcore.sendingSpec hs h1 hbuf,
          fun h2 => (hcore.sendingFinished hs h2).2 hbuf⟩
      · exact hdec.trans ((hi hg).established hs).2.1
    · split
      · exact fun hg => (handleAlert_core hi payload hg).consume
      · split
        · have hp := processHandshake_up w ⟨hi, hs⟩ payload
          split
          next m'' heq' =>
            rw [heq'] at hp
            exact ⟨fun hg => (hp.1 hg).consume, hp.2⟩
          next st m'' _ heq' =>
            rw [heq'] at hp
            exact fun hg => (hp.1 hg).consume
        · split
          next ht =>
            subst ht
            exact ⟨fun hg => ((hi hg).open hd).consume, hs⟩
          · exact fun hg => (hi hg).consume

theorem close_inv (w : World E) (h : Inv derive m) : Inv derive (close w m).2 := by
  have hclosed : ∀ m' : Machine E, Inv derive m' → Inv derive (m'.set fun c =>
      { c with state := .closed, pendingLen := 0, txUserDone := 0 }) := by
    intro m' hm' hg
    exact Core.keep ((hm' hg).down (.inl rfl)) (fun c => { c with pendingLen := 0, txUserDone := 0 })
      rfl rfl rfl rfl (Nat.zero_le _)
  unfold close
  split
  · exact h
  · simp only
    split
    next hs => exact hclosed _ (writeRecord_established w h hs _ _).1
    · exact hclosed m h

/-! ## Runs -/

variable {rounds : Nat}

theorem send_inv {data : List UInt8} (h : Inv derive m)
    (hr : send w data rounds m = some r) : Inv derive r.2 := by
  unfold send at hr
  split at hr
  · cases hr; exact h
  next hs => exact stopped_up (fun m hm => sendRound_up w data hm) hr ⟨h, not_not.mp hs⟩

theorem recv_inv {cap : Nat} (h : Inv derive m)
    (hr : recv w cap rounds m = some r) : Inv derive r.2 := by
  unfold recv at hr
  split at hr
  · cases hr; exact h
  next hs =>
    split at hr
    next hp =>
      cases hr
      exact drainApp_core h (fun hg => (h hg).pending (not_not.mp hs) hp) cap
    · exact stopped_up (fun m hm => recvRound_up w cap hm) hr ⟨h, not_not.mp hs⟩

theorem perform_inv {call : Call} (h : Inv derive m)
    (hr : perform w m call rounds = some r) : Inv derive r.2 := by
  cases call with
  | handshake => exact handshake_inv h hr
  | send data => exact send_inv h hr
  | recv cap => exact recv_inv h hr
  | close =>
    simp only [perform, Option.some.injEq] at hr
    rw [← hr]
    exact close_inv w h

theorem next_inv (h : Inv derive m) (c : Call × Nat) : Inv derive (next w m c) := by
  unfold next
  split
  next st m' heq => exact perform_inv h heq
  · exact h

theorem started_inv (address : UInt32) (env : E) : Inv derive (started address env) := by
  intro _
  exact ⟨fun _ => rfl, fun _ _ => rfl, nofun, nofun, nofun, nofun, nofun, nofun, nofun, nofun⟩

/-- A connection whose peer sends only genuine Finished messages is established only after the
handshake the messages promise, and returns only decrypted data. -/
theorem secured_of_genuine (w : World E) (derive : List UInt8 → List UInt8) (address : UInt32)
    (env : E) {calls : List (Call × Nat)} {m : Machine E}
    (hrun : Calls (fun _ _ => True) (next w) (started address env) calls m)
    (hg : Genuine derive m.log) : Secured derive m := by
  have hinv : Inv derive m :=
    Calls.invariant (P := Inv derive) (fun _ c hs _ => next_inv hs c) hrun
      (started_inv address env)
  exact ⟨fun hs => ((hinv hg).established hs).2.2, (hinv hg).application⟩

/-- A transport that takes everything and gives these bytes. -/
def scripted : Transport (List UInt8) where
  send e data := (e, some data.length)
  recv e capacity := (e.drop capacity, some (e.take capacity))
  send_le := fun _ data n h => Nat.le_of_eq (Option.some.inj h).symm
  recv_le := fun e capacity bytes h => by
    cases h
    exact List.length_take_le capacity e

/-- A ServerHello and a ServerHelloDone in one record, with other messages after them. -/
def greeting (more : List UInt8) : List UInt8 :=
  [22, 3, 3, 0, UInt8.ofNat (46 + more.length)] ++ (2 :: 0 :: 0 :: 38 :: List.replicate 38 0) ++
    [14, 0, 0, 0] ++ more

/-- A cipher hook that masks each byte with the number of the record. -/
def maskCipher : Cipher (List UInt8) where
  crypt e _ sequence _ data capacity :=
    (e, if data.length ≤ capacity then some (data.map (· ^^^ (sequence.toUInt8 + 0x5A))) else none)
  crypt_le := fun e _ _ _ data capacity out h => by
    simp only at h
    split at h
    next hle => cases h; rwa [List.length_map]
    · cases h

/-- Twelve bytes made from the length of the master secret. -/
def verifyData (masterSecret : List UInt8) : List UInt8 :=
  List.replicate 12 (UInt8.ofNat masterSecret.length)

/-- A ChangeCipherSpec before the Finished, and data. -/
def genuine : List UInt8 :=
  greeting [] ++ [20, 3, 3, 0, 1, 1] ++ [22, 3, 3, 0, 16] ++
    (20 :: 0 :: 0 :: 12 :: List.replicate 12 48).map (· ^^^ 0x5A) ++ [23, 3, 3, 0, 1, 65 ^^^ 0x5B]

/-- The handshake over it and one call for data. -/
def genuineRun : Machine (List UInt8) :=
  next ⟨scripted, some maskCipher⟩
    (next ⟨scripted, some maskCipher⟩ (started 0 genuine) (.handshake, 3)) (.recv 1, 1)

theorem secured_of_genuine_run :
    genuineRun.conn.state = .established ∧ .delivered [65] true ∈ genuineRun.log ∧
      Secured verifyData genuineRun := by
  have hrun : Calls (fun _ _ => True) (next ⟨scripted, some maskCipher⟩) (started 0 genuine)
      [(.handshake, 3), (.recv 1, 1)] genuineRun :=
    .snoc (.snoc .nil trivial) trivial
  have hg : ∀ e ∈ genuineRun.log, e.Genuine verifyData := by decide
  exact ⟨by decide, by decide,
    secured_of_genuine ⟨scripted, some maskCipher⟩ verifyData 0 genuine hrun hg⟩

/-- The Finished is in the first record, in the clear and empty, and there is no
ChangeCipherSpec. -/
def forged : List UInt8 := greeting [20, 0, 0, 0] ++ [23, 3, 3, 0, 1, 65]

/-- The handshake over it and one call for data. -/
def forgedRun : Machine (List UInt8) :=
  next ⟨scripted, none⟩ (next ⟨scripted, none⟩ (started 0 forged) (.handshake, 1)) (.recv 1, 1)

/-- The forged handshake succeeds, and its data is returned in the clear. -/
theorem forged_established :
    ¬ ∃ derive : List UInt8 → List UInt8, ∀ (env : List UInt8) (calls : List (Call × Nat))
      (m : Machine (List UInt8)),
      Calls (fun _ _ => True) (next ⟨scripted, none⟩) (started 0 env) calls m →
        Secured derive m := by
  rintro ⟨derive, h⟩
  have hrun : Calls (fun _ _ => True) (next ⟨scripted, none⟩) (started 0 forged)
      [(.handshake, 1), (.recv 1, 1)] forgedRun :=
    .snoc (.snoc .nil trivial) trivial
  have hdata : Event.delivered [65] false ∈ forgedRun.log := by decide
  exact absurd ((h forged _ _ hrun).application _ _ hdata) (by decide)

end Owtls
