import OpenWindows.Owtls.Connection

/-!
# The invariant of the TLS handshake

What the state of a connection says of its history.  The flight goes out in order, because a
pending record at each of its steps is the record of that step (`Core`).  A Finished is taken
when one is awaited, so what an established connection has seen depends on whether that message
was genuine; `Inv` holds of every history whose Finished messages were.
-/

namespace Owtls

variable {E : Type} {derive : List UInt8 → List UInt8}

/-! ## Genuine histories -/

def Proven (derive : List UInt8 → List UInt8) (log : List Event) : Prop :=
  ∃ pre post masterSecret,
    log = pre ++ .accepted hsFinished (derive masterSecret) true masterSecret :: post ∧
      List.Sublist [.sent .cipherSpec, .sent .finished] pre ∧
        ∃ d, .received ctChangeCipherSpec d ∈ pre

/-- The condition on the peer: a Finished that arrives when one is awaited comes under the inbound
cipher and its body is derived from the master secret. -/
def Event.Genuine (derive : List UInt8 → List UInt8) : Event → Prop
  | .accepted type body decrypted masterSecret =>
    type = hsFinished → decrypted = true ∧ body = derive masterSecret
  | _ => True

instance (e : Event) : Decidable (e.Genuine derive) :=
  match e with
  | .accepted type body decrypted masterSecret =>
    inferInstanceAs (Decidable (type = hsFinished → decrypted = true ∧ body = derive masterSecret))
  | .due _ | .framed _ _ | .unsealed _ | .handed _ | .refused _ | .sent _ | .received _ _
  | .delivered _ _ => isTrue trivial

def Genuine (derive : List UInt8 → List UInt8) (log : List Event) : Prop :=
  ∀ e ∈ log, e.Genuine derive

/-! ## The invariant -/

def Event.Outbound : Event → Prop
  | .due _ | .framed _ _ | .unsealed _ | .handed _ | .refused _ | .sent _ => True
  | _ => False

/-- How far the flight is, and what the history says of it. -/
structure Core (derive : List UInt8 → List UInt8) (m : Machine E) : Prop where
  early : m.conn.state.Early → m.conn.flightStep = 0
  settled : m.conn.state.Early → m.conn.state ≠ .init → m.conn.writeBuf = []
  sendingSpec : m.conn.state = .serverDoneRecv → m.conn.flightStep = 1 →
    m.conn.writeBuf ≠ [] → m.piece = .cipherSpec
  sendingFinished : m.conn.state = .serverDoneRecv → m.conn.flightStep = 2 →
    .sent .cipherSpec ∈ m.log ∧ (m.conn.writeBuf ≠ [] → m.piece = .finished)
  flown : m.conn.state = .cipherSpecSent →
    m.conn.flightStep = 3 ∧ List.Sublist [.sent .cipherSpec, .sent .finished] m.log
  opened : m.conn.recvEncrypted = true → ∃ d, .received ctChangeCipherSpec d ∈ m.log
  decrypted : m.decrypted = true → m.conn.recvEncrypted = true
  established : m.conn.state = .established →
    m.conn.flightStep = 3 ∧ m.conn.recvEncrypted = true ∧ Proven derive m.log
  pending : m.conn.state = .established → 0 < m.conn.pendingLen → m.decrypted = true
  application : ∀ bytes decrypted, .delivered bytes decrypted ∈ m.log → decrypted = true

/-- What every state satisfies: as long as every Finished was genuine, the core. -/
def Inv (derive : List UInt8 → List UInt8) (m : Machine E) : Prop :=
  Genuine derive m.log → Core derive m

theorem Genuine.of_append {log es : List Event} (h : Genuine derive (log ++ es)) :
    Genuine derive log :=
  fun e he => h e (List.mem_append_left es he)

theorem Proven.append {log : List Event} (h : Proven derive log) (es : List Event) :
    Proven derive (log ++ es) := by
  obtain ⟨pre, post, master, hlog, hsent, hrecv⟩ := h
  exact ⟨pre, post ++ es, master, by simp [hlog], hsent, hrecv⟩

theorem Core.grow {m m' : Machine E} {es : List Event} (h : Core derive m)
    (hstate : m'.conn.state = m.conn.state) (hstep : m'.conn.flightStep = m.conn.flightStep)
    (henc : m.conn.recvEncrypted = true → m'.conn.recvEncrypted = true)
    (hopened : m'.conn.recvEncrypted = true → ∃ d, .received ctChangeCipherSpec d ∈ m'.log)
    (hdec : m'.decrypted = true → m'.conn.recvEncrypted = true)
    (hpending : m.conn.state = .established → 0 < m'.conn.pendingLen → m'.decrypted = true)
    (hsettled : m.conn.state.Early → m.conn.state ≠ .init → m'.conn.writeBuf = [])
    (hpiece : m.conn.state = .serverDoneRecv → m'.conn.writeBuf ≠ [] →
      (m.conn.flightStep = 1 → m'.piece = .cipherSpec) ∧
        (m.conn.flightStep = 2 → m'.piece = .finished))
    (hlog : m'.log = m.log ++ es) (happ : ∀ bytes d, .delivered bytes d ∈ es → d = true) :
    Core derive m' where
  early := by rw [hstate, hstep]; exact h.early
  settled := by rw [hstate]; exact hsettled
  sendingSpec := by
    rw [hstate, hstep]
    intro hs h1 hw
    exact (hpiece hs hw).1 h1
  sendingFinished := by
    rw [hstate, hstep]
    intro hs h2
    refine ⟨?_, fun hw => (hpiece hs hw).2 h2⟩
    rw [hlog]
    exact List.mem_append_left es (h.sendingFinished hs h2).1
  flown := by
    rw [hstate, hstep, hlog]
    intro hs
    exact ⟨(h.flown hs).1, (h.flown hs).2.trans (List.sublist_append_left _ es)⟩
  opened := hopened
  decrypted := hdec
  established := by
    rw [hstate, hstep, hlog]
    intro hs
    obtain ⟨h3, he, hp⟩ := h.established hs
    exact ⟨h3, henc he, hp.append es⟩
  pending := by rw [hstate]; exact hpending
  application := by
    intro bytes d hd
    rw [hlog, List.mem_append] at hd
    cases hd with
    | inl hd => exact h.application bytes d hd
    | inr hd => exact happ bytes d hd

/-! ## Writing -/

/-- What a write does to the handshake: a record of the piece is out or pending, if no other one
was pending. -/
inductive Wrote (m : Machine E) (piece : Piece) : Status × Machine E → Prop
  | mk (st : Status) (env : E) (piece' : Piece) (seq : UInt64) (buf : List UInt8) (off : Nat)
      (es : List Event) :
      (∀ e ∈ es, e.Outbound) → (st = .ok → buf = []) →
      ((m.conn.writeBuf ≠ [] → m.piece = piece) →
        (buf ≠ [] → piece' = piece) ∧ (st = .ok → .sent piece ∈ es)) →
      Wrote m piece (st, { m with
        env := env
        piece := piece'
        conn := { m.conn with sendSeq := seq, writeBuf := buf, txOff := off }
        log := m.log ++ es })

theorem Outbound.of_chunks {chunks : List (List UInt8)} {last e : Event} (hlast : last.Outbound)
    (h : e ∈ chunks.map Event.handed ++ [last]) : e.Outbound := by
  cases List.mem_append.mp h with
  | inl h =>
    obtain ⟨chunk, -, rfl⟩ := List.mem_map.mp h
    trivial
  | inr h => rwa [List.mem_singleton.mp h]

theorem Flushed.wrote {m : Machine E} {r : Status × Machine E} (h : Flushed m r)
    (hne : m.conn.writeBuf ≠ []) {piece : Piece} : Wrote m piece r := by
  cases h with
  | out env chunks _ =>
    refine .mk .ok env m.piece m.conn.sendSeq [] 0 _
      (fun e => Outbound.of_chunks trivial) (fun _ => rfl) fun hp => ⟨nofun, fun _ => ?_⟩
    rw [hp hne]
    exact List.mem_append_right _ (List.mem_singleton.mpr rfl)
  | refused env chunks n _ _ =>
    exact .mk .wantWrite env m.piece m.conn.sendSeq m.conn.writeBuf _ _
      (fun e => Outbound.of_chunks trivial) nofun fun hp => ⟨hp, nofun⟩
  | failed env chunks n _ _ =>
    refine .mk .errTransport env m.piece m.conn.sendSeq m.conn.writeBuf _ _
      (fun e he => ?_) nofun fun hp => ⟨hp, nofun⟩
    obtain ⟨chunk, -, rfl⟩ := List.mem_map.mp he
    trivial

theorem writeRecord_wrote (w : World E) (m : Machine E) (piece : Piece) (r : Plain) :
    Wrote m piece (writeRecord w m piece r) := by
  have hwritten := writeRecord_cases w m piece r
  generalize writeRecord w m piece r = res at hwritten
  cases hwritten with
  | pending hne hflush => exact hflush.wrote hne
  | fresh hempty hframe hflush =>
    cases hframe with
    | framed env seq body _ _ =>
      have hwrote : Wrote _ piece res := hflush.wrote (by simp [header])
      cases hwrote with
      | mk st env' piece' seq' buf off es hout hok hpiece =>
        rw [List.append_assoc]
        refine .mk st env' piece' seq' buf off _ ?_ hok fun _ => ?_
        · intro e he
          cases List.mem_cons.mp he with
          | inl he => rw [he]; trivial
          | inr he => exact hout e he
        · obtain ⟨hbuf, hsent⟩ := hpiece fun _ => rfl
          exact ⟨hbuf, fun h => List.mem_cons_of_mem _ (hsent h)⟩
  | unframed hempty hframe hne =>
    cases hframe with
    | framed => exact absurd rfl hne
    | long _ =>
      have hwrote : Wrote m piece (.errOverflow, { m with log := m.log ++ [] }) :=
        .mk .errOverflow m.env m.piece m.conn.sendSeq m.conn.writeBuf m.conn.txOff []
          nofun nofun fun hp => ⟨hp, nofun⟩
      simpa using hwrote
    | unsealed env =>
      exact .mk .errCipher env m.piece m.conn.sendSeq m.conn.writeBuf m.conn.txOff _
        (fun e he => by rw [List.mem_singleton.mp he]; trivial) nofun fun hp => ⟨hp, nofun⟩

theorem Core.wrote {m m' : Machine E} {piece : Piece} {st : Status} (h : Core derive m)
    (hw : Wrote m piece (st, m')) (hstate : m.conn.state.Early → m.conn.state = .init)
    (hpiece : m.conn.state = .serverDoneRecv → (m.conn.flightStep = 1 → piece = .cipherSpec) ∧
      (m.conn.flightStep = 2 → piece = .finished)) : Core derive m' := by
  cases hw with
  | mk st env piece' seq buf off es hout hok hp =>
    refine h.grow rfl rfl id ?_ h.decrypted h.pending
      (fun he hi => absurd (hstate he) hi) ?_ rfl fun bytes d hd => absurd (hout _ hd) id
    · intro henc
      obtain ⟨d, hd⟩ := h.opened henc
      exact ⟨d, List.mem_append_left es hd⟩
    · intro hs hbuf
      constructor
      · intro h1
        have hmatch := (hp fun hne => by
          rw [h.sendingSpec hs h1 hne, (hpiece hs).1 h1]).1 hbuf
        exact hmatch.trans ((hpiece hs).1 h1)
      · intro h2
        have hmatch := (hp fun hne => by
          rw [(h.sendingFinished hs h2).2 hne, (hpiece hs).2 h2]).1 hbuf
        exact hmatch.trans ((hpiece hs).2 h2)

theorem writeRecord_core (w : World E) {m : Machine E} (piece : Piece) (r : Plain)
    (h : Genuine derive m.log → Core derive m ∧ (m.conn.state.Early → m.conn.state = .init) ∧
      (m.conn.state = .serverDoneRecv → (m.conn.flightStep = 1 → piece = .cipherSpec) ∧
        (m.conn.flightStep = 2 → piece = .finished))) :
    Yields (Event.Genuine derive)
      (fun st m' => Genuine derive m.log ∧ Core derive m' ∧ m'.conn.state = m.conn.state ∧
        m'.conn.flightStep = m.conn.flightStep ∧
          (st = .ok → m'.conn.writeBuf = [] ∧ ((m.conn.writeBuf ≠ [] → m.piece = piece) →
            ∃ es, m'.log = m.log ++ es ∧ .sent piece ∈ es)))
      (writeRecord w m piece r) := by
  have hw := writeRecord_wrote w m piece r
  generalize writeRecord w m piece r = res at hw
  obtain ⟨st, m'⟩ := res
  intro hok
  have hw' := hw
  cases hw with
  | mk st env piece' seq buf off es hout hempty hp =>
    obtain ⟨hcore, hstate, hpiece⟩ := h (Genuine.of_append hok)
    exact ⟨.of_append hok, hcore.wrote hw' hstate hpiece, rfl, rfl,
      fun hst => ⟨hempty hst, fun hm => ⟨es, rfl, (hp hm).2 hst⟩⟩⟩

/-! ## The flight -/

/-- The client flight is due. -/
structure Sending (derive : List UInt8 → List UInt8) (m : Machine E) : Prop where
  core : Core derive m
  state : m.conn.state = .serverDoneRecv
  fresh : m.conn.flightStep = 0 → m.conn.writeBuf = []

/-- After a step of the flight: the core, and what the next step starts from. -/
def Sent (derive : List UInt8 → List UInt8) (P : Nat → Prop) (st : Status) (m : Machine E) :
    Prop :=
  Core derive m ∧ (st = .ok → Sending derive m ∧ P m.conn.flightStep)

variable {w : World E} {m : Machine E}

theorem Sending.notEarly (h : Sending derive m) : m.conn.state.Early → m.conn.state = .init := by
  rw [h.state]
  simp [ConnState.Early]

theorem Core.advance {m' : Machine E} (h : Core derive m) (hs : m.conn.state = .serverDoneRecv)
    (hbuf : m.conn.writeBuf = []) (hlog : m'.log = m.log) (hdec : m'.decrypted = m.decrypted)
    (hconn : ∃ b n, m'.conn = { m.conn with sendEncrypted := b, flightStep := n } ∧
      (n = 2 → .sent .cipherSpec ∈ m.log)) : Core derive m' := by
  obtain ⟨b, n, hconn, hsent⟩ := hconn
  refine ⟨?_, ?_, ?_, ?_, ?_, ?_, ?_, ?_, ?_, ?_⟩
  all_goals simp only [hconn, hlog, hdec, hs, hbuf]
  · simp [ConnState.Early]
  · simp
  · simp
  · exact fun _ h2 => ⟨hsent h2, fun hne => absurd rfl hne⟩
  · simp
  · exact h.opened
  · exact h.decrypted
  · simp
  · simp
  · exact h.application

theorem sendKeyExchange_sent (h : Genuine derive m.log → Sending derive m) :
    Yields (Event.Genuine derive) (Sent derive (· ≠ 0)) (sendKeyExchange w m) := by
  unfold sendKeyExchange
  split
  next h0 =>
    have hw := writeRecord_core w .keyExchange (keyExchange m.conn) fun hg =>
      ⟨(h hg).core, (h hg).notEarly, fun _ => ⟨by simp [h0], by simp [h0]⟩⟩
    refine hw.andThen ?_ ?_
    · intro m' hm' hok
      obtain ⟨hg, hcore, hstate, -, hrest⟩ := hm' hok
      have hbuf := (hrest rfl).1
      have hs := hstate.trans (h hg).state
      have hcore' : Core derive (m'.set fun c => { c with flightStep := 1 }) :=
        hcore.advance hs hbuf rfl rfl ⟨_, 1, rfl, nofun⟩
      exact ⟨hcore', fun _ => ⟨⟨hcore', hs, nofun⟩, nofun⟩⟩
    · intro st m' hne hq
      exact ⟨hq.2.1, fun hst => absurd hst hne⟩
  next h0 =>
    intro hok
    exact ⟨(h hok).core, fun _ => ⟨h hok, h0⟩⟩

theorem sendCipherSpec_sent
    (h : Genuine derive m.log → Sending derive m ∧ m.conn.flightStep ≠ 0) :
    Yields (Event.Genuine derive) (Sent derive (1 < ·)) (sendCipherSpec w m) := by
  unfold sendCipherSpec
  split
  next h1 =>
    have hw := writeRecord_core w .cipherSpec cipherSpec fun hg =>
      ⟨(h hg).1.core, (h hg).1.notEarly, fun _ => ⟨fun _ => rfl, by simp [h1]⟩⟩
    refine hw.andThen ?_ ?_
    · intro m' hm' hok
      obtain ⟨hg, hcore, hstate, -, hrest⟩ := hm' hok
      obtain ⟨hbuf, hsent⟩ := hrest rfl
      have hs := hstate.trans (h hg).1.state
      obtain ⟨es, hlog, hmem⟩ := hsent ((h hg).1.core.sendingSpec (h hg).1.state h1)
      have hcore' :
          Core derive (m'.set fun c => { c with sendEncrypted := true, flightStep := 2 }) :=
        hcore.advance hs hbuf rfl rfl
          ⟨true, 2, rfl, fun _ => by rw [hlog]; exact List.mem_append_right _ hmem⟩
      exact ⟨hcore', fun _ => ⟨⟨hcore', hs, nofun⟩, Nat.lt_succ_self 1⟩⟩
    · intro st m' hne hq
      exact ⟨hq.2.1, fun hst => absurd hst hne⟩
  next h1 =>
    intro hok
    refine ⟨(h hok).1.core, fun _ => ⟨(h hok).1, ?_⟩⟩
    have h0 : m.conn.flightStep ≠ 0 := (h hok).2
    show 1 < m.conn.flightStep
    omega

theorem Core.flew (h : Core derive m)
    (hsent : List.Sublist [.sent .cipherSpec, .sent .finished] m.log) :
    Core derive (m.set fun c => { c with flightStep := 3, state := .cipherSpecSent }) where
  early := by simp [ConnState.Early]
  settled := by simp [ConnState.Early]
  sendingSpec := by simp
  sendingFinished := by simp
  flown := fun _ => ⟨rfl, hsent⟩
  opened := h.opened
  decrypted := h.decrypted
  established := by simp
  pending := by simp
  application := h.application

theorem sendFinished_core
    (h : Genuine derive m.log → Sending derive m ∧ 1 < m.conn.flightStep) :
    Yields (Event.Genuine derive) (fun _ m' => Core derive m') (sendFinished w m) := by
  unfold sendFinished
  split
  next h2 =>
    have hw := writeRecord_core w .finished (finished m.conn) fun hg =>
      ⟨(h hg).1.core, (h hg).1.notEarly, fun _ => ⟨by simp [h2], fun _ => rfl⟩⟩
    refine hw.andThen ?_ ?_
    · intro m' hm' hok
      obtain ⟨hg, hcore, hstate, -, hrest⟩ := hm' hok
      obtain ⟨hspec, hpiece⟩ := (h hg).1.core.sendingFinished (h hg).1.state h2
      obtain ⟨es, hlog, hmem⟩ := (hrest rfl).2 hpiece
      refine hcore.flew ?_
      rw [hlog]
      exact (List.singleton_sublist.mpr hspec).append (List.singleton_sublist.mpr hmem)
    · intro st m' hne hq
      exact hq.2.1
  next h2 =>
    intro hok
    exact (h hok).1.core

theorem sendClientFlight_core (h : Genuine derive m.log → Sending derive m) :
    Yields (Event.Genuine derive) (fun _ m' => Core derive m') (sendClientFlight w m) := by
  unfold sendClientFlight
  have hkey := sendKeyExchange_sent (w := w) h
  have hspec : Yields (Event.Genuine derive) (Sent derive (1 < ·))
      (andThen (sendKeyExchange w m) (sendCipherSpec w)) :=
    hkey.andThen (fun m' hm' => sendCipherSpec_sent fun hg => (hm' hg).2 rfl)
      fun st m' hne hq => ⟨hq.1, fun hst => absurd hst hne⟩
  exact hspec.andThen (fun m' hm' => sendFinished_core fun hg => (hm' hg).2 rfl)
    fun st m' _ hq => hq.1

/-! ## Messages -/

theorem Core.accepted {m' : Machine E} {type : UInt8} {body : List UInt8} (h : Core derive m)
    (hs : m.conn.state.Early) (hne : m.conn.state ≠ .init)
    (hlog : m'.log = m.log ++ [.accepted type body m.decrypted m.conn.masterSecret])
    (hdec : m'.decrypted = m.decrypted)
    (hstate : m'.conn.state.Early ∨ m'.conn.state = .serverDoneRecv)
    (hstep : m'.conn.flightStep = m.conn.flightStep) (hbuf : m'.conn.writeBuf = m.conn.writeBuf)
    (henc : m'.conn.recvEncrypted = m.conn.recvEncrypted) : Core derive m' := by
  have h0 : m'.conn.flightStep = 0 := hstep.trans (h.early hs)
  have hempty : m'.conn.writeBuf = [] := hbuf.trans (h.settled hs hne)
  have hflown : m'.conn.state ≠ .cipherSpecSent := by
    intro hf
    simp [hf, ConnState.Early] at hstate
  have hest : m'.conn.state ≠ .established := by
    intro hf
    simp [hf, ConnState.Early] at hstate
  exact
    { early := fun _ => h0
      settled := fun _ _ => hempty
      sendingSpec := fun _ _ hw => absurd hempty hw
      sendingFinished := fun _ h2 => by omega
      flown := fun hf => absurd hf hflown
      opened := by
        rw [henc, hlog]
        intro ho
        obtain ⟨d, hd⟩ := h.opened ho
        exact ⟨d, List.mem_append_left _ hd⟩
      decrypted := by rw [hdec, henc]; exact h.decrypted
      established := fun he => absurd he hest
      pending := fun he => absurd he hest
      application := by
        rw [hlog]
        intro bytes d hd
        simp only [List.mem_append, List.mem_singleton, reduceCtorEq, or_false] at hd
        exact h.application bytes d hd }

/-- The same message in a state it does not change. -/
theorem Core.note_accepted (h : Core derive m) (type : UInt8) (body : List UInt8) :
    Core derive (m.accept type body) := by
  refine h.grow rfl rfl id ?_ h.decrypted h.pending h.settled ?_ rfl ?_
  · intro henc
    obtain ⟨d, hd⟩ := h.opened henc
    exact ⟨d, List.mem_append_left _ hd⟩
  · intro hs hbuf
    exact ⟨fun h1 => h.sendingSpec hs h1 hbuf, fun h2 => (h.sendingFinished hs h2).2 hbuf⟩
  · intro bytes d hd
    simp at hd

theorem Core.noteAll (h : Core derive m) {es : List Event} (hes : ∀ e ∈ es, e.Outbound) :
    Core derive (m.noteAll es) := by
  refine h.grow rfl rfl id ?_ h.decrypted h.pending h.settled ?_ rfl ?_
  · intro henc
    exact (h.opened henc).imp fun d hd => List.mem_append_left _ hd
  · intro hs hbuf
    exact ⟨fun h1 => h.sendingSpec hs h1 hbuf, fun h2 => (h.sendingFinished hs h2).2 hbuf⟩
  · exact fun bytes d hd => absurd (hes _ hd) id

theorem Core.called (h : Core derive m)
    (hs : m.conn.state = .serverHelloRecv ∨ m.conn.state = .serverCertRecv) (body : List UInt8)
    (type : UInt8) :
    Sending derive
      (((m.accept type body).enter .serverDoneRecv).noteAll ((flight m.conn).map .due)) := by
  have hearly : m.conn.state.Early := hs.elim (fun hs => .inr (.inr (.inl hs)))
    fun hs => .inr (.inr (.inr hs))
  have hne : m.conn.state ≠ .init := by
    rcases hs with hs | hs <;> simp [hs]
  have hcore : Core derive ((m.accept type body).enter .serverDoneRecv) :=
    h.accepted hearly hne rfl rfl (.inr rfl) rfl rfl rfl
  refine ⟨hcore.noteAll ?_, rfl, fun _ => h.settled hearly hne⟩
  intro e he
  obtain ⟨r, -, rfl⟩ := List.mem_map.mp he
  trivial

theorem Core.finish (h : Core derive m) (hs : m.conn.state = .cipherSpecSent) (body : List UInt8)
    (hg : (Event.accepted hsFinished body m.decrypted m.conn.masterSecret).Genuine derive) :
    Core derive ((m.accept hsFinished body).enter .established) := by
  obtain ⟨h3, hsent⟩ := h.flown hs
  obtain ⟨hdec, hbody⟩ := hg rfl
  have henc := h.decrypted hdec
  have hopened := h.opened henc
  have hproven : Proven derive (m.accept hsFinished body).log := by
    refine ⟨m.log, [], m.conn.masterSecret, ?_, hsent, hopened⟩
    simp [Machine.accept, hdec, hbody]
  exact
    { early := by simp [ConnState.Early]
      settled := by simp [ConnState.Early]
      sendingSpec := by simp
      sendingFinished := by simp
      flown := by simp
      opened := fun _ => hopened.imp fun d hd => List.mem_append_left _ hd
      decrypted := fun _ => henc
      established := fun _ => ⟨h3, henc, hproven⟩
      pending := fun _ _ => hdec
      application := (h.note_accepted hsFinished body).application }

theorem handleHandshake_core (h : Genuine derive m.log → Core derive m) (type : UInt8)
    (body : List UInt8) :
    Yields (Event.Genuine derive) (fun _ m' => Core derive m') (handleHandshake w m type body) := by
  unfold handleHandshake
  split
  · split
    · exact h
    next hcond =>
      simp only [not_or, not_not] at hcond
      intro hok
      refine (h (Genuine.of_append hok)).accepted (.inr (.inl hcond.1)) ?_ rfl rfl ?_ rfl rfl rfl
      · simp [hcond.1]
      · exact .inl (.inr (.inr (.inl rfl)))
  · split
    · split
      · exact h
      next hs =>
        simp only [not_not] at hs
        intro hok
        refine (h (Genuine.of_append hok)).accepted (.inr (.inr (.inl hs))) ?_ rfl rfl ?_ rfl rfl rfl
        · simp [hs]
        · exact .inl (.inr (.inr (.inr rfl)))
    · split
      · exact fun hok => (h (Genuine.of_append hok)).note_accepted type body
      · split
        · split
          · exact h
          next hs =>
            exact sendClientFlight_core fun hg =>
              (h (Genuine.of_append (Genuine.of_append hg))).called (by tauto) body type
        · split
          next hfin =>
            split
            · exact h
            next hs =>
              simp only [not_not] at hs
              subst hfin
              intro hok
              refine (h (Genuine.of_append hok)).finish hs body (hok _ ?_)
              exact List.mem_append_right _ (List.mem_singleton.mpr rfl)
          · exact h

theorem processLoop_core (w : World E) (fuel : Nat) (h : Inv derive m) (p : List UInt8) :
    Yields (Event.Genuine derive) (fun _ m' => Core derive m') (processLoop w fuel m p) := by
  induction fuel generalizing m p with
  | zero => exact h
  | succ fuel ih =>
    obtain ⟨st, -, heq⟩ | ⟨type, body, rest, heq⟩ := processLoop_succ w fuel m p
    · rw [heq]
      exact h
    · rw [heq]
      exact (handleHandshake_core h type body).andThen (fun m' hm' => ih hm' _) fun _ _ _ hq => hq

end Owtls
