import OpenWindows.Owtls.Ledger

/-!
# Back-pressure

One buffer holds the pending record of the handshake flight, of `owtls_send` and of
`owtls_close`.  A call that returned `OWTLS_WANT_WRITE` resumes the pending record when it is
called again, with three exceptions: the key exchange (the flight step is still 0), the last
fragment of a send (the loop of the retry is not entered) and the close_notify (the connection is
closed already).  Where the transport refuses nothing while one of these is pending, every record
is framed once and in order, and a call that ends leaves nothing behind.
-/

namespace Owtls

open StepSystem

variable {E : Type}

/-! ## What is promised -/

/-- A machine and the last call of `owtls_handshake`, `owtls_send` or `owtls_close`: the call, the
state it was made in, and its status. -/
structure Session (E : Type) where
  m : Machine E
  last : Option (Call × ConnState × Status)

def Retries (s : Session E) (call : Call) : Prop :=
  ∃ last ∈ s.last, last.1 = call ∧ last.2.2 = .wantWrite

instance (s : Session E) (call : Call) : Decidable (Retries s call) :=
  inferInstanceAs (Decidable (∃ last ∈ s.last, last.1 = call ∧ last.2.2 = .wantWrite))

/-- The fragments of the data of a send, as records. -/
def fragmentsOf : Nat → List UInt8 → List Plain
  | 0, _ => []
  | n + 1, data =>
    if data = [] then []
    else ⟨ctApplicationData, data.take maxPlaintext, true⟩ :: fragmentsOf n (data.drop maxPlaintext)

def fragments (data : List UInt8) : List Plain := fragmentsOf data.length data

/-- The records that a call asks for when it is not a retry.  The flight is called for by the
ServerHelloDone. -/
def demand (c : Conn) : Call → List Plain
  | .handshake => if c.state = .init then [clientHello c] else []
  | .send data => if c.state = .established then fragments data else []
  | .recv _ => []
  | .close => if c.state = .established then [closeNotify c] else []

/-- The call is `owtls_recv`. -/
def Call.IsRecv : Call → Prop
  | .recv _ => True
  | _ => False

instance (call : Call) : Decidable call.IsRecv :=
  match call with
  | .recv _ => isTrue trivial
  | .handshake | .send _ | .close => isFalse id

/-- What a call asks for is noted, unless it is a retry. -/
def asked (s : Session E) (call : Call) : Machine E :=
  if Retries s call then s.m else s.m.noteAll ((demand s.m.conn call).map .due)

/-- The session after a call that returns. -/
def step (w : World E) (s : Session E) (c : Call × Nat) : Session E :=
  match perform w (asked s c.1) c.1 c.2 with
  | none => s
  | some (st, m') => ⟨m', if c.1.IsRecv then s.last else some (c.1, s.m.conn.state, st)⟩

/-- A call that returned WANT_WRITE is called again before any other one but `owtls_recv`. -/
def Patient (s : Session E) (c : Call × Nat) : Prop :=
  ∀ last ∈ s.last, last.2.2 = .wantWrite → c.1 = last.1 ∨ c.1.IsRecv

instance (s : Session E) (c : Call × Nat) : Decidable (Patient s c) :=
  inferInstanceAs (Decidable (∀ last ∈ s.last, last.2.2 = .wantWrite → c.1 = last.1 ∨ c.1.IsRecv))

/-- What is promised of a session. -/
structure Orderly (s : Session E) : Prop where
  complete : ∀ r bytes, .framed r bytes ∈ s.m.log → Complete r bytes
  inOrder : handedBytes s.m.log ++ s.m.unsent = framedBytes s.m.log
  once : framedRecords s.m.log <+: dueRecords s.m.log
  sent : ∀ data before, s.last = some (.send data, before, .ok) → s.m.conn.writeBuf = []
  called : ∀ call before st, s.last = some (call, before, st) → st = .ok ∨ st = .wantRead →
    before ≠ .closed → before ≠ .error →
      framedRecords s.m.log = dueRecords s.m.log ∧ s.m.conn.writeBuf = []

/-- A session with a fresh connection. -/
def opened (address : UInt32) (env : E) : Session E := ⟨started address env, none⟩

/-! ## The states of the outbound half -/

variable {w : World E} {m m' : Machine E}

/-- The secrets of `owtls_init` have their sizes. -/
def Sized (c : Conn) : Prop := c.clientRandom.length = randomSize ∧ c.premaster.length = masterSize

/-- Nothing is pending or owed. -/
structure Idle (m : Machine E) : Prop where
  clear : Clear m []
  user : m.conn.txUserDone = 0
  whole : m.conn.flightStep = 0 ∨ m.conn.flightStep = 3
  early : m.conn.state.Early → m.conn.flightStep = 0 ∧ Sized m.conn

/-- A step of the flight is pending and the steps after it are owed. -/
structure Interrupted (m : Machine E) : Prop where
  state : m.conn.state = .serverDoneRecv
  user : m.conn.txUserDone = 0
  stuck : m.conn.flightStep = 1 ∧ Stuck m [finished m.conn] ∨
    m.conn.flightStep = 2 ∧ Stuck m []

/-- The hello is pending. -/
structure Greeting (m : Machine E) : Prop where
  state : m.conn.state = .init
  user : m.conn.txUserDone = 0
  step : m.conn.flightStep = 0
  sized : Sized m.conn
  stuck : Stuck m []

/-- A fragment that is not the last is pending and the others are owed. -/
structure Fragmenting (data : List UInt8) (m : Machine E) : Prop where
  state : m.conn.state = .established
  whole : m.conn.flightStep = 0 ∨ m.conn.flightStep = 3
  more : m.conn.txUserDone < data.length
  stuck : Stuck m (fragments (data.drop m.conn.txUserDone))

/-- The connection went down under a pending record. -/
structure Dead (m : Machine E) : Prop where
  state : m.conn.state = .closed ∨ m.conn.state = .error
  accounts : Accounts m
  once : framedRecords m.log <+: dueRecords m.log

/-! ## The flight -/

variable {c : Conn}

theorem SameConn.fields {c' : Conn} (h : SameConn c c') :
    c'.state = c.state ∧ c'.flightStep = c.flightStep ∧ c'.txUserDone = c.txUserDone ∧
      finished c' = finished c ∧ (Sized c → Sized c') := by
  obtain ⟨seq, buf, off, rfl⟩ := h
  exact ⟨rfl, rfl, rfl, rfl, id⟩

/-- Between two steps of the flight: the record of this step is owed or pending. -/
structure InFlight (m : Machine E) : Prop where
  state : m.conn.state = .serverDoneRecv
  user : m.conn.txUserDone = 0
  stage : m.conn.flightStep = 0 ∧ Sized m.conn ∧ Clear m (flight m.conn) ∨
    m.conn.flightStep = 1 ∧ Stage m cipherSpec [finished m.conn] ∨
      m.conn.flightStep = 2 ∧ Stage m (finished m.conn) []

def Stepped (P : Nat → Prop) (st : Status) (m : Machine E) : Prop :=
  st = .ok ∧ InFlight m ∧ P m.conn.flightStep ∨ st = .wantWrite ∧ Interrupted m

theorem Clear.set {rs : List Plain} (h : Clear m rs) (f : Conn → Conn)
    (hbuf : (f m.conn).writeBuf = m.conn.writeBuf) : Clear (m.set f) rs :=
  h.keep ⟨rfl, rfl, rfl, rfl, fun _ _ hmem => hmem⟩ hbuf

/-! ### Sizes -/

theorem keystream_length (n : Nat) (r : Rc4) : (keystream n r).length = n := by
  induction n generalizing r with
  | zero => rfl
  | succ n ih => rw [keystream, List.length_cons, ih]

theorem message_length (type : UInt8) (body : List UInt8) (encrypt : Bool) :
    (message type body encrypt).payload.length = body.length + 4 := by
  simp [message, put24]

theorem keyExchange_length (h : Sized c) : (keyExchange c).payload.length ≤ maxPlaintext := by
  rw [keyExchange, message_length, h.2]
  decide

theorem finished_length (c : Conn) : (finished c).payload.length ≤ maxPlaintext := by
  rw [finished, message_length, prf, keystream_length]
  decide

theorem clientHello_length (h : Sized c) : (clientHello c).payload.length ≤ maxPlaintext := by
  rw [clientHello, message_length]
  simp only [List.length_append, h.1]
  decide

/-! ### Steps -/

theorem sendKeyExchange_books (hw : Accepts w) (h : Settles m.log → InFlight m) :
    Yields Event.Resumable (Stepped (· ≠ 0)) (sendKeyExchange w m) := by
  unfold sendKeyExchange
  split
  next h0 =>
    have hclear : Settles m.log → Sized m.conn ∧ Clear m (flight m.conn) := by
      intro hs
      rcases (h hs).stage with ⟨-, hc⟩ | ⟨h1, -⟩ | ⟨h2, -⟩
      · exact hc
      · omega
      · omega
    have hwrite := writeRecord_books hw .keyExchange fun hs : Settles m.log =>
      ⟨keyExchange_length (hclear hs).1, .inl (hclear hs).2⟩
    refine hwrite.andThen ?_ ?_
    · intro m' hm' hok
      obtain ⟨hs, hsame, hres⟩ := hm' hok
      obtain ⟨hstate, -, huser, hfin, -⟩ := hsame.fields
      rcases hres with ⟨-, hc⟩ | ⟨hst, -⟩
      · refine .inl ⟨rfl, ⟨hstate.trans (h hs).state, huser.trans (h hs).user, ?_⟩, nofun⟩
        rw [← hfin] at hc
        exact .inr (.inl ⟨rfl, .inl (hc.set (fun c => { c with flightStep := 1 }) rfl)⟩)
      · cases hst
    · rintro st m' hne ⟨hs, hsame, hres⟩
      rcases hres with ⟨hst, -⟩ | ⟨-, -, hpiece⟩
      · exact absurd hst hne
      · exact absurd (hpiece (hclear hs).2.empty) id
  next h0 => exact fun hok => .inl ⟨rfl, h hok, h0⟩

theorem sendCipherSpec_books (hw : Accepts w)
    (h : Settles m.log → InFlight m ∧ m.conn.flightStep ≠ 0) :
    Yields Event.Resumable (Stepped (1 < ·)) (sendCipherSpec w m) := by
  unfold sendCipherSpec
  split
  next h1 =>
    have hstage : Settles m.log → Stage m cipherSpec [finished m.conn] := by
      intro hs
      rcases (h hs).1.stage with ⟨h0, -⟩ | ⟨-, hst⟩ | ⟨h2, -⟩
      · omega
      · exact hst
      · omega
    have hwrite := writeRecord_books hw .cipherSpec fun hs : Settles m.log =>
      ⟨by decide, hstage hs⟩
    refine hwrite.andThen ?_ ?_
    · intro m' hm' hok
      obtain ⟨hs, hsame, hres⟩ := hm' hok
      obtain ⟨hstate, -, huser, hfin, -⟩ := hsame.fields
      rcases hres with ⟨-, hc⟩ | ⟨hst, -⟩
      · refine .inl ⟨rfl, ⟨hstate.trans (h hs).1.state, huser.trans (h hs).1.user, ?_⟩,
          Nat.lt_succ_self 1⟩
        rw [← hfin] at hc
        exact .inr (.inr ⟨rfl,
          .inl (hc.set (fun c => { c with sendEncrypted := true, flightStep := 2 }) rfl)⟩)
      · cases hst
    · rintro st m' hne ⟨hs, hsame, hres⟩
      obtain ⟨hstate, hstep, huser, hfin, -⟩ := hsame.fields
      rcases hres with ⟨hst, -⟩ | ⟨hst, hstuck, -⟩
      · exact absurd hst hne
      · rw [← hfin] at hstuck
        exact .inr ⟨hst, hstate.trans (h hs).1.state, huser.trans (h hs).1.user,
          .inl ⟨hstep.trans h1, hstuck⟩⟩
  next h1 =>
    intro hok
    refine .inl ⟨rfl, (h hok).1, ?_⟩
    have h0 : m.conn.flightStep ≠ 0 := (h hok).2
    show 1 < m.conn.flightStep
    omega

/-- After the flight. -/
def Flown (st : Status) (m : Machine E) : Prop :=
  st = .ok ∧ Idle m ∨ st = .wantWrite ∧ Interrupted m

theorem sendFinished_books (hw : Accepts w)
    (h : Settles m.log → InFlight m ∧ 1 < m.conn.flightStep) :
    Yields Event.Resumable Flown (sendFinished w m) := by
  have hstage : Settles m.log → m.conn.flightStep = 2 ∧ Stage m (finished m.conn) [] := by
    intro hs
    obtain ⟨hflight, hlt⟩ := h hs
    rcases hflight.stage with ⟨h0, -⟩ | ⟨h1, -⟩ | hst
    · omega
    · omega
    · exact hst
  unfold sendFinished
  split
  next h2 =>
    have hwrite := writeRecord_books hw .finished fun hs : Settles m.log =>
      ⟨finished_length m.conn, (hstage hs).2⟩
    refine hwrite.andThen ?_ ?_
    · intro m' hm' hok
      obtain ⟨hs, hsame, hres⟩ := hm' hok
      obtain ⟨-, -, huser, -⟩ := hsame.fields
      rcases hres with ⟨-, hc⟩ | ⟨hst, -⟩
      · exact .inl ⟨rfl, hc.set (fun c => { c with flightStep := 3, state := .cipherSpecSent }) rfl,
          huser.trans (h hs).1.user, .inr rfl, by simp [ConnState.Early]⟩
      · cases hst
    · rintro st m' hne ⟨hs, hsame, hres⟩
      obtain ⟨hstate, hstep, huser, -⟩ := hsame.fields
      rcases hres with ⟨hst, -⟩ | ⟨hst, hstuck, -⟩
      · exact absurd hst hne
      · exact .inr ⟨hst, hstate.trans (h hs).1.state, huser.trans (h hs).1.user,
          .inr ⟨hstep.trans h2, hstuck⟩⟩
  next h2 => exact fun hok => absurd (hstage hok).1 h2

theorem sendClientFlight_books (hw : Accepts w) (h : Settles m.log → InFlight m) :
    Yields Event.Resumable Flown (sendClientFlight w m) := by
  have hstop : ∀ {P Q : Nat → Prop} (st : Status) (m : Machine E), st ≠ .ok → Stepped P st m →
      Stepped Q st m := by
    intro P Q st m hne hst
    rcases hst with ⟨hst, -⟩ | hst
    · exact absurd hst hne
    · exact .inr hst
  have hgo : ∀ {P : Nat → Prop} {m : Machine E}, Stepped P .ok m → InFlight m ∧ P m.conn.flightStep := by
    intro P m hst
    rcases hst with ⟨-, hst⟩ | ⟨hst, -⟩
    · exact hst
    · cases hst
  have hspec : Yields Event.Resumable (Stepped (1 < ·))
      (andThen (sendKeyExchange w m) (sendCipherSpec w)) :=
    (sendKeyExchange_books hw h).andThen
      (fun m' hm' => sendCipherSpec_books hw fun hs => hgo (hm' hs)) hstop
  refine hspec.andThen (fun m' hm' => sendFinished_books hw fun hs => hgo (hm' hs)) ?_
  intro st m' hne hst
  rcases hst with ⟨hst, -⟩ | hst
  · exact absurd hst hne
  · exact .inr hst

/-! ## The inbound half -/

theorem SameLedger.note (m : Machine E) {e : Event} (h : e.Silent) :
    SameLedger m.log (m.note e).log :=
  .of_silent m.log fun _ he => List.mem_singleton.mp he ▸ h

theorem Idle.keep (h : Idle m) (hlog : SameLedger m.log m'.log)
    (hbuf : m'.conn.writeBuf = m.conn.writeBuf) (huser : m'.conn.txUserDone = m.conn.txUserDone)
    (hstep : m'.conn.flightStep = m.conn.flightStep)
    (hearly : m'.conn.state.Early → m.conn.state.Early ∧ (Sized m.conn → Sized m'.conn)) :
    Idle m' where
  clear := h.clear.keep hlog hbuf
  user := huser.trans h.user
  whole := by rw [hstep]; exact h.whole
  early := by
    intro he
    obtain ⟨hm, hsized⟩ := hearly he
    exact ⟨hstep.trans (h.early hm).1, hsized (h.early hm).2⟩

/-- What the inbound half leaves alone. -/
structure Inbound (m m' : Machine E) : Prop where
  ledger : SameLedger m.log m'.log
  settles : Settles m'.log → Settles m.log
  state : m'.conn.state = m.conn.state ∨ m'.conn.state = .closed ∨ m'.conn.state = .error
  buf : m'.conn.writeBuf = m.conn.writeBuf
  off : m'.conn.txOff = m.conn.txOff
  step : m'.conn.flightStep = m.conn.flightStep
  user : m'.conn.txUserDone = m.conn.txUserDone
  sized : Sized m.conn → Sized m'.conn

theorem SameLedger.trans {a b c : List Event} (h1 : SameLedger a b) (h2 : SameLedger b c) :
    SameLedger a c :=
  ⟨h2.handed.trans h1.handed, h2.framed.trans h1.framed, h2.records.trans h1.records,
    h2.due.trans h1.due, fun r bytes h => h1.mem r bytes (h2.mem r bytes h)⟩

theorem SameLedger.refl (log : List Event) : SameLedger log log :=
  ⟨rfl, rfl, rfl, rfl, fun _ _ h => h⟩

theorem Inbound.refl (m : Machine E) : Inbound m m :=
  ⟨.refl _, id, .inl rfl, rfl, rfl, rfl, rfl, id⟩

theorem Inbound.trans {m1 m2 m3 : Machine E} (h1 : Inbound m1 m2) (h2 : Inbound m2 m3) :
    Inbound m1 m3 where
  ledger := h1.ledger.trans h2.ledger
  settles := fun hs => h1.settles (h2.settles hs)
  state := by
    rcases h2.state with hs | hs
    · rw [hs]
      exact h1.state
    · exact .inr hs
  buf := h2.buf.trans h1.buf
  off := h2.off.trans h1.off
  step := h2.step.trans h1.step
  user := h2.user.trans h1.user
  sized := fun hs => h2.sized (h1.sized hs)

theorem Inbound.idle (h : Inbound m m') (hi : Idle m) : Idle m' := by
  refine hi.keep h.ledger h.buf h.user h.step fun he => ?_
  rcases h.state with hs | hs | hs
  · exact ⟨hs ▸ he, h.sized⟩
  · simp [hs, ConnState.Early] at he
  · simp [hs, ConnState.Early] at he

theorem readRecord_inbound (w : World E) (m : Machine E) :
    Inbound m (readRecord w m).2 ∧ (readRecord w m).2.conn.state = m.conn.state ∧
      (readRecord w m).1 ≠ .error .wantWrite := by
  have hread := readRecord_cases w m
  generalize readRecord w m = r at hread
  cases hread with
  | stopped st env buf len type hst =>
    exact ⟨⟨.refl _, id, .inl rfl, rfl, rfl, rfl, rfl, id⟩, rfl, fun h => hst (by cases h; rfl)⟩
  | read env buf len type payload seq d _ =>
    exact ⟨⟨SameLedger.note m (e := .received type d) trivial, Settles.of_append, .inl rfl, rfl,
      rfl, rfl, rfl, id⟩, rfl, nofun⟩

theorem consume_inbound (m : Machine E) : Inbound m (consume m) :=
  ⟨.refl _, id, .inl rfl, rfl, rfl, rfl, rfl, id⟩

theorem enter_inbound (m : Machine E) {st : ConnState} (hst : st = .closed ∨ st = .error) :
    Inbound m (m.enter st) :=
  ⟨.refl _, id, .inr hst, rfl, rfl, rfl, rfl, id⟩

theorem handleAlert_inbound (m : Machine E) (p : List UInt8) :
    Inbound m (handleAlert m p).2 ∧ (handleAlert m p).1 ≠ .wantWrite := by
  unfold handleAlert
  split
  · exact ⟨.refl m, nofun⟩
  · split
    · exact ⟨enter_inbound m (.inl rfl), nofun⟩
    · split
      · exact ⟨enter_inbound m (.inr rfl), nofun⟩
      · exact ⟨.refl m, nofun⟩

/-! ## Messages -/

/-- After something that may send the flight. -/
def Handled (st : Status) (m : Machine E) : Prop :=
  st ≠ .wantWrite ∧ Idle m ∨ st = .wantWrite ∧ Interrupted m

theorem accept_ledger (m : Machine E) (type : UInt8) (body : List UInt8) :
    SameLedger m.log (m.accept type body).log :=
  SameLedger.note m trivial

theorem Idle.called (h : Idle m)
    (hs : m.conn.state = .serverHelloRecv ∨ m.conn.state = .serverCertRecv) (type : UInt8)
    (body : List UInt8) :
    InFlight (((m.accept type body).enter .serverDoneRecv).noteAll ((flight m.conn).map .due)) := by
  obtain ⟨h0, hsized⟩ := h.early (hs.elim (fun hs => .inr (.inr (.inl hs)))
    fun hs => .inr (.inr (.inr hs)))
  have hclear : Clear ((m.accept type body).enter .serverDoneRecv) [] :=
    h.clear.keep (accept_ledger m type body) rfl
  exact ⟨rfl, h.user, .inl ⟨h0, hsized, hclear.call (flight m.conn)⟩⟩

theorem handleHandshake_books (hw : Accepts w) (h : Settles m.log → Idle m) (type : UInt8)
    (body : List UInt8) :
    Yields Event.Resumable Handled (handleHandshake w m type body) := by
  have hstay : Yields Event.Resumable Handled (.errProtocol, m) :=
    fun hok => .inl ⟨nofun, h hok⟩
  unfold handleHandshake
  split
  · split
    · exact hstay
    next hcond =>
      simp only [not_or, not_not] at hcond
      intro hok
      have hi := h (Settles.of_append hok)
      refine .inl ⟨nofun, hi.keep (accept_ledger m type body) rfl rfl rfl fun _ => ?_⟩
      exact ⟨.inr (.inl hcond.1), id⟩
  · split
    · split
      · exact hstay
      next hs =>
        intro hok
        have hi := h (Settles.of_append hok)
        refine .inl ⟨nofun, hi.keep (accept_ledger m type body) rfl rfl rfl fun _ => ?_⟩
        exact ⟨.inr (.inr (.inl (not_not.mp hs))), id⟩
    · split
      · intro hok
        have hi := h (Settles.of_append hok)
        exact .inl ⟨nofun, hi.keep (accept_ledger m type body) rfl rfl rfl fun he => ⟨he, id⟩⟩
      · split
        · split
          · exact hstay
          next hs =>
            refine (sendClientFlight_books hw fun hok => ?_).mono ?_
            · exact (h (Settles.of_append (Settles.of_append hok))).called (by tauto) type body
            · rintro st m' (⟨hst, hi⟩ | hst)
              · exact .inl ⟨by rw [hst]; nofun, hi⟩
              · exact .inr hst
        · split
          · split
            · exact hstay
            · intro hok
              have hi := h (Settles.of_append hok)
              refine .inl ⟨nofun, hi.keep (accept_ledger m type body) rfl rfl rfl ?_⟩
              simp [ConnState.Early]
          · exact hstay

theorem processLoop_books (hw : Accepts w) (fuel : Nat) (h : Settles m.log → Idle m)
    (p : List UInt8) : Yields Event.Resumable Handled (processLoop w fuel m p) := by
  induction fuel generalizing m p with
  | zero =>
    refine fun hok => .inl ⟨?_, h hok⟩
    simp only [processLoop]
    split <;> nofun
  | succ fuel ih =>
    obtain ⟨st, hst, heq⟩ | ⟨type, body, rest, heq⟩ := processLoop_succ w fuel m p
    · rw [heq]
      refine fun hok => .inl ⟨?_, h hok⟩
      rcases hst with rfl | rfl <;> nofun
    · rw [heq]
      refine (handleHandshake_books hw h type body).andThen (fun m' hm' => ih (fun hok => ?_) _)
        fun _ _ _ hq => hq
      rcases hm' hok with ⟨-, hi⟩ | ⟨hst, -⟩
      · exact hi
      · cases hst

/-! ## The calls -/

/-- What a round of `owtls_handshake` goes on with or stops with. -/
def RoundBooks (r : Machine E ⊕ (Status × Machine E)) : Prop :=
  match r with
  | .inl m => Settles m.log → Idle m
  | .inr r => Yields Event.Resumable Handled r

variable {st : Status} {n : Nat} {r : Status × Machine E}

theorem Handled.inbound (h : Handled st m) (hin : Inbound m m')
    (hstate : m'.conn.state = m.conn.state) (hfin : finished m'.conn = finished m.conn) :
    Handled st m' := by
  rcases h with ⟨hst, hi⟩ | ⟨hst, hint⟩
  · exact .inl ⟨hst, hin.idle hi⟩
  · refine .inr ⟨hst, hstate.trans hint.state, hin.user.trans hint.user, ?_⟩
    rw [hin.step, hfin]
    exact hint.stuck.imp (fun h => ⟨h.1, h.2.keep hin.ledger hin.buf hin.off⟩)
      fun h => ⟨h.1, h.2.keep hin.ledger hin.buf hin.off⟩

theorem Handled.idle (h : Handled st m) (hst : st ≠ .wantWrite) : Idle m :=
  h.elim And.right fun h => absurd h.1 hst

theorem handshakeRecord_books (hw : Accepts w) (h : Settles m.log → Idle m) (type : UInt8)
    (payload : List UInt8) : RoundBooks (handshakeRecord w m type payload) := by
  unfold handshakeRecord
  split
  · intro hok
    have hopen : Idle (m.set fun c => { c with recvEncrypted := true }) :=
      (h hok).keep (.refl _) rfl rfl rfl fun he => ⟨he, id⟩
    exact (consume_inbound _).idle hopen
  · split
    · obtain ⟨hin, hst⟩ := handleAlert_inbound m payload
      intro hok
      exact .inl ⟨hst, (hin.trans (consume_inbound _)).idle (h (hin.settles hok))⟩
    · split
      · have hp : Yields Event.Resumable Handled (processHandshake w m payload) :=
          processLoop_books hw _ h payload
        generalize processHandshake w m payload = r at hp
        obtain ⟨st, m'⟩ := r
        simp only
        split
        · exact fun hok => (hp hok).inbound (consume_inbound m') rfl rfl
        next hstop =>
          have hne : st ≠ .wantWrite := fun hst => hstop (.inl hst)
          have hidle : Settles m'.log → Idle (consume m') := fun hok =>
            (consume_inbound m').idle ((hp hok).idle hne)
          split
          · exact fun hok => .inl ⟨hne, (enter_inbound _ (.inr rfl)).idle (hidle hok)⟩
          · split
            · exact fun hok => .inl ⟨nofun, hidle hok⟩
            · exact hidle
      · intro hok
        have hin : Inbound m ((consume m).enter .error) :=
          (consume_inbound m).trans (enter_inbound _ (.inr rfl))
        exact .inl ⟨nofun, hin.idle (h hok)⟩

/-- Where a round of `owtls_handshake` starts. -/
def Ready (m : Machine E) : Prop := Idle m ∨ Interrupted m

theorem resumeFlight_books (hw : Accepts w) (h : Settles m.log → Ready m) :
    Yields Event.Resumable Flown (resumeFlight w m) := by
  unfold resumeFlight
  split
  next hstep =>
    refine sendClientFlight_books hw fun hok => ?_
    rcases h hok with hi | hint
    · have := hi.whole
      omega
    · refine ⟨hint.state, hint.user, .inr ?_⟩
      exact hint.stuck.imp (fun h => ⟨h.1, .inr h.2⟩) fun h => ⟨h.1, .inr h.2⟩
  next hstep =>
    intro hok
    rcases h hok with hi | hint
    · exact .inl ⟨rfl, hi⟩
    · have := hint.stuck
      omega

theorem handshakeRound_books (hw : Accepts w) (h : Settles m.log → Ready m) :
    RoundBooks (handshakeRound w m) := by
  unfold handshakeRound
  have hresume := resumeFlight_books hw h
  split
  next m1 heq =>
    rw [heq] at hresume
    have hidle : Settles m1.log → Idle m1 := by
      intro hok
      rcases hresume hok with ⟨-, hi⟩ | ⟨hst, -⟩
      · exact hi
      · cases hst
    obtain ⟨hin, hstate, hne⟩ := readRecord_inbound w m1
    have hread : Settles (readRecord w m1).2.log → Idle (readRecord w m1).2 := fun hok =>
      hin.idle (hidle (hin.settles hok))
    split
    next type payload m2 hrec =>
      rw [hrec] at hread
      exact handshakeRecord_books hw hread type payload
    next m2 hrec =>
      rw [hrec] at hread
      exact fun hok => .inl ⟨nofun, hread hok⟩
    next st m2 _ hrec =>
      rw [hrec] at hread hne
      intro hok
      refine .inl ⟨fun hst => hne ?_, (enter_inbound _ (.inr rfl)).idle (hread hok)⟩
      exact congrArg Except.error hst
  next st m1 hst heq =>
    rw [heq] at hresume
    intro hok
    rcases hresume hok with ⟨hok', -⟩ | hint
    · exact absurd hok' hst
    · exact .inr hint

theorem handshakeLoop_books (hw : Accepts w)
    (h : Settles m.log → Ready m) (hr : stopped (runFor (handshakeRound w) n m) = some r) :
    Yields Event.Resumable Handled r := by
  refine stopped_ends (P := fun m => Settles m.log → Ready m) ?_ ?_ hr h
  · intro s t hs heq
    have hround := handshakeRound_books hw hs
    rw [heq] at hround
    exact fun hok => .inl (hround hok)
  · intro s r hs heq
    have hround := handshakeRound_books hw hs
    rwa [heq] at hround

/-- The outcome of a call that waits when the transport is full. -/
def Waiting : Call → Machine E → Prop
  | .handshake, m => Interrupted m ∨ Greeting m
  | .send data, m => Fragmenting data m
  | .recv _, _ | .close, _ => False

def Outcome (call : Call) (st : Status) (m : Machine E) : Prop :=
  st ≠ .wantWrite ∧ Idle m ∨ st = .wantWrite ∧ Waiting call m

/-- Where `owtls_handshake` starts: the hello is called for or pending, or a round begins. -/
def Entering (m : Machine E) : Prop :=
  m.conn.state = .init ∧ m.conn.txUserDone = 0 ∧ m.conn.flightStep = 0 ∧ Sized m.conn ∧
      Stage m (clientHello m.conn) [] ∨
    m.conn.state ≠ .init ∧ Ready m

theorem handshake_books (hw : Accepts w)
    (h : Settles m.log → Entering m) (hr : handshake w n m = some r) :
    Yields Event.Resumable (Outcome .handshake) r := by
  have hloop : ∀ {m : Machine E}, (Settles m.log → Ready m) →
      stopped (runFor (handshakeRound w) n m) = some r →
        Yields Event.Resumable (Outcome .handshake) r := by
    intro m hm hr
    refine (handshakeLoop_books hw hm hr).mono ?_
    exact fun st m' hst => hst.imp id fun hst => ⟨hst.1, .inl hst.2⟩
  have hidle : ∀ {st : Status}, (m.conn.state = .established ∨ m.conn.state = .closed ∨
      m.conn.state = .error) → st ≠ .wantWrite →
        Yields Event.Resumable (Outcome .handshake) (st, m) := by
    intro st hstate hst hok
    refine .inl ⟨hst, ?_⟩
    rcases h hok with ⟨hinit, -⟩ | ⟨-, hi | hint⟩
    · simp [hinit] at hstate
    · exact hi
    · simp [hint.state] at hstate
  unfold handshake at hr
  split at hr
  next hs => cases hr; exact hidle (.inl hs) nofun
  · split at hr
    next hs => cases hr; exact hidle (.inr hs) nofun
    · split at hr
      next hs =>
        have henter : Settles m.log → m.conn.txUserDone = 0 ∧ m.conn.flightStep = 0 ∧
            Sized m.conn ∧ Stage m (clientHello m.conn) [] := by
          intro hok
          rcases h hok with ⟨-, hst⟩ | ⟨hne, -⟩
          · exact hst
          · exact absurd hs hne
        have hwrite := writeRecord_books hw .clientHello fun hok : Settles m.log =>
          ⟨clientHello_length (henter hok).2.2.1, (henter hok).2.2.2⟩
        rw [← sendClientHello] at hwrite
        split at hr
        next m1 heq =>
          rw [heq] at hwrite
          refine hloop (fun hok => .inl ?_) hr
          obtain ⟨hs', hsame, hres⟩ := hwrite hok
          obtain ⟨huser, hstep, hsized, -⟩ := henter hs'
          obtain ⟨-, hstep', huser', -, hsized'⟩ := hsame.fields
          rcases hres with ⟨-, hc⟩ | ⟨hst, -⟩
          · exact ⟨hc.set (fun c => { c with state := .clientHelloSent }) rfl, huser'.trans huser,
              .inl (hstep'.trans hstep), fun _ => ⟨hstep'.trans hstep, hsized' hsized⟩⟩
          · cases hst
        next st m1 hne heq =>
          rw [heq] at hwrite
          cases hr
          intro hok
          obtain ⟨hs', hsame, hres⟩ := hwrite hok
          obtain ⟨huser, hstep, hsized, -⟩ := henter hs'
          obtain ⟨hstate', hstep', huser', -, hsized'⟩ := hsame.fields
          rcases hres with ⟨hst, -⟩ | ⟨hst, hstuck, -⟩
          · exact absurd hst hne
          · exact .inr ⟨hst, .inr ⟨hstate'.trans hs, huser'.trans huser, hstep'.trans hstep,
              hsized' hsized, hstuck⟩⟩
      next hs =>
        refine hloop (fun hok => ?_) hr
        rcases h hok with ⟨hinit, -⟩ | ⟨-, hready⟩
        · exact absurd hinit hs
        · exact hready

/-! ### Sending -/

variable {data : List UInt8}

theorem fragmentsOf_fuel {k : Nat} (hn : data.length ≤ n)
    (hk : data.length ≤ k) : fragmentsOf n data = fragmentsOf k data := by
  induction n generalizing k data with
  | zero =>
    rw [List.eq_nil_of_length_eq_zero (Nat.le_zero.mp hn)]
    cases k <;> rfl
  | succ n ih =>
    cases k with
    | zero =>
      rw [List.eq_nil_of_length_eq_zero (Nat.le_zero.mp hk)]
      rfl
    | succ k =>
      simp only [fragmentsOf]
      split
      · rfl
      next hne =>
        have hpos : 0 < data.length := List.length_pos_of_ne_nil hne
        have hdrop : (data.drop maxPlaintext).length < data.length := by
          simp only [List.length_drop, maxPlaintext]
          omega
        have hrest : fragmentsOf n (data.drop maxPlaintext) =
            fragmentsOf k (data.drop maxPlaintext) := ih (by omega) (by omega)
        rw [hrest]

theorem fragments_cons (h : data ≠ []) : fragments data =
      ⟨ctApplicationData, data.take maxPlaintext, true⟩ :: fragments (data.drop maxPlaintext) := by
  have hpos : 0 < data.length := List.length_pos_of_ne_nil h
  obtain ⟨k, hk⟩ : ∃ k, data.length = k + 1 := ⟨data.length - 1, by omega⟩
  have hdrop : (data.drop maxPlaintext).length ≤ k := by
    simp only [List.length_drop, maxPlaintext]
    omega
  rw [fragments, hk, fragmentsOf, if_neg h, fragments, fragmentsOf_fuel hdrop (Nat.le_refl _)]

theorem fragments_drop {done : Nat} (h : done < data.length) :
    fragments (data.drop done) = ⟨ctApplicationData, fragmentOf data done, true⟩ ::
      fragments (data.drop (done + (fragmentOf data done).length)) := by
  have hlen : (data.drop done).length = data.length - done := List.length_drop
  have hne : data.drop done ≠ [] := by
    intro h0
    rw [h0, List.length_nil] at hlen
    omega
  have hdrop : data.drop (done + (fragmentOf data done).length) =
      (data.drop done).drop maxPlaintext := by
    rw [← List.drop_drop, fragmentOf, List.length_take]
    by_cases hle : maxPlaintext ≤ (data.drop done).length
    · rw [Nat.min_eq_left hle]
    · have hge : (data.drop done).length ≤ maxPlaintext := by omega
      rw [Nat.min_eq_right hge, List.drop_eq_nil_of_le (Nat.le_refl _), List.drop_eq_nil_of_le hge]
  rw [hdrop, fragments_cons hne, fragmentOf]

theorem fragmentOf_length (data : List UInt8) (done : Nat) :
    (fragmentOf data done).length ≤ maxPlaintext ∧
      (done ≤ data.length → done + (fragmentOf data done).length ≤ data.length) := by
  rw [fragmentOf, List.length_take, List.length_drop]
  exact ⟨Nat.min_le_left _ _, fun h => by omega⟩

/-- Where a round of `owtls_send` starts. -/
structure Sends (data : List UInt8) (m : Machine E) : Prop where
  state : m.conn.state = .established
  whole : m.conn.flightStep = 0 ∨ m.conn.flightStep = 3
  done : m.conn.txUserDone ≤ data.length
  books : Clear m (fragments (data.drop m.conn.txUserDone)) ∨
    m.conn.txUserDone < data.length ∧ Stuck m (fragments (data.drop m.conn.txUserDone))

/-- What a round of `owtls_send` goes on with or stops with. -/
def SendBooks (data : List UInt8) (r : Machine E ⊕ (Status × Machine E)) : Prop :=
  match r with
  | .inl m => Settles m.log → Sends data m
  | .inr r => Yields Event.Resumable (Outcome (.send data)) r

theorem sendFragment_books (hw : Accepts w) (h : Settles m.log → m.conn.state = .established ∧
      (m.conn.flightStep = 0 ∨ m.conn.flightStep = 3) ∧ m.conn.txUserDone < data.length ∧
      Clear m (fragments (data.drop m.conn.txUserDone))) :
    SendBooks data (sendFragment w data m) := by
  obtain ⟨hmax, hdone⟩ := fragmentOf_length data m.conn.txUserDone
  unfold sendFragment
  simp only
  generalize hnext : m.conn.txUserDone + (fragmentOf data m.conn.txUserDone).length = next at hdone
  have hwrite := writeRecord_books hw (.fragment (next = data.length)) fun hs : Settles m.log =>
    have hclear := (h hs).2.2.2
    ⟨hmax, .inl (by rw [fragments_drop (h hs).2.2.1, hnext] at hclear; exact hclear)⟩
  split
  next m1 heq =>
    rw [heq] at hwrite
    intro hok
    obtain ⟨hs, hsame, hres⟩ := hwrite hok
    obtain ⟨hstate, hstep, -, -⟩ := hsame.fields
    obtain ⟨hest, h3, hlt, -⟩ := h hs
    rcases hres with ⟨-, hc⟩ | ⟨hst, -⟩
    · exact ⟨hstate.trans hest, hstep.symm ▸ h3, hdone (Nat.le_of_lt hlt),
        .inl (hc.set (fun c => { c with txUserDone := next }) rfl)⟩
    · cases hst
  next st m1 hne heq =>
    rw [heq] at hwrite
    intro hok
    obtain ⟨hs, hsame, hres⟩ := hwrite hok
    obtain ⟨hstate, hstep, -, -⟩ := hsame.fields
    obtain ⟨hest, h3, hlt, hclear⟩ := h hs
    rcases hres with ⟨hst, -⟩ | ⟨hst, hstuck, hpiece⟩
    · exact absurd hst hne
    · -- the piece was just framed, so it is not the last fragment
      have hmore : next < data.length := by
        have hlast := hpiece hclear.empty
        have hle := hdone (Nat.le_of_lt hlt)
        by_cases heq : next = data.length
        · simp [heq, Piece.Resumable] at hlast
        · omega
      simp only at hst
      subst hst
      exact .inr ⟨rfl, hstate.trans hest, hstep.symm ▸ h3, hmore,
        hstuck.keep (.refl _) rfl rfl⟩

theorem sendRound_books (hw : Accepts w) (h : Settles m.log → Sends data m) :
    SendBooks data (sendRound w data m) := by
  unfold sendRound
  split
  next hlt =>
    split
    next hempty =>
      refine sendFragment_books hw fun hs => ⟨(h hs).state, (h hs).whole, hlt, ?_⟩
      exact (h hs).books.resolve_right fun hst => hst.2.pending hempty
    next hne =>
      have hstuck : Settles m.log → Stuck m (fragments (data.drop m.conn.txUserDone)) := by
        intro hs
        exact ((h hs).books.resolve_left fun hc => hne hc.empty).2
      have hflush := flush_books hw hstuck
      split
      next m1 heq =>
        rw [heq] at hflush
        refine sendFragment_books hw fun hok => ?_
        obtain ⟨hs, hsame, hres⟩ := hflush hok
        obtain ⟨hstate, hstep, huser, -⟩ := hsame.fields
        rcases hres with ⟨-, hc⟩ | ⟨hst, -⟩
        · refine ⟨hstate.trans (h hs).state, hstep.symm ▸ (h hs).whole, ?_, ?_⟩
          · exact Nat.lt_of_le_of_lt (Nat.le_of_eq huser) hlt
          · rw [← huser] at hc
            exact hc
        · cases hst
      next st m1 hnot heq =>
        rw [heq] at hflush
        intro hok
        obtain ⟨hs, hsame, hres⟩ := hflush hok
        obtain ⟨hstate, hstep, huser, -⟩ := hsame.fields
        rcases hres with ⟨hst, -⟩ | ⟨hst, hst', -⟩
        · exact absurd hst hnot
        · refine .inr ⟨hst, hstate.trans (h hs).state, hstep.symm ▸ (h hs).whole, ?_, ?_⟩
          · exact Nat.lt_of_le_of_lt (Nat.le_of_eq huser) hlt
          · rw [← huser] at hst'
            exact hst'
  next hge =>
    intro hok
    have hsends := h hok
    have hclear : Clear m [] := by
      have hc := hsends.books.resolve_right fun hst => hge hst.1
      have hnil : data.drop m.conn.txUserDone = [] := List.drop_eq_nil_of_le (by omega)
      rwa [hnil] at hc
    refine .inl ⟨nofun, hclear.set (fun c => { c with txUserDone := 0 }) rfl, rfl,
      hsends.whole, ?_⟩
    simp [hsends.state, ConnState.Early]

theorem send_books (hw : Accepts w)
    (h : Settles m.log → Sends data m) (hs : m.conn.state = .established)
    (hr : send w data n m = some r) :
    Yields Event.Resumable (Outcome (.send data)) r := by
  unfold send at hr
  rw [if_neg (not_not.mpr hs)] at hr
  refine stopped_ends (P := fun m => Settles m.log → Sends data m) ?_ ?_ hr h
  · intro s t hs heq
    have hround := sendRound_books hw hs
    rwa [heq] at hround
  · intro s r hs heq
    have hround := sendRound_books hw hs
    rwa [heq] at hround

/-! ### Receiving and closing -/

theorem Noted.inbound (h : Noted m m') : Inbound m m' := by
  obtain ⟨es, rfl, hacc⟩ := h
  refine ⟨.of_silent m.log fun e he => ?_, Settles.of_append, .inl rfl, rfl, rfl, rfl, rfl, id⟩
  have := hacc e he
  cases e <;> first | exact absurd this id | trivial

theorem drainApp_inbound (cap : Nat) (m : Machine E) : Inbound m (drainApp cap m).2 := by
  have hdrained : ∀ (f : Conn → Conn) (bytes : List UInt8),
      (f m.conn = { m.conn with
        pendingOff := (f m.conn).pendingOff, pendingLen := (f m.conn).pendingLen }) →
      Inbound m ((m.set f).note (.delivered bytes m.decrypted)) := by
    intro f bytes hf
    have hledger : SameLedger m.log ((m.set f).note (.delivered bytes m.decrypted)).log :=
      SameLedger.note m (e := .delivered bytes m.decrypted) trivial
    refine ⟨hledger, Settles.of_append, ?_, ?_, ?_, ?_, ?_, ?_⟩
    all_goals simp only [note_conn, set_conn]
    all_goals rw [hf]
    · exact .inl rfl
    · exact id
  unfold drainApp
  simp only
  split
  · exact (hdrained _ _ rfl).trans (consume_inbound _)
  · exact hdrained _ _ rfl

/-- What a round of `owtls_recv` goes on with or stops with. -/
def RecvBooks (m : Machine E) (r : Machine E ⊕ (Status × Machine E)) : Prop :=
  match r with
  | .inl m' => Inbound m m' ∧ m'.conn.state = .established
  | .inr r => Inbound m r.2

theorem recvRound_inbound (w : World E) (cap : Nat) (hs : m.conn.state = .established) :
    RecvBooks m (recvRound w cap m) := by
  unfold recvRound
  obtain ⟨hin, hstate, -⟩ := readRecord_inbound w m
  split
  next st m1 heq =>
    rw [heq] at hin
    exact hin
  next type payload m1 heq =>
    rw [heq] at hin hstate
    have hest : m1.conn.state = .established := hstate.trans hs
    split
    · have hset : Inbound m1 (m1.set fun c =>
          { c with pendingOff := recordHeaderSize, pendingLen := payload.length }) :=
        ⟨.refl _, id, .inl rfl, rfl, rfl, rfl, rfl, id⟩
      exact hin.trans (hset.trans (drainApp_inbound cap _))
    · split
      · exact hin.trans ((handleAlert_inbound m1 payload).1.trans (consume_inbound _))
      · split
        · have hnoted := processLoop_established w payload.length hest payload
          have hp : (processHandshake w m1 payload).2.conn.state = .established := by
            obtain ⟨es, heq', -⟩ := hnoted
            rw [processHandshake, heq']
            exact hest
          have hpin : Inbound m (processHandshake w m1 payload).2 := hin.trans hnoted.inbound
          split
          next m2 heq' =>
            rw [heq'] at hp hpin
            exact ⟨hpin.trans (consume_inbound _), hp⟩
          next st m2 _ heq' =>
            rw [heq'] at hpin
            exact hpin.trans (consume_inbound _)
        · split
          · have hset : Inbound m1 (m1.set fun c => { c with recvEncrypted := true }) :=
              ⟨.refl _, id, .inl rfl, rfl, rfl, rfl, rfl, id⟩
            exact ⟨hin.trans (hset.trans (consume_inbound _)), hest⟩
          · exact hin.trans (consume_inbound _)

theorem recv_inbound {cap : Nat} (hr : recv w cap n m = some r) : Inbound m r.2 := by
  unfold recv at hr
  split at hr
  · cases hr; exact .refl m
  next hs =>
    split at hr
    · cases hr; exact drainApp_inbound cap m
    · refine stopped_ends (P := fun m' => Inbound m m' ∧ m'.conn.state = .established)
        (S := fun r => Inbound m r.2) ?_ ?_ hr ⟨.refl m, not_not.mp hs⟩
      · intro s t hs' heq
        have hround := recvRound_inbound w cap hs'.2
        rw [heq] at hround
        exact ⟨hs'.1.trans hround.1, hround.2⟩
      · intro s r hs' heq
        have hround := recvRound_inbound w cap hs'.2
        rw [heq] at hround
        exact hs'.1.trans hround

theorem Clear.shut (h : Clear m []) (hstep : m.conn.flightStep = 0 ∨ m.conn.flightStep = 3) :
    Idle (m.set fun c => { c with state := .closed, pendingLen := 0, txUserDone := 0 }) :=
  ⟨h.set _ rfl, rfl, hstep, by simp [ConnState.Early]⟩

theorem closeNotify_length (c : Conn) : (closeNotify c).payload.length ≤ maxPlaintext :=
  (by decide : 2 ≤ maxPlaintext)

theorem close_books (hw : Accepts w)
    (hest : m.conn.state = .established → Settles m.log →
      Clear m [closeNotify m.conn] ∧ (m.conn.flightStep = 0 ∨ m.conn.flightStep = 3))
    (hnot : m.conn.state ≠ .established → Settles m.log → Idle m) :
    Yields Event.Resumable (fun st m' => st = .ok ∧ Idle m') (close w m) := by
  unfold close
  split
  next hs => exact fun hok => ⟨rfl, hnot (by simp [hs]) hok⟩
  · by_cases hs : m.conn.state = .established
    · rw [if_pos hs]
      have hwrite := writeRecord_books hw .closeNotify fun hok : Settles m.log =>
        ⟨closeNotify_length m.conn, .inl (hest hs hok).1⟩
      intro hok
      obtain ⟨hok', hsame, hres⟩ := hwrite hok
      obtain ⟨-, hstep, -⟩ := hsame.fields
      obtain ⟨hc, h3⟩ := hest hs hok'
      rcases hres with ⟨hst, hclear⟩ | ⟨-, -, hpiece⟩
      · exact ⟨hst, hclear.shut (hstep.symm ▸ h3)⟩
      · exact absurd (hpiece hc.empty) id
    · rw [if_neg hs]
      intro hok
      exact ⟨rfl, (hnot hs hok).clear.shut (hnot hs hok).whole⟩

/-! ## Sessions -/

/-- Between two calls: idle, waiting for a retry, or dead. -/
inductive Held (s : Session E) : Prop
  | idle : Idle s.m → (∀ call before, s.last ≠ some (call, before, .wantWrite)) → Held s
  | waiting (call : Call) (before : ConnState) :
      s.last = some (call, before, .wantWrite) → Waiting call s.m → Held s
  | dead : Dead s.m → (∀ call before st, s.last = some (call, before, st) →
      st = .ok ∨ st = .wantRead → call = .close ∧ (before = .closed ∨ before = .error)) → Held s

variable {s : Session E}

variable {before : ConnState} {call : Call}

theorem asked_retry (h : s.last = some (call, before, .wantWrite)) : asked s call = s.m :=
  if_pos ⟨_, h, rfl, rfl⟩

theorem asked_fresh (h : ∀ before, s.last ≠ some (call, before, .wantWrite)) :
    asked s call = s.m.noteAll ((demand s.m.conn call).map .due) := by
  refine if_neg ?_
  rintro ⟨⟨call', before, st⟩, hlast, rfl, rfl⟩
  exact h before hlast

theorem asked_nothing (h : demand s.m.conn call = []) : asked s call = s.m := by
  unfold asked
  split
  · rfl
  · simp [h, Machine.noteAll]

theorem asked_handshake (h : s.m.conn.state ≠ .init) : asked s .handshake = s.m :=
  asked_nothing (by simp [demand, h])

theorem asked_send (h : s.m.conn.state ≠ .established) (data : List UInt8) :
    asked s (.send data) = s.m :=
  asked_nothing (by simp [demand, h])

theorem asked_close (h : s.m.conn.state ≠ .established) : asked s .close = s.m :=
  asked_nothing (by simp [demand, h])

theorem Held.of_outcome (h : Outcome call st m') : Held ⟨m', some (call, before, st)⟩ := by
  rcases h with ⟨hst, hi⟩ | ⟨rfl, hwait⟩
  · refine .idle hi fun call' before' heq => hst ?_
    cases heq
    rfl
  · exact .waiting call before rfl hwait

theorem Held.of_dead
    (h : Dead m') (hst : st ≠ .ok ∧ st ≠ .wantRead) : Held ⟨m', some (call, before, st)⟩ := by
  refine .dead h fun call' before' st' heq hres => ?_
  cases heq
  rcases hres with hres | hres
  · exact absurd hres hst.1
  · exact absurd hres hst.2

theorem Dead.not_live (h : Dead m) : m.conn.state ≠ .established ∧ m.conn.state ≠ .init := by
  rcases h.state with hs | hs <;> simp [hs]

theorem handshake_held (hw : Accepts w) (h : Held s) (hp : Patient s (.handshake, n))
    (hr : handshake w n (asked s .handshake) = some r) (hok : Settles r.2.log) :
    Held ⟨r.2, some (.handshake, s.m.conn.state, r.1)⟩ := by
  cases h with
  | idle hi hlast =>
    refine Held.of_outcome (handshake_books hw (fun _ => ?_) hr hok)
    by_cases hs : s.m.conn.state = .init
    · have hdemand : demand s.m.conn .handshake = [clientHello s.m.conn] := if_pos hs
      obtain ⟨h0, hsized⟩ := hi.early (.inl hs)
      rw [asked_fresh fun before => hlast .handshake before, hdemand]
      exact .inl ⟨hs, hi.user, h0, hsized, .inl (hi.clear.call [clientHello s.m.conn])⟩
    · rw [asked_handshake hs]
      exact .inr ⟨hs, .inl hi⟩
  | waiting call before hlast hwait =>
    rcases hp _ hlast rfl with rfl | hrecv
    · rw [asked_retry hlast] at hr
      refine Held.of_outcome (handshake_books hw (fun _ => ?_) hr hok)
      rcases hwait with hint | hgreet
      · exact .inr ⟨by simp [hint.state], .inr hint⟩
      · exact .inl ⟨hgreet.state, hgreet.user, hgreet.step, hgreet.sized, .inr hgreet.stuck⟩
    · exact absurd hrecv id
  | dead hd hlast =>
    rw [asked_handshake hd.not_live.2, handshake, if_neg hd.not_live.1, if_pos hd.state] at hr
    cases hr
    exact .of_dead hd ⟨nofun, nofun⟩

theorem send_held (hw : Accepts w) (h : Held s) (hp : Patient s (.send data, n))
    (hr : send w data n (asked s (.send data)) = some r) (hok : Settles r.2.log) :
    Held ⟨r.2, some (.send data, s.m.conn.state, r.1)⟩ := by
  cases h with
  | idle hi hlast =>
    by_cases hs : s.m.conn.state = .established
    · have hdemand : demand s.m.conn (.send data) = fragments data := if_pos hs
      rw [asked_fresh fun before => hlast (.send data) before, hdemand] at hr
      have hsends : Sends data (s.m.noteAll ((fragments data).map .due)) := by
        refine ⟨hs, hi.whole, Nat.le_trans (Nat.le_of_eq hi.user) (Nat.zero_le _), .inl ?_⟩
        rw [noteAll_conn, hi.user, List.drop_zero]
        exact hi.clear.call (fragments data)
      exact Held.of_outcome (send_books hw (fun _ => hsends) hsends.state hr hok)
    · rw [asked_send hs, send, if_pos hs] at hr
      cases hr
      exact .of_outcome (.inl ⟨nofun, hi⟩)
  | waiting call before hlast hwait =>
    rcases hp _ hlast rfl with rfl | hrecv
    · rw [asked_retry hlast] at hr
      refine Held.of_outcome (send_books hw (fun _ => ?_) hwait.state hr hok)
      exact ⟨hwait.state, hwait.whole, Nat.le_of_lt hwait.more, .inr ⟨hwait.more, hwait.stuck⟩⟩
    · exact absurd hrecv id
  | dead hd hlast =>
    rw [asked_send hd.not_live.1, send, if_pos hd.not_live.1] at hr
    cases hr
    exact .of_dead hd ⟨nofun, nofun⟩

theorem close_held (hw : Accepts w) (h : Held s) (hp : Patient s (.close, n))
    (hok : Settles (close w (asked s .close)).2.log) :
    Held ⟨(close w (asked s .close)).2,
      some (.close, s.m.conn.state, (close w (asked s .close)).1)⟩ := by
  cases h with
  | idle hi hlast =>
    have hclose : Yields Event.Resumable (fun st m' => st = .ok ∧ Idle m')
        (close w (asked s .close)) := by
      by_cases hs : s.m.conn.state = .established
      · have hdemand : demand s.m.conn .close = [closeNotify s.m.conn] := if_pos hs
        rw [asked_fresh fun before => hlast .close before, hdemand]
        exact close_books hw (fun _ _ => ⟨hi.clear.call _, hi.whole⟩) fun hne => absurd hs hne
      · rw [asked_close hs]
        exact close_books hw (fun hest => absurd hest hs) fun _ _ => hi
    obtain ⟨hst, hi'⟩ := hclose hok
    exact .of_outcome (.inl ⟨by rw [hst]; nofun, hi'⟩)
  | waiting call before hlast hwait =>
    rcases hp _ hlast rfl with rfl | hrecv
    · exact absurd hwait id
    · exact absurd hrecv id
  | dead hd hlast =>
    have hdown : Dead (close w s.m).2 := by
      unfold close
      split
      · exact hd
      · rw [if_neg hd.not_live.1]
        exact ⟨.inl rfl, hd.accounts.keep (.refl _) rfl, hd.once⟩
    rw [asked_close hd.not_live.1] at hok ⊢
    refine .dead hdown fun call before st heq _ => ?_
    cases heq
    exact ⟨rfl, hd.state⟩

theorem recv_held {cap : Nat} (h : Held s)
    (hr : recv w cap n (asked s (.recv cap)) = some r) : Held ⟨r.2, s.last⟩ := by
  rw [asked_nothing rfl] at hr
  have hin := recv_inbound hr
  by_cases hs : s.m.conn.state = .established
  · cases h with
    | idle hi hlast => exact .idle (hin.idle hi) hlast
    | waiting call before hlast hwait =>
      cases call with
      | handshake =>
        rcases hwait with hint | hgreet
        · exact absurd (hint.state.symm.trans hs) nofun
        · exact absurd (hgreet.state.symm.trans hs) nofun
      | send data =>
        have hstuck : Stuck r.2 (fragments (data.drop r.2.conn.txUserDone)) := by
          rw [hin.user]
          exact hwait.stuck.keep hin.ledger hin.buf hin.off
        rcases hin.state with hsame | hdown
        · refine .waiting _ before hlast ⟨hsame.trans hs, ?_, ?_, hstuck⟩
          · rw [hin.step]
            exact hwait.whole
          · rw [hin.user]
            exact hwait.more
        · refine .dead ⟨hdown, hstuck.accounts, ⟨_, hstuck.owed⟩⟩ ?_
          intro call before' st heq hres
          rw [hlast] at heq
          cases heq
          simp at hres
      | recv cap | close => exact absurd hwait id
    | dead hd hlast => exact absurd hs hd.not_live.1
  · rw [recv, if_pos hs] at hr
    cases hr
    exact h

theorem step_held (hw : Accepts w) (h : Held s) {c : Call × Nat} (hp : Patient s c)
    (hok : Settles (step w s c).m.log) : Held (step w s c) := by
  obtain ⟨call, n⟩ := c
  unfold step at hok ⊢
  split
  · exact h
  next st m' hr =>
    rw [hr] at hok
    cases call with
    | handshake => exact handshake_held hw h hp hr hok
    | send data => exact send_held hw h hp hr hok
    | recv cap => exact recv_held h hr
    | close =>
      have hclose : close w (asked s .close) = (st, m') := Option.some.inj hr
      have hheld := close_held hw h hp (by rw [hclose]; exact hok)
      rwa [hclose] at hheld

theorem randomBytes_length (n : Nat) (state : UInt32) : (randomBytes n state).1.length = 4 * n := by
  induction n generalizing state with
  | zero => rfl
  | succ n ih =>
    simp only [randomBytes, List.length_cons, ih]
    omega

theorem opened_held (address : UInt32) (env : E) : Held (opened address env) := by
  have hsized : Sized (init address) := by
    simp only [Sized, init]
    exact ⟨randomBytes_length (randomSize / 4) _, randomBytes_length (masterSize / 4) _⟩
  refine .idle ⟨⟨⟨rfl, nofun⟩, rfl, rfl⟩, rfl, .inl rfl, fun _ => ⟨rfl, hsized⟩⟩ nofun

theorem Held.orderly (h : Held s) : Orderly s := by
  cases h with
  | idle hi _ =>
    have howed : framedRecords s.m.log = dueRecords s.m.log := by
      have howed := hi.clear.owed
      rwa [Owed, List.append_nil] at howed
    exact ⟨hi.clear.accounts.complete, hi.clear.accounts.inOrder, howed ▸ List.prefix_refl _,
      fun _ _ _ => hi.clear.empty, fun _ _ _ _ _ _ _ => ⟨howed, hi.clear.empty⟩⟩
  | waiting call before hlast hwait =>
    have hstuck : ∃ rs, Stuck s.m rs := by
      cases call with
      | handshake =>
        rcases hwait with hint | hgreet
        · exact hint.stuck.elim (fun h => ⟨_, h.2⟩) fun h => ⟨_, h.2⟩
        · exact ⟨_, hgreet.stuck⟩
      | send data => exact ⟨_, hwait.stuck⟩
      | recv cap | close => exact absurd hwait id
    obtain ⟨rs, haccounts, -, howed⟩ := hstuck
    refine ⟨haccounts.complete, haccounts.inOrder, ⟨rs, howed⟩, ?_, ?_⟩
    · intro data before' heq
      rw [hlast] at heq
      cases heq
    · intro call' before' st heq hres
      rw [hlast] at heq
      cases heq
      simp at hres
  | dead hd hlast =>
    refine ⟨hd.accounts.complete, hd.accounts.inOrder, hd.once, ?_, ?_⟩
    · intro data before heq
      cases (hlast _ _ _ heq (.inl rfl)).1
    · intro call before st heq hres hclosed herror
      rcases (hlast call before st heq hres).2 with h | h
      · exact absurd h hclosed
      · exact absurd h herror

/-- Where no call is refused while its pending record would not be resumed, each record is framed
once and in order, and a call that ends leaves nothing behind. -/
theorem orderly_of_resumable (hw : Accepts w) (address : UInt32) (env : E)
    {calls : List (Call × Nat)} {s : Session E}
    (hrun : Calls (fun s c => Patient s c ∧ Settles (step w s c).m.log) (step w)
      (opened address env) calls s) : Orderly s :=
  (Calls.invariant (P := Held) (fun _ _ hs hg => step_held hw hs hg.1 hg.2) hrun
    (opened_held address env)).orderly

/-- A transport that gives the bytes of the first list and takes as many bytes as the second list
says, and everything after it. -/
def throttled : Transport (List UInt8 × List Nat) where
  send e data :=
    match e.2 with
    | [] => (e, some data.length)
    | n :: rest => ((e.1, rest), some (min n data.length))
  recv e capacity := ((e.1.drop capacity, e.2), some (e.1.take capacity))
  send_le := fun e data n h => by
    split at h
    · exact Nat.le_of_eq (Option.some.inj h).symm
    · exact Nat.le_trans (Nat.le_of_eq (Option.some.inj h).symm) (Nat.min_le_right _ _)
  recv_le := fun e capacity bytes h => by
    cases h
    exact List.length_take_le capacity e.1

theorem throttled_accepts : Accepts ⟨throttled, none⟩ := by
  intro e data
  simp only [throttled]
  split <;> nofun

/-- A ServerHello and a ServerHelloDone in one record, and an empty Finished in another. -/
def answers : List UInt8 :=
  [22, 3, 3, 0, 46] ++ (2 :: 0 :: 0 :: 38 :: List.replicate 38 0) ++ [14, 0, 0, 0] ++
    [22, 3, 3, 0, 4, 20, 0, 0, 0]

def throttledSession (takes : List Nat) (calls : List (Call × Nat)) :
    Session (List UInt8 × List Nat) :=
  calls.foldl (step ⟨throttled, none⟩) (opened 0 (answers, takes))

def throttledCalls : List (Call × Nat) :=
  [(.handshake, 2), (.handshake, 2), (.handshake, 2), (.send [7, 8], 2), (.close, 0)]

/-- The hello is taken in two parts and the ChangeCipherSpec is refused once. -/
theorem orderly_of_resumable_throttled :
    (throttledSession [10, 0, 100, 100, 0] throttledCalls).last =
        some (.close, .established, .ok) ∧
      Orderly (throttledSession [10, 0, 100, 100, 0] throttledCalls) := by
  have hrun : Calls
      (fun s c => Patient s c ∧ Settles (step ⟨throttled, none⟩ s c).m.log)
      (step ⟨throttled, none⟩) (opened 0 (answers, [10, 0, 100, 100, 0])) throttledCalls
      (throttledSession [10, 0, 100, 100, 0] throttledCalls) := by
    refine .snoc (.snoc (.snoc (.snoc (.snoc .nil ?_) ?_) ?_) ?_) ?_
    all_goals decide
  exact ⟨by decide, orderly_of_resumable throttled_accepts 0 _ hrun⟩

/-- The last fragment of a send is refused and the send is called again: it returns OK with the
fragment still pending. -/
theorem refused_fragment_forgotten :
    Accepts ⟨throttled, none⟩ ∧
      ¬ ∀ (env : List UInt8 × List Nat) (calls : List (Call × Nat))
        (s : Session (List UInt8 × List Nat)),
        Calls Patient (step ⟨throttled, none⟩) (opened 0 env) calls s → Orderly s := by
  refine ⟨throttled_accepts, fun h => ?_⟩
  have hrun : Calls Patient (step ⟨throttled, none⟩)
      (opened 0 (answers, [100, 100, 100, 100, 0]))
      [(.handshake, 2), (.send [7, 8], 2), (.send [7, 8], 2)]
      (throttledSession [100, 100, 100, 100, 0]
        [(.handshake, 2), (.send [7, 8], 2), (.send [7, 8], 2)]) := by
    refine .snoc (.snoc (.snoc .nil ?_) ?_) ?_
    all_goals decide
  have hlast : (throttledSession [100, 100, 100, 100, 0]
      [(.handshake, 2), (.send [7, 8], 2), (.send [7, 8], 2)]).last =
        some (.send [7, 8], .established, .ok) := by decide
  have hpending : (throttledSession [100, 100, 100, 100, 0]
      [(.handshake, 2), (.send [7, 8], 2), (.send [7, 8], 2)]).m.conn.writeBuf ≠ [] := by
    decide
  exact hpending ((h _ _ _ hrun).sent _ _ hlast)

end Owtls
