import OpenWindows.Owtls.Record

/-!
# The TLS connection

The client side of `owtls64.c`: the flight the client answers a `ServerHelloDone` with, the
handshake messages, and the calls of the interface.  The unbounded loops are step systems, and
a call has the number of rounds it may take; a call that has not returned by then is not taken.
-/

namespace Owtls

open StepSystem

variable {E : Type}

def hsClientHello : UInt8 := 1
def hsServerHello : UInt8 := 2
def hsNewSessionTicket : UInt8 := 4
def hsCertificate : UInt8 := 11
def hsServerKeyExchange : UInt8 := 12
def hsCertificateRequest : UInt8 := 13
def hsServerHelloDone : UInt8 := 14
def hsClientKeyExchange : UInt8 := 16
def hsFinished : UInt8 := 20

/-! ## Initialisation -/

/-- `owtls_next_rand`. -/
def nextRand (state : UInt32) : UInt32 :=
  let x := if state = 0 then 0x9E3779B9 else state
  let x := x ^^^ (x <<< 13)
  let x := x ^^^ (x >>> 17)
  x ^^^ (x <<< 5)

/-- `owtls_random_bytes` for a multiple of four bytes, and the state afterwards. -/
def randomBytes : Nat → UInt32 → List UInt8 × UInt32
  | 0, state => ([], state)
  | n + 1, state =>
    let r := nextRand state
    let (bytes, state) := randomBytes n r
    (r.toUInt8 :: (r >>> 8).toUInt8 :: (r >>> 16).toUInt8 :: (r >>> 24).toUInt8 :: bytes, state)

/-- The connection after `owtls_init` at this address. -/
def init (address : UInt32) : Conn :=
  let (clientRandom, randState) := randomBytes (randomSize / 4) (address ^^^ 0xA5A5A5A5)
  let (premaster, randState) := randomBytes (masterSize / 4) randState
  { state := .init
    sendSeq := 0
    recvSeq := 0
    sendEncrypted := false
    recvEncrypted := false
    version := 0x0303
    clientRandom := clientRandom
    serverRandom := List.replicate randomSize 0
    premaster := premaster
    masterSecret := List.replicate masterSize 0
    randState := randState
    recvBuf := []
    recvCtLen := 0
    recvType := 0
    writeBuf := []
    txOff := 0
    txUserDone := 0
    pendingOff := 0
    pendingLen := 0
    flightStep := 0 }

/-- `owtls_derive_master`. -/
def deriveMaster (c : Conn) : Conn :=
  { c with masterSecret := prf c.premaster (c.serverRandom ++ c.clientRandom) masterSize }

/-! ## The client's messages -/

/-- Three bytes, the highest first. -/
def put24 (n : Nat) : List UInt8 :=
  [UInt8.ofNat (n / 65536), UInt8.ofNat (n / 256), UInt8.ofNat n]

def message (type : UInt8) (body : List UInt8) (encrypt : Bool) : Plain :=
  ⟨ctHandshake, type :: put24 body.length ++ body, encrypt⟩

def clientHello (c : Conn) : Plain :=
  message hsClientHello
    ([versionMajor, versionMinor] ++ c.clientRandom ++ [0, 0, 2, 0, 0x2F, 1, 0]) false

def keyExchange (c : Conn) : Plain := message hsClientKeyExchange c.premaster false

def cipherSpec : Plain := ⟨ctChangeCipherSpec, [1], false⟩

def finished (c : Conn) : Plain :=
  message hsFinished (prf c.masterSecret c.clientRandom verifySize) true

def closeNotify (c : Conn) : Plain := ⟨ctAlert, [1, 0], c.sendEncrypted⟩

/-- The flight that answers a `ServerHelloDone`. -/
def flight (c : Conn) : List Plain := [keyExchange c, cipherSpec, finished c]

/-- The flight has not begun. -/
def ConnState.Early (st : ConnState) : Prop :=
  st = .init ∨ st = .clientHelloSent ∨ st = .serverHelloRecv ∨ st = .serverCertRecv

/-- Go on if the call before returned OK. -/
def andThen (r : Status × Machine E) (f : Machine E → Status × Machine E) : Status × Machine E :=
  match r with
  | (.ok, m) => f m
  | (st, m) => (st, m)

/-- `owtls_send_client_hello`. -/
def sendClientHello (w : World E) (m : Machine E) : Status × Machine E :=
  writeRecord w m .clientHello (clientHello m.conn)

def sendKeyExchange (w : World E) (m : Machine E) : Status × Machine E :=
  if m.conn.flightStep = 0 then
    andThen (writeRecord w m .keyExchange (keyExchange m.conn)) fun m =>
      (.ok, m.set fun c => { c with flightStep := 1 })
  else (.ok, m)

def sendCipherSpec (w : World E) (m : Machine E) : Status × Machine E :=
  if m.conn.flightStep = 1 then
    andThen (writeRecord w m .cipherSpec cipherSpec) fun m =>
      (.ok, m.set fun c => { c with sendEncrypted := true, flightStep := 2 })
  else (.ok, m)

def sendFinished (w : World E) (m : Machine E) : Status × Machine E :=
  if m.conn.flightStep = 2 then
    andThen (writeRecord w m .finished (finished m.conn)) fun m =>
      (.ok, m.set fun c => { c with flightStep := 3, state := .cipherSpecSent })
  else (.ok, m)

/-- `owtls_send_client_flight`. -/
def sendClientFlight (w : World E) (m : Machine E) : Status × Machine E :=
  andThen (andThen (sendKeyExchange w m) (sendCipherSpec w)) (sendFinished w)

/-! ## The peer's messages -/

/-- `owtls_handle_alert`. -/
def handleAlert (m : Machine E) (p : List UInt8) : Status × Machine E :=
  if p.length < 2 then (.errProtocol, m)
  else if p.getD 1 0 = 0 then (.errClosed, m.enter .closed)
  else if p.getD 0 0 = 2 then (.errProtocol, m.enter .error)
  else (.ok, m)

def Machine.accept (m : Machine E) (type : UInt8) (body : List UInt8) : Machine E :=
  m.note (.accepted type body m.decrypted m.conn.masterSecret)

/-- `owtls_handle_handshake`.  A `ServerHelloDone` calls for the client's flight. -/
def handleHandshake (w : World E) (m : Machine E) (type : UInt8) (body : List UInt8) :
    Status × Machine E :=
  if type = hsServerHello then
    if m.conn.state ≠ .clientHelloSent ∨ body.length < 38 then (.errProtocol, m)
    else
      (.ok, ((m.accept type body).set fun c =>
        deriveMaster
          { c with
            version := (body.getD 0 0).toUInt32 <<< 8 ||| (body.getD 1 0).toUInt32
            serverRandom := (body.drop 2).take randomSize }).enter .serverHelloRecv)
  else if type = hsCertificate then
    if m.conn.state ≠ .serverHelloRecv then (.errProtocol, m)
    else (.ok, (m.accept type body).enter .serverCertRecv)
  else if type = hsServerKeyExchange ∨ type = hsCertificateRequest ∨ type = hsNewSessionTicket then
    (.ok, m.accept type body)
  else if type = hsServerHelloDone then
    if m.conn.state ≠ .serverHelloRecv ∧ m.conn.state ≠ .serverCertRecv then (.errProtocol, m)
    else
      sendClientFlight w
        (((m.accept type body).enter .serverDoneRecv).noteAll ((flight m.conn).map .due))
  else if type = hsFinished then
    if m.conn.state ≠ .cipherSpecSent then (.errProtocol, m)
    else (.ok, (m.accept type body).enter .established)
  else (.errProtocol, m)

/-- The loop of `owtls_process_handshake` over what is left of the record; a message has at
least four bytes, so the length is enough fuel. -/
def processLoop (w : World E) : Nat → Machine E → List UInt8 → Status × Machine E
  | fuel + 1, m, type :: a :: b :: c :: rest =>
    let hlen := a.toNat * 65536 + b.toNat * 256 + c.toNat
    if rest.length < hlen then (.errProtocol, m)
    else
      andThen (handleHandshake w m type (rest.take hlen)) fun m =>
        processLoop w fuel m (rest.drop hlen)
  | _, m, p => (if p = [] then .ok else .errProtocol, m)

/-- `owtls_process_handshake`. -/
def processHandshake (w : World E) (m : Machine E) (p : List UInt8) : Status × Machine E :=
  processLoop w p.length m p

/-! ## The interface -/

/-- The head of the loop of `owtls_handshake`: an interrupted flight is resumed. -/
def resumeFlight (w : World E) (m : Machine E) : Status × Machine E :=
  if 0 < m.conn.flightStep ∧ m.conn.flightStep < 3 then sendClientFlight w m else (.ok, m)

/-- The rest of a round of `owtls_handshake`, on the record that was read. -/
def handshakeRecord (w : World E) (m : Machine E) (type : UInt8) (payload : List UInt8) :
    Machine E ⊕ (Status × Machine E) :=
  if type = ctChangeCipherSpec then
    .inl (consume (m.set fun c => { c with recvEncrypted := true }))
  else if type = ctAlert then
    let (st, m) := handleAlert m payload
    .inr (st, consume m)
  else if type = ctHandshake then
    let (st, m) := processHandshake w m payload
    let m := consume m
    if st = .wantWrite ∨ st = .wantRead then .inr (st, m)
    else if st ≠ .ok then .inr (st, m.enter .error)
    else if m.conn.state = .established then .inr (.ok, m)
    else .inl m
  else .inr (.errProtocol, (consume m).enter .error)

/-- A round of the loop of `owtls_handshake`. -/
def handshakeRound (w : World E) (m : Machine E) : Machine E ⊕ (Status × Machine E) :=
  match resumeFlight w m with
  | (.ok, m) =>
    match readRecord w m with
    | (.ok (type, payload), m) => handshakeRecord w m type payload
    | (.error .wantRead, m) => .inr (.wantRead, m)
    | (.error st, m) => .inr (st, m.enter .error)
  | (st, m) => .inr (st, m)

/-- The result of a loop that stopped. -/
def stopped {α : Type} : Machine E ⊕ α → Option α
  | .inl _ => none
  | .inr r => some r

/-- `owtls_handshake`. -/
def handshake (w : World E) (rounds : Nat) (m : Machine E) : Option (Status × Machine E) :=
  if m.conn.state = .established then some (.ok, m)
  else if m.conn.state = .closed ∨ m.conn.state = .error then some (.errState, m)
  else if m.conn.state = .init then
    match sendClientHello w m with
    | (.ok, m) => stopped (runFor (handshakeRound w) rounds (m.enter .clientHelloSent))
    | (st, m) => some (st, m)
  else stopped (runFor (handshakeRound w) rounds m)

/-- The next fragment of `owtls_send`. -/
def fragmentOf (data : List UInt8) (done : Nat) : List UInt8 := (data.drop done).take maxPlaintext

/-- The framing half of a round of `owtls_send`. -/
def sendFragment (w : World E) (data : List UInt8) (m : Machine E) :
    Machine E ⊕ (Status × Machine E) :=
  let frag := fragmentOf data m.conn.txUserDone
  let done := m.conn.txUserDone + frag.length
  match writeRecord w m (.fragment (done = data.length)) ⟨ctApplicationData, frag, true⟩ with
  | (.ok, m) => .inl (m.set fun c => { c with txUserDone := done })
  | (st, m) =>
    .inr (st, m.set fun c =>
      { c with txUserDone := if st = .errCipher ∨ st = .errOverflow then 0 else done })

/-- A round of the loop of `owtls_send`. -/
def sendRound (w : World E) (data : List UInt8) (m : Machine E) :
    Machine E ⊕ (Status × Machine E) :=
  if m.conn.txUserDone < data.length then
    if m.conn.writeBuf = [] then sendFragment w data m
    else
      match flush w m with
      | (.ok, m) => sendFragment w data m
      | (st, m) => .inr (st, m)
  else .inr (.ok, m.set fun c => { c with txUserDone := 0 })

/-- `owtls_send`, without the count `*sent`. -/
def send (w : World E) (data : List UInt8) (rounds : Nat) (m : Machine E) :
    Option (Status × Machine E) :=
  if m.conn.state ≠ .established then some (.errState, m)
  else stopped (runFor (sendRound w data) rounds m)

/-- `owtls_drain_app`: the bytes returned are those of the event. -/
def drainApp (cap : Nat) (m : Machine E) : Status × Machine E :=
  let n := min m.conn.pendingLen cap
  let m' := (m.set fun c =>
      { c with pendingOff := c.pendingOff + n, pendingLen := c.pendingLen - n }).note
    (.delivered ((m.conn.recvBuf.drop m.conn.pendingOff).take n) m.decrypted)
  (.ok, if m'.conn.pendingLen = 0 then consume m' else m')

/-- A round of the loop of `owtls_recv`. -/
def recvRound (w : World E) (cap : Nat) (m : Machine E) : Machine E ⊕ (Status × Machine E) :=
  match readRecord w m with
  | (.error st, m) => .inr (st, m)
  | (.ok (type, payload), m) =>
    if type = ctApplicationData then
      .inr (drainApp cap (m.set fun c =>
        { c with pendingOff := recordHeaderSize, pendingLen := payload.length }))
    else if type = ctAlert then
      let (st, m) := handleAlert m payload
      .inr (st, consume m)
    else if type = ctHandshake then
      match processHandshake w m payload with
      | (.ok, m) => .inl (consume m)
      | (st, m) => .inr (st, consume m)
    else if type = ctChangeCipherSpec then
      .inl (consume (m.set fun c => { c with recvEncrypted := true }))
    else .inr (.errProtocol, consume m)

/-- `owtls_recv`. -/
def recv (w : World E) (cap rounds : Nat) (m : Machine E) : Option (Status × Machine E) :=
  if m.conn.state ≠ .established then some (.errState, m)
  else if 0 < m.conn.pendingLen then some (drainApp cap m)
  else stopped (runFor (recvRound w cap) rounds m)

/-- `owtls_close`. -/
def close (w : World E) (m : Machine E) : Status × Machine E :=
  if m.conn.state = .closed then (.ok, m)
  else
    let (st, m) :=
      if m.conn.state = .established then writeRecord w m .closeNotify (closeNotify m.conn)
      else (.ok, m)
    (st, m.set fun c => { c with state := .closed, pendingLen := 0, txUserDone := 0 })

/-! ## Calls -/

/-- The calls. -/
inductive Call
  | handshake
  | send (data : List UInt8)
  | recv (cap : Nat)
  | close
deriving DecidableEq

/-- A call; `none` when it has not returned after this many rounds. -/
def perform (w : World E) (m : Machine E) (call : Call) (rounds : Nat) :
    Option (Status × Machine E) :=
  match call with
  | .handshake => handshake w rounds m
  | .send data => send w data rounds m
  | .recv cap => recv w cap rounds m
  | .close => some (close w m)

/-- A machine with a fresh connection. -/
def started (address : UInt32) (env : E) : Machine E :=
  ⟨init address, env, .clientHello, false, []⟩

/-! ## Reasoning about a call -/

/-- The result satisfies `Q`, as long as every event so far meets the condition. -/
def Yields (ok : Event → Prop) (Q : Status → Machine E → Prop) (r : Status × Machine E) : Prop :=
  (∀ e ∈ r.2.log, ok e) → Q r.1 r.2

variable {ok : Event → Prop} {Q R : Status → Machine E → Prop} {r : Status × Machine E}

theorem Yields.mono (h : Yields ok Q r) (hQ : ∀ st m, Q st m → R st m) : Yields ok R r :=
  fun hok => hQ _ _ (h hok)

theorem Yields.andThen {f : Machine E → Status × Machine E} (h : Yields ok Q r)
    (hf : ∀ m, ((∀ e ∈ m.log, ok e) → Q .ok m) → Yields ok R (f m))
    (hstop : ∀ st m, st ≠ .ok → Q st m → R st m) : Yields ok R (andThen r f) := by
  unfold Owtls.andThen
  split
  next m => exact hf m h
  next st m hne => exact fun hok => hstop st m hne (h hok)

variable {m : Machine E}

theorem stopped_ends {P : Machine E → Prop} {S : Status × Machine E → Prop}
    {round : Machine E → Machine E ⊕ (Status × Machine E)} {n : Nat}
    (hmove : ∀ s t, P s → round s = .inl t → P t)
    (hstop : ∀ s r, P s → round s = .inr r → S r)
    (h : stopped (runFor round n m) = some r) (hm : P m) : S r := by
  unfold stopped at h
  split at h
  · cases h
  next r' heq =>
    cases h
    exact runFor_ends hmove hstop heq hm

/-! ## Messages to an established connection -/

def Event.Accepted : Event → Prop
  | .accepted _ _ _ _ => True
  | _ => False

theorem handleHandshake_established (w : World E)
    (hs : m.conn.state = .established) (type : UInt8) (body : List UInt8) :
    handleHandshake w m type body = (.errProtocol, m) ∨
      handleHandshake w m type body = (.ok, m.accept type body) := by
  unfold handleHandshake
  simp only [hs, ne_eq, reduceCtorEq, not_false_eq_true, true_or, and_self, if_true]
  split
  · exact .inl rfl
  · split
    · exact .inl rfl
    · split
      · exact .inr rfl
      · split
        · exact .inl rfl
        · split
          · exact .inl rfl
          · exact .inl rfl

/-- Only acceptances are added to the history. -/
def Noted (m m' : Machine E) : Prop := ∃ es, m' = m.noteAll es ∧ ∀ e ∈ es, e.Accepted

theorem Noted.refl (m : Machine E) : Noted m m := ⟨[], by simp [Machine.noteAll], nofun⟩

theorem Noted.accept {m m' : Machine E} {type : UInt8} {body : List UInt8}
    (h : Noted (m.accept type body) m') : Noted m m' := by
  obtain ⟨es, rfl, hacc⟩ := h
  refine ⟨.accepted type body m.decrypted m.conn.masterSecret :: es, ?_, ?_⟩
  · simp [Machine.noteAll, Machine.accept, Machine.note]
  · intro e he
    cases List.mem_cons.mp he with
    | inl he => rw [he]; trivial
    | inr he => exact hacc e he

theorem processLoop_succ (w : World E) (fuel : Nat) (m : Machine E) (p : List UInt8) :
    (∃ st, (st = .ok ∨ st = .errProtocol) ∧ processLoop w (fuel + 1) m p = (st, m)) ∨
      ∃ type body rest, processLoop w (fuel + 1) m p =
        andThen (handleHandshake w m type body) fun m => processLoop w fuel m rest := by
  match p with
  | type :: a :: b :: c :: rest =>
    have heq : processLoop w (fuel + 1) m (type :: a :: b :: c :: rest) =
        if rest.length < a.toNat * 65536 + b.toNat * 256 + c.toNat then (.errProtocol, m)
        else andThen (handleHandshake w m type
          (rest.take (a.toNat * 65536 + b.toNat * 256 + c.toNat))) fun m =>
            processLoop w fuel m (rest.drop (a.toNat * 65536 + b.toNat * 256 + c.toNat)) := rfl
    rw [heq]
    split
    · exact .inl ⟨_, .inr rfl, rfl⟩
    · exact .inr ⟨_, _, _, rfl⟩
  | [] => exact .inl ⟨_, .inl rfl, rfl⟩
  | [_] | [_, _] | [_, _, _] => exact .inl ⟨_, .inr rfl, rfl⟩

theorem processLoop_established (w : World E) (fuel : Nat)
    (hs : m.conn.state = .established) (p : List UInt8) : Noted m (processLoop w fuel m p).2 := by
  induction fuel generalizing m p with
  | zero => exact .refl m
  | succ fuel ih =>
    obtain ⟨st, -, heq⟩ | ⟨type, body, rest, heq⟩ := processLoop_succ w fuel m p
    · rw [heq]
      exact .refl m
    · rw [heq]
      rcases handleHandshake_established w hs type body with hdone | hdone
      · rw [hdone]
        exact .refl m
      · rw [hdone]
        exact Noted.accept (ih (by exact hs) _)

end Owtls
