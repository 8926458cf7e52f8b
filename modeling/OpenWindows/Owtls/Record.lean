import OpenWindows.Lib.StepSystem

/-!
# Records of the TLS layer

The record layer of `owtls64.c`: the built-in cipher and key derivation, the outbound record
with its partial flushes, and the inbound record.

A *machine* is a connection with the state of everything outside it.  It also keeps a log of
what happened, which the code does not have: nothing is ever decided from it.
-/

namespace Owtls

def versionMajor : UInt8 := 3
def versionMinor : UInt8 := 3
def recordHeaderSize : Nat := 5
def maxPlaintext : Nat := 16384
def maxCiphertext : Nat := maxPlaintext + 256
def maxRecord : Nat := maxCiphertext + recordHeaderSize
def randomSize : Nat := 32
def masterSize : Nat := 48
def verifySize : Nat := 12

def ctChangeCipherSpec : UInt8 := 20
def ctAlert : UInt8 := 21
def ctHandshake : UInt8 := 22
def ctApplicationData : UInt8 := 23

/-- `owtls_state_t`. -/
inductive ConnState
  | closed | init | clientHelloSent | serverHelloRecv | serverCertRecv | serverDoneRecv
  | cipherSpecSent | established | error
deriving DecidableEq

/-- `owtls_status_t`. -/
inductive Status
  | ok | wantRead | wantWrite | errArg | errState | errTransport | errRecord | errProtocol
  | errCipher | errOverflow | errClosed
deriving DecidableEq

/-! ## What the caller supplies -/

/-- `owtls_transport_t`: `none` is a negative return. -/
structure Transport (E : Type) where
  send : E → List UInt8 → E × Option Nat
  recv : E → Nat → E × Option (List UInt8)
  /-- No more is taken than was offered. -/
  send_le : ∀ e data n, (send e data).2 = some n → n ≤ data.length
  /-- No more is given than there is room for. -/
  recv_le : ∀ e capacity bytes, (recv e capacity).2 = some bytes → bytes.length ≤ capacity

/-- `owtls_cipher_t`: direction, sequence, content type, input and capacity; `none` is a
failure. -/
structure Cipher (E : Type) where
  crypt : E → Bool → UInt64 → UInt8 → List UInt8 → Nat → E × Option (List UInt8)
  crypt_le : ∀ e encrypt sequence type data capacity out,
    (crypt e encrypt sequence type data capacity).2 = some out → out.length ≤ capacity

/-- The callbacks of a connection; without a cipher the built-in one is installed. -/
structure World (E : Type) where
  transport : Transport E
  cipher : Option (Cipher E)

/-! ## The built-in cipher -/

/-- `owtls_rc4_t`. -/
structure Rc4 where
  s : List UInt8
  i : UInt8
  j : UInt8

def entry (s : List UInt8) (i : UInt8) : UInt8 := s.getD i.toNat 0

/-- Exchange two entries. -/
def swap (s : List UInt8) (i j : UInt8) : List UInt8 :=
  (s.set i.toNat (entry s j)).set j.toNat (entry s i)

/-- `owtls_rc4_init`. -/
def rc4Init (key : List UInt8) : Rc4 :=
  let mixed := (List.range 256).foldl
    (fun (r : List UInt8 × UInt8) i =>
      let j := r.2 + entry r.1 (UInt8.ofNat i) + key.getD (i % key.length) 0
      (swap r.1 (UInt8.ofNat i) j, j))
    ((List.range 256).map UInt8.ofNat, 0)
  ⟨mixed.1, 0, 0⟩

/-- `owtls_rc4_byte`. -/
def rc4Byte (r : Rc4) : UInt8 × Rc4 :=
  let i := r.i + 1
  let j := r.j + entry r.s i
  let s := swap r.s i j
  (entry s (entry s i + entry s j), ⟨s, i, j⟩)

/-- The next `n` bytes of the keystream. -/
def keystream : Nat → Rc4 → List UInt8
  | 0, _ => []
  | n + 1, r => (rc4Byte r).1 :: keystream n (rc4Byte r).2

/-- The generator after `n` discarded bytes. -/
def discard : Nat → Rc4 → Rc4
  | 0, r => r
  | n + 1, r => discard n (rc4Byte r).2

/-- `owtls_default_cipher`: one routine for both directions. -/
def defaultCipher (masterSecret : List UInt8) (sequence : UInt64) (contentType : UInt8)
    (data : List UInt8) (capacity : Nat) : Option (List UInt8) :=
  if capacity < data.length then none
  else
    let key := masterSecret ++
      (List.range 8).map (fun i => (sequence >>> UInt64.ofNat (i * 8)).toUInt8) ++ [contentType]
    some (List.zipWith (· ^^^ ·) data (keystream data.length (rc4Init key)))

/-- `owtls_prf`. -/
def prf (secret seed : List UInt8) (outLen : Nat) : List UInt8 :=
  keystream outLen (discard 16 (rc4Init (secret.take masterSize ++ seed.take 64)))

/-! ## The connection -/

/-- `owtls_conn_t`.  `recvBuf` is the filled part of the inbound buffer and `writeBuf` the
pending record, so `recv_len` and `tx_len` are their lengths. -/
structure Conn where
  state : ConnState
  sendSeq : UInt64
  recvSeq : UInt64
  sendEncrypted : Bool
  recvEncrypted : Bool
  version : UInt32
  clientRandom : List UInt8
  serverRandom : List UInt8
  premaster : List UInt8
  masterSecret : List UInt8
  randState : UInt32
  recvBuf : List UInt8
  recvCtLen : Nat
  recvType : UInt8
  writeBuf : List UInt8
  txOff : Nat
  txUserDone : Nat
  pendingOff : Nat
  pendingLen : Nat
  flightStep : Nat

/-- A record before it is framed. -/
structure Plain where
  contentType : UInt8
  payload : List UInt8
  encrypt : Bool
deriving DecidableEq

/-- What a record is for.  A fragment is the last of its `owtls_send` or not. -/
inductive Piece
  | clientHello | keyExchange | cipherSpec | finished | fragment (last : Bool) | closeNotify
deriving DecidableEq

/-- What happens on a connection. -/
inductive Event
  /-- The protocol calls for a record. -/
  | due (record : Plain)
  /-- A record was put into `write_buf`. -/
  | framed (record : Plain) (bytes : List UInt8)
  /-- The cipher failed on an outbound record. -/
  | unsealed (record : Plain)
  /-- The transport took these bytes. -/
  | handed (bytes : List UInt8)
  /-- The transport took nothing while this record was pending. -/
  | refused (piece : Piece)
  /-- The last byte of this record was taken. -/
  | sent (piece : Piece)
  /-- A record was read, through the inbound cipher or not. -/
  | received (contentType : UInt8) (decrypted : Bool)
  /-- A handshake message was accepted, from a record read through the inbound cipher or not,
  under this master secret. -/
  | accepted (type : UInt8) (body : List UInt8) (decrypted : Bool) (masterSecret : List UInt8)
  /-- Bytes of a record were returned as application data. -/
  | delivered (bytes : List UInt8) (decrypted : Bool)
deriving DecidableEq

/-- A connection, the state of its callbacks, and the history.  `piece` is what the pending
record is for and `decrypted` says how the last record was read. -/
structure Machine (E : Type) where
  conn : Conn
  env : E
  piece : Piece
  decrypted : Bool
  log : List Event

variable {E : Type}

/-- Add an event to the history. -/
def Machine.note (m : Machine E) (e : Event) : Machine E := { m with log := m.log ++ [e] }

/-- Add several. -/
def Machine.noteAll (m : Machine E) (es : List Event) : Machine E := { m with log := m.log ++ es }

/-- Change the connection. -/
def Machine.set (m : Machine E) (f : Conn → Conn) : Machine E := { m with conn := f m.conn }

/-- Change the state of the connection. -/
def Machine.enter (m : Machine E) (st : ConnState) : Machine E :=
  m.set fun c => { c with state := st }

/-- `owtls_crypt`. -/
def crypt (w : World E) (m : Machine E) (encrypt : Bool) (type : UInt8) (data : List UInt8)
    (capacity : Nat) : E × Option (List UInt8) :=
  let seq := if encrypt then m.conn.sendSeq else m.conn.recvSeq
  match w.cipher with
  | some cipher => cipher.crypt m.env encrypt seq type data capacity
  | none => (m.env, defaultCipher m.conn.masterSecret seq type data capacity)

/-! ## Outbound records -/

/-- What of the pending record the transport has not taken. -/
def Machine.unsent (m : Machine E) : List UInt8 := m.conn.writeBuf.drop m.conn.txOff

/-- The loop of `owtls_flush`; a round takes at least one byte, so the length of the pending
record is enough fuel. -/
def flushLoop (w : World E) : Nat → Machine E → Status × Machine E
  | 0, m => (.ok, (m.set fun c => { c with txOff := 0, writeBuf := [] }).note (.sent m.piece))
  | fuel + 1, m =>
    if m.conn.txOff < m.conn.writeBuf.length then
      match w.transport.send m.env m.unsent with
      | (env, none) => (.errTransport, { m with env := env })
      | (env, some 0) => (.wantWrite, { m with env := env }.note (.refused m.piece))
      | (env, some (n + 1)) =>
        flushLoop w fuel
          (({ m with env := env }.set fun c => { c with txOff := c.txOff + (n + 1) }).note
            (.handed (m.unsent.take (n + 1))))
    else (.ok, (m.set fun c => { c with txOff := 0, writeBuf := [] }).note (.sent m.piece))

/-- `owtls_flush`. -/
def flush (w : World E) (m : Machine E) : Status × Machine E :=
  flushLoop w m.conn.writeBuf.length m

def header (type : UInt8) (len : Nat) : List UInt8 :=
  [type, versionMajor, versionMinor, UInt8.ofNat (len / 256), UInt8.ofNat len]

/-- The end of the framing in `owtls_write_record`: the header goes before the body. -/
def putRecord (m : Machine E) (piece : Piece) (r : Plain) (body : List UInt8) : Status × Machine E :=
  if maxCiphertext < body.length then (.errOverflow, m)
  else
    let bytes := header r.contentType body.length ++ body
    (.ok, ({ m with piece := piece }.set fun c => { c with writeBuf := bytes, txOff := 0 }).note
      (.framed r bytes))

/-- The framing in `owtls_write_record`. -/
def frame (w : World E) (m : Machine E) (piece : Piece) (r : Plain) : Status × Machine E :=
  if maxPlaintext < r.payload.length then (.errOverflow, m)
  else if r.encrypt then
    match crypt w m true r.contentType r.payload (maxRecord - recordHeaderSize) with
    | (env, none) => (.errCipher, { m with env := env }.note (.unsealed r))
    | (env, some body) =>
      putRecord ({ m with env := env }.set fun c => { c with sendSeq := c.sendSeq + 1 }) piece r body
  else putRecord m piece r r.payload

/-- `owtls_write_record`. -/
def writeRecord (w : World E) (m : Machine E) (piece : Piece) (r : Plain) :
    Status × Machine E :=
  if m.conn.writeBuf = [] then
    match frame w m piece r with
    | (.ok, m) => flush w m
    | (st, m) => (st, m)
  else flush w m

/-! ## What a flush and a write can do -/

@[simp] theorem note_conn (m : Machine E) (e : Event) : (m.note e).conn = m.conn := rfl
@[simp] theorem note_log (m : Machine E) (e : Event) : (m.note e).log = m.log ++ [e] := rfl
@[simp] theorem note_piece (m : Machine E) (e : Event) : (m.note e).piece = m.piece := rfl
@[simp] theorem note_decrypted (m : Machine E) (e : Event) :
    (m.note e).decrypted = m.decrypted := rfl
@[simp] theorem noteAll_conn (m : Machine E) (es : List Event) : (m.noteAll es).conn = m.conn := rfl
@[simp] theorem noteAll_log (m : Machine E) (es : List Event) :
    (m.noteAll es).log = m.log ++ es := rfl
@[simp] theorem set_conn (m : Machine E) (f : Conn → Conn) : (m.set f).conn = f m.conn := rfl
@[simp] theorem set_log (m : Machine E) (f : Conn → Conn) : (m.set f).log = m.log := rfl
@[simp] theorem set_piece (m : Machine E) (f : Conn → Conn) : (m.set f).piece = m.piece := rfl
@[simp] theorem set_decrypted (m : Machine E) (f : Conn → Conn) :
    (m.set f).decrypted = m.decrypted := rfl
@[simp] theorem enter_conn (m : Machine E) (st : ConnState) :
    (m.enter st).conn = { m.conn with state := st } := rfl
@[simp] theorem enter_log (m : Machine E) (st : ConnState) : (m.enter st).log = m.log := rfl
@[simp] theorem enter_piece (m : Machine E) (st : ConnState) : (m.enter st).piece = m.piece := rfl
@[simp] theorem enter_decrypted (m : Machine E) (st : ConnState) :
    (m.enter st).decrypted = m.decrypted := rfl

/-- What a flush can do: all of the pending record is taken, or some of it before the transport
refuses or fails. -/
inductive Flushed (m : Machine E) : Status × Machine E → Prop
  | out (env : E) (chunks : List (List UInt8)) :
      chunks.flatten = m.unsent →
      Flushed m (.ok, { m with
        env := env
        conn := { m.conn with txOff := 0, writeBuf := [] }
        log := m.log ++ (chunks.map .handed ++ [.sent m.piece]) })
  | refused (env : E) (chunks : List (List UInt8)) (n : Nat) :
      chunks.flatten = m.unsent.take n → m.conn.txOff + n < m.conn.writeBuf.length →
      Flushed m (.wantWrite, { m with
        env := env
        conn := { m.conn with txOff := m.conn.txOff + n }
        log := m.log ++ (chunks.map .handed ++ [.refused m.piece]) })
  | failed (env : E) (chunks : List (List UInt8)) (n : Nat) :
      chunks.flatten = m.unsent.take n → m.conn.txOff + n < m.conn.writeBuf.length →
      Flushed m (.errTransport, { m with
        env := env
        conn := { m.conn with txOff := m.conn.txOff + n }
        log := m.log ++ chunks.map .handed })

theorem Flushed.head {m : Machine E} {r : Status × Machine E} {env : E} {n : Nat}
    (h : Flushed (({ m with env := env }.set fun c => { c with txOff := c.txOff + n }).note
      (.handed (m.unsent.take n))) r) : Flushed m r := by
  have hunsent : (({ m with env := env }.set fun c =>
      { c with txOff := c.txOff + n }).note (.handed (m.unsent.take n))).unsent =
      m.unsent.drop n := by
    simp [Machine.unsent]
  cases h with
  | out env' chunks hchunks =>
    rw [hunsent] at hchunks
    simpa using Flushed.out (m := m) env' (m.unsent.take n :: chunks) (by simp [hchunks])
  | refused env' chunks k hchunks hk =>
    rw [hunsent] at hchunks
    have htake : (m.unsent.take n :: chunks).flatten = m.unsent.take (n + k) := by
      rw [List.flatten_cons, hchunks, List.take_add]
    simpa [Nat.add_assoc] using Flushed.refused (m := m) env' _ (n + k) htake
      (by simpa [Nat.add_assoc] using hk)
  | failed env' chunks k hchunks hk =>
    rw [hunsent] at hchunks
    have htake : (m.unsent.take n :: chunks).flatten = m.unsent.take (n + k) := by
      rw [List.flatten_cons, hchunks, List.take_add]
    simpa [Nat.add_assoc] using Flushed.failed (m := m) env' _ (n + k) htake
      (by simpa [Nat.add_assoc] using hk)

theorem Flushed.all {m : Machine E} (h : m.conn.writeBuf.length ≤ m.conn.txOff) :
    Flushed m (.ok, (m.set fun c => { c with txOff := 0, writeBuf := [] }).note (.sent m.piece)) := by
  have hunsent : m.unsent = [] := List.drop_eq_nil_of_le h
  exact Flushed.out m.env [] (by simp [hunsent])

theorem flushLoop_cases (w : World E) (fuel : Nat) (m : Machine E)
    (hfuel : m.conn.writeBuf.length ≤ m.conn.txOff + fuel) :
    Flushed m (flushLoop w fuel m) := by
  induction fuel generalizing m with
  | zero => exact Flushed.all hfuel
  | succ fuel ih =>
    rw [flushLoop]
    split
    next hlt =>
      split
      next env hs =>
        simpa using Flushed.failed env [] 0 (m := m) rfl hlt
      next env hs =>
        exact Flushed.refused env [] 0 (m := m) rfl hlt
      next env n hs =>
        refine Flushed.head (ih _ ?_)
        simp only [note_conn, set_conn]
        omega
    next hge => exact Flushed.all (by omega)

theorem flush_cases (w : World E) (m : Machine E) : Flushed m (flush w m) :=
  flushLoop_cases w _ m (by omega)

/-- What a framing can do: the record is put into the buffer, or it is refused. -/
inductive Framed (m : Machine E) (piece : Piece) (r : Plain) : Status × Machine E → Prop
  | framed (env : E) (seq : UInt64) (body : List UInt8) :
      body.length ≤ maxCiphertext → (r.encrypt = false → body = r.payload) →
      Framed m piece r (.ok, { m with
        env := env
        piece := piece
        conn := { m.conn with
          sendSeq := seq
          writeBuf := header r.contentType body.length ++ body
          txOff := 0 }
        log := m.log ++ [.framed r (header r.contentType body.length ++ body)] })
  | long : maxPlaintext < r.payload.length → Framed m piece r (.errOverflow, m)
  | unsealed (env : E) :
      Framed m piece r (.errCipher, { m with env := env, log := m.log ++ [.unsealed r] })

theorem crypt_le {w : World E} {m : Machine E} {encrypt : Bool} {type : UInt8}
    {data out : List UInt8} {capacity : Nat} {env : E}
    (h : crypt w m encrypt type data capacity = (env, some out)) : out.length ≤ capacity := by
  unfold crypt at h
  cases hc : w.cipher with
  | some cipher =>
    rw [hc] at h
    exact cipher.crypt_le _ _ _ _ _ _ _ (congrArg Prod.snd h)
  | none =>
    simp only [hc, defaultCipher, Prod.mk.injEq] at h
    obtain ⟨-, h⟩ := h
    split at h
    · cases h
    next hle =>
      cases h
      simp only [List.length_zipWith]
      omega

theorem frame_cases (w : World E) (m : Machine E) (piece : Piece) (r : Plain) :
    Framed m piece r (frame w m piece r) := by
  unfold frame
  split
  next hlong => exact .long hlong
  next hshort =>
    split
    next henc =>
      split
      next env hc => exact .unsealed env
      next env body hc =>
        have hle : body.length ≤ maxCiphertext := by
          simpa [maxRecord] using crypt_le hc
        rw [putRecord, if_neg (by omega)]
        exact .framed env (m.conn.sendSeq + 1) body hle (by simp [henc])
    next henc =>
      have hle : r.payload.length ≤ maxCiphertext :=
        Nat.le_trans (Nat.le_of_not_lt hshort) (Nat.le_add_right _ _)
      rw [putRecord, if_neg (by omega)]
      exact .framed m.env m.conn.sendSeq r.payload hle (fun _ => rfl)

/-- What a write can do: a record that is pending is flushed, and otherwise the new one is framed
and flushed. -/
inductive Written (m : Machine E) (piece : Piece) (r : Plain) : Status × Machine E → Prop
  | pending {res : Status × Machine E} :
      m.conn.writeBuf ≠ [] → Flushed m res → Written m piece r res
  | fresh {m' : Machine E} {res : Status × Machine E} :
      m.conn.writeBuf = [] → Framed m piece r (.ok, m') → Flushed m' res → Written m piece r res
  | unframed {st : Status} {m' : Machine E} :
      m.conn.writeBuf = [] → Framed m piece r (st, m') → st ≠ .ok → Written m piece r (st, m')

theorem writeRecord_cases (w : World E) (m : Machine E) (piece : Piece) (r : Plain) :
    Written m piece r (writeRecord w m piece r) := by
  unfold writeRecord
  split
  next hempty =>
    have hframe := frame_cases w m piece r
    split
    next m' hf =>
      rw [hf] at hframe
      exact .fresh hempty hframe (flush_cases w m')
    next st m' hne hf =>
      rw [hf] at hframe
      exact .unframed hempty hframe hne
  next hne => exact .pending hne (flush_cases w m)

/-! ## Inbound records -/

/-- The loop of `owtls_fill_record`: the length of the record that is buffered.  A round reads
at least one byte, so the free part of the buffer bounds the rounds. -/
def fillLoop (w : World E) : Nat → Machine E → Except Status Nat × Machine E
  | 0, m => (.error .wantRead, m)
  | fuel + 1, m =>
    let plen := (m.conn.recvBuf.getD 3 0).toNat * 256 + (m.conn.recvBuf.getD 4 0).toNat
    if recordHeaderSize ≤ m.conn.recvBuf.length ∧ maxCiphertext < plen then
      (.error .errRecord, m)
    else if recordHeaderSize ≤ m.conn.recvBuf.length ∧
        recordHeaderSize + plen ≤ m.conn.recvBuf.length then (.ok plen, m)
    else
      match w.transport.recv m.env (maxRecord - m.conn.recvBuf.length) with
      | (env, none) => (.error .errTransport, { m with env := env })
      | (env, some []) => (.error .wantRead, { m with env := env })
      | (env, some bytes) =>
        fillLoop w fuel
          ({ m with env := env }.set fun c => { c with recvBuf := c.recvBuf ++ bytes })

/-- `owtls_fill_record`. -/
def fillRecord (w : World E) (m : Machine E) : Except Status Nat × Machine E :=
  fillLoop w (maxRecord - m.conn.recvBuf.length + 1) m

/-- `owtls_consume`. -/
def consume (m : Machine E) : Machine E :=
  m.set fun c =>
    { c with
      recvBuf :=
        if c.recvBuf.length < recordHeaderSize + c.recvCtLen then []
        else c.recvBuf.drop (recordHeaderSize + c.recvCtLen) }

/-- Put decrypted bytes back in place. -/
def putBack (buf out : List UInt8) : List UInt8 :=
  buf.take recordHeaderSize ++ out ++ buf.drop (recordHeaderSize + out.length)

/-- The second half of `owtls_read_record`, on the record that is buffered. -/
def openRecord (w : World E) (m : Machine E) (type : UInt8) (payload : List UInt8) :
    Except Status (UInt8 × List UInt8) × Machine E :=
  if m.conn.recvEncrypted then
    match crypt w m false type payload m.conn.recvCtLen with
    | (env, none) => (.error .errCipher, { m with env := env })
    | (env, some out) =>
      (.ok (type, out),
        ({ m with env := env, decrypted := true }.set fun c =>
          { c with recvSeq := c.recvSeq + 1, recvBuf := putBack c.recvBuf out }).note
          (.received type true))
  else (.ok (type, payload), { m with decrypted := false }.note (.received type false))

/-- `owtls_read_record`: the content type and the payload. -/
def readRecord (w : World E) (m : Machine E) :
    Except Status (UInt8 × List UInt8) × Machine E :=
  match fillRecord w m with
  | (.error st, m) => (.error st, m)
  | (.ok plen, m) =>
    let type := m.conn.recvBuf.getD 0 0
    openRecord w (m.set fun c => { c with recvCtLen := plen, recvType := type }) type
      ((m.conn.recvBuf.drop recordHeaderSize).take plen)

/-- What reading a record can do: only the inbound half of the connection changes, and the record
is decrypted when the inbound cipher is active. -/
inductive Read (m : Machine E) : Except Status (UInt8 × List UInt8) × Machine E → Prop
  | stopped (st : Status) (env : E) (buf : List UInt8) (len : Nat) (type : UInt8) :
      st ≠ .wantWrite →
      Read m (.error st, { m with
        env := env
        conn := { m.conn with recvBuf := buf, recvCtLen := len, recvType := type } })
  | read (env : E) (buf : List UInt8) (len : Nat) (type : UInt8) (payload : List UInt8)
      (seq : UInt64) (decrypted : Bool) :
      decrypted = m.conn.recvEncrypted →
      Read m (.ok (type, payload), { m with
        env := env
        decrypted := decrypted
        conn := { m.conn with recvBuf := buf, recvCtLen := len, recvType := type, recvSeq := seq }
        log := m.log ++ [.received type decrypted] })

theorem fillLoop_cases (w : World E) (fuel : Nat) (m : Machine E) :
    (∃ env buf, (fillLoop w fuel m).2 =
      { m with env := env, conn := { m.conn with recvBuf := buf } }) ∧
      (fillLoop w fuel m).1 ≠ .error .wantWrite := by
  induction fuel generalizing m with
  | zero => exact ⟨⟨m.env, m.conn.recvBuf, rfl⟩, nofun⟩
  | succ fuel ih =>
    simp only [fillLoop]
    split
    · exact ⟨⟨m.env, m.conn.recvBuf, rfl⟩, nofun⟩
    · split
      · exact ⟨⟨m.env, m.conn.recvBuf, rfl⟩, nofun⟩
      · split
        next env _ => exact ⟨⟨env, m.conn.recvBuf, rfl⟩, nofun⟩
        next env _ => exact ⟨⟨env, m.conn.recvBuf, rfl⟩, nofun⟩
        next env bytes _ _ =>
          obtain ⟨⟨env', buf, h⟩, hst⟩ := ih ({ m with env := env }.set fun c =>
            { c with recvBuf := c.recvBuf ++ bytes })
          exact ⟨⟨env', buf, h⟩, hst⟩

theorem openRecord_cases (w : World E) (m : Machine E) (type : UInt8) (payload : List UInt8)
    (ht : m.conn.recvType = type) : Read m (openRecord w m type payload) := by
  subst ht
  unfold openRecord
  split
  next henc =>
    split
    next env _ => exact .stopped .errCipher env m.conn.recvBuf m.conn.recvCtLen _ nofun
    next env out _ =>
      exact .read env (putBack m.conn.recvBuf out) m.conn.recvCtLen m.conn.recvType out
        (m.conn.recvSeq + 1) true henc.symm
  next henc =>
    exact .read m.env m.conn.recvBuf m.conn.recvCtLen m.conn.recvType payload m.conn.recvSeq
      false (by simpa using henc)

theorem readRecord_cases (w : World E) (m : Machine E) : Read m (readRecord w m) := by
  obtain ⟨⟨env, buf, hfill⟩, hst⟩ := fillLoop_cases w (maxRecord - m.conn.recvBuf.length + 1) m
  rw [← fillRecord] at hfill hst
  unfold readRecord
  split
  next st m' h =>
    rw [h] at hfill hst
    subst hfill
    exact .stopped st env buf m.conn.recvCtLen m.conn.recvType fun he => hst (he ▸ rfl)
  next plen m' h =>
    rw [h] at hfill
    subst hfill
    have hopen := openRecord_cases w
      (({ m with env := env, conn := { m.conn with recvBuf := buf } } : Machine E).set fun c =>
        { c with recvCtLen := plen, recvType := buf.getD 0 0 }) (buf.getD 0 0)
      ((buf.drop recordHeaderSize).take plen) rfl
    generalize openRecord w _ (buf.getD 0 0) _ = r at hopen
    cases hopen with
    | stopped st env' buf' len type hst => exact .stopped st env' buf' len type hst
    | read env' buf' len type payload seq d hd => exact .read env' buf' len type payload seq d hd

end Owtls
