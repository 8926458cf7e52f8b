import OpenWindows.Tcp.Segment

/-!
# The TCP core

`tcpcore` keeps a table of connections and one of listeners.  Each connection
has one retransmit buffer for its SYN, its data and its FIN, and a receive
buffer that takes segments in order only.  A call either works on one
connection (`tcp_send`, `tcp_recv`, `tcp_close`, a segment for it) or on the
tables (`tcp_connect`, `tcp_listen`, `tcp_accept`, `tcp_tick`).

The steps of `tcp_input` on a connection are functions of the connection and the
segment: `Conn.onAck`, `Conn.onData`, `Conn.onFin` and `Conn.complete`.

The transmit hook `ip_tx` is a function of the packets handed to it so far and
the packet of the call.  Connections, listeners and the packets sent so far are
the state of a core.
-/

namespace Tcp

/-! ## Statuses and states -/

/-- `tcp_status_t`. -/
inductive Status where
  | ok | param | notReady | noConn | noSpace | again | full | badPacket | closed
  deriving DecidableEq, Repr

/-- `tcp_state_t`. -/
inductive State where
  | closed | listen | synSent | synRcvd | established | finWait1 | finWait2 | closeWait
  | closing | lastAck | timeWait
  deriving DecidableEq, Repr

/-- The transmit hook. -/
abbrev IpTx := List Packet → Packet → Status

/-! ## Sequence numbers -/

/-- The difference of two sequence numbers as an `int32_t`. -/
def seqDiff (a b : UInt32) : Int := (a - b).toBitVec.toInt

/-- `tcp_seq_le`. -/
def seqLe (a b : UInt32) : Bool := decide (seqDiff a b ≤ 0)

/-- `tcp_seq_gt`. -/
def seqGt (a b : UInt32) : Bool := decide (0 < seqDiff a b)

/-- `tcp_seq_ge`. -/
def seqGe (a b : UInt32) : Bool := decide (0 ≤ seqDiff a b)

/-! ## Tables -/

/-- `TCP_MAX_CONNS`. -/
def maxConns : Nat := 8

/-- `TCP_MAX_LISTENERS`. -/
def maxListeners : Nat := 4

/-- `TCP_RXBUF_SIZE`. -/
def rxbufSize : Nat := 4096

/-- `TCP_INITIAL_RTO`. -/
def initialRto : UInt32 := 60

/-- `TCP_MAX_RTO`. -/
def maxRto : UInt32 := 1000

/-- `TCP_TIME_WAIT_TICKS`. -/
def timeWaitTicks : UInt32 := 500

/-- The used bytes of a buffer of `cap` bytes. -/
structure Buffer (cap : Nat) where
  bytes : List UInt8
  fit : bytes.length ≤ cap

def Buffer.empty (cap : Nat) : Buffer cap := ⟨[], Nat.zero_le cap⟩

/-- Add bytes that fit. -/
def Buffer.append {cap : Nat} (b : Buffer cap) (data : List UInt8)
    (h : b.bytes.length + data.length ≤ cap) : Buffer cap :=
  ⟨b.bytes ++ data, by rwa [List.length_append]⟩

/-- Move the bytes from `n` on to the front. -/
def Buffer.drop {cap : Nat} (b : Buffer cap) (n : Nat) : Buffer cap :=
  ⟨b.bytes.drop n, by
    have hfit := b.fit
    rw [List.length_drop]
    omega⟩

/-- `tcp_conn_t`.  The receive and the retransmit buffer hold the first `rx_len`
and `tx_len` bytes of theirs. -/
structure Conn where
  state : State
  used : Bool
  passive : Bool
  accepted : Bool
  txPending : Bool
  localIp : UInt32
  remoteIp : UInt32
  localPort : UInt16
  remotePort : UInt16
  sndUna : UInt32
  sndNxt : UInt32
  sndWnd : UInt32
  rcvNxt : UInt32
  rcvWnd : UInt32
  iss : UInt32
  irs : UInt32
  rto : UInt32
  rtoTimer : UInt32
  timeWaitTimer : UInt32
  txSeq : UInt32
  txEndSeq : UInt32
  mss : UInt16
  rxBuf : Buffer rxbufSize
  txBuf : Buffer (hdrLen + maxSegment)
  /-- Not a variable of the program: the payload bytes placed in the receive
  buffer so far. -/
  placed : List UInt8
  /-- Not a variable of the program: the sequence number of the FIN that was
  consumed. -/
  finSeq : Option UInt32
  /-- Not a variable of the program: the numbers acknowledged so far. -/
  acks : List UInt32
  /-- Not a variable of the program: the payload bytes sent so far. -/
  stream : List UInt8

/-- A connection after `ow_memset`. -/
def Conn.zero : Conn where
  state := .closed
  used := false
  passive := false
  accepted := false
  txPending := false
  localIp := 0
  remoteIp := 0
  localPort := 0
  remotePort := 0
  sndUna := 0
  sndNxt := 0
  sndWnd := 0
  rcvNxt := 0
  rcvWnd := 0
  iss := 0
  irs := 0
  rto := 0
  rtoTimer := 0
  timeWaitTimer := 0
  txSeq := 0
  txEndSeq := 0
  mss := 0
  rxBuf := .empty _
  txBuf := .empty _
  placed := []
  finSeq := none
  acks := []
  stream := []

/-- `tcp_listener_t`. -/
structure Listener where
  used : Bool
  localIp : UInt32
  localPort : UInt16
  backlog : UInt16
  pending : UInt16

/-- `tcpcore_t`. -/
structure Core where
  initialized : Bool
  issSeed : UInt16
  conns : Nat → Conn
  listeners : Nat → Listener
  /-- The packets handed to `ip_tx` so far, latest first. -/
  sent : List Packet
  /-- Not a variable of the program: the number of connections opened so far. -/
  opened : Nat

/-- `tcp_init`. -/
def Core.init : Core where
  initialized := true
  issSeed := 0x1D2B
  conns _ := .zero
  listeners _ := ⟨false, 0, 0, 0, 0⟩
  sent := []
  opened := 0

def Core.setConn (k : Core) (i : Nat) (c : Conn) : Core :=
  { k with conns := Function.update k.conns i c }

def Core.setListener (k : Core) (i : Nat) (l : Listener) : Core :=
  { k with listeners := Function.update k.listeners i l }

/-- Call `ip_tx`. -/
def Core.transmit (tx : IpTx) (k : Core) (p : Packet) : Status × Core :=
  (tx k.sent p, { k with sent := p :: k.sent })

/-- `tcp_conn_at`: the slot of a connection id. -/
def connAt (k : Core) (id : Int) : Option Nat :=
  if id ≤ 0 ∨ (maxConns : Int) < id then none
  else if (k.conns (id.toNat - 1)).used then some (id.toNat - 1) else none

/-- `tcp_alloc_conn`. -/
def allocConn (k : Core) : Option Nat := (List.range maxConns).find? fun i => !(k.conns i).used

/-- The condition of `tcp_find` on a connection. -/
def Conn.matches (c : Conn) (remoteIp : UInt32) (remotePort : UInt16) (localIp : UInt32)
    (localPort : UInt16) : Bool :=
  c.used && c.remoteIp == remoteIp && c.remotePort == remotePort && c.localPort == localPort &&
    (c.localIp == 0 || c.localIp == localIp)

/-- `tcp_find`. -/
def find (k : Core) (remoteIp : UInt32) (remotePort : UInt16) (localIp : UInt32)
    (localPort : UInt16) : Option Nat :=
  (List.range maxConns).find? fun i =>
    (k.conns i).matches remoteIp remotePort localIp localPort

/-- `tcp_find_listener`. -/
def findListener (k : Core) (port : UInt16) : Option Nat :=
  (List.range maxListeners).find? fun i =>
    (k.listeners i).used && (k.listeners i).localPort == port

/-- One child less awaits `tcp_accept` on a port. -/
def Core.unpend (k : Core) (port : UInt16) : Core :=
  match findListener k port with
  | some j =>
    if 0 < (k.listeners j).pending then
      k.setListener j { k.listeners j with pending := (k.listeners j).pending - 1 }
    else k
  | none => k

/-- `tcp_release`. -/
def release (k : Core) (i : Nat) : Core :=
  let c := k.conns i
  (if c.passive && !c.accepted then k.unpend c.localPort else k).setConn i .zero

/-- `tcp_next_isn`. -/
def nextIsn (k : Core) : UInt32 × Core :=
  let seed := (k.issSeed.toUInt32 * 25173 + 13849).toUInt16
  ((seed.toUInt32 <<< 16) ^^^ (seed.toUInt32 * 40503), { k with issSeed := seed })

/-! ## Sending segments -/

def Conn.header (c : Conn) (flags : UInt8) : Header where
  srcPort := c.localPort
  dstPort := c.remotePort
  seq := c.sndNxt
  ack := c.rcvNxt
  flags := flags
  window := c.rcvWnd.toUInt16

def Conn.packet (c : Conn) (flags : UInt8) (payload : List UInt8)
    (hlen : payload.length ≤ maxSegment) : Packet :=
  (c.header flags).packet c.localIp c.remoteIp payload hlen

def Conn.advance (c : Conn) (flags : UInt8) (payload : List UInt8) : Conn :=
  { c with
    sndNxt := c.sndNxt + UInt32.ofNat payload.length + (if has flags flagSyn then 1 else 0) +
      (if has flags flagFin then 1 else 0)
    acks := if has flags flagAck then c.rcvNxt :: c.acks else c.acks
    stream := c.stream ++ payload }

/-- The segment is retained for retransmission. -/
def Conn.save (c : Conn) (flags : UInt8) (payload : List UInt8)
    (hlen : payload.length ≤ maxSegment) : Conn :=
  { c.advance flags payload with
    txBuf := ⟨(c.packet flags payload hlen).bytes, by
      have hbytes : (c.packet flags payload hlen).bytes.length = hdrLen + payload.length :=
        Header.length_bytes ..
      omega⟩
    txSeq := c.sndNxt
    txEndSeq := (c.advance flags payload).sndNxt
    txPending := true
    rto := initialRto
    rtoTimer := initialRto }

/-- `tcp_emit`. -/
def tcpEmit (tx : IpTx) (k : Core) (i : Nat) (flags : UInt8) (payload : List UInt8)
    (save : Bool) : Status × Core :=
  if hlen : payload.length ≤ maxSegment then
    let c := k.conns i
    (k.setConn i (if save then c.save flags payload hlen else c.advance flags payload)).transmit tx
      (c.packet flags payload hlen)
  else (.noSpace, k)

def Conn.savedPacket (c : Conn) : Packet where
  src := c.localIp
  dst := c.remoteIp
  bytes := c.txBuf.bytes
  fit := by
    have hfit := c.txBuf.fit
    unfold hdrLen maxSegment at hfit
    omega

/-- `tcp_send_rst`. -/
def sendRst (tx : IpTx) (k : Core) (src : UInt32) (srcPort : UInt16) (dst : UInt32)
    (dstPort : UInt16) (seq : UInt32) (withAck : Bool) (ack : UInt32) : Core :=
  let h : Header :=
    { srcPort, dstPort, seq, ack, flags := flagRst ||| (if withAck then flagAck else 0), window := 0 }
  (k.transmit tx (h.packet src dst [] (Nat.zero_le _))).2

/-! ## Opening -/

/-- The connection of `tcp_connect`. -/
def Conn.active (iss localIp : UInt32) (localPort : UInt16) (remoteIp : UInt32)
    (remotePort : UInt16) : Conn :=
  { Conn.zero with
    used := true
    passive := false
    state := .synSent
    localIp, remoteIp, localPort, remotePort
    iss := iss
    sndUna := iss
    sndNxt := iss
    rcvNxt := 0
    rcvWnd := 4096
    sndWnd := 4096
    mss := UInt16.ofNat maxSegment
    rto := initialRto
    rtoTimer := initialRto }

/-- The connection of `tcp_passive_open`. -/
def Conn.child (iss localIp : UInt32) (localPort : UInt16) (remoteIp : UInt32)
    (remotePort : UInt16) (seq : UInt32) (window : UInt16) : Conn :=
  { Conn.zero with
    used := true
    passive := true
    accepted := false
    state := .synRcvd
    localIp, remoteIp, localPort, remotePort
    iss := iss
    irs := seq
    sndUna := iss
    sndNxt := iss
    rcvNxt := seq + 1
    rcvWnd := 4096
    sndWnd := window.toUInt32
    mss := UInt16.ofNat maxSegment
    rto := initialRto }

/-- A new connection in a free slot. -/
def Core.install (k : Core) (i : Nat) (c : Conn) : Core :=
  { k.setConn i c with opened := k.opened + 1 }

/-- `tcp_passive_open`. -/
def passiveOpen (tx : IpTx) (k : Core) (localIp : UInt32) (localPort : UInt16)
    (remoteIp : UInt32) (remotePort : UInt16) (seq : UInt32) (window : UInt16) : Status × Core :=
  match findListener k localPort with
  | none => (.noConn, k)
  | some j =>
    if (k.listeners j).backlog ≤ (k.listeners j).pending then (.full, k)
    else
      match allocConn k with
      | none => (.full, k)
      | some i =>
        let (iss, k) := nextIsn k
        let k := k.install i (.child iss localIp localPort remoteIp remotePort seq window)
        let k := k.setListener j { k.listeners j with pending := (k.listeners j).pending + 1 }
        tcpEmit tx k i (flagSyn ||| flagAck) [] true

/-- `tcp_connect`, with the id it returns. -/
def tcpConnect (tx : IpTx) (k : Core) (localIp : UInt32) (localPort : UInt16) (remoteIp : UInt32)
    (remotePort : UInt16) : Int × Core :=
  if !k.initialized then (0, k)
  else if localPort = 0 ∨ remotePort = 0 ∨ remoteIp = 0 then (0, k)
  else if (find k remoteIp remotePort localIp localPort).isSome then (0, k)
  else
    match allocConn k with
    | none => (0, k)
    | some i =>
      let (iss, k) := nextIsn k
      let k := k.install i (.active iss localIp localPort remoteIp remotePort)
      let (st, k) := tcpEmit tx k i flagSyn [] true
      if st ≠ .ok then (0, k.setConn i .zero) else ((i + 1 : Nat), k)

/-- `tcp_listen`. -/
def tcpListen (k : Core) (localIp : UInt32) (localPort backlog : UInt16) : Status × Core :=
  if !k.initialized || localPort == 0 then (.param, k)
  else
    let backlog := if backlog = 0 then 1 else backlog
    match findListener k localPort with
    | some j => (.ok, k.setListener j { k.listeners j with backlog := backlog })
    | none =>
      match (List.range maxListeners).find? fun j => !(k.listeners j).used with
      | some j => (.ok, k.setListener j ⟨true, localIp, localPort, backlog, 0⟩)
      | none => (.full, k)

/-- The condition of `tcp_accept` on a connection. -/
def Conn.acceptable (c : Conn) (localIp : UInt32) (localPort : UInt16) : Bool :=
  c.used && c.passive && !c.accepted && c.state == .established && c.localPort == localPort &&
    (c.localIp == 0 || c.localIp == localIp)

/-- `tcp_accept`, with the id of the connection. -/
def tcpAccept (k : Core) (localIp : UInt32) (localPort : UInt16) : Status × Int × Core :=
  match (List.range maxConns).find? fun i => (k.conns i).acceptable localIp localPort with
  | some i => (.ok, (i + 1 : Nat),
      (k.setConn i { k.conns i with accepted := true }).unpend localPort)
  | none => (.again, 0, k)

/-! ## Data and closing -/

/-- `tcp_send`. -/
def tcpSend (tx : IpTx) (k : Core) (id : Int) (data : List UInt8) : Status × Core :=
  match connAt k id with
  | none => (.noConn, k)
  | some i =>
    let c := k.conns i
    if c.state ≠ .established ∧ c.state ≠ .closeWait then (.closed, k)
    else if data = [] then (.ok, k)
    else if maxSegment < data.length then (.noSpace, k)
    else if c.txPending then (.again, k)
    else tcpEmit tx k i (flagAck ||| flagPsh) data true

/-- `tcp_recv`, with the bytes it returns. -/
def tcpRecv (k : Core) (id : Int) (cap : Nat) : Status × List UInt8 × Core :=
  match connAt k id with
  | none => (.noConn, [], k)
  | some i =>
    let c := k.conns i
    if c.rxBuf.bytes.length = 0 then
      if c.state = .closed then (.closed, [], k) else (.again, [], k)
    else
      let n := if c.rxBuf.bytes.length < cap then c.rxBuf.bytes.length else cap
      (.ok, c.rxBuf.bytes.take n, k.setConn i { c with rxBuf := c.rxBuf.drop n })

/-- `tcp_close`. -/
def tcpClose (tx : IpTx) (k : Core) (id : Int) : Status × Core :=
  match connAt k id with
  | none => (.noConn, k)
  | some i =>
    let c := k.conns i
    match c.state with
    | .established =>
      tcpEmit tx (k.setConn i { c with state := .finWait1 }) i (flagFin ||| flagAck) [] true
    | .closeWait =>
      tcpEmit tx (k.setConn i { c with state := .lastAck }) i (flagFin ||| flagAck) [] true
    | .synSent | .synRcvd => (.ok, release k i)
    | .closed => (.closed, k)
    | _ => (.again, k)

/-! ## Inbound segments -/

/-- What the ACK processing of `tcp_input` comes to: it refuses the segment, it
establishes the connection and is done, or it goes on. -/
inductive AckOutcome where
  | refused
  | connected (c : Conn)
  | passed (c : Conn)

def Conn.onAck (c : Conn) (s : Segment) : AckOutcome :=
  if has s.flags flagAck then
    if c.state = .synSent then
      if s.ack ≠ c.iss + 1 then .refused
      else
        .connected { c with
          sndUna := s.ack
          sndWnd := s.window.toUInt32
          irs := s.seq
          rcvNxt := s.seq + 1
          state := .established
          txPending := false }
    else if c.state = .synRcvd then
      if s.ack ≠ c.sndNxt then .refused
      else .passed { c with sndUna := s.ack, state := .established, txPending := false }
    else if seqGt s.ack c.sndUna && seqLe s.ack c.sndNxt then
      .passed { c with
        sndUna := s.ack
        sndWnd := s.window.toUInt32
        txPending := c.txPending && !seqGe s.ack c.txEndSeq }
    else .passed c
  else .passed c

/-- The receive path is open. -/
def State.receives : State → Bool
  | .established | .finWait1 | .finWait2 => true
  | _ => false

/-- In-order data delivery. -/
def Conn.onData (c : Conn) (s : Segment) : Conn :=
  if h : s.seq = c.rcvNxt ∧ c.rxBuf.bytes.length + s.payload.length ≤ rxbufSize then
    { c with
      rxBuf := c.rxBuf.append s.payload h.2
      rcvNxt := c.rcvNxt + UInt32.ofNat s.payload.length
      placed := c.placed ++ s.payload }
  else c

/-- The receive sequence behind a FIN. -/
def Conn.onFin (c : Conn) (s : Segment) : Conn :=
  { c with
    rcvNxt := s.seq + UInt32.ofNat s.payload.length + 1
    finSeq := some (s.seq + UInt32.ofNat s.payload.length) }

def Conn.afterFin (c : Conn) : Conn :=
  match c.state with
  | .established => { c with state := .closeWait }
  | .finWait1 => { c with state := .closing }
  | _ => { c with state := .timeWait, timeWaitTimer := timeWaitTicks }

def Conn.complete (c : Conn) : Conn :=
  let c :=
    if c.state = .finWait1 ∧ seqGe c.sndUna c.sndNxt then { c with state := .finWait2 } else c
  if c.state = .closing ∧ seqGe c.sndUna c.sndNxt then
    { c with state := .timeWait, timeWaitTimer := timeWaitTicks }
  else c

/-- Change the connection of a slot. -/
def Core.modify (k : Core) (i : Nat) (f : Conn → Conn) : Core := k.setConn i (f (k.conns i))

/-- The end of `tcp_input`. -/
def inputComplete (k : Core) (i : Nat) : Status × Core :=
  let k := k.modify i Conn.complete
  let c := k.conns i
  if c.state = .lastAck ∧ seqGe c.sndUna c.sndNxt then (.ok, release k i) else (.ok, k)

def inputFin (tx : IpTx) (k : Core) (i : Nat) (s : Segment) : Core :=
  if has s.flags flagFin then
    let k := k.modify i (·.onFin s)
    let k := (tcpEmit tx k i flagAck [] false).2
    k.modify i Conn.afterFin
  else k

/-- `tcp_input` from in-order data delivery on. -/
def inputData (tx : IpTx) (k : Core) (i : Nat) (s : Segment) : Status × Core :=
  if (k.conns i).state.receives then
    if s.payload ≠ [] then
      let (st, k) := tcpEmit tx (k.modify i (·.onData s)) i flagAck [] false
      if st ≠ .ok then (.again, k) else inputComplete (inputFin tx k i s) i
    else inputComplete (inputFin tx k i s) i
  else inputComplete k i

/-- `tcp_input` for a connection that was found. -/
def inputConn (tx : IpTx) (k : Core) (i : Nat) (s : Segment) : Status × Core :=
  if has s.flags flagRst then (.ok, release k i)
  else
    match (k.conns i).onAck s with
    | .refused => (.badPacket, k)
    | .connected c => tcpEmit tx (k.setConn i c) i flagAck [] false
    | .passed c => inputData tx (k.setConn i c) i s

/-- `tcp_input` for a segment that matches no connection. -/
def inputStray (tx : IpTx) (k : Core) (p : Packet) (s : Segment) : Status × Core :=
  if has s.flags flagSyn && !has s.flags flagAck then
    passiveOpen tx k p.dst s.dstPort p.src s.srcPort s.seq s.window
  else if has s.flags flagRst then (.noConn, k)
  else
    let rseq := s.seq + UInt32.ofNat s.payload.length + (if has s.flags flagSyn then 1 else 0) +
      (if has s.flags flagFin then 1 else 0)
    (.noConn, sendRst tx k p.dst s.dstPort p.src s.srcPort rseq (has s.flags flagAck) s.ack)

/-- `tcp_input`. -/
def tcpInput (tx : IpTx) (k : Core) (p : Packet) : Status × Core :=
  if !k.initialized then (.notReady, k)
  else
    match parseSegment p with
    | none => (.badPacket, k)
    | some s =>
      match find k p.src s.srcPort p.dst s.dstPort with
      | none => inputStray tx k p s
      | some i => inputConn tx k i s

/-! ## Timers -/

/-- The retransmission timer has run out. -/
def Conn.backoff (c : Conn) : Conn :=
  let rto := if maxRto < c.rto * 2 then maxRto else c.rto * 2
  { c with rto := rto, rtoTimer := rto }

/-- The loop body of `tcp_tick`. -/
def tickConn (tx : IpTx) (elapsed : UInt32) (k : Core) (i : Nat) : Core :=
  let c := k.conns i
  if !c.used then k
  else if c.state = .timeWait then
    if c.timeWaitTimer ≤ elapsed then release k i
    else k.setConn i { c with timeWaitTimer := c.timeWaitTimer - elapsed }
  else if !c.txPending then k
  else if c.rtoTimer ≤ elapsed then (k.transmit tx c.savedPacket).2.setConn i c.backoff
  else k.setConn i { c with rtoTimer := c.rtoTimer - elapsed }

/-- `tcp_tick`. -/
def tcpTick (tx : IpTx) (k : Core) (elapsed : UInt32) : Status × Core :=
  if !k.initialized then (.notReady, k)
  else (.ok, (List.range maxConns).foldl (tickConn tx elapsed) k)

/-! ## Calls -/

/-- A call of the core. -/
inductive Op where
  | connect (localIp : UInt32) (localPort : UInt16) (remoteIp : UInt32) (remotePort : UInt16)
  | listen (localIp : UInt32) (localPort backlog : UInt16)
  | accept (localIp : UInt32) (localPort : UInt16)
  | send (id : Int) (data : List UInt8)
  | recv (id : Int) (cap : Nat)
  | close (id : Int)
  | tick (elapsed : UInt32)
  | input (p : Packet)

def Core.next (tx : IpTx) (k : Core) : Op → Core
  | .connect lip lport rip rport => (tcpConnect tx k lip lport rip rport).2
  | .listen lip lport backlog => (tcpListen k lip lport backlog).2
  | .accept lip lport => (tcpAccept k lip lport).2.2
  | .send id data => (tcpSend tx k id data).2
  | .recv id cap => (tcpRecv k id cap).2.2
  | .close id => (tcpClose tx k id).2
  | .tick elapsed => (tcpTick tx k elapsed).2
  | .input p => (tcpInput tx k p).2

end Tcp
