import OpenWindows.Lib.StepSystem
import OpenWindows.Tcp.Events

/-!
# The receive sequence

From `ESTABLISHED` on, `rcv_nxt` counts the bytes that were placed in the
receive buffer, and the FIN.  `tcp_input` sets it to the number behind a FIN
without a look at the number it expects.  A FIN that overtakes data makes the
endpoint acknowledge bytes it never saw, and it leaves the states in which they
could still be delivered.

When every FIN that is consumed stands right behind the bytes delivered so far,
the count is exact.
-/

namespace Tcp

open StepSystem

/-- The states from `ESTABLISHED` on. -/
def State.synchronized : State → Bool
  | .closed | .listen | .synSent | .synRcvd => false
  | _ => true

/-- The states after a FIN of the peer. -/
def State.finished : State → Bool
  | .closeWait | .closing | .lastAck | .timeWait => true
  | _ => false

/-- What was consumed of the peer's sequence: the bytes placed and the FIN. -/
def Conn.consumed (c : Conn) : Nat := c.placed.length + (if c.finSeq.isSome then 1 else 0)

/-- The receive sequence counts the bytes delivered and the FIN, nothing else was
acknowledged, and in a state behind a FIN all bytes before it were delivered. -/
structure Conn.Receives (c : Conn) : Prop where
  rcvNxt : c.state.synchronized = true → c.rcvNxt = c.irs + 1 + UInt32.ofNat c.consumed
  acks : c.state.synchronized = true → ∀ a ∈ c.acks, ∃ n, n ≤ c.consumed ∧
    a = c.irs + 1 + UInt32.ofNat n
  fin : c.state.finished = true → c.finSeq = some (c.irs + 1 + UInt32.ofNat c.placed.length)

/-- `tcp_input` comes to the FIN of a segment for the connection in slot `i`. -/
structure ReachesFin (tx : IpTx) (k : Core) (p : Packet) (s : Segment) (i : Nat) : Prop where
  parsed : parseSegment p = some s
  found : find k p.src s.srcPort p.dst s.dstPort = some i
  noReset : has s.flags flagRst = false
  flag : has s.flags flagFin = true
  receives : (k.conns i).state.receives = true ∨
    ((k.conns i).state = .synRcvd ∧ has s.flags flagAck = true ∧ s.ack = (k.conns i).sndNxt)
  sent : Acknowledged tx k (k.conns i) s

/-- A FIN that is consumed stands behind the bytes delivered so far, or behind
its own payload, which starts there and fits the receive buffer. -/
def FinInOrder (tx : IpTx) (k : Core) : Op → Prop
  | .input p => ∀ s i, ReachesFin tx k p s i →
      (s.seq = (k.conns i).rcvNxt ∧
        (k.conns i).rxBuf.bytes.length + s.payload.length ≤ rxbufSize) ∨
      s.seq + UInt32.ofNat s.payload.length = (k.conns i).rcvNxt
  | _ => True

/-- A FIN stands right behind the bytes delivered. -/
def Promise.finInOrder : Promise :=
  { Promise.trivial with fin := fun c s => s.seq + UInt32.ofNat s.payload.length = c.rcvNxt }

/-! ## The invariant -/

/-- `Conn.Receives`, with what holds before a connection is established. -/
structure Conn.Counted (c : Conn) : Prop where
  fresh : c.state = .synSent → c.placed = [] ∧ c.acks = []
  rcvNxt : c.state = .synRcvd ∨ c.state.synchronized = true →
    c.rcvNxt = c.irs + 1 + UInt32.ofNat c.consumed
  acks : c.state ≠ .synSent → ∀ a ∈ c.acks, ∃ n, n ≤ c.consumed ∧ a = c.irs + 1 + UInt32.ofNat n
  fin : c.finSeq = if c.state.finished then some (c.irs + 1 + UInt32.ofNat c.placed.length) else none

variable {c : Conn} {s : Segment}

theorem Conn.Counted.receives (h : c.Counted) : c.Receives where
  rcvNxt hs := h.rcvNxt (.inr hs)
  acks hs := h.acks fun heq => by simp [heq, State.synchronized] at hs
  fin hs := by rw [h.fin, if_pos hs]

theorem Conn.Counted.zero : Conn.zero.Counted where
  fresh := nofun
  rcvNxt := by rintro (h | h) <;> cases h
  acks := nofun
  fin := rfl

variable {c' : Conn}

/-- Only the receive side matters. -/
theorem Conn.Counted.congr (h : c.Counted) (hstate : c'.state = c.state)
    (hnext : c'.rcvNxt = c.rcvNxt) (hirs : c'.irs = c.irs) (hplaced : c'.placed = c.placed)
    (hacks : c'.acks = c.acks) (hfin : c'.finSeq = c.finSeq) : c'.Counted := by
  have hconsumed : c'.consumed = c.consumed := by rw [Conn.consumed, hplaced, hfin]; rfl
  refine ⟨?_, ?_, ?_, ?_⟩
  · rw [hstate, hplaced, hacks]
    exact h.fresh
  · rw [hstate, hnext, hirs, hconsumed]
    exact h.rcvNxt
  · rw [hstate, hacks, hirs, hconsumed]
    exact h.acks
  · rw [hfin, hstate, hirs, hplaced]
    exact h.fin

/-- A segment acknowledges what was consumed. -/
theorem Conn.Counted.advance (h : c.Counted) (flags : UInt8) (payload : List UInt8)
    (hs : c.state = .synRcvd ∨ c.state.synchronized = true) : (c.advance flags payload).Counted where
  fresh heq := by
    rcases hs with hs | hs
    · exact absurd (hs.symm.trans heq) nofun
    · exact absurd hs (by rw [show c.state = .synSent from heq]; nofun)
  rcvNxt := h.rcvNxt
  acks hne a ha := by
    unfold Conn.advance at ha
    dsimp only at ha
    split at ha
    · rcases List.mem_cons.mp ha with rfl | ha
      · exact ⟨c.consumed, Nat.le_refl _, h.rcvNxt hs⟩
      · exact h.acks hne a ha
    · exact h.acks hne a ha
  fin := h.fin

theorem Conn.Counted.save (h : c.Counted) (flags : UInt8) {payload : List UInt8}
    (hlen : payload.length ≤ maxSegment) (hs : c.state = .synRcvd ∨ c.state.synchronized = true) :
    (c.save flags payload hlen).Counted :=
  (h.advance flags payload hs).congr rfl rfl rfl rfl rfl rfl

theorem Conn.Counted.setState (h : c.Counted) (state : State) (t : UInt32)
    (hs : c.state = .synRcvd ∨ c.state.synchronized = true) (hs' : state.synchronized = true)
    (hfin : state.finished = c.state.finished) :
    Conn.Counted { c with state := state, timeWaitTimer := t } where
  fresh heq := by
    rw [show state = .synSent from heq] at hs'
    cases hs'
  rcvNxt _ := h.rcvNxt hs
  acks _ := h.acks fun heq => by rcases hs with hs | hs <;> rw [heq] at hs <;> cases hs
  fin := by
    rw [h.fin, ← hfin]

theorem Conn.Counted.onAck (h : c.Counted) (hack : c.onAck s = .passed c') : c'.Counted := by
  rcases Conn.onAck_passed hack with rfl | ⟨-, hstate, -, rfl⟩ | ⟨-, -, -, -, rfl⟩
  · exact h
  · exact (h.setState .established c.timeWaitTimer (.inl hstate) rfl
      (by rw [hstate]; rfl)).congr rfl rfl rfl rfl rfl rfl
  · exact h.congr rfl rfl rfl rfl rfl rfl

theorem State.receives_spec {s : State} (h : s.receives = true) :
    s.synchronized = true ∧ s.finished = false ∧ s ≠ .synSent := by
  cases s <;> first | exact ⟨rfl, rfl, nofun⟩ | cases h

theorem Conn.Counted.onData (h : c.Counted) (s : Segment)
    (hrecv : c.state.receives = true) : (c.onData s).Counted := by
  obtain ⟨hsync, hopen, hne⟩ := State.receives_spec hrecv
  have hfin : c.finSeq = none := by rw [h.fin, hopen]; rfl
  have hcount : c.consumed = c.placed.length := by rw [Conn.consumed, hfin]; rfl
  unfold Conn.onData
  split
  next hdata =>
    have hcount' : Conn.consumed { c with
        rxBuf := c.rxBuf.append s.payload hdata.2
        rcvNxt := c.rcvNxt + UInt32.ofNat s.payload.length
        placed := c.placed ++ s.payload } = c.placed.length + s.payload.length := by
      simp [Conn.consumed, hfin]
    refine ⟨fun heq => absurd heq hne, fun _ => ?_, fun _ a ha => ?_, ?_⟩
    · dsimp only
      rw [hcount', UInt32.ofNat_add, ← UInt32.add_assoc, ← hcount, ← h.rcvNxt (.inr hsync)]
    · obtain ⟨n, hn, heq⟩ := h.acks hne a ha
      exact ⟨n, by omega, heq⟩
    · dsimp only
      rw [hfin, hopen]
      rfl
  · exact h

theorem Conn.Counted.onFin (h : c.Counted) (hrecv : c.state.receives = true)
    (horder : s.seq + UInt32.ofNat s.payload.length = c.rcvNxt) :
    ((c.onFin s).advance flagAck []).afterFin.Counted := by
  obtain ⟨hsync, hopen, hne⟩ := State.receives_spec hrecv
  have hfin : c.finSeq = none := by rw [h.fin, hopen]; rfl
  have hcount : c.consumed = c.placed.length := by rw [Conn.consumed, hfin]; rfl
  have hnext : c.rcvNxt = c.irs + 1 + UInt32.ofNat c.placed.length := by
    rw [h.rcvNxt (.inr hsync), hcount]
  have hbehind : c.rcvNxt + 1 = c.irs + 1 + UInt32.ofNat (c.placed.length + 1) := by
    rw [hnext, UInt32.ofNat_add, ← UInt32.add_assoc]
    rfl
  -- the state after the FIN is one of three, all of them behind it
  have hafter : ∀ c' : Conn, c'.state.finished = true → c'.irs = c.irs → c'.placed = c.placed →
      c'.rcvNxt = c.rcvNxt + 1 → c'.finSeq = some c.rcvNxt → c'.acks = (c.rcvNxt + 1) :: c.acks →
      c'.Counted := by
    intro c' hstate hirs hplaced hrcv hseq hacks
    have hcount' : c'.consumed = c.placed.length + 1 := by rw [Conn.consumed, hplaced, hseq]; rfl
    refine ⟨fun heq => ?_, fun _ => ?_, fun _ a ha => ?_, ?_⟩
    · rw [heq] at hstate
      cases hstate
    · rw [hrcv, hirs, hcount', hbehind]
    · rw [hirs, hcount']
      rw [hacks] at ha
      rcases List.mem_cons.mp ha with rfl | ha
      · exact ⟨c.placed.length + 1, Nat.le_refl _, hbehind⟩
      · obtain ⟨n, hn, heq⟩ := h.acks hne a ha
        exact ⟨n, by omega, heq⟩
    · rw [if_pos hstate, hseq, hirs, hplaced, hnext]
  have hrcv : (c.onFin s).rcvNxt = c.rcvNxt + 1 := by rw [Conn.onFin, horder]
  have hseq : (c.onFin s).finSeq = some c.rcvNxt := by rw [Conn.onFin, horder]
  have hacks : ((c.onFin s).advance flagAck []).acks = (c.rcvNxt + 1) :: c.acks := by
    rw [← hrcv]
    rfl
  unfold Conn.afterFin
  split <;> exact hafter _ rfl rfl rfl hrcv hseq hacks

theorem Conn.Counted.complete (h : c.Counted) : c.complete.Counted := by
  rcases c.complete_cases with heq | ⟨hs, -, heq⟩ | ⟨hs, -, heq⟩ <;> rw [heq]
  · exact h
  · exact h.setState .finWait2 c.timeWaitTimer (.inr (by rw [hs]; rfl)) rfl (by rw [hs]; rfl)
  · exact h.setState .timeWait timeWaitTicks (.inr (by rw [hs]; rfl)) rfl (by rw [hs]; rfl)

/-! ## Events -/

theorem Conn.Counted.opens {P : Promise} {p : Packet} {c : Conn} (h : Conn.Opens P p c) :
    c.Counted := by
  cases h with
  | active iss lip lport rip rport =>
    refine ⟨fun _ => ⟨rfl, rfl⟩, ?_, ?_, rfl⟩
    · rintro (h | h) <;> cases h
    · intro hne
      exact absurd rfl hne
  | passive iss =>
    refine ⟨nofun, ?_, ?_, rfl⟩
    · intro _
      exact (UInt32.add_zero _).symm
    · intro _ a ha
      rcases List.mem_cons.mp ha with rfl | ha
      · exact ⟨0, Nat.le_refl 0, (UInt32.add_zero _).symm⟩
      · cases ha

theorem Conn.Counted.event {ps : List Packet} {out inp : List UInt8}
    (he : Conn.Event .finInOrder c ps out inp c') (h : c.Counted) : c'.Counted := by
  cases he with
  | accept => exact h.congr rfl rfl rfl rfl rfl rfl
  | send hlen hs =>
    refine h.save _ hlen (.inr ?_)
    rcases hs with hs | hs <;> rw [hs] <;> rfl
  | recv n => exact h.congr rfl rfl rfl rfl rfl rfl
  | close hs =>
    refine Conn.Counted.save ?_ _ _ (.inr ?_)
    · rcases hs with ⟨hs, rfl⟩ | ⟨hs, rfl⟩
      · exact h.setState .finWait1 c.timeWaitTimer (.inr (by rw [hs]; rfl)) rfl
          (by rw [hs]; rfl)
      · exact h.setState .lastAck c.timeWaitTimer (.inr (by rw [hs]; rfl)) rfl
          (by rw [hs]; rfl)
    · rcases hs with ⟨-, rfl⟩ | ⟨-, rfl⟩ <;> rfl
  | connect _ _ hack _ =>
    obtain ⟨-, hs, -, rfl⟩ := Conn.onAck_connected hack
    obtain ⟨hplaced, hacks⟩ := h.fresh hs
    have hfin : c.finSeq = none := by rw [h.fin, hs]; rfl
    refine Conn.Counted.advance ⟨fun heq => ?_, fun _ => ?_, fun _ a ha => ?_, hfin⟩ _ _ (.inr rfl)
    · cases heq
    · simp [Conn.consumed, hplaced, hfin]
    · dsimp only at ha
      rw [hacks] at ha
      cases ha
  | ack _ _ hack => exact h.onAck hack
  | data _ _ hrecv _ =>
    refine (h.onData _ hrecv).advance _ _ (.inr ?_)
    unfold Conn.onData
    split <;> exact (State.receives_spec hrecv).1
  | fin _ _ hrecv _ horder => exact h.onFin hrecv horder
  | complete => exact h.complete
  | release => exact .zero
  | waiting t | timer t | resend => exact h.congr rfl rfl rfl rfl rfl rfl

/-! ## Calls -/

theorem Conn.onAck_receive (h : c.onAck s = .passed c') :
    c'.rcvNxt = c.rcvNxt ∧ c'.rxBuf = c.rxBuf ∧
    (c'.onData s).packet flagAck [] (Nat.zero_le _) =
      (c.onData s).packet flagAck [] (Nat.zero_le _) ∧
    (c'.state.receives = true → c.state.receives = true ∨
      (c.state = .synRcvd ∧ has s.flags flagAck = true ∧ s.ack = c.sndNxt)) := by
  rcases Conn.onAck_passed h with rfl | ⟨hflag, hstate, hack, rfl⟩ | ⟨-, -, -, -, rfl⟩
  · exact ⟨rfl, rfl, rfl, .inl⟩
  · refine ⟨rfl, rfl, ?_, fun _ => .inr ⟨hstate, hflag, hack⟩⟩
    unfold Conn.onData
    split <;> rfl
  · refine ⟨rfl, rfl, ?_, .inl⟩
    unfold Conn.onData
    split <;> rfl

theorem Conn.afterData_rcvNxt
    (h : (s.seq = c.rcvNxt ∧ c.rxBuf.bytes.length + s.payload.length ≤ rxbufSize) ∨
      s.seq + UInt32.ofNat s.payload.length = c.rcvNxt) :
    s.seq + UInt32.ofNat s.payload.length = (c.afterData s).rcvNxt := by
  unfold Conn.afterData
  split
  · show _ = (c.onData s).rcvNxt
    unfold Conn.onData
    split
    next hdata => rw [← hdata.1]
    next hdata => exact h.resolve_left hdata
  next hnil =>
    rcases h with ⟨heq, -⟩ | heq
    · rw [not_not.mp hnil, ← heq]
      exact UInt32.add_zero _
    · exact heq

theorem ReachesFin.of_passed {tx : IpTx} {k : Core} {p : Packet} {i : Nat}
    (hs : parseSegment p = some s) (hfind : find k p.src s.srcPort p.dst s.dstPort = some i)
    (hrst : has s.flags flagRst = false) (hack : (k.conns i).onAck s = .passed c)
    (hrecv : c.state.receives = true) (hflag : has s.flags flagFin = true)
    (hsent : Acknowledged tx k c s) : ReachesFin tx k p s i := by
  obtain ⟨-, -, hpacket, hstate⟩ := Conn.onAck_receive hack
  exact ⟨hs, hfind, hrst, hflag, hstate hrecv, fun hne => hpacket ▸ hsent hne⟩

theorem FinInOrder.kept {tx : IpTx} {k : Core} {op : Op} (h : FinInOrder tx k op) :
    Promise.finInOrder.Kept tx k op := by
  cases op with
  | input p =>
    intro s hs
    refine ⟨trivial, fun i hfind hrst => ⟨fun _ _ => trivial, fun c hack hrecv hflag hsent => ?_⟩⟩
    obtain ⟨hnext, hbuf, -, -⟩ := Conn.onAck_receive hack
    have horder := h s i (.of_passed hs hfind hrst hack hrecv hflag hsent)
    rw [← hnext, ← hbuf] at horder
    exact Conn.afterData_rcvNxt horder
  | close id => exact fun _ _ _ => trivial
  | connect => trivial
  | listen => trivial
  | accept => trivial
  | send => trivial
  | recv => trivial
  | tick => trivial

/-- In every state that a run reaches in which FINs are consumed in order, every
connection has counted what it received. -/
theorem rcvNxt_counts (tx : IpTx) (ops : List Op) (k : Core)
    (h : Calls (FinInOrder tx) (Core.next tx) .init ops k) : ∀ i, (k.conns i).Receives := by
  have hcounted : ∀ i, (k.conns i).Counted := by
    refine h.invariant (P := fun k => ∀ i, (k.conns i).Counted) ?_ fun _ => .zero
    intro k op hk hg
    exact fun i => Core.next_conn hg.kept (fun _ _ => .opens) (fun _ _ _ _ _ => .event) (hk i)
  exact fun i => (hcounted i).receives

/-- A transmit hook that always reports `TCP_OK`. -/
def okTx : IpTx := fun _ _ => .ok

/-- A segment from port 80 of 10.0.0.2 to port 1000 of 10.0.0.1. -/
def fromPeer (seq ack : UInt32) (flags : UInt8) : Packet :=
  Header.packet ⟨80, 1000, seq, ack, flags, 4096⟩ 0x0200000A 0x0100000A [] (Nat.zero_le _)

/-- A connection from port 1000 of 10.0.0.1 to port 80 of 10.0.0.2, which the
peer accepts. -/
def handshake : List Op :=
  [.connect 0x0100000A 1000 0x0200000A 80,
    .input (fromPeer 5000 0x6318E1A1 (flagSyn ||| flagAck))]

theorem rcvNxt_counts_fin :
    ∃ k, Calls (FinInOrder okTx) (Core.next okTx) .init
        (handshake ++ [.input (fromPeer 5001 0x6318E1A1 (flagFin ||| flagAck))]) k ∧
      (k.conns 0).state = .closeWait ∧ (k.conns 0).rcvNxt = 5002 ∧
      ∀ i, (k.conns i).Receives := by
  have hsyn : FinInOrder okTx (Core.next okTx .init (.connect 0x0100000A 1000 0x0200000A 80))
      (.input (fromPeer 5000 0x6318E1A1 (flagSyn ||| flagAck))) := by
    intro s i hreach
    have hflag := hreach.flag
    rw [parseSegment_packet hreach.parsed] at hflag
    cases hflag
  have hfin : FinInOrder okTx (handshake.foldl (Core.next okTx) .init)
      (.input (fromPeer 5001 0x6318E1A1 (flagFin ||| flagAck))) := by
    intro s i hreach
    have hfound := hreach.found
    rw [parseSegment_packet hreach.parsed] at hfound ⊢
    have hzero : i = 0 := by
      have hslot : find (handshake.foldl (Core.next okTx) .init) 0x0200000A 80 0x0100000A 1000 =
          some 0 := by decide
      exact Option.some.inj (hfound.symm.trans hslot)
    subst hzero
    exact .inr (by decide)
  have h : Calls (FinInOrder okTx) (Core.next okTx) .init
      ([] ++ [.connect 0x0100000A 1000 0x0200000A 80] ++
        [.input (fromPeer 5000 0x6318E1A1 (flagSyn ||| flagAck))] ++
        [.input (fromPeer 5001 0x6318E1A1 (flagFin ||| flagAck))]) _ :=
    .snoc (.snoc (.snoc .nil trivial) hsyn) hfin
  exact ⟨_, h, by decide, by decide, rcvNxt_counts okTx _ _ h⟩

/-- A FIN with the number 6000 arrives when 5001 is expected. -/
theorem rcvNxt_early_fin :
    ¬ ∀ i, (((handshake ++ [Op.input (fromPeer 6000 0x6318E1A1 (flagFin ||| flagAck))]).foldl
      (Core.next okTx) .init).conns i).Receives := by
  intro h
  have hnext := (h 0).rcvNxt (by decide)
  revert hnext
  decide

end Tcp
