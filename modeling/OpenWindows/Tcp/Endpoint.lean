import OpenWindows.Tcp.Handshake

/-!
# One end of a connection

An endpoint that opens one connection sends a SYN with its initial sequence
number, then bytes of its stream under the numbers behind that, and besides these
only segments that carry no byte.  So every segment with a payload tells where in
the stream of the sender the payload stands, however late or often it arrives.

The invariant of an endpoint has three parts.  `Conn.Gives` is about what the
connection sends, `Conn.Gets` about what it has received, and `Conn.Phase` about
the handshake.  Each is preserved by every event of the connection.
-/

namespace Tcp

/-! ## Segments on the wire -/

def Read (sent : List Packet) (s : Segment) : Prop := ∃ p ∈ sent, parseSegment p = some s

/-- A segment of the endpoint that sends the stream `out` with the initial
sequence number `iss`. -/
structure Segment.Genuine (iss : UInt32) (out : List UInt8) (s : Segment) : Prop where
  syn : has s.flags flagSyn = true → has s.flags flagRst = false ∧ s.seq = iss
  data : s.payload ≠ [] → ∃ before after, out = before ++ s.payload ++ after ∧
    s.seq = iss + 1 + UInt32.ofNat before.length

theorem Segment.Genuine.bare {iss : UInt32} {out : List UInt8} {h : Header}
    (hsyn : has h.flags flagSyn = false) : Segment.Genuine iss out { h with payload := [] } where
  syn hs := absurd (hsyn.symm.trans hs) nofun
  data h := absurd rfl h

variable {s : Segment}

/-- The stream grows. -/
theorem Segment.Genuine.append {iss : UInt32} {out : List UInt8}
    (h : s.Genuine iss out) (more : List UInt8) : s.Genuine iss (out ++ more) where
  syn := h.syn
  data hs := by
    obtain ⟨before, after, rfl, hseq⟩ := h.data hs
    exact ⟨before, after ++ more, by simp, hseq⟩

theorem Read.mono {sent sent' : List Packet} (hsub : sent ⊆ sent')
    (h : Read sent s) : Read sent' s := by
  obtain ⟨p, hp, hs⟩ := h
  exact ⟨p, hsub hp, hs⟩

/-! ## What a connection sends -/

/-- The connection has sent the stream `out` from `iss` on, and its saved segment
is among the packets. -/
structure Conn.Gives (iss : UInt32) (out : List UInt8) (sent : List Packet) (c : Conn) : Prop where
  iss : c.iss = iss
  stream : c.stream = out
  saved : c.txPending = true → c.savedPacket ∈ sent

variable {P : Promise} {iss : UInt32} {out got o inp : List UInt8} {sent ps : List Packet}
  {c c' : Conn}

theorem Conn.Gives.advance_ack (h : c.Gives iss out sent) (p : Packet) :
    (c.advance flagAck []).Gives iss (out ++ []) ([p] ++ sent) := by
  rw [Conn.advance_ack, List.append_nil]
  exact ⟨h.iss, h.stream, fun hp => List.mem_append_right _ (h.saved hp)⟩

theorem Conn.Gives.event (he : c.Event P ps o inp c') (h : c.Gives iss out sent)
    (hused : c'.used = true) : c'.Gives iss (out ++ o) (ps ++ sent) := by
  have hsame : ∀ ps : List Packet, c.txPending = true → c.savedPacket ∈ ps ++ sent :=
    fun _ hp => List.mem_append_right _ (h.saved hp)
  have hstream : c.stream = out ++ [] := by rw [h.stream, List.append_nil]
  cases he with
  | accept => exact ⟨h.iss, hstream, hsame []⟩
  | send hlen hs hnil hp =>
    refine ⟨h.iss, ?_, fun _ => List.mem_cons_self⟩
    show c.stream ++ o = out ++ o
    rw [h.stream]
  | recv n => exact ⟨h.iss, hstream, hsame []⟩
  | close hs _ =>
    refine ⟨h.iss, ?_, fun _ => List.mem_cons_self⟩
    show c.stream ++ [] = out ++ []
    rw [h.stream]
  | connect _ _ hack _ =>
    obtain ⟨-, -, -, rfl⟩ := Conn.onAck_connected hack
    refine Conn.Gives.advance_ack ?_ _
    exact ⟨h.iss, h.stream, nofun⟩
  | ack _ _ hack =>
    rcases Conn.onAck_passed hack with rfl | ⟨-, -, -, rfl⟩ | ⟨-, -, -, -, rfl⟩
    · exact ⟨h.iss, hstream, hsame []⟩
    · exact ⟨h.iss, hstream, nofun⟩
    · refine ⟨h.iss, hstream, fun hp => hsame [] ?_⟩
      exact (Bool.and_eq_true_iff.mp hp).1
  | data _ _ _ _ =>
    refine Conn.Gives.advance_ack ?_ _
    unfold Conn.onData
    split
    · exact ⟨h.iss, h.stream, h.saved⟩
    · exact h
  | @fin p s _ _ hrecv _ _ =>
    have hack : Conn.Gives iss (out ++ []) ([(c.onFin s).packet flagAck [] (Nat.zero_le _)] ++ sent)
        ((c.onFin s).advance flagAck []) := by
      refine Conn.Gives.advance_ack ?_ _
      exact ⟨h.iss, h.stream, h.saved⟩
    rcases Conn.afterFin_cases (c := (c.onFin s).advance flagAck []) hrecv with
      ⟨-, heq⟩ | ⟨-, heq⟩ | ⟨-, heq⟩ <;> rw [heq] <;>
      exact ⟨hack.iss, hack.stream, hack.saved⟩
  | complete =>
    rcases c.complete_cases with heq | ⟨-, -, heq⟩ | ⟨-, -, heq⟩ <;> rw [heq] <;>
      exact ⟨h.iss, hstream, hsame []⟩
  | release => cases hused
  | waiting t | timer t => exact ⟨h.iss, hstream, hsame []⟩
  | resend => exact ⟨h.iss, hstream, hsame _⟩

theorem Conn.packet_bare {flags : UInt8} (hsyn : has flags flagSyn = false)
    (hs : parseSegment (c.packet flags [] (Nat.zero_le _)) = some s) : s.Genuine iss out := by
  rw [parseSegment_packet hs]
  exact .bare hsyn

theorem Conn.Event.packets (he : c.Event P ps o inp c') (hnum : c.Numbered)
    (h : c.Gives iss out sent) {p : Packet} (hp : p ∈ ps) :
    p ∈ sent ∨ (c'.state.synchronized = true ∧
      ∀ s, parseSegment p = some s → s.Genuine iss (out ++ o)) := by
  cases he with
  | accept => cases hp
  | send hlen hs hnil _ =>
    cases List.mem_singleton.mp hp
    refine .inr ⟨?_, fun s hparse => ?_⟩
    · show c.state.synchronized = true
      rcases hs with hs | hs <;> rw [hs] <;> rfl
    · rw [parseSegment_packet hparse]
      have hsyn : has (flagAck ||| flagPsh) flagSyn = false := rfl
      refine ⟨fun hs => absurd (hsyn.symm.trans hs) nofun, fun _ => ⟨out, [], by simp, ?_⟩⟩
      show c.sndNxt = _
      rw [hnum.sndNxt hs, h.iss, h.stream]
  | recv n => cases hp
  | close hs _ =>
    cases List.mem_singleton.mp hp
    refine .inr ⟨?_, fun s hparse => Conn.packet_bare rfl hparse⟩
    rcases hs with ⟨-, rfl⟩ | ⟨-, rfl⟩ <;> rfl
  | connect _ _ hack _ =>
    cases List.mem_singleton.mp hp
    obtain ⟨-, -, -, rfl⟩ := Conn.onAck_connected hack
    exact .inr ⟨rfl, fun s hparse => Conn.packet_bare rfl hparse⟩
  | ack => cases hp
  | @data p s _ _ hrecv _ =>
    cases List.mem_singleton.mp hp
    refine .inr ⟨?_, fun s hparse => Conn.packet_bare rfl hparse⟩
    have hstate : ((c.onData s).advance flagAck []).state = c.state := by
      unfold Conn.onData
      split <;> rfl
    rw [hstate]
    exact (State.receives_spec hrecv).1
  | @fin p s _ _ hrecv _ _ =>
    cases List.mem_singleton.mp hp
    refine .inr ⟨?_, fun s hparse => Conn.packet_bare rfl hparse⟩
    rcases Conn.afterFin_cases (c := (c.onFin s).advance flagAck []) hrecv with
      ⟨-, heq⟩ | ⟨-, heq⟩ | ⟨-, heq⟩ <;> rw [heq] <;> rfl
  | complete => cases hp
  | release => cases hp
  | waiting t => cases hp
  | timer t => cases hp
  | resend _ hpending =>
    cases List.mem_singleton.mp hp
    exact .inl (h.saved hpending)

/-! ## What a connection receives -/

/-- Segments are genuine segments of a peer with the stream `out` and the initial
sequence number `iss`, and a connection is established by a SYN of the peer. -/
def Promise.peer (iss : UInt32) (out : List UInt8) (sent : List Packet) : Promise :=
  { Promise.trivial with
    segment := fun p s => p ∈ sent ∧ parseSegment p = some s ∧ s.Genuine iss out
    connect := fun _ s => s.seq = iss }

/-- The bytes returned and the receive buffer are the first bytes of the stream
`out` of the peer, and the receive sequence stands behind them. -/
structure Conn.Gets (iss : UInt32) (out got : List UInt8) (c : Conn) : Prop where
  placed : c.placed = got ++ c.rxBuf.bytes
  stream : c.placed <+: out
  fresh : c.state = .synSent → c.placed = []
  rcvNxt : c.state = .synRcvd ∨ c.state.receives = true →
    c.rcvNxt = iss + 1 + UInt32.ofNat c.placed.length

theorem Segment.Genuine.extends {placed : List UInt8} (hs : s.Genuine iss out)
    (hne : s.payload ≠ []) (hlen : out.length < 2 ^ 31) (hplaced : placed <+: out)
    (hseq : s.seq = iss + 1 + UInt32.ofNat placed.length) : placed ++ s.payload <+: out := by
  obtain ⟨before, after, rfl, hbefore⟩ := hs.data hne
  have hle := hplaced.length_le
  have hsame : before.length = placed.length := by
    refine ofNat_inj_near ?_ (by omega) (hbefore.symm.trans hseq)
    simp only [List.length_append] at hlen
    omega
  have heq : placed = before := by
    have hpre : before <+: before ++ s.payload ++ after := by
      rw [List.append_assoc]
      exact List.prefix_append _ _
    exact (List.prefix_of_prefix_length_le hplaced hpre (by omega)).eq_of_length hsame.symm
  rw [heq]
  exact List.prefix_append _ _

theorem Conn.Gets.advance_ack (h : c.Gets iss out got) :
    (c.advance flagAck []).Gets iss out got := by
  rw [Conn.advance_ack]
  exact ⟨h.placed, h.stream, h.fresh, h.rcvNxt⟩

theorem Conn.Gets.onData (h : c.Gets iss out got) (hs : s.Genuine iss out)
    (hne : s.payload ≠ []) (hlen : out.length < 2 ^ 31) (hrecv : c.state.receives = true) :
    (c.onData s).Gets iss out got := by
  unfold Conn.onData
  split
  next hdata =>
    have hnext := h.rcvNxt (.inr hrecv)
    refine ⟨?_, ?_, fun hsent => ?_, fun _ => ?_⟩
    · show c.placed ++ s.payload = got ++ (c.rxBuf.bytes ++ s.payload)
      rw [h.placed, List.append_assoc]
    · exact hs.extends hne hlen h.stream (hdata.1.trans hnext)
    · exact absurd hsent (State.receives_spec hrecv).2.2
    · show c.rcvNxt + UInt32.ofNat s.payload.length =
        iss + 1 + UInt32.ofNat (c.placed ++ s.payload).length
      rw [List.length_append, UInt32.ofNat_add, ← UInt32.add_assoc, ← hnext]
  · exact h

theorem Conn.Gets.setState (h : c.Gets iss out got) (state : State) (t : UInt32)
    (hsent : state ≠ .synSent)
    (hrecv : state = .synRcvd ∨ state.receives = true →
      c.state = .synRcvd ∨ c.state.receives = true) :
    Conn.Gets iss out got { c with state := state, timeWaitTimer := t } :=
  ⟨h.placed, h.stream, fun hs => absurd hs hsent, fun hs => h.rcvNxt (hrecv hs)⟩

theorem Conn.Gets.event (he : c.Event (.peer iss out sent) ps o inp c') (h : c.Gets iss out got)
    (hlen : out.length < 2 ^ 31) (hused : c'.used = true) : c'.Gets iss out (got ++ inp) := by
  have hgot : got ++ [] = got := List.append_nil _
  cases he with
  | accept | send => exact ⟨by rw [hgot]; exact h.placed, h.stream, h.fresh, h.rcvNxt⟩
  | recv n =>
    refine ⟨?_, h.stream, h.fresh, h.rcvNxt⟩
    show c.placed = got ++ c.rxBuf.bytes.take n ++ c.rxBuf.bytes.drop n
    rw [List.append_assoc, List.take_append_drop]
    exact h.placed
  | @close state hs _ =>
    rw [hgot]
    rcases hs with ⟨hs, rfl⟩ | ⟨-, rfl⟩
    · have hset := h.setState .finWait1 c.timeWaitTimer nofun (fun _ => .inr (by rw [hs]; rfl))
      exact ⟨hset.placed, hset.stream, hset.fresh, hset.rcvNxt⟩
    · have hset := h.setState .lastAck c.timeWaitTimer nofun (by rintro (h | h) <;> cases h)
      exact ⟨hset.placed, hset.stream, hset.fresh, hset.rcvNxt⟩
  | @connect p s c₁ _ _ hack hseq =>
    obtain ⟨-, hs, -, rfl⟩ := Conn.onAck_connected hack
    rw [hgot]
    refine Conn.Gets.advance_ack ⟨h.placed, h.stream, nofun, fun _ => ?_⟩
    show s.seq + 1 = _
    rw [hseq, h.fresh hs]
    exact (UInt32.add_zero _).symm
  | ack _ _ hack =>
    rw [hgot]
    rcases Conn.onAck_passed hack with rfl | ⟨-, hs, -, rfl⟩ | ⟨-, -, -, -, rfl⟩
    · exact h
    · have hset := h.setState .established c.timeWaitTimer nofun fun _ => .inl hs
      exact ⟨hset.placed, hset.stream, hset.fresh, hset.rcvNxt⟩
    · exact ⟨h.placed, h.stream, h.fresh, h.rcvNxt⟩
  | data hseg _ hrecv hne =>
    rw [hgot]
    exact (h.onData hseg.2.2 hne hlen hrecv).advance_ack
  | @fin p s _ _ hrecv _ _ =>
    rw [hgot]
    rcases Conn.afterFin_cases (c := (c.onFin s).advance flagAck []) hrecv with
      ⟨-, heq⟩ | ⟨-, heq⟩ | ⟨-, heq⟩ <;> rw [heq] <;>
      exact ⟨h.placed, h.stream, nofun, by rintro (h | h) <;> cases h⟩
  | complete =>
    rw [hgot]
    rcases c.complete_cases with heq | ⟨hs, -, heq⟩ | ⟨-, -, heq⟩ <;> rw [heq]
    · exact h
    · exact h.setState .finWait2 c.timeWaitTimer nofun fun _ => .inr (by rw [hs]; rfl)
    · exact h.setState .timeWait timeWaitTicks nofun (by rintro (h | h) <;> cases h)
  | release => cases hused
  | waiting t | timer t => exact ⟨by rw [hgot]; exact h.placed, h.stream, h.fresh, h.rcvNxt⟩
  | resend => exact ⟨by rw [hgot]; exact h.placed, h.stream, h.fresh, h.rcvNxt⟩

/-! ## The handshake -/

/-- What happened to the connection of an endpoint: its initial sequence number,
whether `tcp_connect` opened it, and whether it was established. -/
structure Life where
  iss : UInt32
  active : Bool
  est : Bool

/-- The life of an endpoint after its connection has changed. -/
def Life.after (l : Life) (c : Conn) : Life := { l with est := l.est || c.state.synchronized }

/-- The state of a connection fits what happened to it, given the packets of the
peer. -/
structure Conn.Phase (l : Life) (sent : List Packet) (c : Conn) : Prop where
  alive : c.state ≠ .closed ∧ c.state ≠ .listen
  synSent : c.state = .synSent → l.active = true ∧ l.est = false
  synRcvd : c.state = .synRcvd → l.active = false ∧ l.est = false
  est : c.state.synchronized = true → l.est = true
  heard : c.state ≠ .synSent → ∃ s, Read sent s ∧ has s.flags flagRst = false

variable {l : Life}

theorem Life.after_of_not_synchronized (h : c.state.synchronized = false) : l.after c = l := by
  simp [Life.after, h]

theorem Life.after_of_est (h : l.est = true) : l.after c = l := by
  unfold Life.after
  rw [h, Bool.true_or, ← h]

theorem Conn.Phase.synchronized (h : c.Phase l sent) (hs : c.state.synchronized = true)
    (hs' : c'.state.synchronized = true) : c'.Phase (l.after c') sent := by
  rw [Life.after_of_est (h.est hs)]
  refine ⟨?_, ?_, ?_, fun _ => h.est hs, fun _ => h.heard ?_⟩
  · constructor <;> intro heq <;> rw [heq] at hs' <;> cases hs'
  · intro heq
    rw [heq] at hs'
    cases hs'
  · intro heq
    rw [heq] at hs'
    cases hs'
  · intro heq
    rw [heq] at hs
    cases hs

theorem Conn.Phase.of_state (h : c.Phase l sent) (hs : c'.state = c.state) :
    c'.Phase (l.after c') sent := by
  have hafter : l.after c' = l := by
    cases hsync : c.state.synchronized with
    | false => exact Life.after_of_not_synchronized (hs ▸ hsync)
    | true => exact Life.after_of_est (h.est hsync)
  rw [hafter]
  exact ⟨hs ▸ h.alive, hs ▸ h.synSent, hs ▸ h.synRcvd, hs ▸ h.est, hs ▸ h.heard⟩

theorem Conn.Phase.established {p : Packet}
    (hseg : (Promise.peer iss out sent).segment p s) (hrst : has s.flags flagRst = false)
    (hs : c'.state = .established) : c'.Phase (l.after c') sent := by
  refine ⟨?_, ?_, ?_, fun hsync => ?_, fun _ => ⟨s, ⟨p, hseg.1, hseg.2.1⟩, hrst⟩⟩
  · rw [hs]
    exact ⟨nofun, nofun⟩
  · rw [hs]
    nofun
  · rw [hs]
    nofun
  · simp [Life.after, hsync]

theorem Conn.Phase.event (he : c.Event (.peer iss out sent) ps o inp c') (h : c.Phase l sent)
    (hused : c'.used = true) : c'.Phase (l.after c') sent := by
  cases he with
  | accept | send | recv n => exact h.of_state rfl
  | close hs _ =>
    refine h.synchronized ?_ ?_
    · rcases hs with ⟨hs, -⟩ | ⟨hs, -⟩ <;> rw [hs] <;> rfl
    · rcases hs with ⟨-, rfl⟩ | ⟨-, rfl⟩ <;> rfl
  | connect hseg hrst hack _ =>
    obtain ⟨-, -, -, rfl⟩ := Conn.onAck_connected hack
    exact .established hseg hrst rfl
  | ack hseg hrst hack =>
    rcases Conn.onAck_passed hack with rfl | ⟨-, hs, -, rfl⟩ | ⟨-, -, -, -, rfl⟩
    · exact h.of_state rfl
    · exact .established hseg hrst rfl
    · exact h.of_state rfl
  | data _ _ _ _ =>
    refine h.of_state ?_
    unfold Conn.onData
    split <;> rfl
  | @fin p s _ _ hrecv _ _ =>
    refine h.synchronized (State.receives_spec hrecv).1 ?_
    rcases Conn.afterFin_cases (c := (c.onFin s).advance flagAck []) hrecv with
      ⟨-, heq⟩ | ⟨-, heq⟩ | ⟨-, heq⟩ <;> rw [heq] <;> rfl
  | complete =>
    rcases c.complete_cases with heq | ⟨hs, -, heq⟩ | ⟨hs, -, heq⟩ <;> rw [heq]
    · exact h.of_state rfl
    · exact h.synchronized (by rw [hs]; rfl) rfl
    · exact h.synchronized (by rw [hs]; rfl) rfl
  | release => cases hused
  | waiting t | timer t | resend => exact h.of_state rfl

theorem Conn.Event.acknowledged (he : c.Event (.peer iss out sent) ps o inp c')
    (h : c.Phase l sent) (hest : (l.after c').est = true) :
    l.est = true ∨ ∃ s, Read sent s ∧ has s.flags flagRst = false ∧ has s.flags flagAck = true := by
  by_cases hsync : c.state.synchronized = true
  · exact .inl (h.est hsync)
  by_cases hold : l.est = true
  · exact .inl hold
  have hnew : c'.state.synchronized = true := by simpa [Life.after, hold] using hest
  refine .inr ?_
  cases he with
  | accept | send | recv n => exact absurd hnew hsync
  | close hs _ => rcases hs with ⟨hs, -⟩ | ⟨hs, -⟩ <;> rw [hs] at hsync <;> exact absurd rfl hsync
  | @connect p s c₁ hseg hrst hack _ =>
    exact ⟨s, ⟨p, hseg.1, hseg.2.1⟩, hrst, (Conn.onAck_connected hack).1⟩
  | @ack p s c₁ hseg hrst hack =>
    rcases Conn.onAck_passed hack with rfl | ⟨hflag, -⟩ | ⟨-, -, -, -, rfl⟩
    · exact absurd hnew hsync
    · exact ⟨s, ⟨p, hseg.1, hseg.2.1⟩, hrst, hflag⟩
    · exact absurd hnew hsync
  | data _ _ hrecv _ | fin _ _ hrecv _ _ => exact absurd (State.receives_spec hrecv).1 hsync
  | complete =>
    rcases c.complete_cases with heq | ⟨hs, -, heq⟩ | ⟨hs, -, heq⟩
    · exact absurd (heq ▸ hnew) hsync
    · rw [hs] at hsync
      exact absurd rfl hsync
    · rw [hs] at hsync
      exact absurd rfl hsync
  | release => cases hnew
  | waiting t | timer t | resend => exact absurd hnew hsync

end Tcp
