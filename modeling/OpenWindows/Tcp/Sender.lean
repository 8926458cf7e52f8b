import OpenWindows.Tcp.Receiver

/-!
# The send sequence

`snd_nxt` counts what a connection has sent: its SYN, the bytes of `tcp_send` and
its FIN.  This holds whatever the peer sends and whatever the caller does.
-/

namespace Tcp

/-- The numbers a FIN of our own takes. -/
def State.finSent : State → Nat
  | .finWait1 | .finWait2 | .closing | .lastAck | .timeWait => 1
  | _ => 0

def synFin (flags : UInt8) : Nat :=
  (if has flags flagSyn then 1 else 0) + (if has flags flagFin then 1 else 0)

theorem Conn.advance_sndNxt (c : Conn) (flags : UInt8) (payload : List UInt8) :
    (c.advance flags payload).sndNxt =
      c.sndNxt + UInt32.ofNat (payload.length + synFin flags) := by
  unfold Conn.advance synFin
  dsimp only
  rw [UInt32.ofNat_add, UInt32.ofNat_add]
  split <;> split <;> simp [UInt32.add_assoc]

/-- A bare acknowledgement takes no number. -/
theorem Conn.advance_ack (c : Conn) :
    c.advance flagAck [] = { c with acks := c.rcvNxt :: c.acks } := by
  have hnxt : (c.advance flagAck []).sndNxt = c.sndNxt := by
    rw [Conn.advance_sndNxt]
    exact UInt32.add_zero _
  have hstream : c.stream ++ [] = c.stream := List.append_nil _
  calc c.advance flagAck []
      = { c with
          sndNxt := (c.advance flagAck []).sndNxt
          acks := c.rcvNxt :: c.acks
          stream := c.stream ++ [] } := rfl
    _ = { c with acks := c.rcvNxt :: c.acks } := by rw [hnxt, hstream]

/-- The send sequence counts what was sent. -/
structure Conn.Numbered (c : Conn) : Prop where
  count : c.state ≠ .closed →
    c.sndNxt = c.iss + 1 + UInt32.ofNat (c.stream.length + c.state.finSent)
  opening : c.state = .synSent → c.stream = []
  unused : c.used = false → c.state = .closed

theorem Conn.Numbered.zero : Conn.zero.Numbered where
  count h := absurd rfl h
  opening := nofun
  unused _ := rfl

section

variable {c c' : Conn} {P : Promise}

theorem Conn.Numbered.used (h : c.Numbered) (hs : c.state ≠ .closed) : c.used = true := by
  by_contra hu
  exact hs (h.unused (by simpa using hu))

theorem Conn.Numbered.sndNxt (h : c.Numbered)
    (hs : c.state = .established ∨ c.state = .closeWait) :
    c.sndNxt = c.iss + 1 + UInt32.ofNat c.stream.length := by
  have hcount := h.count (by rcases hs with hs | hs <;> rw [hs] <;> nofun)
  rcases hs with hs | hs
  · rwa [hs] at hcount
  · rwa [hs] at hcount

theorem Conn.Numbered.save {flags : UInt8} {payload : List UInt8}
    (hlen : payload.length ≤ maxSegment)
    (hcount : c.sndNxt + UInt32.ofNat (payload.length + synFin flags) =
      c.iss + 1 + UInt32.ofNat (c.stream.length + payload.length + c.state.finSent))
    (hopening : c.state = .synSent → c.stream ++ payload = [])
    (hused : c.used = true) : (c.save flags payload hlen).Numbered where
  count _ := by
    have hnxt : (c.save flags payload hlen).sndNxt =
        c.sndNxt + UInt32.ofNat (payload.length + synFin flags) := c.advance_sndNxt flags payload
    rw [hnxt, hcount]
    show _ = c.iss + 1 + UInt32.ofNat ((c.stream ++ payload).length + c.state.finSent)
    rw [List.length_append]
  opening := hopening
  unused h := absurd (hused.symm.trans h) nofun

theorem Conn.Numbered.setState (h : c.Numbered) (state : State) (t : UInt32)
    (hopen : c.state ≠ .closed) (hsent : state ≠ .synSent)
    (hfin : state.finSent = c.state.finSent) :
    Conn.Numbered { c with state := state, timeWaitTimer := t } where
  count _ := by
    rw [hfin]
    exact h.count hopen
  opening heq := absurd heq hsent
  unused hu := absurd (h.unused hu) hopen

theorem Conn.Numbered.opens {p : Packet} (h : Conn.Opens P p c) : c.Numbered := by
  cases h with
  | active iss lip lport rip rport =>
    exact .save _ (UInt32.add_zero _).symm (fun _ => rfl) rfl
  | passive iss => exact .save _ (UInt32.add_zero _).symm nofun rfl

theorem Conn.Numbered.onAck (h : c.Numbered) {s : Segment} (hack : c.onAck s = .passed c') :
    c'.Numbered := by
  rcases Conn.onAck_passed hack with rfl | ⟨-, hs, -, rfl⟩ | ⟨-, -, -, -, rfl⟩
  · exact h
  · have hset := h.setState .established c.timeWaitTimer (by rw [hs]; nofun) nofun (by rw [hs]; rfl)
    exact ⟨hset.count, hset.opening, hset.unused⟩
  · exact ⟨h.count, h.opening, h.unused⟩

theorem Conn.Numbered.complete (h : c.Numbered) : c.complete.Numbered := by
  rcases c.complete_cases with heq | ⟨hs, -, heq⟩ | ⟨hs, -, heq⟩ <;> rw [heq]
  · exact h
  · exact h.setState .finWait2 c.timeWaitTimer (by rw [hs]; nofun) nofun (by rw [hs]; rfl)
  · exact h.setState .timeWait timeWaitTicks (by rw [hs]; nofun) nofun (by rw [hs]; rfl)

theorem Conn.Numbered.afterFin (h : c.Numbered) (hrecv : c.state.receives = true) :
    c.afterFin.Numbered := by
  rcases Conn.afterFin_cases hrecv with ⟨hs, heq⟩ | ⟨hs, heq⟩ | ⟨hs, heq⟩ <;> rw [heq]
  · exact h.setState .closeWait c.timeWaitTimer (by rw [hs]; nofun) nofun (by rw [hs]; rfl)
  · exact h.setState .closing c.timeWaitTimer (by rw [hs]; nofun) nofun (by rw [hs]; rfl)
  · exact h.setState .timeWait timeWaitTicks (by rw [hs]; nofun) nofun (by rw [hs]; rfl)

theorem Conn.Numbered.event {ps : List Packet} {out inp : List UInt8}
    (he : Conn.Event P c ps out inp c') (h : c.Numbered) : c'.Numbered := by
  cases he with
  | accept => exact ⟨h.count, h.opening, h.unused⟩
  | @send data hlen hs hnil hp =>
    have hfin : c.state.finSent = 0 := by rcases hs with hs | hs <;> rw [hs] <;> rfl
    refine .save hlen ?_ ?_ (h.used ?_)
    · rw [h.sndNxt hs, hfin, Nat.add_zero, UInt32.ofNat_add c.stream.length, ← UInt32.add_assoc]
      rfl
    · intro heq
      rcases hs with hs | hs <;> exact absurd (hs.symm.trans heq) nofun
    · rcases hs with hs | hs <;> rw [hs] <;> nofun
  | recv n => exact ⟨h.count, h.opening, h.unused⟩
  | @close state hs _ =>
    have hnxt := h.sndNxt (hs.imp And.left And.left)
    have hfin : state.finSent = 1 := by rcases hs with ⟨-, rfl⟩ | ⟨-, rfl⟩ <;> rfl
    refine .save _ ?_ ?_ (h.used ?_)
    · show c.sndNxt + UInt32.ofNat 1 = c.iss + 1 + UInt32.ofNat (c.stream.length + state.finSent)
      rw [hnxt, hfin, UInt32.ofNat_add c.stream.length, ← UInt32.add_assoc]
    · intro heq
      rcases hs with ⟨-, rfl⟩ | ⟨-, rfl⟩ <;> cases heq
    · rcases hs with ⟨hs, -⟩ | ⟨hs, -⟩ <;> rw [hs] <;> nofun
  | connect _ _ hack _ =>
    obtain ⟨-, hs, -, rfl⟩ := Conn.onAck_connected hack
    have hset := h.setState .established c.timeWaitTimer (by rw [hs]; nofun) nofun
      (by rw [hs]; rfl)
    rw [Conn.advance_ack]
    exact ⟨hset.count, hset.opening, hset.unused⟩
  | ack _ _ hack => exact h.onAck hack
  | @data p s _ _ hrecv _ =>
    rw [Conn.advance_ack]
    unfold Conn.onData
    split
    · exact ⟨h.count, h.opening, h.unused⟩
    · exact ⟨h.count, h.opening, h.unused⟩
  | fin _ _ hrecv _ _ =>
    refine Conn.Numbered.afterFin ?_ hrecv
    rw [Conn.advance_ack]
    exact ⟨h.count, h.opening, h.unused⟩
  | complete => exact h.complete
  | release => exact .zero
  | waiting t | timer t | resend => exact ⟨h.count, h.opening, h.unused⟩

end

/-! ## The retransmit buffer

A connection has one buffer for retransmission, which serves its SYN, its data
and its FIN.  As long as something is unacknowledged, the segment in the buffer
has to cover it, since `tcp_tick` sends this segment and no other.

`tcp_send` refuses data while a segment is outstanding.  `tcp_close` has no such
test: it puts the FIN over the segment, and data that the peer has not
acknowledged is lost.  When no connection is closed with a segment outstanding,
the buffer covers what is unacknowledged in every state.
-/

section

open StepSystem

/-! ### Sequence numbers near each other -/

theorem seqDiff_add (x : UInt32) (p q : Nat) :
    seqDiff (x + UInt32.ofNat p) (x + UInt32.ofNat q) = ((p : Int) - q).bmod (2 ^ 32) := by
  have hsub : x + UInt32.ofNat p - (x + UInt32.ofNat q) = UInt32.ofNat p - UInt32.ofNat q := by
    grind
  rw [seqDiff, hsub, UInt32.toBitVec_sub, BitVec.toInt_sub]
  show Int.bmod ((BitVec.ofNat 32 p).toInt - (BitVec.ofNat 32 q).toInt) (2 ^ 32) = _
  rw [BitVec.toInt_ofNat', BitVec.toInt_ofNat', Int.bmod_sub_bmod, Int.sub_bmod_bmod]

theorem seqDiff_near (x : UInt32) {p q : Nat} (hp : p < 2 ^ 31) (hq : q < 2 ^ 31) :
    seqDiff (x + UInt32.ofNat p) (x + UInt32.ofNat q) = (p : Int) - q := by
  rw [seqDiff_add, Int.bmod_def]
  split <;> omega

theorem acked_within {x a : UInt32} {m n : Nat} (hmn : m ≤ n) (hn : n < 2 ^ 31)
    (hgt : seqGt a (x + UInt32.ofNat m) = true) (hle : seqLe a (x + UInt32.ofNat n) = true) :
    ∃ m', m < m' ∧ m' ≤ n ∧ a = x + UInt32.ofNat m' := by
  obtain ⟨d, hd, rfl⟩ : ∃ d, d < 2 ^ 32 ∧ a = x + UInt32.ofNat (m + d) := by
    refine ⟨(a - (x + UInt32.ofNat m)).toNat, UInt32.toNat_lt _, ?_⟩
    rw [UInt32.ofNat_add, UInt32.ofNat_toNat]
    grind
  have hgt : 0 < seqDiff (x + UInt32.ofNat (m + d)) (x + UInt32.ofNat m) := of_decide_eq_true hgt
  have hle : seqDiff (x + UInt32.ofNat (m + d)) (x + UInt32.ofNat n) ≤ 0 := of_decide_eq_true hle
  rw [seqDiff_add, Int.bmod_def] at hgt hle
  refine ⟨m + d, ?_, ?_, rfl⟩
  · split at hgt <;> omega
  · split at hgt <;> split at hle <;> omega

theorem ofNat_inj_near {x : UInt32} {p q : Nat} (hp : p < 2 ^ 31) (hq : q < 2 ^ 31)
    (h : x + UInt32.ofNat p = x + UInt32.ofNat q) : p = q := by
  have hp' := seqDiff_near x hp hq
  rw [h, seqDiff_near x hq hq] at hp'
  omega

/-! ### What the buffer covers -/

/-- The unacknowledged numbers of a connection are those of the saved segment, and
the bytes of `tcp_send` from its first number on are its payload. -/
structure Conn.Covered (c : Conn) : Prop where
  pending : c.sndUna ≠ c.sndNxt → c.txPending = true
  first : c.sndUna ≠ c.sndNxt → seqLe c.txSeq c.sndUna = true
  last : c.sndUna ≠ c.sndNxt → c.txEndSeq = c.sndNxt
  bytes : c.sndUna ≠ c.sndNxt → ∃ acked, c.stream = acked ++ c.txBuf.bytes.drop hdrLen ∧
    (c.txSeq = c.iss + 1 + UInt32.ofNat acked.length ∨ (c.txSeq = c.iss ∧ acked = []))

/-- `tcp_tick` works on what connection `i` has unacknowledged: it sends the saved
segment when the timer runs out, and else the timer comes closer to that. -/
def Retransmits (tx : IpTx) (k : Core) (i : Nat) : Prop :=
  ∀ elapsed, (k.conns i).sndUna ≠ (k.conns i).sndNxt →
    if (k.conns i).rtoTimer ≤ elapsed then
      ∃ new, (k.next tx (.tick elapsed)).sent = new ++ k.sent ∧ (k.conns i).savedPacket ∈ new
    else (k.next tx (.tick elapsed)).conns i =
      { k.conns i with rtoTimer := (k.conns i).rtoTimer - elapsed }

/-- `tcp_close` finds no segment outstanding on a connection it sends a FIN on. -/
def ClosesIdle (k : Core) : Op → Prop
  | .close id => ∀ i, connAt k id = some i →
      (k.conns i).state = .established ∨ (k.conns i).state = .closeWait →
      (k.conns i).txPending = false
  | _ => True

/-- A connection is closed with no segment outstanding. -/
def Promise.closesIdle : Promise :=
  { Promise.trivial with close := fun c => c.txPending = false }

/-! ### The invariant -/

/-- What is sent and not acknowledged is what is saved. -/
structure Conn.Sends (c : Conn) : Prop where
  numbered : c.Numbered
  idle : c.txPending = false → c.sndUna = c.sndNxt
  span : c.txPending = true → ∃ m n, m < n ∧ n < 2 ^ 31 ∧
    c.sndUna = c.txSeq + UInt32.ofNat m ∧ c.sndNxt = c.txSeq + UInt32.ofNat n
  last : c.txPending = true → c.txEndSeq = c.sndNxt
  bytes : c.txPending = true → ∃ acked, c.stream = acked ++ c.txBuf.bytes.drop hdrLen ∧
    (c.txSeq = c.iss + 1 + UInt32.ofNat acked.length ∨ (c.txSeq = c.iss ∧ acked = []))
  flushed : c.state = .closed ∨ c.state = .finWait2 ∨ c.state = .timeWait → c.txPending = false

theorem Conn.Sends.zero : Conn.zero.Sends where
  numbered := .zero
  idle _ := rfl
  span := nofun
  last := nofun
  bytes := nofun
  flushed _ := rfl

variable {c : Conn}

/-- Something is unacknowledged exactly when a segment is saved. -/
theorem Conn.Sends.pending_iff (h : c.Sends) :
    c.txPending = true ↔ c.sndUna ≠ c.sndNxt := by
  constructor
  · intro hp heq
    obtain ⟨m, n, hmn, hn, huna, hnxt⟩ := h.span hp
    rw [huna, hnxt] at heq
    have := ofNat_inj_near (by omega) hn heq
    omega
  · intro hne
    by_contra hp
    exact hne (h.idle (by simpa using hp))

theorem Conn.Sends.covered (h : c.Sends) : c.Covered where
  pending := h.pending_iff.mpr
  first hne := by
    obtain ⟨m, n, hmn, hn, huna, -⟩ := h.span (h.pending_iff.mpr hne)
    have hseq : c.txSeq = c.txSeq + UInt32.ofNat 0 := (UInt32.add_zero _).symm
    rw [seqLe, huna, hseq, UInt32.add_assoc, ← UInt32.ofNat_add, seqDiff_near _ (by omega) (by omega)]
    simp
  last hne := h.last (h.pending_iff.mpr hne)
  bytes hne := h.bytes (h.pending_iff.mpr hne)

/-! ### Events -/

theorem Conn.Sends.save {flags : UInt8} {payload : List UInt8}
    {hlen : payload.length ≤ maxSegment} (hnumbered : (c.save flags payload hlen).Numbered)
    (hidle : c.sndUna = c.sndNxt) (hpos : 0 < payload.length + synFin flags)
    (hfirst : c.sndNxt = c.iss + 1 + UInt32.ofNat c.stream.length ∨
      (c.sndNxt = c.iss ∧ c.stream = []))
    (hstate : c.state ≠ .closed ∧ c.state ≠ .finWait2 ∧ c.state ≠ .timeWait) :
    (c.save flags payload hlen).Sends := by
  have hsyn : synFin flags ≤ 2 := by
    unfold synFin
    split <;> split <;> omega
  refine ⟨hnumbered, nofun, fun _ => ?_, fun _ => rfl, fun _ => ?_, ?_⟩
  · refine ⟨0, payload.length + synFin flags, hpos, ?_, ?_, c.advance_sndNxt flags payload⟩
    · unfold maxSegment at hlen
      omega
    · exact hidle.trans (UInt32.add_zero _).symm
  · refine ⟨c.stream, ?_, hfirst⟩
    show c.stream ++ payload = c.stream ++ List.drop hdrLen (Header.withSum _ _ _)
    rw [Header.drop_withSum]
  · rintro (h | h | h)
    · exact absurd h hstate.1
    · exact absurd h hstate.2.1
    · exact absurd h hstate.2.2

theorem Conn.Sends.opens {P : Promise} {p : Packet} (h : Conn.Opens P p c) :
    c.Sends := by
  have hnumbered := Conn.Numbered.opens h
  cases h with
  | active iss lip lport rip rport =>
    exact .save hnumbered rfl Nat.one_pos (.inr ⟨rfl, rfl⟩) ⟨nofun, nofun, nofun⟩
  | passive iss => exact .save hnumbered rfl Nat.one_pos (.inr ⟨rfl, rfl⟩) ⟨nofun, nofun, nofun⟩

theorem Conn.Sends.onAck {c c' : Conn} (h : c.Sends) {s : Segment}
    (hack : c.onAck s = .passed c') : c'.Sends := by
  have hnumbered := h.numbered.onAck hack
  rcases Conn.onAck_passed hack with rfl | ⟨-, hstate, hseq, rfl⟩ | ⟨hsent, hrcvd, hgt, hle, rfl⟩
  · exact h
  · exact ⟨hnumbered, fun _ => hseq, nofun, nofun, nofun, fun _ => rfl⟩
  · -- nothing is new on an idle connection
    cases hp : c.txPending with
    | false =>
      have hidle := h.idle hp
      have hgt : 0 < seqDiff s.ack c.sndUna := of_decide_eq_true hgt
      have hle : seqDiff s.ack c.sndNxt ≤ 0 := of_decide_eq_true hle
      rw [hidle] at hgt
      omega
    | true =>
      rw [hp] at hnumbered
      obtain ⟨m, n, hmn, hn, huna, hnxt⟩ := h.span hp
      rw [huna] at hgt
      rw [hnxt] at hle
      obtain ⟨m', hm, hmn', hseq⟩ := acked_within (by omega) hn hgt hle
      have hge : seqGe s.ack c.txEndSeq = decide (n ≤ m') := by
        rw [seqGe, h.last hp, hnxt, hseq, seqDiff_near _ (by omega) hn]
        simp
      have hrest : (true && !seqGe s.ack c.txEndSeq) = decide (m' < n) := by
        rw [hge, Bool.true_and, ← decide_not]
        simp only [Nat.not_le]
      refine ⟨hnumbered, fun hf => ?_, fun ht => ?_, fun _ => h.last hp, fun _ => h.bytes hp,
        fun hs => ?_⟩
      · have hall : ¬ m' < n := by simpa [hrest] using hf
        have hm' : m' = n := by omega
        show s.ack = c.sndNxt
        rw [hseq, hnxt, hm']
      · have hsome : m' < n := by simpa [hrest] using ht
        exact ⟨m', n, hsome, hn, hseq, hnxt⟩
      · exact absurd ((h.flushed hs).symm.trans hp) nofun

/-- Everything is acknowledged. -/
theorem Conn.Sends.flushed_of_ge (h : c.Sends)
    (hge : seqGe c.sndUna c.sndNxt = true) : c.txPending = false := by
  by_contra hp
  obtain ⟨m, n, hmn, hn, huna, hnxt⟩ := h.span (by simpa using hp)
  have hge : 0 ≤ seqDiff c.sndUna c.sndNxt := of_decide_eq_true hge
  rw [huna, hnxt, seqDiff_near _ (by omega) hn] at hge
  omega

theorem Conn.Sends.complete (h : c.Sends) : c.complete.Sends := by
  have hnumbered := h.numbered.complete
  rcases c.complete_cases with heq | ⟨-, hge, heq⟩ | ⟨-, hge, heq⟩ <;> rw [heq] at hnumbered ⊢
  · exact h
  · exact ⟨hnumbered, h.idle, h.span, h.last, h.bytes, fun _ => h.flushed_of_ge hge⟩
  · exact ⟨hnumbered, h.idle, h.span, h.last, h.bytes, fun _ => h.flushed_of_ge hge⟩

theorem Conn.Sends.afterFin (h : c.Sends) (hrecv : c.state.receives = true) :
    c.afterFin.Sends := by
  have hnumbered := h.numbered.afterFin hrecv
  rcases Conn.afterFin_cases hrecv with ⟨-, heq⟩ | ⟨-, heq⟩ | ⟨hs, heq⟩ <;>
    rw [heq] at hnumbered ⊢
  · exact ⟨hnumbered, h.idle, h.span, h.last, h.bytes, by rintro (h | h | h) <;> cases h⟩
  · exact ⟨hnumbered, h.idle, h.span, h.last, h.bytes, by rintro (h | h | h) <;> cases h⟩
  · exact ⟨hnumbered, h.idle, h.span, h.last, h.bytes, fun _ => h.flushed (.inr (.inl hs))⟩

variable {out inp : List UInt8} {k : Core} {tx : IpTx}

theorem Conn.Sends.event {c c' : Conn} {ps : List Packet}
    (he : Conn.Event .closesIdle c ps out inp c') (h : c.Sends) : c'.Sends := by
  have hnumbered := h.numbered.event he
  cases he with
  | accept => exact ⟨hnumbered, h.idle, h.span, h.last, h.bytes, h.flushed⟩
  | @send data hlen hs hnil hp =>
    refine .save hnumbered (h.idle hp) ?_ (.inl (h.numbered.sndNxt hs)) ?_
    · exact Nat.add_pos_left (List.length_pos_of_ne_nil hnil) _
    · rcases hs with hs | hs <;> rw [hs] <;> exact ⟨nofun, nofun, nofun⟩
  | recv n => exact ⟨hnumbered, h.idle, h.span, h.last, h.bytes, h.flushed⟩
  | @close state hs hp =>
    have hnxt := h.numbered.sndNxt (hs.imp And.left And.left)
    refine .save hnumbered (h.idle hp) Nat.one_pos (.inl hnxt) ?_
    rcases hs with ⟨-, rfl⟩ | ⟨-, rfl⟩ <;> exact ⟨nofun, nofun, nofun⟩
  | connect _ _ hack _ =>
    obtain ⟨-, hs, hseq, rfl⟩ := Conn.onAck_connected hack
    have hcount := h.numbered.count (by rw [hs]; nofun)
    rw [hs, h.numbered.opening hs] at hcount
    have hnxt : c.sndNxt = c.iss + 1 := hcount.trans (UInt32.add_zero _)
    rw [Conn.advance_ack] at hnumbered ⊢
    exact ⟨hnumbered, fun _ => hseq.trans hnxt.symm, nofun, nofun, nofun, fun _ => rfl⟩
  | ack _ _ hack => exact h.onAck hack
  | data _ _ _ _ =>
    rw [Conn.advance_ack] at hnumbered ⊢
    unfold Conn.onData at hnumbered ⊢
    split at hnumbered
    next hdata =>
      rw [dif_pos hdata]
      exact ⟨hnumbered, h.idle, h.span, h.last, h.bytes, h.flushed⟩
    next hdata =>
      rw [dif_neg hdata]
      exact ⟨hnumbered, h.idle, h.span, h.last, h.bytes, h.flushed⟩
  | @fin p s _ _ hrecv _ _ =>
    have hn := h.numbered
    refine Conn.Sends.afterFin ?_ hrecv
    rw [Conn.advance_ack]
    exact ⟨⟨hn.count, hn.opening, hn.unused⟩, h.idle, h.span, h.last, h.bytes, h.flushed⟩
  | complete => exact h.complete
  | release => exact .zero
  | waiting t | timer t | resend => exact ⟨hnumbered, h.idle, h.span, h.last, h.bytes, h.flushed⟩

/-! ### Retransmission -/

/-- What is on the wire stays there. -/
theorem Core.Steps.sent_append {P : Promise} {k k' : Core}
    (h : k.Steps P out inp k') : ∃ new, k'.sent = new ++ k.sent := by
  induction h with
  | refl => exact ⟨[], rfl⟩
  | tail _ hstep ih =>
    obtain ⟨new, hnew⟩ := ih
    cases hstep with
    | @conn i c ps out inp he => exact ⟨ps ++ new, by simp [hnew]⟩
    | @opens i c p hfree ho => exact ⟨p :: new, by simp [hnew]⟩
    | reset src dst hrst hsyn => exact ⟨_ :: new, congrArg (List.cons _) hnew⟩
    | quiet => exact ⟨new, hnew⟩

theorem Core.Steps.initialized {P : Promise} {k k' : Core}
    (h : k.Steps P out inp k') : k'.initialized = k.initialized := by
  induction h with
  | refl => rfl
  | tail _ hstep ih => cases hstep <;> exact ih

theorem release_conns_of_ne {i j : Nat} (h : i ≠ j) : (release k j).conns i = k.conns i := by
  unfold release
  dsimp only
  split
  · simp [Core.setConn, h, Core.unpend_conns]
  · simp [Core.setConn, h]

theorem tickConn_conns_of_ne {elapsed : UInt32} {i j : Nat} (h : i ≠ j) :
    (tickConn tx elapsed k j).conns i = k.conns i := by
  unfold tickConn
  dsimp only
  split
  · rfl
  · split
    · split
      · exact release_conns_of_ne h
      · simp [Core.setConn, h]
    · split
      · rfl
      · split
        · simp [Core.setConn, Core.transmit, h]
        · simp [Core.setConn, h]

theorem tickLoop_conns_of_notMem {elapsed : UInt32} {i : Nat} (slots : List Nat)
    (h : i ∉ slots) (k : Core) : (slots.foldl (tickConn tx elapsed) k).conns i = k.conns i := by
  induction slots generalizing k with
  | nil => rfl
  | cons j slots ih =>
    obtain ⟨hij, hrest⟩ := List.ne_and_not_mem_of_not_mem_cons h
    rw [List.foldl_cons, ih hrest, tickConn_conns_of_ne hij]

theorem tcpTick_turn (tx : IpTx) (elapsed : UInt32) {i : Nat}
    (hinit : k.initialized = true) (hi : i < maxConns) :
    ∃ k₁ new₁ new₂, k₁.conns i = k.conns i ∧ k₁.sent = new₁ ++ k.sent ∧
      (k.next tx (.tick elapsed)).sent = new₂ ++ (tickConn tx elapsed k₁ i).sent ∧
      (k.next tx (.tick elapsed)).conns i = (tickConn tx elapsed k₁ i).conns i := by
  obtain ⟨before, after, hslots⟩ := List.append_of_mem (List.mem_range.mpr hi)
  have hnodup : (before ++ i :: after).Nodup := hslots ▸ List.nodup_range
  obtain ⟨-, htail, hdisj⟩ := List.nodup_append.mp hnodup
  have hbefore : i ∉ before := fun hmem => hdisj i hmem i List.mem_cons_self rfl
  have hafter : i ∉ after := (List.nodup_cons.mp htail).1
  have htick : k.next tx (.tick elapsed) = after.foldl (tickConn tx elapsed)
      (tickConn tx elapsed (before.foldl (tickConn tx elapsed) k) i) := by
    show (tcpTick tx k elapsed).2 = _
    rw [tcpTick, hinit, hslots, List.foldl_append]
    rfl
  obtain ⟨new₁, hnew₁⟩ :=
    (@tickLoop_steps .trivial tx elapsed before k).sent_append
  obtain ⟨new₂, hnew₂⟩ := (@tickLoop_steps .trivial tx elapsed after
    (tickConn tx elapsed (before.foldl (tickConn tx elapsed) k) i)).sent_append
  refine ⟨_, new₁, new₂, tickLoop_conns_of_notMem before hbefore k, hnew₁, ?_, ?_⟩
  · rw [htick, hnew₂]
  · rw [htick, tickLoop_conns_of_notMem after hafter]

theorem Conn.Sends.retransmits {i : Nat} (h : (k.conns i).Sends)
    (hinit : k.initialized = true) (hi : i < maxConns) : Retransmits tx k i := by
  intro elapsed hne
  have hp := h.pending_iff.mpr hne
  have hused : (k.conns i).used = true := by
    by_contra hu
    have hflushed := h.flushed (.inl (h.numbered.unused (by simpa using hu)))
    rw [hp] at hflushed
    cases hflushed
  have hwait : (k.conns i).state ≠ .timeWait := by
    intro hs
    have hflushed := h.flushed (.inr (.inr hs))
    rw [hp] at hflushed
    cases hflushed
  obtain ⟨k₁, new₁, new₂, hconn, hsent₁, hsent, hconns⟩ :=
    tcpTick_turn tx elapsed hinit hi
  have hturn : tickConn tx elapsed k₁ i =
      if (k.conns i).rtoTimer ≤ elapsed then
        (k₁.transmit tx (k.conns i).savedPacket).2.setConn i (k.conns i).backoff
      else k₁.setConn i { k.conns i with rtoTimer := (k.conns i).rtoTimer - elapsed } := by
    rw [tickConn, hconn]
    simp [hused, hwait, hp]
  split
  next hle =>
    rw [if_pos hle] at hturn
    refine ⟨new₂ ++ (k.conns i).savedPacket :: new₁, ?_, by simp⟩
    rw [hsent, hturn]
    show new₂ ++ (k.conns i).savedPacket :: k₁.sent = _
    rw [hsent₁]
    simp
  next hgt =>
    rw [if_neg hgt] at hturn
    rw [hconns, hturn]
    simp [Core.setConn]

/-! ### Runs -/

theorem ClosesIdle.kept {op : Op} (h : ClosesIdle k op) : Promise.closesIdle.Kept tx k op := by
  cases op with
  | close id => exact h
  | input p =>
    exact fun s _ => ⟨trivial, fun _ _ _ => ⟨fun _ _ => trivial, fun _ _ _ _ _ => trivial⟩⟩
  | connect => trivial
  | listen => trivial
  | accept => trivial
  | send => trivial
  | recv => trivial
  | tick => trivial

/-- In every state that a run reaches in which no connection is closed with a
segment outstanding, the saved segment of every connection covers what is
unacknowledged, and `tcp_tick` sends it. -/
theorem unacked_covered (tx : IpTx) (ops : List Op) (k : Core)
    (h : Calls ClosesIdle (Core.next tx) .init ops k) :
    ∀ i < maxConns, (k.conns i).Covered ∧ Retransmits tx k i := by
  have hinv : k.initialized = true ∧ ∀ i, (k.conns i).Sends := by
    refine h.invariant (P := fun k => k.initialized = true ∧ ∀ i, (k.conns i).Sends) ?_
      ⟨rfl, fun _ => .zero⟩
    rintro k op ⟨hinit, hk⟩ hg
    obtain ⟨out, -, hsteps⟩ := @Core.next_steps .closesIdle tx k op hg.kept
    refine ⟨hsteps.initialized.trans hinit, ?_⟩
    exact fun i => Core.next_conn hg.kept (fun _ _ => .opens) (fun _ _ _ _ _ => .event) (hk i)
  obtain ⟨hinit, hsends⟩ := hinv
  exact fun i hi => ⟨(hsends i).covered, (hsends i).retransmits hinit hi⟩

/-- A segment is outstanding until the peer acknowledges it, and then the
connection is closed. -/
theorem unacked_covered_close :
    ∃ k k', Calls ClosesIdle (Core.next okTx) .init (handshake ++ [.send 1 [1, 2, 3]]) k ∧
      (k.conns 0).sndUna = 0x6318E1A1 ∧ (k.conns 0).sndNxt = 0x6318E1A4 ∧
      (k.conns 0).Covered ∧ Retransmits okTx k 0 ∧
      Calls ClosesIdle (Core.next okTx) .init
        (handshake ++ [.send 1 [1, 2, 3], .input (fromPeer 5001 0x6318E1A4 flagAck), .close 1]) k' ∧
      (k'.conns 0).state = .finWait1 ∧ (k'.conns 0).Covered ∧ Retransmits okTx k' 0 := by
  have hidle : ClosesIdle ((handshake ++
      [Op.send 1 [1, 2, 3], .input (fromPeer 5001 0x6318E1A4 flagAck)]).foldl (Core.next okTx) .init)
      (.close 1) := by
    intro i hi _
    have hslot : connAt ((handshake ++ [Op.send 1 [1, 2, 3],
        .input (fromPeer 5001 0x6318E1A4 flagAck)]).foldl (Core.next okTx) .init) 1 = some 0 := by
      decide
    cases Option.some.inj (hi.symm.trans hslot)
    decide
  have hsend : Calls ClosesIdle (Core.next okTx) .init
      ([] ++ [.connect 0x0100000A 1000 0x0200000A 80] ++
        [.input (fromPeer 5000 0x6318E1A1 (flagSyn ||| flagAck))] ++ [.send 1 [1, 2, 3]]) _ :=
    .snoc (.snoc (.snoc .nil trivial) trivial) trivial
  have hclose : Calls ClosesIdle (Core.next okTx) .init
      ([] ++ [.connect 0x0100000A 1000 0x0200000A 80] ++
        [.input (fromPeer 5000 0x6318E1A1 (flagSyn ||| flagAck))] ++ [.send 1 [1, 2, 3]] ++
        [.input (fromPeer 5001 0x6318E1A4 flagAck)] ++ [.close 1]) _ :=
    .snoc (.snoc hsend trivial) hidle
  obtain ⟨hcovered, hretransmits⟩ := unacked_covered okTx _ _ hsend 0 (by decide)
  obtain ⟨hcovered', hretransmits'⟩ := unacked_covered okTx _ _ hclose 0 (by decide)
  exact ⟨_, _, hsend, by decide, by decide, hcovered, hretransmits, hclose,
    by decide, hcovered', hretransmits'⟩

/-- A connection is closed while three bytes are outstanding. -/
theorem unacked_lost_close :
    ¬ ∀ i < maxConns, (((handshake ++ [Op.send 1 [1, 2, 3], .close 1]).foldl
      (Core.next okTx) .init).conns i).Covered := by
  intro h
  have hfirst := (h 0 (by decide)).first (by decide)
  revert hfirst
  decide

end

end Tcp
