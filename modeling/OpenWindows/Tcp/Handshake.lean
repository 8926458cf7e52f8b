import OpenWindows.Tcp.Sender

/-!
# The handshake

A connection learns the initial sequence number of its peer from the peer's SYN.
A child takes it from the segment that created it, which has the flag.  A
connection of `tcp_connect` takes it from the segment that acknowledges its own
SYN, and `tcp_input` does not test that this segment is a SYN.  A plain
acknowledgement of `iss + 1` establishes the connection, with a number that is no
initial sequence number of the peer.

When every segment that establishes a connection of `tcp_connect` has the flag,
`irs` and `rcv_nxt` of every established connection come from a SYN.
-/

namespace Tcp

open StepSystem

/-! ## Where the numbers come from -/

/-- The packets that were handed to `tcp_input`. -/
def delivered (ops : List Op) : List Packet :=
  ops.filterMap fun
    | .input p => some p
    | _ => none

/-- `irs` is the number of a SYN of the peer among the packets. -/
def Conn.FromSyn (heard : List Packet) (c : Conn) : Prop :=
  ∃ p ∈ heard, ∃ s, parseSegment p = some s ∧ has s.flags flagSyn = true ∧
    p.src = c.remoteIp ∧ s.srcPort = c.remotePort ∧ s.dstPort = c.localPort ∧ c.irs = s.seq

/-- A call that takes connection `i` from `SYN_SENT` to `ESTABLISHED` is
`tcp_input` of a SYN that acknowledges the connection's own. -/
def OpensOnSyn (k : Core) (op : Op) (k' : Core) (i : Nat) : Prop :=
  (k.conns i).state = .synSent → (k'.conns i).state = .established →
    ∃ p s, op = .input p ∧ parseSegment p = some s ∧ has s.flags flagSyn = true ∧
      has s.flags flagAck = true ∧ s.ack = (k.conns i).iss + 1 ∧ (k'.conns i).irs = s.seq ∧
      (k'.conns i).rcvNxt = s.seq + 1

/-- A segment that acknowledges the SYN of a connection in `SYN_SENT` is a SYN
or a reset. -/
def SynExpected (k : Core) : Op → Prop
  | .input p => ∀ s i, parseSegment p = some s → find k p.src s.srcPort p.dst s.dstPort = some i →
      (k.conns i).state = .synSent → has s.flags flagRst = false → has s.flags flagAck = true →
      s.ack = (k.conns i).iss + 1 → has s.flags flagSyn = true
  | _ => True

/-- Segments are read from packets that were heard, and a connection is
established by a SYN of its peer. -/
def Promise.syn (heard : List Packet) : Promise :=
  { Promise.trivial with
    segment := fun p s => p ∈ heard ∧ parseSegment p = some s
    connect := fun c s => ∃ p ∈ heard, parseSegment p = some s ∧ has s.flags flagSyn = true ∧
      p.src = c.remoteIp ∧ s.srcPort = c.remotePort ∧ s.dstPort = c.localPort }

/-! ## The invariant -/

/-- What a connection keeps of the SYN of its peer. -/
structure Conn.Heard (heard : List Packet) (c : Conn) : Prop where
  unused : c.used = false → c.state = .closed
  fresh : c.state = .synSent → c.placed = []
  irs : c.state = .synRcvd ∨ c.state = .established → c.FromSyn heard
  rcvNxt : c.state = .synRcvd ∨ c.state = .established →
    c.rcvNxt = c.irs + 1 + UInt32.ofNat c.placed.length

variable {heard heard' : List Packet}

variable {c : Conn} {s : Segment}

theorem Conn.FromSyn.mono (hsub : heard ⊆ heard') (h : c.FromSyn heard) : c.FromSyn heard' := by
  obtain ⟨p, hp, hsyn⟩ := h
  exact ⟨p, hsub hp, hsyn⟩

theorem Conn.Heard.mono (hsub : heard ⊆ heard') (h : c.Heard heard) : c.Heard heard' where
  unused := h.unused
  fresh := h.fresh
  irs hs := (h.irs hs).mono hsub
  rcvNxt := h.rcvNxt

theorem Conn.Heard.away (hused : c.used = false → c.state = .closed)
    (hsent : c.state ≠ .synSent) (hrcvd : c.state ≠ .synRcvd) (hest : c.state ≠ .established) :
    c.Heard heard where
  unused := hused
  fresh hs := absurd hs hsent
  irs := by rintro (hs | hs) <;> contradiction
  rcvNxt := by rintro (hs | hs) <;> contradiction

theorem Conn.Heard.zero : Conn.zero.Heard heard := .away (fun _ => rfl) nofun nofun nofun

theorem Conn.Heard.opens {p : Packet} {c : Conn} (h : Conn.Opens (.syn heard) p c) :
    c.Heard heard := by
  cases h with
  | active iss lip lport rip rport =>
    refine ⟨nofun, fun _ => rfl, ?_, ?_⟩
    · rintro (h | h) <;> cases h
    · rintro (h | h) <;> cases h
  | @passive iss p s hseg hsyn hack =>
    obtain ⟨hp, hs⟩ := hseg
    exact ⟨nofun, nofun, fun _ => ⟨p, hp, s, hs, hsyn, rfl, rfl, rfl, rfl⟩,
      fun _ => (UInt32.add_zero _).symm⟩

theorem Conn.Heard.used (h : c.Heard heard) (hs : c.state ≠ .closed) : c.used = true := by
  by_contra hu
  exact hs (h.unused (by simpa using hu))

theorem Conn.Heard.onAck {c c' : Conn} (h : c.Heard heard)
    (hack : c.onAck s = .passed c') : c'.Heard heard := by
  rcases Conn.onAck_passed hack with rfl | ⟨-, hstate, -, rfl⟩ | ⟨-, -, -, -, rfl⟩
  · exact h
  · refine ⟨fun hu => ?_, nofun, fun _ => h.irs (.inl hstate), fun _ => h.rcvNxt (.inl hstate)⟩
    exact absurd ((h.unused hu).symm.trans hstate) nofun
  · exact ⟨h.unused, h.fresh, h.irs, h.rcvNxt⟩

theorem Conn.Heard.onData (h : c.Heard heard) (s : Segment)
    (hrecv : c.state.receives = true) : (c.onData s).Heard heard := by
  obtain ⟨-, -, hsent⟩ := State.receives_spec hrecv
  unfold Conn.onData
  split
  next hdata =>
    refine ⟨h.unused, fun hs => absurd hs hsent, h.irs, fun hs => ?_⟩
    show c.rcvNxt + UInt32.ofNat s.payload.length =
      c.irs + 1 + UInt32.ofNat (c.placed ++ s.payload).length
    rw [List.length_append, UInt32.ofNat_add, ← UInt32.add_assoc, ← h.rcvNxt hs]
  · exact h

theorem Conn.Heard.complete (h : c.Heard heard) : c.complete.Heard heard := by
  rcases c.complete_cases with heq | ⟨hs, -, heq⟩ | ⟨hs, -, heq⟩ <;> rw [heq]
  · exact h
  · exact .away (fun hu => absurd ((h.unused hu).symm.trans hs) nofun) nofun nofun nofun
  · exact .away (fun hu => absurd ((h.unused hu).symm.trans hs) nofun) nofun nofun nofun

theorem Conn.Heard.event {c c' : Conn} {ps : List Packet} {out inp : List UInt8}
    (he : Conn.Event (.syn heard) c ps out inp c') (h : c.Heard heard) : c'.Heard heard := by
  cases he with
  | accept | send hlen hs | recv n => exact ⟨h.unused, h.fresh, h.irs, h.rcvNxt⟩
  | @close state hs _ =>
    refine .away (fun hu => ?_) ?_ ?_ ?_
    · rcases hs with ⟨hs, -⟩ | ⟨hs, -⟩ <;> exact absurd ((h.unused hu).symm.trans hs) nofun
    · rcases hs with ⟨-, rfl⟩ | ⟨-, rfl⟩ <;> nofun
    · rcases hs with ⟨-, rfl⟩ | ⟨-, rfl⟩ <;> nofun
    · rcases hs with ⟨-, rfl⟩ | ⟨-, rfl⟩ <;> nofun
  | @connect p s c₁ hseg _ hack hsyn =>
    obtain ⟨-, hs, -, rfl⟩ := Conn.onAck_connected hack
    obtain ⟨p, hp, hparse, hflag, hsrc, hport, hlport⟩ := hsyn
    rw [Conn.advance_ack]
    refine ⟨fun hu => ?_, nofun, fun _ => ?_, fun _ => ?_⟩
    · exact absurd ((h.unused hu).symm.trans hs) nofun
    · exact ⟨p, hp, s, hparse, hflag, hsrc, hport, hlport, rfl⟩
    · rw [h.fresh hs]
      exact (UInt32.add_zero _).symm
  | ack _ _ hack => exact h.onAck hack
  | @data p s _ _ hrecv _ =>
    rw [Conn.advance_ack]
    have hd := h.onData s hrecv
    exact ⟨hd.unused, hd.fresh, hd.irs, hd.rcvNxt⟩
  | @fin p s _ _ hrecv _ _ =>
    have hused : c.used = false → c.state.receives = false := fun hu => by rw [h.unused hu]; rfl
    rcases Conn.afterFin_cases (c := (c.onFin s).advance flagAck []) hrecv with
      ⟨-, heq⟩ | ⟨-, heq⟩ | ⟨-, heq⟩ <;> rw [heq] <;>
      exact .away (fun hu => absurd (hrecv.symm.trans (hused hu)) nofun) nofun nofun nofun
  | complete => exact h.complete
  | release => exact .zero
  | waiting t | timer t | resend => exact ⟨h.unused, h.fresh, h.irs, h.rcvNxt⟩

/-! ## Slots a segment does not touch -/

variable {tx : IpTx} {k : Core} {i j : Nat}

theorem tcpEmit_conns_of_ne {flags : UInt8} {payload : List UInt8} {save : Bool} (h : i ≠ j) :
    (tcpEmit tx k j flags payload save).2.conns i = k.conns i := by
  unfold tcpEmit
  split
  · simp [Core.transmit, Core.setConn, h]
  · rfl

theorem Core.modify_conns_of_ne {f : Conn → Conn} (h : i ≠ j) :
    (k.modify j f).conns i = k.conns i := Function.update_of_ne h ..

theorem inputComplete_conns_of_ne (h : i ≠ j) : (inputComplete k j).2.conns i = k.conns i := by
  unfold inputComplete
  dsimp only
  split
  · rw [release_conns_of_ne h, Core.modify_conns_of_ne h]
  · exact Core.modify_conns_of_ne h

theorem inputFin_conns_of_ne (h : i ≠ j) : (inputFin tx k j s).conns i = k.conns i := by
  unfold inputFin
  split
  · rw [Core.modify_conns_of_ne h, tcpEmit_conns_of_ne h, Core.modify_conns_of_ne h]
  · rfl

theorem inputData_conns_of_ne (h : i ≠ j) : (inputData tx k j s).2.conns i = k.conns i := by
  have hdata : (tcpEmit tx (k.modify j (·.onData s)) j flagAck [] false).2.conns i = k.conns i := by
    rw [tcpEmit_conns_of_ne h, Core.modify_conns_of_ne h]
  unfold inputData
  split
  · split
    · dsimp only
      split
      · exact hdata
      · rw [inputComplete_conns_of_ne h, inputFin_conns_of_ne h, hdata]
    · rw [inputComplete_conns_of_ne h, inputFin_conns_of_ne h]
  · exact inputComplete_conns_of_ne h

theorem inputConn_conns_of_ne (h : i ≠ j) : (inputConn tx k j s).2.conns i = k.conns i := by
  have hset : ∀ c, (k.setConn j c).conns i = k.conns i := fun c => Function.update_of_ne h ..
  unfold inputConn
  split
  · exact release_conns_of_ne h
  · split
    · rfl
    next c _ => rw [tcpEmit_conns_of_ne h, hset]
    next c _ => rw [inputData_conns_of_ne h, hset]

theorem passiveOpen_conns_of_used {lip rip seq : UInt32} {lport rport window : UInt16}
    (hused : (k.conns i).used = true) :
    (passiveOpen tx k lip lport rip rport seq window).2.conns i = k.conns i := by
  unfold passiveOpen
  split
  · rfl
  · split
    · rfl
    · split
      · rfl
      next j halloc =>
        have hij : i ≠ j := by
          rintro rfl
          rw [allocConn_unused halloc] at hused
          cases hused
        dsimp only
        rw [tcpEmit_conns_of_ne hij]
        simp [Core.install, Core.setConn, Core.setListener, nextIsn, hij]

theorem inputStray_conns_of_used {p : Packet} (hused : (k.conns i).used = true) :
    (inputStray tx k p s).2.conns i = k.conns i := by
  unfold inputStray
  split
  · exact passiveOpen_conns_of_used hused
  · split
    · rfl
    · rfl

/-! ## Steps -/

theorem inputConn_synSent (hsent : (k.conns i).state = .synSent)
    (hest : ((inputConn tx k i s).2.conns i).state = .established) :
    has s.flags flagRst = false ∧ ∃ c, (k.conns i).onAck s = .connected c ∧
      (inputConn tx k i s).2.conns i = c.advance flagAck [] := by
  unfold inputConn at hest ⊢
  split at hest
  · rw [release] at hest
    simp [Core.setConn, Conn.zero] at hest
  next hrst =>
    rw [if_neg hrst]
    refine ⟨by simpa using hrst, ?_⟩
    split at hest
    · exact absurd (hsent.symm.trans hest) (by decide)
    next c hack =>
      refine ⟨c, hack, ?_⟩
      rw [tcpEmit_setConn (Nat.zero_le _)]
      simp [Core.setConn]
    next c hack =>
      -- without an acknowledgement the connection stays as it is
      have hc : c = k.conns i := by
        rcases Conn.onAck_passed hack with rfl | ⟨-, hs, -⟩ | ⟨hs, -⟩
        · rfl
        · exact absurd (hsent.symm.trans hs) (by decide)
        · exact absurd hsent hs
      have hcomplete : (k.conns i).complete = k.conns i := by
        rcases (k.conns i).complete_cases with heq | ⟨hs, -⟩ | ⟨hs, -⟩
        · exact heq
        · exact absurd (hsent.symm.trans hs) (by decide)
        · exact absurd (hsent.symm.trans hs) (by decide)
      have hstate : ((inputData tx (k.setConn i c) i s).2.conns i).state = .synSent := by
        simp [inputData, inputComplete, Core.modify, Core.setConn, hc, hcomplete, hsent,
          State.receives]
      exact absurd (hstate.symm.trans hest) (by decide)

/-- Nothing is read from a packet. -/
def Promise.deaf : Promise := { Promise.trivial with segment := fun _ _ => False }

theorem Core.next_established {op : Op} (hop : Promise.deaf.Kept tx k op)
    (h : (k.conns i).state ≠ .established) : ((k.next tx op).conns i).state ≠ .established := by
  refine Core.next_conn (Q := fun c => c.state ≠ .established) hop ?_ ?_ h
  · intro p c ho
    cases ho with
    | active => nofun
    | passive _ hseg => exact hseg.elim
  · intro c ps out inp c' he hc
    cases he with
    | accept => exact hc
    | send => exact hc
    | recv => exact hc
    | close hs => rcases hs with ⟨-, rfl⟩ | ⟨-, rfl⟩ <;> nofun
    | connect hseg | ack hseg | data hseg | fin hseg => exact hseg.elim
    | complete =>
      rcases c.complete_cases with heq | ⟨-, -, heq⟩ | ⟨-, -, heq⟩ <;> rw [heq]
      · exact hc
      · nofun
      · nofun
    | release => nofun
    | waiting => exact hc
    | timer => exact hc
    | resend => exact hc

theorem tcpInput_opensOnSyn {p : Packet} (hguard : SynExpected k (.input p))
    (hused : (k.conns i).used = true) :
    OpensOnSyn k (.input p) (k.next tx (.input p)) i := by
  intro hsent hest
  have hinit : k.initialized = true := by
    by_contra hinit
    have hinit : k.initialized = false := by simpa using hinit
    have hsame : k.next tx (.input p) = k := by simp [Core.next, tcpInput, hinit]
    rw [hsame] at hest
    exact absurd (hsent.symm.trans hest) nofun
  cases hs : parseSegment p with
  | none =>
    have hsame : k.next tx (.input p) = k := by simp [Core.next, tcpInput, hinit, hs]
    rw [hsame] at hest
    exact absurd (hsent.symm.trans hest) nofun
  | some s =>
    cases hfind : find k p.src s.srcPort p.dst s.dstPort with
    | none =>
      have hstray : k.next tx (.input p) = (inputStray tx k p s).2 := by
        simp [Core.next, tcpInput, hinit, hs, hfind]
      rw [hstray, inputStray_conns_of_used hused] at hest
      exact absurd (hsent.symm.trans hest) nofun
    | some j =>
      have hinput : k.next tx (.input p) = (inputConn tx k j s).2 := by
        simp [Core.next, tcpInput, hinit, hs, hfind]
      by_cases hij : i = j
      · subst hij
        rw [hinput] at hest ⊢
        obtain ⟨hrst, c, hack, hconn⟩ := inputConn_synSent hsent hest
        obtain ⟨hflag, -, hseq, rfl⟩ := Conn.onAck_connected hack
        rw [hconn]
        exact ⟨p, s, rfl, hs, hguard s i hs hfind hsent hrst hflag hseq, hflag, hseq, rfl, rfl⟩
      · rw [hinput, inputConn_conns_of_ne hij] at hest
        exact absurd (hsent.symm.trans hest) nofun

theorem Core.next_opensOnSyn {op : Op} (hguard : SynExpected k op)
    (hused : (k.conns i).state = .synSent → (k.conns i).used = true) :
    OpensOnSyn k op (k.next tx op) i := by
  have hdeaf : Promise.deaf.Kept tx k op → OpensOnSyn k op (k.next tx op) i := by
    intro hop hsent hest
    exact absurd hest (Core.next_established hop (by rw [hsent]; nofun))
  cases op with
  | input p =>
    intro hsent
    exact tcpInput_opensOnSyn hguard (hused hsent) hsent
  | close id => exact hdeaf fun _ _ _ => trivial
  | connect | listen | accept | send | recv | tick => exact hdeaf trivial

/-! ## Runs -/

theorem find_matches {rip lip : UInt32} {rport lport : UInt16}
    (h : find k rip rport lip lport = some i) :
    rip = (k.conns i).remoteIp ∧ rport = (k.conns i).remotePort ∧ lport = (k.conns i).localPort := by
  have hmatch := List.find?_some h
  simp only [Conn.matches, Bool.and_eq_true, beq_iff_eq] at hmatch
  exact ⟨hmatch.1.1.1.2.symm, hmatch.1.1.2.symm, hmatch.1.2.symm⟩

theorem SynExpected.kept {op : Op} (h : SynExpected k op) (heard : List Packet) :
    (Promise.syn (heard ++ delivered [op])).Kept tx k op := by
  cases op with
  | input p =>
    intro s hs
    have hp : p ∈ heard ++ delivered [.input p] := by simp [delivered]
    refine ⟨⟨hp, hs⟩, fun i hfind hrst => ⟨fun c hack => ?_, fun _ _ _ _ _ => trivial⟩⟩
    obtain ⟨hflag, hsent, hseq, -⟩ := Conn.onAck_connected hack
    exact ⟨p, hp, hs, h s i hs hfind hsent hrst hflag hseq, find_matches hfind⟩
  | close id => exact fun _ _ _ => trivial
  | connect => trivial
  | listen => trivial
  | accept => trivial
  | send => trivial
  | recv => trivial
  | tick => trivial

theorem heard_of_calls {ops : List Op} (h : Calls SynExpected (Core.next tx) .init ops k) :
    ∀ i, (k.conns i).Heard (delivered ops) := by
  induction h with
  | nil => exact fun _ => .zero
  | @snoc k ops op _ hg ih =>
    intro i
    have hdelivered : delivered (ops ++ [op]) = delivered ops ++ delivered [op] := by
      simp [delivered]
    rw [hdelivered]
    refine Core.next_conn (hg.kept (delivered ops)) (fun _ _ => .opens) (fun _ _ _ _ _ => .event) ?_
    exact (ih i).mono (List.subset_append_left _ _)

/-- In a run in which only SYNs acknowledge the SYN of `tcp_connect`, a
connection is established by a SYN, and the numbers of every established
connection come from a SYN of its peer. -/
theorem established_from_syn (tx : IpTx) (ops : List Op) (k : Core)
    (h : Calls SynExpected (Core.next tx) .init ops k) :
    (∀ pre op, pre ++ [op] <+: ops → ∀ i, OpensOnSyn (pre.foldl (Core.next tx) .init) op
      ((pre ++ [op]).foldl (Core.next tx) .init) i) ∧
    ∀ i, (k.conns i).state = .established → (k.conns i).FromSyn (delivered ops) ∧
      (k.conns i).rcvNxt = (k.conns i).irs + 1 + UInt32.ofNat (k.conns i).placed.length := by
  constructor
  · intro pre op hpre i
    obtain ⟨k₁, hcalls, hg, -⟩ := (h.of_prefix hpre).of_concat
    rw [List.foldl_concat, ← hcalls.eq_foldl]
    exact Core.next_opensOnSyn hg fun hsent =>
      (heard_of_calls hcalls i).used (by rw [hsent]; nofun)
  · intro i hs
    have hheard := heard_of_calls h i
    exact ⟨hheard.irs (.inr hs), hheard.rcvNxt (.inr hs)⟩

theorem established_from_syn_handshake :
    ∃ k, Calls SynExpected (Core.next okTx) .init handshake k ∧
      (k.conns 0).state = .established ∧ (k.conns 0).irs = 5000 ∧
      (k.conns 0).FromSyn (delivered handshake) := by
  have hsyn : SynExpected (Core.next okTx .init (.connect 0x0100000A 1000 0x0200000A 80))
      (.input (fromPeer 5000 0x6318E1A1 (flagSyn ||| flagAck))) := by
    intro s i hs _ _ _ _ _
    rw [parseSegment_packet hs]
    rfl
  have h : Calls SynExpected (Core.next okTx) .init
      ([] ++ [.connect 0x0100000A 1000 0x0200000A 80] ++
        [.input (fromPeer 5000 0x6318E1A1 (flagSyn ||| flagAck))]) _ :=
    .snoc (.snoc .nil trivial) hsyn
  exact ⟨_, h, by decide, by decide,
    ((established_from_syn okTx _ _ h).2 0 (by decide)).1⟩

/-- A plain acknowledgement of the SYN establishes a connection. -/
theorem established_without_syn :
    let k := Core.next okTx .init (.connect 0x0100000A 1000 0x0200000A 80)
    let op := Op.input (fromPeer 5000 0x6318E1A1 flagAck)
    ¬ OpensOnSyn k op (k.next okTx op) 0 := by
  intro k op h
  obtain ⟨p, s, hop, hs, hsyn, -⟩ := h (by decide) (by decide)
  cases show Op.input (fromPeer 5000 0x6318E1A1 flagAck) = .input p from hop
  rw [parseSegment_packet hs] at hsyn
  cases hsyn

end Tcp
