import OpenWindows.Tcp.Core

/-!
# What a call does to a connection

A call of the core is a chain of *events*.  An event changes one connection: it
is accepted, it sends, it is read from, it closes, it takes the parts of a
segment, its timers run, or it is released.  `Conn.Event` says once what each of
them does, with the packets it hands to `ip_tx`, the bytes it takes from the
caller and the bytes it returns to the caller.  An invariant of the events is an
invariant of every call (`Core.next_conn`).

What a call cannot guarantee by itself is a *promise*: that the segments it is
given, the segment that establishes a connection, the FINs that are consumed and
the connections that are closed have some property.
-/

namespace Tcp

/-! ## Events -/

/-- What is known of the segments and calls of a run. -/
structure Promise where
  /-- Of every packet, and the segment that is read from it. -/
  segment : Packet → Segment → Prop
  /-- Of a segment that establishes a connection in `SYN_SENT`. -/
  connect : Conn → Segment → Prop
  /-- Of a segment whose FIN is consumed, and the connection before that. -/
  fin : Conn → Segment → Prop
  /-- Of a connection that `tcp_close` sends a FIN on. -/
  close : Conn → Prop

/-- Nothing is known. -/
def Promise.trivial : Promise :=
  ⟨fun _ _ => True, fun _ _ => True, fun _ _ => True, fun _ => True⟩

def Conn.afterData (c : Conn) (s : Segment) : Conn :=
  if s.payload ≠ [] then (c.onData s).advance flagAck [] else c

/-- What happens to a connection, with the packets handed to `ip_tx`, the bytes
taken from the caller and the bytes returned to it. -/
inductive Conn.Event (P : Promise) (c : Conn) :
    List Packet → List UInt8 → List UInt8 → Conn → Prop where
  | accept : Event P c [] [] [] { c with accepted := true }
  | send {data : List UInt8} (hlen : data.length ≤ maxSegment) :
      c.state = .established ∨ c.state = .closeWait → data ≠ [] → c.txPending = false →
      Event P c [c.packet (flagAck ||| flagPsh) data hlen] data []
        (c.save (flagAck ||| flagPsh) data hlen)
  | recv (n : Nat) :
      Event P c [] [] (c.rxBuf.bytes.take n) { c with rxBuf := c.rxBuf.drop n }
  | close {state : State} :
      (c.state = .established ∧ state = .finWait1) ∨ (c.state = .closeWait ∧ state = .lastAck) →
      P.close c →
      Event P c [Conn.packet { c with state := state } (flagFin ||| flagAck) [] (Nat.zero_le _)]
        [] [] (Conn.save { c with state := state } (flagFin ||| flagAck) [] (Nat.zero_le _))
  | connect {p : Packet} {s : Segment} {c' : Conn} :
      P.segment p s → has s.flags flagRst = false → c.onAck s = .connected c' → P.connect c s →
      Event P c [c'.packet flagAck [] (Nat.zero_le _)] [] [] (c'.advance flagAck [])
  | ack {p : Packet} {s : Segment} {c' : Conn} :
      P.segment p s → has s.flags flagRst = false → c.onAck s = .passed c' → Event P c [] [] [] c'
  | data {p : Packet} {s : Segment} :
      P.segment p s → has s.flags flagRst = false → c.state.receives = true → s.payload ≠ [] →
      Event P c [(c.onData s).packet flagAck [] (Nat.zero_le _)] [] []
        ((c.onData s).advance flagAck [])
  | fin {p : Packet} {s : Segment} :
      P.segment p s → has s.flags flagRst = false → c.state.receives = true →
      has s.flags flagFin = true → P.fin c s →
      Event P c [(c.onFin s).packet flagAck [] (Nat.zero_le _)] [] []
        ((c.onFin s).advance flagAck []).afterFin
  | complete : Event P c [] [] [] c.complete
  | release : Event P c [] [] [] .zero
  | waiting (t : UInt32) : Event P c [] [] [] { c with timeWaitTimer := t }
  | timer (t : UInt32) : Event P c [] [] [] { c with rtoTimer := t }
  | resend : c.used = true → c.txPending = true → Event P c [c.savedPacket] [] [] c.backoff

/-- How a connection opens. -/
inductive Conn.Opens (P : Promise) : Packet → Conn → Prop where
  | active (iss lip : UInt32) (lport : UInt16) (rip : UInt32) (rport : UInt16) :
      Opens P ((Conn.active iss lip lport rip rport).packet flagSyn [] (Nat.zero_le _))
        ((Conn.active iss lip lport rip rport).save flagSyn [] (Nat.zero_le _))
  | passive (iss : UInt32) {p : Packet} {s : Segment} :
      P.segment p s → has s.flags flagSyn = true → has s.flags flagAck = false →
      Opens P
        ((Conn.child iss p.dst s.dstPort p.src s.srcPort s.seq s.window).packet
          (flagSyn ||| flagAck) [] (Nat.zero_le _))
        ((Conn.child iss p.dst s.dstPort p.src s.srcPort s.seq s.window).save
          (flagSyn ||| flagAck) [] (Nat.zero_le _))

/-- One event of a core, with the bytes it takes and gives. -/
inductive Core.Step (P : Promise) (k : Core) : List UInt8 → List UInt8 → Core → Prop where
  | conn {i : Nat} {c : Conn} {ps : List Packet} {out inp : List UInt8} :
      (k.conns i).Event P ps out inp c →
      Step P k out inp { k.setConn i c with sent := ps ++ k.sent }
  | opens {i : Nat} {c : Conn} {p : Packet} :
      (k.conns i).used = false → Conn.Opens P p c →
      Step P k [] [] { k.install i c with sent := p :: k.sent }
  | reset {h : Header} (src dst : UInt32) :
      has h.flags flagRst = true → has h.flags flagSyn = false →
      Step P k [] [] { k with sent := h.packet src dst [] (Nat.zero_le _) :: k.sent }
  | quiet (seed : UInt16) (ls : Nat → Listener) :
      Step P k [] [] { k with issSeed := seed, listeners := ls }

/-- A chain of steps. -/
inductive Core.Steps (P : Promise) (k : Core) : List UInt8 → List UInt8 → Core → Prop where
  | refl : Steps P k [] [] k
  | tail {out inp out' inp' : List UInt8} {k₁ k₂ : Core} :
      Steps P k out inp k₁ → Core.Step P k₁ out' inp' k₂ →
      Steps P k (out ++ out') (inp ++ inp') k₂

variable {P : Promise} {tx : IpTx} {k k₁ k₂ : Core} {i : Nat}

variable {inp out : List UInt8}

theorem Core.Step.steps (h : k.Step P out inp k₁) : k.Steps P out inp k₁ := .tail .refl h

theorem Core.Steps.trans {out' inp' : List UInt8} (h : k.Steps P out inp k₁)
    (h' : k₁.Steps P out' inp' k₂) : k.Steps P (out ++ out') (inp ++ inp') k₂ := by
  induction h' with
  | refl => simpa using h
  | tail _ hstep ih =>
    rw [← List.append_assoc, ← List.append_assoc]
    exact .tail ih hstep

theorem Core.Steps.andThen (h : k.Steps P [] [] k₁) (h' : k₁.Steps P [] [] k₂) :
    k.Steps P [] [] k₂ := h.trans h'

theorem Core.Steps.invariant {I : Core → Prop}
    (hstep : ∀ k out inp k', Core.Step P k out inp k' → I k → I k')
    (h : k.Steps P out inp k₁) (hk : I k) : I k₁ := by
  induction h with
  | refl => exact hk
  | tail _ hs ih => exact hstep _ _ _ _ hs ih

/-! ## ACK processing -/

variable {s : Segment} {c : Conn} {flags : UInt8} {p : Packet}

theorem Conn.onAck_connected {c' : Conn} (h : c.onAck s = .connected c') :
    has s.flags flagAck = true ∧ c.state = .synSent ∧ s.ack = c.iss + 1 ∧
      c' = { c with
        sndUna := s.ack
        sndWnd := s.window.toUInt32
        irs := s.seq
        rcvNxt := s.seq + 1
        state := .established
        txPending := false } := by
  unfold Conn.onAck at h
  split at h
  next hflag =>
    split at h
    next hstate =>
      split at h
      · cases h
      next hack =>
        cases h
        exact ⟨hflag, hstate, not_not.mp hack, rfl⟩
    · split at h
      · split at h <;> cases h
      · split at h <;> cases h
  · cases h

theorem Conn.onAck_passed {c' : Conn} (h : c.onAck s = .passed c') : c' = c ∨
    (has s.flags flagAck = true ∧ c.state = .synRcvd ∧ s.ack = c.sndNxt ∧
      c' = { c with sndUna := s.ack, state := .established, txPending := false }) ∨
    (c.state ≠ .synSent ∧ c.state ≠ .synRcvd ∧ seqGt s.ack c.sndUna = true ∧
      seqLe s.ack c.sndNxt = true ∧
      c' = { c with
        sndUna := s.ack
        sndWnd := s.window.toUInt32
        txPending := c.txPending && !seqGe s.ack c.txEndSeq }) := by
  unfold Conn.onAck at h
  split at h
  next hflag =>
    split at h
    · split at h <;> cases h
    next hsent =>
      split at h
      next hstate =>
        split at h
        · cases h
        next hack =>
          cases h
          exact .inr (.inl ⟨hflag, hstate, not_not.mp hack, rfl⟩)
      next hrcvd =>
        split at h
        next hnew =>
          cases h
          obtain ⟨hgt, hle⟩ := Bool.and_eq_true_iff.mp hnew
          exact .inr (.inr ⟨hsent, hrcvd, hgt, hle, rfl⟩)
        · cases h
          exact .inl rfl
  · cases h
    exact .inl rfl

/-! ## Closing -/

theorem Conn.complete_cases (c : Conn) :
    c.complete = c ∨
    (c.state = .finWait1 ∧ seqGe c.sndUna c.sndNxt = true ∧
      c.complete = { c with state := .finWait2 }) ∨
    (c.state = .closing ∧ seqGe c.sndUna c.sndNxt = true ∧
      c.complete = { c with state := .timeWait, timeWaitTimer := timeWaitTicks }) := by
  unfold Conn.complete
  dsimp only
  split
  next hs => exact .inr (.inl ⟨hs.1, hs.2, rfl⟩)
  · split
    next hs => exact .inr (.inr ⟨hs.1, hs.2, rfl⟩)
    · exact .inl rfl

theorem Conn.afterFin_cases (h : c.state.receives = true) :
    (c.state = .established ∧ c.afterFin = { c with state := .closeWait }) ∨
    (c.state = .finWait1 ∧ c.afterFin = { c with state := .closing }) ∨
    (c.state = .finWait2 ∧
      c.afterFin = { c with state := .timeWait, timeWaitTimer := timeWaitTicks }) := by
  unfold Conn.afterFin
  split
  next hs => exact .inl ⟨hs, rfl⟩
  next hs => exact .inr (.inl ⟨hs, rfl⟩)
  next hest hwait =>
    refine .inr (.inr ⟨?_, rfl⟩)
    revert h hest hwait
    cases c.state <;> simp [State.receives]

/-! ## Parts of calls -/

theorem Core.Step.event (h : (k.conns i).Event P [] [] [] c) : k.Steps P [] [] (k.setConn i c) :=
  (Core.Step.conn h).steps

theorem tcpEmit_eq {payload : List UInt8} {save : Bool} (hlen : payload.length ≤ maxSegment) :
    tcpEmit tx k i flags payload save =
      (tx k.sent ((k.conns i).packet flags payload hlen),
        { k.setConn i (if save then (k.conns i).save flags payload hlen
            else (k.conns i).advance flags payload) with
          sent := (k.conns i).packet flags payload hlen :: k.sent }) := by
  unfold tcpEmit
  rw [dif_pos hlen]
  rfl

theorem tcpEmit_setConn {payload : List UInt8} {save : Bool} (hlen : payload.length ≤ maxSegment) :
    tcpEmit tx (k.setConn i c) i flags payload save =
      (tx k.sent (c.packet flags payload hlen),
        { k.setConn i (if save then c.save flags payload hlen else c.advance flags payload) with
          sent := c.packet flags payload hlen :: k.sent }) := by
  rw [tcpEmit_eq hlen]
  simp only [Core.setConn, Function.update_self, Function.update_idem]

theorem Core.unpend_steps (k : Core) (port : UInt16) : k.Steps P [] [] (k.unpend port) := by
  unfold Core.unpend
  split
  next j _ =>
    split
    · exact (Core.Step.quiet k.issSeed _).steps
    · exact .refl
  · exact .refl

theorem Core.unpend_conns (k : Core) (port : UInt16) : (k.unpend port).conns = k.conns := by
  unfold Core.unpend
  split
  · split <;> rfl
  · rfl

theorem release_steps (k : Core) (i : Nat) : k.Steps P [] [] (release k i) := by
  unfold release
  dsimp only
  split
  · exact (k.unpend_steps _).andThen (Core.Step.event .release)
  · exact Core.Step.event .release

theorem inputComplete_steps (k : Core) (i : Nat) : k.Steps P [] [] (inputComplete k i).2 := by
  have hcomplete : k.Steps P [] [] (k.modify i Conn.complete) := Core.Step.event .complete
  unfold inputComplete
  dsimp only
  split
  · exact hcomplete.andThen (release_steps _ i)
  · exact hcomplete

theorem inputFin_eq (hflag : has s.flags flagFin = true) :
    inputFin tx k i s = { k.setConn i (((k.conns i).onFin s).advance flagAck []).afterFin with
      sent := [((k.conns i).onFin s).packet flagAck [] (Nat.zero_le _)] ++ k.sent } := by
  unfold inputFin
  rw [if_pos hflag]
  dsimp only
  rw [Core.modify, Core.modify, tcpEmit_setConn (Nat.zero_le _)]
  simp only [Core.setConn, Function.update_self, Function.update_idem]
  rfl

theorem inputFin_steps (hseg : P.segment p s) (hrst : has s.flags flagRst = false)
    (hrecv : (k.conns i).state.receives = true)
    (hfin : has s.flags flagFin = true → P.fin (k.conns i) s) :
    k.Steps P [] [] (inputFin tx k i s) := by
  cases hflag : has s.flags flagFin with
  | true =>
    rw [inputFin_eq hflag]
    exact (Core.Step.conn (.fin hseg hrst hrecv hflag (hfin hflag))).steps
  | false =>
    unfold inputFin
    rw [if_neg (Bool.not_eq_true _ ▸ hflag)]
    exact .refl

def Acknowledged (tx : IpTx) (k : Core) (c : Conn) (s : Segment) : Prop :=
  s.payload ≠ [] → tx k.sent ((c.onData s).packet flagAck [] (Nat.zero_le _)) = .ok

theorem inputData_steps (hseg : P.segment p s) (hrst : has s.flags flagRst = false)
    (hfin : c.state.receives = true → has s.flags flagFin = true → Acknowledged tx k c s →
      P.fin (c.afterData s) s) :
    (k.setConn i c).Steps P [] [] (inputData tx (k.setConn i c) i s).2 := by
  have hconn : (k.setConn i c).conns i = c := Function.update_self ..
  unfold inputData
  rw [hconn]
  split
  next hrecv =>
    split
    next hdata =>
      have hevent : (k.setConn i c).Steps P [] []
          { (k.setConn i c).setConn i ((c.onData s).advance flagAck []) with
            sent := [(c.onData s).packet flagAck [] (Nat.zero_le _)] ++ k.sent } :=
        (Core.Step.conn (hconn.symm ▸ Conn.Event.data hseg hrst hrecv hdata)).steps
      have hstored : ((k.setConn i c).setConn i ((c.onData s).advance flagAck [])).conns i =
          (c.onData s).advance flagAck [] := Function.update_self ..
      rw [Core.modify, hconn, tcpEmit_setConn (Nat.zero_le _)]
      dsimp only
      split
      · exact hevent
      next hok =>
        have hok : tx k.sent ((c.onData s).packet flagAck [] (Nat.zero_le _)) = .ok :=
          not_not.mp hok
        refine (hevent.andThen (inputFin_steps hseg hrst ?_ ?_)).andThen
          (inputComplete_steps _ i)
        · dsimp only
          rw [hstored]
          unfold Conn.advance Conn.onData
          split <;> exact hrecv
        · intro hflag
          have hpromise := hfin hrecv hflag fun _ => hok
          rw [Conn.afterData, if_pos hdata] at hpromise
          dsimp only
          rwa [hstored]
    next hdata =>
      refine (inputFin_steps hseg hrst (hconn.symm ▸ hrecv) ?_).andThen (inputComplete_steps _ i)
      intro hflag
      have hpromise := hfin hrecv hflag fun h => absurd h hdata
      rw [Conn.afterData, if_neg hdata] at hpromise
      rwa [hconn]
  · exact inputComplete_steps _ i

/-! ## Calls -/

def Promise.Kept (P : Promise) (tx : IpTx) (k : Core) : Op → Prop
  | .close id => ∀ i, connAt k id = some i →
      (k.conns i).state = .established ∨ (k.conns i).state = .closeWait → P.close (k.conns i)
  | .input p => ∀ s, parseSegment p = some s → P.segment p s ∧
      ∀ i, find k p.src s.srcPort p.dst s.dstPort = some i → has s.flags flagRst = false →
        (∀ c, (k.conns i).onAck s = .connected c → P.connect (k.conns i) s) ∧
        ∀ c, (k.conns i).onAck s = .passed c → c.state.receives = true →
          has s.flags flagFin = true → Acknowledged tx k c s → P.fin (c.afterData s) s
  | _ => True

theorem Promise.trivial_kept (tx : IpTx) (k : Core) (op : Op) : Promise.trivial.Kept tx k op := by
  cases op with
  | input p => exact fun s _ => ⟨True.intro, fun _ _ _ => ⟨fun _ _ => True.intro,
      fun _ _ _ _ _ => True.intro⟩⟩
  | close id => exact fun _ _ _ => True.intro
  | connect | listen | accept | send | recv | tick => exact True.intro

theorem allocConn_unused (h : allocConn k = some i) : (k.conns i).used = false := by
  simpa using List.find?_some h

theorem inputConn_steps (hseg : P.segment p s) (hkept : has s.flags flagRst = false →
      (∀ c, (k.conns i).onAck s = .connected c → P.connect (k.conns i) s) ∧
      ∀ c, (k.conns i).onAck s = .passed c → c.state.receives = true →
        has s.flags flagFin = true → Acknowledged tx k c s → P.fin (c.afterData s) s) :
    k.Steps P [] [] (inputConn tx k i s).2 := by
  unfold inputConn
  split
  · exact release_steps k i
  next hrst =>
    have hrst : has s.flags flagRst = false := by simpa using hrst
    obtain ⟨hconnect, hfin⟩ := hkept hrst
    split
    · exact .refl
    next c hack =>
      rw [tcpEmit_setConn (Nat.zero_le _)]
      exact (Core.Step.conn (.connect hseg hrst hack (hconnect c hack))).steps
    next c hack =>
      exact (Core.Step.event (.ack hseg hrst hack)).andThen
        (inputData_steps hseg hrst (hfin c hack))

theorem opens_steps (hfree : (k.conns i).used = false)
    (hopens : Conn.Opens P (c.packet flags [] (Nat.zero_le _)) (c.save flags [] (Nat.zero_le _))) :
    k.Steps P [] [] (tcpEmit tx (k.install i c) i flags [] true).2 := by
  have hcore : (tcpEmit tx (k.install i c) i flags [] true).2 =
      { k.install i (c.save flags [] (Nat.zero_le _)) with
        sent := c.packet flags [] (Nat.zero_le _) :: k.sent } := by
    rw [tcpEmit_eq (Nat.zero_le _)]
    simp only [Core.install, Core.setConn, Function.update_self, Function.update_idem]
    rfl
  rw [hcore]
  exact (Core.Step.opens hfree hopens).steps

theorem nextIsn_eq (k : Core) : ∃ iss seed, nextIsn k = (iss, { k with issSeed := seed }) :=
  ⟨_, _, rfl⟩

theorem passiveOpen_steps (hseg : P.segment p s)
    (hsyn : has s.flags flagSyn = true) (hack : has s.flags flagAck = false) :
    k.Steps P [] [] (passiveOpen tx k p.dst s.dstPort p.src s.srcPort s.seq s.window).2 := by
  unfold passiveOpen
  split
  · exact .refl
  next j _ =>
    split
    · exact .refl
    · split
      · exact .refl
      next i halloc =>
        obtain ⟨iss, seed, hisn⟩ := nextIsn_eq k
        rw [hisn]
        dsimp only
        have hopens := Conn.Opens.passive iss hseg hsyn hack
        generalize Conn.child iss p.dst s.dstPort p.src s.srcPort s.seq s.window = c at hopens ⊢
        -- the order of the two stores does not matter
        have hcore : (Core.install { k with issSeed := seed } i c).setListener j
            { (Core.install { k with issSeed := seed } i c).listeners j with
              pending :=
                ((Core.install { k with issSeed := seed } i c).listeners j).pending + 1 } =
            Core.install { k with
              issSeed := seed
              listeners := Function.update k.listeners j
                { k.listeners j with pending := (k.listeners j).pending + 1 } } i c := by
          simp only [Core.install, Core.setConn, Core.setListener]
        rw [hcore]
        refine (Core.Step.quiet seed _).steps.andThen (opens_steps ?_ hopens)
        exact allocConn_unused halloc

theorem has_resetFlags (withAck : Bool) :
    has (flagRst ||| if withAck then flagAck else 0) flagRst = true ∧
      has (flagRst ||| if withAck then flagAck else 0) flagSyn = false := by
  cases withAck <;> decide

theorem inputStray_steps (hseg : P.segment p s) : k.Steps P [] [] (inputStray tx k p s).2 := by
  unfold inputStray
  split
  next hflags =>
    obtain ⟨hsyn, hack⟩ : has s.flags flagSyn = true ∧ has s.flags flagAck = false := by
      simpa using hflags
    exact passiveOpen_steps hseg hsyn hack
  · split
    · exact .refl
    · obtain ⟨hrst, hsyn⟩ := has_resetFlags (has s.flags flagAck)
      exact (Core.Step.reset _ _ hrst hsyn).steps

theorem tcpInput_steps (hkept : P.Kept tx k (.input p)) : k.Steps P [] [] (tcpInput tx k p).2 := by
  unfold tcpInput
  split
  · exact .refl
  · split
    · exact .refl
    next s hs =>
      obtain ⟨hseg, hconn⟩ := hkept s hs
      split
      · exact inputStray_steps hseg
      next i hfind => exact inputConn_steps hseg (hconn i hfind)

variable {lip : UInt32}

variable {lport : UInt16} {id : Int}

theorem tcpConnect_steps {rip : UInt32} {rport : UInt16} :
    k.Steps P [] [] (tcpConnect tx k lip lport rip rport).2 := by
  unfold tcpConnect
  split
  · exact .refl
  · split
    · exact .refl
    · split
      · exact .refl
      · split
        · exact .refl
        next i halloc =>
          obtain ⟨iss, seed, hisn⟩ := nextIsn_eq k
          rw [hisn]
          dsimp only
          have hopens := Conn.Opens.active (P := P) iss lip lport rip rport
          generalize Conn.active iss lip lport rip rport = c at hopens ⊢
          have hsteps : k.Steps P [] []
              (tcpEmit tx (Core.install { k with issSeed := seed } i c) i flagSyn [] true).2 := by
            refine (Core.Step.quiet seed k.listeners).steps.andThen (opens_steps ?_ hopens)
            exact allocConn_unused halloc
          split
          · exact hsteps.andThen (Core.Step.event .release)
          · exact hsteps

theorem tcpListen_steps {backlog : UInt16} : k.Steps P [] [] (tcpListen k lip lport backlog).2 := by
  unfold tcpListen
  split
  · exact .refl
  · dsimp only
    split
    · exact (Core.Step.quiet k.issSeed _).steps
    · split
      · exact (Core.Step.quiet k.issSeed _).steps
      · exact .refl

theorem tcpAccept_steps : k.Steps P [] [] (tcpAccept k lip lport).2.2 := by
  unfold tcpAccept
  split
  · exact (Core.Step.event .accept).andThen (Core.unpend_steps _ lport)
  · exact .refl

theorem tcpClose_steps (hkept : P.Kept tx k (.close id)) :
    k.Steps P [] [] (tcpClose tx k id).2 := by
  unfold tcpClose
  split
  · exact .refl
  next i hi =>
    dsimp only
    split
    next hstate =>
      rw [tcpEmit_setConn (Nat.zero_le _)]
      exact (Core.Step.conn (.close (.inl ⟨hstate, rfl⟩) (hkept i hi (.inl hstate)))).steps
    next hstate =>
      rw [tcpEmit_setConn (Nat.zero_le _)]
      exact (Core.Step.conn (.close (.inr ⟨hstate, rfl⟩) (hkept i hi (.inr hstate)))).steps
    · exact release_steps k i
    · exact release_steps k i
    · exact .refl
    · exact .refl

theorem tickConn_steps (elapsed : UInt32) (k : Core) (i : Nat) :
    k.Steps P [] [] (tickConn tx elapsed k i) := by
  unfold tickConn
  dsimp only
  split
  · exact .refl
  next hused =>
    split
    · split
      · exact release_steps k i
      · exact Core.Step.event (.waiting _)
    · split
      · exact .refl
      next hpending =>
        split
        · exact (Core.Step.conn (.resend (by simpa using hused) (by simpa using hpending))).steps
        · exact Core.Step.event (.timer _)

theorem tickLoop_steps (elapsed : UInt32) (slots : List Nat) (k : Core) :
    k.Steps P [] [] (slots.foldl (tickConn tx elapsed) k) := by
  induction slots generalizing k with
  | nil => exact .refl
  | cons i slots ih => exact (tickConn_steps elapsed k i).andThen (ih _)

theorem tcpTick_steps {elapsed : UInt32} : k.Steps P [] [] (tcpTick tx k elapsed).2 := by
  unfold tcpTick
  split
  · exact .refl
  · exact tickLoop_steps elapsed _ k

/-- The bytes of a successful `tcp_send`. -/
def Op.sentBytes (tx : IpTx) (k : Core) : Op → List UInt8
  | .send id data => if (tcpSend tx k id data).1 = .ok then data else []
  | _ => []

/-- The bytes `tcp_recv` returns. -/
def Op.gotBytes (k : Core) : Op → List UInt8
  | .recv id cap => (tcpRecv k id cap).2.1
  | _ => []

theorem tcpSend_steps {data : List UInt8} :
    ∃ out, ((∀ log p, tx log p = .ok) → out = Op.sentBytes tx k (.send id data)) ∧
      k.Steps P out [] (tcpSend tx k id data).2 := by
  unfold Op.sentBytes tcpSend
  dsimp only
  split
  · exact ⟨[], fun _ => rfl, .refl⟩
  next i _ =>
    split
    · exact ⟨[], fun _ => rfl, .refl⟩
    next hstate =>
      split
      next hnil => exact ⟨[], fun _ => by simp [hnil], .refl⟩
      next hnil =>
        split
        · exact ⟨[], fun _ => rfl, .refl⟩
        next hlen =>
          split
          · exact ⟨[], fun _ => rfl, .refl⟩
          next hpending =>
            have hlen : data.length ≤ maxSegment := by omega
            have hstate : (k.conns i).state = .established ∨ (k.conns i).state = .closeWait := by
              tauto
            rw [tcpEmit_eq hlen]
            refine ⟨data, fun htx => ?_, ?_⟩
            · simp [htx]
            · exact (Core.Step.conn (.send hlen hstate hnil (by simpa using hpending))).steps

theorem tcpRecv_steps {cap : Nat} :
    k.Steps P [] (Op.gotBytes k (.recv id cap)) (tcpRecv k id cap).2.2 := by
  unfold Op.gotBytes tcpRecv
  dsimp only
  split
  · exact .refl
  next i _ =>
    split
    · split
      · exact .refl
      · exact .refl
    · exact (Core.Step.conn (.recv _)).steps

theorem Core.next_steps {op : Op} (hkept : P.Kept tx k op) :
    ∃ out, ((∀ log p, tx log p = .ok) → out = op.sentBytes tx k) ∧
      k.Steps P out (op.gotBytes k) (k.next tx op) := by
  cases op with
  | connect lip lport rip rport => exact ⟨[], fun _ => rfl, tcpConnect_steps⟩
  | listen lip lport backlog => exact ⟨[], fun _ => rfl, tcpListen_steps⟩
  | accept lip lport => exact ⟨[], fun _ => rfl, tcpAccept_steps⟩
  | send id data => exact tcpSend_steps
  | recv id cap => exact ⟨[], fun _ => rfl, tcpRecv_steps⟩
  | close id => exact ⟨[], fun _ => rfl, tcpClose_steps hkept⟩
  | tick elapsed => exact ⟨[], fun _ => rfl, tcpTick_steps⟩
  | input p => exact ⟨[], fun _ => rfl, tcpInput_steps hkept⟩

theorem Core.next_conn {Q : Conn → Prop} {op : Op} (hkept : P.Kept tx k op)
    (hopens : ∀ p c, Conn.Opens P p c → Q c)
    (hevent : ∀ c ps out inp c', Conn.Event P c ps out inp c' → Q c → Q c')
    (hk : Q (k.conns i)) : Q ((k.next tx op).conns i) := by
  obtain ⟨out, -, hsteps⟩ := Core.next_steps hkept
  refine hsteps.invariant (I := fun k => Q (k.conns i)) ?_ hk
  intro k out inp k' hstep hk
  cases hstep with
  | @conn j c ps out inp he =>
    by_cases hi : i = j
    · subst hi
      simpa [Core.setConn] using hevent _ _ _ _ _ he hk
    · simpa [Core.setConn, hi] using hk
  | @opens j c p hfree ho =>
    by_cases hi : i = j
    · subst hi
      simpa [Core.install, Core.setConn] using hopens _ _ ho
    · simpa [Core.install, Core.setConn, hi] using hk
  | reset => exact hk
  | quiet => exact hk

end Tcp
