import OpenWindows.Tcp.Endpoint

/-!
# The stream of a connection

Two endpoints, each of them a core that opens one connection, exchange segments
over a network that loses, duplicates, delays and reorders them but does not
alter them: any packet that one endpoint has sent may be handed to the other one
at any time.  What `tcp_recv` has returned at one end, followed by the receive
buffer, is a prefix of what was sent at the other end.

The handshake is what makes this hold.  An endpoint in `SYN_SENT` takes its
receive sequence from any acknowledgement of its SYN.  As long as it has not sent
an acknowledgement itself, its peer is in `SYN_RCVD` at most, and has sent SYNs
only.
-/

namespace Tcp

open StepSystem

/-! ## The network -/

/-- A core, the bytes of its successful `tcp_send` calls and the bytes its
`tcp_recv` calls have returned. -/
structure Endpoint where
  core : Core
  out : List UInt8
  got : List UInt8

/-- An endpoint after `tcp_init`. -/
def Endpoint.init : Endpoint := ⟨.init, [], []⟩

def Endpoint.call (e : Endpoint) (op : Op) : Endpoint where
  core := e.core.next okTx op
  out := e.out ++ op.sentBytes okTx e.core
  got := e.got ++ op.gotBytes e.core

/-- Two endpoints. -/
structure Net where
  left : Endpoint
  right : Endpoint

/-- Both endpoints after `tcp_init`. -/
def Net.init : Net := ⟨.init, .init⟩

/-- A call at one of the endpoints. -/
inductive Act where
  | left (op : Op)
  | right (op : Op)

/-- The network hands over packets that the other end has sent. -/
def Op.From (peer : Endpoint) : Op → Prop
  | .input p => p ∈ peer.core.sent
  | _ => True

/-- A call that can happen. -/
def Net.Allows (n : Net) : Act → Prop
  | .left op => op.From n.right
  | .right op => op.From n.left

/-- The endpoints after a call at one of them. -/
def Net.next (n : Net) : Act → Net
  | .left op => { n with left := n.left.call op }
  | .right op => { n with right := n.right.call op }

/-! ## The invariant of an endpoint -/

/-- The packets of an endpoint are genuine, and before the endpoint was
established they show how it was opened. -/
structure Log (l : Life) (out : List UInt8) (sent : List Packet) : Prop where
  genuine : ∀ s, Read sent s → s.Genuine l.iss out
  active : l.active = true → l.est = false → ∀ s, Read sent s →
    has s.flags flagRst = true ∨ has s.flags flagAck = false
  passive : l.active = false → l.est = false → ∀ s, Read sent s →
    has s.flags flagRst = true ∨ has s.flags flagSyn = true

/-- A slot that holds no connection. -/
structure Conn.Free (c : Conn) : Prop where
  unused : c.used = false
  closed : c.state = .closed
  buffer : c.rxBuf.bytes = []

/-- An endpoint with the life `l` whose peer is `e'` with the life `l'`. -/
structure Side (l l' : Life) (e e' : Endpoint) : Prop where
  free : ∀ i, (e.core.conns i).used = false → (e.core.conns i).Free
  single : ∀ i j, (e.core.conns i).used = true → (e.core.conns j).used = true → i = j
  numbered : ∀ i, (e.core.conns i).used = true → (e.core.conns i).Numbered
  gives : ∀ i, (e.core.conns i).used = true →
    (e.core.conns i).Gives l.iss e.out e.core.sent
  gets : ∀ i, (e.core.conns i).used = true → (e.core.conns i).Gets l'.iss e'.out e.got
  phase : ∀ i, (e.core.conns i).used = true → (e.core.conns i).Phase l e'.core.sent
  log : Log l e.out e.core.sent
  got : e.got <+: e'.out
  heard : l.est = true → ∃ s, Read e'.core.sent s ∧ has s.flags flagRst = false ∧
    has s.flags flagAck = true
  unopened : e.core.opened = 0 → (∀ i, (e.core.conns i).used = false) ∧ e.out = [] ∧ e.got = [] ∧
    l.est = false ∧ ∀ s, Read e.core.sent s → has s.flags flagRst = true

variable {l l' : Life} {e e' : Endpoint}

variable {s : Segment} {k : Core}

theorem not_read_nil : ¬ Read [] s := by
  rintro ⟨p, hp, -⟩
  cases hp

/-- Before anything happened. -/
theorem Side.init (l l' : Life) (hest : l.est = false) : Side l l' .init e' where
  free _ _ := ⟨rfl, rfl, rfl⟩
  single _ _ h := absurd h Bool.false_ne_true
  numbered _ h := absurd h Bool.false_ne_true
  gives _ h := absurd h Bool.false_ne_true
  gets _ h := absurd h Bool.false_ne_true
  phase _ h := absurd h Bool.false_ne_true
  log := ⟨fun _ h => (not_read_nil h).elim, fun _ _ _ h => (not_read_nil h).elim,
    fun _ _ _ h => (not_read_nil h).elim⟩
  got := List.nil_prefix
  heard h := absurd (hest.symm.trans h) Bool.false_ne_true
  unopened _ := ⟨fun _ => rfl, rfl, rfl, hest, fun _ h => (not_read_nil h).elim⟩

theorem Side.peer (h : Side l l' e e') {o inp : List UInt8}
    {est : Bool} (hsub : e'.core.sent ⊆ k.sent) :
    Side l { l' with est := est } e ⟨k, e'.out ++ o, e'.got ++ inp⟩ := by
  have hpre : e'.out <+: e'.out ++ o := List.prefix_append _ _
  refine ⟨h.free, h.single, h.numbered, h.gives, fun i hi => ?_, fun i hi => ?_, h.log,
    h.got.trans hpre, fun hest => ?_, h.unopened⟩
  · have hgets := h.gets i hi
    exact ⟨hgets.placed, hgets.stream.trans hpre, hgets.fresh, hgets.rcvNxt⟩
  · have hphase := h.phase i hi
    refine ⟨hphase.alive, hphase.synSent, hphase.synRcvd, hphase.est, fun hs => ?_⟩
    obtain ⟨s, hread, hrst⟩ := hphase.heard hs
    exact ⟨s, hread.mono hsub, hrst⟩
  · obtain ⟨s, hread, hflags⟩ := h.heard hest
    exact ⟨s, hread.mono hsub, hflags⟩

theorem Side.peer_opens (h : Side l l' e e') (l₂ : Life)
    (hrst : ∀ s, Read e'.core.sent s → has s.flags flagRst = true) : Side l l₂ e ⟨k, e'.out, e'.got⟩ := by
  have hsentstate : ∀ i, (e.core.conns i).used = true → (e.core.conns i).state = .synSent := by
    intro i hi
    by_contra hs
    obtain ⟨s, hread, hno⟩ := (h.phase i hi).heard hs
    rw [hrst s hread] at hno
    cases hno
  refine ⟨h.free, h.single, h.numbered, h.gives, fun i hi => ?_, fun i hi => ?_, h.log, h.got,
    fun hest => ?_, h.unopened⟩
  · have hgets := h.gets i hi
    refine ⟨hgets.placed, hgets.stream, hgets.fresh, fun hs => ?_⟩
    rw [hsentstate i hi] at hs
    rcases hs with hs | hs <;> cases hs
  · have hphase := h.phase i hi
    refine ⟨hphase.alive, hphase.synSent, hphase.synRcvd, hphase.est, fun hs => ?_⟩
    exact absurd (hsentstate i hi) hs
  · obtain ⟨s, hread, hno, -⟩ := h.heard hest
    rw [hrst s hread] at hno
    cases hno

/-! ## Steps of an endpoint -/

variable {P : Promise} {c c' : Conn} {ps : List Packet} {o inp : List UInt8} {i : Nat}

theorem Conn.Free.event (he : c.Event P ps o inp c') (h : c.Free) :
    c'.Free ∧ ps = [] ∧ o = [] ∧ inp = [] := by
  have hquiet : c.state.receives = false := by rw [h.closed]; rfl
  cases he with
  | accept => exact ⟨⟨h.unused, h.closed, h.buffer⟩, rfl, rfl, rfl⟩
  | send _ hs => rcases hs with hs | hs <;> exact absurd (h.closed.symm.trans hs) nofun
  | recv n =>
    refine ⟨⟨h.unused, h.closed, ?_⟩, rfl, rfl, ?_⟩
    · show c.rxBuf.bytes.drop n = []
      rw [h.buffer, List.drop_nil]
    · rw [h.buffer, List.take_nil]
  | close hs _ => rcases hs with ⟨hs, -⟩ | ⟨hs, -⟩ <;> exact absurd (h.closed.symm.trans hs) nofun
  | connect _ _ hack _ =>
    exact absurd (h.closed.symm.trans (Conn.onAck_connected hack).2.1) nofun
  | ack _ _ hack =>
    rcases Conn.onAck_passed hack with rfl | ⟨-, hs, -⟩ | ⟨-, -, -, -, rfl⟩
    · exact ⟨h, rfl, rfl, rfl⟩
    · exact absurd (h.closed.symm.trans hs) nofun
    · exact ⟨⟨h.unused, h.closed, h.buffer⟩, rfl, rfl, rfl⟩
  | data _ _ hrecv _ | fin _ _ hrecv _ _ => exact absurd (hquiet.symm.trans hrecv) nofun
  | complete =>
    rcases c.complete_cases with heq | ⟨hs, -⟩ | ⟨hs, -⟩
    · rw [heq]
      exact ⟨h, rfl, rfl, rfl⟩
    · exact absurd (h.closed.symm.trans hs) nofun
    · exact absurd (h.closed.symm.trans hs) nofun
  | release => exact ⟨⟨rfl, rfl, rfl⟩, rfl, rfl, rfl⟩
  | waiting t | timer t => exact ⟨⟨h.unused, h.closed, h.buffer⟩, rfl, rfl, rfl⟩
  | resend hused => exact absurd (h.unused.symm.trans hused) nofun

theorem Conn.Event.used (he : c.Event P ps o inp c') :
    c'.used = c.used ∨ (c' = .zero ∧ ps = [] ∧ o = [] ∧ inp = []) := by
  cases he with
  | connect _ _ hack _ =>
    obtain ⟨-, -, -, rfl⟩ := Conn.onAck_connected hack
    exact .inl rfl
  | ack _ _ hack =>
    rcases Conn.onAck_passed hack with rfl | ⟨-, -, -, rfl⟩ | ⟨-, -, -, -, rfl⟩
    · exact .inl rfl
    · exact .inl rfl
    · exact .inl rfl
  | data _ _ _ _ =>
    refine .inl ?_
    unfold Conn.onData
    split <;> rfl
  | @fin p s _ _ hrecv _ _ =>
    refine .inl ?_
    rcases Conn.afterFin_cases (c := (c.onFin s).advance flagAck []) hrecv with
      ⟨-, heq⟩ | ⟨-, heq⟩ | ⟨-, heq⟩ <;> rw [heq] <;> rfl
  | complete =>
    refine .inl ?_
    rcases c.complete_cases with heq | ⟨-, -, heq⟩ | ⟨-, -, heq⟩ <;> rw [heq]
  | release => exact .inr ⟨rfl, rfl, rfl, rfl⟩
  | accept | send | recv | close | waiting | timer | resend => exact .inl rfl

theorem Log.event {sent' : List Packet} {out' : List UInt8} (hlog : Log l e.out e.core.sent)
    (he : c.Event (.peer l'.iss out' sent') ps o inp c') (hnum : c.Numbered)
    (hgives : c.Gives l.iss e.out e.core.sent) :
    Log (l.after c') (e.out ++ o) (ps ++ e.core.sent) := by
  -- before the connection is established only earlier packets are sent again
  have hearlier : (l.after c').est = false → ∀ s, Read (ps ++ e.core.sent) s →
      Read e.core.sent s := by
    rintro hest s ⟨p, hp, hs⟩
    rcases List.mem_append.mp hp with hp | hp
    · rcases he.packets hnum hgives hp with hp | ⟨hsync, -⟩
      · exact ⟨p, hp, hs⟩
      · simp [Life.after, hsync] at hest
    · exact ⟨p, hp, hs⟩
  have hbefore : (l.after c').est = false → l.est = false := by
    intro hest
    simpa using (Bool.or_eq_false_iff.mp hest).1
  refine ⟨?_, fun hactive hest s hs => ?_, fun hpassive hest s hs => ?_⟩
  · rintro s ⟨p, hp, hs⟩
    rcases List.mem_append.mp hp with hp | hp
    · rcases he.packets hnum hgives hp with hp | ⟨-, hnew⟩
      · exact (hlog.genuine s ⟨p, hp, hs⟩).append o
      · exact hnew s hs
    · exact (hlog.genuine s ⟨p, hp, hs⟩).append o
  · exact hlog.active hactive (hbefore hest) s (hearlier hest s hs)
  · exact hlog.passive hpassive (hbefore hest) s (hearlier hest s hs)

theorem forall_slots {conns : Nat → Conn} (Q : Nat → Conn → Prop) (hself : Q i c)
    (hothers : ∀ j, j ≠ i → Q j (conns j)) : ∀ j, Q j (Function.update conns i c j) :=
  (Function.forall_update_iff conns Q).mpr ⟨hself, hothers⟩

theorem Side.conn_used (h : Side l l' e e') (hi : (e.core.conns i).used = true)
    (he : (e.core.conns i).Event (.peer l'.iss e'.out e'.core.sent) ps o inp c)
    (hlen : e'.out.length < 2 ^ 31) :
    Side (l.after c) l'
      ⟨{ e.core.setConn i c with sent := ps ++ e.core.sent }, e.out ++ o, e.got ++ inp⟩ e' := by
  have hold : ∀ j, j ≠ i → (e.core.conns j).used = false := by
    intro j hj
    by_contra hused
    exact hj (h.single j i (by simpa using hused) hi)
  -- what holds of the changed connection holds of every one in use
  have hall : ∀ Q : Conn → Prop, (c.used = true → Q c) →
      ∀ j, (Function.update e.core.conns i c j).used = true →
        Q (Function.update e.core.conns i c j) := by
    intro Q hQ
    refine forall_slots (fun _ c => c.used = true → Q c) hQ ?_
    intro j hj hused
    exact absurd ((hold j hj).symm.trans hused) nofun
  have hgets := h.gets i hi
  refine ⟨?_, ?_, hall _ fun _ => (h.numbered i hi).event he, hall _ (h.gives i hi |>.event he),
    hall _ (hgets.event he hlen), hall _ (h.phase i hi |>.event he),
    h.log.event he (h.numbered i hi) (h.gives i hi), ?_, fun hest => ?_, fun hzero => ?_⟩
  · refine forall_slots (fun _ c => c.used = false → c.Free) (fun hused => ?_) fun j _ => h.free j
    rcases he.used with hsame | ⟨rfl, -⟩
    · exact absurd (hused.symm.trans (hsame.trans hi)) nofun
    · exact ⟨rfl, rfl, rfl⟩
  · have hslot : ∀ j, (Function.update e.core.conns i c j).used = true → j = i := by
      intro j hused
      by_contra hj
      rw [Function.update_of_ne hj] at hused
      exact absurd ((hold j hj).symm.trans hused) nofun
    intro j j' hj hj'
    rw [hslot j hj, hslot j' hj']
  · rcases he.used with hsame | ⟨-, -, -, rfl⟩
    · have hnew := hgets.event he hlen (hsame.trans hi)
      exact (List.prefix_append _ _).trans (hnew.placed ▸ hnew.stream)
    · rw [List.append_nil]
      exact h.got
  · rcases he.acknowledged (h.phase i hi) hest with hest | hack
    · exact h.heard hest
    · exact hack
  · exact absurd (((h.unopened hzero).1 i).symm.trans hi) nofun

theorem Side.conn_free (h : Side l l' e e') (hi : (e.core.conns i).used = false)
    (he : (e.core.conns i).Event P ps o inp c) :
    Side l l'
      ⟨{ e.core.setConn i c with sent := ps ++ e.core.sent }, e.out ++ o, e.got ++ inp⟩ e' := by
  obtain ⟨hfree, rfl, rfl, rfl⟩ := (h.free i hi).event he
  rw [List.append_nil, List.append_nil]
  -- the slots in use are the same as before
  have hslot : ∀ j, (Function.update e.core.conns i c j).used = true →
      Function.update e.core.conns i c j = e.core.conns j := by
    refine forall_slots (fun j c => c.used = true → c = e.core.conns j) (fun hused => ?_)
      fun _ _ _ => rfl
    exact absurd (hfree.unused.symm.trans hused) nofun
  have hall : ∀ Q : Conn → Prop, (∀ j, (e.core.conns j).used = true → Q (e.core.conns j)) →
      ∀ j, (Function.update e.core.conns i c j).used = true →
        Q (Function.update e.core.conns i c j) := by
    intro Q hQ j hj
    have hsame := hslot j hj
    rw [hsame] at hj ⊢
    exact hQ j hj
  refine ⟨?_, ?_, hall _ h.numbered, hall _ h.gives, hall _ h.gets, hall _ h.phase, h.log, h.got,
    h.heard, fun hzero => ?_⟩
  · exact forall_slots (fun _ c => c.used = false → c.Free) (fun _ => hfree) fun j _ => h.free j
  · intro j j' hj hj'
    have hj₀ : (e.core.conns j).used = true := hslot j hj ▸ hj
    exact h.single j j' hj₀ (hslot j' hj' ▸ hj')
  · obtain ⟨hnone, hrest⟩ := h.unopened hzero
    refine ⟨?_, hrest⟩
    exact forall_slots (fun _ c => c.used = false) hfree.unused fun j _ => hnone j

theorem Side.conn (h : Side l l' e e')
    (he : (e.core.conns i).Event (.peer l'.iss e'.out e'.core.sent) ps o inp c)
    (hlen : e'.out.length < 2 ^ 31) :
    ∃ est, Side { l with est := est } l'
      ⟨{ e.core.setConn i c with sent := ps ++ e.core.sent }, e.out ++ o, e.got ++ inp⟩ e' := by
  cases hi : (e.core.conns i).used with
  | false => exact ⟨l.est, h.conn_free hi he⟩
  | true => exact ⟨_, h.conn_used hi he hlen⟩

theorem Side.reset (h : Side l l' e e') {hd : Header} (src dst : UInt32)
    (hrst : has hd.flags flagRst = true) (hsyn : has hd.flags flagSyn = false) :
    Side l l' ⟨{ e.core with sent := hd.packet src dst [] (Nat.zero_le _) :: e.core.sent },
      e.out, e.got⟩ e' := by
  have hread : ∀ s, Read (hd.packet src dst [] (Nat.zero_le _) :: e.core.sent) s →
      s = { hd with payload := [] } ∨ Read e.core.sent s := by
    rintro s ⟨p, hp, hs⟩
    rcases List.mem_cons.mp hp with rfl | hp
    · exact .inl (parseSegment_packet hs)
    · exact .inr ⟨p, hp, hs⟩
  refine ⟨h.free, h.single, h.numbered, fun i hi => ?_, h.gets, h.phase, ⟨?_, ?_, ?_⟩, h.got,
    h.heard, fun hzero => ?_⟩
  · have hgives := h.gives i hi
    exact ⟨hgives.iss, hgives.stream, fun hp => List.mem_cons_of_mem _ (hgives.saved hp)⟩
  · intro s hs
    rcases hread s hs with rfl | hs
    · exact .bare hsyn
    · exact h.log.genuine s hs
  · intro hactive hest s hs
    rcases hread s hs with rfl | hs
    · exact .inl hrst
    · exact h.log.active hactive hest s hs
  · intro hpassive hest s hs
    rcases hread s hs with rfl | hs
    · exact .inl hrst
    · exact h.log.passive hpassive hest s hs
  · obtain ⟨hnone, hout, hgot, hest, hresets⟩ := h.unopened hzero
    refine ⟨hnone, hout, hgot, hest, fun s hs => ?_⟩
    rcases hread s hs with rfl | hs
    · exact hrst
    · exact hresets s hs

/-- A connection that has just opened. -/
structure Conn.New (l l' : Life) (out' : List UInt8) (sent' : List Packet) (p : Packet)
    (c : Conn) : Prop where
  est : l.est = false
  used : c.used = true
  numbered : c.Numbered
  gives : c.Gives l.iss [] [p]
  gets : c.Gets l'.iss out' []
  phase : c.Phase l sent'
  log : Log l [] [p]

theorem read_singleton {hd : Header} {src dst : UInt32}
    (h : Read [hd.packet src dst [] (Nat.zero_le _)] s) : s = { hd with payload := [] } := by
  obtain ⟨p, hp, hs⟩ := h
  cases List.mem_singleton.mp hp
  exact parseSegment_packet hs

theorem Conn.Opens.new {out' : List UInt8} {sent' : List Packet} {p : Packet}
    (h : Conn.Opens (.peer l'.iss out' sent') p c) : ∃ l, Conn.New l l' out' sent' p c := by
  have hnumbered := Conn.Numbered.opens h
  cases h with
  | active iss lip lport rip rport =>
    refine ⟨⟨iss, true, false⟩, rfl, rfl, hnumbered, ⟨rfl, rfl, fun _ => List.mem_cons_self⟩,
      ⟨rfl, List.nil_prefix, fun _ => rfl, ?_⟩, ⟨⟨nofun, nofun⟩, fun _ => ⟨rfl, rfl⟩, nofun, nofun, ?_⟩,
      ⟨fun s hs => ?_, fun _ _ s hs => ?_, nofun⟩⟩
    · rintro (h | h) <;> cases h
    · intro hs
      exact absurd rfl hs
    · cases read_singleton hs
      have hrst : has flagSyn flagRst = false := rfl
      exact ⟨fun _ => ⟨hrst, rfl⟩, fun hne => absurd rfl hne⟩
    · cases read_singleton hs
      have hack : has flagSyn flagAck = false := rfl
      exact .inr hack
  | @passive iss p s hseg hsyn hack =>
    obtain ⟨hp, hs, hgenuine⟩ := hseg
    obtain ⟨hrst, hseq⟩ := hgenuine.syn hsyn
    refine ⟨⟨iss, false, false⟩, rfl, rfl, hnumbered, ⟨rfl, rfl, fun _ => List.mem_cons_self⟩,
      ⟨rfl, List.nil_prefix, nofun, fun _ => ?_⟩,
      ⟨⟨nofun, nofun⟩, nofun, fun _ => ⟨rfl, rfl⟩, nofun, fun _ => ⟨s, ⟨p, hp, hs⟩, hrst⟩⟩,
      ⟨fun s hs => ?_, nofun, fun _ _ s hs => ?_⟩⟩
    · show s.seq + 1 = _
      rw [hseq]
      exact (UInt32.add_zero _).symm
    · cases read_singleton hs
      have hrst : has (flagSyn ||| flagAck) flagRst = false := rfl
      exact ⟨fun _ => ⟨hrst, rfl⟩, fun hne => absurd rfl hne⟩
    · cases read_singleton hs
      have hsyn : has (flagSyn ||| flagAck) flagSyn = true := rfl
      exact .inr hsyn

theorem Side.opens (h : Side l l' e e') (hzero : e.core.opened = 0) {l₂ : Life} {p : Packet}
    (hnew : Conn.New l₂ l' e'.out e'.core.sent p c) :
    Side l₂ l' ⟨{ e.core.install i c with sent := p :: e.core.sent }, e.out, e.got⟩ e' := by
  obtain ⟨hnone, hout, hgot, -, hresets⟩ := h.unopened hzero
  have hall : ∀ Q : Conn → Prop, Q c → ∀ j, (Function.update e.core.conns i c j).used = true →
      Q (Function.update e.core.conns i c j) := by
    intro Q hQ
    refine forall_slots (fun _ c => c.used = true → Q c) (fun _ => hQ) ?_
    intro j hj hused
    exact absurd ((hnone j).symm.trans hused) nofun
  have hread : ∀ s, Read (p :: e.core.sent) s → Read [p] s ∨
      (Read e.core.sent s ∧ has s.flags flagRst = true) := by
    rintro s ⟨q, hq, hs⟩
    rcases List.mem_cons.mp hq with rfl | hq
    · exact .inl ⟨q, List.mem_cons_self, hs⟩
    · exact .inr ⟨⟨q, hq, hs⟩, hresets s ⟨q, hq, hs⟩⟩
  refine ⟨?_, ?_, hall _ hnew.numbered, hall _ ?_, hall _ (hgot ▸ hnew.gets), hall _ hnew.phase,
    ⟨?_, ?_, ?_⟩, h.got, fun hest => absurd (hnew.est.symm.trans hest) nofun, nofun⟩
  · refine forall_slots (fun _ c => c.used = false → c.Free) ?_ fun j _ => h.free j
    exact fun hused => absurd (hnew.used.symm.trans hused) nofun
  · have hslot : ∀ j, (Function.update e.core.conns i c j).used = true → j = i := by
      intro j hused
      by_contra hj
      rw [Function.update_of_ne hj, hnone j] at hused
      cases hused
    intro j j' hj hj'
    rw [hslot j hj, hslot j' hj']
  · have hgives := hnew.gives
    refine ⟨hgives.iss, hgives.stream.trans hout.symm, fun hp => ?_⟩
    exact List.mem_cons.mpr (.inl (List.mem_singleton.mp (hgives.saved hp)))
  · intro s hs
    show s.Genuine l₂.iss e.out
    rw [hout]
    rcases hread s hs with hs | ⟨hs, hrst⟩
    · exact hnew.log.genuine s hs
    · -- an earlier reset carries neither a SYN nor a byte
      have hgenuine := h.log.genuine s hs
      refine ⟨fun hsyn => ?_, fun hne => ?_⟩
      · exact absurd ((hgenuine.syn hsyn).1.symm.trans hrst) nofun
      · obtain ⟨before, after, heq, -⟩ := hgenuine.data hne
        rw [hout] at heq
        simp [hne] at heq
  · intro hactive hest s hs
    rcases hread s hs with hs | ⟨-, hrst⟩
    · exact hnew.log.active hactive hest s hs
    · exact .inl hrst
  · intro hpassive hest s hs
    rcases hread s hs with hs | ⟨-, hrst⟩
    · exact hnew.log.passive hpassive hest s hs
    · exact .inl hrst

/-! ## Both endpoints -/

def Connected (e e' : Endpoint) : Prop := ∃ l l', Side l l' e e' ∧ Side l' l e' e

theorem Connected.symm (h : Connected e e') : Connected e' e := by
  obtain ⟨l, l', hl, hl'⟩ := h
  exact ⟨l', l, hl', hl⟩

theorem Side.step (h : Side l l' e e') (h' : Side l' l e' e)
    (hstep : e.core.Step (.peer l'.iss e'.out e'.core.sent) o inp k) (hopened : k.opened ≤ 1)
    (hlen : e'.out.length < 2 ^ 31) :
    ∃ l₂, Side l₂ l' ⟨k, e.out ++ o, e.got ++ inp⟩ e' ∧
      Side l' l₂ e' ⟨k, e.out ++ o, e.got ++ inp⟩ := by
  cases hstep with
  | conn he =>
    obtain ⟨est, hside⟩ := h.conn he hlen
    exact ⟨_, hside, h'.peer (List.subset_append_right _ _)⟩
  | @opens i c p hfree ho =>
    have hzero : e.core.opened = 0 := Nat.le_zero.mp (Nat.le_of_succ_le_succ hopened)
    obtain ⟨l₂, hnew⟩ := ho.new
    rw [List.append_nil, List.append_nil]
    exact ⟨l₂, h.opens hzero hnew, h'.peer_opens l₂ (h.unopened hzero).2.2.2.2⟩
  | reset src dst hrst hsyn =>
    refine ⟨l, ?_, h'.peer (List.subset_cons_self _ _)⟩
    rw [List.append_nil, List.append_nil]
    exact h.reset src dst hrst hsyn
  | quiet seed ls =>
    rw [List.append_nil, List.append_nil]
    exact ⟨l, ⟨h.free, h.single, h.numbered, h.gives, h.gets, h.phase, h.log, h.got, h.heard,
      h.unopened⟩, ⟨h'.free, h'.single, h'.numbered, h'.gives, h'.gets, h'.phase, h'.log, h'.got,
      h'.heard, h'.unopened⟩⟩

/-- Connections are counted upwards. -/
theorem Core.Step.opened_le {k k' : Core} (h : k.Step P o inp k') : k.opened ≤ k'.opened := by
  cases h with
  | conn => exact Nat.le_refl _
  | opens => exact Nat.le_succ _
  | reset | quiet => exact Nat.le_refl _

theorem Core.Steps.opened_le {k k' : Core} (h : k.Steps P o inp k') : k.opened ≤ k'.opened := by
  induction h with
  | refl => exact Nat.le_refl _
  | tail _ hstep ih => exact Nat.le_trans ih hstep.opened_le

theorem Side.steps (h : Side l l' e e') (h' : Side l' l e' e)
    (hsteps : e.core.Steps (.peer l'.iss e'.out e'.core.sent) o inp k) (hopened : k.opened ≤ 1)
    (hlen : e'.out.length < 2 ^ 31) :
    ∃ l₂, Side l₂ l' ⟨k, e.out ++ o, e.got ++ inp⟩ e' ∧
      Side l' l₂ e' ⟨k, e.out ++ o, e.got ++ inp⟩ := by
  induction hsteps with
  | refl =>
    rw [List.append_nil, List.append_nil]
    exact ⟨l, h, h'⟩
  | tail _ hstep ih =>
    obtain ⟨l₁, h₁, h₁'⟩ := ih (Nat.le_trans hstep.opened_le hopened)
    rw [← List.append_assoc, ← List.append_assoc]
    exact h₁.step h₁' hstep hopened hlen

theorem Side.connect_seq (h : Side l l' e e') (h' : Side l' l e' e)
    (hi : (e.core.conns i).used = true) (hread : Read e'.core.sent s)
    (hrst : has s.flags flagRst = false) (hack : (e.core.conns i).onAck s = .connected c) :
    s.seq = l'.iss := by
  obtain ⟨hflag, hsent, -, -⟩ := Conn.onAck_connected hack
  obtain ⟨hactive, hest⟩ := (h.phase i hi).synSent hsent
  have hest' : l'.est = false := by
    by_contra hne
    obtain ⟨s', hread', hrst', hflag'⟩ := h'.heard (by simpa using hne)
    rcases h.log.active hactive hest s' hread' with hr | ha
    · exact absurd (hrst'.symm.trans hr) nofun
    · exact absurd (ha.symm.trans hflag') nofun
  cases hactive' : l'.active with
  | true =>
    rcases h'.log.active hactive' hest' s hread with hr | ha
    · exact absurd (hrst.symm.trans hr) nofun
    · exact absurd (ha.symm.trans hflag) nofun
  | false =>
    rcases h'.log.passive hactive' hest' s hread with hr | hs
    · exact absurd (hrst.symm.trans hr) nofun
    · exact ((h'.log.genuine s hread).syn hs).2

theorem find_used {rip lip : UInt32} {rport lport : UInt16}
    (h : find k rip rport lip lport = some i) : (k.conns i).used = true := by
  have hmatch := List.find?_some h
  simp only [Conn.matches, Bool.and_eq_true] at hmatch
  exact hmatch.1.1.1.1

theorem Side.kept (h : Side l l' e e') (h' : Side l' l e' e) {op : Op} (hop : op.From e') :
    (Promise.peer l'.iss e'.out e'.core.sent).Kept okTx e.core op := by
  cases op with
  | input p =>
    intro s hs
    have hread : Read e'.core.sent s := ⟨p, hop, hs⟩
    refine ⟨⟨hop, hs, h'.log.genuine s hread⟩, fun i hfind hrst =>
      ⟨fun c hack => ?_, fun _ _ _ _ _ => trivial⟩⟩
    exact h.connect_seq h' (find_used hfind) hread hrst hack
  | close id => exact fun _ _ _ => trivial
  | connect => trivial
  | listen => trivial
  | accept => trivial
  | send => trivial
  | recv => trivial
  | tick => trivial

theorem Connected.call (h : Connected e e') {op : Op} (hop : op.From e')
    (hopened : (e.call op).core.opened ≤ 1) (hlen : e'.out.length < 2 ^ 31) :
    Connected (e.call op) e' := by
  obtain ⟨l, l', hl, hl'⟩ := h
  obtain ⟨out, hout, hsteps⟩ := Core.next_steps (hl.kept hl' hop)
  obtain ⟨l₂, h₂, h₂'⟩ := hl.steps hl' hsteps hopened hlen
  have hcall : e.call op = ⟨e.core.next okTx op, e.out ++ out, e.got ++ op.gotBytes e.core⟩ := by
    rw [hout fun _ _ => rfl]
    rfl
  rw [hcall]
  exact ⟨l₂, l', h₂, h₂'⟩

/-! ## Runs -/

/-- Each endpoint has opened one connection at most, and has sent fewer than
`2 ^ 31` bytes. -/
structure Net.Bounded (n : Net) : Prop where
  left : n.left.core.opened ≤ 1 ∧ n.left.out.length < 2 ^ 31
  right : n.right.core.opened ≤ 1 ∧ n.right.out.length < 2 ^ 31

theorem Endpoint.call_le (e : Endpoint) (op : Op) :
    e.core.opened ≤ (e.call op).core.opened ∧ e.out.length ≤ (e.call op).out.length := by
  obtain ⟨out, -, hsteps⟩ := Core.next_steps (Promise.trivial_kept okTx e.core op)
  refine ⟨hsteps.opened_le, ?_⟩
  show e.out.length ≤ (e.out ++ op.sentBytes okTx e.core).length
  rw [List.length_append]
  exact Nat.le_add_right _ _

theorem Net.Bounded.before {n : Net} {a : Act} (h : (n.next a).Bounded) : n.Bounded := by
  cases a with
  | left op =>
    obtain ⟨hopened, hout⟩ := n.left.call_le op
    exact ⟨⟨Nat.le_trans hopened h.left.1, Nat.lt_of_le_of_lt hout h.left.2⟩, h.right⟩
  | right op =>
    obtain ⟨hopened, hout⟩ := n.right.call_le op
    exact ⟨h.left, ⟨Nat.le_trans hopened h.right.1, Nat.lt_of_le_of_lt hout h.right.2⟩⟩

theorem connected_of_calls {acts : List Act} {n : Net}
    (h : Calls Net.Allows Net.next .init acts n) (hbounded : n.Bounded) :
    Connected n.left n.right := by
  induction h with
  | nil => exact ⟨⟨0, true, false⟩, ⟨0, true, false⟩, .init _ _ rfl, .init _ _ rfl⟩
  | @snoc n acts a _ hallowed ih =>
    have hn := hbounded.before
    cases a with
    | left op => exact (ih hn).call hallowed hbounded.left.1 hn.right.2
    | right op => exact ((ih hn).symm.call hallowed hbounded.right.1 hn.left.2).symm

theorem Side.received (h : Side l l' e e') (i : Nat) :
    e.got ++ (e.core.conns i).rxBuf.bytes <+: e'.out := by
  cases hi : (e.core.conns i).used with
  | false =>
    rw [(h.free i hi).buffer, List.append_nil]
    exact h.got
  | true =>
    have hgets := h.gets i hi
    exact hgets.placed ▸ hgets.stream

/-- In every interleaving of calls and deliveries, what was received at one end
is a prefix of what was sent at the other end. -/
theorem stream_received (acts : List Act) (n : Net) (h : Calls Net.Allows Net.next .init acts n)
    (hbounded : n.Bounded) (i : Nat) :
    n.left.got ++ (n.left.core.conns i).rxBuf.bytes <+: n.right.out ∧
      n.right.got ++ (n.right.core.conns i).rxBuf.bytes <+: n.left.out := by
  obtain ⟨l, l', hl, hl'⟩ := connected_of_calls h hbounded
  exact ⟨hl.received i, hl'.received i⟩

/-- The packet that was sent last. -/
def latest (sent : List Packet) : Packet := sent.headD ⟨0, 0, [], by decide⟩

theorem latest_mem {sent : List Packet} (h : sent.isEmpty = false) : latest sent ∈ sent := by
  cases sent with
  | nil => cases h
  | cons p sent => exact List.mem_cons_self

theorem calls_deliver {acts : List Act} {n : Net} (h : Calls Net.Allows Net.next .init acts n) :
    (n.left.core.sent.isEmpty = false → Calls Net.Allows Net.next .init
      (acts ++ [.right (.input (latest n.left.core.sent))])
      (n.next (.right (.input (latest n.left.core.sent))))) ∧
    (n.right.core.sent.isEmpty = false → Calls Net.Allows Net.next .init
      (acts ++ [.left (.input (latest n.right.core.sent))])
      (n.next (.left (.input (latest n.right.core.sent))))) :=
  ⟨fun hs => .snoc h (latest_mem hs), fun hs => .snoc h (latest_mem hs)⟩

/-- Three bytes are sent, and two of them are read. -/
theorem stream_received_three :
    ∃ acts n, Calls Net.Allows Net.next .init acts n ∧ n.Bounded ∧ n.left.out = [1, 2, 3] ∧
      n.right.got = [1, 2] ∧ (n.right.core.conns 0).rxBuf.bytes = [3] ∧
      n.right.got ++ (n.right.core.conns 0).rxBuf.bytes <+: n.left.out := by
  have hlisten : Calls Net.Allows Net.next .init ([] ++ [.right (.listen 0x0200000A 80 1)]) _ :=
    .snoc .nil trivial
  have hconnect : Calls Net.Allows Net.next .init
      (_ ++ [.left (.connect 0x0100000A 1000 0x0200000A 80)]) _ := .snoc hlisten trivial
  have hsyn := (calls_deliver hconnect).1 (by decide)
  have hsynAck := (calls_deliver hsyn).2 (by decide)
  have hack := (calls_deliver hsynAck).1 (by decide)
  have hsend : Calls Net.Allows Net.next .init (_ ++ [.left (.send 1 [1, 2, 3])]) _ :=
    .snoc hack trivial
  have hdata := (calls_deliver hsend).1 (by decide)
  have hrecv : Calls Net.Allows Net.next .init (_ ++ [.right (.recv 1 2)]) _ :=
    .snoc hdata trivial
  refine ⟨_, _, hrecv, ⟨by decide, by decide⟩, by decide,
    by decide, by decide, ?_⟩
  exact (stream_received _ _ hrecv ⟨by decide, by decide⟩ 0).2

end Tcp
