import OpenWindows.Tcp.Stream

/-!
# The tables of the core

Which connection a segment belongs to, and what awaits `tcp_accept`, depends on
little of the state.  An *entry* is what the table of connections says of one of
them: whether it is used, how it was opened, whether it was accepted, and its
addresses and ports.  The entries and the listeners are the *table* of a core.

A call that opens no connection is a chain of `Table.Step`s: a connection is
accepted or released, a free slot is cleared, or a listener is added or gets a
new backlog (`Core.next_table`).  A call that opens one adds its entry in a free slot, and
`Core.Connects` and `Core.Spawns` say when it does.
-/

namespace Tcp

/-! ## Entries -/

/-- What the table says of a connection. -/
structure Entry where
  used : Bool
  passive : Bool
  accepted : Bool
  localIp : UInt32
  remoteIp : UInt32
  localPort : UInt16
  remotePort : UInt16

def Entry.free : Entry := ⟨false, false, false, 0, 0, 0, 0⟩

def Conn.entry (c : Conn) : Entry :=
  ⟨c.used, c.passive, c.accepted, c.localIp, c.remoteIp, c.localPort, c.remotePort⟩

/-- The entries and the listeners of a core. -/
structure Table where
  entries : Nat → Entry
  listeners : Nat → Listener

def Core.table (k : Core) : Table := ⟨fun i => (k.conns i).entry, k.listeners⟩

/-- Store an entry. -/
def Table.set (t : Table) (i : Nat) (e : Entry) : Table :=
  { t with entries := Function.update t.entries i e }

def Table.setListener (t : Table) (j : Nat) (l : Listener) : Table :=
  { t with listeners := Function.update t.listeners j l }

@[simp] theorem Table.set_entries_self (t : Table) (i : Nat) (e : Entry) :
    (t.set i e).entries i = e := Function.update_self ..

@[simp] theorem Table.set_entries_of_ne {i j : Nat} (h : j ≠ i) (t : Table) (e : Entry) :
    (t.set i e).entries j = t.entries j := Function.update_of_ne h ..

@[simp] theorem Table.setListener_listeners_self (t : Table) (j : Nat) (l : Listener) :
    (t.setListener j l).listeners j = l := Function.update_self ..

@[simp] theorem Table.setListener_listeners_of_ne {i j : Nat} (h : i ≠ j) (t : Table)
    (l : Listener) : (t.setListener j l).listeners i = t.listeners i := Function.update_of_ne h ..

/-- `tcp_find_listener` on a table. -/
def Table.findListener (t : Table) (port : UInt16) : Option Nat :=
  (List.range maxListeners).find? fun j =>
    (t.listeners j).used && (t.listeners j).localPort == port

/-- One child less awaits `tcp_accept` on a port of a table. -/
def Table.unpend (t : Table) (port : UInt16) : Table :=
  match t.findListener port with
  | some j =>
    if 0 < (t.listeners j).pending then
      t.setListener j { t.listeners j with pending := (t.listeners j).pending - 1 }
    else t
  | none => t

/-- An entry awaits `tcp_accept`. -/
def Entry.awaits (e : Entry) : Bool := e.passive && !e.accepted

/-- `tcp_release` on a table. -/
def Table.release (t : Table) (i : Nat) : Table :=
  (if (t.entries i).awaits then t.unpend (t.entries i).localPort else t).set i .free

def Table.accept (t : Table) (i : Nat) : Table :=
  (t.set i { t.entries i with accepted := true }).unpend (t.entries i).localPort

/-- What a call does to a table, unless it opens a connection. -/
inductive Table.Step (t : Table) : Table → Prop where
  | accept {i : Nat} : i < maxConns → (t.entries i).used = true → (t.entries i).awaits = true →
      Step t (t.accept i)
  | release {i : Nat} : i < maxConns → (t.entries i).used = true → Step t (t.release i)
  | clear {i : Nat} : (t.entries i).used = false → Step t (t.set i .free)
  | backlog (j : Nat) (n : UInt16) : Step t (t.setListener j { t.listeners j with backlog := n })
  | listen {j : Nat} {l : Listener} : j < maxListeners → (t.listeners j).used = false →
      t.findListener l.localPort = none → l.pending = 0 → Step t (t.setListener j l)

def Table.Steps : Table → Table → Prop := Relation.ReflTransGen Table.Step

theorem Table.Steps.invariant {I : Table → Prop} (hstep : ∀ t t', Table.Step t t' → I t → I t')
    {t t' : Table} (h : t.Steps t') (ht : I t) : I t' := by
  induction h with
  | refl => exact ht
  | tail _ hs ih => exact hstep _ _ hs ih

/-! ## Entries of connections -/

variable {tx : IpTx} {k : Core} {i : Nat} {c : Conn}

variable {s : Segment}

theorem Conn.entry_onAck_passed {c' : Conn} (h : c.onAck s = .passed c') : c'.entry = c.entry := by
  rcases Conn.onAck_passed h with rfl | ⟨-, -, -, rfl⟩ | ⟨-, -, -, -, rfl⟩ <;> rfl

theorem Conn.entry_onAck_connected {c' : Conn} (h : c.onAck s = .connected c') :
    c'.entry = c.entry := by
  obtain ⟨-, -, -, rfl⟩ := Conn.onAck_connected h
  rfl

theorem Conn.entry_onData (c : Conn) (s : Segment) : (c.onData s).entry = c.entry := by
  unfold Conn.onData
  split
  · rfl
  · rfl

theorem Conn.entry_afterFin (c : Conn) : c.afterFin.entry = c.entry := by
  unfold Conn.afterFin
  split
  · rfl
  · rfl
  · rfl

theorem Conn.entry_complete (c : Conn) : c.complete.entry = c.entry := by
  rcases c.complete_cases with heq | ⟨-, -, heq⟩ | ⟨-, -, heq⟩ <;> rw [heq] <;> rfl

/-! ## Tables of cores -/

theorem Core.setConn_table (h : c.entry = (k.conns i).entry) : (k.setConn i c).table = k.table := by
  have hentries : (fun j => ((k.setConn i c).conns j).entry) = fun j => (k.conns j).entry := by
    funext j
    by_cases hj : j = i
    · subst hj
      simpa [Core.setConn] using h
    · simp [Core.setConn, hj]
  rw [Core.table, Core.table, hentries]
  rfl

theorem Core.setConn_table_set (k : Core) (i : Nat) (c : Conn) :
    (k.setConn i c).table = k.table.set i c.entry := by
  have hentries : (fun j => ((k.setConn i c).conns j).entry) =
      Function.update (fun j => (k.conns j).entry) i c.entry := by
    funext j
    by_cases hj : j = i
    · subst hj
      simp [Core.setConn]
    · simp [Core.setConn, hj]
  rw [Core.table, hentries]
  rfl

theorem Core.setConn_steps (h : c.entry = (k.conns i).entry) :
    k.table.Steps (k.setConn i c).table := by
  rw [Core.setConn_table h]
  exact .refl

theorem Core.modify_table {f : Conn → Conn} (h : (f (k.conns i)).entry = (k.conns i).entry) :
    (k.modify i f).table = k.table := Core.setConn_table h

theorem tcpEmit_table (tx : IpTx) (k : Core) (i : Nat) (flags : UInt8) (payload : List UInt8)
    (save : Bool) : (tcpEmit tx k i flags payload save).2.table = k.table := by
  unfold tcpEmit
  split
  · refine Core.setConn_table ?_
    cases save <;> rfl
  · rfl

theorem Core.unpend_table (k : Core) (port : UInt16) :
    (k.unpend port).table = k.table.unpend port := by
  unfold Core.unpend Table.unpend
  rw [show k.table.findListener port = findListener k port from rfl]
  cases findListener k port with
  | none => rfl
  | some j => exact apply_ite Core.table _ _ _

theorem release_table (k : Core) (i : Nat) : (release k i).table = k.table.release i := by
  unfold release Table.release
  dsimp only
  rw [Core.setConn_table_set, apply_ite Core.table, Core.unpend_table]
  rfl

theorem release_table_steps (hi : i < maxConns) (hused : (k.conns i).used = true) :
    k.table.Steps (release k i).table := by
  rw [release_table]
  exact .single (.release hi hused)

/-! ## Segments for a connection -/

theorem used_of_table {k' : Core} (h : k'.table = k.table) :
    (k'.conns i).used = (k.conns i).used :=
  congrArg Entry.used (congrFun (congrArg Table.entries h) i)

theorem inputComplete_table (hi : i < maxConns) (hused : (k.conns i).used = true) :
    k.table.Steps (inputComplete k i).2.table := by
  have hcomplete : (k.modify i Conn.complete).table = k.table :=
    Core.modify_table (Conn.entry_complete _)
  unfold inputComplete
  dsimp only
  split
  · rw [← hcomplete]
    exact release_table_steps hi ((used_of_table hcomplete).trans hused)
  · rw [hcomplete]
    exact .refl

theorem inputFin_table (tx : IpTx) (k : Core) (i : Nat) (s : Segment) :
    (inputFin tx k i s).table = k.table := by
  unfold inputFin
  split
  · dsimp only
    rw [Core.modify_table (Conn.entry_afterFin _), tcpEmit_table, Core.modify_table rfl]
  · rfl

theorem inputData_table (hi : i < maxConns) (hused : (k.conns i).used = true) :
    k.table.Steps (inputData tx k i s).2.table := by
  -- what comes after a core with the same table
  have hrest : ∀ k' : Core, k'.table = k.table →
      k.table.Steps (inputComplete (inputFin tx k' i s) i).2.table := by
    intro k' hk'
    have hfin : (inputFin tx k' i s).table = k.table := (inputFin_table tx k' i s).trans hk'
    rw [← hfin]
    exact inputComplete_table hi ((used_of_table hfin).trans hused)
  have hdata : (tcpEmit tx (k.modify i (·.onData s)) i flagAck [] false).2.table = k.table := by
    rw [tcpEmit_table, Core.modify_table (Conn.entry_onData _ s)]
  unfold inputData
  split
  · split
    · dsimp only
      split
      · rw [hdata]
        exact .refl
      · exact hrest _ hdata
    · exact hrest k rfl
  · exact inputComplete_table hi hused

theorem inputConn_table (hi : i < maxConns) (hused : (k.conns i).used = true) :
    k.table.Steps (inputConn tx k i s).2.table := by
  unfold inputConn
  split
  · exact release_table_steps hi hused
  · split
    · exact .refl
    next c hack =>
      rw [tcpEmit_table, Core.setConn_table (Conn.entry_onAck_connected hack)]
      exact .refl
    next c hack =>
      have hset : (k.setConn i c).table = k.table :=
        Core.setConn_table (Conn.entry_onAck_passed hack)
      rw [← hset]
      exact inputData_table hi ((used_of_table hset).trans hused)

/-! ## Calls that open a connection -/

/-- `tcp_connect` opens a connection: its arguments are valid, the tables hold
none that it takes for the same, a slot is free and the hook takes the SYN. -/
structure Core.Connects (tx : IpTx) (k : Core) (lip : UInt32) (lport : UInt16) (rip : UInt32)
    (rport : UInt16) : Prop where
  initialized : k.initialized = true
  valid : lport ≠ 0 ∧ rport ≠ 0 ∧ rip ≠ 0
  unknown : find k rip rport lip lport = none
  free : ∃ i, allocConn k = some i
  sent : tx k.sent ((Conn.active (nextIsn k).1 lip lport rip rport).packet flagSyn []
    (Nat.zero_le _)) = .ok

/-- `tcp_input` opens a connection: the segment is a SYN for none that the
tables hold, a listener has room for it and a slot is free. -/
structure Core.Spawns (k : Core) (p : Packet) (s : Segment) : Prop where
  initialized : k.initialized = true
  parsed : parseSegment p = some s
  unknown : find k p.src s.srcPort p.dst s.dstPort = none
  syn : has s.flags flagSyn = true ∧ has s.flags flagAck = false
  listener : ∃ j, findListener k s.dstPort = some j ∧
    (k.listeners j).pending < (k.listeners j).backlog
  free : ∃ i, allocConn k = some i

/-- The entry of a connection of `tcp_connect`, or of a child. -/
def Entry.opened (passive : Bool) (lip : UInt32) (lport : UInt16) (rip : UInt32)
    (rport : UInt16) : Entry := ⟨true, passive, false, lip, rip, lport, rport⟩

/-- The call opens the entry. -/
inductive Core.Opens (tx : IpTx) (k : Core) : Op → Entry → Prop where
  | connect {lip : UInt32} {lport : UInt16} {rip : UInt32} {rport : UInt16} :
      k.Connects tx lip lport rip rport →
      Opens tx k (.connect lip lport rip rport) (.opened false lip lport rip rport)
  | input {p : Packet} {s : Segment} :
      k.Spawns p s → Opens tx k (.input p) (.opened true p.dst s.dstPort p.src s.srcPort)

/-- The entry is added. -/
inductive Table.Adds (t : Table) : Entry → Table → Prop where
  | active {i : Nat} {lip : UInt32} {lport : UInt16} {rip : UInt32} {rport : UInt16} :
      i < maxConns → (t.entries i).used = false →
      Adds t (.opened false lip lport rip rport) (t.set i (.opened false lip lport rip rport))
  | child {i j : Nat} {lip : UInt32} {lport : UInt16} {rip : UInt32} {rport : UInt16} :
      i < maxConns → (t.entries i).used = false → t.findListener lport = some j →
      (t.listeners j).pending < (t.listeners j).backlog →
      Adds t (.opened true lip lport rip rport)
        ((t.set i (.opened true lip lport rip rport)).setListener j
          { t.listeners j with pending := (t.listeners j).pending + 1 })

theorem allocConn_lt (h : allocConn k = some i) : i < maxConns :=
  List.mem_range.mp (List.mem_of_find?_eq_some h)

theorem Core.install_table (k : Core) (i : Nat) (c : Conn) :
    (k.install i c).table = k.table.set i c.entry := Core.setConn_table_set k i c

theorem nextIsn_core (k : Core) : ∃ seed, (nextIsn k).2 = { k with issSeed := seed } := by
  simp only [nextIsn]
  exact ⟨_, rfl⟩

theorem tcpConnect_table (tx : IpTx) (k : Core) (lip : UInt32) (lport : UInt16) (rip : UInt32)
    (rport : UInt16) :
    (k.Connects tx lip lport rip rport ∧
      k.table.Adds (.opened false lip lport rip rport) (tcpConnect tx k lip lport rip rport).2.table) ∨
    (¬ k.Connects tx lip lport rip rport ∧
      k.table.Steps (tcpConnect tx k lip lport rip rport).2.table) := by
  unfold tcpConnect
  split
  next h => exact .inr ⟨fun hc => by simp [hc.initialized] at h, .refl⟩
  next hinit =>
    split
    next h => exact .inr ⟨fun hc => by simp [hc.valid] at h, .refl⟩
    next hvalid =>
      split
      next h => exact .inr ⟨fun hc => by simp [hc.unknown] at h, .refl⟩
      next hfind =>
        split
        next h =>
          refine .inr ⟨fun hc => ?_, .refl⟩
          obtain ⟨i, hi⟩ := hc.free
          cases h.symm.trans hi
        next i hfree =>
          have hvalid : lport ≠ 0 ∧ rport ≠ 0 ∧ rip ≠ 0 := by simpa [not_or] using hvalid
          have hunused : (k.table.entries i).used = false := allocConn_unused hfree
          dsimp only
          obtain ⟨seed, hseed⟩ := nextIsn_core k
          rw [hseed]
          have hsent : (tcpEmit tx (Core.install { k with issSeed := seed } i
              (.active (nextIsn k).1 lip lport rip rport)) i flagSyn [] true).1 =
              tx k.sent ((Conn.active (nextIsn k).1 lip lport rip rport).packet flagSyn []
                (Nat.zero_le _)) := by
            rw [tcpEmit_eq (Nat.zero_le _)]
            simp [Core.install, Core.setConn]
          have hadded : (tcpEmit tx (Core.install { k with issSeed := seed } i
              (.active (nextIsn k).1 lip lport rip rport)) i flagSyn [] true).2.table =
              k.table.set i (.opened false lip lport rip rport) := by
            rw [tcpEmit_table, Core.install_table]
            rfl
          rw [hsent]
          split
          next hfail =>
            refine .inr ⟨fun hc => hfail hc.sent, ?_⟩
            rw [Core.setConn_table_set, hadded, Table.set, Table.set, Function.update_idem]
            exact .single (.clear hunused)
          next hok =>
            refine .inl ⟨⟨by simpa using hinit, hvalid, by simpa using hfind, ⟨i, hfree⟩,
              not_not.mp hok⟩, ?_⟩
            rw [hadded]
            exact .active (allocConn_lt hfree) hunused

theorem passiveOpen_table (tx : IpTx) (k : Core) (lip : UInt32) (lport : UInt16) (rip : UInt32)
    (rport : UInt16) (seq : UInt32) (window : UInt16) :
    (((∃ j, findListener k lport = some j ∧ (k.listeners j).pending < (k.listeners j).backlog) ∧
        ∃ i, allocConn k = some i) ∧
      k.table.Adds (.opened true lip lport rip rport)
        (passiveOpen tx k lip lport rip rport seq window).2.table) ∨
    (¬ ((∃ j, findListener k lport = some j ∧ (k.listeners j).pending < (k.listeners j).backlog) ∧
        ∃ i, allocConn k = some i) ∧
      k.table.Steps (passiveOpen tx k lip lport rip rport seq window).2.table) := by
  unfold passiveOpen
  split
  next h =>
    refine .inr ⟨?_, .refl⟩
    rintro ⟨⟨j, hj, -⟩, -⟩
    cases h.symm.trans hj
  next j hj =>
    split
    next hfull =>
      refine .inr ⟨?_, .refl⟩
      rintro ⟨⟨j', hj', hroom⟩, -⟩
      cases Option.some.inj (hj.symm.trans hj')
      exact UInt16.not_lt.mpr hfull hroom
    next hroom =>
      split
      next h =>
        refine .inr ⟨?_, .refl⟩
        rintro ⟨-, i, hi⟩
        cases h.symm.trans hi
      next i hfree =>
        have hunused : (k.table.entries i).used = false := allocConn_unused hfree
        have hroom : (k.listeners j).pending < (k.listeners j).backlog :=
          UInt16.not_le.mp hroom
        dsimp only
        obtain ⟨seed, hseed⟩ := nextIsn_core k
        rw [hseed, tcpEmit_table]
        refine .inl ⟨⟨⟨j, hj, hroom⟩, i, hfree⟩, ?_⟩
        have hadded : Core.table (Core.setListener (Core.install { k with issSeed := seed } i
            (.child (nextIsn k).1 lip lport rip rport seq window)) j
              { k.listeners j with pending := (k.listeners j).pending + 1 }) =
            (k.table.set i (.opened true lip lport rip rport)).setListener j
              { k.table.listeners j with pending := (k.table.listeners j).pending + 1 } := by
          rw [← show (Core.install { k with issSeed := seed } i
            (.child (nextIsn k).1 lip lport rip rport seq window)).table =
              k.table.set i (.opened true lip lport rip rport) from Core.install_table ..]
          rfl
        exact hadded ▸ .child (allocConn_lt hfree) hunused hj hroom

theorem find_lt {rip lip : UInt32} {rport lport : UInt16}
    (h : find k rip rport lip lport = some i) : i < maxConns :=
  List.mem_range.mp (List.mem_of_find?_eq_some h)

theorem tcpInput_table (tx : IpTx) (k : Core) (p : Packet) :
    (∃ s, k.Spawns p s ∧
      k.table.Adds (.opened true p.dst s.dstPort p.src s.srcPort) (tcpInput tx k p).2.table) ∨
    ((∀ s, ¬ k.Spawns p s) ∧ k.table.Steps (tcpInput tx k p).2.table) := by
  unfold tcpInput
  split
  next h => exact .inr ⟨fun s hs => by simp [hs.initialized] at h, .refl⟩
  next hinit =>
    split
    next h =>
      refine .inr ⟨fun s hs => ?_, .refl⟩
      cases h.symm.trans hs.parsed
    next s hparsed =>
      have hsame : ∀ s', k.Spawns p s' → s' = s := fun s' hs =>
        Option.some.inj (hs.parsed.symm.trans hparsed)
      split
      next hfind =>
        unfold inputStray
        split
        next hsyn =>
          rcases passiveOpen_table tx k p.dst s.dstPort p.src s.srcPort s.seq s.window with
            ⟨⟨hl, hfree⟩, hadds⟩ | ⟨hno, hsteps⟩
          · exact .inl ⟨s, ⟨by simpa using hinit, hparsed, hfind, by simpa using hsyn, hl, hfree⟩,
              hadds⟩
          · refine .inr ⟨fun s' hs => ?_, hsteps⟩
            cases hsame s' hs
            exact hno ⟨hs.listener, hs.free⟩
        next hsyn =>
          refine .inr ⟨fun s' hs => ?_, ?_⟩
          · cases hsame s' hs
            simp [hs.syn] at hsyn
          · split
            · exact .refl
            · exact .refl
      next i hfind =>
        refine .inr ⟨fun s' hs => ?_, inputConn_table (find_lt hfind) (find_used hfind)⟩
        cases hsame s' hs
        cases hfind.symm.trans hs.unknown

/-! ## Other calls -/

theorem tcpListen_table (k : Core) (lip : UInt32) (lport backlog : UInt16) :
    k.table.Steps (tcpListen k lip lport backlog).2.table := by
  unfold tcpListen
  split
  · exact .refl
  · dsimp only
    split
    next j _ => exact .single (.backlog j _)
    next hnone =>
      split
      next j hj =>
        have hfree : (k.listeners j).used = false := by simpa using List.find?_some hj
        exact .single (.listen (List.mem_range.mp (List.mem_of_find?_eq_some hj)) hfree hnone rfl)
      · exact .refl

theorem tcpAccept_table (k : Core) (lip : UInt32) (lport : UInt16) :
    k.table.Steps (tcpAccept k lip lport).2.2.table := by
  unfold tcpAccept
  split
  next i hi =>
    have hok := List.find?_some hi
    simp only [Conn.acceptable, Bool.and_eq_true, beq_iff_eq, Bool.not_eq_true'] at hok
    have hport : lport = (k.table.entries i).localPort := hok.1.2.symm
    have hawaits : (k.table.entries i).awaits = true := by
      simp [Entry.awaits, Core.table, Conn.entry, hok.1.1.1]
    dsimp only
    rw [Core.unpend_table, Core.setConn_table_set, hport]
    exact .single (.accept (List.mem_range.mp (List.mem_of_find?_eq_some hi)) hok.1.1.1.1.1 hawaits)
  · exact .refl

theorem tcpSend_table (tx : IpTx) (k : Core) (id : Int) (data : List UInt8) :
    (tcpSend tx k id data).2.table = k.table := by
  unfold tcpSend
  split
  · rfl
  · dsimp only
    split
    · rfl
    · split
      · rfl
      · split
        · rfl
        · split
          · rfl
          · exact tcpEmit_table ..

theorem tcpRecv_table (k : Core) (id : Int) (cap : Nat) :
    (tcpRecv k id cap).2.2.table = k.table := by
  unfold tcpRecv
  split
  · rfl
  · dsimp only
    split
    · split
      · rfl
      · rfl
    · exact Core.setConn_table rfl

theorem connAt_spec {id : Int} (h : connAt k id = some i) :
    i < maxConns ∧ (k.conns i).used = true := by
  unfold connAt at h
  split at h
  · cases h
  next hid =>
    split at h
    next hused =>
      cases h
      have hmax : id ≤ maxConns := by omega
      refine ⟨?_, hused⟩
      omega
    · cases h

theorem tcpClose_table (tx : IpTx) (k : Core) (id : Int) :
    k.table.Steps (tcpClose tx k id).2.table := by
  unfold tcpClose
  split
  · exact .refl
  next i hi =>
    obtain ⟨hlt, hused⟩ := connAt_spec hi
    dsimp only
    split
    · rw [tcpEmit_table]
      exact Core.setConn_steps rfl
    · rw [tcpEmit_table]
      exact Core.setConn_steps rfl
    · exact release_table_steps hlt hused
    · exact release_table_steps hlt hused
    · exact .refl
    · exact .refl

theorem tickConn_table (tx : IpTx) (elapsed : UInt32) (k : Core) (hi : i < maxConns) :
    k.table.Steps (tickConn tx elapsed k i).table := by
  unfold tickConn
  dsimp only
  split
  · exact .refl
  next hused =>
    split
    · split
      · exact release_table_steps hi (by simpa using hused)
      · exact Core.setConn_steps rfl
    · split
      · exact .refl
      · split
        · exact Core.setConn_steps rfl
        · exact Core.setConn_steps rfl

theorem tickLoop_table (tx : IpTx) (elapsed : UInt32) (slots : List Nat)
    (hslots : ∀ i ∈ slots, i < maxConns) (k : Core) :
    k.table.Steps (slots.foldl (tickConn tx elapsed) k).table := by
  induction slots generalizing k with
  | nil => exact .refl
  | cons i slots ih =>
    have hi := hslots i List.mem_cons_self
    have hrest := fun j hj => hslots j (List.mem_cons_of_mem _ hj)
    exact (tickConn_table tx elapsed k hi).trans (ih hrest _)

theorem tcpTick_table (tx : IpTx) (k : Core) (elapsed : UInt32) :
    k.table.Steps (tcpTick tx k elapsed).2.table := by
  unfold tcpTick
  split
  · exact .refl
  · exact tickLoop_table tx elapsed _ (fun _ => List.mem_range.mp) k

theorem Core.next_table (tx : IpTx) (k : Core) (op : Op) :
    (∃ e, k.Opens tx op e ∧ k.table.Adds e (k.next tx op).table) ∨
    ((∀ e, ¬ k.Opens tx op e) ∧ k.table.Steps (k.next tx op).table) := by
  cases op with
  | connect lip lport rip rport =>
    rcases tcpConnect_table tx k lip lport rip rport with ⟨h, hadds⟩ | ⟨h, hsteps⟩
    · exact .inl ⟨_, .connect h, hadds⟩
    · refine .inr ⟨?_, hsteps⟩
      rintro e ⟨hc⟩
      exact h hc
  | listen lip lport backlog => exact .inr ⟨fun _ h => (by cases h), tcpListen_table k lip lport backlog⟩
  | accept lip lport => exact .inr ⟨fun _ h => (by cases h), tcpAccept_table k lip lport⟩
  | send id data =>
    refine .inr ⟨fun _ h => (by cases h), ?_⟩
    rw [Core.next, tcpSend_table]
    exact .refl
  | recv id cap =>
    refine .inr ⟨fun _ h => (by cases h), ?_⟩
    rw [Core.next, tcpRecv_table]
    exact .refl
  | close id => exact .inr ⟨fun _ h => (by cases h), tcpClose_table tx k id⟩
  | tick elapsed => exact .inr ⟨fun _ h => (by cases h), tcpTick_table tx k elapsed⟩
  | input p =>
    rcases tcpInput_table tx k p with ⟨s, hs, hadds⟩ | ⟨h, hsteps⟩
    · exact .inl ⟨_, .input hs, hadds⟩
    · refine .inr ⟨?_, hsteps⟩
      rintro e (hc | hs)
      exact h _ hs

end Tcp
