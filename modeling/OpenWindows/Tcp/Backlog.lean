import OpenWindows.Lib.Slots
import OpenWindows.Tcp.Table

/-!
# What awaits `tcp_accept`

A listener counts the children that await `tcp_accept`.  They leave the count
when they are accepted and when they are released, and in every state of every
run the count is the number of used connections on the port that are passive and
not yet accepted (`Table.Counted`).

`tcp_accept` takes connections in `ESTABLISHED` only.  A child whose peer sent a
FIN before the server called `tcp_accept` is in `CLOSE_WAIT`.  It is never handed
to the server, and it keeps its place in the backlog.  Every child that completed
its handshake is handed over, in every state of a run, exactly when no FIN is
consumed for a child that awaits `tcp_accept` and no such child is closed.
-/

namespace Tcp

open Slots StepSystem

/-! ## The count -/

/-- An entry awaits `tcp_accept` on a port. -/
def Entry.waitsOn (e : Entry) (port : UInt16) : Bool :=
  e.used && e.awaits && e.localPort == port

/-- The number of entries that await `tcp_accept` on a port. -/
def Table.waiting (t : Table) (port : UInt16) : Nat :=
  (List.range maxConns).countP fun i => (t.entries i).waitsOn port

/-- Each listener counts the connections that wait for it. -/
structure Table.Counted (t : Table) : Prop where
  counts : ∀ j, j < maxListeners → (t.listeners j).used = true →
    (t.listeners j).pending.toNat = t.waiting (t.listeners j).localPort
  listened : ∀ i port, i < maxConns → (t.entries i).waitsOn port = true →
    ∃ j, j < maxListeners ∧ (t.listeners j).used = true ∧ (t.listeners j).localPort = port
  single : ∀ j j', j < maxListeners → j' < maxListeners → (t.listeners j).used = true →
    (t.listeners j').used = true → (t.listeners j).localPort = (t.listeners j').localPort → j = j'

variable {t t' : Table} {e : Entry} {i j : Nat} {port : UInt16}

theorem Table.waiting_set (hi : i < maxConns) (t : Table) (e : Entry) (port : UInt16) :
    (t.set i e).waiting port + ((t.entries i).waitsOn port).toNat =
      t.waiting port + (e.waitsOn port).toNat := by
  have hupdate := countP_range_update (fun j => (t.entries j).waitsOn port)
    (fun j => ((t.set i e).entries j).waitsOn port) hi fun j hj => by
      rw [Table.set_entries_of_ne hj]
  rwa [Table.set_entries_self] at hupdate

theorem Table.waiting_set_of_eq (h : e.waitsOn port = (t.entries i).waitsOn port) :
    (t.set i e).waiting port = t.waiting port := by
  refine countP_range_congr fun j _ => ?_
  by_cases hj : j = i
  · rw [hj, Table.set_entries_self, h]
  · rw [Table.set_entries_of_ne hj]

theorem Table.findListener_spec (h : t.findListener port = some j) :
    j < maxListeners ∧ (t.listeners j).used = true ∧ (t.listeners j).localPort = port := by
  obtain ⟨hj, hp⟩ := find?_range_spec h
  rw [Bool.and_eq_true, beq_iff_eq] at hp
  exact ⟨hj, hp⟩

theorem Table.findListener_none (h : t.findListener port = none) (hj : j < maxListeners)
    (hused : (t.listeners j).used = true) : (t.listeners j).localPort ≠ port := by
  have hno := find?_range_none h hj
  rw [hused, Bool.true_and, beq_eq_false_iff_ne] at hno
  exact hno

theorem Table.Counted.find (h : t.Counted) (hj : j < maxListeners)
    (hused : (t.listeners j).used = true) : t.findListener (t.listeners j).localPort = some j := by
  obtain ⟨j', hj'⟩ : ∃ j', t.findListener (t.listeners j).localPort = some j' :=
    find?_range_isSome hj (by simp [hused])
  obtain ⟨hlt, hused', hport⟩ := Table.findListener_spec hj'
  rw [hj', h.single j' j hlt hj hused' hused hport]

theorem Table.Counted.keep (h : t.Counted)
    (hlisteners : ∀ j, (t'.listeners j).used = (t.listeners j).used ∧
      (t'.listeners j).localPort = (t.listeners j).localPort)
    (hentries : ∀ i port, i < maxConns → (t'.entries i).waitsOn port = true →
      ∃ j, j < maxListeners ∧ (t.listeners j).used = true ∧ (t.listeners j).localPort = port)
    (hcounts : ∀ j, j < maxListeners → (t.listeners j).used = true →
      (t'.listeners j).pending.toNat = t'.waiting (t.listeners j).localPort) : t'.Counted where
  counts j hj hused := by
    obtain ⟨hu, hp⟩ := hlisteners j
    rw [hp]
    exact hcounts j hj (hu ▸ hused)
  listened i port hi hwaits := by
    obtain ⟨j, hj, hused, hport⟩ := hentries i port hi hwaits
    obtain ⟨hu, hp⟩ := hlisteners j
    exact ⟨j, hj, hu.trans hused, hp.trans hport⟩
  single j j' hj hj' hused hused' hports := by
    obtain ⟨hu, hp⟩ := hlisteners j
    obtain ⟨hu', hp'⟩ := hlisteners j'
    exact h.single j j' hj hj' (hu ▸ hused) (hu' ▸ hused') (hp ▸ hp' ▸ hports)

theorem Entry.waitsOn_unique {port' : UInt16} (h : e.waitsOn port = true) (hne : port' ≠ port) :
    e.waitsOn port' = false := by
  have hport : e.localPort = port := by
    simp only [Entry.waitsOn, Bool.and_eq_true, beq_iff_eq] at h
    exact h.2
  simp [Entry.waitsOn, hport, hne.symm]

/-- One entry and its listener change, and the count of the listener follows. -/
theorem Table.Counted.move (h : t.Counted) {l : Listener} (hj : j < maxListeners)
    (hused : (t.listeners j).used = true) (hport : (t.listeners j).localPort = port)
    (hl : l.used = (t.listeners j).used ∧ l.localPort = (t.listeners j).localPort)
    (hpending : l.pending.toNat = (t.set i e).waiting port)
    (hothers : ∀ q, q ≠ port → (t.entries i).waitsOn q = false ∧ e.waitsOn q = false) :
    ((t.set i e).setListener j l).Counted := by
  refine h.keep (fun j' => ?_) (fun i' q hi' hw => ?_) fun j' hj' hused' => ?_
  · by_cases hjj : j' = j
    · rw [hjj, Table.setListener_listeners_self]
      exact hl
    · rw [Table.setListener_listeners_of_ne hjj]
      exact ⟨rfl, rfl⟩
  · by_cases hii : i' = i
    · have hself : ((t.set i e).entries i').waitsOn q = true := hw
      rw [hii, Table.set_entries_self] at hself
      have hq : q = port := by
        by_contra hne
        exact absurd (hself.symm.trans (hothers q hne).2) nofun
      exact ⟨j, hj, hused, hport.trans hq.symm⟩
    · refine h.listened i' q hi' ?_
      rw [← Table.set_entries_of_ne hii t e]
      exact hw
  · by_cases hjj : j' = j
    · rw [hjj, Table.setListener_listeners_self, hport]
      exact hpending
    · have hports : (t.listeners j').localPort ≠ port := by
        intro heq
        exact hjj (h.single j' j hj' hj hused' hused (heq.trans hport.symm))
      rw [Table.setListener_listeners_of_ne hjj]
      refine (h.counts j' hj' hused').trans (Table.waiting_set_of_eq ?_).symm
      rw [(hothers _ hports).1, (hothers _ hports).2]

theorem Table.Counted.leave (h : t.Counted) (hi : i < maxConns)
    (hwaits : (t.entries i).waitsOn port = true) (he : ∀ q, e.waitsOn q = false) :
    ((t.set i e).unpend port).Counted := by
  obtain ⟨j, hj, hused, hport⟩ := h.listened i port hi hwaits
  have hfind : (t.set i e).findListener port = some j := hport ▸ h.find hj hused
  have hwaiting : (t.set i e).waiting port + 1 = (t.listeners j).pending.toNat := by
    have hset := Table.waiting_set hi t e port
    rwa [hwaits, he port, ← hport, ← h.counts j hj hused, hport] at hset
  have hpos : 0 < (t.listeners j).pending := by
    rw [UInt16.lt_iff_toNat_lt, ← hwaiting]
    exact Nat.succ_pos _
  have hone : 1 ≤ (t.listeners j).pending := UInt16.le_iff_toNat_le.mpr hpos
  have hpending : ((t.listeners j).pending - 1).toNat = (t.set i e).waiting port := by
    rw [UInt16.toNat_sub_of_le _ _ hone, ← hwaiting]
    rfl
  unfold Table.unpend
  rw [hfind]
  dsimp only
  rw [if_pos (show 0 < ((t.set i e).listeners j).pending from hpos)]
  exact h.move hj hused hport ⟨rfl, rfl⟩ hpending fun q hq => ⟨Entry.waitsOn_unique hwaits hq, he q⟩

theorem Table.Counted.quiet (h : t.Counted) (hi : ∀ q, (t.entries i).waitsOn q = false)
    (he : ∀ q, e.waitsOn q = false) : (t.set i e).Counted := by
  refine h.keep (fun _ => ⟨rfl, rfl⟩) (fun i' q hi' hw => h.listened i' q hi' ?_) fun j hj hused => ?_
  · by_cases hii : i' = i
    · rw [hii, Table.set_entries_self, he] at hw
      cases hw
    · rwa [Table.set_entries_of_ne hii] at hw
  · rw [Table.waiting_set_of_eq ((he _).trans (hi _).symm)]
    exact h.counts j hj hused

theorem Table.Counted.enter (h : t.Counted) (hi : i < maxConns)
    (hfree : ∀ q, (t.entries i).waitsOn q = false) (hfind : t.findListener port = some j)
    (hwaits : e.waitsOn port = true) (hroom : (t.listeners j).pending < (t.listeners j).backlog) :
    ((t.set i e).setListener j
      { t.listeners j with pending := (t.listeners j).pending + 1 }).Counted := by
  obtain ⟨hj, hused, hport⟩ := Table.findListener_spec hfind
  have hwaiting : (t.set i e).waiting port = (t.listeners j).pending.toNat + 1 := by
    have hset := Table.waiting_set hi t e port
    rwa [hwaits, hfree port, ← hport, ← h.counts j hj hused, hport] at hset
  have hpending : ((t.listeners j).pending + 1).toNat = (t.set i e).waiting port := by
    have hlt := UInt16.lt_iff_toNat_lt.mp hroom
    have hmax := (t.listeners j).backlog.toNat_lt
    rw [hwaiting, UInt16.toNat_add]
    exact Nat.mod_eq_of_lt (Nat.lt_of_le_of_lt hlt hmax)
  exact h.move hj hused hport ⟨rfl, rfl⟩ hpending fun q hq =>
    ⟨hfree q, Entry.waitsOn_unique hwaits hq⟩

theorem Entry.waitsOn_of_unused (h : e.used = false) (q : UInt16) : e.waitsOn q = false := by
  rw [Entry.waitsOn, h]
  rfl

theorem Entry.waitsOn_of_settled (h : e.awaits = false) (q : UInt16) : e.waitsOn q = false := by
  rw [Entry.waitsOn, h, Bool.and_false]
  rfl

theorem Table.unpend_set (t : Table) (i : Nat) (e : Entry) (port : UInt16) :
    (t.unpend port).set i e = (t.set i e).unpend port := by
  unfold Table.unpend
  rw [show (t.set i e).findListener port = t.findListener port from rfl]
  cases t.findListener port with
  | none => rfl
  | some j => exact apply_ite (Table.set · i e) _ _ _

theorem Table.Counted.listen {l : Listener} (h : t.Counted) (hfree : (t.listeners j).used = false)
    (hnone : t.findListener l.localPort = none) (hpending : l.pending = 0) :
    (t.setListener j l).Counted := by
  have hother : ∀ j', (t.listeners j').used = true → (t.setListener j l).listeners j' = t.listeners j' := by
    intro j' hused
    refine Table.setListener_listeners_of_ne ?_ t l
    rintro rfl
    exact absurd (hused.symm.trans hfree) nofun
  refine ⟨fun j' hj' hused => ?_, fun i port hi hwaits => ?_, fun j₁ j₂ hj₁ hj₂ hu₁ hu₂ hports => ?_⟩
  · by_cases hjj : j' = j
    · rw [hjj, Table.setListener_listeners_self, hpending]
      refine (countP_range_eq_zero fun i hi => ?_).symm
      by_contra hwaits
      have hwaits : (t.entries i).waitsOn l.localPort = true := Bool.not_eq_false _ ▸ hwaits
      obtain ⟨j₀, hj₀, hused₀, hport₀⟩ := h.listened i _ hi hwaits
      exact Table.findListener_none hnone hj₀ hused₀ hport₀
    · rw [Table.setListener_listeners_of_ne hjj] at hused ⊢
      exact h.counts j' hj' hused
  · obtain ⟨j₀, hj₀, hused₀, hport₀⟩ := h.listened i port hi hwaits
    exact ⟨j₀, hj₀, by rw [hother j₀ hused₀]; exact hused₀, by rw [hother j₀ hused₀]; exact hport₀⟩
  · by_cases h₁ : j₁ = j <;> by_cases h₂ : j₂ = j
    · rw [h₁, h₂]
    · rw [h₁, Table.setListener_listeners_self, Table.setListener_listeners_of_ne h₂] at hports
      rw [Table.setListener_listeners_of_ne h₂] at hu₂
      exact absurd hports.symm (Table.findListener_none hnone hj₂ hu₂)
    · rw [h₂, Table.setListener_listeners_self, Table.setListener_listeners_of_ne h₁] at hports
      rw [Table.setListener_listeners_of_ne h₁] at hu₁
      exact absurd hports (Table.findListener_none hnone hj₁ hu₁)
    · rw [Table.setListener_listeners_of_ne h₁] at hu₁ hports
      rw [Table.setListener_listeners_of_ne h₂] at hu₂ hports
      exact h.single j₁ j₂ hj₁ hj₂ hu₁ hu₂ hports

theorem Table.Counted.step (h : t.Step t') (ht : t.Counted) : t'.Counted := by
  cases h with
  | @accept i hi hused hawaits =>
    refine ht.leave hi ?_ (Entry.waitsOn_of_settled ?_)
    · simp [Entry.waitsOn, hused, hawaits]
    · simp [Entry.awaits]
  | @release i hi hused =>
    unfold Table.release
    split
    next hawaits =>
      rw [Table.unpend_set]
      refine ht.leave hi ?_ (Entry.waitsOn_of_unused rfl)
      simp [Entry.waitsOn, hused, hawaits]
    next hawaits =>
      exact ht.quiet (Entry.waitsOn_of_settled (by simpa using hawaits))
        (Entry.waitsOn_of_unused rfl)
  | clear hfree => exact ht.quiet (Entry.waitsOn_of_unused hfree) (Entry.waitsOn_of_unused rfl)
  | backlog j n =>
    have hkept : ∀ j', ((t.setListener j { t.listeners j with backlog := n }).listeners j').used =
        (t.listeners j').used ∧
        ((t.setListener j { t.listeners j with backlog := n }).listeners j').localPort =
          (t.listeners j').localPort ∧
        ((t.setListener j { t.listeners j with backlog := n }).listeners j').pending =
          (t.listeners j').pending := by
      intro j'
      by_cases hjj : j' = j
      · rw [hjj, Table.setListener_listeners_self]
        exact ⟨rfl, rfl, rfl⟩
      · rw [Table.setListener_listeners_of_ne hjj]
        exact ⟨rfl, rfl, rfl⟩
    refine ht.keep (fun j' => ⟨(hkept j').1, (hkept j').2.1⟩) (fun i q hi hw => ht.listened i q hi hw)
      fun j' hj' hused => ?_
    rw [(hkept j').2.2]
    exact ht.counts j' hj' hused
  | @listen j l hj hfree hnone hpending => exact ht.listen hfree hnone hpending

variable {tx : IpTx} {k : Core} {op : Op}

/-- `tcp_accept` comes back empty when no child on its port and its address has
completed its handshake, and every such child is one that it takes. -/
structure Core.HandsOver (k : Core) : Prop where
  again : ∀ (lip : UInt32) (lport : UInt16), (tcpAccept k lip lport).1 = .again →
    ∀ i, i < maxConns → (k.conns i).used = true → (k.conns i).passive = true →
      (k.conns i).accepted = false → (k.conns i).localPort = lport →
      ((k.conns i).localIp = 0 ∨ (k.conns i).localIp = lip) →
      (k.conns i).state.synchronized = false
  offered : ∀ i, i < maxConns → (k.conns i).used = true → (k.conns i).passive = true →
    (k.conns i).accepted = false → (k.conns i).state.synchronized = true →
    (k.conns i).acceptable (k.conns i).localIp (k.conns i).localPort = true

/-- No FIN is consumed for a child that awaits `tcp_accept`, and none is closed. -/
def AcceptedFirst (tx : IpTx) (k : Core) : Op → Prop
  | .close id => ∀ i, connAt k id = some i → (k.conns i).state = .established →
      (k.conns i).entry.awaits = false
  | .input p => ∀ s i, ReachesFin tx k p s i → (k.conns i).entry.awaits = false
  | _ => True

/-- A child that completed its handshake and awaits `tcp_accept` is established. -/
def Conn.Ready (c : Conn) : Prop :=
  c.used = true → c.entry.awaits = true → c.state.synchronized = true → c.state = .established

theorem Conn.awaits_iff {c : Conn} :
    c.entry.awaits = true ↔ c.passive = true ∧ c.accepted = false := by
  simp [Entry.awaits, Conn.entry]

theorem Core.handsOver_iff : k.HandsOver ↔ ∀ i, i < maxConns → (k.conns i).Ready := by
  constructor
  · intro h i hi hused hawaits hsync
    obtain ⟨hpassive, haccepted⟩ := Conn.awaits_iff.mp hawaits
    have hok := h.offered i hi hused hpassive haccepted hsync
    simp only [Conn.acceptable, Bool.and_eq_true, beq_iff_eq] at hok
    exact hok.1.1.2
  · intro h
    refine ⟨fun lip lport hagain i hi hused hpassive haccepted hport hip => ?_,
      fun i hi hused hpassive haccepted hsync => ?_⟩
    · cases hsync : (k.conns i).state.synchronized with
      | false => rfl
      | true =>
        have hest := h i hi hused (Conn.awaits_iff.mpr ⟨hpassive, haccepted⟩) hsync
        obtain ⟨j, hj⟩ := find?_range_isSome (p := fun i => (k.conns i).acceptable lip lport) hi
          (by simp [Conn.acceptable, hused, hpassive, haccepted, hest, hport, hip])
        rw [tcpAccept, hj] at hagain
        cases hagain
    · have hest := h i hi hused (Conn.awaits_iff.mpr ⟨hpassive, haccepted⟩) hsync
      simp [Conn.acceptable, hused, hpassive, haccepted, hest]

/-! ## Events -/

/-- FINs are consumed for connections that await nothing, and such are closed. -/
def Promise.accepted : Promise :=
  { Promise.trivial with
    fin := fun c _ => c.entry.awaits = false
    close := fun c => c.entry.awaits = false }

variable {c c' : Conn}

theorem Conn.Ready.of_settled (h : c.entry.awaits = false) : c.Ready :=
  fun _ hawaits _ => absurd (hawaits.symm.trans h) nofun

theorem Conn.Ready.congr (h : c.Ready) (hentry : c'.entry = c.entry) (hstate : c'.state = c.state) :
    c'.Ready := by
  intro hused hawaits hsync
  rw [hstate] at hsync ⊢
  exact h ((congrArg Entry.used hentry).symm.trans hused) (hentry ▸ hawaits) hsync

theorem Conn.Ready.opens {P : Promise} {p : Packet} (h : Conn.Opens P p c) : c.Ready := by
  cases h with
  | active => exact .of_settled rfl
  | passive => exact fun _ _ hsync => nomatch hsync

theorem Conn.Ready.event {ps : List Packet} {out inp : List UInt8}
    (he : Conn.Event .accepted c ps out inp c') (h : c.Ready) : c'.Ready := by
  cases he with
  | accept =>
    refine .of_settled ?_
    simp [Conn.entry, Entry.awaits]
  | send | recv => exact h.congr rfl rfl
  | close _ hsettled => exact .of_settled hsettled
  | connect _ _ hack _ =>
    obtain ⟨-, -, -, rfl⟩ := Conn.onAck_connected hack
    exact fun _ _ _ => rfl
  | ack _ _ hack =>
    rcases Conn.onAck_passed hack with rfl | ⟨-, -, -, rfl⟩ | ⟨-, -, -, -, rfl⟩
    · exact h
    · exact fun _ _ _ => rfl
    · exact h.congr rfl rfl
  | @data p s =>
    refine h.congr (Conn.entry_onData c s) ?_
    show (c.onData s).state = c.state
    unfold Conn.onData
    split <;> rfl
  | fin _ _ _ _ hsettled =>
    refine .of_settled ?_
    rw [Conn.entry_afterFin]
    exact hsettled
  | complete =>
    rcases c.complete_cases with heq | ⟨hs, -, heq⟩ | ⟨hs, -, heq⟩
    · rwa [heq]
    all_goals
      intro hused hawaits _
      rw [Conn.entry_complete] at hawaits
      rw [heq] at hused
      exact absurd (hs.symm.trans (h hused hawaits (by rw [hs]; rfl))) (by decide)
  | release => exact .of_settled rfl
  | waiting | timer | resend => exact h.congr rfl rfl

/-! ## Calls -/

theorem AcceptedFirst.kept (hk : k.HandsOver) (h : AcceptedFirst tx k op) :
    Promise.accepted.Kept tx k op := by
  rw [Core.handsOver_iff] at hk
  cases op with
  | close id =>
    intro i hi hstate
    rcases hstate with hest | hwait
    · exact h i hi hest
    · obtain ⟨hlt, hused⟩ := connAt_spec hi
      cases hawaits : (k.conns i).entry.awaits with
      | false => exact hawaits
      | true =>
        have hest := hk i hlt hused hawaits (by rw [hwait]; rfl)
        exact absurd (hwait.symm.trans hest) nofun
  | input p =>
    intro s hs
    refine ⟨trivial, fun i hfind hrst => ⟨fun _ _ => trivial, fun c hack hrecv hflag hsent => ?_⟩⟩
    have hsettled := h s i (.of_passed hs hfind hrst hack hrecv hflag hsent)
    have hentry : (c.afterData s).entry = (k.conns i).entry := by
      rw [← Conn.entry_onAck_passed hack]
      unfold Conn.afterData
      split
      · exact Conn.entry_onData c s
      · rfl
    show (c.afterData s).entry.awaits = false
    rwa [hentry]
  | connect => trivial
  | listen => trivial
  | accept => trivial
  | send => trivial
  | recv => trivial
  | tick => trivial

end Tcp
