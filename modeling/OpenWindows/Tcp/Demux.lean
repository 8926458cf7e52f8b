import OpenWindows.Tcp.Table

/-!
# Which connection a segment belongs to

`tcp_find` takes the first connection of the table that matches a segment, and
the local address 0 of a connection matches every address.  `tcp_connect` and
`tcp_input` look with the same rule for a connection that is already there.  The
rule is not symmetric.  A new connection whose own local address is 0 takes the
segments of a connection with the same peer and the same port, and `tcp_find`
does not find that one for the address 0.

At most one connection matches a segment, in every state of a run, exactly when
no connection with the local address 0 is opened next to one with the same peer
and the same port.
-/

namespace Tcp

open StepSystem

/-- Two connections that match the segments of one peer are one connection. -/
def Core.Unambiguous (k : Core) : Prop :=
  ∀ (rip : UInt32) (rport : UInt16) (lip : UInt32) (lport : UInt16) (i j : Nat),
    i < maxConns → j < maxConns → (k.conns i).matches rip rport lip lport = true →
      (k.conns j).matches rip rport lip lport = true → i = j

/-- A connection that a call opens with the local address 0 is the only one with
its peer and its local port. -/
def OpensApart (tx : IpTx) (k : Core) (op : Op) : Prop :=
  ∀ e, k.Opens tx op e → e.localIp = 0 → ∀ i, i < maxConns → (k.conns i).used = true →
    ¬ ((k.conns i).remoteIp = e.remoteIp ∧ (k.conns i).remotePort = e.remotePort ∧
      (k.conns i).localPort = e.localPort)

/-! ## Entries that match one segment -/

def Entry.Beside (e e' : Entry) : Prop :=
  e'.remoteIp = e.remoteIp ∧ e'.remotePort = e.remotePort ∧ e'.localPort = e.localPort

/-- Some segment matches both entries. -/
def Entry.Meets (e e' : Entry) : Prop :=
  e.Beside e' ∧ (e.localIp = 0 ∨ e'.localIp = 0 ∨ e.localIp = e'.localIp)

def Table.Apart (t : Table) : Prop :=
  ∀ i j, i < maxConns → j < maxConns → (t.entries i).used = true → (t.entries j).used = true →
    (t.entries i).Meets (t.entries j) → i = j

theorem Entry.Meets.symm {e e' : Entry} (h : e.Meets e') : e'.Meets e := by
  obtain ⟨⟨hip, hport, hlport⟩, hlip⟩ := h
  refine ⟨⟨hip.symm, hport.symm, hlport.symm⟩, ?_⟩
  rcases hlip with h | h | h
  · exact .inr (.inl h)
  · exact .inl h
  · exact .inr (.inr h.symm)

theorem Conn.matches_iff {c : Conn} {rip lip : UInt32} {rport lport : UInt16} :
    c.matches rip rport lip lport = true ↔ c.used = true ∧ c.remoteIp = rip ∧
      c.remotePort = rport ∧ c.localPort = lport ∧ (c.localIp = 0 ∨ c.localIp = lip) := by
  simp [Conn.matches, and_assoc]

theorem Core.unambiguous_iff {k : Core} : k.Unambiguous ↔ k.table.Apart := by
  constructor
  · intro h i j hi hj hui huj hmeets
    obtain ⟨⟨hip, hport, hlport⟩, hlip⟩ := hmeets
    -- a segment for the address that is not 0
    have hboth : ∃ lip, ((k.conns i).localIp = 0 ∨ (k.conns i).localIp = lip) ∧
        ((k.conns j).localIp = 0 ∨ (k.conns j).localIp = lip) := by
      rcases hlip with hzero | hzero | heq
      · exact ⟨_, .inl hzero, .inr rfl⟩
      · exact ⟨_, .inr rfl, .inl hzero⟩
      · exact ⟨_, .inr rfl, .inr heq.symm⟩
    obtain ⟨lip, hlipi, hlipj⟩ := hboth
    exact h _ _ lip _ i j hi hj (Conn.matches_iff.mpr ⟨hui, rfl, rfl, rfl, hlipi⟩)
      (Conn.matches_iff.mpr ⟨huj, hip, hport, hlport, hlipj⟩)
  · intro h rip rport lip lport i j hi hj hmi hmj
    obtain ⟨hui, hipi, hporti, hlporti, hlipi⟩ := Conn.matches_iff.mp hmi
    obtain ⟨huj, hipj, hportj, hlportj, hlipj⟩ := Conn.matches_iff.mp hmj
    refine h i j hi hj hui huj ⟨⟨hipj.trans hipi.symm, hportj.trans hporti.symm,
      hlportj.trans hlporti.symm⟩, ?_⟩
    rcases hlipi with hzero | heqi
    · exact .inl hzero
    · rcases hlipj with hzero | heqj
      · exact .inr (.inl hzero)
      · exact .inr (.inr (heqi.trans heqj.symm))

/-! ## Steps -/

theorem Table.unpend_entries (t : Table) (port : UInt16) : (t.unpend port).entries = t.entries := by
  unfold Table.unpend
  split
  · split <;> rfl
  · rfl

theorem Table.release_entries (t : Table) (i : Nat) :
    (t.release i).entries = Function.update t.entries i .free := by
  unfold Table.release
  rw [Table.set, apply_ite Table.entries, Table.unpend_entries, ite_self]

variable {t t' : Table}

theorem Table.Step.entry (h : t.Step t') (i : Nat) (hused : (t'.entries i).used = true) :
    (t.entries i).used = true ∧ ∃ a, t'.entries i = { t.entries i with accepted := a } := by
  have hsame : t'.entries i = t.entries i → (t.entries i).used = true ∧
      ∃ a, t'.entries i = { t.entries i with accepted := a } :=
    fun heq => ⟨heq ▸ hused, _, heq⟩
  cases h with
  | @accept j hj huj hawaits =>
    have hentries : (t.accept j).entries =
        Function.update t.entries j { t.entries j with accepted := true } := by
      rw [Table.accept, Table.unpend_entries]
      rfl
    by_cases hij : i = j
    · subst hij
      exact ⟨huj, true, by rw [hentries, Function.update_self]⟩
    · exact hsame (by rw [hentries, Function.update_of_ne hij])
  | @release j hj huj =>
    rw [Table.release_entries] at hused hsame
    by_cases hij : i = j
    · subst hij
      rw [Function.update_self] at hused
      cases hused
    · rw [Table.release_entries]
      exact hsame (Function.update_of_ne hij ..)
  | @clear j huj =>
    by_cases hij : i = j
    · subst hij
      simp [Table.set, Entry.free] at hused
    · exact hsame (Function.update_of_ne hij ..)
  | backlog j n | listen => exact hsame rfl

theorem Table.Apart.step (h : t.Step t') (ht : t.Apart) : t'.Apart := by
  intro i j hi hj hui huj hmeets
  obtain ⟨hui', a, heqi⟩ := h.entry i hui
  obtain ⟨huj', b, heqj⟩ := h.entry j huj
  rw [heqi, heqj] at hmeets
  exact ht i j hi hj hui' huj' hmeets

/-! ## Opening -/

theorem Table.Adds.entries {e : Entry} (h : t.Adds e t') :
    ∃ i, i < maxConns ∧ (t.entries i).used = false ∧ e.used = true ∧
      t'.entries = Function.update t.entries i e := by
  cases h with
  | active hi hfree | child hi hfree => exact ⟨_, hi, hfree, rfl, rfl⟩

theorem Table.Apart.adds_iff {e : Entry} (h : t.Adds e t') (ht : t.Apart) :
    t'.Apart ↔ ∀ j, j < maxConns → (t.entries j).used = true → ¬ e.Meets (t.entries j) := by
  obtain ⟨i, hi, hfree, hused, hentries⟩ := h.entries
  have hself : t'.entries i = e := by rw [hentries, Function.update_self]
  have hother : ∀ j, (t.entries j).used = true → j ≠ i ∧ t'.entries j = t.entries j := by
    intro j hj
    have hne : j ≠ i := by
      rintro rfl
      exact absurd (hj.symm.trans hfree) nofun
    exact ⟨hne, by rw [hentries, Function.update_of_ne hne]⟩
  constructor
  · intro h' j hj huj hmeets
    obtain ⟨hne, heq⟩ := hother j huj
    exact hne (h' i j hi hj (hself ▸ hused) (heq ▸ huj) (hself ▸ heq ▸ hmeets)).symm
  · intro hno j j' hj hj' huj huj' hmeets
    have hcases : ∀ l, (t'.entries l).used = true → l = i ∨
        ((t.entries l).used = true ∧ t'.entries l = t.entries l) := by
      intro l hl
      by_cases hli : l = i
      · exact .inl hli
      · have heq : t'.entries l = t.entries l := by rw [hentries, Function.update_of_ne hli]
        exact .inr ⟨heq ▸ hl, heq⟩
    rcases hcases j huj with rfl | ⟨huj, heqj⟩ <;> rcases hcases j' huj' with rfl | ⟨huj', heqj'⟩
    · rfl
    · rw [hself, heqj'] at hmeets
      exact absurd hmeets (hno j' hj' huj')
    · rw [hself, heqj] at hmeets
      exact absurd hmeets.symm (hno j hj huj)
    · rw [heqj, heqj'] at hmeets
      exact ht j j' hj hj' huj huj' hmeets

variable {tx : IpTx} {k : Core} {op : Op} {e : Entry}

theorem Core.Opens.unknown (h : k.Opens tx op e) :
    find k e.remoteIp e.remotePort e.localIp e.localPort = none := by
  cases h with
  | connect hc => exact hc.unknown
  | input hs => exact hs.unknown

theorem meets_iff_of_unknown (h : find k e.remoteIp e.remotePort e.localIp e.localPort = none)
    {i : Nat} (hi : i < maxConns) (hused : (k.conns i).used = true) :
    e.Meets (k.conns i).entry ↔ e.localIp = 0 ∧ e.Beside (k.conns i).entry := by
  have hno := List.find?_eq_none.mp h i (List.mem_range.mpr hi)
  rw [Conn.matches_iff] at hno
  constructor
  · rintro ⟨⟨hip, hport, hlport⟩, hlip⟩
    refine ⟨?_, hip, hport, hlport⟩
    rcases hlip with hzero | hzero | heq
    · exact hzero
    · exact absurd ⟨hused, hip, hport, hlport, .inl hzero⟩ hno
    · exact absurd ⟨hused, hip, hport, hlport, .inr heq.symm⟩ hno
  · rintro ⟨hzero, hbeside⟩
    exact ⟨hbeside, .inl hzero⟩

theorem Core.next_unambiguous_iff (hk : k.Unambiguous) :
    (k.next tx op).Unambiguous ↔ OpensApart tx k op := by
  rw [Core.unambiguous_iff] at hk ⊢
  rcases k.next_table tx op with ⟨e, hopens, hadds⟩ | ⟨hno, hsteps⟩
  · have hunique : ∀ e', k.Opens tx op e' → e' = e := by
      intro e' hopens'
      cases hopens with
      | connect => cases hopens' with
        | connect => rfl
      | input hs => cases hopens' with
        | input hs' => rw [Option.some.inj (hs'.parsed.symm.trans hs.parsed)]
    rw [hk.adds_iff hadds]
    constructor
    · intro h e' hopens' hzero i hi hused hbeside
      cases hunique e' hopens'
      exact h i hi hused ((meets_iff_of_unknown hopens.unknown hi hused).mpr ⟨hzero, hbeside⟩)
    · intro h i hi hused hmeets
      obtain ⟨hzero, hbeside⟩ := (meets_iff_of_unknown hopens.unknown hi hused).mp hmeets
      exact h e hopens hzero i hi hused hbeside
  · exact ⟨fun _ e hopens => absurd hopens (hno e),
      fun _ => hsteps.invariant (fun _ _ hs => .step hs) hk⟩

/-! ## Runs -/

/-- At most one connection matches a segment in every state of a run, exactly
when no connection with the local address 0 is opened beside another. -/
theorem demux_unambiguous_iff (tx : IpTx) (ops : List Op) :
    (∀ pre, pre <+: ops → (pre.foldl (Core.next tx) .init).Unambiguous) ↔
      Along (Core.next tx) (OpensApart tx) .init ops := by
  have hinit : Core.init.Unambiguous := by
    intro rip rport lip lport i j _ _ hmatch _
    exact absurd (Conn.matches_iff.mp hmatch).1 nofun
  exact reached_iff_along (fun _ _ => Core.next_unambiguous_iff) hinit ops

/-- Port 1000 of 10.0.0.1 is connected to a peer, and then port 1000 of the
address 0 to the same peer. -/
theorem demux_ambiguous :
    ¬ (([.connect 0x0100000A 1000 0x0200000A 80, .connect 0 1000 0x0200000A 80] : List Op).foldl
      (Core.next okTx) .init).Unambiguous := by
  intro h
  have hsame := h 0x0200000A 80 0x0100000A 1000 0 1 (by decide) (by decide) (by decide)
    (by decide)
  cases hsame

end Tcp
