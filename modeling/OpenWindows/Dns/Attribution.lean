import OpenWindows.Dns.Resolver
import OpenWindows.Lib.StepSystem

/-!
# Which answers are cached

An answer belongs to a query: the message has the query's id, its question is the
query's name, and the query has not been answered yet.  `dns_input` compares the
id with `pending_id` and nothing else.  The id is there before the first query,
it stays when the query is answered, and a query that could not be sent changes
it but leaves the old name.  So a message can be cached that answers no query.

When every message that brings an address under the id comes while the last query
is waiting, and has its name in the question, every change of the cache is due to
an answer.
-/

namespace Dns

open StepSystem

/-! ## Answers -/

/-- The question of a message is a name: the question section starts with the
name's encoding, in capital or small letters. -/
def Message.Asks (m : Message) (name : Name) : Prop :=
  0 < m.qdcount ∧ ∃ enc, encodeName name.bytes (msgMax - headerLen - 4) = some enc ∧
    streqCi ((m.bytes.drop headerLen).take enc.length) enc = true

/-- Every entry that a message changes is for the name of a query that was
outstanding, that the message responds to and that is its question. -/
def Attributed (r : Resolver) (m : Message) (r' : Resolver) : Prop :=
  ∀ i, r'.cache i ≠ r.cache i → ∃ q ∈ r.outstanding,
    streqCi (r'.cache i).name.bytes q.name.bytes = true ∧ m.responds q.id = true ∧ m.Asks q.name

/-- A message that brings an address under the pending id comes while the last
query waits for its answer, and has the name of that query in its question. -/
def Expected (r : Resolver) : Op → Prop
  | .input m => m.responds r.pendingId = true → m.flags &&& 0x0200 = 0 → m.flags &&& 0x000F = 0 →
      ∀ ip ttl, m.answer = .record ip ttl → r.awaits = true ∧ m.Asks r.pendingName
  | _ => True

/-! ## Steps -/

section

variable {tx : UdpTx} {r : Resolver} {m : Message}

theorem streqCi_refl (as : List UInt8) : streqCi as as = true := (streqCi_iff as as).mpr rfl

theorem cacheInsert_changed {name : Name} {ip ttl : UInt32} {i : Nat}
    (h : (cacheInsert r name ip ttl).cache i ≠ r.cache i) :
    streqCi ((cacheInsert r name ip ttl).cache i).name.bytes name.bytes = true := by
  unfold cacheInsert at h ⊢
  split at h
  next j hj =>
    by_cases hij : i = j
    · subst hij
      have hmatch := List.find?_some hj
      rw [Entry.matches, Bool.and_eq_true] at hmatch
      simpa [Resolver.setEntry] using hmatch.2
    · simp [Resolver.setEntry, hij] at h
  · by_cases hi : i = victimEntry r
    · subst hi
      simp [Resolver.setEntry, streqCi_refl]
    · simp [Resolver.setEntry, hi] at h

theorem dnsInput_changed {i : Nat} (h : (dnsInput r m).2.cache i ≠ r.cache i) :
    m.responds r.pendingId = true ∧ m.flags &&& 0x0200 = 0 ∧ m.flags &&& 0x000F = 0 ∧
      (∃ ip ttl, m.answer = .record ip ttl) ∧
      streqCi ((dnsInput r m).2.cache i).name.bytes r.pendingName.bytes = true := by
  unfold dnsInput at h ⊢
  split at h
  · exact absurd rfl h
  next hinit =>
    split at h
    · exact absurd rfl h
    next hresponds =>
      split at h
      · exact absurd rfl h
      next htrunc =>
        split at h
        · exact absurd rfl h
        next hnx =>
          split at h
          · exact absurd rfl h
          next hcode =>
            rw [if_neg hinit, if_neg hresponds, if_neg htrunc, if_neg hnx, if_neg hcode]
            split at h
            · exact absurd rfl h
            · exact absurd rfl h
            next ip ttl hanswer =>
              rw [hanswer]
              exact ⟨by simpa using hresponds, not_not.mp htrunc, not_not.mp hcode, ⟨ip, ttl, rfl⟩,
                cacheInsert_changed h⟩

/-! ## The last query -/

/-- While the last query waits for its answer, it is outstanding. -/
def Resolver.Waits (r : Resolver) : Prop :=
  r.awaits = true → ⟨r.pendingId, r.pendingName⟩ ∈ r.outstanding

theorem cacheInsert_waits {name : Name} {ip ttl : UInt32} (h : r.Waits) :
    (cacheInsert r name ip ttl).Waits := by
  unfold cacheInsert
  split
  · exact h
  · exact h

theorem dnsInput_waits (h : r.Waits) : (dnsInput r m).2.Waits := by
  have hanswered : r.answered.Waits := nofun
  unfold dnsInput
  split
  · exact h
  · split
    · exact h
    · split
      · exact h
      · split
        · exact hanswered
        · split
          · exact hanswered
          · split
            · exact h
            · exact hanswered
            · exact cacheInsert_waits hanswered

theorem sendQuery_waits {name : Name} : (sendQuery tx r name).2.Waits := by
  unfold sendQuery
  dsimp only
  split
  · nofun
  next enc _ =>
    split
    · nofun
    · exact fun _ => List.mem_cons_self

theorem dnsResolve_waits {name : CStr} (h : r.Waits) : (dnsResolve tx r name).2.2.Waits := by
  unfold dnsResolve
  split
  · exact h
  · split
    · exact h
    · split
      · exact h
      · split
        · exact sendQuery_waits
        · exact h

theorem Resolver.Waits.next {op : Op} (h : r.Waits) : (r.next tx op).Waits := by
  cases op with
  | resolve name => exact dnsResolve_waits h
  | input m => exact dnsInput_waits h
  | flush => exact h
  | setServer serverIp => exact h

theorem Expected.attributed (hexpected : Expected r (.input m)) (h : r.Waits) :
    Attributed r m (r.next tx (.input m)) := by
  intro i hi
  obtain ⟨hresponds, htrunc, hcode, ⟨ip, ttl, hanswer⟩, hname⟩ := dnsInput_changed hi
  obtain ⟨hawaits, hasks⟩ := hexpected hresponds htrunc hcode ip ttl hanswer
  exact ⟨_, h hawaits, hname, hresponds, hasks⟩

/-! ## Runs -/

/-- In a run in which addresses come with the answer to the last query only, every
message changes the cache only for a query that it answers, and a message that
responds to no outstanding query changes nothing. -/
theorem input_attributed (tx : UdpTx) (serverIp : UInt32) (ops : List Op) (r : Resolver)
    (h : Calls Expected (Resolver.next tx) (.init serverIp) ops r) (pre : List Op) (m : Message)
    (hpre : pre ++ [.input m] <+: ops) :
    let before := pre.foldl (Resolver.next tx) (.init serverIp)
    let after := (pre ++ [Op.input m]).foldl (Resolver.next tx) (.init serverIp)
    Attributed before m after ∧
      ((∀ q ∈ before.outstanding, m.responds q.id = false) → after.cache = before.cache) := by
  intro before after
  obtain ⟨r₁, hcalls, hexpected, -⟩ := (h.of_prefix hpre).of_concat
  have hwaits : r₁.Waits := hcalls.invariant (P := Resolver.Waits) (fun _ _ hr _ => hr.next) nofun
  have hbefore : before = r₁ := hcalls.eq_foldl.symm
  have hafter : after = r₁.next tx (.input m) := by
    show (pre ++ [Op.input m]).foldl (Resolver.next tx) (.init serverIp) = _
    rw [List.foldl_concat, ← hcalls.eq_foldl]
  have hattr : Attributed r₁ m (r₁.next tx (.input m)) := hexpected.attributed hwaits
  rw [hbefore, hafter]
  refine ⟨hattr, fun hnone => funext fun i => ?_⟩
  by_contra hi
  obtain ⟨q, hq, -, hresponds, -⟩ := hattr i hi
  exact absurd ((hnone q hq).symm.trans hresponds) nofun

/-- A transmit hook that always reports `DNS_OK`. -/
def okTx : UdpTx := fun _ _ => .ok

/-- The name `ab`. -/
def ab : Name := ⟨⟨[97, 98], by decide⟩, by decide⟩

def response (id : UInt16) (question : List UInt8) (hlen : question.length ≤ 100) : Message where
  bytes := Words.put16 id ++ [0x80, 0, 0, 1, 0, 1, 0, 0, 0, 0] ++ question ++ [0, 1, 0, 1] ++
    [0xC0, 12, 0, 1, 0, 1, 0, 0, 0, 60, 0, 4, 10, 0, 0, 7]
  fit := by
    simp only [List.length_append, Words.length_put16, List.length_cons, List.length_nil]
    omega

/-- The name is resolved and its address is cached. -/
theorem input_attributed_answer :
    ∃ r, Calls Expected (Resolver.next okTx) (.init 1)
        [.resolve ab.toCStr, .input (response 0x4E21 [2, 97, 98, 0] (by decide))] r ∧
      r.cache 0 = ⟨ab, 0x0700000A, 60, 0, true⟩ ∧
      Attributed (Resolver.next okTx (.init 1) (.resolve ab.toCStr))
        (response 0x4E21 [2, 97, 98, 0] (by decide)) r := by
  have hexpected : Expected (Resolver.next okTx (.init 1) (.resolve ab.toCStr))
      (.input (response 0x4E21 [2, 97, 98, 0] (by decide))) := by
    intro _ _ _ ip ttl _
    exact ⟨by decide, by decide, [2, 97, 98, 0], by decide,
      by decide⟩
  have h : Calls Expected (Resolver.next okTx) (.init 1)
      ([] ++ [.resolve ab.toCStr] ++ [.input (response 0x4E21 [2, 97, 98, 0] (by decide))]) _ :=
    .snoc (.snoc .nil trivial) hexpected
  exact ⟨_, h, by decide, (input_attributed okTx 1 _ _ h _ _ List.prefix_rfl).1⟩

/-- A response with the id 0 is cached before any name was resolved. -/
theorem input_unasked :
    let m := response 0 [2, 97, 98, 0] (by decide)
    ¬ Attributed (.init 1) m (Resolver.next okTx (.init 1) (.input m)) := by
  intro m h
  obtain ⟨q, hq, -⟩ := h 0 (by decide)
  cases hq

end

/-! ## The pending query

`dns_resolve` takes an id for a query before it knows whether the name can be
encoded, and it records the name before it knows whether the query was sent.  A
call that fails before the id is taken leaves the last query pending.  A call that
fails later does not: its id is what the next response must have, and the name
recorded is the old one or the new one, depending on where the call failed.
-/

section

variable {tx : UdpTx} {r : Resolver}

/-- The pending query of `r` is still pending in `r'`, and a message does to the
cache of `r'` what it does to that of `r`. -/
structure Keeps (r r' : Resolver) : Prop where
  id : r'.pendingId = r.pendingId
  name : r'.pendingName = r.pendingName
  input : ∀ m, (dnsInput r' m).1 = (dnsInput r m).1 ∧
    (dnsInput r' m).2.cache = (dnsInput r m).2.cache

/-- The name of a call that cannot be encoded. -/
def Malformed (name : CStr) : Prop := encodeName name.bytes (msgMax - headerLen - 4) = none

/-- The call fails before it takes an id, or the id that it takes is the pending
one and so is the name, or no name is recorded. -/
def KeepsPending (r : Resolver) (name : CStr) : Prop :=
  r.initialized = false ∨ r.serverIp = 0 ∨ maxName ≤ name.bytes.length ∨
    (r.nextId = r.pendingId ∧ (Malformed name ∨ name = r.pendingName.toCStr))

theorem cacheInsert_cache {r' : Resolver} (h : r'.cache = r.cache) (name : Name) (ip ttl : UInt32) :
    (cacheInsert r' name ip ttl).cache = (cacheInsert r name ip ttl).cache := by
  have hfind : findEntry r' name.bytes = findEntry r name.bytes := by rw [findEntry, findEntry, h]
  have hvictim : victimEntry r' = victimEntry r := by
    rw [victimEntry, victimEntry, oldestEntry, oldestEntry, h]
  unfold cacheInsert
  rw [hfind]
  split
  next i _ => rw [Resolver.setEntry, Resolver.setEntry, h]
  · rw [Resolver.setEntry, Resolver.setEntry, hvictim, h]

theorem Keeps.of_pending {r' : Resolver} (hinit : r'.initialized = r.initialized)
    (hcache : r'.cache = r.cache) (hid : r'.pendingId = r.pendingId)
    (hname : r'.pendingName = r.pendingName) : Keeps r r' := by
  constructor
  case id => exact hid
  case name => exact hname
  case input =>
    intro m
    unfold dnsInput
    rw [hinit, hid, hname]
    split
    · exact ⟨rfl, hcache⟩
    · split
      · exact ⟨rfl, hcache⟩
      · split
        · exact ⟨rfl, hcache⟩
        · split
          · exact ⟨rfl, hcache⟩
          · split
            · exact ⟨rfl, hcache⟩
            · split
              · exact ⟨rfl, hcache⟩
              · exact ⟨rfl, hcache⟩
              next ip ttl _ =>
                have hanswered : r'.answered.cache = r.answered.cache := hcache
                exact ⟨rfl, cacheInsert_cache hanswered _ ip ttl⟩

theorem Keeps.refl (r : Resolver) : Keeps r r := .of_pending rfl rfl rfl rfl

theorem sendQuery_keeps_iff {name : Name} (hok : (sendQuery tx r name).1 ≠ .pending) :
    Keeps r (sendQuery tx r name).2 ↔
      r.nextId = r.pendingId ∧ (Malformed name.toCStr ∨ name = r.pendingName) := by
  unfold sendQuery at hok ⊢
  dsimp only at hok ⊢
  split at hok
  next hencode =>
    exact ⟨fun h => ⟨h.id, .inl hencode⟩, fun h => .of_pending rfl rfl h.1 rfl⟩
  next enc hencode =>
    split at hok
    next hfail =>
      rw [if_pos hfail]
      constructor
      · exact fun h => ⟨h.id, .inr h.name⟩
      · rintro ⟨hid, hmalformed | hname⟩
        · exact absurd (hencode.symm.trans hmalformed) nofun
        · exact .of_pending rfl rfl hid hname
    · exact absurd rfl hok

/-- A call that fails leaves the last query pending exactly if it fails before it
takes an id, or takes the same id again and does not change the name. -/
theorem resolve_keeps_iff (tx : UdpTx) (r : Resolver) (name : CStr)
    (hfail : (dnsResolve tx r name).1 ≠ .ok ∧ (dnsResolve tx r name).1 ≠ .pending) :
    Keeps r (dnsResolve tx r name).2.2 ↔ KeepsPending r name := by
  unfold dnsResolve at hfail ⊢
  unfold KeepsPending
  split at hfail
  next hinit =>
    rw [if_pos hinit]
    exact ⟨fun _ => .inl (by simpa using hinit), fun _ => .refl r⟩
  next hinit =>
    rw [if_neg hinit]
    split at hfail
    next hserver =>
      rw [if_pos hserver]
      exact ⟨fun _ => .inr (.inl hserver), fun _ => .refl r⟩
    next hserver =>
      rw [if_neg hserver]
      split at hfail
      · exact absurd rfl hfail.1
      · split at hfail
        next hlen =>
          simp only [dif_pos hlen]
          rw [sendQuery_keeps_iff hfail.2]
          have hname : (⟨name, hlen⟩ : Name) = r.pendingName ↔ name = r.pendingName.toCStr := by
            constructor
            · intro h
              rw [← h]
            · intro h
              subst h
              rfl
          rw [hname]
          have hinit' : r.initialized ≠ false := by simpa using hinit
          exact ⟨fun h => .inr (.inr (.inr h)), fun h =>
            ((h.resolve_left hinit').resolve_left hserver).resolve_left (Nat.not_le.mpr hlen)⟩
        next hlen =>
          simp only [dif_neg hlen]
          exact ⟨fun _ => .inr (.inr (.inl (Nat.not_lt.mp hlen))), fun _ => .refl r⟩

/-- A transmit hook that always reports an error. -/
def deadTx : UdpTx := fun _ _ => .noServer

/-- The name `a..b`. -/
def dots : CStr := ⟨[97, 46, 46, 98], by decide⟩

/-- No name server is configured after the query for `ab`. -/
theorem resolve_keeps_iff_noServer :
    Keeps (Resolver.next okTx (.init 1) (.resolve ab.toCStr) |>.next okTx (.setServer 0))
        (dnsResolve okTx (Resolver.next okTx (.init 1) (.resolve ab.toCStr)
          |>.next okTx (.setServer 0)) dots).2.2 ↔
      KeepsPending (Resolver.next okTx (.init 1) (.resolve ab.toCStr)
        |>.next okTx (.setServer 0)) dots :=
  resolve_keeps_iff okTx _ dots ⟨by decide, by decide⟩

/-- After the query for `ab` a name with an empty label is refused, or a query
cannot be sent, and the answer for `ab` is not taken any more. -/
theorem pending_lost :
    let r := Resolver.next okTx (.init 1) (.resolve ab.toCStr)
    let m := response 0x4E21 [2, 97, 98, 0] (by decide)
    (dnsInput r m).1 = .ok ∧
      ((dnsResolve okTx r dots).1 = .name ∧
        (dnsInput (dnsResolve okTx r dots).2.2 m).1 = .badPacket ∧
        ¬ Keeps r (dnsResolve okTx r dots).2.2) ∧
      (dnsResolve deadTx r ⟨[98], by decide⟩).1 = .noServer ∧
        ¬ Keeps r (dnsResolve deadTx r ⟨[98], by decide⟩).2.2 := by
  intro r m
  refine ⟨by decide, ⟨by decide, by decide, fun h => ?_⟩,
    by decide, fun h => ?_⟩
  · exact absurd h.id (by decide)
  · exact absurd h.id (by decide)

end

end Dns
