import OpenWindows.Dns.Resolver
import OpenWindows.Lib.Logged

/-!
# Names and messages in memory

`dns_encode_name` writes the labels of a name, each behind its length, and
`dns_skip_name` passes them.  `dns_input` walks over a message with offsets of 32
bits.  Below `2 ^ 32 - 63` bytes no step over a label wraps around, so every step goes
forward, and nothing is read behind the message.  From there on a label at the end
leads back to the front, and the walk can go in a circle.
-/

namespace Dns

open Logged Memory Words

/-! ## The code on memory -/

abbrev Reads := Run Unit Unit

/-- Why `dns_input` has not come to an address. -/
inductive Stop where
  /-- The loop of `dns_skip_name` has not ended within the turns it was given. -/
  | running
  | status (s : Status)
  deriving DecidableEq

/-- A part of `dns_input`, which may stop. -/
abbrev Input := ExceptT Stop Reads

/-- Read bytes. -/
def octets (m : Mem) (a n : Nat) : Input (List UInt8) :=
  ExceptT.lift (Run.read () a n fun _ => load m a n)

/-- Return `DNS_ERR_BAD_PACKET`. -/
def badPacket {α : Type} : Input α := throw (.status .badPacket)

/-- The loop of `dns_skip_name` from the offset `p` on, for a number of turns.  Where it
fails `dns_input` returns. -/
def skipLoop (m : Mem) (len : UInt32) : Nat → UInt32 → Input UInt32
  | 0, _ => throw .running
  | turns + 1, p =>
    if len ≤ p then badPacket
    else do
      let c := (← octets m p.toNat 1).getD 0 0
      if c &&& 0xC0 = 0xC0 then
        if len ≤ p + 1 then badPacket else return p + 2
      else if c &&& 0xC0 ≠ 0 then badPacket
      else if c = 0 then return p + 1
      else skipLoop m len turns (p + (c.toUInt32 + 1))

/-- The loop of `dns_input` over the questions. -/
def passQuestions (m : Mem) (len : UInt32) (turns : Nat) : Nat → UInt32 → Input UInt32
  | 0, off => return off
  | n + 1, off => do
      let off ← skipLoop m len turns off
      if len < off + 4 then badPacket else passQuestions m len turns n (off + 4)

/-- The loop of `dns_input` over the answers, with the address and the time to live
of the first one that is an address. -/
def findRecord (m : Mem) (len : UInt32) (turns : Nat) : Nat → UInt32 → Input (UInt32 × UInt32)
  | 0, _ => throw (.status .noData)
  | n + 1, off => do
      let off ← skipLoop m len turns off
      if len < off + 10 then badPacket
      else
        let type := get16 (← octets m off.toNat 2)
        let cls := get16 (← octets m (off.toNat + 2) 2)
        let ttl := get32 (← octets m (off.toNat + 4) 4)
        let rdlen := get16 (← octets m (off.toNat + 8) 2)
        let off := off + 10
        if len < off + rdlen.toUInt32 then badPacket
        else if type = typeA ∧ cls = classIn ∧ rdlen = 4 then
          let ip := getIp (← octets m off.toNat 4)
          return (ip, ttl)
        else findRecord m len turns n (off + rdlen.toUInt32)

/-- `dns_input` up to the cache. -/
def readMessage (r : Resolver) (m : Mem) (len : UInt32) (turns : Nat) :
    Input (UInt32 × UInt32) :=
  if !r.initialized then throw (.status .notReady)
  else if len < 12 then badPacket
  else do
    let id := get16 (← octets m 0 2)
    let flags := get16 (← octets m 2 2)
    let qdcount := get16 (← octets m 4 2)
    let ancount := get16 (← octets m 6 2)
    if id ≠ r.pendingId then badPacket
    else if flags &&& 0x8000 = 0 then badPacket
    else if flags &&& 0x0200 ≠ 0 then throw (.status .truncated)
    else if flags &&& 0x000F = 3 then throw (.status .nxdomain)
    else if flags &&& 0x000F ≠ 0 then throw (.status .rcode)
    else
      let off ← passQuestions m len turns qdcount.toNat 12
      findRecord m len turns ancount.toNat off

/-- What `dns_input` comes to. -/
def outcome (r : Resolver) (m : Mem) (len : UInt32) (turns : Nat) :
    Except Stop (UInt32 × UInt32) := Run.value (readMessage r m len turns).run ()

/-- What `dns_input` does with the result of the walk. -/
def Resolver.took (r : Resolver) : Except Stop (UInt32 × UInt32) → Option (Status × Resolver)
  | .ok (ip, ttl) => some (.ok, cacheInsert r.answered r.pendingName ip ttl)
  | .error .running => none
  | .error (.status s) =>
    some (s, if s = .nxdomain ∨ s = .rcode ∨ s = .noData then r.answered else r)

/-- `dns_input`; `none` where it has not ended. -/
def inputAt (r : Resolver) (m : Mem) (len : UInt32) (turns : Nat) : Option (Status × Resolver) :=
  r.took (outcome r m len turns)

/-- What `dns_input` has read. -/
def reads (r : Resolver) (m : Mem) (len : UInt32) (turns : Nat) : List (Access Unit) :=
  Run.log (readMessage r m len turns).run ()

/-- A read below the length. -/
def Below (len : UInt32) (a : Access Unit) : Prop := a.addr + a.size ≤ len.toNat

/-- `dns_input` ends and reads only bytes below the length. -/
structure Bounded (r : Resolver) (m : Mem) (len : UInt32) : Prop where
  ends : ∃ turns, outcome r m len turns ≠ .error .running
  below : ∀ turns, ∀ a ∈ reads r m len turns, Below len a

variable {m : Mem} {len p off : UInt32} {turns : Nat}

set_option maxRecDepth 8000 in
theorem label_iff (c : UInt8) : c &&& 0xC0 = 0 ↔ c.toNat < 64 := by
  have htable : ∀ n < 256, n &&& 192 = 0 ↔ n < 64 := by decide
  rw [← UInt8.toNat_inj, UInt8.toNat_and]
  exact htable c.toNat c.toNat_lt

theorem toNat_step {c : UInt8} (hp : p.toNat + (c.toNat + 1) < 2 ^ 32) :
    (p + (c.toUInt32 + 1)).toNat = p.toNat + (c.toNat + 1) := by
  have hc := c.toNat_lt
  have hone : (c.toUInt32 + 1).toNat = c.toNat + 1 := by
    rw [UInt32.toNat_add, UInt8.toNat_toUInt32]
    exact Nat.mod_eq_of_lt (by
      show c.toNat + 1 < _
      omega)
  rw [UInt32.toNat_add, hone, Nat.mod_eq_of_lt hp]

theorem toNat_add_of_lt {k : UInt32} (h : p.toNat + k.toNat < 2 ^ 32) :
    (p + k).toNat = p.toNat + k.toNat := by
  rw [UInt32.toNat_add, Nat.mod_eq_of_lt h]

/-! ## Messages that are short enough -/

/-- A part of the walk that ends, with its result, or stops for good. -/
abbrev Walks {α : Type} (len : UInt32) (x : Input α) (Q : α → Prop) (enough : Prop) : Prop :=
  Checked (Below len) (fun _ => True) x (fun a _ => Q a) fun e _ => e = .running → ¬ enough

section Walks

variable {α β : Type} {Q : α → Prop} {T : β → Prop} {enough enough' : Prop} {x y : Input α}
  {f : α → Input β}

theorem Walks.bad : Walks len (badPacket : Input α) Q enough := Checked.throw nofun

theorem Walks.done {a : α} (h : Q a) : Walks len (pure a : Input α) Q enough :=
  Checked.pure fun _ _ => h

theorem Walks.bind (hx : Walks len x Q enough) (hf : ∀ a, Q a → Walks len (f a) T enough) :
    Walks len (x >>= f) T enough :=
  Checked.bind hx fun a => Checked.of_fact (fun _ h => h) fun ha =>
    (hf a ha).mono (fun _ _ => trivial) fun _ _ h => h

theorem Walks.ite {c : Prop} [Decidable c] (hx : c → Walks len x Q enough)
    (hy : ¬ c → Walks len y Q enough) : Walks len (if c then x else y) Q enough :=
  Checked.ite hx hy

theorem Walks.weaken (h : Walks len x Q enough) (henough : enough' → enough) :
    Walks len x Q enough' :=
  h.mono_error fun _ _ hrun hrunning h' => hrun hrunning (henough h')

theorem Walks.octets {a n : Nat} (h : a + n ≤ len.toNat) :
    Walks len (octets m a n) (fun bs => bs = load m a n) enough :=
  Checked.lift (Spec.read h fun _ _ => rfl)

end Walks

theorem skipLoop_walks (hlen : len.toNat < 2 ^ 32 - 63) (turns : Nat) (p : UInt32) :
    Walks len (skipLoop m len turns p) (fun off => off.toNat ≤ len.toNat)
      (len.toNat - p.toNat < turns) := by
  induction turns generalizing p with
  | zero => exact Checked.throw fun _ _ _ => Nat.not_lt_zero _
  | succ turns ih =>
    rw [skipLoop]
    refine Walks.ite (fun _ => .bad) fun hp => ?_
    have hp' : p.toNat < len.toNat := UInt32.lt_iff_toNat_lt.mp (UInt32.not_le.mp hp)
    have hone : (p + 1).toNat = p.toNat + 1 := toNat_add_of_lt (by
      show p.toNat + 1 < _
      omega)
    refine Walks.bind (Walks.octets (by omega)) fun bs _ => ?_
    dsimp only
    generalize bs.getD 0 0 = c
    refine Walks.ite (fun _ => ?_) fun _ => Walks.ite (fun _ => .bad) fun hc =>
      Walks.ite (fun _ => .done (by omega)) fun _ => ?_
    · refine Walks.ite (fun _ => .bad) fun hnext => .done ?_
      have hnext' := UInt32.lt_iff_toNat_lt.mp (UInt32.not_le.mp hnext)
      have htwo : (p + 2).toNat = p.toNat + 2 := toNat_add_of_lt (by
        show p.toNat + 2 < _
        omega)
      omega
    · have hc' := (label_iff c).mp (not_not.mp hc)
      have hstep := toNat_step (p := p) (c := c) (by omega)
      exact (ih (p + (c.toUInt32 + 1))).weaken fun h => by omega

theorem passQuestions_walks (hlen : len.toNat < 2 ^ 32 - 63) (turns n : Nat) (off : UInt32) :
    Walks len (passQuestions m len turns n off) (fun _ => True) (len.toNat < turns) := by
  induction n generalizing off with
  | zero => exact .done trivial
  | succ n ih =>
    rw [passQuestions]
    refine Walks.bind ((skipLoop_walks hlen turns off).weaken fun h => by omega) fun off' _ => ?_
    exact Walks.ite (fun _ => .bad) fun _ => ih (off' + 4)

theorem findRecord_walks (hlen : len.toNat < 2 ^ 32 - 63) (turns n : Nat) (off : UInt32) :
    Walks len (findRecord m len turns n off) (fun _ => True) (len.toNat < turns) := by
  induction n generalizing off with
  | zero => exact Checked.throw nofun
  | succ n ih =>
    rw [findRecord]
    refine Walks.bind ((skipLoop_walks hlen turns off).weaken fun h => by omega)
      fun off' hoff' => ?_
    have hten : (off' + 10).toNat = off'.toNat + 10 := toNat_add_of_lt (by
      show off'.toNat + 10 < _
      omega)
    refine Walks.ite (fun _ => .bad) fun hnext => ?_
    have hnext' := UInt32.le_iff_toNat_le.mp (UInt32.not_lt.mp hnext)
    refine Walks.bind (Walks.octets (by omega)) fun _ _ => Walks.bind (Walks.octets (by omega))
      fun _ _ => Walks.bind (Walks.octets (by omega)) fun _ _ =>
        Walks.bind (Walks.octets (by omega)) fun rdlen _ => ?_
    refine Walks.ite (fun _ => .bad) fun hdata => Walks.ite (fun hrecord => ?_) fun _ => ih _
    have hfour : (off' + 10 + (get16 rdlen).toUInt32).toNat = off'.toNat + 10 + 4 := by
      rw [hrecord.2.2, toNat_add_of_lt (by
        show (off' + 10).toNat + 4 < _
        omega), hten]
      rfl
    have hdata' := UInt32.le_iff_toNat_le.mp (UInt32.not_lt.mp hdata)
    exact Walks.bind (Walks.octets (by omega)) fun _ _ => .done trivial

theorem readMessage_walks (r : Resolver) (hlen : len.toNat < 2 ^ 32 - 63) (turns : Nat) :
    Walks len (readMessage r m len turns) (fun _ => True) (len.toNat < turns) := by
  rw [readMessage]
  refine Walks.ite (fun _ => Checked.throw nofun) fun _ => Walks.ite (fun _ => .bad) fun hlong => ?_
  have hlong' : 12 ≤ len.toNat := UInt32.le_iff_toNat_le.mp (UInt32.not_lt.mp hlong)
  refine Walks.bind (Walks.octets (by omega)) fun _ _ => Walks.bind (Walks.octets (by omega))
    fun _ _ => Walks.bind (Walks.octets (by omega)) fun _ _ =>
      Walks.bind (Walks.octets (by omega)) fun _ _ => ?_
  refine Walks.ite (fun _ => .bad) fun _ => Walks.ite (fun _ => .bad) fun _ =>
    Walks.ite (fun _ => Checked.throw nofun) fun _ => Walks.ite (fun _ => Checked.throw nofun)
      fun _ => Walks.ite (fun _ => Checked.throw nofun) fun _ => ?_
  exact Walks.bind (passQuestions_walks hlen turns _ _) fun off _ =>
    findRecord_walks hlen turns _ off

theorem bounded_of_short (r : Resolver) (m : Mem) (hlen : len.toNat < 2 ^ 32 - 63) :
    Bounded r m len := by
  refine ⟨⟨len.toNat + 1, fun hrunning => ?_⟩, fun turns =>
    (readMessage_walks r hlen turns () trivial).1⟩
  have hstop := (readMessage_walks (m := m) r hlen (len.toNat + 1) () trivial).2
  rw [show Run.value (readMessage r m len (len.toNat + 1)).run () = .error .running from hrunning]
    at hstop
  exact hstop rfl (Nat.lt_succ_self _)

/-! ## A message that goes in a circle -/

/-- The result of a part of the walk. -/
def Input.result {α : Type} (x : Input α) : Except Stop α := Run.value x.run ()

theorem result_bind {α β : Type} (x : Input α) (f : α → Input β) :
    Input.result (x >>= f) =
      match Input.result x with
      | .ok a => Input.result (f a)
      | .error e => .error e := by
  show Run.value (ExceptT.bindCont (fun a => (f a).run) (Run.value x.run ())) () = _
  unfold Input.result
  cases Run.value x.run () <;> rfl

theorem result_octets {α : Type} (m : Mem) (a n : Nat) (f : List UInt8 → Input α) :
    Input.result (octets m a n >>= f) = Input.result (f (load m a n)) := by
  rw [result_bind]
  rfl

@[simp] theorem getD_load_one (m : Mem) (a : Nat) : (load m a 1).getD 0 0 = m a := by
  simp [load]

theorem result_skipLoop_succ (m : Mem) (len : UInt32) (turns : Nat) (p : UInt32) :
    Input.result (skipLoop m len (turns + 1) p) =
      if len ≤ p then .error (.status .badPacket)
      else if m p.toNat &&& 0xC0 = 0xC0 then
        if len ≤ p + 1 then .error (.status .badPacket) else .ok (p + 2)
      else if m p.toNat &&& 0xC0 ≠ 0 then .error (.status .badPacket)
      else if m p.toNat = 0 then .ok (p + 1)
      else Input.result (skipLoop m len turns (p + ((m p.toNat).toUInt32 + 1))) := by
  rw [skipLoop]
  split
  · rfl
  · rw [result_octets]
    dsimp only
    rw [getD_load_one]
    repeat' split
    all_goals rfl

/-- A response whose labels lead from each multiple of 64 to the next, and from the
last one to the first. -/
def circle : Mem := fun a =>
  if a % 64 = 0 then 63
  else if a = 2 then 0x80
  else if a = 5 then 1
  else if a = 12 then 51
  else 0

theorem skipLoop_circle (hlen : 2 ^ 32 - 63 ≤ len.toNat) (turns : Nat) (hp : p.toNat % 64 = 0) :
    Input.result (skipLoop circle len turns p) = .error .running := by
  induction turns generalizing p with
  | zero => rfl
  | succ turns ih =>
    have hlt := p.toNat_lt
    have hlabel : circle p.toNat = 63 := if_pos hp
    have hnot : ¬ len ≤ p := by
      rw [UInt32.le_iff_toNat_le]
      omega
    have hnext : (p + ((63 : UInt8).toUInt32 + 1)).toNat % 64 = 0 := by
      have hstep : ((63 : UInt8).toUInt32 + 1).toNat = 64 := rfl
      rw [UInt32.toNat_add, hstep]
      omega
    rw [result_skipLoop_succ, hlabel, if_neg hnot, if_neg (by decide), if_neg (by decide),
      if_neg (by decide)]
    exact ih hnext

variable {r : Resolver} {labels : List (List UInt8)}

theorem outcome_circle (hinit : r.initialized = true) (hid : r.pendingId = 0x3F00)
    (hlen : 2 ^ 32 - 63 ≤ len.toNat) (turns : Nat) :
    outcome r circle len turns = .error .running := by
  have hlong : ¬ len < 12 := by
    rw [UInt32.lt_iff_toNat_lt]
    show ¬ len.toNat < 12
    omega
  have hid' : get16 (load circle 0 2) = 0x3F00 := by decide
  have hflags : get16 (load circle 2 2) = 0x8000 := by decide
  have hcount : get16 (load circle 4 2) = 1 := by decide
  have hwalk : Input.result (passQuestions circle len turns 1 12) = .error .running := by
    have hskip : Input.result (skipLoop circle len turns 12) = .error .running := by
      cases turns with
      | zero => rfl
      | succ turns =>
        have hnot : ¬ len ≤ 12 := by
          rw [UInt32.le_iff_toNat_le]
          show ¬ len.toNat ≤ 12
          omega
        rw [result_skipLoop_succ, if_neg hnot]
        exact skipLoop_circle hlen turns (p := 64) rfl
    rw [passQuestions, result_bind, hskip]
  show Input.result (readMessage r circle len turns) = _
  rw [readMessage, hinit, if_neg (by decide), if_neg hlong]
  simp only [result_octets, hid', hflags, hcount, hid]
  rw [if_neg (by decide), if_neg (by decide), if_neg (by decide), if_neg (by decide),
    if_neg (by decide), result_bind]
  rw [show (1 : UInt16).toNat = 1 from rfl, hwalk]

theorem next_resolve_empty (tx : UdpTx) (hinit : r.initialized = true)
    (hserver : r.serverIp ≠ 0) (hcache : r.cache = fun _ => .zero) :
    r.next tx (.resolve ⟨[], nofun⟩) =
      { r with pendingId := r.nextId, nextId := r.nextId + 1, awaits := false } := by
  have hfind : findEntry r [] = none := by
    refine List.find?_eq_none.mpr fun i _ => ?_
    rw [hcache]
    simp [Entry.matches, Entry.zero]
  show (dnsResolve tx r ⟨[], nofun⟩).2.2 = _
  rw [dnsResolve, if_neg (by simp [hinit]), if_neg hserver, hfind]
  rfl

theorem pendingId_reached (tx : UdpTx) (n : Nat) :
    let r := (List.replicate n (Op.resolve ⟨[], nofun⟩)).foldl (Resolver.next tx) (.init 1)
    r.initialized = true ∧ r.serverIp = 1 ∧ (r.cache = fun _ => .zero) ∧
      r.nextId = 0x4E21 + UInt16.ofNat n ∧
        (0 < n → r.pendingId = 0x4E21 + UInt16.ofNat (n - 1)) := by
  induction n with
  | zero => exact ⟨rfl, rfl, rfl, rfl, nofun⟩
  | succ n ih =>
    obtain ⟨hinit, hserver, hcache, hnext, -⟩ := ih
    rw [List.replicate_succ', List.foldl_append, List.foldl_cons, List.foldl_nil]
    rw [next_resolve_empty tx hinit (by rw [hserver]; decide) hcache]
    refine ⟨hinit, hserver, hcache, ?_, fun _ => hnext⟩
    show _ + 1 = _
    rw [hnext, UInt16.add_assoc, UInt16.ofNat_add]
    rfl

/-- The resolvers that calls lead to, with `dns_input` on any memory where it ends. -/
inductive Reached (tx : UdpTx) : Resolver → Prop where
  | init (serverIp : UInt32) : Reached tx (.init serverIp)
  | next {r : Resolver} (op : Op) : Reached tx r → Reached tx (r.next tx op)
  | input {r r' : Resolver} {m : Mem} {len : UInt32} {turns : Nat} {s : Status} :
      Reached tx r → inputAt r m len turns = some (s, r') → Reached tx r'

theorem Reached.foldl {tx : UdpTx} (h : Reached tx r) (ops : List Op) :
    Reached tx (ops.foldl (Resolver.next tx) r) := by
  induction ops generalizing r with
  | nil => exact h
  | cons op ops ih => exact ih (h.next op)

/-- A resolver that waits for the id `0x3F00`. -/
def circling : Resolver :=
  (List.replicate 61664 (Op.resolve Name.empty.toCStr)).foldl (Resolver.next fun _ _ => .ok) (.init 1)

theorem circling_reached : Reached (fun _ _ => .ok) circling := (Reached.init 1).foldl _

theorem not_bounded_circling (hlen : 2 ^ 32 - 63 ≤ len.toNat) : ¬ Bounded circling circle len := by
  intro hbounded
  obtain ⟨hinit, -, -, -, hpending⟩ := pendingId_reached (fun _ _ => .ok) 61664
  obtain ⟨turns, hends⟩ := hbounded.ends
  exact hends (outcome_circle hinit (hpending (by decide)) hlen turns)

/-! ## Encoded names -/

def wireLabels (labels : List (List UInt8)) : List UInt8 :=
  labels.flatMap fun label => UInt8.ofNat label.length :: label

/-- The bytes `enc` are the wire form of `labels`, which joined by dots are `name`. -/
structure Encodes (labels : List (List UInt8)) (name enc : List UInt8) : Prop where
  wire : enc = wireLabels labels ++ [0]
  label : ∀ label ∈ labels, 0 < label.length ∧ label.length ≤ 63 ∧ 46 ∉ label
  joined : [46].intercalate labels = name
  short : enc.length ≤ 255

theorem intercalate_cons {sep label : List UInt8} (h : labels ≠ []) :
    sep.intercalate (label :: labels) = label ++ sep ++ sep.intercalate labels := by
  cases labels with
  | nil => exact absurd rfl h
  | cons next labels => simp [List.intercalate, List.intersperse]

theorem encodeLabels_spec {cap : Nat} {name dst label enc : List UInt8}
    (h : encodeLabels cap name dst label = some enc) (hdot : 46 ∉ label)
    (hlen : label.length ≤ 63) :
    ∃ labels, labels ≠ [] ∧ enc = dst ++ wireLabels labels ∧
      (∀ l ∈ labels, 0 < l.length ∧ l.length ≤ 63 ∧ 46 ∉ l) ∧
        [46].intercalate labels = label ++ name := by
  induction name generalizing dst label with
  | nil =>
    rw [encodeLabels] at h
    split at h
    · cases h
    next hne =>
      cases h
      refine ⟨[label], nofun, by simp [wireLabels], ?_, by simp [List.intercalate]⟩
      intro l hl
      rw [List.mem_singleton.mp hl]
      exact ⟨List.length_pos_iff.mpr hne, hlen, hdot⟩
  | cons ch rest ih =>
    rw [encodeLabels] at h
    split at h
    next hch =>
      split at h
      · cases h
      next hok =>
        simp only [not_or] at hok
        obtain ⟨labels, hne, rfl, hlabels, hjoin⟩ := ih h List.not_mem_nil (Nat.zero_le 63)
        refine ⟨label :: labels, nofun, by simp [wireLabels], ?_, ?_⟩
        · intro l hl
          rcases List.mem_cons.mp hl with rfl | hl
          · exact ⟨List.length_pos_iff.mpr hok.1, hlen, hdot⟩
          · exact hlabels l hl
        · rw [intercalate_cons hne, hjoin, hch]
          simp
    next hch =>
      split at h
      · cases h
      next hok =>
        simp only [not_or, Nat.not_le] at hok
        have hdot' : 46 ∉ label ++ [ch] := by
          simp only [List.mem_append, List.mem_singleton, not_or]
          exact ⟨hdot, fun heq => hch heq.symm⟩
        have hlen' : (label ++ [ch]).length ≤ 63 := by
          rw [List.length_append, List.length_singleton]
          omega
        obtain ⟨labels, hne, henc, hlabels, hjoin⟩ := ih h hdot' hlen'
        exact ⟨labels, hne, henc, hlabels, by rw [hjoin, List.append_assoc]; rfl⟩

theorem encodeName_encodes {name enc : List UInt8} {cap : Nat}
    (h : encodeName name cap = some enc) : ∃ labels, Encodes labels name enc := by
  unfold encodeName at h
  split at h
  · cases h
  · split at h
    · cases h
    next dst hdst =>
      split at h
      · cases h
      next hshort =>
        cases h
        obtain ⟨labels, -, rfl, hlabels, hjoin⟩ :=
          encodeLabels_spec hdst List.not_mem_nil (Nat.zero_le 63)
        rw [List.nil_append] at hshort hjoin ⊢
        rw [not_or, Nat.not_lt] at hshort
        exact ⟨labels, rfl, hlabels, hjoin, by simpa using hshort.2⟩

theorem skipLoop_wire (hlabels : ∀ l ∈ labels, 0 < l.length ∧ l.length ≤ 63 ∧ 46 ∉ l)
    (hload : load m p.toNat (wireLabels labels ++ [0]).length = wireLabels labels ++ [0])
    (hfit : p.toNat + (wireLabels labels ++ [0]).length ≤ len.toNat)
    (hturns : labels.length < turns) :
    ∃ off, Input.result (skipLoop m len turns p) = .ok off ∧
      off.toNat = p.toNat + (wireLabels labels ++ [0]).length := by
  have hlen := len.toNat_lt
  induction labels generalizing p turns with
  | nil =>
    obtain ⟨turns, rfl⟩ : ∃ k, turns = k + 1 := ⟨turns - 1, by omega⟩
    have hzero : m p.toNat = 0 := by simpa [wireLabels, load] using hload
    have hroom : p.toNat + 1 ≤ len.toNat := by simpa [wireLabels] using hfit
    have hnot : ¬ len ≤ p := by
      rw [UInt32.le_iff_toNat_le]
      omega
    rw [result_skipLoop_succ, hzero, if_neg hnot, if_neg (by decide), if_neg (by decide),
      if_pos rfl]
    exact ⟨p + 1, rfl, toNat_add_of_lt (by
      show p.toNat + 1 < _
      omega)⟩
  | cons l labels ih =>
    obtain ⟨turns, rfl⟩ : ∃ k, turns = k + 1 := ⟨turns - 1, by omega⟩
    obtain ⟨hpos, hle, -⟩ := hlabels l (List.mem_cons_self ..)
    have hwire : wireLabels (l :: labels) ++ [0] =
        (UInt8.ofNat l.length :: l) ++ (wireLabels labels ++ [0]) := by simp [wireLabels]
    rw [hwire] at hload hfit ⊢
    obtain ⟨hfirst, hrest⟩ := load_append hload
    rw [List.length_cons, load_succ] at hfirst
    have hc : m p.toNat = UInt8.ofNat l.length := (List.cons.inj hfirst).1
    have hnat : (m p.toNat).toNat = l.length := by
      rw [hc]
      exact UInt8.toNat_ofNat_of_lt' (by
        show l.length < 256
        omega)
    have hclear : m p.toNat &&& 0xC0 = 0 := (label_iff _).mpr (by omega)
    have hne : m p.toNat ≠ 0 := by
      intro heq
      rw [heq] at hnat
      exact absurd hnat.symm (Nat.ne_of_gt hpos)
    rw [List.length_append, List.length_cons] at hfit ⊢
    have hnot : ¬ len ≤ p := by
      rw [UInt32.le_iff_toNat_le]
      omega
    have hstep : (p + ((m p.toNat).toUInt32 + 1)).toNat = p.toNat + (l.length + 1) := by
      rw [toNat_step (by omega), hnat]
    rw [result_skipLoop_succ, if_neg hnot, hclear, if_neg (by decide), if_neg (by decide),
      if_neg hne]
    obtain ⟨off, hoff, hend⟩ := ih
      (fun l hl => hlabels l (List.mem_cons_of_mem _ hl)) (by rw [hstep]; exact hrest)
      (by omega) (Nat.lt_of_succ_lt_succ hturns)
    exact ⟨off, hoff, by omega⟩

theorem length_le_wireLabels (labels : List (List UInt8)) :
    labels.length ≤ (wireLabels labels).length := by
  induction labels with
  | nil => exact Nat.le_refl 0
  | cons l labels ih =>
    simp only [wireLabels, List.flatMap_cons, List.length_append, List.length_cons] at ih ⊢
    omega

/-! ## Names and messages together -/

/-- An accepted name stands on the wire as its labels and is passed to its end.  On the
messages of a length `dns_input` ends and stays below the length exactly if the length is
below `2 ^ 32 - 63`. -/
theorem names_and_messages (name : CStr) (cap : Nat) (len : UInt32) :
    (∀ enc, encodeName name.bytes cap = some enc →
      (∃ labels, Encodes labels name.bytes enc) ∧
        ∀ (m : Mem) (total off : UInt32), off.toNat + enc.length ≤ total.toNat →
          load m off.toNat enc.length = enc → ∀ turns, enc.length ≤ turns →
            ∃ stop, Input.result (skipLoop m total turns off) = .ok stop ∧
              stop.toNat = off.toNat + enc.length) ∧
      ((∀ tx r m, Reached tx r → Bounded r m len) ↔ len.toNat < 2 ^ 32 - 63) := by
  refine ⟨fun enc henc => ?_, fun h => ?_, fun hlen _ r m _ => bounded_of_short r m hlen⟩
  · obtain ⟨labels, hencodes⟩ := encodeName_encodes henc
    refine ⟨⟨labels, hencodes⟩, fun m total off hfit hload turns hturns => ?_⟩
    obtain ⟨rfl, hlabels, -, -⟩ := hencodes
    have hcount := length_le_wireLabels labels
    rw [List.length_append, List.length_singleton] at hturns
    exact skipLoop_wire hlabels hload hfit (by omega)
  · by_contra hlong
    exact not_bounded_circling (Nat.le_of_not_lt hlong) (h _ _ circle circling_reached)

/-- The walk over a message of `2 ^ 32 - 63` bytes goes in a circle. -/
theorem message_circled :
    Reached (fun _ _ => .ok) circling ∧ ¬ Bounded circling circle 0xFFFFFFC1 :=
  ⟨circling_reached, not_bounded_circling (by decide)⟩

end Dns
