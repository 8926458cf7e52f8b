import OpenWindows.Dhcp.Lease

/-!
# Runs of the DHCP client

A run has a history: the offers taken since the last discovery, the offer that was requested
and the acknowledgement that was taken.  A client that is bound was offered its address and
acknowledged it, as long as every packet of the run meets its condition.
-/

namespace Dhcp

open StepSystem

/-- What an OFFER says. -/
structure Offer where
  address : UInt32
  server : UInt32
  chaddr : Mac

/-- The client and the history of its transaction. -/
structure Sys where
  cli : Client
  offers : List Offer
  requested : Option (UInt32 × UInt32)
  acked : Option Offer

/-- A call; `tx` is what the transmit hook returns. -/
inductive Op
  | init (mac : Mac)
  | discover (tx : UInt32)
  | request (tx : UInt32)
  | release (tx : UInt32)
  | input (packet : Packet) (len : UInt32)
  | tick (elapsed : UInt32)

def offerOf (packet : Packet) : Offer := ⟨yiaddr packet, serverOf packet, chaddr packet⟩

/-- The state after a call. -/
def next (s : Sys) : Op → Sys
  | .init mac => ⟨dhcpInit mac, [], none, none⟩
  | .discover tx =>
    let (_, cli, sent) := dhcpDiscover s.cli tx
    if sent.isSome then ⟨cli, [], none, none⟩ else { s with cli := cli }
  | .request tx =>
    let (_, cli, sent) := dhcpRequest s.cli tx
    if sent.isSome then
      { s with cli := cli, requested := some (s.cli.offeredIp, s.cli.serverIp) }
    else { s with cli := cli }
  | .release tx => { s with cli := (dhcpRelease s.cli tx).2.1 }
  | .input packet len =>
    let out := dhcpInput s.cli packet len
    if out.status ≠ statusOk then { s with cli := out.cli }
    else if messageType packet = offerType then
      { s with cli := out.cli, offers := offerOf packet :: s.offers }
    else { s with cli := out.cli, acked := some (offerOf packet) }
  | .tick elapsed => { s with cli := (dhcpTick s.cli elapsed).2 }

/-- After `dhcp_init`. -/
def started (mac : Mac) : Sys := ⟨dhcpInit mac, [], none, none⟩

/-! ## What is promised -/

def BoundAsOffered (s : Sys) : Prop :=
  s.cli.state = .bound → ∃ o ∈ s.offers, o.address = s.cli.clientIp ∧ o.chaddr = s.cli.mac ∧
    s.requested = some (o.address, o.server) ∧ s.acked = some o

/-- What a call promises: a packet is read inside its length, and changes nothing when it is
refused; and a bound client is bound as it was offered. -/
def Kept (s : Sys) (op : Op) : Prop :=
  (match op with
    | .input packet len =>
      ReadsBelow len.toNat (dhcpInput s.cli packet len).reads ∧
        (IsError (dhcpInput s.cli packet len).status → (dhcpInput s.cli packet len).cli = s.cli)
    | _ => True) ∧
  BoundAsOffered (next s op)

/-- The condition on a packet: its options stay inside it and change nothing when it is refused,
it is for the client's whole hardware address when it is taken, and an acknowledgement names
the address and the server that were requested. -/
def Fair (s : Sys) : Op → Prop
  | .input packet len =>
    StaysInside s.cli packet len ∧ RefusedHarmless s.cli packet len ∧
      (Passes s.cli packet len → Taken s.cli packet → chaddr packet = s.cli.mac) ∧
      (Passes s.cli packet len → Taken s.cli packet → messageType packet = ackType →
        yiaddr packet = s.cli.offeredIp ∧ serverOf packet = s.cli.serverIp)
  | _ => True

/-! ## One packet -/

theorem reads_iff (cli : Client) (packet : Packet) (len : UInt32) :
    ReadsBelow len.toNat (dhcpInput cli packet len).reads ↔ StaysInside cli packet len := by
  rcases dhcpInput_cases cli packet len with ⟨hp, heq⟩ | ⟨hp, -, -, hreads⟩
  · rw [heq, inputType_reads hp.len, dhcpParseOptions, optionLoop_reads]
    have hchecks : ReadsBelow len.toNat checkReads := by
      have hlen := hp.len
      simp only [minMessage] at hlen
      intro r hr
      simp only [checkReads, List.mem_cons, List.not_mem_nil, or_false] at hr
      rcases hr with rfl | rfl | rfl | rfl | rfl | rfl <;> omega
    simp [StaysInside, hp, hchecks]
  · simp [StaysInside, hp, hreads]

theorem unchanged_iff (cli : Client) (packet : Packet) (len : UInt32) :
    (IsError (dhcpInput cli packet len).status → (dhcpInput cli packet len).cli = cli) ↔
      RefusedHarmless cli packet len := by
  rcases dhcpInput_cases cli packet len with ⟨hp, heq⟩ | ⟨hp, hcli, -, -⟩
  · rw [heq]
    have hresult := inputType_result cli packet checkReads
    generalize inputType packet (dhcpParseOptions cli packet checkReads) = out at hresult
    cases hresult with
    | offer ht hs hst hcli =>
      have : Taken cli packet := .inl ⟨ht, hs⟩
      simp [RefusedHarmless, IsError, hst, this]
    | ack ht hs hst hcli =>
      have : Taken cli packet := .inr ⟨ht, hs⟩
      simp [RefusedHarmless, IsError, hst, this]
    | nak ht hst hcli => simp [RefusedHarmless, IsError, hst, ht]
    | refused ht hn herr hcli =>
      simp [RefusedHarmless, herr, hp, ht, hn, hcli, Harmless]
  · simp [RefusedHarmless, hp, hcli]

/-! ## The invariant -/

/-- The client agrees with the history of its transaction. -/
structure Inv (s : Sys) : Prop where
  notRenewing : s.cli.state ≠ .renewing
  selecting : s.cli.state = .selecting → s.cli.offeredIp ≠ ipAny →
    ⟨s.cli.offeredIp, s.cli.serverIp, s.cli.mac⟩ ∈ s.offers
  requesting : s.cli.state = .requesting →
    ⟨s.cli.offeredIp, s.cli.serverIp, s.cli.mac⟩ ∈ s.offers ∧
      s.requested = some (s.cli.offeredIp, s.cli.serverIp)
  bound : BoundAsOffered s

theorem started_inv (mac : Mac) : Inv (started mac) :=
  ⟨nofun, nofun, nofun, nofun⟩

variable {s : Sys}

theorem Inv.of_idle {s' : Sys} (h : s'.cli.state = .idle) : Inv s' :=
  ⟨by simp [h], by simp [h], by simp [h], by simp [BoundAsOffered, h]⟩

theorem dhcpDiscover_cases (cli : Client) (tx : UInt32) :
    dhcpDiscover cli tx = (errNotReady, cli, none) ∨
      ∃ cli' message, dhcpDiscover cli tx = (tx, cli', some message) ∧ cli'.state = .selecting ∧
        cli'.offeredIp = ipAny := by
  unfold dhcpDiscover
  split
  · exact .inl rfl
  · exact .inr ⟨_, _, rfl, rfl, rfl⟩

theorem dhcpRequest_cases (cli : Client) (tx : UInt32) :
    (∃ st, dhcpRequest cli tx = (st, cli, none)) ∨
      (cli.state = .selecting ∧ cli.offeredIp ≠ ipAny ∧
        ∃ message, dhcpRequest cli tx = (tx, { cli with state := .requesting }, some message)) := by
  unfold dhcpRequest
  split
  · exact .inl ⟨_, rfl⟩
  · split
    · exact .inl ⟨_, rfl⟩
    next hready =>
      simp only [ne_eq, not_or, not_not] at hready
      exact .inr ⟨hready.1, hready.2.1, _, rfl⟩

theorem Inv.discover (h : Inv s) (tx : UInt32) : Inv (next s (.discover tx)) := by
  simp only [next]
  rcases dhcpDiscover_cases s.cli tx with heq | ⟨cli', message, heq, hstate, hoffered⟩
  · rw [heq]
    exact h
  · rw [heq]
    exact ⟨by simp [hstate], fun _ hne => absurd hoffered hne, by simp [hstate],
      by simp [BoundAsOffered, hstate]⟩

theorem Inv.request (h : Inv s) (tx : UInt32) : Inv (next s (.request tx)) := by
  simp only [next]
  rcases dhcpRequest_cases s.cli tx with ⟨st, heq⟩ | ⟨hstate, hoffered, message, heq⟩
  · rw [heq]
    exact h
  · rw [heq]
    exact ⟨nofun, nofun, fun _ => ⟨h.selecting hstate hoffered, rfl⟩, nofun⟩

theorem Inv.release (h : Inv s) (tx : UInt32) : Inv (next s (.release tx)) := by
  simp only [next, dhcpRelease]
  split
  · exact h
  · split
    · exact h
    · exact .of_idle rfl

theorem Inv.tick (h : Inv s) (elapsed : UInt32) : Inv (next s (.tick elapsed)) := by
  simp only [next, dhcpTick]
  split
  · exact h
  · split
    · exact h
    · split
      · exact .of_idle rfl
      · exact ⟨h.notRenewing, h.selecting, h.requesting, h.bound⟩

theorem Inv.input (h : Inv s) {packet : Packet} {len : UInt32} (hf : Fair s (.input packet len)) :
    Inv (next s (.input packet len)) := by
  obtain ⟨-, hharmless, hmac, hack⟩ := hf
  have hsame := (unchanged_iff s.cli packet len).2 hharmless
  simp only [next]
  rcases dhcpInput_cases s.cli packet len with ⟨hp, heq⟩ | ⟨-, hcli, herr, -⟩
  · rw [heq] at hsame ⊢
    have hresult := inputType_result s.cli packet checkReads
    generalize inputType packet (dhcpParseOptions s.cli packet checkReads) = out at hsame hresult
    cases hresult with
    | offer ht hs hst hcli =>
      have hm := hmac hp (.inl ⟨ht, hs⟩)
      rw [if_neg (by simp [hst]), if_pos ht, hcli]
      refine ⟨by simp [withOptions, hs], fun _ _ => ?_, by simp [withOptions, hs],
        by simp [BoundAsOffered, withOptions, hs]⟩
      exact List.mem_cons.2 (.inl (by simp [offerOf, hm, withOptions]))
    | ack ht hs hst hcli =>
      obtain ⟨lease, hcli⟩ := hcli
      have htaken : Taken s.cli packet := .inr ⟨ht, hs⟩
      have hm := hmac hp htaken
      obtain ⟨haddress, hserver⟩ := hack hp htaken ht
      have hreq : s.cli.state = .requesting := hs.resolve_right h.notRenewing
      obtain ⟨hoffer, hrequested⟩ := h.requesting hreq
      rw [if_neg (by simp [hst]), if_neg (by rw [ht]; decide), hcli]
      refine ⟨fun h => (by cases h), fun h => (by cases h), fun h => (by cases h),
        fun _ => ⟨_, hoffer, haddress.symm, rfl, hrequested, ?_⟩⟩
      simp [offerOf, haddress, hserver, hm]
    | nak ht hst hcli =>
      rw [if_pos (by rw [hst]; decide)]
      exact .of_idle (by rw [hcli]; rfl)
    | refused ht hn herr hcli =>
      rw [if_pos herr.1, hsame herr]
      exact h
  · rw [if_pos herr.1, hcli]
    exact h

theorem Inv.next (h : Inv s) {op : Op} (hf : Fair s op) : Inv (next s op) := by
  cases op with
  | init mac => exact started_inv mac
  | discover tx => exact h.discover tx
  | request tx => exact h.request tx
  | release tx => exact h.release tx
  | input packet len => exact h.input hf
  | tick elapsed => exact h.tick elapsed

theorem Inv.kept (h : Inv s) {op : Op} (hf : Fair s op) : Kept s op := by
  refine ⟨?_, (h.next hf).bound⟩
  cases op with
  | input packet len =>
    exact ⟨(reads_iff s.cli packet len).2 hf.1, (unchanged_iff s.cli packet len).2 hf.2.1⟩
  | _ => trivial

/-! ## The client -/

theorem Inv.along (h : Inv s) {ops : List Op} (hf : Along Dhcp.next Fair s ops) :
    Along Dhcp.next Kept s ops := by
  induction ops generalizing s with
  | nil => trivial
  | cons op ops ih => exact ⟨h.kept hf.1, ih (h.next hf.1) hf.2⟩

/-- For every client and packet: the reads stay inside the packet, and a refused packet changes
nothing, exactly under their conditions.  In every run of fair packets every call keeps what it
promises. -/
theorem kept_of_fair (cli : Client) (packet : Packet) (len : UInt32) (mac : Mac) (ops : List Op) :
    (ReadsBelow len.toNat (dhcpInput cli packet len).reads ↔ StaysInside cli packet len) ∧
      ((IsError (dhcpInput cli packet len).status → (dhcpInput cli packet len).cli = cli) ↔
        RefusedHarmless cli packet len) ∧
      (Along next Fair (started mac) ops → Along next Kept (started mac) ops) :=
  ⟨reads_iff cli packet len, unchanged_iff cli packet len, (started_inv mac).along⟩

/-! ## A fair run and a forged acknowledgement -/

/-- The client's hardware address. -/
def ownMac : Mac := fun i => UInt8.ofNat (i.val + 2)

/-- Another one with the same first three bytes. -/
def otherMac : Mac := Function.update ownMac (Fin.last 5) 99

/-- A reply with a message type and a server identifier, and nothing else in its options. -/
def replyTo (xid : UInt32) (type : UInt8) (address server : UInt32) (mac : Mac) : Packet := fun i =>
  ([2, 1, 6, 0] ++ putWord (bswap32 xid) ++ List.replicate 8 0 ++ putWord address ++
    List.replicate 8 0 ++ (List.finRange 6).map mac ++ List.replicate 202 0 ++
    putWord (bswap32 magicCookie) ++ [optMsgType, 1, type, optServerId, 4] ++ putWord server ++
    [optEnd]).getD i 0

def firstXid : UInt32 := (next (started ownMac) (.discover 0)).cli.xid

/-- An offer of address 5 by server 1 that is requested, and its acknowledgement. -/
def honestOps : List Op :=
  [.discover 0, .input (replyTo firstXid offerType 5 1 ownMac) 300, .request 0,
    .input (replyTo firstXid ackType 5 1 ownMac) 300]

theorem fair_run_binds : Along next Fair (started ownMac) honestOps ∧
    (honestOps.foldl next (started ownMac)).cli.state = .bound := by
  refine ⟨⟨trivial, ⟨(reads_iff _ _ _).mp ?_, ?_, ?_, ?_⟩, trivial,
    ⟨(reads_iff _ _ _).mp ?_, ?_, ?_, ?_⟩, trivial⟩, by decide⟩
  · unfold ReadsBelow
    decide
  · exact fun _ hn => absurd (.inl ⟨by decide, by decide⟩) hn
  · exact fun _ _ => by decide
  · exact fun _ _ h => absurd h (by decide)
  · unfold ReadsBelow
    decide
  · exact fun _ hn => absurd (.inr ⟨by decide, .inl (by decide)⟩) hn
  · exact fun _ _ => by decide
  · exact fun _ _ _ => ⟨by decide, by decide⟩

/-- An offer of address 5 by server 1 that is requested, and an acknowledgement of address 9 by
server 2 to another hardware address. -/
def forgedOps : List Op :=
  [.discover 0, .input (replyTo firstXid offerType 5 1 ownMac) 300, .request 0,
    .input (replyTo firstXid ackType 9 2 otherMac) 300]

/-- A reply that carries a netmask and no message type, and whose options have no end. -/
def openReply (xid : UInt32) : Packet := fun i =>
  if i = 240 then optSubnet else if i = 241 then 4 else if 242 ≤ i ∧ i < 246 then 255
  else if 246 ≤ i then 0 else replyTo xid offerType 5 1 ownMac i

theorem optionLoop_pads {packet : Packet} {i : Nat}
    (hpad : ∀ j, i ≤ j → packet (optionsBase + j) = optPad) (rounds : Nat) (p : Parse) :
    optionLoop packet rounds i p = { p with
      reads := p.reads ++ (List.range' i (min rounds (optionsSize - i))).map fun j =>
        (optionsBase + j, 1) } := by
  induction rounds generalizing i p with
  | zero => simp [optionLoop]
  | succ rounds ih =>
    rw [optionLoop]
    split
    next hlt =>
      have hmin : min (rounds + 1) (optionsSize - i) = min rounds (optionsSize - (i + 1)) + 1 := by
        omega
      dsimp only
      rw [if_pos (hpad i (Nat.le_refl i)), ih (fun j hj => hpad j (by omega)), hmin,
        List.range'_succ]
      simp
    next hge =>
      have hmin : min (rounds + 1) (optionsSize - i) = 0 := by omega
      rw [hmin]
      simp

theorem openReply_parse (reads : List (Nat × Nat)) :
    dhcpParseOptions (dhcpInit ownMac) (openReply 0) reads =
      ⟨{ dhcpInit ownMac with netmask := 0xFFFFFFFF }, 0, false,
        reads ++ [(240, 1)] ++ [(241, 1)] ++ [(242, 4)] ++
          (List.range' 6 306).map fun j => (optionsBase + j, 1)⟩ := by
  have hlen : (openReply 0 (optionsBase + (0 + 1))).toNat = 4 := by decide
  have hmask : getWord (openReply 0) (optionsBase + (0 + 2)) = 0xFFFFFFFF := by decide
  have hcode : openReply 0 (optionsBase + 0) = optSubnet := by decide
  have hpad : ∀ j, 6 ≤ j → openReply 0 (optionsBase + j) = optPad := by
    intro j hj
    unfold openReply optionsBase optPad
    grind
  rw [dhcpParseOptions, show optionsSize = 311 + 1 from rfl, optionLoop]
  rw [if_pos (by decide), hcode, hlen]
  dsimp only
  rw [if_neg (by decide), if_neg (by decide), if_neg (by decide), if_neg (by decide),
    optionLoop_pads hpad, optionCase, if_neg (by decide), if_pos (by decide), hmask]
  rfl

theorem openReply_outcome : dhcpInput (dhcpInit ownMac) (openReply 0) 300 =
    inputType (openReply 0) (dhcpParseOptions (dhcpInit ownMac) (openReply 0) checkReads) := by
  obtain ⟨-, h⟩ | ⟨h, -⟩ := dhcpInput_cases (dhcpInit ownMac) (openReply 0) 300
  · exact h
  · refine absurd ?_ h
    constructor <;> decide

/-- The client is bound to an address that nobody offered; and a refused packet of 300 bytes
changes the netmask and is read beyond its end. -/
theorem forged_ack_binds :
    (forgedOps.foldl next (started ownMac)).cli.state = .bound ∧
      (∀ o ∈ (forgedOps.foldl next (started ownMac)).offers,
        o.address ≠ (forgedOps.foldl next (started ownMac)).cli.clientIp) ∧
      (dhcpInput (dhcpInit ownMac) (openReply 0) 300).status = errBadPacket ∧
      (dhcpInput (dhcpInit ownMac) (openReply 0) 300).cli.netmask ≠ (dhcpInit ownMac).netmask ∧
      (551, 1) ∈ (dhcpInput (dhcpInit ownMac) (openReply 0) 300).reads := by
  rw [openReply_outcome, openReply_parse]
  have hmem : 311 ∈ List.range' 6 306 := List.mem_range'_1.mpr (by decide)
  refine ⟨?_, ?_, rfl, ?_, List.mem_append_right _ (List.mem_map_of_mem hmem)⟩
  · decide
  · decide
  · decide

/-! ## The lease -/

def Client.expired (cli : Client) : Client :=
  { cli with
    leaseRemaining := 0, clientIp := ipAny, netmask := ipAny, router := ipAny, dns := ipAny
    state := .idle }

def ticks (cli : Client) (times : List UInt32) : Client :=
  times.foldl (fun cli elapsed => (dhcpTick cli elapsed).2) cli

theorem ticks_idle {cli : Client} (h : cli.state = .idle) (times : List UInt32) :
    ticks cli times = cli := by
  induction times with
  | nil => rfl
  | cons elapsed times ih =>
    have hstep : (dhcpTick cli elapsed).2 = cli := by
      unfold dhcpTick
      rw [h]
      split
      · rfl
      · rfl
    rw [ticks, List.foldl_cons, hstep]
    exact ih

theorem tick_leased {cli : Client} (hinit : cli.initialized = true)
    (hlease : cli.state = .bound ∨ cli.state = .renewing) (elapsed : UInt32) :
    (dhcpTick cli elapsed).2 =
      if cli.leaseRemaining ≤ elapsed then cli.expired
      else { cli with leaseRemaining := cli.leaseRemaining - elapsed } := by
  have hheld : ¬ (cli.state ≠ .bound ∧ cli.state ≠ .renewing) :=
    fun h => hlease.elim h.1 h.2
  rw [dhcpTick, if_neg (by rw [hinit]; decide), if_neg hheld]
  split
  · rfl
  · rfl

/-- A lease expires when the ticks sum up to the time it had left. -/
theorem lease_lasts {cli : Client} (hinit : cli.initialized = true)
    (hlease : cli.state = .bound ∨ cli.state = .renewing) (hleft : 0 < cli.leaseRemaining.toNat)
    (times : List UInt32) :
    ticks cli times =
      if (times.map UInt32.toNat).sum < cli.leaseRemaining.toNat then
        { cli with
          leaseRemaining := UInt32.ofNat (cli.leaseRemaining.toNat - (times.map UInt32.toNat).sum) }
      else cli.expired := by
  induction times generalizing cli with
  | nil =>
    rw [List.map_nil, List.sum_nil, if_pos hleft, Nat.sub_zero, UInt32.ofNat_toNat]
    rfl
  | cons elapsed times ih =>
    rw [List.map_cons, List.sum_cons, ticks, List.foldl_cons, tick_leased hinit hlease]
    split
    next hout =>
      have hover := UInt32.le_iff_toNat_le.mp hout
      rw [if_neg (by omega)]
      exact ticks_idle rfl times
    next hin =>
      have hle := UInt32.le_of_lt (UInt32.not_le.mp hin)
      have hmore := UInt32.lt_iff_toNat_lt.mp (UInt32.not_le.mp hin)
      have hsub := UInt32.toNat_sub_of_le _ _ hle
      have hrest := @ih { cli with leaseRemaining := cli.leaseRemaining - elapsed } hinit
        hlease (by rw [hsub]; omega)
      by_cases hsum : elapsed.toNat + (times.map UInt32.toNat).sum < cli.leaseRemaining.toNat
      · rw [if_pos (by rw [hsub]; omega)] at hrest
        rw [if_pos hsum, ← Nat.sub_sub, ← hsub]
        exact hrest
      · rw [if_neg (by rw [hsub]; omega)] at hrest
        rw [if_neg hsum]
        exact hrest

theorem lease_lasts_ten :
    ticks { dhcpInit ownMac with state := .bound, leaseRemaining := 10 } [4, 5] =
        { dhcpInit ownMac with state := .bound, leaseRemaining := 1 } ∧
      ticks { dhcpInit ownMac with state := .bound, leaseRemaining := 10 } [4, 7] =
        { dhcpInit ownMac with state := .bound, leaseRemaining := 10 }.expired :=
  ⟨lease_lasts rfl (.inl rfl) (by decide) [4, 5], lease_lasts rfl (.inl rfl) (by decide) [4, 7]⟩

end Dhcp
