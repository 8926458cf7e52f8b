import Mathlib.Data.Fintype.Pi
import OpenWindows.Lib.Bytes
import OpenWindows.Lib.StepSystem

/-!
# The DHCP client

The client of `dhcpcli.c`.  A packet is the memory behind its pointer, of which the first
`len` bytes are the packet's; `dhcp_input` says which of it it has read.  Address fields are
copied as they lie in memory, little-endian.
-/

namespace Dhcp

open Bytes

/-- `dhcp_state_t`. -/
inductive State
  | idle | selecting | requesting | bound | renewing | releasing
deriving DecidableEq, Repr

/-- `DHCP_OK`. -/
def statusOk : UInt32 := 0

/-- `DHCP_ERR_NOT_READY`. -/
def errNotReady : UInt32 := 2

/-- `DHCP_ERR_STATE`. -/
def errState : UInt32 := 3

/-- `DHCP_ERR_BAD_PACKET`. -/
def errBadPacket : UInt32 := 4

/-- `DHCP_ERR_NAK`. -/
def errNak : UInt32 := 5

/-- `DHCP_MIN_MESSAGE`. -/
def minMessage : Nat := 300

/-- `DHCP_MAGIC_COOKIE`. -/
def magicCookie : UInt32 := 0x63825363

/-- `DHCP_IP_ANY`. -/
def ipAny : UInt32 := 0

/-- The size of the options field of `dhcp_message_t`. -/
def optionsSize : Nat := 312

/-- The offset of the options field. -/
def optionsBase : Nat := 240

def discoverType : UInt8 := 1
def offerType : UInt8 := 2
def requestType : UInt8 := 3
def ackType : UInt8 := 5
def nakType : UInt8 := 6
def releaseType : UInt8 := 7

/-- The option codes. -/
def optPad : UInt8 := 0
def optSubnet : UInt8 := 1
def optRouter : UInt8 := 3
def optDns : UInt8 := 6
def optRequested : UInt8 := 50
def optLeaseTime : UInt8 := 51
def optMsgType : UInt8 := 53
def optServerId : UInt8 := 54
def optParamList : UInt8 := 55
def optEnd : UInt8 := 255

/-- A hardware address. -/
abbrev Mac := Fin 6 → UInt8

/-- `dhcp_client_t` without the transmit hook and its buffer. -/
structure Client where
  state : State
  initialized : Bool
  mac : Mac
  xid : UInt32
  clientIp : UInt32
  offeredIp : UInt32
  serverIp : UInt32
  netmask : UInt32
  router : UInt32
  dns : UInt32
  leaseSeconds : UInt32
  leaseRemaining : UInt32
  seed : UInt32
deriving DecidableEq

/-- `ow_bswap32`. -/
def bswap32 (v : UInt32) : UInt32 :=
  ((v &&& 0x000000FF) <<< 24) ||| ((v &&& 0x0000FF00) <<< 8) ||| ((v &&& 0x00FF0000) >>> 8) |||
    ((v &&& 0xFF000000) >>> 24)

/-- `dhcp_put_ip`, and how any 32-bit field lies in memory. -/
def putWord (v : UInt32) : List UInt8 := leBytes 4 v.toNat

/-! ## Sending -/

/-- `dhcp_next_xid`. -/
def nextXid (cli : Client) : UInt32 × Client :=
  let seed := cli.seed * 1103515245 + 12345
  ((seed >>> 8) ^^^ (cli.mac 5).toUInt32, { cli with seed := seed })

/-- The options of a message that `dhcp_build` makes. -/
def buildOptions (msgType : UInt8) (requestedIp serverId : UInt32) : List UInt8 :=
  [optMsgType, 1, msgType] ++
    (if requestedIp ≠ ipAny then [optRequested, 4] ++ putWord requestedIp else []) ++
    (if serverId ≠ ipAny then [optServerId, 4] ++ putWord serverId else []) ++
    (if msgType ≠ releaseType then [optParamList, 3, optSubnet, optRouter, optDns] else []) ++ [optEnd]

/-- `dhcp_build`: the bytes that are sent. -/
def dhcpBuild (cli : Client) (msgType : UInt8) (requestedIp serverId : UInt32) : List UInt8 :=
  let ciaddr := if msgType = releaseType then cli.clientIp else 0
  let message := [1, 1, 6, 0] ++ putWord (bswap32 cli.xid) ++ [0, 0] ++ [0x80, 0x00] ++ putWord ciaddr ++
    putWord 0 ++ putWord 0 ++ putWord 0 ++ (List.finRange 6).map cli.mac ++ List.replicate 10 0 ++
    List.replicate 64 0 ++ List.replicate 128 0 ++ putWord (bswap32 magicCookie) ++
    buildOptions msgType requestedIp serverId
  message ++ List.replicate (minMessage - message.length) 0

/-- `dhcp_init`. -/
def dhcpInit (mac : Mac) : Client where
  state := .idle
  initialized := true
  mac := mac
  xid := 0
  clientIp := 0
  offeredIp := 0
  serverIp := 0
  netmask := 0
  router := 0
  dns := 0
  leaseSeconds := 0
  leaseRemaining := 0
  seed := 0x2545F491 ^^^ (mac 3).toUInt32

/-- `dhcp_discover`; `tx` is what the transmit hook returns.  The message is none for a call that
sends nothing. -/
def dhcpDiscover (cli : Client) (tx : UInt32) : UInt32 × Client × Option (List UInt8) :=
  if !cli.initialized then (errNotReady, cli, none)
  else
    let (xid, cli) := nextXid cli
    let cli := { cli with xid := xid, offeredIp := ipAny, serverIp := ipAny }
    (tx, { cli with state := .selecting }, some (dhcpBuild cli discoverType ipAny ipAny))

/-- `dhcp_request`. -/
def dhcpRequest (cli : Client) (tx : UInt32) : UInt32 × Client × Option (List UInt8) :=
  if !cli.initialized then (errNotReady, cli, none)
  else if cli.state ≠ .selecting ∨ cli.offeredIp = ipAny ∨ cli.serverIp = ipAny then (errState, cli, none)
  else (tx, { cli with state := .requesting }, some (dhcpBuild cli requestType cli.offeredIp cli.serverIp))

def Client.dropLease (cli : Client) : Client :=
  { cli with
    state := .idle, clientIp := ipAny, offeredIp := ipAny, serverIp := ipAny, netmask := ipAny
    router := ipAny, dns := ipAny, leaseSeconds := 0, leaseRemaining := 0 }

/-- `dhcp_release`. -/
def dhcpRelease (cli : Client) (tx : UInt32) : UInt32 × Client × Option (List UInt8) :=
  if !cli.initialized then (errNotReady, cli, none)
  else if cli.state ≠ .bound ∧ cli.state ≠ .renewing then (errState, cli, none)
  else (tx, cli.dropLease, some (dhcpBuild cli releaseType ipAny cli.serverIp))

/-- `dhcp_tick`. -/
def dhcpTick (cli : Client) (elapsed : UInt32) : UInt32 × Client :=
  if !cli.initialized then (errNotReady, cli)
  else if cli.state ≠ .bound ∧ cli.state ≠ .renewing then (statusOk, cli)
  else if cli.leaseRemaining ≤ elapsed then
    (statusOk,
      { cli with
        leaseRemaining := 0, clientIp := ipAny, netmask := ipAny, router := ipAny, dns := ipAny
        state := .idle })
  else (statusOk, { cli with leaseRemaining := cli.leaseRemaining - elapsed })

/-! ## Receiving -/

/-- The memory behind a packet's pointer. -/
abbrev Packet := Nat → UInt8

/-- A 32-bit field of a packet (`dhcp_get_ip`). -/
def getWord (packet : Packet) (off : Nat) : UInt32 :=
  (packet off).toUInt32 ||| ((packet (off + 1)).toUInt32 <<< 8) |||
    ((packet (off + 2)).toUInt32 <<< 16) ||| ((packet (off + 3)).toUInt32 <<< 24)

/-- What `dhcp_parse_options` has found and done so far, with the offset and the size of each read. -/
structure Parse where
  cli : Client
  type : UInt8
  hasServerId : Bool
  reads : List (Nat × Nat)
deriving DecidableEq

/-- The `switch` of `dhcp_parse_options` on an option of `olen` bytes at option byte `i`. -/
def optionCase (packet : Packet) (code : UInt8) (i olen : Nat) (p : Parse) : Parse :=
  let off := optionsBase + i
  if code = optMsgType then
    if olen ≥ 1 then { p with type := packet off, reads := p.reads ++ [(off, 1)] } else p
  else if olen ≥ 4 then
    let word := getWord packet off
    let reads := p.reads ++ [(off, 4)]
    if code = optSubnet then { p with cli := { p.cli with netmask := word }, reads := reads }
    else if code = optRouter then { p with cli := { p.cli with router := word }, reads := reads }
    else if code = optDns then { p with cli := { p.cli with dns := word }, reads := reads }
    else if code = optLeaseTime then
      { p with cli := { p.cli with leaseSeconds := bswap32 word }, reads := reads }
    else if code = optServerId then
      { p with cli := { p.cli with serverIp := word }, hasServerId := true, reads := reads }
    else p
  else p

/-- The loop of `dhcp_parse_options`.  Each round takes an option byte at least, so `optionsSize`
rounds are enough. -/
def optionLoop (packet : Packet) : Nat → Nat → Parse → Parse
  | 0, _, p => p
  | rounds + 1, i, p =>
    if i < optionsSize then
      let code := packet (optionsBase + i)
      let p := { p with reads := p.reads ++ [(optionsBase + i, 1)] }
      if code = optPad then optionLoop packet rounds (i + 1) p
      else if code = optEnd then p
      else if i + 1 ≥ optionsSize then p
      else
        let olen := (packet (optionsBase + (i + 1))).toNat
        let p := { p with reads := p.reads ++ [(optionsBase + (i + 1), 1)] }
        if i + 2 + olen > optionsSize then p
        else optionLoop packet rounds (i + 2 + olen) (optionCase packet code (i + 2) olen p)
    else p

/-- `dhcp_parse_options`. -/
def dhcpParseOptions (cli : Client) (packet : Packet) (reads : List (Nat × Nat)) : Parse :=
  optionLoop packet optionsSize 0 ⟨cli, 0, false, reads⟩

/-- The result of `dhcp_input`: the status, the client and what was read. -/
structure Outcome where
  status : UInt32
  cli : Client
  reads : List (Nat × Nat)
deriving DecidableEq

/-- The part of `dhcp_input` after the options. -/
def inputType (packet : Packet) (p : Parse) : Outcome :=
  if p.type = offerType then
    if p.cli.state ≠ .selecting then ⟨errState, p.cli, p.reads⟩
    else
      let cli := { p.cli with offeredIp := getWord packet 16 }
      if p.hasServerId then ⟨statusOk, cli, p.reads ++ [(16, 4)]⟩
      else ⟨statusOk, { cli with serverIp := getWord packet 20 }, p.reads ++ [(16, 4), (20, 4)]⟩
  else if p.type = ackType then
    if p.cli.state ≠ .requesting ∧ p.cli.state ≠ .renewing then ⟨errState, p.cli, p.reads⟩
    else
      let lease := if p.cli.leaseSeconds = 0 then 3600 else p.cli.leaseSeconds
      ⟨statusOk,
        { p.cli with
          clientIp := getWord packet 16, leaseSeconds := lease, leaseRemaining := lease
          state := .bound },
        p.reads ++ [(16, 4)]⟩
  else if p.type = nakType then ⟨errNak, p.cli.dropLease, p.reads⟩
  else ⟨errBadPacket, p.cli, p.reads⟩

/-- `dhcp_input`. -/
def dhcpInput (cli : Client) (packet : Packet) (len : UInt32) : Outcome :=
  if !cli.initialized then ⟨errNotReady, cli, []⟩
  else if len.toNat < minMessage then ⟨errBadPacket, cli, []⟩
  else if packet 0 ≠ 2 then ⟨errBadPacket, cli, [(0, 1)]⟩
  else if bswap32 (getWord packet 236) ≠ magicCookie then ⟨errBadPacket, cli, [(0, 1), (236, 4)]⟩
  else if bswap32 (getWord packet 4) ≠ cli.xid then ⟨errBadPacket, cli, [(0, 1), (236, 4), (4, 4)]⟩
  else if packet 28 ≠ cli.mac 0 then ⟨errBadPacket, cli, [(0, 1), (236, 4), (4, 4), (28, 1)]⟩
  else if packet 29 ≠ cli.mac 1 then
    ⟨errBadPacket, cli, [(0, 1), (236, 4), (4, 4), (28, 1), (29, 1)]⟩
  else if packet 30 ≠ cli.mac 2 then
    ⟨errBadPacket, cli, [(0, 1), (236, 4), (4, 4), (28, 1), (29, 1), (30, 1)]⟩
  else
    inputType packet
      (dhcpParseOptions cli packet [(0, 1), (236, 4), (4, 4), (28, 1), (29, 1), (30, 1)])

/-! ## Packets and the lease

The options of a packet are a list, and what `dhcp_parse_options` leaves is the last value of
each.  From it follow the two conditions on a single packet (the walk stays inside it, and its
options change nothing when it is refused) and the invariant of whole runs.
-/

section

open StepSystem

/-! ### The options of a packet -/

/-- An option: its code, the option byte its value starts at, and its length. -/
structure Opt where
  code : UInt8
  start : Nat
  len : Nat

/-- The options from option byte `i` on. -/
def optionsFrom (packet : Packet) : Nat → Nat → List Opt
  | 0, _ => []
  | rounds + 1, i =>
    if i < optionsSize then
      let code := packet (optionsBase + i)
      if code = optPad then optionsFrom packet rounds (i + 1)
      else if code = optEnd then []
      else if i + 1 ≥ optionsSize then []
      else
        let olen := (packet (optionsBase + (i + 1))).toNat
        if i + 2 + olen > optionsSize then []
        else ⟨code, i + 2, olen⟩ :: optionsFrom packet rounds (i + 2 + olen)
    else []

def options (packet : Packet) : List Opt := optionsFrom packet optionsSize 0

/-- The values of the options of a code that hold a 32-bit field. -/
def wordsOf (packet : Packet) (code : UInt8) (os : List Opt) : List UInt32 :=
  os.filterMap fun o =>
    if o.code = code ∧ 4 ≤ o.len then some (getWord packet (optionsBase + o.start)) else none

/-- The message types that the options name. -/
def typesOf (packet : Packet) (os : List Opt) : List UInt8 :=
  os.filterMap fun o =>
    if o.code = optMsgType ∧ 1 ≤ o.len then some (packet (optionsBase + o.start)) else none

def lastWord (packet : Packet) (code : UInt8) : Option UInt32 :=
  (wordsOf packet code (options packet)).getLast?

def messageType (packet : Packet) : UInt8 := (typesOf packet (options packet)).getLast?.getD 0

/-- The server that sent a packet: its server identifier, else the `siaddr` field. -/
def serverOf (packet : Packet) : UInt32 := (lastWord packet optServerId).getD (getWord packet 20)

/-- The `yiaddr` field of a packet. -/
def yiaddr (packet : Packet) : UInt32 := getWord packet 16

/-- The hardware address a packet is for. -/
def chaddr (packet : Packet) : Mac := fun i => packet (28 + i.val)

/-- A client with the values that a list of options gives its fields. -/
def withOptions (packet : Packet) (os : List Opt) (cli : Client) : Client :=
  { cli with
    netmask := (wordsOf packet optSubnet os).getLast?.getD cli.netmask
    router := (wordsOf packet optRouter os).getLast?.getD cli.router
    dns := (wordsOf packet optDns os).getLast?.getD cli.dns
    leaseSeconds := ((wordsOf packet optLeaseTime os).getLast?.map bswap32).getD cli.leaseSeconds
    serverIp := (wordsOf packet optServerId os).getLast?.getD cli.serverIp }

/-- What the walk over a list of options finds, up to the reads. -/
structure Found (packet : Packet) (os : List Opt) (p q : Parse) : Prop where
  cli : q.cli = withOptions packet os p.cli
  type : q.type = (typesOf packet os).getLast?.getD p.type
  hasServerId : q.hasServerId = (p.hasServerId || (wordsOf packet optServerId os).getLast?.isSome)

theorem Found.nil (packet : Packet) (p : Parse) : Found packet [] p p :=
  ⟨rfl, rfl, by simp [wordsOf]⟩

theorem getD_or {α β : Type} (f : α → β) (x y : Option α) (d : β) :
    ((x.or y).map f).getD d = (x.map f).getD ((y.map f).getD d) := by
  cases x <;> rfl

theorem getD_or_self {α : Type} (x y : Option α) (d : α) : (x.or y).getD d = x.getD (y.getD d) := by
  cases x <;> rfl

variable {packet : Packet} {reads : List (Nat × Nat)}

theorem Found.append {os os' : List Opt} {p q r : Parse} (h : Found packet os p q)
    (h' : Found packet os' q r) : Found packet (os ++ os') p r where
  cli := by
    rw [h'.cli, h.cli]
    simp only [withOptions, wordsOf, List.filterMap_append, List.getLast?_append, getD_or_self, getD_or]
  type := by
    rw [h'.type, h.type]
    simp only [typesOf, List.filterMap_append, List.getLast?_append, getD_or_self]
  hasServerId := by
    rw [h'.hasServerId, h.hasServerId]
    simp only [wordsOf, List.filterMap_append, List.getLast?_append, Option.isSome_or]
    rw [Bool.or_assoc, Bool.or_comm (Option.isSome _)]

theorem wordsOf_one (packet : Packet) (c code : UInt8) (i olen : Nat) :
    (wordsOf packet c [⟨code, i, olen⟩]).getLast? =
      if code = c ∧ 4 ≤ olen then some (getWord packet (optionsBase + i)) else none := by
  simp only [wordsOf, List.filterMap_cons, List.filterMap_nil]
  split <;> simp_all

theorem typesOf_one (packet : Packet) (code : UInt8) (i olen : Nat) :
    (typesOf packet [⟨code, i, olen⟩]).getLast? =
      if code = optMsgType ∧ 1 ≤ olen then some (packet (optionsBase + i)) else none := by
  simp only [typesOf, List.filterMap_cons, List.filterMap_nil]
  split <;> simp_all

theorem optionCase_found (packet : Packet) (code : UInt8) (i olen : Nat) (p : Parse) :
    Found packet [⟨code, i, olen⟩] p (optionCase packet code i olen p) where
  cli := by
    simp only [withOptions, wordsOf_one, optionCase]
    split_ifs <;> simp_all [optMsgType, optSubnet, optRouter, optDns, optLeaseTime, optServerId]
  type := by
    simp only [typesOf_one, optionCase]
    split_ifs <;> simp_all
  hasServerId := by
    simp only [wordsOf_one, optionCase]
    split_ifs <;> simp_all [optMsgType, optSubnet, optRouter, optDns, optLeaseTime, optServerId]

theorem Found.of_reads {os : List Opt} {p q : Parse}
    (h : Found packet os { p with reads := reads } q) : Found packet os p q :=
  ⟨h.cli, h.type, h.hasServerId⟩

theorem optionLoop_found (packet : Packet) (rounds i : Nat) (p : Parse) :
    Found packet (optionsFrom packet rounds i) p (optionLoop packet rounds i p) := by
  induction rounds generalizing i p with
  | zero => exact .nil packet p
  | succ rounds ih =>
    simp only [optionsFrom, optionLoop]
    split
    · split
      · exact .of_reads (ih _ _)
      · split
        · exact .of_reads (.nil packet _)
        · split
          · exact .of_reads (.nil packet _)
          · split
            · exact .of_reads (.nil packet _)
            · exact .of_reads (.append (optionCase_found packet _ _ _ _) (ih _ _))
    · exact .nil packet p

/-! ### What the walk reads -/

/-- Every read lies in the first `n` bytes. -/
def ReadsBelow (n : Nat) (reads : List (Nat × Nat)) : Prop := ∀ r ∈ reads, r.1 + r.2 ≤ n

theorem readsBelow_snoc {n off size : Nat} :
    ReadsBelow n (reads ++ [(off, size)]) ↔ ReadsBelow n reads ∧ off + size ≤ n := by
  simp [ReadsBelow, or_imp, forall_and]

/-- The value of an option, as far as the walk looks at it, lies in the first `n` bytes. -/
def ValueBelow (n : Nat) (code : UInt8) (i olen : Nat) : Prop :=
  if code = optMsgType then 1 ≤ olen → optionsBase + i + 1 ≤ n
  else if code ∈ [optSubnet, optRouter, optDns, optLeaseTime, optServerId] then
    4 ≤ olen → optionsBase + i + 4 ≤ n
  else True

/-- The walk from option byte `i` on stays in the first `n` bytes. -/
def WalkBelow (packet : Packet) (n : Nat) : Nat → Nat → Prop
  | 0, _ => True
  | rounds + 1, i =>
    if i < optionsSize then
      optionsBase + i + 1 ≤ n ∧
        let code := packet (optionsBase + i)
        if code = optPad then WalkBelow packet n rounds (i + 1)
        else if code = optEnd then True
        else if i + 1 ≥ optionsSize then True
        else
          optionsBase + (i + 1) + 1 ≤ n ∧
            let olen := (packet (optionsBase + (i + 1))).toNat
            if i + 2 + olen > optionsSize then True
            else ValueBelow n code (i + 2) olen ∧ WalkBelow packet n rounds (i + 2 + olen)
    else True

theorem optionCase_reads {n i olen : Nat} {code : UInt8} {p : Parse} :
    ReadsBelow n (optionCase packet code i olen p).reads ↔
      ReadsBelow n p.reads ∧ ValueBelow n code i olen := by
  unfold optionCase ValueBelow
  dsimp only
  split_ifs <;> simp_all [readsBelow_snoc]

theorem optionLoop_reads {n rounds i : Nat} {p : Parse} :
    ReadsBelow n (optionLoop packet rounds i p).reads ↔
      ReadsBelow n p.reads ∧ WalkBelow packet n rounds i := by
  induction rounds generalizing i p with
  | zero => simp [optionLoop, WalkBelow]
  | succ rounds ih =>
    simp only [optionLoop, WalkBelow]
    split
    · split
      · rw [ih, readsBelow_snoc, and_assoc]
      · split
        · rw [readsBelow_snoc, and_true]
        · split
          · rw [readsBelow_snoc, and_true]
          · split
            · rw [readsBelow_snoc, readsBelow_snoc, and_assoc, and_true]
            · rw [ih, optionCase_reads, readsBelow_snoc, readsBelow_snoc, and_assoc, and_assoc,
                and_assoc]
    · rw [and_true]

/-! ### One packet -/

/-- The checks of `dhcp_input` in front of the options. -/
structure Passes (cli : Client) (packet : Packet) (len : UInt32) : Prop where
  initialized : cli.initialized = true
  len : minMessage ≤ len.toNat
  op : packet 0 = 2
  magic : bswap32 (getWord packet 236) = magicCookie
  xid : bswap32 (getWord packet 4) = cli.xid
  mac0 : packet 28 = cli.mac 0
  mac1 : packet 29 = cli.mac 1
  mac2 : packet 30 = cli.mac 2

/-- A status that reports neither success nor a refusal of the server. -/
def IsError (status : UInt32) : Prop := status ≠ statusOk ∧ status ≠ errNak

theorem isError_errNotReady : IsError errNotReady := by unfold IsError; decide

theorem isError_errState : IsError errState := by unfold IsError; decide

theorem isError_errBadPacket : IsError errBadPacket := by unfold IsError; decide

def checkReads : List (Nat × Nat) := [(0, 1), (236, 4), (4, 4), (28, 1), (29, 1), (30, 1)]

theorem dhcpInput_cases (cli : Client) (packet : Packet) (len : UInt32) :
    (Passes cli packet len ∧
        dhcpInput cli packet len = inputType packet (dhcpParseOptions cli packet checkReads)) ∨
      (¬ Passes cli packet len ∧ (dhcpInput cli packet len).cli = cli ∧
        IsError (dhcpInput cli packet len).status ∧
        ReadsBelow len.toNat (dhcpInput cli packet len).reads) := by
  unfold dhcpInput
  split
  next h => exact .inr ⟨fun hp => by simp [hp.initialized] at h, rfl, isError_errNotReady, by simp [ReadsBelow]⟩
  next hinit =>
    split
    next h =>
      exact .inr ⟨fun hp => by have := hp.len; omega, rfl, isError_errBadPacket, by simp [ReadsBelow]⟩
    next hlen =>
      simp only [minMessage] at hlen
      have hreads : ReadsBelow len.toNat checkReads := by
        intro r hr
        simp only [checkReads, List.mem_cons, List.not_mem_nil, or_false] at hr
        rcases hr with rfl | rfl | rfl | rfl | rfl | rfl <;> omega
      have hprefix : ∀ k, ReadsBelow len.toNat (checkReads.take k) :=
        fun k r hr => hreads r (List.mem_of_mem_take hr)
      split
      next h => exact .inr ⟨fun hp => h hp.op, rfl, isError_errBadPacket, hprefix 1⟩
      next hop =>
        split
        next h => exact .inr ⟨fun hp => h hp.magic, rfl, isError_errBadPacket, hprefix 2⟩
        next hmagic =>
          split
          next h => exact .inr ⟨fun hp => h hp.xid, rfl, isError_errBadPacket, hprefix 3⟩
          next hxid =>
            split
            next h => exact .inr ⟨fun hp => h hp.mac0, rfl, isError_errBadPacket, hprefix 4⟩
            next h0 =>
              split
              next h => exact .inr ⟨fun hp => h hp.mac1, rfl, isError_errBadPacket, hprefix 5⟩
              next h1 =>
                split
                next h => exact .inr ⟨fun hp => h hp.mac2, rfl, isError_errBadPacket, hprefix 6⟩
                next h2 =>
                  refine .inl ⟨⟨by simpa using hinit, by simp only [minMessage]; omega, ?_, ?_, ?_, ?_, ?_, ?_⟩, rfl⟩
                  · exact not_not.1 hop
                  · exact not_not.1 hmagic
                  · exact not_not.1 hxid
                  · exact not_not.1 h0
                  · exact not_not.1 h1
                  · exact not_not.1 h2

theorem parse_found (cli : Client) (packet : Packet) (reads : List (Nat × Nat)) :
    Found packet (options packet) ⟨cli, 0, false, reads⟩ (dhcpParseOptions cli packet reads) :=
  optionLoop_found packet optionsSize 0 ⟨cli, 0, false, reads⟩

def Taken (cli : Client) (packet : Packet) : Prop :=
  (messageType packet = offerType ∧ cli.state = .selecting) ∨
    (messageType packet = ackType ∧ (cli.state = .requesting ∨ cli.state = .renewing))

/-- The options of a packet give no field of the client another value. -/
def Harmless (cli : Client) (packet : Packet) : Prop := withOptions packet (options packet) cli = cli

def StaysInside (cli : Client) (packet : Packet) (len : UInt32) : Prop :=
  Passes cli packet len → WalkBelow packet len.toNat optionsSize 0

/-- A packet that is refused after its options were parsed changes nothing through them. -/
def RefusedHarmless (cli : Client) (packet : Packet) (len : UInt32) : Prop :=
  Passes cli packet len → ¬ Taken cli packet → messageType packet ≠ nakType → Harmless cli packet

/-- What a parsed packet comes to. -/
inductive Result (cli : Client) (packet : Packet) (out : Outcome) : Prop
  | offer : messageType packet = offerType → cli.state = .selecting → out.status = statusOk →
      out.cli = { withOptions packet (options packet) cli with
        offeredIp := yiaddr packet, serverIp := serverOf packet } → Result cli packet out
  | ack : messageType packet = ackType → cli.state = .requesting ∨ cli.state = .renewing →
      out.status = statusOk →
      (∃ lease, out.cli = { withOptions packet (options packet) cli with
        clientIp := yiaddr packet, leaseSeconds := lease, leaseRemaining := lease, state := .bound }) →
      Result cli packet out
  | nak : messageType packet = nakType → out.status = errNak →
      out.cli = (withOptions packet (options packet) cli).dropLease → Result cli packet out
  | refused : ¬ Taken cli packet → messageType packet ≠ nakType → IsError out.status →
      out.cli = withOptions packet (options packet) cli → Result cli packet out

theorem inputType_result (cli : Client) (packet : Packet) (reads : List (Nat × Nat)) :
    Result cli packet (inputType packet (dhcpParseOptions cli packet reads)) := by
  obtain ⟨hcli, htype, hhas⟩ := parse_found cli packet reads
  generalize dhcpParseOptions cli packet reads = p at hcli htype hhas
  have htype : p.type = messageType packet := htype
  have hstate : p.cli.state = cli.state := by rw [hcli]; rfl
  simp only [Bool.false_or] at hhas
  unfold inputType
  rw [htype, hstate]
  split
  next hoffer =>
    split
    next hs =>
      refine .refused ?_ (by rw [hoffer]; decide) isError_errState hcli
      rintro (⟨-, hsel⟩ | ⟨hack, -⟩)
      · exact hs hsel
      · rw [hoffer] at hack
        cases hack
    next hs =>
      have hs : cli.state = .selecting := not_not.1 hs
      dsimp only
      split
      next hserver =>
        refine .offer hoffer hs rfl ?_
        rw [hhas] at hserver
        obtain ⟨w, hw⟩ := Option.isSome_iff_exists.1 hserver
        have hlast : lastWord packet optServerId = some w := hw
        rw [hcli]
        simp [withOptions, serverOf, hlast, hw, yiaddr]
      next hserver =>
        refine .offer hoffer hs rfl ?_
        rw [hhas] at hserver
        have hlast : lastWord packet optServerId = none := by
          simpa [lastWord] using hserver
        rw [hcli]
        simp [serverOf, hlast, yiaddr]
  next hoffer =>
    split
    next hack =>
      split
      next hs =>
        refine .refused ?_ (by rw [hack]; decide) isError_errState hcli
        rintro (⟨hoff, -⟩ | ⟨-, hreq⟩)
        · exact hoffer hoff
        · rcases hreq with hreq | hreq
          · exact hs.1 hreq
          · exact hs.2 hreq
      next hs =>
        refine .ack hack (by simpa [not_and_or, or_iff_not_imp_left] using hs) rfl ?_
        exact ⟨_, by rw [hcli]; rfl⟩
    next hack =>
      have hnot : ¬ Taken cli packet := by
        rintro (⟨hoff, -⟩ | ⟨ha, -⟩)
        · exact hoffer hoff
        · exact hack ha
      split
      next hnak => exact .nak hnak rfl (by rw [hcli])
      next hnak => exact .refused hnot hnak isError_errBadPacket hcli

theorem inputType_reads {n : Nat} {p : Parse} (hn : minMessage ≤ n) :
    ReadsBelow n (inputType packet p).reads ↔ ReadsBelow n p.reads := by
  simp only [minMessage] at hn
  unfold inputType
  split_ifs <;> simp [ReadsBelow, or_imp, forall_and] <;> omega

end

end Dhcp
