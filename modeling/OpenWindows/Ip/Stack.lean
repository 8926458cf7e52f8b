import OpenWindows.Lib.OnesSum

/-!
# The IP stack

`ipstack` sends and receives IPv4 datagrams over one link.  `ip_send` looks up the
next hop and its hardware address, and hands the frame to `link_tx`.  `ip_recv`
takes a frame: an ARP packet enters the ARP cache, and a datagram goes to the
callback of its protocol.

Addresses are stored as on the wire, and the host is little endian: the first
byte of an address is its lowest.  The hook `link_tx` is a function of the frames
handed to it so far and the frame of the call.  A callback is a flag, which says
that it is registered, and its calls are logged.
-/

namespace Ip

open Words

/-! ## Statuses and constants -/

/-- `ipstack_status_t`. -/
inductive Status where
  | ok | param | notReady | noRoute | pending | full | drop | badPacket
  deriving DecidableEq, Repr

/-- `IP_VERSION`. -/
def version : UInt8 := 4

/-- `IP_HEADER_LEN`. -/
def headerLen : Nat := 20

/-- `IP_DEFAULT_TTL`. -/
def defaultTtl : UInt8 := 64

/-- `IP_BROADCAST`. -/
def broadcast : UInt32 := 0xFFFFFFFF

/-- `ETH_HDR_LEN`. -/
def ethHdrLen : Nat := 14

/-- `ETH_TYPE_IP`. -/
def ethTypeIp : UInt16 := 0x0800

/-- `ETH_TYPE_ARP`. -/
def ethTypeArp : UInt16 := 0x0806

/-- `IP_PROTO_ICMP`. -/
def protoIcmp : UInt8 := 1

/-- `IP_PROTO_TCP`. -/
def protoTcp : UInt8 := 6

/-- `IP_PROTO_UDP`. -/
def protoUdp : UInt8 := 17

/-- `ARP_OP_REQUEST`. -/
def arpOpRequest : UInt16 := 1

/-- `ARP_OP_REPLY`. -/
def arpOpReply : UInt16 := 2

/-- `IP_ROUTE_MAX`. -/
def routeMax : Nat := 8

/-- `IP_ARP_CACHE_MAX`. -/
def arpCacheMax : Nat := 16

/-- `IP_FRAME_MAX`. -/
def frameMax : Nat := 1536

/-- The size of `ip_arp_packet_t`. -/
def arpPacketLen : Nat := 28

/-! ## Addresses -/

/-- A hardware address. -/
abbrev Mac := Vector UInt8 6

/-- The six bytes at the front of a list. -/
def Mac.read (bytes : List UInt8) : Mac := Vector.ofFn fun i => bytes.getD i 0

/-- The hardware address of all ones. -/
def Mac.all : Mac := Vector.replicate 6 0xFF

/-- The bytes of an address in memory. -/
def putAddr (addr : UInt32) : List UInt8 :=
  [addr.toUInt8, (addr >>> 8).toUInt8, (addr >>> 16).toUInt8, (addr >>> 24).toUInt8]

def getAddr (bytes : List UInt8) : UInt32 :=
  (bytes.getD 0 0).toUInt32 ||| (bytes.getD 1 0).toUInt32 <<< 8 |||
    (bytes.getD 2 0).toUInt32 <<< 16 ||| (bytes.getD 3 0).toUInt32 <<< 24

theorem getAddr_eq (bytes : List UInt8) :
    getAddr bytes =
      get32 [bytes.getD 3 0, bytes.getD 2 0, bytes.getD 1 0, bytes.getD 0 0] := by
  simp only [getAddr, get32, List.getD_cons_zero, List.getD_cons_succ]
  generalize (bytes.getD 0 0).toUInt32 = b₀
  generalize (bytes.getD 1 0).toUInt32 <<< 8 = b₁
  generalize (bytes.getD 2 0).toUInt32 <<< 16 = b₂
  generalize (bytes.getD 3 0).toUInt32 <<< 24 = b₃
  ac_rfl

@[simp] theorem getAddr_putAddr (addr : UInt32) (rest : List UInt8) :
    getAddr (putAddr addr ++ rest) = addr := by
  rw [getAddr_eq]
  exact get32_put32 addr []

/-! ## Checksum -/

/-- `ip_checksum`. -/
def checksum (data : List UInt8) : UInt16 := OnesSum.complement (OnesSum.sumWords data 0)

/-! ## The stack -/

/-- `ip_config_t`. -/
structure Config where
  ip : UInt32
  netmask : UInt32
  gateway : UInt32
  mac : Mac

/-- `ip_route_entry_t`. -/
structure RouteEntry where
  dest : UInt32
  mask : UInt32
  gateway : UInt32
  iface : UInt16
  used : Bool
  deriving DecidableEq

/-- A route after `ow_memset`. -/
def RouteEntry.zero : RouteEntry := ⟨0, 0, 0, 0, false⟩

/-- `ip_arp_entry_t`. -/
structure ArpEntry where
  ip : UInt32
  mac : Mac
  age : UInt16
  valid : Bool
  deriving DecidableEq

/-- An ARP entry after `ow_memset`. -/
def ArpEntry.zero : ArpEntry := ⟨0, Vector.replicate 6 0, 0, false⟩

/-- The call of a callback. -/
inductive Dispatch where
  | arp (ip : UInt32) (mac : Mac)
  | icmp (src : UInt32) (type code : UInt8) (payload : List UInt8)
  | tcp (src : UInt32) (srcPort : UInt16) (dst : UInt32) (dstPort : UInt16)
      (segment : List UInt8)
  | udp (src : UInt32) (srcPort : UInt16) (dst : UInt32) (dstPort : UInt16)
      (datagram : List UInt8)
  deriving DecidableEq

/-- The link: the answer to a frame after the frames handed over so far. -/
abbrev LinkTx := List (List UInt8) → List UInt8 → Status

/-- `ipstack_t`. -/
structure Stack where
  localIp : UInt32
  netmask : UInt32
  gateway : UInt32
  localMac : Mac
  nextId : UInt16
  initialized : Bool
  icmpCb : Bool
  tcpCb : Bool
  udpCb : Bool
  arpCb : Bool
  routes : Nat → RouteEntry
  arpCache : Nat → ArpEntry
  /-- The frames handed to `link_tx` so far, latest first. -/
  sent : List (List UInt8)
  /-- The calls of the callbacks so far, latest first. -/
  dispatched : List Dispatch

/-- `ip_init`. -/
def Stack.init (cfg : Config) : Stack where
  localIp := cfg.ip
  netmask := cfg.netmask
  gateway := cfg.gateway
  localMac := cfg.mac
  nextId := 1
  initialized := true
  icmpCb := false
  tcpCb := false
  udpCb := false
  arpCb := false
  routes _ := .zero
  arpCache _ := .zero
  sent := []
  dispatched := []

/-- `ip_set_address`. -/
def setAddress (st : Stack) (ip netmask gateway : UInt32) : Stack :=
  { st with localIp := ip, netmask := netmask, gateway := gateway }

/-- `ip_set_callbacks`. -/
def setCallbacks (st : Stack) (icmp tcp udp arp : Bool) : Stack :=
  { st with icmpCb := icmp, tcpCb := tcp, udpCb := udp, arpCb := arp }

/-- Call a callback. -/
def Stack.dispatch (st : Stack) (d : Dispatch) : Stack :=
  { st with dispatched := d :: st.dispatched }

/-! ## ARP cache -/

def ArpEntry.matches (e : ArpEntry) (ip : UInt32) : Bool := e.valid && e.ip == ip

/-- The slot of `ip_arp_lookup`. -/
def arpLookup (st : Stack) (ip : UInt32) : Option Nat :=
  (List.range arpCacheMax).find? fun i => (st.arpCache i).matches ip

/-- The last loop of `ip_arp_store`: the last of the entries with the highest
age. -/
def arpVictim (st : Stack) : Nat :=
  ((List.range arpCacheMax).foldl
    (fun (victim, oldest) i =>
      if oldest ≤ (st.arpCache i).age then (i, (st.arpCache i).age) else (victim, oldest))
    (0, (0 : UInt16))).1

/-- Store an entry. -/
def Stack.setArp (st : Stack) (i : Nat) (e : ArpEntry) : Stack :=
  { st with arpCache := Function.update st.arpCache i e }

/-- `ip_arp_store`. -/
def arpStore (st : Stack) (ip : UInt32) (mac : Mac) : Stack :=
  match arpLookup st ip with
  | some i => st.setArp i { st.arpCache i with mac := mac, age := 0 }
  | none =>
    match (List.range arpCacheMax).find? fun i => !(st.arpCache i).valid with
    | some i => st.setArp i ⟨ip, mac, 0, true⟩
    | none =>
      let victim := arpVictim st
      st.setArp victim { st.arpCache victim with ip := ip, mac := mac, age := 0 }

/-! ## Routing -/

/-- `ip_prefix_len`. -/
def prefixLen (mask : UInt32) : Nat :=
  (List.range 32).foldl
    (fun count i => if mask &&& (1 <<< UInt32.ofNat i) ≠ 0 then count + 1 else count) 0

def RouteEntry.covers (e : RouteEntry) (dst : UInt32) : Prop := dst &&& e.mask = e.dest &&& e.mask

instance (e : RouteEntry) (dst : UInt32) : Decidable (e.covers dst) :=
  inferInstanceAs (Decidable (_ = _))

/-- One turn of the loop of `ip_route_lookup`, with the best entry so far and the
length of its prefix. -/
def bestRoute (dst : UInt32) (best : Option (RouteEntry × Nat)) (e : RouteEntry) :
    Option (RouteEntry × Nat) :=
  if !e.used then best
  else if ¬ e.covers dst then best
  else
    match best with
    | none => some (e, prefixLen e.mask)
    | some (b, len) => if len < prefixLen e.mask then some (e, prefixLen e.mask) else some (b, len)

/-- The loop of `ip_route_lookup`. -/
def findRoute (st : Stack) (dst : UInt32) : Option RouteEntry :=
  ((List.range routeMax).foldl (fun best i => bestRoute dst best (st.routes i)) none).map Prod.fst

/-- `ip_route_lookup`, with the next hop it stores. -/
def routeLookup (st : Stack) (dst : UInt32) : Except Status UInt32 :=
  match findRoute st dst with
  | some e => .ok (if e.gateway ≠ 0 then e.gateway else dst)
  | none =>
    if st.netmask ≠ 0 ∧ dst &&& st.netmask = st.localIp &&& st.netmask then .ok dst
    else if st.gateway ≠ 0 then .ok st.gateway
    else .error .noRoute

/-- `ip_route`, with the next hop it stores. -/
def route (st : Stack) (dst : UInt32) : Except Status UInt32 :=
  if !st.initialized then .error .notReady else routeLookup st dst

def Stack.setRoute (st : Stack) (i : Nat) (e : RouteEntry) : Stack :=
  { st with routes := Function.update st.routes i e }

/-- A route of the table for a network. -/
def RouteEntry.is (e : RouteEntry) (dest mask : UInt32) : Bool :=
  e.used && e.dest == dest &&& mask && e.mask == mask

/-- `ip_add_route`. -/
def addRoute (st : Stack) (dest mask gateway : UInt32) : Status × Stack :=
  match (List.range routeMax).find? fun i => (st.routes i).is dest mask with
  | some i => (.ok, st.setRoute i { st.routes i with gateway := gateway })
  | none =>
    match (List.range routeMax).find? fun i => !(st.routes i).used with
    | some i => (.ok, st.setRoute i ⟨dest &&& mask, mask, gateway, 0, true⟩)
    | none => (.full, st)

/-! ## Sending -/

/-- Hand a frame to the link. -/
def transmit (tx : LinkTx) (st : Stack) (frame : List UInt8) : Status × Stack :=
  (tx st.sent frame, { st with sent := frame :: st.sent })

def ethHeader (dst src : Mac) (ethertype : UInt16) : List UInt8 :=
  dst.toList ++ src.toList ++ put16 ethertype

/-- `ip_arp_transmit`. -/
def arpTransmit (tx : LinkTx) (st : Stack) (oper : UInt16) (dmac : Mac) (target : UInt32) :
    Status × Stack :=
  transmit tx st (ethHeader dmac st.localMac ethTypeArp ++ put16 1 ++ put16 ethTypeIp ++ [6, 4] ++
    put16 oper ++ st.localMac.toList ++ putAddr st.localIp ++ dmac.toList ++ putAddr target)

/-- `ip_arp_send_request`. -/
def arpSendRequest (tx : LinkTx) (st : Stack) (target : UInt32) : Status × Stack :=
  arpTransmit tx st arpOpRequest .all target

/-- `ip_arp_send_reply`. -/
def arpSendReply (tx : LinkTx) (st : Stack) (target : UInt32) (mac : Mac) : Status × Stack :=
  arpTransmit tx st arpOpReply mac target

/-- `ip_arp_resolve`, with the hardware address it stores. -/
def arpResolve (tx : LinkTx) (st : Stack) (ip : UInt32) : Except Status Mac × Stack :=
  if !st.initialized then (.error .notReady, st)
  else if ip = st.localIp then (.ok st.localMac, st)
  else
    match arpLookup st ip with
    | some i => (.ok (st.arpCache i).mac, st)
    | none =>
      let (rc, st) := arpSendRequest tx st ip
      if rc ≠ .ok then (.error .noRoute, st) else (.error .pending, st)

/-- The header of a datagram with the given checksum field. -/
def header (total id : UInt16) (proto : UInt8) (csum : UInt16) (src dst : UInt32) : List UInt8 :=
  [0x45, 0] ++ put16 total ++ put16 id ++ put16 0 ++ [defaultTtl, proto] ++ put16 csum ++
    putAddr src ++ putAddr dst

/-- The datagram that `ip_send` builds. -/
def datagram (st : Stack) (dst : UInt32) (proto : UInt8) (payload : List UInt8) : List UInt8 :=
  let total := UInt16.ofNat (headerLen + payload.length)
  let csum := checksum (header total st.nextId proto 0 st.localIp dst)
  header total st.nextId proto csum st.localIp dst ++ payload

/-- The part of `ip_send` that finds the hardware address of the next hop. -/
def nextMac (tx : LinkTx) (st : Stack) (dst : UInt32) : Except Status Mac × Stack :=
  if dst = broadcast then (.ok .all, st)
  else
    match routeLookup st dst with
    | .error rc => (.error rc, st)
    | .ok hop =>
      match arpResolve tx st hop with
      | (.ok mac, st) => (.ok mac, st)
      | (.error .pending, st) => (.error .pending, st)
      | (.error _, st) => (.error .noRoute, st)

/-- `ip_send`. -/
def send (tx : LinkTx) (st : Stack) (dst : UInt32) (proto : UInt8) (payload : List UInt8) :
    Status × Stack :=
  if !st.initialized then (.notReady, st)
  else if frameMax - ethHdrLen - headerLen < payload.length then (.param, st)
  else
    match nextMac tx st dst with
    | (.error rc, st) => (rc, st)
    | (.ok mac, st) =>
      transmit tx { st with nextId := st.nextId + 1 }
        (ethHeader mac st.localMac ethTypeIp ++ datagram st dst proto payload)

/-! ## Receiving -/

/-- `ip_handle_arp`. -/
def handleArp (tx : LinkTx) (st : Stack) (buf : List UInt8) : Status × Stack :=
  if buf.length < arpPacketLen then (.badPacket, st)
  else if get16 buf ≠ 1 then (.drop, st)
  else if get16 (buf.drop 2) ≠ ethTypeIp then (.drop, st)
  else if buf.getD 4 0 ≠ 6 ∨ buf.getD 5 0 ≠ 4 then (.drop, st)
  else
    let oper := get16 (buf.drop 6)
    let sha := Mac.read (buf.drop 8)
    let spa := getAddr (buf.drop 14)
    let tpa := getAddr (buf.drop 24)
    let st := arpStore st spa sha
    if oper = arpOpRequest then
      if tpa ≠ st.localIp then (.drop, st) else arpSendReply tx st spa sha
    else if oper = arpOpReply then (.ok, if st.arpCb then st.dispatch (.arp spa sha) else st)
    else (.drop, st)

/-- The end of `ip_handle_ip`: the payload of a datagram goes to the callback of
its protocol. -/
def deliver (st : Stack) (proto : UInt8) (src dst : UInt32) (payload : List UInt8) :
    Status × Stack :=
  if proto = protoIcmp then
    if payload.length < 8 then (.badPacket, st)
    else
      (.ok, if st.icmpCb then
          st.dispatch (.icmp src (payload.getD 0 0) (payload.getD 1 0) (payload.drop 8))
        else st)
  else if proto = protoTcp then
    if payload.length < 20 then (.badPacket, st)
    else
      (.ok, if st.tcpCb then
          st.dispatch (.tcp src (get16 payload) dst (get16 (payload.drop 2)) payload)
        else st)
  else if proto = protoUdp then
    if payload.length < 8 then (.badPacket, st)
    else
      (.ok, if st.udpCb then
          st.dispatch (.udp src (get16 payload) dst (get16 (payload.drop 2)) (payload.drop 8))
        else st)
  else (.drop, st)

/-- The number of words in the header of a datagram. -/
def ihlOf (buf : List UInt8) : Nat := (buf.getD 0 0 &&& 0x0F).toNat

/-- The number of bytes in the header of a datagram. -/
def hdrLenOf (buf : List UInt8) : Nat := ihlOf buf * 4

/-- The total length of a datagram. -/
def totalOf (buf : List UInt8) : Nat := (get16 (buf.drop 2)).toNat

/-- The flags and the offset of a fragment. -/
def fragOf (buf : List UInt8) : UInt16 := get16 (buf.drop 6)

/-- The sender of a datagram. -/
def srcOf (buf : List UInt8) : UInt32 := getAddr (buf.drop 12)

/-- The destination of a datagram. -/
def dstOf (buf : List UInt8) : UInt32 := getAddr (buf.drop 16)

/-- `ip_handle_ip`. -/
def handleIp (st : Stack) (buf : List UInt8) : Status × Stack :=
  if buf.length < headerLen then (.badPacket, st)
  else if buf.getD 0 0 >>> 4 ≠ version then (.drop, st)
  else if ihlOf buf < 5 then (.badPacket, st)
  else if buf.length < hdrLenOf buf then (.badPacket, st)
  else if totalOf buf < hdrLenOf buf ∨ buf.length < totalOf buf then (.badPacket, st)
  -- the more-fragments flag is not looked at
  else if fragOf buf &&& 0x1FFF ≠ 0 then (.drop, st)
  else if checksum (buf.take (hdrLenOf buf)) ≠ 0 then (.badPacket, st)
  else if dstOf buf ≠ st.localIp ∧ dstOf buf ≠ broadcast then (.drop, st)
  else
    deliver st (buf.getD 9 0) (srcOf buf) (dstOf buf)
      ((buf.take (totalOf buf)).drop (hdrLenOf buf))

/-- `ip_recv`. -/
def recv (tx : LinkTx) (st : Stack) (frame : List UInt8) : Status × Stack :=
  let ethertype := get16 (frame.drop 12)
  if !st.initialized then (.notReady, st)
  else if frame.length < ethHdrLen then (.badPacket, st)
  else if ethertype = ethTypeArp then handleArp tx st (frame.drop ethHdrLen)
  else if ethertype = ethTypeIp then handleIp st (frame.drop ethHdrLen)
  else (.drop, st)

end Ip
