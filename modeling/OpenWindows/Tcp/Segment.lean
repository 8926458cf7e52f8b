import OpenWindows.Lib.Bytes

/-!
# TCP segments

The wire format of `tcpcore`: a header of twenty bytes, all numbers highest byte
first, then the payload.  `Header.bytes` is what `tcp_emit` and `tcp_send_rst`
write, and `parseSegment` what `tcp_input` reads.  What was written is read back
unless its checksum is refused.

Addresses are stored as on the wire, and the host is little endian: the first
byte of an address is its lowest.
-/

namespace Tcp

open Words

/-! ## Constants -/

/-- `TCP_FIN`. -/
def flagFin : UInt8 := 0x01

/-- `TCP_SYN`. -/
def flagSyn : UInt8 := 0x02

/-- `TCP_RST`. -/
def flagRst : UInt8 := 0x04

/-- `TCP_PSH`. -/
def flagPsh : UInt8 := 0x08

/-- `TCP_ACK`. -/
def flagAck : UInt8 := 0x10

/-- `TCP_PROTO`. -/
def proto : UInt32 := 6

/-- `TCP_HDR_LEN`. -/
def hdrLen : Nat := 20

/-- `TCP_MSS`. -/
def maxSegment : Nat := 1460

/-- A flag is set. -/
def has (flags flag : UInt8) : Bool := decide (flags &&& flag ≠ 0)

/-! ## Packets -/

/-- A segment on its way, with the addresses it is sent from and to.  It fits an
IPv4 packet. -/
structure Packet where
  src : UInt32
  dst : UInt32
  bytes : List UInt8
  fit : bytes.length < 2 ^ 16

/-! ## Checksum -/

/-- `tcp_sum_addr`. -/
def sumAddr (sum addr : UInt32) : UInt32 :=
  let byte (k : UInt32) : UInt32 := (addr >>> k) &&& (0xFF : UInt32)
  sum + ((byte 0 <<< 8) ||| byte 8) + ((byte 16 <<< 8) ||| byte 24)

/-- The loop of `tcp_checksum` over the words of a segment. -/
def sumWords : List UInt8 → UInt32 → UInt32
  | a :: b :: rest, sum => sumWords rest (sum + ((a.toUInt32 <<< 8) ||| b.toUInt32))
  | [a], sum => sum + (a.toUInt32 <<< 8)
  | [], sum => sum

/-- The loop of `tcp_checksum` that folds the carries.  The count bounds its
turns: the second one leaves sixteen bits. -/
def foldCarries : Nat → UInt32 → UInt32
  | 0, sum => sum
  | n + 1, sum =>
    if sum >>> 16 ≠ 0 then foldCarries n ((sum &&& (0xFFFF : UInt32)) + (sum >>> 16)) else sum

/-- `tcp_checksum`. -/
def checksum (src dst : UInt32) (seg : List UInt8) : UInt16 :=
  let sum := sumAddr (sumAddr 0 src) dst + proto + UInt32.ofNat seg.length
  (~~~ (foldCarries 2 (sumWords seg sum))).toUInt16

/-! ## Writing -/

/-- The fields of a header that vary. -/
structure Header where
  srcPort : UInt16
  dstPort : UInt16
  seq : UInt32
  ack : UInt32
  flags : UInt8
  window : UInt16
  deriving DecidableEq

def Header.front (h : Header) : List UInt8 :=
  put16 h.srcPort ++ put16 h.dstPort ++ put32 h.seq ++ put32 h.ack ++
    [UInt8.ofNat (hdrLen / 4) <<< 4, h.flags] ++ put16 h.window

/-- A segment with the given checksum field. -/
def Header.withSum (h : Header) (csum : UInt16) (payload : List UInt8) : List UInt8 :=
  h.front ++ put16 csum ++ put16 0 ++ payload

/-- A segment from `src` to `dst`. -/
def Header.bytes (h : Header) (src dst : UInt32) (payload : List UInt8) : List UInt8 :=
  let csum := checksum src dst (h.withSum 0 payload)
  -- zero would be indistinguishable from absent
  h.withSum (if csum = 0 then 0xFFFF else csum) payload

@[simp] theorem Header.length_front (h : Header) : h.front.length = 16 := rfl

@[simp] theorem Header.length_withSum (h : Header) (csum : UInt16) (payload : List UInt8) :
    (h.withSum csum payload).length = hdrLen + payload.length := by
  simp [Header.withSum, hdrLen]
  omega

@[simp] theorem Header.length_bytes (h : Header) (src dst : UInt32) (payload : List UInt8) :
    (h.bytes src dst payload).length = hdrLen + payload.length :=
  h.length_withSum _ payload

theorem Header.ports_bytes (h : Header) (src dst : UInt32) (payload : List UInt8) :
    get16 (h.bytes src dst payload) = h.srcPort ∧ get16 ((h.bytes src dst payload).drop 2) = h.dstPort := by
  simp only [Header.bytes, Header.withSum, Header.front, List.append_assoc]
  rw [get16_put16, List.drop_left' (length_put16 _), get16_put16]
  exact ⟨rfl, rfl⟩

def Header.packet (h : Header) (src dst : UInt32) (payload : List UInt8)
    (hlen : payload.length ≤ maxSegment) : Packet where
  src := src
  dst := dst
  bytes := h.bytes src dst payload
  fit := by
    rw [h.length_bytes]
    unfold hdrLen
    unfold maxSegment at hlen
    omega

/-! ## Reading -/

/-- What `tcp_input` reads from a segment. -/
structure Segment extends Header where
  payload : List UInt8

def dataOffset (bytes : List UInt8) : Nat := ((bytes.getD 12 0) >>> 4).toNat * 4

/-- The checks of `tcp_input` on a packet, with what it reads; `none` where it
returns `TCP_ERR_BAD_PACKET`. -/
def parseSegment (p : Packet) : Option Segment :=
  if p.bytes.length < hdrLen then none
  else if dataOffset p.bytes < hdrLen ∨ p.bytes.length < dataOffset p.bytes then none
  else if checksum p.src p.dst p.bytes ≠ 0 then none
  else some
    { srcPort := get16 p.bytes
      dstPort := get16 (p.bytes.drop 2)
      seq := get32 (p.bytes.drop 4)
      ack := get32 (p.bytes.drop 8)
      flags := p.bytes.getD 13 0
      window := get16 (p.bytes.drop 14)
      payload := p.bytes.drop (dataOffset p.bytes) }

/-! ## Reading back -/

theorem Header.drop_withSum (h : Header) (csum : UInt16) (payload : List UInt8) :
    (h.withSum csum payload).drop hdrLen = payload := by
  have hlen : (h.front ++ put16 csum ++ put16 0).length = hdrLen := rfl
  rw [Header.withSum, ← hlen, List.drop_left]

theorem Header.dataOffset_withSum (h : Header) (csum : UInt16) (payload : List UInt8) :
    dataOffset (h.withSum csum payload) = hdrLen := by
  show ((UInt8.ofNat (hdrLen / 4) <<< 4) >>> 4).toNat * 4 = hdrLen
  decide

theorem Header.fields_withSum (h : Header) (csum : UInt16) (payload : List UInt8) :
    get16 (h.withSum csum payload) = h.srcPort ∧
      get16 ((h.withSum csum payload).drop 2) = h.dstPort ∧
      get32 ((h.withSum csum payload).drop 4) = h.seq ∧
      get32 ((h.withSum csum payload).drop 8) = h.ack ∧
      (h.withSum csum payload).getD 13 0 = h.flags ∧
      get16 ((h.withSum csum payload).drop 14) = h.window :=
  ⟨get16_put16 h.srcPort _, get16_put16 h.dstPort _, get32_put32 h.seq _, get32_put32 h.ack _,
    rfl, get16_put16 h.window _⟩

theorem parseSegment_packet {h : Header} {src dst : UInt32} {payload : List UInt8}
    {hlen : payload.length ≤ maxSegment} {s : Segment}
    (hs : parseSegment (h.packet src dst payload hlen) = some s) :
    s = { h with payload := payload } := by
  obtain ⟨hsrc, hdst, hseq, hack, hflags, hwindow⟩ :=
    h.fields_withSum (if checksum src dst (h.withSum 0 payload) = 0 then 0xFFFF
      else checksum src dst (h.withSum 0 payload)) payload
  unfold parseSegment at hs
  split at hs
  · cases hs
  · split at hs
    · cases hs
    · split at hs
      · cases hs
      · cases hs
        simp only [Header.packet, Header.bytes, hsrc, hdst, hseq, hack, hflags, hwindow,
          Header.dataOffset_withSum, Header.drop_withSum]

end Tcp
