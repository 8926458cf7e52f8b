import OpenWindows.Lib.OnesSum
import OpenWindows.Tcp.Core

/-!
# The checksum of segments

`tcp_emit` and `tcp_send_rst` write the complement of a sum into the segment, or
all ones for a complement of zero, and `tcp_input` takes a segment whose sum folds
to all ones.  The checksum field is a word of the segment, so what was written is
taken, and its fields and payload come back.
-/

namespace Tcp

open OnesSum (total complement)
open Words

/-! ## Sums -/

theorem sumWords_eq (bytes : List UInt8) (sum : UInt32) :
    sumWords bytes sum = OnesSum.sumWords bytes sum := by
  induction bytes, sum using sumWords.induct with
  | case1 a b rest sum ih => rw [sumWords, OnesSum.sumWords, ih]
  | case2 a sum => rfl
  | case3 sum => rfl

theorem foldCarries_eq (n : Nat) (sum : UInt32) :
    foldCarries n sum = OnesSum.foldCarries n sum := by
  induction n generalizing sum with
  | zero => rfl
  | succ n ih => rw [foldCarries, OnesSum.foldCarries, ih]

def pseudoSum (src dst : UInt32) (len : Nat) : UInt32 :=
  sumAddr (sumAddr 0 src) dst + proto + UInt32.ofNat len

theorem checksum_eq (src dst : UInt32) (seg : List UInt8) :
    checksum src dst seg = complement (OnesSum.sumWords seg (pseudoSum src dst seg.length)) := by
  rw [checksum, complement, foldCarries_eq, sumWords_eq]
  rfl

theorem toNat_sumAddr (sum addr : UInt32) (h : sum.toNat < 2 ^ 20) :
    (sumAddr sum addr).toNat ≤ sum.toNat + 2 * 65535 := by
  have hbyte : ∀ k : UInt32, ((addr >>> k) &&& (0xFF : UInt32)).toNat < 2 ^ 8 := by
    intro k
    rw [UInt32.toNat_and]
    exact Nat.lt_of_le_of_lt Nat.and_le_right (by decide)
  have hword : ∀ j k : UInt32, ((((addr >>> j) &&& (0xFF : UInt32)) <<< 8) |||
      ((addr >>> k) &&& (0xFF : UInt32))).toNat < 2 ^ 16 := by
    intro j k
    have hj := hbyte j
    have hk := hbyte k
    rw [UInt32.toNat_or, UInt32.toNat_shiftLeft]
    apply Nat.or_lt_two_pow
    · show (_ <<< 8) % 2 ^ 32 < 2 ^ 16
      rw [Nat.shiftLeft_eq]
      omega
    · omega
  have hlow := hword 0 8
  have hhigh := hword 16 24
  unfold sumAddr
  dsimp only
  rw [UInt32.toNat_add, UInt32.toNat_add]
  omega

theorem toNat_pseudoSum (src dst : UInt32) {len : Nat} (h : len < 2 ^ 16) :
    0 < (pseudoSum src dst len).toNat ∧ (pseudoSum src dst len).toNat < 2 ^ 19 := by
  have hsrc := toNat_sumAddr 0 src (by decide)
  have hzero : (0 : UInt32).toNat = 0 := rfl
  have hdst := toNat_sumAddr (sumAddr 0 src) dst (by omega)
  have hproto : proto.toNat = 6 := rfl
  have hlen : (UInt32.ofNat len).toNat = len := UInt32.toNat_ofNat_of_lt' (by
    show len < 2 ^ 32
    omega)
  rw [pseudoSum, UInt32.toNat_add, UInt32.toNat_add, hproto, hlen]
  omega

/-! ## Segments -/

/-- The checksum field is a word of the segment. -/
theorem Header.withSum_eq (h : Header) (csum : UInt16) (payload : List UInt8) :
    h.withSum csum payload = h.front ++ put16 csum ++ (put16 0 ++ payload) :=
  List.append_assoc ..

theorem checksum_bytes (h : Header) (src dst : UInt32) {payload : List UInt8}
    (hlen : payload.length ≤ maxSegment) : checksum src dst (h.bytes src dst payload) = 0 := by
  have hle := OnesSum.total_le (h.withSum 0 payload)
  have hpseudo : 0 < (pseudoSum src dst (hdrLen + payload.length)).toNat ∧
      (pseudoSum src dst (hdrLen + payload.length)).toNat < 2 ^ 19 := by
    unfold hdrLen
    unfold maxSegment at hlen
    exact toNat_pseudoSum src dst (by omega)
  rw [Header.length_withSum] at hle
  unfold maxSegment at hlen
  have htotal : ∀ csum : UInt16, csum.toNat % 65535 =
      (checksum src dst (h.withSum 0 payload)).toNat % 65535 →
        checksum src dst (h.withSum csum payload) = 0 := by
    intro csum hmod
    rw [checksum_eq, Header.length_withSum] at hmod ⊢
    rw [Header.withSum_eq] at hmod hle ⊢
    unfold hdrLen at *
    exact OnesSum.complement_sealed (by rw [h.length_front]) (by omega) (by omega) hmod
  rw [Header.bytes]
  split
  next hzero =>
    apply htotal
    rw [hzero]
    rfl
  · exact htotal _ rfl

/-- What was written is read back. -/
theorem parseSegment_packet_eq (h : Header) (src dst : UInt32) {payload : List UInt8}
    (hlen : payload.length ≤ maxSegment) :
    parseSegment (h.packet src dst payload hlen) = some { h with payload := payload } := by
  have hoff : dataOffset (h.packet src dst payload hlen).bytes = hdrLen :=
    h.dataOffset_withSum _ payload
  have hbytes : (h.packet src dst payload hlen).bytes.length = hdrLen + payload.length :=
    h.length_bytes ..
  have hsum : checksum (h.packet src dst payload hlen).src (h.packet src dst payload hlen).dst
      (h.packet src dst payload hlen).bytes = 0 := checksum_bytes h src dst hlen
  have hsome : (parseSegment (h.packet src dst payload hlen)).isSome = true := by
    rw [parseSegment, if_neg (by omega), if_neg (by omega), if_neg (not_not_intro hsum)]
    rfl
  obtain ⟨s, hs⟩ := Option.isSome_iff_exists.mp hsome
  rw [hs, parseSegment_packet hs]

/-! ## Sending and receiving -/

/-- The segment that `tcp_emit` hands over, and the one of `tcp_send_rst`, are read
back by `tcp_input` with the fields and the payload they were built from. -/
theorem emit_read_back (tx : IpTx) (k : Core) :
    (∀ (i : Nat) (flags : UInt8) (payload : List UInt8) (save : Bool),
      payload.length ≤ maxSegment →
        ∃ p, (tcpEmit tx k i flags payload save).2.sent = p :: k.sent ∧
          p.src = (k.conns i).localIp ∧ p.dst = (k.conns i).remoteIp ∧
          checksum p.src p.dst p.bytes = 0 ∧
          parseSegment p = some
            { srcPort := (k.conns i).localPort
              dstPort := (k.conns i).remotePort
              seq := (k.conns i).sndNxt
              ack := (k.conns i).rcvNxt
              flags := flags
              window := (k.conns i).rcvWnd.toUInt16
              payload := payload }) ∧
    ∀ (src : UInt32) (srcPort : UInt16) (dst : UInt32) (dstPort : UInt16) (seq : UInt32)
      (withAck : Bool) (ack : UInt32),
      ∃ p, (sendRst tx k src srcPort dst dstPort seq withAck ack).sent = p :: k.sent ∧
        p.src = src ∧ p.dst = dst ∧ checksum p.src p.dst p.bytes = 0 ∧
        parseSegment p = some
          { srcPort := srcPort
            dstPort := dstPort
            seq := seq
            ack := ack
            flags := flagRst ||| (if withAck then flagAck else 0)
            window := 0
            payload := [] } := by
  constructor
  · intro i flags payload save hlen
    refine ⟨(k.conns i).packet flags payload hlen, ?_, rfl, rfl, ?_, ?_⟩
    · rw [tcpEmit, dif_pos hlen]
      rfl
    · exact checksum_bytes ((k.conns i).header flags) _ _ hlen
    · exact parseSegment_packet_eq ((k.conns i).header flags) _ _ hlen
  · intro src srcPort dst dstPort seq withAck ack
    refine ⟨_, rfl, rfl, rfl, ?_, ?_⟩
    · exact checksum_bytes _ src dst (Nat.zero_le _)
    · exact parseSegment_packet_eq _ src dst (Nat.zero_le _)

/-- Three bytes on a connection. -/
theorem emit_read_back_odd :
    ∃ p, (tcpEmit (fun _ _ => .ok) .init 0 flagPsh [1, 2, 3] true).2.sent = p :: [] ∧
      p.src = (Core.init.conns 0).localIp ∧ p.dst = (Core.init.conns 0).remoteIp ∧
      checksum p.src p.dst p.bytes = 0 ∧
      parseSegment p = some
        { srcPort := (Core.init.conns 0).localPort
          dstPort := (Core.init.conns 0).remotePort
          seq := (Core.init.conns 0).sndNxt
          ack := (Core.init.conns 0).rcvNxt
          flags := flagPsh
          window := (Core.init.conns 0).rcvWnd.toUInt16
          payload := [1, 2, 3] } :=
  (emit_read_back (fun _ _ => .ok) .init).1 0 flagPsh [1, 2, 3] true (by decide)

end Tcp
