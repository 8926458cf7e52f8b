import OpenWindows.Ip.Stack
import OpenWindows.Tcp.Checksum

/-!
# Datagrams

A datagram that `ip_send` builds passes all checks of `ip_handle_ip` on the stack it
is for, and its payload goes to the callback of its protocol.  A frame that comes to
a callback has passed these checks, but they leave out the more-fragments flag, so a
first fragment comes through.
-/

namespace Ip

open Words

/-! ## Delivering -/

/-- A payload of this length goes to a callback. -/
def Stack.takes (st : Stack) (proto : UInt8) (len : Nat) : Prop :=
  proto = protoIcmp ∧ 8 ≤ len ∧ st.icmpCb = true ∨
    proto = protoTcp ∧ 20 ≤ len ∧ st.tcpCb = true ∨
      proto = protoUdp ∧ 8 ≤ len ∧ st.udpCb = true

/-- The call of the callback of a protocol. -/
def dispatchOf (proto : UInt8) (src dst : UInt32) (payload : List UInt8) : Dispatch :=
  if proto = protoIcmp then
    .icmp src (payload.getD 0 0) (payload.getD 1 0) (payload.drop 8)
  else if proto = protoTcp then .tcp src (get16 payload) dst (get16 (payload.drop 2)) payload
  else .udp src (get16 payload) dst (get16 (payload.drop 2)) (payload.drop 8)

/-- The bytes handed to a callback. -/
def Dispatch.bytes : Dispatch → List UInt8
  | .arp _ mac => mac.toList
  | .icmp _ _ _ payload => payload
  | .tcp _ _ _ _ segment => segment
  | .udp _ _ _ _ datagram => datagram

def Dispatch.IsDatagram : Dispatch → Prop
  | .arp .. => False
  | _ => True

theorem bytes_dispatchOf (proto : UInt8) (src dst : UInt32) (payload : List UInt8) :
    (dispatchOf proto src dst payload).bytes <:+ payload := by
  unfold dispatchOf
  split
  · exact List.drop_suffix 8 payload
  · split
    · exact List.suffix_rfl
    · exact List.drop_suffix 8 payload

theorem isDatagram_dispatchOf (proto : UInt8) (src dst : UInt32) (payload : List UInt8) :
    (dispatchOf proto src dst payload).IsDatagram := by
  unfold dispatchOf
  split
  · trivial
  · split <;> trivial

variable {st : Stack} {proto : UInt8} {src dst : UInt32} {payload : List UInt8}

theorem deliver_takes (h : st.takes proto payload.length) :
    deliver st proto src dst payload = (.ok, st.dispatch (dispatchOf proto src dst payload)) := by
  rcases h with ⟨rfl, hlen, hcb⟩ | ⟨rfl, hlen, hcb⟩ | ⟨rfl, hlen, hcb⟩
  · simp [deliver, dispatchOf, Nat.not_lt.mpr hlen, hcb]
  · simp [deliver, dispatchOf, Nat.not_lt.mpr hlen, hcb, show protoTcp ≠ protoIcmp by decide]
  · simp [deliver, dispatchOf, Nat.not_lt.mpr hlen, hcb, show protoUdp ≠ protoIcmp by decide,
      show protoUdp ≠ protoTcp by decide]

theorem deliver_refused (h : ¬ st.takes proto payload.length) :
    (deliver st proto src dst payload).2 = st := by
  rw [Stack.takes, not_or, not_or] at h
  unfold deliver
  split
  next hproto =>
    split
    · rfl
    next hlen =>
      dsimp only
      rw [if_neg fun hcb => h.1 ⟨hproto, Nat.le_of_not_lt hlen, hcb⟩]
  · split
    next hproto =>
      split
      · rfl
      next hlen =>
        dsimp only
        rw [if_neg fun hcb => h.2.1 ⟨hproto, Nat.le_of_not_lt hlen, hcb⟩]
    · split
      next hproto =>
        split
        · rfl
        next hlen =>
          dsimp only
          rw [if_neg fun hcb => h.2.2 ⟨hproto, Nat.le_of_not_lt hlen, hcb⟩]
      · rfl

/-! ## The fields of a datagram -/

def payloadOf (buf : List UInt8) : List UInt8 := (buf.take (totalOf buf)).drop (hdrLenOf buf)

/-- The checks of `ip_handle_ip` and of its end. -/
structure Accepts (st : Stack) (buf : List UInt8) : Prop where
  long : headerLen ≤ buf.length
  version : buf.getD 0 0 >>> 4 = version
  ihl : 5 ≤ ihlOf buf
  header : hdrLenOf buf ≤ buf.length
  within : hdrLenOf buf ≤ totalOf buf
  total : totalOf buf ≤ buf.length
  offset : fragOf buf &&& 0x1FFF = 0
  checksum : checksum (buf.take (hdrLenOf buf)) = 0
  dst : dstOf buf = st.localIp ∨ dstOf buf = broadcast
  takes : st.takes (buf.getD 9 0) (payloadOf buf).length

/-- The call of the callback for a datagram. -/
def dispatchFor (buf : List UInt8) : Dispatch :=
  dispatchOf (buf.getD 9 0) (srcOf buf) (dstOf buf) (payloadOf buf)

variable {buf : List UInt8}

theorem handleIp_accepts (h : Accepts st buf) :
    handleIp st buf = (.ok, st.dispatch (dispatchFor buf)) := by
  have hbounds : ¬ (totalOf buf < hdrLenOf buf ∨ buf.length < totalOf buf) := by
    rw [not_or, Nat.not_lt, Nat.not_lt]
    exact ⟨h.within, h.total⟩
  have hdst : ¬ (dstOf buf ≠ st.localIp ∧ dstOf buf ≠ broadcast) := by
    rintro ⟨hlocal, hall⟩
    exact h.dst.elim hlocal hall
  rw [handleIp, if_neg (Nat.not_lt.mpr h.long), if_neg (not_not_intro h.version),
    if_neg (Nat.not_lt.mpr h.ihl), if_neg (Nat.not_lt.mpr h.header), if_neg hbounds,
    if_neg (not_not_intro h.offset), if_neg (not_not_intro h.checksum), if_neg hdst]
  exact deliver_takes h.takes

theorem handleIp_refused (h : ¬ Accepts st buf) : (handleIp st buf).2 = st := by
  unfold handleIp
  split_ifs with hlong hversion hihl hhdr hbounds hoffset hcsum hdst
  any_goals rfl
  -- only the end is left
  refine deliver_refused fun htakes => h ?_
  rw [not_or, Nat.not_lt, Nat.not_lt] at hbounds
  have hlocal : dstOf buf = st.localIp ∨ dstOf buf = broadcast := by
    by_contra hneither
    exact hdst (not_or.mp hneither)
  exact ⟨Nat.not_lt.mp hlong, not_not.mp hversion, Nat.not_lt.mp hihl, Nat.not_lt.mp hhdr,
    hbounds.1, hbounds.2, not_not.mp hoffset, not_not.mp hcsum, hlocal, htakes⟩

/-! ## Frames -/

/-- `recv` takes the frame. -/
structure AcceptsFrame (st : Stack) (frame : List UInt8) : Prop where
  initialized : st.initialized = true
  long : ethHdrLen ≤ frame.length
  ethertype : get16 (frame.drop 12) = ethTypeIp
  datagram : Accepts st (frame.drop ethHdrLen)

variable {tx : LinkTx} {frame : List UInt8}

theorem recv_accepts (h : AcceptsFrame st frame) :
    recv tx st frame = (.ok, st.dispatch (dispatchFor (frame.drop ethHdrLen))) := by
  unfold recv
  simp only [h.initialized, Nat.not_lt.mpr h.long, h.ethertype]
  exact handleIp_accepts h.datagram

theorem dispatched_arpStore (ip : UInt32) (mac : Mac) :
    (arpStore st ip mac).dispatched = st.dispatched := by
  unfold arpStore
  split
  · rfl
  · split <;> rfl

theorem handleArp_dispatched (tx : LinkTx) (st : Stack) (buf : List UInt8) :
    (handleArp tx st buf).2.dispatched = st.dispatched ∨
      ∃ ip mac, (handleArp tx st buf).2.dispatched = .arp ip mac :: st.dispatched := by
  unfold handleArp
  dsimp only
  split_ifs
  any_goals exact .inl rfl
  · exact .inl (dispatched_arpStore _ _)
  · exact .inl (dispatched_arpStore _ _)
  · exact .inr ⟨_, _, congrArg (_ :: ·) (dispatched_arpStore _ _)⟩
  · exact .inl (dispatched_arpStore _ _)
  · exact .inl (dispatched_arpStore _ _)

theorem recv_dispatched (tx : LinkTx) (st : Stack) (frame : List UInt8) :
    (recv tx st frame).2.dispatched = st.dispatched ∨
      (∃ ip mac, (recv tx st frame).2.dispatched = .arp ip mac :: st.dispatched) ∨
        AcceptsFrame st frame := by
  unfold recv
  dsimp only
  split_ifs with hinit hlong harp hip
  any_goals exact .inl rfl
  · rcases handleArp_dispatched tx st (frame.drop ethHdrLen) with hsame | hreply
    · exact .inl hsame
    · exact .inr (.inl hreply)
  · by_cases haccepts : Accepts st (frame.drop ethHdrLen)
    · exact .inr (.inr ⟨by simpa using hinit, Nat.not_lt.mp hlong, hip, haccepts⟩)
    · rw [handleIp_refused haccepts]
      exact .inl rfl

/-- The fragment of a datagram that has neither an offset nor further fragments. -/
def Unfragmented (buf : List UInt8) : Prop := fragOf buf &&& 0x3FFF = 0

/-- What a callback gets for a frame is from an unfragmented datagram with a correct
header checksum, and within its total length. -/
def Sound (tx : LinkTx) (st : Stack) (frame : List UInt8) : Prop :=
  ∀ new, (recv tx st frame).2.dispatched = new ++ st.dispatched → ∀ d ∈ new, d.IsDatagram →
    Unfragmented (frame.drop ethHdrLen) ∧
      checksum ((frame.drop ethHdrLen).take (hdrLenOf (frame.drop ethHdrLen))) = 0 ∧
      totalOf (frame.drop ethHdrLen) ≤ (frame.drop ethHdrLen).length ∧
      d.bytes <:+ (frame.drop ethHdrLen).take (totalOf (frame.drop ethHdrLen))

theorem unfragmented_iff (buf : List UInt8) :
    Unfragmented buf ↔ fragOf buf &&& 0x1FFF = 0 ∧ fragOf buf &&& 0x2000 = 0 := by
  unfold Unfragmented
  generalize fragOf buf = frag
  have hsplit : frag &&& 0x3FFF = frag &&& 0x1FFF ||| frag &&& 0x2000 := by
    apply UInt16.toBitVec_inj.mp
    exact BitVec.and_or_distrib_left (x := frag.toBitVec) (y := 0x1FFF#16) (z := 0x2000#16)
  rw [hsplit, UInt16.or_eq_zero_iff]

theorem sound_iff (tx : LinkTx) (st : Stack) (frame : List UInt8) :
    Sound tx st frame ↔
      (AcceptsFrame st frame → fragOf (frame.drop ethHdrLen) &&& 0x2000 = 0) := by
  constructor
  · intro h haccepts
    have hrecv : (recv tx st frame).2.dispatched =
        [dispatchFor (frame.drop ethHdrLen)] ++ st.dispatched := by
      rw [recv_accepts haccepts]
      rfl
    have hsound := h _ hrecv _ (List.mem_singleton_self _) (isDatagram_dispatchOf ..)
    exact ((unfragmented_iff _).mp hsound.1).2
  · intro h new hnew d hd hdatagram
    rcases recv_dispatched tx st frame with hsame | ⟨ip, mac, hreply⟩ | haccepts
    · rw [hsame] at hnew
      have hnil : new = [] := by simpa using congrArg List.length hnew
      rw [hnil] at hd
      cases hd
    · rw [hreply] at hnew
      have hone : new = [.arp ip mac] :=
        (List.append_cancel_right (hnew.symm.trans (List.singleton_append ..).symm))
      rw [hone, List.mem_singleton] at hd
      rw [hd] at hdatagram
      exact hdatagram.elim
    · rw [recv_accepts haccepts] at hnew
      have hone : new = [dispatchFor (frame.drop ethHdrLen)] :=
        (List.append_cancel_right (hnew.symm.trans (List.singleton_append ..).symm))
      rw [hone, List.mem_singleton] at hd
      have hall := haccepts.datagram
      refine ⟨(unfragmented_iff _).mpr ⟨hall.offset, h haccepts⟩, hall.checksum, hall.total, ?_⟩
      rw [hd]
      exact (bytes_dispatchOf ..).trans (List.drop_suffix _ _)

/-! ## Sending -/

theorem fields_header (total id : UInt16) (proto : UInt8) (csum : UInt16) (src dst : UInt32)
    (payload : List UInt8) :
    let buf := header total id proto csum src dst ++ payload
    buf.getD 0 0 = 0x45 ∧ totalOf buf = total.toNat ∧ fragOf buf = 0 ∧ buf.getD 9 0 = proto ∧
      srcOf buf = src ∧ dstOf buf = dst := by
  refine ⟨rfl, ?_, ?_, rfl, ?_, ?_⟩
  · exact congrArg UInt16.toNat (get16_put16 total _)
  · exact get16_put16 0 _
  · exact getAddr_putAddr src (putAddr dst ++ payload)
  · exact getAddr_putAddr dst payload

@[simp] theorem length_header (total id : UInt16) (proto : UInt8) (csum : UInt16)
    (src dst : UInt32) : (header total id proto csum src dst).length = headerLen := rfl

theorem checksum_header (total id : UInt16) (proto : UInt8) (src dst : UInt32) :
    checksum (header total id proto (checksum (header total id proto 0 src dst)) src dst) = 0 := by
  have hsplit : ∀ csum : UInt16, header total id proto csum src dst =
      ([0x45, 0] ++ put16 total ++ put16 id ++ put16 0 ++ [defaultTtl, proto]) ++ put16 csum ++
        (putAddr src ++ putAddr dst) := fun csum => List.append_assoc ..
  have hle := OnesSum.total_le (header total id proto 0 src dst)
  rw [length_header] at hle
  unfold headerLen at hle
  have hpos : OnesSum.total (header total id proto 0 src dst) ≠ 0 := by
    show 256 * (0x45 : UInt8).toNat + _ + _ ≠ 0
    have : (0x45 : UInt8).toNat = 69 := rfl
    omega
  rw [hsplit] at hle hpos
  unfold checksum
  rw [hsplit, hsplit]
  exact OnesSum.complement_sealed (by simp) (by
    show 0 + _ < _
    omega) (by
    show 0 + _ ≠ 0
    omega) rfl

theorem datagram_accepts {s r : Stack} (hfit : payload.length ≤ frameMax - ethHdrLen - headerLen)
    (hlocal : r.localIp = dst) (htakes : r.takes proto payload.length) :
    Accepts r (datagram s dst proto payload) ∧
      dispatchFor (datagram s dst proto payload) = dispatchOf proto s.localIp dst payload := by
  have hnat : (UInt16.ofNat (headerLen + payload.length)).toNat = headerLen + payload.length := by
    refine UInt16.toNat_ofNat_of_lt' ?_
    unfold frameMax ethHdrLen headerLen at hfit
    unfold headerLen
    show _ < 65536
    omega
  unfold datagram
  dsimp only
  generalize htot : UInt16.ofNat (headerLen + payload.length) = total at hnat ⊢
  generalize hcsum : checksum (header total s.nextId proto 0 s.localIp dst) = csum
  obtain ⟨hfirst, htotal, hfrag, hproto, hsrc, hdst⟩ :=
    fields_header total s.nextId proto csum s.localIp dst payload
  have hlen : (header total s.nextId proto csum s.localIp dst ++ payload).length =
      headerLen + payload.length := by rw [List.length_append, length_header]
  have htake : (header total s.nextId proto csum s.localIp dst ++ payload).take headerLen =
      header total s.nextId proto csum s.localIp dst := List.take_left' (length_header ..)
  have hdrop : (header total s.nextId proto csum s.localIp dst ++ payload).drop headerLen =
      payload := List.drop_left' (length_header ..)
  generalize header total s.nextId proto csum s.localIp dst ++ payload = buf at *
  have hihl : ihlOf buf = 5 := by
    rw [ihlOf, hfirst]
    rfl
  have hhdr : hdrLenOf buf = headerLen := by
    rw [hdrLenOf, hihl]
    rfl
  have hpayload : payloadOf buf = payload := by
    rw [payloadOf, hhdr, List.take_of_length_le (by omega), hdrop]
  refine ⟨⟨by omega, by rw [hfirst]; rfl, by omega, by omega, by omega, by omega, ?_, ?_, ?_, ?_⟩,
    ?_⟩
  · rw [hfrag]
    rfl
  · rw [hhdr, htake, ← hcsum]
    exact checksum_header ..
  · exact .inl (hdst.trans hlocal.symm)
  · rwa [hproto, hpayload]
  · rw [dispatchFor, hproto, hsrc, hdst, hpayload]

/-- The type of a frame. -/
theorem ethertype_ethHeader (mac mac' : Mac) (ethertype : UInt16) (rest : List UInt8) :
    get16 ((ethHeader mac mac' ethertype ++ rest).drop 12) = ethertype ∧
      (ethHeader mac mac' ethertype ++ rest).drop ethHdrLen = rest := by
  have hmac : (mac.toList ++ mac'.toList).length = 12 := by simp
  constructor
  · rw [ethHeader, List.append_assoc, List.drop_left' hmac, get16_put16]
  · exact List.drop_left' (by simp [ethHeader, ethHdrLen])

/-- A call hands nothing to the link but a request for a hardware address. -/
def Asks (s s' : Stack) : Prop :=
  s'.sent = s.sent ∨ ∃ f, s'.sent = f :: s.sent ∧ get16 (f.drop 12) = ethTypeArp

theorem arpResolve_asks (tx : LinkTx) (s : Stack) (ip : UInt32) :
    (∃ mac, arpResolve tx s ip = (.ok mac, s)) ∨
      ∃ rc s', arpResolve tx s ip = (.error rc, s') ∧ Asks s s' := by
  unfold arpResolve
  split
  · exact .inr ⟨_, _, rfl, .inl rfl⟩
  · split
    · exact .inl ⟨_, rfl⟩
    · split
      · exact .inl ⟨_, rfl⟩
      · have hrequest : Asks s (arpSendRequest tx s ip).2 := by
          refine .inr ⟨_, rfl, ?_⟩
          simp only [List.append_assoc]
          exact (ethertype_ethHeader ..).1
        dsimp only
        split
        · exact .inr ⟨_, _, rfl, hrequest⟩
        · exact .inr ⟨_, _, rfl, hrequest⟩

theorem nextMac_asks (tx : LinkTx) (s : Stack) (dst : UInt32) :
    (∃ mac, nextMac tx s dst = (.ok mac, s)) ∨
      ∃ rc s', nextMac tx s dst = (.error rc, s') ∧ Asks s s' := by
  unfold nextMac
  split
  · exact .inl ⟨_, rfl⟩
  · split
    · exact .inr ⟨_, _, rfl, .inl rfl⟩
    next hop _ =>
      rcases arpResolve_asks tx s hop with ⟨mac, hmac⟩ | ⟨rc, s', hrc, hasks⟩
      · rw [hmac]
        exact .inl ⟨_, rfl⟩
      · rw [hrc]
        cases rc <;> exact .inr ⟨_, _, rfl, hasks⟩

theorem send_known {s : Stack} {mac : Mac} (hinit : s.initialized = true)
    (hfit : payload.length ≤ frameMax - ethHdrLen - headerLen)
    (hmac : nextMac tx s dst = (.ok mac, s)) :
    (send tx s dst proto payload).2.sent =
      (ethHeader mac s.localMac ethTypeIp ++ datagram s dst proto payload) :: s.sent := by
  rw [send, hinit, if_neg (Nat.not_lt.mpr hfit), hmac]
  rfl

theorem send_frame {s : Stack} {f : List UInt8}
    (hsent : (send tx s dst proto payload).2.sent = f :: s.sent)
    (htype : get16 (f.drop 12) = ethTypeIp) :
    payload.length ≤ frameMax - ethHdrLen - headerLen ∧
      ∃ mac, f = ethHeader mac s.localMac ethTypeIp ++ datagram s dst proto payload := by
  unfold send at hsent
  split_ifs at hsent with hinit hfit
  · exact absurd (congrArg List.length hsent) (by simp)
  · exact absurd (congrArg List.length hsent) (by simp)
  · refine ⟨Nat.not_lt.mp hfit, ?_⟩
    rcases nextMac_asks tx s dst with ⟨mac, hmac⟩ | ⟨rc, s', hrc, hasks⟩
    · rw [hmac] at hsent
      exact ⟨mac, (List.cons.inj hsent).1.symm⟩
    · rw [hrc] at hsent
      dsimp only at hsent
      rcases hasks with hsame | ⟨f', hrequest, harp⟩
      · rw [hsame] at hsent
        exact absurd (congrArg List.length hsent) (by simp)
      · rw [hrequest] at hsent
        rw [← (List.cons.inj hsent).1, harp] at htype
        exact absurd htype (by decide)

/-- The datagrams of `ip_send` arrive: the frame that is handed over goes, on a stack
with the address of the destination, to the callback once, with the address of the
sender and the bytes that were sent.  And what a callback gets for a frame is from an
unfragmented datagram exactly unless a datagram that is accepted has the
more-fragments flag set. -/
theorem send_recv_agree (tx tx' : LinkTx) (s r : Stack) (dst : UInt32) (proto : UInt8)
    (payload frame : List UInt8) :
    (s.initialized = true → payload.length ≤ frameMax - ethHdrLen - headerLen →
      (∃ mac, nextMac tx s dst = (.ok mac, s)) →
        ∃ f, (send tx s dst proto payload).2.sent = f :: s.sent ∧
          get16 (f.drop 12) = ethTypeIp) ∧
      (∀ f, (send tx s dst proto payload).2.sent = f :: s.sent →
        get16 (f.drop 12) = ethTypeIp → r.initialized = true → r.localIp = dst →
          r.takes proto payload.length →
            recv tx' r f = (.ok, r.dispatch (dispatchOf proto s.localIp dst payload))) ∧
      (Sound tx' r frame ↔
        (AcceptsFrame r frame → fragOf (frame.drop ethHdrLen) &&& 0x2000 = 0)) := by
  refine ⟨fun hinit hfit hmac => ?_, fun f hsent htype hinit hlocal htakes => ?_,
    sound_iff tx' r frame⟩
  · obtain ⟨mac, hmac⟩ := hmac
    exact ⟨_, send_known hinit hfit hmac, (ethertype_ethHeader ..).1⟩
  · obtain ⟨hfit, mac, hf⟩ := send_frame hsent htype
    obtain ⟨haccepts, hdispatch⟩ := datagram_accepts (s := s) hfit hlocal htakes
    have hdrop : f.drop ethHdrLen = datagram s dst proto payload := by
      rw [hf]
      exact (ethertype_ethHeader ..).2
    have hlong : ethHdrLen ≤ f.length := by
      rw [hf]
      simp only [ethHeader, ethHdrLen, List.length_append, Vector.length_toList, length_put16]
      omega
    have hframe : AcceptsFrame r f := ⟨hinit, hlong, htype, by rwa [hdrop]⟩
    rw [recv_accepts hframe, hdrop, hdispatch]

/-- A stack with the address 10.0.0.2 and all callbacks. -/
def hostTwo : Stack := setCallbacks (.init ⟨0x0200000A, 0, 0, .all⟩) true true true true

/-- A datagram of 10.0.0.1 with more fragments to come. -/
def firstFragment : List UInt8 :=
  List.replicate 12 0xFF ++ [0x08, 0x00] ++
    [0x45, 0, 0, 28, 0, 1, 0x20, 0, 64, 17, 0x46, 0xCE, 10, 0, 0, 1, 10, 0, 0, 2] ++
    [0, 53, 0, 53, 0, 8, 0, 0]

/-- A first fragment goes to the callback. -/
theorem fragment_dispatched : ¬ Sound (fun _ _ => .ok) hostTwo firstFragment := by
  have haccepts : AcceptsFrame hostTwo firstFragment :=
    ⟨rfl, by decide, by decide, ⟨by decide, by decide, by decide, by decide, by decide, by decide,
      by decide, by decide, .inl (by decide), .inr (.inr ⟨by decide, by decide, rfl⟩)⟩⟩
  rw [sound_iff]
  exact fun h => absurd (h haccepts) (by decide)

/-! ## TCP over IPv4 -/

theorem recv_datagram {s r : Stack} (tx' : LinkTx) (mac : Mac)
    (hfit : payload.length ≤ frameMax - ethHdrLen - headerLen) (hinit : r.initialized = true)
    (hlocal : r.localIp = dst) (htakes : r.takes proto payload.length) :
    recv tx' r (ethHeader mac s.localMac ethTypeIp ++ datagram s dst proto payload) =
      (.ok, r.dispatch (dispatchOf proto s.localIp dst payload)) := by
  obtain ⟨haccepts, hdispatch⟩ := datagram_accepts (s := s) hfit hlocal htakes
  obtain ⟨htype, hdrop⟩ := ethertype_ethHeader mac s.localMac ethTypeIp (datagram s dst proto payload)
  rw [recv_accepts ⟨hinit, ?_, htype, by rwa [hdrop]⟩, hdrop, hdispatch]
  simp only [ethHeader, ethHdrLen, List.length_append, Vector.length_toList, length_put16]
  omega

/-- A segment of a connection reaches the TCP callback of its peer. -/
theorem segment_crosses (itx : Tcp.IpTx) (tx' : LinkTx) (k : Tcp.Core) (i : Nat) (flags : UInt8)
    (save : Bool) {s r : Stack} {mac : Mac} (hlen : payload.length ≤ Tcp.maxSegment)
    (hs : s.initialized = true) (hlocal : s.localIp = (k.conns i).localIp)
    (hmac : nextMac tx s (k.conns i).remoteIp = (.ok mac, s)) (hr : r.initialized = true)
    (hremote : r.localIp = (k.conns i).remoteIp) (htcp : r.tcpCb = true) :
    ∃ p f, (Tcp.tcpEmit itx k i flags payload save).2.sent = p :: k.sent ∧
      (send tx s p.dst protoTcp p.bytes).2.sent = f :: s.sent ∧
      recv tx' r f = (.ok, r.dispatch
        (.tcp p.src (k.conns i).localPort p.dst (k.conns i).remotePort p.bytes)) ∧
      Tcp.parseSegment p = some { (k.conns i).header flags with payload := payload } := by
  obtain ⟨p, hp⟩ : ∃ p, p = (k.conns i).packet flags payload hlen := ⟨_, rfl⟩
  have hbytes : p.bytes.length = 20 + payload.length := by
    rw [hp]
    exact ((k.conns i).header flags).length_bytes ..
  have hfit : p.bytes.length ≤ frameMax - ethHdrLen - headerLen := by
    rw [hbytes]
    unfold Tcp.maxSegment at hlen
    unfold frameMax ethHdrLen headerLen
    omega
  have hsrc : p.src = s.localIp := by
    rw [hp, hlocal]
    rfl
  have hdst : p.dst = (k.conns i).remoteIp := by
    rw [hp]
    rfl
  have hports : get16 p.bytes = (k.conns i).localPort ∧
      get16 (p.bytes.drop 2) = (k.conns i).remotePort := by
    rw [hp]
    exact Tcp.Header.ports_bytes ..
  have harrives := recv_datagram (s := s) tx' mac hfit hr (hremote.trans hdst.symm)
    (.inr (.inl ⟨rfl, by omega, htcp⟩) : r.takes protoTcp p.bytes.length)
  refine ⟨p, _, ?_, send_known hs hfit (hdst ▸ hmac), ?_, ?_⟩
  · rw [Tcp.tcpEmit, dif_pos hlen, hp]
    rfl
  · rw [harrives, dispatchOf, if_neg (by decide), if_pos rfl, hports.1, hports.2, hsrc]
  · rw [hp]
    exact Tcp.parseSegment_packet_eq _ _ _ hlen

/-- The host 10.0.0.1, which knows the hardware address of 10.0.0.2. -/
def hostOne : Stack := arpStore (.init ⟨0x0100000A, 0xFFFFFF, 0, .all⟩) 0x0200000A .all

def coreOne : Tcp.Core := Tcp.Core.init.setConn 0
  { Tcp.Conn.zero with
    localIp := 0x0100000A
    remoteIp := 0x0200000A
    localPort := 49152
    remotePort := 80 }

theorem segment_crosses_one :
    ∃ p f, (Tcp.tcpEmit (fun _ _ => .ok) coreOne 0 Tcp.flagPsh [1, 2, 3] true).2.sent = [p] ∧
      (send (fun _ _ => .ok) hostOne p.dst protoTcp p.bytes).2.sent = [f] ∧
      recv (fun _ _ => .ok) hostTwo f =
        (.ok, hostTwo.dispatch (.tcp p.src 49152 p.dst 80 p.bytes)) ∧
      Tcp.parseSegment p =
        some { (coreOne.conns 0).header Tcp.flagPsh with payload := [1, 2, 3] } :=
  have hmac : nextMac (fun _ _ => .ok) hostOne (coreOne.conns 0).remoteIp = (.ok .all, hostOne) := rfl
  segment_crosses _ _ coreOne 0 _ _ (by decide) rfl rfl hmac rfl rfl rfl

end Ip
