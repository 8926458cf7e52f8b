import OpenWindows.Lib.Bytes

/-!
# The DNS resolver

`dnscli` resolves one name at a time.  `dns_resolve` looks into the cache, and if
the name is not there it sends a query with a fresh id.  `dns_input` takes a
message, and if it is a response with the id of the last query it caches the
first address in it under the name of the last query.

The transmit hook `udp_tx` is a function of the messages handed to it so far and
the message of the call.
-/

namespace Dns

open Words

/-! ## Statuses and constants -/

/-- `dns_status_t`. -/
inductive Status where
  | ok | param | notReady | noServer | name | pending | truncated | rcode | nxdomain | noData
  | badPacket
  deriving DecidableEq, Repr

/-- `DNS_PORT`. -/
def port : UInt16 := 53

/-- `DNS_TYPE_A`. -/
def typeA : UInt16 := 1

/-- `DNS_CLASS_IN`. -/
def classIn : UInt16 := 1

/-- `DNS_HEADER_LEN`. -/
def headerLen : Nat := 12

/-- `DNS_MAX_NAME`. -/
def maxName : Nat := 128

/-- `DNS_CACHE_MAX`. -/
def cacheMax : Nat := 16

/-- `DNS_MSG_MAX`. -/
def msgMax : Nat := 512

/-! ## Names -/

/-- A string of the caller. -/
structure CStr where
  bytes : List UInt8
  noNul : 0 ∉ bytes

instance : DecidableEq CStr := fun a b =>
  decidable_of_iff (a.bytes = b.bytes)
    ⟨fun h => by cases a; cases b; cases h; rfl, congrArg CStr.bytes⟩

/-- A string in an array of `DNS_MAX_NAME` characters. -/
structure Name extends CStr where
  fit : bytes.length < maxName
  deriving DecidableEq

/-- The string of an array of zeros. -/
def Name.empty : Name := ⟨⟨[], nofun⟩, by decide⟩

/-- The characters of `ow_streq_ci`, which maps capital letters to small ones. -/
def lower (c : UInt8) : UInt8 := if 65 ≤ c ∧ c ≤ 90 then c - 65 + 97 else c

/-- `ow_streq_ci`. -/
def streqCi : List UInt8 → List UInt8 → Bool
  | [], [] => true
  | a :: as, b :: bs => lower a == lower b && streqCi as bs
  | _, _ => false

theorem streqCi_iff (as bs : List UInt8) : streqCi as bs = true ↔ as.map lower = bs.map lower := by
  induction as generalizing bs with
  | nil => cases bs <;> simp [streqCi]
  | cons a as ih => cases bs <;> simp [streqCi, ih]

/-- The loop of `dns_encode_name`.  The labels before the current one are encoded
in `dst`, and `label` holds the bytes of the current one. -/
def encodeLabels (cap : Nat) : List UInt8 → List UInt8 → List UInt8 → Option (List UInt8)
  | [], dst, label =>
    if label = [] then none else some (dst ++ UInt8.ofNat label.length :: label)
  | ch :: rest, dst, label =>
    if ch = 46 then
      -- an empty label, a trailing dot, or no room for the next length octet
      if label = [] ∨ rest = [] ∨ cap ≤ dst.length + 1 + label.length then none
      else encodeLabels cap rest (dst ++ UInt8.ofNat label.length :: label) []
    else if 63 ≤ label.length ∨ cap ≤ dst.length + 1 + label.length then none
    else encodeLabels cap rest dst (label ++ [ch])

/-- `dns_encode_name`; `none` where it returns 0. -/
def encodeName (name : List UInt8) (cap : Nat) : Option (List UInt8) :=
  if name = [] ∨ cap = 0 then none
  else
    match encodeLabels cap name [] [] with
    | none => none
    | some dst =>
      if cap ≤ dst.length ∨ 255 < dst.length + 1 then none else some (dst ++ [0])

/-! ## Messages -/

/-- The bytes handed to `dns_input`.  No offset into them wraps around. -/
structure Message where
  bytes : List UInt8
  fit : bytes.length < 2 ^ 32 - 2 ^ 17

def Message.id (m : Message) : UInt16 := get16 m.bytes

def Message.flags (m : Message) : UInt16 := get16 (m.bytes.drop 2)

/-- `qdcount`. -/
def Message.qdcount (m : Message) : UInt16 := get16 (m.bytes.drop 4)

/-- `ancount`. -/
def Message.ancount (m : Message) : UInt16 := get16 (m.bytes.drop 6)

/-- The loop of `dns_skip_name` over the bytes from the offset `off` on.  The
bytes of a label are passed one at a time; `skip` of them are left. -/
def skipLabels : List UInt8 → Nat → Nat → Option Nat
  | [], _, _ => none
  | _ :: rest, skip + 1, off => skipLabels rest skip (off + 1)
  | c :: rest, 0, off =>
    if c &&& 0xC0 = 0xC0 then if rest = [] then none else some (off + 2)
    else if c &&& 0xC0 ≠ 0 then none
    else if c = 0 then some (off + 1)
    else skipLabels rest c.toNat (off + 1)

/-- `dns_skip_name`, with the offset behind the name. -/
def skipName (msg : List UInt8) (off : Nat) : Option Nat := skipLabels (msg.drop off) 0 off

/-- The loop of `dns_input` over the questions, with the offset behind them. -/
def skipQuestions (msg : List UInt8) : Nat → Nat → Option Nat
  | 0, off => some off
  | n + 1, off =>
    match skipName msg off with
    | none => none
    | some off => if msg.length < off + 4 then none else skipQuestions msg n (off + 4)

/-- `dns_get_ip`: the host is little endian. -/
def getIp (bytes : List UInt8) : UInt32 :=
  (bytes.getD 0 0).toUInt32 ||| (bytes.getD 1 0).toUInt32 <<< 8 |||
    (bytes.getD 2 0).toUInt32 <<< 16 ||| (bytes.getD 3 0).toUInt32 <<< 24

/-- What the answers of a message come to. -/
inductive Answer where
  | malformed
  | record (ip ttl : UInt32)
  | noData
  deriving DecidableEq

/-- The loop of `dns_input` over the answers. -/
def readAnswers (msg : List UInt8) : Nat → Nat → Answer
  | 0, _ => .noData
  | n + 1, off =>
    match skipName msg off with
    | none => .malformed
    | some off =>
      if msg.length < off + 10 then .malformed
      else
        let type := get16 (msg.drop off)
        let cls := get16 (msg.drop (off + 2))
        let ttl := get32 (msg.drop (off + 4))
        let rdlen := (get16 (msg.drop (off + 8))).toNat
        if msg.length < off + 10 + rdlen then .malformed
        else if type = typeA ∧ cls = classIn ∧ rdlen = 4 then
          .record (getIp (msg.drop (off + 10))) ttl
        else readAnswers msg n (off + 10 + rdlen)

def Message.answer (m : Message) : Answer :=
  match skipQuestions m.bytes m.qdcount.toNat headerLen with
  | none => .malformed
  | some off => readAnswers m.bytes m.ancount.toNat off

/-! ## The resolver -/

/-- `dns_cache_entry_t`. -/
structure Entry where
  name : Name
  ip : UInt32
  ttl : UInt32
  age : UInt32
  valid : Bool
  deriving DecidableEq

/-- An entry after `ow_memset`. -/
def Entry.zero : Entry := ⟨.empty, 0, 0, 0, false⟩

/-- A question that was sent. -/
structure Query where
  id : UInt16
  name : Name
  deriving DecidableEq

/-- A message to the name server: the address, the port and the bytes. -/
structure Datagram where
  dst : UInt32
  port : UInt16
  bytes : List UInt8

/-- The transmit hook. -/
abbrev UdpTx := List Datagram → Datagram → Status

/-- `dns_resolver_t`. -/
structure Resolver where
  serverIp : UInt32
  serverPort : UInt16
  nextId : UInt16
  initialized : Bool
  pendingId : UInt16
  pendingName : Name
  cache : Nat → Entry
  /-- The messages handed to `udp_tx` so far, latest first. -/
  sent : List Datagram
  /-- Not a variable of the program: the queries that `udp_tx` has taken and that
  have not been answered, latest first. -/
  outstanding : List Query
  /-- Not a variable of the program: the last query that took an id was sent, and
  nothing has answered it. -/
  awaits : Bool

/-- `dns_init`. -/
def Resolver.init (serverIp : UInt32) : Resolver where
  serverIp := serverIp
  serverPort := port
  nextId := 0x4E21
  initialized := true
  pendingId := 0
  pendingName := .empty
  cache _ := .zero
  sent := []
  outstanding := []
  awaits := false

def Entry.matches (e : Entry) (name : List UInt8) : Bool := e.valid && streqCi e.name.bytes name

/-- The slot of `dns_cache_lookup`. -/
def findEntry (r : Resolver) (name : List UInt8) : Option Nat :=
  (List.range cacheMax).find? fun i => (r.cache i).matches name

/-- The last loop of `dns_cache_insert`: the last of the entries with the highest
age. -/
def oldestEntry (r : Resolver) : Nat :=
  ((List.range cacheMax).foldl
    (fun (victim, oldest) i =>
      if oldest ≤ (r.cache i).age then (i, (r.cache i).age) else (victim, oldest))
    (0, (0 : UInt32))).1

/-- The slot that `dns_cache_insert` takes for a new name. -/
def victimEntry (r : Resolver) : Nat :=
  match (List.range cacheMax).find? fun i => !(r.cache i).valid with
  | some i => i
  | none => oldestEntry r

def Resolver.setEntry (r : Resolver) (i : Nat) (e : Entry) : Resolver :=
  { r with cache := Function.update r.cache i e }

/-- `dns_cache_insert`. -/
def cacheInsert (r : Resolver) (name : Name) (ip ttl : UInt32) : Resolver :=
  match findEntry r name.bytes with
  | some i => r.setEntry i { r.cache i with ip := ip, ttl := ttl, age := 0 }
  | none => r.setEntry (victimEntry r) ⟨name, ip, ttl, 0, true⟩

def queryBytes (id : UInt16) (name : List UInt8) : List UInt8 :=
  put16 id ++ put16 0x0100 ++ put16 1 ++ [0, 0, 0, 0, 0, 0] ++ name ++ put16 typeA ++ put16 classIn

/-- `dns_resolve` after the cache was searched. -/
def sendQuery (tx : UdpTx) (r : Resolver) (name : Name) : Status × Resolver :=
  let id := r.nextId
  let r := { r with pendingId := id, nextId := id + 1, awaits := false }
  match encodeName name.bytes (msgMax - headerLen - 4) with
  | none => (.name, r)
  | some enc =>
    let d : Datagram := ⟨r.serverIp, r.serverPort, queryBytes id enc⟩
    let st := tx r.sent d
    let r := { r with pendingName := name, sent := d :: r.sent }
    if st ≠ .ok then (st, r)
    else (.pending, { r with outstanding := ⟨id, name⟩ :: r.outstanding, awaits := true })

/-- `dns_resolve`, with the address it stores. -/
def dnsResolve (tx : UdpTx) (r : Resolver) (name : CStr) : Status × Option UInt32 × Resolver :=
  if !r.initialized then (.notReady, none, r)
  else if r.serverIp = 0 then (.noServer, none, r)
  else
    match findEntry r name.bytes with
    | some i => (.ok, some (r.cache i).ip, r)
    | none =>
      if h : name.bytes.length < maxName then
        let (st, r) := sendQuery tx r ⟨name, h⟩
        (st, none, r)
      else (.name, none, r)

/-- The last query has got its answer. -/
def Resolver.answered (r : Resolver) : Resolver :=
  { r with outstanding := r.outstanding.filter (·.id ≠ r.pendingId), awaits := false }

/-- A message is a response with the id `id`. -/
def Message.responds (m : Message) (id : UInt16) : Bool :=
  decide (headerLen ≤ m.bytes.length) && m.id == id && m.flags &&& 0x8000 != 0

/-- `dns_input`. -/
def dnsInput (r : Resolver) (m : Message) : Status × Resolver :=
  if !r.initialized then (.notReady, r)
  else if !m.responds r.pendingId then (.badPacket, r)
  else if m.flags &&& 0x0200 ≠ 0 then (.truncated, r)
  else if m.flags &&& 0x000F = 3 then (.nxdomain, r.answered)
  else if m.flags &&& 0x000F ≠ 0 then (.rcode, r.answered)
  else
    match m.answer with
    | .malformed => (.badPacket, r)
    | .noData => (.noData, r.answered)
    | .record ip ttl => (.ok, cacheInsert r.answered r.pendingName ip ttl)

/-! ## Calls -/

/-- A call of the resolver. -/
inductive Op where
  | resolve (name : CStr)
  | input (m : Message)
  | flush
  | setServer (serverIp : UInt32)

def Resolver.next (tx : UdpTx) (r : Resolver) : Op → Resolver
  | .resolve name => (dnsResolve tx r name).2.2
  | .input m => (dnsInput r m).2
  | .flush => { r with cache := fun _ => .zero }
  | .setServer serverIp => { r with serverIp := serverIp }

end Dns
