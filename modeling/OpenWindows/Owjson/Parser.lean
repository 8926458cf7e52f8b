import OpenWindows.Lib.Forest

/-!
# The JSON parser

The recursive descent of `owjson64.c`.  A parser state is the text from `pos` on with what
the two pools hold so far, and `none` is a call that sets `error`.  The number a text
denotes is a `double` of the node that no other field depends on.  It is left out, and with
it the sign and the mantissa.  `levels` counts how many values may still be nested, so a
value at `depth` is read with `maxDepth + 1 - depth` levels.
-/

namespace Owjson

/-- `OWJSON_MAX_NODES`. -/
def maxNodes : Nat := 128

/-- `OWJSON_STRING_POOL`. -/
def stringPool : Nat := 1024

/-- `OWJSON_MAX_DEPTH`. -/
def maxDepth : Nat := 32

/-- `owjson_type_t`. -/
inductive NodeType where
  | null
  | bool
  | number
  | string
  | array
  | object
deriving DecidableEq, Repr

/-- `owjson_node_t`; an index that is `OWJSON_NONE` is `none`.  The defaults are those of
`json_alloc`. -/
structure Node where
  type : NodeType := .null
  next : Option Nat := none
  firstChild : Option Nat := none
  keyOff : Option Nat := none
  boolean : Bool := false
  stringOff : Option Nat := none
deriving DecidableEq, Repr

/-- `ow_json_parser_t` with the part of the pools in use. -/
structure Parser where
  /-- The text from `pos` on. -/
  rest : List UInt8
  /-- The first `node_count` nodes. -/
  nodes : List Node
  /-- The first `str_len` bytes of the string pool. -/
  strings : List UInt8
deriving DecidableEq, Repr

/-! ## Characters -/

/-- `json_isdigit`. -/
def isDigit (c : UInt8) : Bool := 0x30 ≤ c && c ≤ 0x39

/-- `json_isspace`. -/
def isSpace (c : UInt8) : Bool := c = 0x20 || c = 0x09 || c = 0x0A || c = 0x0D

/-- `json_peek`. -/
def peek (text : List UInt8) : Option UInt8 := text.head?

/-- `json_skip_ws`. -/
def skipWs (text : List UInt8) : List UInt8 := text.dropWhile isSpace

/-! ## Pools -/

/-- `json_alloc` and the assignments to the new node after it. -/
def alloc (p : Parser) (n : Node) : Option (Parser × Nat) :=
  if p.nodes.length ≥ maxNodes then none
  else some ({ p with nodes := p.nodes ++ [n] }, p.nodes.length)

/-- `json_pool_put`; the pool in use ends at `base + w`. -/
def poolPut (s : List UInt8) (ch : UInt8) : Option (List UInt8) :=
  if s.length + 2 > stringPool then none else some (s ++ [ch])

/-- The bytes `b` of `json_pool_utf8`. -/
def utf8Bytes (cp : Nat) : List UInt8 :=
  if cp < 0x80 then [UInt8.ofNat cp]
  else if cp < 0x800 then
    [UInt8.ofNat (0xC0 ||| cp >>> 6), UInt8.ofNat (0x80 ||| (cp &&& 0x3F))]
  else if cp < 0x10000 then
    [UInt8.ofNat (0xE0 ||| cp >>> 12), UInt8.ofNat (0x80 ||| ((cp >>> 6) &&& 0x3F)),
      UInt8.ofNat (0x80 ||| (cp &&& 0x3F))]
  else
    [UInt8.ofNat (0xF0 ||| cp >>> 18), UInt8.ofNat (0x80 ||| ((cp >>> 12) &&& 0x3F)),
      UInt8.ofNat (0x80 ||| ((cp >>> 6) &&& 0x3F)), UInt8.ofNat (0x80 ||| (cp &&& 0x3F))]

/-- `json_pool_utf8`. -/
def poolUtf8 (s : List UInt8) (cp : Nat) : Option (List UInt8) := (utf8Bytes cp).foldlM poolPut s

/-! ## Strings -/

/-- The digit `d` of `json_read_hex4`. -/
def hexDigit (c : UInt8) : Option Nat :=
  if 0x30 ≤ c ∧ c ≤ 0x39 then some (c.toNat - 0x30)
  else if 0x61 ≤ c ∧ c ≤ 0x66 then some (c.toNat - 0x61 + 10)
  else if 0x41 ≤ c ∧ c ≤ 0x46 then some (c.toNat - 0x41 + 10)
  else none

/-- The loop of `json_read_hex4`. -/
def hexLoop : Nat → Nat → List UInt8 → Option (Nat × List UInt8)
  | 0, v, t => some (v, t)
  | _ + 1, _, [] => none
  | n + 1, v, c :: t => do
      let d ← hexDigit c
      hexLoop n (v <<< 4 ||| d) t

/-- `json_read_hex4`. -/
def readHex4 (text : List UInt8) : Option (Nat × List UInt8) := hexLoop 4 0 text

/-- The simple escapes of `json_parse_string`. -/
def escapeByte (e : UInt8) : Option UInt8 :=
  if e = 0x22 then some 0x22
  else if e = 0x5C then some 0x5C
  else if e = 0x2F then some 0x2F
  else if e = 0x62 then some 0x08
  else if e = 0x66 then some 0x0C
  else if e = 0x6E then some 0x0A
  else if e = 0x72 then some 0x0D
  else if e = 0x74 then some 0x09
  else none

def isHigh (cp : Nat) : Bool := 0xD800 ≤ cp && cp ≤ 0xDBFF

def isLow (cp : Nat) : Bool := 0xDC00 ≤ cp && cp ≤ 0xDFFF

/-- What `json_parse_string` does between the first four digits of `\u` and the pool. -/
def pairSurrogate (cp : Nat) (text : List UInt8) : Option (Nat × List UInt8) :=
  if isHigh cp then
    if peek text = some 0x5C then
      if peek text.tail = some 0x75 then do
        let (lo, t) ← readHex4 text.tail.tail
        if isLow lo then some (0x10000 + (cp - 0xD800) <<< 10 + (lo - 0xDC00), t)
        else some (0xFFFD, t)
      else none
    else some (0xFFFD, text)
  else if isLow cp then some (0xFFFD, text)
  else some (cp, text)

/-- The loop of `json_parse_string`.  Each round takes a character, so the length of the text
is enough `fuel`. -/
def stringLoop : Nat → List UInt8 → List UInt8 → Option (List UInt8 × List UInt8)
  | 0, _, _ => none
  | _ + 1, _, [] => none
  | fuel + 1, s, c :: t =>
    if c = 0x22 then some (s, t)
    else if c = 0x5C then
      match t with
      | [] => none
      | e :: t =>
        if e = 0x75 then do
          let (cp, t) ← readHex4 t
          let (cp, t) ← pairSurrogate cp t
          let s ← poolUtf8 s cp
          stringLoop fuel s t
        else do
          let c ← escapeByte e
          let s ← poolPut s c
          stringLoop fuel s t
    else if c < 0x20 then none
    else do
      let s ← poolPut s c
      stringLoop fuel s t

/-- `json_parse_string`. -/
def parseString (p : Parser) : Option (Parser × Nat) :=
  if peek p.rest ≠ some 0x22 then none
  else if p.strings.length ≥ stringPool then none
  else do
    let (s, t) ← stringLoop p.rest.length p.strings p.rest.tail
    some ({ p with rest := t, strings := s ++ [0] }, p.strings.length)

/-! ## Numbers -/

/-- The test of `json_pow10`. -/
def pow10Ok (exp : Int) : Bool := ¬ (exp > 308 || exp < -308)

/-- The fraction in `json_parse_number`: `frac_digits` and the text after it. -/
def parseFraction (text : List UInt8) : Option (Nat × List UInt8) :=
  if peek text = some 0x2E then
    if (peek text.tail).any isDigit then
      some ((text.tail.takeWhile isDigit).length, text.tail.dropWhile isDigit)
    else none
  else some (0, text)

/-- The loop over the digits of an exponent in `json_parse_number`. -/
def exponentLoop (digits : List UInt8) : Nat :=
  digits.foldl (fun e c => if e < 100000 then e * 10 + (c.toNat - 0x30) else e) 0

/-- The exponent in `json_parse_number`, with its sign, and the text after it. -/
def parseExponent (text : List UInt8) : Option (Int × List UInt8) :=
  if peek text = some 0x65 ∨ peek text = some 0x45 then
    let expNeg := peek text.tail = some 0x2D
    let t := if peek text.tail = some 0x2B ∨ peek text.tail = some 0x2D then text.tail.tail else text.tail
    if (peek t).any isDigit then
      let exponent : Int := exponentLoop (t.takeWhile isDigit)
      some (if expNeg then -exponent else exponent, t.dropWhile isDigit)
    else none
  else some (0, text)

/-- `json_parse_number`: the text after the number. -/
def parseNumber (text : List UInt8) : Option (List UInt8) := do
  let t := if peek text = some 0x2D then text.tail else text
  if t.takeWhile isDigit = [] then none
  else do
    let (fracDigits, t) ← parseFraction (t.dropWhile isDigit)
    let (exponent, t) ← parseExponent t
    if pow10Ok (exponent - fracDigits) then some t else none

/-! ## Values -/

/-- `json_match_word`. -/
def matchWord (word text : List UInt8) : Option (List UInt8) :=
  if word.isPrefixOf text then some (text.drop word.length) else none

/-- The words `true`, `false` and `null`. -/
def wordTrue : List UInt8 := [0x74, 0x72, 0x75, 0x65]

def wordFalse : List UInt8 := [0x66, 0x61, 0x6C, 0x73, 0x65]

def wordNull : List UInt8 := [0x6E, 0x75, 0x6C, 0x6C]

/-- `g_json_nodes[i].next = val`. -/
def setNext (nodes : List Node) (i val : Nat) : List Node :=
  nodes.modify i fun n => { n with next := some val }

/-- `g_json_nodes[i].key_off = key`. -/
def setKey (nodes : List Node) (i key : Nat) : List Node :=
  nodes.modify i fun n => { n with keyOff := some key }

/-- A value that was read joins the chain that ends in `tail`. -/
def chain (nodes : List Node) (tail : Option Nat) (val : Nat) : List Node :=
  match tail with
  | none => nodes
  | some t => setNext nodes t val

/-- The loop of `json_parse_array`, for the reader `value` of one value.  It gives `head`.
Each round takes a comma or ends. -/
def arrayLoop (value : Parser → Option (Parser × Nat)) :
    Nat → Parser → Option Nat → Option Nat → Option (Parser × Option Nat)
  | 0, _, _, _ => none
  | fuel + 1, p, head, tail => do
    let (p, val) ← value p
    let p := { p with nodes := chain p.nodes tail val, rest := skipWs p.rest }
    let head := head <|> some val
    if peek p.rest = some 0x2C then
      arrayLoop value fuel { p with rest := skipWs p.rest.tail } head (some val)
    else if peek p.rest = some 0x5D then some ({ p with rest := p.rest.tail }, head)
    else none

/-- `json_parse_array`. -/
def parseArray (value : Parser → Option (Parser × Nat)) (p : Parser) : Option (Parser × Nat) :=
  let p := { p with rest := skipWs p.rest.tail }
  if peek p.rest = some 0x5D then alloc { p with rest := p.rest.tail } { type := .array }
  else do
    let (p, head) ← arrayLoop value p.rest.length p none none
    alloc p { type := .array, firstChild := head }

/-- The loop of `json_parse_object`. -/
def objectLoop (value : Parser → Option (Parser × Nat)) :
    Nat → Parser → Option Nat → Option Nat → Option (Parser × Option Nat)
  | 0, _, _, _ => none
  | fuel + 1, p, head, tail => do
    let (p, key) ← parseString { p with rest := skipWs p.rest }
    let p := { p with rest := skipWs p.rest }
    if peek p.rest ≠ some 0x3A then none
    else do
      let (p, val) ← value { p with rest := p.rest.tail }
      let p := { p with nodes := chain (setKey p.nodes val key) tail val, rest := skipWs p.rest }
      let head := head <|> some val
      if peek p.rest = some 0x2C then
        objectLoop value fuel { p with rest := p.rest.tail } head (some val)
      else if peek p.rest = some 0x7D then some ({ p with rest := p.rest.tail }, head)
      else none

/-- `json_parse_object`. -/
def parseObject (value : Parser → Option (Parser × Nat)) (p : Parser) : Option (Parser × Nat) :=
  let p := { p with rest := skipWs p.rest.tail }
  if peek p.rest = some 0x7D then alloc { p with rest := p.rest.tail } { type := .object }
  else do
    let (p, head) ← objectLoop value p.rest.length p none none
    alloc p { type := .object, firstChild := head }

/-- `json_parse_value`. -/
def parseValue : Nat → Parser → Option (Parser × Nat)
  | 0, _ => none
  | levels + 1, p =>
    let p := { p with rest := skipWs p.rest }
    match p.rest with
    | [] => none
    | c :: _ =>
      if c = 0x7B then parseObject (parseValue levels) p
      else if c = 0x5B then parseArray (parseValue levels) p
      else if c = 0x22 then do
        let (p, off) ← parseString p
        alloc p { type := .string, stringOff := some off }
      else if c = 0x74 then do
        let t ← matchWord wordTrue p.rest
        alloc { p with rest := t } { type := .bool, boolean := true }
      else if c = 0x66 then do
        let t ← matchWord wordFalse p.rest
        alloc { p with rest := t } { type := .bool, boolean := false }
      else if c = 0x6E then do
        let t ← matchWord wordNull p.rest
        alloc { p with rest := t } { type := .null }
      else if c = 0x2D ∨ isDigit c then do
        let t ← parseNumber p.rest
        alloc { p with rest := t } { type := .number }
      else none

/-- What a call that returns true leaves in the globals. -/
structure Document where
  nodes : List Node
  strings : List UInt8
  root : Nat
deriving DecidableEq, Repr

/-- `owjson_parse`; `none` is the answer false. -/
def owjsonParse (text : List UInt8) : Option Document := do
  let (p, root) ← parseValue (maxDepth + 1) ⟨text, [], [0]⟩
  if skipWs p.rest = [] then some ⟨p.nodes, p.strings, root⟩ else none

end Owjson
