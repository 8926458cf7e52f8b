import OpenWindows.Owjson.Parser

/-!
# The JSON grammar

RFC 8259 over bytes.  A reading of a text is a forest of labels that keeps how each string
and each number is spelt, so the grammar is the relation `Derives` and what a text denotes
is a function of its reading.  The grammar here lets a number start with superfluous zeros
and a string hold any byte from 0x20 on.  `Label.Strict` and `IsUtf8` take both back, and
`Valid` adds the limits of the parser.
-/

namespace Owjson

/-! ## Strings -/

/-- One character of a string as it is spelt. -/
inductive Item where
  | raw (c : UInt8)
  | escape (c : UInt8)
  | unicode (a b c d : UInt8)
deriving DecidableEq, Repr

/-- The escapes of two characters with the byte each denotes. -/
def escapes : List (UInt8 × UInt8) :=
  [(0x22, 0x22), (0x5C, 0x5C), (0x2F, 0x2F), (0x62, 0x08), (0x66, 0x0C), (0x6E, 0x0A),
    (0x72, 0x0D), (0x74, 0x09)]

def Item.text : Item → List UInt8
  | .raw c => [c]
  | .escape c => [0x5C, c]
  | .unicode a b c d => [0x5C, 0x75, a, b, c, d]

def Item.Wf : Item → Prop
  | .raw c => 0x20 ≤ c ∧ c ≠ 0x22 ∧ c ≠ 0x5C
  | .escape c => (escapes.lookup c).isSome
  | .unicode a b c d => ∀ x ∈ [a, b, c, d], (hexDigit x).isSome

/-- The characters of a string one after the other. -/
def itemsText (items : List Item) : List UInt8 := items.flatMap Item.text

/-- The code unit of `\uXXXX`. -/
def codeUnit (a b c d : UInt8) : Nat :=
  [a, b, c, d].foldl (fun v x => v * 16 + (hexDigit x).getD 0) 0

/-- The UTF-8 form of a code point. -/
def utf8 (cp : Nat) : List UInt8 := String.utf8EncodeChar (Char.ofNat cp)

/-- U+FFFD stands for a surrogate without its other half. -/
def replacement : List UInt8 := utf8 0xFFFD

def pairPoint (high low : Nat) : Nat := 0x10000 + (high - 0xD800) * 0x400 + (low - 0xDC00)

/-- The bytes a string denotes. -/
def decode : List Item → List UInt8
  | [] => []
  | .raw c :: items => c :: decode items
  | .escape e :: items => (escapes.lookup e).getD 0 :: decode items
  | .unicode a b c d :: items =>
    let u := codeUnit a b c d
    if isHigh u then
      match items with
      | .unicode a' b' c' d' :: rest =>
        if isLow (codeUnit a' b' c' d') then
          utf8 (pairPoint u (codeUnit a' b' c' d')) ++ decode rest
        else replacement ++ decode (.unicode a' b' c' d' :: rest)
      | items => replacement ++ decode items
    else if isLow u then replacement ++ decode items
    else utf8 u ++ decode items

/-! ## Numbers -/

/-- The exponent of a number as it is spelt. -/
structure ExponentText where
  mark : UInt8
  sign : Option UInt8
  digits : List UInt8
deriving DecidableEq, Repr

/-- The parts of a number. -/
structure NumberText where
  minus : Bool
  int : List UInt8
  frac : Option (List UInt8)
  exp : Option ExponentText
deriving DecidableEq, Repr

def Digits (ds : List UInt8) : Prop := ds ≠ [] ∧ ∀ c ∈ ds, isDigit c = true

def ExponentText.text (e : ExponentText) : List UInt8 := e.mark :: (e.sign.toList ++ e.digits)

def ExponentText.Wf (e : ExponentText) : Prop :=
  (e.mark = 0x65 ∨ e.mark = 0x45) ∧ (∀ c ∈ e.sign, c = 0x2B ∨ c = 0x2D) ∧ Digits e.digits

def fracText : Option (List UInt8) → List UInt8
  | none => []
  | some ds => 0x2E :: ds

def expText : Option ExponentText → List UInt8
  | none => []
  | some e => e.text

def NumberText.text (n : NumberText) : List UInt8 :=
  (if n.minus then [0x2D] else []) ++ (n.int ++ (fracText n.frac ++ expText n.exp))

def NumberText.Wf (n : NumberText) : Prop :=
  Digits n.int ∧ (∀ ds ∈ n.frac, Digits ds) ∧ ∀ e ∈ n.exp, e.Wf

/-- The number that decimal digits denote. -/
def decimal (digits : List UInt8) : Nat := digits.foldl (fun v c => v * 10 + (c.toNat - 0x30)) 0

/-- The exponent a number is spelt with, for a reader `value` of its digits. -/
def exponent (value : List UInt8 → Nat) : Option ExponentText → Int
  | none => 0
  | some e => if e.sign = some 0x2D then -(value e.digits : Int) else value e.digits

/-- The power of ten that the digits of a number are multiplied by. -/
def NumberText.scale (value : List UInt8 → Nat) (n : NumberText) : Int :=
  exponent value n.exp - ((n.frac.getD []).length : Int)

/-- No zero in front of another digit. -/
def NumberText.Plain (n : NumberText) : Prop := n.int.head? = some 0x30 → n.int = [0x30]

/-! ## Values -/

/-- A value without what it contains. -/
inductive Kind where
  | null
  | bool (b : Bool)
  | number (n : NumberText)
  | string (items : List Item)
  | array
  | object
deriving DecidableEq, Repr

/-- A value with its key, if it is a member of an object. -/
structure Label where
  key : Option (List Item)
  kind : Kind
deriving DecidableEq, Repr

def Kind.isContainer : Kind → Bool
  | .array => true
  | .object => true
  | _ => false

/-- The text of a value that contains no other. -/
def Kind.text : Kind → List UInt8
  | .null => wordNull
  | .bool true => wordTrue
  | .bool false => wordFalse
  | .number n => n.text
  | .string items => 0x22 :: (itemsText items ++ [0x22])
  | .array => []
  | .object => []

def Kind.Wf : Kind → Prop
  | .number n => n.Wf
  | .string items => ∀ i ∈ items, i.Wf
  | _ => True

/-- White space only. -/
def Blank (w : List UInt8) : Prop := ∀ c ∈ w, isSpace c = true

/-- A structural character with the white space around it. -/
def Token (c : UInt8) (s t : List UInt8) : Prop :=
  ∃ u v, Blank u ∧ Blank v ∧ s = u ++ c :: (v ++ t)

/-- The productions. -/
inductive Production where
  | value
  | elements
  | members

/-- The text `s` is what the production gives for the forest, followed by `t`. -/
inductive Derives : Production → Forest Label → List UInt8 → List UInt8 → Prop
  | scalar {k : Kind} {s t : List UInt8} : k.isContainer = false → k.Wf → s = k.text ++ t →
      Derives .value (.leaf ⟨none, k⟩) s t
  | emptyArray {s t : List UInt8} {v : List UInt8} : Blank v → s = 0x5B :: (v ++ 0x5D :: t) →
      Derives .value (.leaf ⟨none, .array⟩) s t
  | array {F : Forest Label} {s t t' v w : List UInt8} : Blank v → s = 0x5B :: (v ++ t) →
      Derives .elements F t (w ++ 0x5D :: t') → Blank w →
      Derives .value (.cons ⟨none, .array⟩ F .nil) s t'
  | emptyObject {s t : List UInt8} {v : List UInt8} : Blank v → s = 0x7B :: (v ++ 0x7D :: t) →
      Derives .value (.leaf ⟨none, .object⟩) s t
  | object {F : Forest Label} {s t t' v w : List UInt8} : Blank v → s = 0x7B :: (v ++ t) →
      Derives .members F t (w ++ 0x7D :: t') → Blank w →
      Derives .value (.cons ⟨none, .object⟩ F .nil) s t'
  | lastElement {k : Kind} {F : Forest Label} {s t : List UInt8} :
      Derives .value (.cons ⟨none, k⟩ F .nil) s t →
      Derives .elements (.cons ⟨none, k⟩ F .nil) s t
  | element {k : Kind} {F G : Forest Label} {s t t' t'' : List UInt8} :
      Derives .value (.cons ⟨none, k⟩ F .nil) s t → Token 0x2C t t' → Derives .elements G t' t'' →
      Derives .elements (.cons ⟨none, k⟩ F G) s t''
  | lastMember {key : List Item} {k : Kind} {F : Forest Label} {s t t' t'' : List UInt8} :
      (∀ i ∈ key, i.Wf) → s = (Kind.string key).text ++ t → Token 0x3A t t' →
      Derives .value (.cons ⟨none, k⟩ F .nil) t' t'' →
      Derives .members (.cons ⟨some key, k⟩ F .nil) s t''
  | member {key : List Item} {k : Kind} {F G : Forest Label} {s t t' t'' u u' : List UInt8} :
      (∀ i ∈ key, i.Wf) → s = (Kind.string key).text ++ t → Token 0x3A t t' →
      Derives .value (.cons ⟨none, k⟩ F .nil) t' t'' → Token 0x2C t'' u → Derives .members G u u' →
      Derives .members (.cons ⟨some key, k⟩ F G) s u'

/-- The whole text is one value with white space around it. -/
def Reads (text : List UInt8) (F : Forest Label) : Prop :=
  ∃ u s w, Blank u ∧ Blank w ∧ text = u ++ s ∧ Derives .value F s w

/-! ## Valid texts -/

/-- The most containers around each other. -/
def nesting : Forest Label → Nat
  | .nil => 0
  | .cons l children rest =>
    max (nesting children + if l.kind.isContainer then 1 else 0) (nesting rest)

def Label.strings (l : Label) : List (List Item) :=
  l.key.toList ++ match l.kind with
    | .string items => [items]
    | _ => []

/-- The strings of a reading in the order of the text. -/
def allStrings (F : Forest Label) : List (List Item) := F.toList.flatMap Label.strings

/-- The pool that holds the strings of a reading, each decoded and with its terminator,
behind the empty string. -/
def pool (decoded : List Item → List UInt8) (F : Forest Label) : List UInt8 :=
  0 :: (allStrings F).flatMap fun items => decoded items ++ [0]

def powerInRange (x : Int) : Prop := -308 ≤ x ∧ x ≤ 308

/-- What the grammar asks of a label beyond `Derives`, and the range of its number. -/
def Label.Strict (l : Label) : Prop :=
  ∀ n, l.kind = .number n → n.Plain ∧ powerInRange (n.scale decimal)

/-- The bytes are the UTF-8 form of some characters. -/
def IsUtf8 (text : List UInt8) : Prop := ∃ cs : List Char, text = cs.flatMap String.utf8EncodeChar

/-- Valid JSON within the limits of the parser. -/
def Valid (text : List UInt8) : Prop :=
  IsUtf8 text ∧ ∃ F, Reads text F ∧ (∀ l ∈ F.toList, l.Strict) ∧ nesting F ≤ maxDepth ∧
    F.size ≤ maxNodes ∧ (pool decode F).length ≤ stringPool

end Owjson
