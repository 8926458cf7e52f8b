import OpenWindows.Owjson.Readings

/-!
# Where the parser puts a reading

The two pools after a reading was parsed, in closed form.  The strings follow each other in
the order of the text, each as the loop of `json_parse_string` writes it (`stored`), and the
nodes lie in postorder.  `Fits` collects what makes the parser give up on a reading.
-/

namespace Owjson

/-! ## Strings as they are stored -/

/-- The bytes that `json_parse_string` puts into the pool.  A high surrogate takes the `\u`
after it along, whatever that is. -/
def stored : List Item → List UInt8
  | [] => []
  | .raw c :: items => c :: stored items
  | .escape e :: items => (escapeByte e).getD 0 :: stored items
  | .unicode a b c d :: items =>
    if isHigh (codeUnit a b c d) then
      match items with
      | .unicode a' b' c' d' :: rest =>
        if isLow (codeUnit a' b' c' d') then
          utf8Bytes (pairPoint (codeUnit a b c d) (codeUnit a' b' c' d')) ++ stored rest
        else utf8Bytes 0xFFFD ++ stored rest
      | items => utf8Bytes 0xFFFD ++ stored items
    else if isLow (codeUnit a b c d) then utf8Bytes 0xFFFD ++ stored items
    else utf8Bytes (codeUnit a b c d) ++ stored items

/-- No high surrogate that the parser meets is followed by another escape than `\u`. -/
def readable : List Item → Bool
  | [] => true
  | .raw _ :: items => readable items
  | .escape _ :: items => readable items
  | .unicode a b c d :: items =>
    if isHigh (codeUnit a b c d) then
      match items with
      | .unicode _ _ _ _ :: rest => readable rest
      | .escape _ :: _ => false
      | items => readable items
    else readable items

/-- The pool bytes of strings that follow each other. -/
def slots (strings : List (List Item)) : List UInt8 := strings.flatMap fun items => stored items ++ [0]

@[simp]
theorem slots_nil : slots [] = [] := rfl

theorem slots_cons (items : List Item) (strings : List (List Item)) :
    slots (items :: strings) = stored items ++ [0] ++ slots strings := rfl

@[simp]
theorem slots_append (xs ys : List (List Item)) : slots (xs ++ ys) = slots xs ++ slots ys :=
  List.flatMap_append

@[simp]
theorem allStrings_nil : allStrings .nil = [] := rfl

@[simp]
theorem allStrings_cons (l : Label) (F G : Forest Label) :
    allStrings (.cons l F G) = l.strings ++ (allStrings F ++ allStrings G) := by
  rw [allStrings, Forest.toList, List.flatMap_cons, List.flatMap_append]
  rfl

/-! ## Nodes -/

def Kind.type : Kind → NodeType
  | .null => .null
  | .bool _ => .bool
  | .number _ => .number
  | .string _ => .string
  | .array => .array
  | .object => .object

/-- The node of a label without its links, when its strings start at `off`. -/
def Label.node (l : Label) (off : Nat) : Node where
  type := l.kind.type
  keyOff := l.key.map fun _ => off
  boolean := match l.kind with
    | .bool b => b
    | _ => false
  stringOff := match l.kind with
    | .string _ => some (off + (slots l.key.toList).length)
    | _ => none

/-- The nodes of a reading without their links, when its strings start at `off`. -/
def place : Nat → Forest Label → Forest Node
  | _, .nil => .nil
  | off, .cons l F G =>
    .cons (l.node off) (place (off + (slots l.strings).length) F)
      (place (off + (slots l.strings).length + (slots (allStrings F)).length) G)

def cellNode (c : Forest.Cell Node) : Node := { c.value with firstChild := c.first, next := c.next }

/-- The nodes of a reading from `base` on, when its strings start at `off`. -/
def layout (base off : Nat) (F : Forest Label) : List Node :=
  ((place off F).postorder base).map cellNode

@[simp]
theorem size_place (off : Nat) (F : Forest Label) : (place off F).size = F.size := by
  induction F generalizing off with
  | nil => rfl
  | cons l F G ihF ihG => simp only [place, Forest.size, ihF, ihG]

@[simp]
theorem head_place (off base : Nat) (F : Forest Label) : (place off F).head base = F.head base := by
  cases F with
  | nil => rfl
  | cons l F G => simp only [place, Forest.head, size_place]

@[simp]
theorem length_layout (base off : Nat) (F : Forest Label) : (layout base off F).length = F.size := by
  rw [layout, List.length_map, Forest.length_postorder, size_place]

theorem layout_cons (base off : Nat) (l : Label) (F G : Forest Label) :
    layout base off (.cons l F G) =
      layout base (off + (slots l.strings).length) F ++
        { l.node off with firstChild := F.head base, next := G.head (base + F.size + 1) } ::
          layout (base + F.size + 1) (off + (slots l.strings).length + (slots (allStrings F)).length) G := by
  simp only [layout, place, Forest.postorder, List.map_append, List.map_cons, size_place, head_place]
  rfl

/-! ## Room -/

def Label.Ok (l : Label) : Prop :=
  (∀ items ∈ l.strings, readable items = true) ∧
    ∀ n, l.kind = .number n → pow10Ok (n.scale exponentLoop) = true

/-- With `n` nodes and `s` bytes in use there is room for a reading, and nothing in it stops the
parser. -/
structure Fits (n s : Nat) (F : Forest Label) : Prop where
  nodes : n + F.size ≤ maxNodes
  strings : s + (slots (allStrings F)).length ≤ stringPool
  labels : ∀ l ∈ F.toList, l.Ok

variable {n s : Nat} {F : Forest Label}

theorem fits_nil (hn : n ≤ maxNodes) (hs : s ≤ stringPool) : Fits n s .nil :=
  ⟨hn, hs, fun _ hl => by cases hl⟩

/-- A tree in front of others. -/
theorem fits_cons {l : Label} {G : Forest Label} :
    Fits n s (.cons l F G) ↔ Fits n s (.cons l F .nil) ∧
      Fits (n + (F.size + 1)) (s + (slots (l.strings ++ allStrings F)).length) G := by
  constructor
  · rintro ⟨hn, hs, hl⟩
    simp only [Forest.size, allStrings_cons, slots_append, List.length_append, Forest.toList,
      List.mem_cons, List.mem_append] at hn hs hl
    refine ⟨⟨?_, ?_, ?_⟩, ?_, ?_, fun x hx => hl x (.inr (.inr hx))⟩
    · simp only [Forest.size]
      omega
    · simp only [allStrings_cons, allStrings_nil, List.append_nil, slots_append, List.length_append]
      omega
    · simp only [Forest.toList, List.append_nil, List.mem_cons]
      exact fun x hx => hl x (hx.imp_right .inl)
    · omega
    · simp only [slots_append, List.length_append]
      omega
  · rintro ⟨⟨hn, hs, hl⟩, hn', hs', hl'⟩
    simp only [Forest.size, allStrings_cons, allStrings_nil, List.append_nil, slots_append,
      List.length_append, Forest.toList, List.mem_cons] at hn hs hl hs'
    refine ⟨?_, ?_, ?_⟩
    · simp only [Forest.size]
      omega
    · simp only [allStrings_cons, slots_append, List.length_append]
      omega
    · simp only [Forest.toList, List.mem_cons, List.mem_append]
      rintro x (hx | hx | hx)
      · exact hl x (.inl hx)
      · exact hl x (.inr hx)
      · exact hl' x hx

theorem fits_member {key : List Item} {k : Kind} :
    Fits n s (.cons ⟨some key, k⟩ F .nil) ↔ readable key = true ∧
      Fits n (s + ((stored key).length + 1)) (.cons ⟨none, k⟩ F .nil) := by
  have hstrings : allStrings (.cons ⟨some key, k⟩ F .nil) =
      key :: allStrings (.cons ⟨none, k⟩ F .nil) := by
    simp only [allStrings_cons, Label.strings, Option.toList_some, Option.toList_none,
      List.nil_append, List.cons_append]
  have hlen : (slots (allStrings (.cons ⟨some key, k⟩ F .nil))).length =
      (stored key).length + 1 + (slots (allStrings (.cons ⟨none, k⟩ F .nil))).length := by
    rw [hstrings, slots_cons, List.length_append, List.length_append]
    rfl
  have hok : Label.Ok ⟨some key, k⟩ ↔ readable key = true ∧ Label.Ok ⟨none, k⟩ := by
    simp only [Label.Ok, Label.strings, Option.toList_some, Option.toList_none, List.nil_append,
      List.cons_append, List.mem_cons, forall_eq_or_imp, and_assoc]
  constructor
  · rintro ⟨hn, hs, hl⟩
    rw [hlen] at hs
    simp only [Forest.toList, List.append_nil, List.mem_cons, forall_eq_or_imp, hok] at hl
    refine ⟨hl.1.1, hn, by omega, ?_⟩
    simp only [Forest.toList, List.append_nil, List.mem_cons, forall_eq_or_imp]
    exact ⟨hl.1.2, hl.2⟩
  · rintro ⟨hread, hn, hs, hl⟩
    simp only [Forest.toList, List.append_nil, List.mem_cons, forall_eq_or_imp] at hl
    refine ⟨hn, by rw [hlen]; omega, ?_⟩
    simp only [Forest.toList, List.append_nil, List.mem_cons, forall_eq_or_imp, hok]
    exact ⟨⟨hread, hl.1⟩, hl.2⟩

theorem fits_container {k : Kind} (hk : k.isContainer = true) :
    Fits n s (.cons ⟨none, k⟩ F .nil) ↔ Fits n s F ∧ n + F.size < maxNodes := by
  have hstrings : Label.strings ⟨none, k⟩ = [] := by cases k <;> first | rfl | cases hk
  have hok : Label.Ok ⟨none, k⟩ := by
    refine ⟨by simp [hstrings], fun n hn => ?_⟩
    cases hn
    cases hk
  have hall : allStrings (.cons ⟨none, k⟩ F .nil) = allStrings F := by
    simp only [allStrings_cons, hstrings, allStrings_nil, List.nil_append, List.append_nil]
  constructor
  · rintro ⟨hn, hs, hl⟩
    simp only [Forest.size] at hn
    rw [hall] at hs
    simp only [Forest.toList, List.append_nil, List.mem_cons, forall_eq_or_imp] at hl
    exact ⟨⟨by omega, hs, hl.2⟩, by omega⟩
  · rintro ⟨⟨hn, hs, hl⟩, hroom⟩
    refine ⟨by simp only [Forest.size]; omega, by rw [hall]; exact hs, ?_⟩
    simp only [Forest.toList, List.append_nil, List.mem_cons, forall_eq_or_imp]
    exact ⟨hok, hl⟩

/-- A scalar. -/
theorem fits_leaf {l : Label} :
    Fits n s (.leaf l) ↔ n < maxNodes ∧ s + (slots l.strings).length ≤ stringPool ∧ l.Ok := by
  have hall : allStrings (.leaf l) = l.strings := by
    rw [Forest.leaf, allStrings_cons, allStrings_nil, List.append_nil, List.append_nil]
  constructor
  · rintro ⟨hn, hs, hl⟩
    exact ⟨hn, hall ▸ hs, hl l List.mem_cons_self⟩
  · rintro ⟨hn, hs, hl⟩
    refine ⟨hn, by rw [hall]; exact hs, fun x hx => ?_⟩
    have hx' : x = l := by simpa [Forest.leaf, Forest.toList] using hx
    rw [hx']
    exact hl

/-- The parser after a reading, with the text `t` left. -/
def grow (p : Parser) (F : Forest Label) (t : List UInt8) : Parser where
  rest := t
  nodes := p.nodes ++ layout p.nodes.length p.strings.length F
  strings := p.strings ++ slots (allStrings F)

end Owjson
