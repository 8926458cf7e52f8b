import OpenWindows.Owjson.Accepts

/-!
# What the accepted texts leave

The pools behind a text that was accepted.  The nodes form a tree of the node pool and the
strings lie apart in the string pool, whatever the text is (`document_tree`,
`document_strings`).  A walk by `first_child` and `next` gives the reading back with its
strings as they are stored (`readBack_eq`), which is what the text denotes unless an escape
was dropped.
-/

namespace Owjson

/-! ## Reading back -/

/-- What a node stands for. -/
inductive Value where
  | null
  | bool (b : Bool)
  | number
  | string (s : List UInt8)
  | array
  | object
deriving DecidableEq, Repr

/-- A value with its key, if it is a member of an object. -/
structure Entry where
  key : Option (List UInt8)
  value : Value
deriving DecidableEq, Repr

def untilNul (s : List UInt8) : List UInt8 := s.takeWhile (· ≠ 0)

/-- What a C reader sees at an offset of the string pool. -/
def cString (strings : List UInt8) (off : Nat) : List UInt8 := untilNul (strings.drop off)

/-- A node as the accessors show it. -/
def nodeEntry (strings : List UInt8) (n : Node) : Entry where
  key := n.keyOff.map (cString strings)
  value := match n.type with
    | .null => .null
    | .bool => .bool n.boolean
    | .number => .number
    | .string => .string ((n.stringOff.map (cString strings)).getD [])
    | .array => .array
    | .object => .object

namespace Document

def first (d : Document) (i : Nat) : Option Nat := (d.nodes[i]?).bind Node.firstChild

def next (d : Document) (i : Nat) : Option Nat := (d.nodes[i]?).bind Node.next

/-- The forest that a walk from the root by `first_child` and `next` shows. -/
def readBack (d : Document) : Option (Forest (Option Entry)) :=
  (Forest.walk d.first d.next (d.nodes.length + 1) (some d.root)).map fun F =>
    F.map fun i => (d.nodes[i]?).map (nodeEntry d.strings)

def offsets (d : Document) : List Nat :=
  d.nodes.flatMap fun n => n.keyOff.toList ++ n.stringOff.toList

/-- The bytes that a string takes with its terminator. -/
def extent (d : Document) (off : Nat) : Nat := (cString d.strings off).length + 1

/-- Every string ends with a NUL inside the pool, and no two of them share a byte. -/
def StringsApart (d : Document) : Prop :=
  d.strings.length ≤ stringPool ∧
    (∀ off ∈ d.offsets, off + d.extent off ≤ d.strings.length ∧
      d.strings[off + (cString d.strings off).length]? = some 0) ∧
    d.offsets.Pairwise fun a b => a + d.extent a ≤ b ∨ b + d.extent b ≤ a

end Document

/-- What a label says when its strings are decoded by `bytes`. -/
def Label.entry (bytes : List Item → List UInt8) (l : Label) : Entry where
  key := l.key.map fun items => untilNul (bytes items)
  value := match l.kind with
    | .null => .null
    | .bool b => .bool b
    | .number _ => .number
    | .string items => .string (untilNul (bytes items))
    | .array => .array
    | .object => .object

/-- The nodes are a tree and the strings lie apart, and reading back gives what the text denotes. -/
def Faithful (text : List UInt8) (d : Document) : Prop :=
  Forest.IsTree d.first d.next d.root d.nodes.length ∧ d.StringsApart ∧
    ∃ F, Reads text F ∧ d.readBack = some (F.map fun l => some (l.entry decode))

/-- In no string of the text a high surrogate stands right in front of a `\u` that is no low one. -/
def Paired (text : List UInt8) : Prop :=
  ∀ F, Reads text F → ∀ items ∈ allStrings F, swallows items = false

/-- In no string of the text a `\u0000` stands. -/
def NulFree (text : List UInt8) : Prop :=
  ∀ F, Reads text F → ∀ items ∈ allStrings F, ∀ i ∈ items, i.isNul = false

/-! ## The string pool -/

theorem untilNul_append (s r : List UInt8) : untilNul (s ++ 0 :: r) = untilNul s := by
  induction s with
  | nil => rfl
  | cons c s ih =>
    by_cases hc : c = 0
    · simp [untilNul, hc]
    · simpa [untilNul, hc] using ih

/-- Where the strings of a list start, from `off` on. -/
def starts : Nat → List (List Item) → List Nat
  | _, [] => []
  | off, items :: strings => off :: starts (off + (slots [items]).length) strings

theorem starts_append (off : Nat) (xs ys : List (List Item)) :
    starts off (xs ++ ys) = starts off xs ++ starts (off + (slots xs).length) ys := by
  induction xs generalizing off with
  | nil => rfl
  | cons items xs ih =>
    rw [List.cons_append, starts, starts, ih, List.cons_append, slots_cons items xs, slots_cons items []]
    simp only [List.length_append, slots_nil, List.length_nil, Nat.add_zero, Nat.add_assoc]

theorem label_offsets (l : Label) (off : Nat) :
    (l.node off).keyOff.toList ++ (l.node off).stringOff.toList = starts off l.strings := by
  obtain ⟨key, kind⟩ := l
  cases key with
  | none | some items => cases kind <;> simp [Label.node, Label.strings, starts]

theorem place_offsets (off : Nat) (F : Forest Label) :
    (place off F).toList.flatMap (fun n => n.keyOff.toList ++ n.stringOff.toList) =
      starts off (allStrings F) := by
  induction F generalizing off with
  | nil => rfl
  | cons l F G ihF ihG =>
    rw [place, Forest.toList, List.flatMap_cons, List.flatMap_append, ihF, ihG, label_offsets,
      allStrings_cons, starts_append, starts_append]

theorem length_untilNul_le (s : List UInt8) : (untilNul s).length ≤ s.length := (List.takeWhile_sublist _).length_le

variable {s : List UInt8}

theorem getElem?_untilNul (h : (0 : UInt8) ∈ s) : s[(untilNul s).length]? = some 0 := by
  induction s with
  | nil => cases h
  | cons c s ih =>
    by_cases hc : c = 0
    · simp [untilNul, hc]
    · have hs : (0 : UInt8) ∈ s := (List.mem_cons.1 h).resolve_left (Ne.symm hc)
      simpa [untilNul, hc] using ih hs

variable {off : Nat} {pool pre rest : List UInt8} {l : Label}

theorem cString_at (hpool : pool = pre ++ (s ++ 0 :: rest))
    (hoff : pre.length = off) : cString pool off = untilNul s := by
  rw [cString, hpool, ← hoff, List.drop_left, untilNul_append]

theorem terminated_at (hpool : pool = pre ++ (s ++ 0 :: rest))
    (hoff : pre.length = off) : pool[off + (cString pool off).length]? = some 0 := by
  have hmem : (0 : UInt8) ∈ s ++ 0 :: rest := by simp
  have hget := getElem?_untilNul hmem
  rw [untilNul_append] at hget
  rw [cString_at hpool hoff, hpool, ← hoff, List.getElem?_append_right (Nat.le_add_right _ _),
    Nat.add_sub_cancel_left]
  exact hget

theorem starts_spec {strings : List (List Item)}
    (hpool : pool = pre ++ (slots strings ++ rest)) (hoff : pre.length = off) :
    (∀ a ∈ starts off strings, off ≤ a ∧
      a + ((cString pool a).length + 1) ≤ off + (slots strings).length ∧
      pool[a + (cString pool a).length]? = some 0) ∧
    (starts off strings).Pairwise fun a b => a + ((cString pool a).length + 1) ≤ b := by
  induction strings generalizing pre off with
  | nil =>
    refine ⟨fun a ha => ?_, List.Pairwise.nil⟩
    cases ha
  | cons items strings ih =>
    have hhere : pool = pre ++ (stored items ++ 0 :: (slots strings ++ rest)) := by
      rw [hpool, slots_cons]
      simp
    have hnext : pool = (pre ++ slots [items]) ++ (slots strings ++ rest) := by
      rw [hpool, slots_cons, slots_cons]
      simp
    have hlen : (pre ++ slots [items]).length = off + (slots [items]).length := by
      rw [List.length_append, hoff]
    have hone : (slots [items]).length = (stored items).length + 1 := by
      simp [slots_cons]
    have hall : (slots (items :: strings)).length = (slots [items]).length + (slots strings).length := by
      rw [slots_cons, slots_cons]
      simp only [List.length_append, slots_nil, List.length_nil]
      omega
    have hext : (cString pool off).length ≤ (stored items).length := by
      rw [cString_at hhere hoff]
      exact length_untilNul_le _
    obtain ⟨hspec, hpair⟩ := ih hnext hlen
    rw [starts]
    refine ⟨fun a ha => ?_, List.pairwise_cons.2 ⟨fun b hb => ?_, hpair⟩⟩
    · rcases List.mem_cons.1 ha with rfl | ha
      · exact ⟨Nat.le_refl _, by omega, terminated_at hhere hoff⟩
      · obtain ⟨hge, hle, hzero⟩ := hspec a ha
        exact ⟨by omega, by omega, hzero⟩
    · have hge := (hspec b hb).1
      omega

/-! ## The node pool -/

/-- The cells of a document before their values become nodes. -/
def cellsOf (l : Label) (F : Forest Label) : List (Forest.Cell Node) :=
  (place 1 (.cons l F .nil)).postorder 0

theorem documentOf_nodes (l : Label) (F : Forest Label) :
    (documentOf l F).nodes = (cellsOf l F).map cellNode := rfl

theorem cellsOf_heldAt (l : Label) (F : Forest Label) :
    Forest.HeldAt (fun i => (cellsOf l F)[i]?) (place 1 (.cons l F .nil)) 0 := by
  have hnil : ([] : List (Forest.Cell Node)).length = 0 := rfl
  have h := Forest.heldAt_postorder (place 1 (.cons l F .nil)) hnil []
  simp only [List.nil_append, List.append_nil] at h
  exact h

theorem documentOf_first (l : Label) (F : Forest Label) :
    (documentOf l F).first = fun i => ((cellsOf l F)[i]?).bind Forest.Cell.first := by
  funext i
  rw [Document.first, documentOf_nodes, List.getElem?_map]
  cases (cellsOf l F)[i]? <;> rfl

theorem documentOf_next (l : Label) (F : Forest Label) :
    (documentOf l F).next = fun i => ((cellsOf l F)[i]?).bind Forest.Cell.next := by
  funext i
  rw [Document.next, documentOf_nodes, List.getElem?_map]
  cases (cellsOf l F)[i]? <;> rfl

theorem documentOf_length (l : Label) (F : Forest Label) :
    (documentOf l F).nodes.length = F.size + 1 := by
  rw [documentOf, length_layout, Forest.size, Forest.size]

theorem document_tree (l : Label) (F : Forest Label) :
    Forest.IsTree (documentOf l F).first (documentOf l F).next (documentOf l F).root
      (documentOf l F).nodes.length := by
  rw [documentOf_length, documentOf_first, documentOf_next]
  have h := cellsOf_heldAt l F
  rw [place] at h
  have htree := h.isTree
  rw [size_place] at htree
  exact htree

theorem document_strings {F : Forest Label} (h : Fits 0 1 (.cons l F .nil)) :
    (documentOf l F).StringsApart := by
  have hoffsets : ((documentOf l F).offsets).Perm (starts 1 (allStrings (.cons l F .nil))) := by
    have hflat : (documentOf l F).offsets =
        ((cellsOf l F).map Forest.Cell.value).flatMap fun n => n.keyOff.toList ++ n.stringOff.toList := by
      rw [Document.offsets, documentOf_nodes, List.flatMap_map, List.flatMap_map]
      rfl
    rw [hflat, ← place_offsets]
    exact (Forest.postorder_values_perm _ 0).flatMap_right _
  have hpool : (documentOf l F).strings = [0] ++ (slots (allStrings (.cons l F .nil)) ++ []) := by
    rw [List.append_nil]
    rfl
  have hlen : (documentOf l F).strings.length = 1 + (slots (allStrings (.cons l F .nil))).length := by
    rw [hpool, List.append_nil, List.length_append, List.length_singleton]
  obtain ⟨hspec, hpair⟩ := starts_spec hpool rfl
  refine ⟨hlen ▸ h.strings, fun off hoff => ?_, ?_⟩
  · obtain ⟨-, hle, hzero⟩ := hspec off (hoffsets.mem_iff.1 hoff)
    exact ⟨by rw [hlen]; exact hle, hzero⟩
  · refine (hoffsets.pairwise_iff fun hab => Or.symm hab).2 (hpair.imp fun hab => .inl hab)

/-! ## Reading back -/

theorem nodeEntry_node (hpool : pool = pre ++ (slots l.strings ++ rest)) (hoff : pre.length = off) :
    nodeEntry pool (l.node off) = l.entry stored := by
  have hkey : ∀ items more, l.strings = items :: more → cString pool off = untilNul (stored items) := by
    intro items more hl
    have hhere : pool = pre ++ (stored items ++ 0 :: (slots more ++ rest)) := by
      rw [hpool, hl, slots_cons]
      simp
    exact cString_at hhere hoff
  obtain ⟨key, kind⟩ := l
  cases key with
  | none =>
    cases kind with
    | string items =>
      have h := hkey items [] rfl
      simp [nodeEntry, Label.node, Label.entry, Kind.type, h]
    | null | bool b | number n | array | object => rfl
  | some items =>
    have h := hkey items _ rfl
    cases kind with
    | string value =>
      have hvalue : cString pool (off + (slots [items]).length) = untilNul (stored value) := by
        have hhere : pool = (pre ++ slots [items]) ++ (stored value ++ 0 :: rest) := by
          rw [hpool]
          simp [Label.strings, slots_cons]
        exact cString_at hhere (by rw [List.length_append, hoff])
      simp [nodeEntry, Label.node, Label.entry, Kind.type, h, hvalue]
    | null | bool b | number n | array | object => simp [nodeEntry, Label.node, Label.entry, Kind.type, h]

theorem map_place {F : Forest Label}
    (hpool : pool = pre ++ (slots (allStrings F) ++ rest)) (hoff : pre.length = off) :
    (place off F).map (nodeEntry pool) = F.map (Label.entry stored) := by
  induction F generalizing pre rest off with
  | nil => rfl
  | cons l F G ihF ihG =>
    simp only [allStrings_cons, slots_append, List.append_assoc] at hpool
    have hpoolF : pool = (pre ++ slots l.strings) ++
        (slots (allStrings F) ++ (slots (allStrings G) ++ rest)) := by
      rw [hpool, List.append_assoc]
    have hpoolG : pool = (pre ++ slots l.strings ++ slots (allStrings F)) ++
        (slots (allStrings G) ++ rest) := by
      rw [hpool, List.append_assoc, List.append_assoc]
    have hF := ihF hpoolF (by rw [List.length_append, hoff])
    have hG := ihG hpoolG (by rw [List.length_append, List.length_append, hoff])
    rw [place, Forest.map, Forest.map, hF, hG, nodeEntry_node hpool hoff]

theorem readBack_eq (l : Label) (F : Forest Label) :
    (documentOf l F).readBack = some ((Forest.cons l F .nil).map fun x => some (x.entry stored)) := by
  have hheld := cellsOf_heldAt l F
  have hlinked := hheld.linked
  rw [head_place, Forest.head, Nat.zero_add, ← documentOf_first, ← documentOf_next] at hlinked
  have hfuel : ((place 1 (.cons l F .nil)).places 0).size < (documentOf l F).nodes.length + 1 := by
    rw [Forest.size_places, size_place, documentOf_length, Forest.size, Forest.size]
    omega
  have hpool : (documentOf l F).strings = [0] ++ (slots (allStrings (.cons l F .nil)) ++ []) := by
    rw [List.append_nil]
    rfl
  have hentry : (fun i : Nat => ((documentOf l F).nodes[i]?).map (nodeEntry (documentOf l F).strings)) =
      fun i : Nat => (((cellsOf l F)[i]?).map Forest.Cell.value).map (nodeEntry (documentOf l F).strings) := by
    funext i
    rw [documentOf_nodes, List.getElem?_map]
    cases (cellsOf l F)[i]? with
    | none => rfl
    | some c => rfl
  rw [Document.readBack, show (documentOf l F).root = F.size from rfl, Forest.walk_of_linked hlinked hfuel,
    Option.map_some, hentry]
  have hvalues := congrArg (Forest.map (Option.map (nodeEntry (documentOf l F).strings))) hheld.map_places
  have hplaced := congrArg (Forest.map some) (map_place hpool (show [(0 : UInt8)].length = 1 from rfl))
  rw [Forest.map_map, Forest.map_map] at hvalues
  rw [Forest.map_map, Forest.map_map] at hplaced
  exact congrArg some (hvalues.trans hplaced)

/-! ## What the text denotes -/

theorem entry_keeps (h : ∀ items ∈ l.strings, swallows items = false)
    (hwf : ∀ items ∈ l.strings, ∀ i ∈ items, i.Wf) : l.entry stored = l.entry decode := by
  have hsame : ∀ items ∈ l.strings, stored items = decode items := fun items hi => by
    have hk := keeps_stored (hwf items hi)
    rw [h items hi] at hk
    exact hk
  obtain ⟨key, kind⟩ := l
  have hkey : key.map (fun items => untilNul (stored items)) = key.map fun items => untilNul (decode items) := by
    cases key with
    | none => rfl
    | some items => rw [Option.map_some, Option.map_some, hsame items (by simp [Label.strings])]
  have hvalue : ∀ items, kind = .string items → stored items = decode items := fun items hk =>
    hsame items (by simp [Label.strings, hk])
  rw [Label.entry, Label.entry, hkey]
  cases kind with
  | string items => simp only [hvalue items rfl]
  | null | bool b | number n | array | object => rfl

theorem untilNul_eq_self (h : (0 : UInt8) ∉ s) : untilNul s = s :=
  List.takeWhile_eq_self_iff.2 fun _ hc => decide_eq_true fun h0 => h (h0 ▸ hc)

/-- A string without NULs that loses an escape is not what it denotes. -/
theorem swallows_eq_false {items : List Item} (hwf : ∀ i ∈ items, i.Wf) (hnul : ∀ i ∈ items, i.isNul = false)
    (h : untilNul (stored items) = untilNul (decode items)) : swallows items = false := by
  cases hs : swallows items with
  | false => rfl
  | true =>
    have hk := keeps_stored hwf
    rw [hs] at hk
    have hlt : (stored items).length < (decode items).length := hk
    have hle := length_untilNul_le (stored items)
    rw [h, untilNul_eq_self (decode_nonzero hwf hnul)] at hle
    omega

theorem entry_loses (h : l.entry stored = l.entry decode)
    (hwf : ∀ items ∈ l.strings, ∀ i ∈ items, i.Wf)
    (hnul : ∀ items ∈ l.strings, ∀ i ∈ items, i.isNul = false) :
    ∀ items ∈ l.strings, swallows items = false := by
  obtain ⟨key, kind⟩ := l
  intro items hi
  have hor : key = some items ∨ kind = .string items := by
    simp only [Label.strings, List.mem_append, Option.mem_toList] at hi
    rcases hi with hi | hi
    · exact .inl hi
    · cases kind with
      | string value => exact .inr (by simpa using (List.mem_singleton.1 hi).symm)
      | null | bool b | number n | array | object => cases hi
  refine swallows_eq_false (hwf items hi) (hnul items hi) ?_
  rcases hor with rfl | rfl
  · exact Option.some.inj (congrArg Entry.key h)
  · have hvalue := congrArg Entry.value h
    simpa [Label.entry] using hvalue

/-- Every accepted text leaves a tree of nodes and strings that lie apart.  Reading back gives what the
text denotes when no escape is dropped, and only then for texts without a `\u0000`. -/
theorem faithful_iff_paired {text : List UInt8} {d : Document} (h : owjsonParse text = some d) :
    (Forest.IsTree d.first d.next d.root d.nodes.length ∧ d.StringsApart) ∧
      (Paired text → Faithful text d) ∧ (NulFree text → (Faithful text d ↔ Paired text)) := by
  obtain ⟨k, F, hreads, -, hfits, rfl⟩ := owjsonParse_iff.1 h
  have htree := document_tree ⟨none, k⟩ F
  have hstrings := document_strings hfits
  have hwf : ∀ l ∈ (Forest.cons (⟨none, k⟩ : Label) F .nil).toList, ∀ items ∈ l.strings, ∀ i ∈ items, i.Wf := by
    obtain ⟨u, s, w, -, -, -, hd⟩ := id hreads
    exact fun l hl items hi => hd.wf items (List.mem_flatMap.2 ⟨l, hl, hi⟩)
  have hsuff : Paired text → Faithful text (documentOf ⟨none, k⟩ F) := by
    intro hp
    refine ⟨htree, hstrings, _, hreads, ?_⟩
    rw [readBack_eq, Forest.map_congr fun l hl => ?_]
    rw [entry_keeps (fun items hi => hp _ hreads items (List.mem_flatMap.2 ⟨l, hl, hi⟩)) (hwf l hl)]
  refine ⟨⟨htree, hstrings⟩, hsuff, fun hnul => ⟨?_, hsuff⟩⟩
  rintro ⟨-, -, G, hG, hback⟩ G' hG' items hi
  rw [hG'.unique hreads] at hi
  rw [hG.unique hreads, readBack_eq, Option.some.injEq] at hback
  obtain ⟨l, hl, hil⟩ := List.mem_flatMap.1 hi
  have hentry := Option.some.inj (Forest.eq_of_map_eq hback hl)
  exact entry_loses hentry (hwf l hl) (fun x hx => hnul _ hreads x (List.mem_flatMap.2 ⟨l, hl, hx⟩)) items hil

/-- The text `{"k":["\ud83d\ude00",1]}`. -/
def nested : List UInt8 :=
  [0x7B, 0x22, 0x6B, 0x22, 0x3A, 0x5B, 0x22, 0x5C, 0x75, 0x64, 0x38, 0x33, 0x64, 0x5C, 0x75, 0x64,
    0x65, 0x30, 0x30, 0x22, 0x2C, 0x31, 0x5D, 0x7D]

theorem faithful_iff_paired_nested : ∃ d, owjsonParse nested = some d ∧
    d.strings = [0, 0x6B, 0, 0xF0, 0x9F, 0x98, 0x80, 0] ∧ Faithful nested d := by
  have hscan : (scanText 4 nested).map (fun F => (allStrings F).map swallows) =
      some [false, false] := by decide
  obtain ⟨F, hF, hstrings⟩ := Option.map_eq_some_iff.1 hscan
  have hpaired : Paired nested := by
    intro G hG items hi
    rw [hG.unique (scanText_eq_some.1 hF).1] at hi
    have hmem := List.mem_map_of_mem (f := swallows) hi
    rw [hstrings] at hmem
    simpa using hmem
  have hparse : (owjsonParse nested).map Document.strings =
      some [0, 0x6B, 0, 0xF0, 0x9F, 0x98, 0x80, 0] := by decide
  obtain ⟨d, hd, hpool⟩ := Option.map_eq_some_iff.1 hparse
  exact ⟨d, hd, hpool, (faithful_iff_paired hd).2.1 hpaired⟩

/-- The text `"\ud800\u0041"`: the letter is dropped with the high surrogate in front of it. -/
theorem letter_dropped : ∃ d,
    owjsonParse [0x22, 0x5C, 0x75, 0x64, 0x38, 0x30, 0x30, 0x5C, 0x75, 0x30, 0x30, 0x34, 0x31, 0x22] = some d ∧
      ¬ Faithful [0x22, 0x5C, 0x75, 0x64, 0x38, 0x30, 0x30, 0x5C, 0x75, 0x30, 0x30, 0x34, 0x31, 0x22] d := by
  refine ⟨⟨[{ type := .string, stringOff := some 1 }], [0, 0xEF, 0xBF, 0xBD, 0], 0⟩, by decide, ?_⟩
  rintro ⟨-, -, F, hreads, hback⟩
  have hscan : scanText 1
      [0x22, 0x5C, 0x75, 0x64, 0x38, 0x30, 0x30, 0x5C, 0x75, 0x30, 0x30, 0x34, 0x31, 0x22] =
      some (.leaf ⟨none, .string [.unicode 0x64 0x38 0x30 0x30, .unicode 0x30 0x30 0x34 0x31]⟩) := by decide
  rw [hreads.unique (scanText_eq_some.1 hscan).1] at hback
  exact absurd hback (by decide)

end Owjson
