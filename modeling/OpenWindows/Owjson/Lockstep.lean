import OpenWindows.Owjson.Strings

/-!
# The parser and its scan

`parseValue` succeeds where `scanValue` does and the reading fits, and it leaves the pools
of `Layout` (`parseValue_iff`).  The loops link each value to the one before it.  `joined`
says what a loop leaves when the chain it continues ends in `tail`.
-/

namespace Owjson

/-! ## Links -/

variable {i : Nat} {k : Kind} {p q : Parser}

theorem modify_append_left {α : Type} (f : α → α) {l : List α} (h : i < l.length) (m : List α) :
    (l ++ m).modify i f = l.modify i f ++ m := by
  induction l generalizing i with
  | nil => cases h
  | cons a l ih =>
    cases i with
    | zero => rfl
    | succ i =>
      rw [List.cons_append, List.modify_succ_cons, List.modify_succ_cons, List.cons_append,
        ih (Nat.lt_of_succ_lt_succ h)]

theorem modify_append_length {α : Type} (f : α → α) (l : List α) (a : α) (m : List α) :
    (l ++ a :: m).modify l.length f = l ++ f a :: m := by
  induction l with
  | nil => rfl
  | cons b l ih => rw [List.cons_append, List.length_cons, List.modify_succ_cons, ih, List.cons_append]

theorem chain_append {nodes : List Node} {tail : Option Nat} (h : ∀ i ∈ tail, i < nodes.length)
    (more : List Node) (val : Nat) : chain (nodes ++ more) tail val = chain nodes tail val ++ more := by
  cases tail with
  | none => rfl
  | some i => exact modify_append_left _ (h i rfl) more

@[simp]
theorem length_chain (nodes : List Node) (tail : Option Nat) (val : Nat) :
    (chain nodes tail val).length = nodes.length := by
  cases tail with
  | none => rfl
  | some i => exact List.length_modify _ _ _

/-- The chain that ends in `tail` goes on with `head`, if there is one. -/
def linkTo (nodes : List Node) (tail head : Option Nat) : List Node :=
  match head with
  | none => nodes
  | some val => chain nodes tail val

/-- What a loop leaves after the values of `G`, when it continues a chain that ends in `tail`. -/
def joined (p : Parser) (tail : Option Nat) (G : Forest Label) (t : List UInt8) : Parser where
  rest := t
  nodes := linkTo p.nodes tail (G.head p.nodes.length) ++ layout p.nodes.length p.strings.length G
  strings := p.strings ++ slots (allStrings G)

theorem joined_none (p : Parser) (G : Forest Label) (t : List UInt8) : joined p none G t = grow p G t := by
  cases G with
  | nil => rfl
  | cons l F G => rfl

theorem modify_layout (f : Node → Node) (nodes : List Node) (off : Nat) (l : Label) (F : Forest Label) :
    (nodes ++ layout nodes.length off (.cons l F .nil)).modify (nodes.length + F.size) f =
      nodes ++ (layout nodes.length (off + (slots l.strings).length) F ++
        [f { l.node off with firstChild := F.head nodes.length, next := none }]) := by
  have hlen : (nodes ++ layout nodes.length (off + (slots l.strings).length) F).length =
      nodes.length + F.size := by
    rw [List.length_append, length_layout]
  rw [layout_cons, ← List.append_assoc, ← hlen, modify_append_length, List.append_assoc]
  rfl

/-- One value and the values after it. -/
theorem joined_cons (p : Parser) {tail : Option Nat} (htail : ∀ i ∈ tail, i < p.nodes.length) (l : Label)
    (F G : Forest Label) (t r u : List UInt8) :
    joined ⟨r, chain (grow p (.cons l F .nil) t).nodes tail (p.nodes.length + F.size),
      (grow p (.cons l F .nil) t).strings⟩ (some (p.nodes.length + F.size)) G u =
      joined p tail (.cons l F G) u := by
  have hstrings : slots (allStrings (.cons l F .nil)) ++ slots (allStrings G) =
      slots (allStrings (.cons l F G)) := by
    simp only [allStrings_cons, allStrings_nil, List.append_nil, slots_append, List.append_assoc]
  have hlen : (chain p.nodes tail (p.nodes.length + F.size)).length = p.nodes.length := length_chain _ _ _
  have hoff : (p.strings ++ slots (allStrings (.cons l F .nil))).length =
      p.strings.length + (slots l.strings).length + (slots (allStrings F)).length := by
    simp only [allStrings_cons, allStrings_nil, List.append_nil, slots_append, List.length_append]
    omega
  have hbase : (chain p.nodes tail (p.nodes.length + F.size) ++
      layout p.nodes.length p.strings.length (.cons l F .nil)).length = p.nodes.length + F.size + 1 := by
    simp only [List.length_append, length_chain, length_layout, Forest.size]
    omega
  have hlink : ∀ x, linkTo (chain p.nodes tail (p.nodes.length + F.size) ++
      layout p.nodes.length p.strings.length (.cons l F .nil)) (some (p.nodes.length + F.size)) x =
      chain p.nodes tail (p.nodes.length + F.size) ++
        (layout p.nodes.length (p.strings.length + (slots l.strings).length) F ++
          [{ l.node p.strings.length with firstChild := F.head p.nodes.length, next := x }]) := by
    intro x
    cases x with
    | none =>
      rw [linkTo, layout_cons]
      rfl
    | some v =>
      have h := modify_layout (fun n => { n with next := some v })
        (chain p.nodes tail (p.nodes.length + F.size)) p.strings.length l F
      rw [hlen] at h
      exact h
  simp only [joined, grow, chain_append htail, hbase, hoff, hlink, List.append_assoc, hstrings]
  rw [layout_cons, Forest.head, linkTo]
  simp only [List.singleton_append]

theorem grow_member (p : Parser) (key : List Item) (k : Kind) (F : Forest Label) (r t : List UInt8) :
    let q := grow { p with rest := r, strings := p.strings ++ slots [key] } (.cons ⟨none, k⟩ F .nil) t
    let m := grow p (.cons ⟨some key, k⟩ F .nil) t
    setKey q.nodes (p.nodes.length + F.size) p.strings.length = m.nodes ∧ q.strings = m.strings := by
  have hstrings : Label.strings ⟨some key, k⟩ = [key] ++ Label.strings ⟨none, k⟩ := rfl
  have hoff : (p.strings ++ slots [key]).length + (slots (Label.strings ⟨none, k⟩)).length =
      p.strings.length + (slots (Label.strings ⟨some key, k⟩)).length := by
    rw [hstrings, slots_append, List.length_append, List.length_append, Nat.add_assoc]
  have hnode : ({ Label.node ⟨none, k⟩ (p.strings ++ slots [key]).length with
      keyOff := some p.strings.length } : Node) = Label.node ⟨some key, k⟩ p.strings.length := by
    cases k <;> simp [Label.node]
  refine ⟨?_, ?_⟩
  · refine (modify_layout _ p.nodes _ ⟨none, k⟩ F).trans ?_
    rw [hoff]
    simp only [grow, layout_cons, ← hnode]
    rfl
  · simp only [grow, allStrings_cons, hstrings, slots_append, List.append_assoc]

theorem grow_container (p : Parser) (hk : k.isContainer = true) (F : Forest Label)
    (t : List UInt8) :
    { grow p F t with nodes := (grow p F t).nodes ++
      [{ type := k.type, firstChild := F.head p.nodes.length }] } = grow p (.cons ⟨none, k⟩ F .nil) t := by
  have hstrings : Label.strings ⟨none, k⟩ = [] := by
    cases k with
    | array | object => rfl
    | null | bool _ | number _ | string _ => cases hk
  have hnode : ∀ off, Label.node ⟨none, k⟩ off = { type := k.type } := by
    intro off
    cases k with
    | array | object => rfl
    | null | bool _ | number _ | string _ => cases hk
  have hnil : ∀ base off, layout base off .nil = [] := fun _ _ => rfl
  simp only [grow, layout_cons, allStrings_cons, allStrings_nil, hstrings, hnode, hnil, slots_nil,
    List.nil_append, List.append_nil, List.length_nil, Nat.add_zero, List.append_assoc]
  rfl

/-! ## The loops -/

theorem alloc_iff {n : Node} : alloc p n = some (q, i) ↔
    p.nodes.length < maxNodes ∧ q = { p with nodes := p.nodes ++ [n] } ∧ i = p.nodes.length := by
  rw [alloc]
  split
  · next h => simp [Nat.not_lt.2 h]
  · next h => simp [Nat.lt_of_not_le h, eq_comm]

def Agrees (value : Parser → Option (Parser × Nat)) (scan : List UInt8 → Option Scanned) : Prop :=
  ∀ p q i, p.strings.length ≤ stringPool → (value p = some (q, i) ↔
    ∃ k F t, scan p.rest = some (k, F, t) ∧
      Fits p.nodes.length p.strings.length (.cons ⟨none, k⟩ F .nil) ∧
      q = grow p (.cons ⟨none, k⟩ F .nil) t ∧ i = p.nodes.length + F.size)

theorem orElse_some (head : Option Nat) (val : Nat) (x : Option Nat) :
    ((head <|> some val) <|> x) = (head <|> some val) := by
  cases head <;> rfl

/-- The parser when a value has joined the chain, in front of the text `r`. -/
def joinedOne (p : Parser) (tail : Option Nat) (l : Label) (F : Forest Label) (r : List UInt8) : Parser where
  rest := r
  nodes := chain (p.nodes ++ layout p.nodes.length p.strings.length (.cons l F .nil)) tail
    (p.nodes.length + F.size)
  strings := p.strings ++ slots (allStrings (.cons l F .nil))

section JoinedOne

variable {p : Parser} {tail : Option Nat} {l : Label} {F : Forest Label} {r : List UInt8}

theorem joinedOne_nodes : (joinedOne p tail l F r).nodes.length = p.nodes.length + (F.size + 1) := by
  simp only [joinedOne, length_chain, List.length_append, length_layout, Forest.size, Nat.add_zero]

theorem joinedOne_strings : (joinedOne p tail l F r).strings.length =
    p.strings.length + (slots (l.strings ++ allStrings F)).length := by
  simp only [joinedOne, allStrings_cons, allStrings_nil, List.append_nil, List.length_append]

theorem joinedOne_fits {G : Forest Label}
    (h : Fits p.nodes.length p.strings.length (.cons l F .nil)) :
    Fits (joinedOne p tail l F r).nodes.length (joinedOne p tail l F r).strings.length G ↔
      Fits p.nodes.length p.strings.length (.cons l F G) := by
  rw [joinedOne_nodes, joinedOne_strings, fits_cons (G := G)]
  exact (and_iff_right h).symm

theorem joinedOne_room (h : Fits p.nodes.length p.strings.length (.cons l F .nil)) :
    (joinedOne p tail l F r).strings.length ≤ stringPool := by
  have hs := h.strings
  rwa [joinedOne, List.length_append]

theorem joinedOne_tail : ∀ i ∈ some (p.nodes.length + F.size), i < (joinedOne p tail l F r).nodes.length := by
  intro i hi
  cases hi
  rw [joinedOne_nodes]
  omega

theorem joined_joinedOne (htail : ∀ i ∈ tail, i < p.nodes.length) (G : Forest Label) (u : List UInt8) :
    joined (joinedOne p tail l F r) (some (p.nodes.length + F.size)) G u = joined p tail (.cons l F G) u :=
  joined_cons p htail l F G r r u

theorem joinedOne_close (htail : ∀ i ∈ tail, i < p.nodes.length) :
    joinedOne p tail l F r = joined p tail (.cons l F .nil) r := by
  rw [← joined_joinedOne (r := r) htail .nil r, joined]
  simp [joinedOne, linkTo, Forest.head, layout, place, Forest.postorder]

end JoinedOne

/-- What a loop does behind an item agrees with the scan, if the loop does from there on. -/
theorem afterItem_iff (head : Option Nat) {tail h : Option Nat} {l : Label} {F : Forest Label}
    {t r : List UInt8} {c : UInt8} {x : Option (Parser × Option Nat)}
    {y : Option (Forest Label × List UInt8)} (htail : ∀ i ∈ tail, i < p.nodes.length)
    (hnext : Fits p.nodes.length p.strings.length (.cons l F .nil) → (x = some (q, h) ↔
      ∃ G u, y = some (G, u) ∧
        Fits (joinedOne p tail l F r).nodes.length (joinedOne p tail l F r).strings.length G ∧
        q = joined (joinedOne p tail l F r) (some (p.nodes.length + F.size)) G u ∧
        h = ((head <|> some (p.nodes.length + F.size)) <|>
          G.head (joinedOne p tail l F r).nodes.length))) :
    (Fits p.nodes.length p.strings.length (.cons l F .nil) ∧
      (if peek t = some 0x2C then x
      else if peek t = some c then
        some (joinedOne p tail l F t.tail, head <|> some (p.nodes.length + F.size))
      else none) = some (q, h)) ↔
    ∃ G u, (if peek t = some 0x2C then y.bind fun z => some (.cons l F z.1, z.2)
      else if peek t = some c then some (.cons l F .nil, t.tail) else none) = some (G, u) ∧
      Fits p.nodes.length p.strings.length G ∧ q = joined p tail G u ∧
      h = (head <|> G.head p.nodes.length) := by
  by_cases hcomma : peek t = some 0x2C
  · simp only [if_pos hcomma]
    constructor
    · rintro ⟨hfit, hx⟩
      obtain ⟨G, u, rfl, hfitG, rfl, rfl⟩ := (hnext hfit).1 hx
      exact ⟨.cons l F G, u, rfl, (joinedOne_fits hfit).1 hfitG, joined_joinedOne htail G u,
        orElse_some head _ _⟩
    · rintro ⟨_, _, hbind, hfitG, rfl, rfl⟩
      obtain ⟨⟨G, u⟩, hy, heq⟩ := Option.bind_eq_some_iff.1 hbind
      cases heq
      have hfit := (fits_cons.1 hfitG).1
      exact ⟨hfit, (hnext hfit).2 ⟨G, u, hy, (joinedOne_fits hfit).2 hfitG,
        (joined_joinedOne htail G u).symm, (orElse_some head _ _).symm⟩⟩
  · by_cases hclose : peek t = some c
    · simp only [if_neg hcomma, if_pos hclose, joinedOne_close htail]
      constructor
      · rintro ⟨hfit, h⟩
        cases h
        exact ⟨_, _, rfl, hfit, rfl, rfl⟩
      · rintro ⟨G, u, h, hfit, rfl, rfl⟩
        cases h
        exact ⟨hfit, rfl⟩
    · simp [if_neg hcomma, if_neg hclose]

theorem arrayLoop_iff {value : Parser → Option (Parser × Nat)} {scan : List UInt8 → Option Scanned}
    (hvalue : Agrees value scan) {fuel : Nat} {p q : Parser} {head tail h : Option Nat}
    (hp : p.strings.length ≤ stringPool) (htail : ∀ i ∈ tail, i < p.nodes.length) :
    arrayLoop value fuel p head tail = some (q, h) ↔
      ∃ G t, scanElements scan fuel p.rest = some (G, t) ∧
        Fits p.nodes.length p.strings.length G ∧ q = joined p tail G t ∧
        h = (head <|> G.head p.nodes.length) := by
  induction fuel generalizing p head tail with
  | zero => simp [arrayLoop, scanElements]
  | succ fuel ih =>
    rw [arrayLoop, scanElements]
    simp only [Option.bind_eq_bind, Option.bind_eq_some_iff, Prod.exists]
    have hitem := fun k F t => afterItem_iff head (q := q) (h := h) (t := t) (c := 0x5D) htail
      fun hfit => ih (p := joinedOne p tail ⟨none, k⟩ F (skipWs t.tail)) (joinedOne_room hfit) joinedOne_tail
    constructor
    · rintro ⟨p', val, hv, h⟩
      obtain ⟨k, F, t, hs, hfit, rfl, rfl⟩ := (hvalue p p' val hp).1 hv
      obtain ⟨G, u, hG, hrest⟩ := (hitem k F _).1 ⟨hfit, h⟩
      exact ⟨G, u, ⟨k, F, t, hs, hG⟩, hrest⟩
    · rintro ⟨G, u, ⟨k, F, t, hs, hG⟩, hrest⟩
      obtain ⟨hfit, h⟩ := (hitem k F _).2 ⟨G, u, hG, hrest⟩
      exact ⟨_, _, (hvalue p _ _ hp).2 ⟨k, F, t, hs, hfit, rfl, rfl⟩, h⟩

theorem joinedOne_member (p : Parser) (tail : Option Nat) (key : List Item) (k : Kind) (F : Forest Label)
    (r r' t : List UInt8) :
    let q := grow { p with rest := r, strings := p.strings ++ slots [key] } (.cons ⟨none, k⟩ F .nil) t
    (⟨r', chain (setKey q.nodes (p.nodes.length + F.size) p.strings.length) tail (p.nodes.length + F.size),
      q.strings⟩ : Parser) = joinedOne p tail ⟨some key, k⟩ F r' := by
  obtain ⟨hnodes, hstrings⟩ := grow_member p key k F r t
  dsimp only
  rw [hnodes, hstrings]
  rfl

def scanMember (scan : List UInt8 → Option Scanned) (s : List UInt8) : Option (List Item × Scanned) := do
  let (key, t) ← scanString (skipWs s)
  if peek (skipWs t) ≠ some 0x3A then none
  else do
    let (k, F, t) ← scan (skipWs t).tail
    some (key, k, F, t)

theorem scanMembers_succ (scan : List UInt8 → Option Scanned) (fuel : Nat) (s : List UInt8) :
    scanMembers scan (fuel + 1) s = (scanMember scan s).bind fun x =>
      if peek (skipWs x.2.2.2) = some 0x2C then
        (scanMembers scan fuel (skipWs x.2.2.2).tail).bind fun y =>
          some (.cons ⟨some x.1, x.2.1⟩ x.2.2.1 y.1, y.2)
      else if peek (skipWs x.2.2.2) = some 0x7D then
        some (.cons ⟨some x.1, x.2.1⟩ x.2.2.1 .nil, (skipWs x.2.2.2).tail)
      else none := by
  rw [scanMembers, scanMember]
  cases scanString (skipWs s) with
  | none => rfl
  | some x =>
    simp only [Option.bind_eq_bind, Option.bind_some]
    split
    · rfl
    · simp only [Option.bind_assoc, Option.bind_some]

def parseMember (value : Parser → Option (Parser × Nat)) (p : Parser) : Option (Parser × Nat × Nat) := do
  let (p, key) ← parseString { p with rest := skipWs p.rest }
  if peek (skipWs p.rest) ≠ some 0x3A then none
  else do
    let (p, val) ← value { p with rest := (skipWs p.rest).tail }
    some (p, val, key)

theorem objectLoop_succ (value : Parser → Option (Parser × Nat)) (fuel : Nat) (p : Parser)
    (head tail : Option Nat) :
    objectLoop value (fuel + 1) p head tail = (parseMember value p).bind fun x =>
      let q : Parser := ⟨skipWs x.1.rest, chain (setKey x.1.nodes x.2.1 x.2.2) tail x.2.1, x.1.strings⟩
      if peek q.rest = some 0x2C then
        objectLoop value fuel { q with rest := q.rest.tail } (head <|> some x.2.1) (some x.2.1)
      else if peek q.rest = some 0x7D then some ({ q with rest := q.rest.tail }, head <|> some x.2.1)
      else none := by
  rw [objectLoop, parseMember]
  cases parseString { p with rest := skipWs p.rest } with
  | none => rfl
  | some x =>
    simp only [Option.bind_eq_bind, Option.bind_some]
    split
    · rfl
    · simp only [Option.bind_assoc, Option.bind_some]

theorem parseMember_iff {value : Parser → Option (Parser × Nat)} {scan : List UInt8 → Option Scanned}
    (hvalue : Agrees value scan) {p q : Parser} {val off : Nat} :
    parseMember value p = some (q, val, off) ↔ ∃ key k F t r, scanMember scan p.rest = some (key, k, F, t) ∧
      Fits p.nodes.length p.strings.length (.cons ⟨some key, k⟩ F .nil) ∧
      q = grow { p with rest := r, strings := p.strings ++ slots [key] } (.cons ⟨none, k⟩ F .nil) t ∧
      val = p.nodes.length + F.size ∧ off = p.strings.length := by
  have hlen : ∀ key, (p.strings ++ slots [key]).length = p.strings.length + ((stored key).length + 1) :=
    fun key => by simp [slots_cons]
  rw [parseMember, scanMember]
  simp only [Option.bind_eq_bind, Option.bind_eq_some_iff, Prod.exists, fits_member]
  constructor
  · rintro ⟨p', key', hkey, h⟩
    obtain ⟨key, t, hs, hread, hroom, rfl, rfl⟩ := parseString_iff.1 hkey
    split at h
    · cases h
    · next hcolon =>
      obtain ⟨⟨q', val'⟩, hv, heq⟩ := Option.bind_eq_some_iff.1 h
      cases heq
      obtain ⟨k, F, t', hscan, hfit, rfl, rfl⟩ := (hvalue _ _ _ (by
        rw [List.length_append]
        exact hroom)).1 hv
      refine ⟨key, k, F, t', _, ⟨key, t, hs, ?_⟩, ⟨hread, hlen key ▸ hfit⟩, rfl, rfl, rfl⟩
      rw [if_neg (show ¬ peek (skipWs t) ≠ some 0x3A from hcolon)]
      exact Option.bind_eq_some_iff.2 ⟨(k, F, t'), hscan, rfl⟩
  · rintro ⟨key, k, F, t', r, ⟨key', t, hs, h⟩, ⟨hread, hfit⟩, rfl, rfl, rfl⟩
    split at h
    · cases h
    · next hcolon =>
      obtain ⟨⟨k', F', t''⟩, hscan, heq⟩ := Option.bind_eq_some_iff.1 h
      cases heq
      have hroom : p.strings.length + (slots [key]).length ≤ stringPool := by
        have hs' := hfit.strings
        rw [← hlen, List.length_append] at hs'
        omega
      refine ⟨_, _, parseString_iff.2 ⟨key, t, hs, hread, hroom, rfl, rfl⟩, ?_⟩
      rw [if_neg hcolon]
      refine Option.bind_eq_some_iff.2 ⟨(_, _), (hvalue _ _ _ (by
        rw [List.length_append]
        exact hroom)).2 ⟨k', F', t'', hscan, (hlen key).symm ▸ hfit, rfl, rfl⟩, rfl⟩

theorem objectLoop_iff {value : Parser → Option (Parser × Nat)} {scan : List UInt8 → Option Scanned}
    (hvalue : Agrees value scan) {fuel : Nat} {p q : Parser} {head tail h : Option Nat}
    (htail : ∀ i ∈ tail, i < p.nodes.length) :
    objectLoop value fuel p head tail = some (q, h) ↔
      ∃ G t, scanMembers scan fuel p.rest = some (G, t) ∧
        Fits p.nodes.length p.strings.length G ∧ q = joined p tail G t ∧
        h = (head <|> G.head p.nodes.length) := by
  induction fuel generalizing p head tail with
  | zero => simp [objectLoop, scanMembers]
  | succ fuel ih =>
    rw [objectLoop_succ, scanMembers_succ]
    simp only [Option.bind_eq_some_iff, Prod.exists]
    have hitem := fun key k F t => afterItem_iff head (q := q) (h := h) (t := t) (c := 0x7D) htail
      fun _ => ih (p := joinedOne p tail ⟨some key, k⟩ F t.tail) joinedOne_tail
    constructor
    · rintro ⟨p', val, off, hm, h⟩
      obtain ⟨key, k, F, t, r, hs, hfit, rfl, rfl, rfl⟩ := (parseMember_iff hvalue).1 hm
      have hjoin := fun r' => joinedOne_member p tail key k F r r' t
      dsimp only at hjoin h
      rw [hjoin] at h
      obtain ⟨G, u, hG, hrest⟩ := (hitem key k F _).1 ⟨hfit, h⟩
      exact ⟨G, u, ⟨key, k, F, t, hs, hG⟩, hrest⟩
    · rintro ⟨G, u, ⟨key, k, F, t, hs, hG⟩, hrest⟩
      have hjoin := fun r' => joinedOne_member p tail key k F [] r' t
      obtain ⟨hfit, h⟩ := (hitem key k F _).2 ⟨G, u, hG, hrest⟩
      refine ⟨_, _, _, (parseMember_iff hvalue).2 ⟨key, k, F, t, [], hs, hfit, rfl, rfl, rfl⟩, ?_⟩
      dsimp only at hjoin ⊢
      rw [hjoin]
      exact h

/-! ## Values -/

theorem grow_empty (p : Parser) (hk : k.isContainer = true) (t : List UInt8) :
    grow p (.cons ⟨none, k⟩ .nil .nil) t = ⟨t, p.nodes ++ [{ type := k.type }], p.strings⟩ := by
  rw [← grow_container p hk .nil t]
  simp [grow, layout, place, Forest.postorder, Forest.head]

theorem fits_empty {n s : Nat} (hk : k.isContainer = true) (hs : s ≤ stringPool) :
    Fits n s (.cons ⟨none, k⟩ .nil .nil) ↔ n < maxNodes := by
  rw [fits_container hk]
  exact ⟨fun h => h.2, fun h => ⟨fits_nil (Nat.le_of_lt h) hs, h⟩⟩

variable {t : List UInt8}

theorem alloc_container {p p' q : Parser} (hk : k.isContainer = true) {F : Forest Label}
    (hp' : p'.nodes = p.nodes ∧ p'.strings = p.strings) :
    (Fits p.nodes.length p.strings.length F ∧
      alloc (grow p' F t) { type := k.type, firstChild := F.head p.nodes.length } = some (q, i)) ↔
    Fits p.nodes.length p.strings.length (.cons ⟨none, k⟩ F .nil) ∧
      q = grow p (.cons ⟨none, k⟩ F .nil) t ∧ i = p.nodes.length + F.size := by
  have hgrow : grow p' F t = grow p F t := by rw [grow, hp'.1, hp'.2, grow]
  have hlen : (grow p F t).nodes.length = p.nodes.length + F.size := by
    rw [grow, List.length_append, length_layout]
  rw [hgrow, alloc_iff, fits_container hk, hlen, grow_container p hk, and_assoc]

theorem container_iff (hk : k.isContainer = true) {close : UInt8}
    {loop : Nat → Parser → Option Nat → Option Nat → Option (Parser × Option Nat)}
    {scanLoop : Nat → List UInt8 → Option (Forest Label × List UInt8)}
    (hloop : ∀ fuel p q head, p.strings.length ≤ stringPool →
      (loop fuel p none none = some (q, head) ↔ ∃ G t, scanLoop fuel p.rest = some (G, t) ∧
        Fits p.nodes.length p.strings.length G ∧ q = grow p G t ∧ head = G.head p.nodes.length)) :
    Agrees
      (fun p =>
        let p := { p with rest := skipWs p.rest.tail }
        if peek p.rest = some close then alloc { p with rest := p.rest.tail } { type := k.type }
        else do
          let (p, head) ← loop p.rest.length p none none
          alloc p { type := k.type, firstChild := head })
      (fun text =>
        let s := skipWs text.tail
        if peek s = some close then some (k, .nil, s.tail)
        else do
          let (F, t) ← scanLoop s.length s
          some (k, F, t)) := by
  intro p q i hp
  by_cases hclose : peek (skipWs p.rest.tail) = some close
  · simp only [hclose, if_true, alloc_iff, Option.some.injEq, Prod.mk.injEq]
    constructor
    · rintro ⟨hroom, rfl, rfl⟩
      exact ⟨k, .nil, _, ⟨rfl, rfl, rfl⟩, (fits_empty hk hp).2 hroom, (grow_empty p hk _).symm, rfl⟩
    · rintro ⟨_, _, _, ⟨rfl, rfl, rfl⟩, hfit, rfl, rfl⟩
      exact ⟨(fits_empty hk hp).1 hfit, grow_empty p hk _, rfl⟩
  · simp only [hclose, if_false, Option.bind_eq_bind, Option.bind_eq_some_iff, Prod.exists,
      hloop _ { p with rest := skipWs p.rest.tail } _ _ hp]
    constructor
    · rintro ⟨p', head, ⟨G, t, hG, hfit, rfl, rfl⟩, halloc⟩
      obtain ⟨hfit', hq, hi⟩ := (alloc_container hk ⟨rfl, rfl⟩).1 ⟨hfit, halloc⟩
      exact ⟨k, G, t, ⟨G, t, hG, rfl⟩, hfit', hq, hi⟩
    · rintro ⟨_, G, t, ⟨G', t', hG, heq⟩, hfit, hq, hi⟩
      cases heq
      have hsame : ({ p with rest := skipWs p.rest.tail } : Parser).nodes = p.nodes ∧
          ({ p with rest := skipWs p.rest.tail } : Parser).strings = p.strings := ⟨rfl, rfl⟩
      obtain ⟨hfit', halloc⟩ := (alloc_container hk hsame).2 ⟨hfit, hq, hi⟩
      exact ⟨_, _, ⟨G, t, hG, hfit', rfl, rfl⟩, halloc⟩

section Value

variable {value : Parser → Option (Parser × Nat)} {scan : List UInt8 → Option Scanned}

theorem parseArray_iff (hvalue : Agrees value scan) : Agrees (parseArray value) (scanArray scan) := by
  refine container_iff (k := .array) rfl fun fuel p q head hp => ?_
  rw [arrayLoop_iff hvalue hp fun i hi => by cases hi]
  simp only [joined_none]
  rfl

theorem parseObject_iff (hvalue : Agrees value scan) : Agrees (parseObject value) (scanObject scan) := by
  refine container_iff (k := .object) rfl fun fuel p q head _ => ?_
  rw [objectLoop_iff hvalue fun i hi => by cases hi]
  simp only [joined_none]
  rfl

end Value

/-- The part of `json_parse_value` for a value that contains no other. -/
def parseScalar (c : UInt8) (p : Parser) : Option (Parser × Nat) :=
  if c = 0x22 then do
    let (p, off) ← parseString p
    alloc p { type := .string, stringOff := some off }
  else if c = 0x74 then do
    let t ← matchWord wordTrue p.rest
    alloc { p with rest := t } { type := .bool, boolean := true }
  else if c = 0x66 then do
    let t ← matchWord wordFalse p.rest
    alloc { p with rest := t } { type := .bool, boolean := false }
  else if c = 0x6E then do
    let t ← matchWord wordNull p.rest
    alloc { p with rest := t } { type := .null }
  else if c = 0x2D ∨ isDigit c then do
    let t ← parseNumber p.rest
    alloc { p with rest := t } { type := .number }
  else none

theorem grow_leaf (p : Parser) (l : Label) (t : List UInt8) :
    grow p (.cons l .nil .nil) t =
      ⟨t, p.nodes ++ [l.node p.strings.length], p.strings ++ slots l.strings⟩ := by
  have hnil : ∀ base off, layout base off .nil = [] := fun _ _ => rfl
  have hlinks : ({ l.node p.strings.length with firstChild := none, next := none } : Node) =
      l.node p.strings.length := rfl
  simp only [grow, layout_cons, hnil, Forest.head, hlinks, allStrings_cons, allStrings_nil,
    List.append_nil, List.nil_append]

theorem alloc_scalar (hk : Label.strings ⟨none, k⟩ = []) (hok : Label.Ok ⟨none, k⟩)
    (hp : p.strings.length ≤ stringPool) :
    alloc { p with rest := t } (Label.node ⟨none, k⟩ p.strings.length) = some (q, i) ↔
      Fits p.nodes.length p.strings.length (.cons ⟨none, k⟩ .nil .nil) ∧
        q = grow p (.cons ⟨none, k⟩ .nil .nil) t ∧ i = p.nodes.length := by
  have hfits := fits_leaf (n := p.nodes.length) (s := p.strings.length) (l := ⟨none, k⟩)
  rw [Forest.leaf, hk] at hfits
  rw [alloc_iff, hfits, grow_leaf, hk, slots_nil, List.append_nil]
  constructor
  · rintro ⟨hroom, rfl, rfl⟩
    exact ⟨⟨hroom, hp, hok⟩, rfl, rfl⟩
  · rintro ⟨⟨hroom, -, -⟩, rfl, rfl⟩
    exact ⟨hroom, rfl, rfl⟩

theorem alloc_string {items : List Item} :
    (readable items = true ∧ p.strings.length + (slots [items]).length ≤ stringPool ∧
      alloc { p with rest := t, strings := p.strings ++ slots [items] }
        (Label.node ⟨none, .string items⟩ p.strings.length) = some (q, i)) ↔
      Fits p.nodes.length p.strings.length (.cons ⟨none, .string items⟩ .nil .nil) ∧
        q = grow p (.cons ⟨none, .string items⟩ .nil .nil) t ∧ i = p.nodes.length := by
  have hstrings : Label.strings ⟨none, .string items⟩ = [items] := rfl
  have hok : Label.Ok ⟨none, .string items⟩ ↔ readable items = true := by
    simp [Label.Ok, hstrings]
  have hfits := fits_leaf (n := p.nodes.length) (s := p.strings.length) (l := ⟨none, .string items⟩)
  rw [Forest.leaf, hstrings, hok] at hfits
  rw [alloc_iff, hfits, grow_leaf, hstrings]
  constructor
  · rintro ⟨hread, hpool, hroom, rfl, rfl⟩
    exact ⟨⟨hroom, hpool, hread⟩, rfl, rfl⟩
  · rintro ⟨⟨hroom, hpool, hread⟩, rfl, rfl⟩
    exact ⟨hread, hpool, hroom, rfl, rfl⟩

def ScalarAgrees (p : Parser) (parsed : Option (Parser × Nat)) (scanned : Option (Kind × List UInt8)) :
    Prop :=
  ∀ q i, parsed = some (q, i) ↔ ∃ k t, scanned = some (k, t) ∧
    Fits p.nodes.length p.strings.length (.cons ⟨none, k⟩ .nil .nil) ∧
    q = grow p (.cons ⟨none, k⟩ .nil .nil) t ∧ i = p.nodes.length

theorem word_iff {p : Parser} (hp : p.strings.length ≤ stringPool)
    (hk : Label.strings ⟨none, k⟩ = []) (hok : Label.Ok ⟨none, k⟩) (word : List UInt8) :
    ScalarAgrees p
      (do
        let t ← matchWord word p.rest
        alloc { p with rest := t } (Label.node ⟨none, k⟩ p.strings.length))
      (do
        let t ← matchWord word p.rest
        some (k, t)) := by
  intro q i
  simp only [Option.bind_eq_bind, Option.bind_eq_some_iff, alloc_scalar hk hok hp, Option.some.injEq,
    Prod.mk.injEq]
  constructor
  · rintro ⟨t, hm, h⟩
    exact ⟨k, t, ⟨t, hm, rfl, rfl⟩, h⟩
  · rintro ⟨_, _, ⟨t, hm, rfl, rfl⟩, h⟩
    exact ⟨t, hm, h⟩

theorem parseScalar_iff {p : Parser} (hp : p.strings.length ≤ stringPool) (c : UInt8) :
    ScalarAgrees p (parseScalar c p) (scanScalar c p.rest) := by
  have hplain : ∀ k, (∀ n, k ≠ Kind.number n) → Label.strings ⟨none, k⟩ = [] → Label.Ok ⟨none, k⟩ :=
    fun k hk hs => ⟨by simp [hs], fun n hn => absurd hn (hk n)⟩
  rw [parseScalar, scanScalar]
  split
  · intro q i
    simp only [Option.bind_eq_bind, Option.bind_eq_some_iff, Prod.exists, parseString_iff,
      Option.some.injEq, Prod.mk.injEq]
    constructor
    · rintro ⟨_, off, ⟨items, t, hs, hread, hpool, rfl, rfl⟩, halloc⟩
      exact ⟨.string items, t, ⟨items, t, hs, rfl, rfl⟩, alloc_string.1 ⟨hread, hpool, halloc⟩⟩
    · rintro ⟨_, _, ⟨items, t, hs, rfl, rfl⟩, h⟩
      obtain ⟨hread, hpool, halloc⟩ := alloc_string.2 h
      exact ⟨_, _, ⟨items, t, hs, hread, hpool, rfl, rfl⟩, halloc⟩
  · split
    · exact word_iff hp (k := .bool true) rfl (hplain _ (by simp) rfl) wordTrue
    · split
      · exact word_iff hp (k := .bool false) rfl (hplain _ (by simp) rfl) wordFalse
      · split
        · exact word_iff hp (k := .null) rfl (hplain _ (by simp) rfl) wordNull
        · split
          · intro q i
            have hok : ∀ n, Label.Ok ⟨none, .number n⟩ ↔ pow10Ok (n.scale exponentLoop) = true :=
              fun n => ⟨fun h => h.2 n rfl, fun h => ⟨by simp [Label.strings], fun m hm => by cases hm; exact h⟩⟩
            simp only [Option.bind_eq_bind, Option.bind_eq_some_iff, Prod.exists, parseNumber_iff,
              Option.some.injEq, Prod.mk.injEq]
            constructor
            · rintro ⟨t, ⟨n, hs, hn⟩, halloc⟩
              exact ⟨.number n, t, ⟨n, t, hs, rfl, rfl⟩,
                (alloc_scalar (k := .number n) rfl ((hok n).2 hn) hp).1 halloc⟩
            · rintro ⟨_, _, ⟨n, t, hs, rfl, rfl⟩, hfit, h⟩
              have hn : Label.Ok ⟨none, .number n⟩ := hfit.labels _ List.mem_cons_self
              exact ⟨t, ⟨n, hs, (hok n).1 hn⟩, (alloc_scalar (k := .number n) rfl hn hp).2 ⟨hfit, h⟩⟩
          · intro q i
            simp

theorem parseValue_succ (levels : Nat) (p : Parser) {c : UInt8} (h : skipWs p.rest = c :: t) :
    parseValue (levels + 1) p =
      if c = 0x7B then parseObject (parseValue levels) { p with rest := c :: t }
      else if c = 0x5B then parseArray (parseValue levels) { p with rest := c :: t }
      else parseScalar c { p with rest := c :: t } := by
  rw [parseValue, h]
  rfl

theorem parseValue_agrees (levels : Nat) : Agrees (parseValue levels) (scanValue levels) := by
  induction levels with
  | zero =>
    intro p q i _
    simp [parseValue, scanValue]
  | succ levels ih =>
    intro p q i hp
    cases htext : skipWs p.rest with
    | nil => simp [parseValue, scanValue, htext]
    | cons c t =>
      rw [parseValue_succ levels p htext, scanValue, htext]
      dsimp only
      split
      · exact parseObject_iff ih { p with rest := c :: t } q i hp
      · split
        · exact parseArray_iff ih { p with rest := c :: t } q i hp
        · have hscalar := parseScalar_iff (p := { p with rest := c :: t }) hp c q i
          rw [hscalar]
          simp only [Option.bind_eq_bind, Option.bind_eq_some_iff, Prod.exists, Option.some.injEq,
            Prod.mk.injEq]
          constructor
          · rintro ⟨k, u, hs, hfit, hq, hi⟩
            exact ⟨k, .nil, u, ⟨k, u, hs, rfl, rfl, rfl⟩, hfit, hq, hi⟩
          · rintro ⟨_, _, _, ⟨k, u, hs, rfl, rfl, rfl⟩, hfit, hq, hi⟩
            exact ⟨k, u, hs, hfit, hq, hi⟩

def documentOf (l : Label) (F : Forest Label) : Document where
  nodes := layout 0 1 (.cons l F .nil)
  strings := 0 :: slots (allStrings (.cons l F .nil))
  root := F.size

theorem owjsonParse_iff {text : List UInt8} {d : Document} : owjsonParse text = some d ↔
    ∃ k F, Reads text (.cons ⟨none, k⟩ F .nil) ∧ F.height ≤ maxDepth ∧
      Fits 0 1 (.cons ⟨none, k⟩ F .nil) ∧ d = documentOf ⟨none, k⟩ F := by
  have hread : ∀ k F, Reads text (.cons ⟨none, k⟩ F .nil) ∧ F.height ≤ maxDepth ↔
      ∃ t, scanValue (maxDepth + 1) text = some (k, F, t) ∧ skipWs t = [] := by
    intro k F
    have h : scanText (maxDepth + 1) text = some (.cons ⟨none, k⟩ F .nil) ↔ _ := scanText_eq_some
    have hheight : (Forest.cons (⟨none, k⟩ : Label) F .nil).height ≤ maxDepth + 1 ↔ F.height ≤ maxDepth := by
      simp [Forest.height]
    rw [hheight] at h
    rw [← h, scanText]
    simp only [Option.bind_eq_bind, Option.bind_eq_some_iff, Prod.exists, Option.ite_none_right_eq_some,
      Option.some.injEq, Forest.cons.injEq, Label.mk.injEq, true_and, and_true]
    constructor
    · rintro ⟨k', F', t, hs, ht, rfl, rfl⟩
      exact ⟨t, hs, ht⟩
    · rintro ⟨t, hs, ht⟩
      exact ⟨k, F, t, hs, ht, rfl, rfl⟩
  rw [owjsonParse]
  simp only [Option.bind_eq_bind, Option.bind_eq_some_iff, Prod.exists, Option.ite_none_right_eq_some,
    Option.some.injEq]
  have hagrees := fun q i => parseValue_agrees (maxDepth + 1) ⟨text, [], [0]⟩ q i
    (show 1 ≤ stringPool by decide)
  constructor
  · rintro ⟨q, i, hv, ht, rfl⟩
    obtain ⟨k, F, t, hs, hfit, rfl, rfl⟩ := (hagrees q i).1 hv
    obtain ⟨hr, hh⟩ := (hread k F).2 ⟨t, hs, ht⟩
    refine ⟨k, F, hr, hh, hfit, ?_⟩
    simp [documentOf, grow]
  · rintro ⟨k, F, hr, hh, hfit, rfl⟩
    obtain ⟨t, hs, ht⟩ := (hread k F).1 ⟨hr, hh⟩
    refine ⟨_, _, (hagrees _ _).2 ⟨k, F, t, hs, hfit, rfl, rfl⟩, ht, ?_⟩
    simp [documentOf, grow]

end Owjson
