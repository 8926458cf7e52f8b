import OpenWindows.Lib.Sparse
import OpenWindows.Lib.Walk

/-!
# Nodes of the trie

`vp_node_get`, `vp_node_set` and `vp_node_unset` (`vipm.c`): the children of a node
stand in an array behind a bitmap, in the order of their nibbles.
-/

namespace Vipm

open Sparse

/-- `vipm_node_t`. -/
structure Node where
  childBitmap : Nat
  children : Nat → Nat
  payload : Nat

/-- `VIPM_NULL_INDEX`. -/
def nullIndex : Nat := 0xFFFF

/-- `VIPM_NULL_PAYLOAD`. -/
def nullPayload : Nat := 0xFFFFFFFF

/-- The loop of `vp_popcount16`, for some rounds. -/
def popcountLoop : Nat → Nat → Nat → Nat
  | 0, _, c => c
  | k + 1, v, c => if v ≠ 0 then popcountLoop k (v >>> 1) (c + (v &&& 1)) else c

/-- `vp_popcount16`; sixteen rounds empty a word of sixteen bits. -/
def vpPopcount16 (v : Nat) : Nat := popcountLoop 16 v 0

/-- `vp_node_get`. -/
def vpNodeGet (n : Node) (nib : Nat) : Nat :=
  let bit := 1 <<< nib
  if n.childBitmap &&& bit = 0 then nullIndex
  else n.children (vpPopcount16 (n.childBitmap &&& (bit - 1)))

/-- `vp_node_set`. -/
def vpNodeSet (n : Node) (nib idx : Nat) : Node :=
  let bit := 1 <<< nib
  let pos := vpPopcount16 (n.childBitmap &&& (bit - 1))
  if n.childBitmap &&& bit = 0 then
    { n with
      children := insertAt pos (vpPopcount16 n.childBitmap) idx n.children
      childBitmap := n.childBitmap ||| bit }
  else { n with children := Function.update n.children pos idx }

/-- `vp_node_unset`. -/
def vpNodeUnset (n : Node) (nib : Nat) : Node :=
  let bit := 1 <<< nib
  if n.childBitmap &&& bit = 0 then n
  else
    let pos := vpPopcount16 (n.childBitmap &&& (bit - 1))
    let stop := vpPopcount16 n.childBitmap
    { n with
      children := eraseAt pos stop nullIndex n.children
      childBitmap := n.childBitmap &&& (0xFFFF ^^^ bit) }

def Node.empty : Node := { childBitmap := 0, children := fun _ => nullIndex, payload := nullPayload }

/-! ## Counting -/

theorem popcountLoop_eq {k v : Nat} (hv : v < 2 ^ k) (c : Nat) :
    popcountLoop k v c = c + rank v k := by
  induction k generalizing v c with
  | zero => rfl
  | succ k ih =>
    have hrank : rank v (k + 1) = v % 2 + rank (v >>> 1) k := by
      unfold rank
      rw [List.range_succ_eq_map, List.countP_cons, List.countP_map, Nat.add_comm]
      congr 1
      · rcases Nat.mod_two_eq_zero_or_one v with h | h <;> simp [Nat.testBit_zero, h]
      · refine List.countP_congr fun i _ => ?_
        rw [Function.comp_apply, Nat.testBit_succ, Nat.shiftRight_one]
    rw [popcountLoop, hrank]
    split
    · rw [ih (by rw [Nat.shiftRight_one]; omega), Nat.and_one_is_mod]
      omega
    next hzero =>
      obtain rfl : v = 0 := not_not.mp hzero
      simp [rank]

theorem vpPopcount16_below {v nib : Nat} (hnib : nib ≤ 16) :
    vpPopcount16 (v &&& (1 <<< nib - 1)) = rank v nib := by
  have hmask : v &&& (1 <<< nib - 1) = v % 2 ^ nib := by
    rw [Nat.one_shiftLeft, Nat.and_two_pow_sub_one_eq_mod]
  have hlt : v % 2 ^ nib < 2 ^ 16 :=
    Nat.lt_of_lt_of_le (Nat.mod_lt _ (Nat.two_pow_pos nib)) (Nat.pow_le_pow_right (by decide) hnib)
  rw [hmask, vpPopcount16, popcountLoop_eq hlt, Nat.zero_add]
  unfold rank
  obtain ⟨d, hd⟩ : ∃ d, 16 = nib + d := ⟨16 - nib, by omega⟩
  rw [hd, List.range_add, List.countP_append, List.countP_map]
  have hhigh : (List.range d).countP ((v % 2 ^ nib).testBit ∘ fun x => nib + x) = 0 := by
    refine List.countP_eq_zero.mpr fun x _ => ?_
    simp [Nat.testBit_mod_two_pow]
  have hlow : (List.range nib).countP (v % 2 ^ nib).testBit = (List.range nib).countP v.testBit := by
    refine List.countP_congr fun x hx => ?_
    simp [Nat.testBit_mod_two_pow, List.mem_range.mp hx]
  rw [hhigh, hlow, Nat.add_zero]

theorem vpPopcount16_eq {v : Nat} (hv : v < 2 ^ 16) : vpPopcount16 v = rank v 16 := by
  rw [vpPopcount16, popcountLoop_eq hv, Nat.zero_add]

theorem and_bit_eq_zero_iff (v nib : Nat) : v &&& 1 <<< nib = 0 ↔ v.testBit nib = false := by
  rw [Nat.one_shiftLeft, Nat.and_two_pow]
  cases v.testBit nib
  · simp
  · simp

/-! ## Children -/

/-- A node whose children stand in the order of the bitmap, with nothing behind. -/
structure NodeOk (n : Node) : Prop where
  bitmap : n.childBitmap < 2 ^ 16
  present : ∀ nib, n.childBitmap.testBit nib = true → n.children (rank n.childBitmap nib) ≠ nullIndex
  behind : ∀ k, rank n.childBitmap 16 ≤ k → n.children k = nullIndex

def child (n : Node) (nib : Nat) : Option Nat := value n.childBitmap n.children nib

section

variable {n : Node} {nib idx j : Nat}

theorem child_eq_none_iff : child n nib = none ↔ n.childBitmap.testBit nib = false := by
  unfold child value
  cases n.childBitmap.testBit nib <;> simp

theorem testBit_of_child (h : child n nib = some j) : n.childBitmap.testBit nib = true := by
  by_contra hne
  rw [child_eq_none_iff.mpr (by simpa using hne)] at h
  cases h

theorem NodeOk.lt_of_child (h : NodeOk n) (hj : child n nib = some j) : nib < 16 :=
  lt_of_testBit h.bitmap (testBit_of_child hj)

theorem nodeOk_empty : NodeOk Node.empty where
  bitmap := by decide
  present nib h := by simp [Node.empty] at h
  behind _ _ := rfl

theorem child_empty (nib : Nat) : child Node.empty nib = none := by
  rw [child_eq_none_iff]
  exact Nat.zero_testBit nib

theorem child_ne_nullIndex (h : NodeOk n) (hj : child n nib = some j) : j ≠ nullIndex := by
  have hbit := testBit_of_child hj
  rw [child, value, if_pos hbit] at hj
  cases hj
  exact h.present nib hbit

theorem vpNodeGet_eq (h : NodeOk n) (nib : Nat) : vpNodeGet n nib = (child n nib).getD nullIndex := by
  simp only [vpNodeGet]
  split
  next hzero =>
    rw [child_eq_none_iff.mpr ((and_bit_eq_zero_iff _ _).mp hzero)]
    rfl
  next hone =>
    have hbit : n.childBitmap.testBit nib = true := by
      rw [and_bit_eq_zero_iff] at hone
      simpa using hone
    rw [vpPopcount16_below (Nat.le_of_lt (lt_of_testBit h.bitmap hbit)), child, value, if_pos hbit]
    rfl

theorem vpNodeGet_eq_nullIndex_iff (h : NodeOk n) (nib : Nat) :
    vpNodeGet n nib = nullIndex ↔ child n nib = none := by
  rw [vpNodeGet_eq h]
  cases hc : child n nib with
  | none => simp
  | some j => simpa using child_ne_nullIndex h hc

/-! ## Changes -/

theorem vpNodeSet_eq (h : NodeOk n) (hnib : nib < 16) (hnone : child n nib = none) :
    vpNodeSet n nib idx =
      { n with
        children := insertAt (rank n.childBitmap nib) (rank n.childBitmap 16) idx n.children
        childBitmap := n.childBitmap ||| 2 ^ nib } := by
  simp only [vpNodeSet]
  rw [if_pos ((and_bit_eq_zero_iff _ _).mpr (child_eq_none_iff.mp hnone)),
    vpPopcount16_below (Nat.le_of_lt hnib), vpPopcount16_eq h.bitmap, Nat.one_shiftLeft]

theorem child_vpNodeSet (h : NodeOk n) (hnib : nib < 16) (hnone : child n nib = none) (idx m : Nat) :
    child (vpNodeSet n nib idx) m = if m = nib then some idx else child n m := by
  rw [vpNodeSet_eq h hnib hnone]
  exact value_insertAt h.bitmap (child_eq_none_iff.mp hnone) idx n.children m

theorem nodeOk_vpNodeSet (h : NodeOk n) (hnib : nib < 16) (hnone : child n nib = none)
    (hidx : idx ≠ nullIndex) : NodeOk (vpNodeSet n nib idx) := by
  refine ⟨?_, fun m hm => ?_, fun k hk => ?_⟩
  · rw [vpNodeSet_eq h hnib hnone]
    exact Nat.or_lt_two_pow h.bitmap (Nat.pow_lt_pow_right (by decide) hnib)
  · have hc := child_vpNodeSet h hnib hnone idx m
    rw [child, value, if_pos hm] at hc
    split at hc
    · rw [Option.some.inj hc]
      exact hidx
    · exact child_ne_nullIndex h hc.symm
  · rw [vpNodeSet_eq h hnib hnone] at hk ⊢
    have hpos := rank_mono n.childBitmap (Nat.le_of_lt hnib)
    change rank (n.childBitmap ||| 2 ^ nib) 16 ≤ k at hk
    rw [rank_insert (child_eq_none_iff.mp hnone), if_pos hnib] at hk
    show insertAt _ _ idx n.children k = nullIndex
    rw [insertAt_apply, if_neg (by omega), if_neg (by omega)]
    exact h.behind k (by omega)

theorem payload_vpNodeSet (n : Node) (nib idx : Nat) : (vpNodeSet n nib idx).payload = n.payload := by
  simp only [vpNodeSet]
  split <;> rfl

theorem vpNodeUnset_eq (h : NodeOk n) (hj : child n nib = some j) :
    vpNodeUnset n nib =
      { n with
        children := eraseAt (rank n.childBitmap nib) (rank n.childBitmap 16) nullIndex n.children
        childBitmap := clear 16 n.childBitmap nib } := by
  simp only [vpNodeUnset]
  rw [if_neg (by rw [and_bit_eq_zero_iff]; simp [testBit_of_child hj]),
    vpPopcount16_below (Nat.le_of_lt (h.lt_of_child hj)), vpPopcount16_eq h.bitmap,
    Nat.one_shiftLeft]
  rfl

theorem child_vpNodeUnset (h : NodeOk n) (hj : child n nib = some j) (m : Nat) :
    child (vpNodeUnset n nib) m = if m = nib then none else child n m := by
  rw [vpNodeUnset_eq h hj]
  exact value_eraseAt h.bitmap (testBit_of_child hj) nullIndex n.children m

theorem nodeOk_vpNodeUnset (h : NodeOk n) (hj : child n nib = some j) :
    NodeOk (vpNodeUnset n nib) := by
  refine ⟨?_, fun m hm => ?_, fun k hk => ?_⟩
  · rw [vpNodeUnset_eq h hj]
    exact Nat.lt_of_le_of_lt Nat.and_le_left h.bitmap
  · have hc := child_vpNodeUnset h hj m
    rw [child, value, if_pos hm] at hc
    split at hc
    · cases hc
    · exact child_ne_nullIndex h hc.symm
  · have hrank := rank_clear h.bitmap (testBit_of_child hj) 16
    have hcount := rank_lt (testBit_of_child hj) (h.lt_of_child hj)
    rw [if_pos (h.lt_of_child hj)] at hrank
    rw [vpNodeUnset_eq h hj] at hk ⊢
    change rank (clear 16 n.childBitmap nib) 16 ≤ k at hk
    show eraseAt _ _ nullIndex n.children k = nullIndex
    rw [eraseAt_apply]
    split
    · rfl
    next hlast =>
      rw [if_neg (by omega)]
      exact h.behind k (by omega)

theorem payload_vpNodeUnset (n : Node) (nib : Nat) : (vpNodeUnset n nib).payload = n.payload := by
  simp only [vpNodeUnset]
  split <;> rfl

theorem childBitmap_eq_zero_iff : n.childBitmap = 0 ↔ ∀ nib, child n nib = none := by
  constructor
  · intro h0 nib
    rw [child_eq_none_iff, h0]
    exact Nat.zero_testBit nib
  · intro hnone
    refine Nat.eq_of_testBit_eq fun i => ?_
    rw [Nat.zero_testBit]
    exact child_eq_none_iff.mp (hnone i)

theorem children_eq (h : NodeOk n) :
    (List.range 16).map n.children = (List.range 16).filterMap (child n) ++
      List.replicate (16 - rank n.childBitmap 16) nullIndex := by
  have hle := rank_le n.childBitmap 16
  have hlist : (List.range 16).filterMap (child n) = (List.range (rank n.childBitmap 16)).map n.children :=
    filterMap_rank n.childBitmap n.children 16
  obtain ⟨d, hd⟩ : ∃ d, 16 = rank n.childBitmap 16 + d := ⟨16 - rank n.childBitmap 16, by omega⟩
  rw [hlist]
  conv_lhs => rw [hd]
  rw [List.range_add, List.map_append]
  congr 1
  rw [List.eq_replicate_iff]
  refine ⟨by simp; omega, fun b hb => ?_⟩
  obtain ⟨k, hk, rfl⟩ := List.mem_map.mp hb
  obtain ⟨j, -, rfl⟩ := List.mem_map.mp hk
  exact h.behind _ (Nat.le_add_right ..)

theorem children_eq_get (h : NodeOk n) :
    (List.range 16).map n.children = ((List.range 16).map (vpNodeGet n)).filter (· ≠ nullIndex) ++
      List.replicate (16 - vpPopcount16 n.childBitmap) nullIndex := by
  rw [children_eq h, vpPopcount16_eq h.bitmap]
  congr 1
  induction List.range 16 with
  | nil => rfl
  | cons nib nibs ih =>
    rw [List.map_cons, vpNodeGet_eq h]
    cases hc : child n nib with
    | none =>
      rw [List.filterMap_cons_none hc, ih]
      simp
    | some j =>
      rw [List.filterMap_cons_some hc, ih]
      simp [child_ne_nullIndex h hc]

end

/-! ## The trie

`vipm_mapping_put`, `vp_trie_find` and `vipm_mapping_remove` (`vipm.c`) on the node
pool and its free stack.  A key is the word of its eleven nibbles.  The place of a
node is the word that leads to it, and each operation changes one place at a time.
-/

section

open Sparse Walk

/-- `vipm_status_t`. -/
inductive Status where
  | ok
  | banTableCorrupt
  | banNodeCorrupt
  | banPoolExhausted
  | banEntryCorrupt
  | banVolumeCorrupt
  | banHashMismatch
  | errIndexStale
  | errDuplicateMapping
  | errNotInit
  | errNotFound
  | errAlreadyExists
  | errTableFull
  | errVolumeLimit
  | errInvalidSutf8
  | errLabelTooLong
  | errPathTooLong
  | errInvalidKey
deriving DecidableEq

/-- `VIPM_MAX_NODES`. -/
def maxNodes : Nat := 256

/-- `VIPM_NIBBLES`. -/
def keyNibbles : Nat := 11

/-- The trie part of `vipm_manager_t`. -/
structure Trie where
  nodes : Nat → Node
  freeStack : Nat → Nat
  freeTop : Nat
  root : Nat
  nodeCount : Nat

def Trie.setNode (t : Trie) (i : Nat) (n : Node) : Trie :=
  { t with nodes := Function.update t.nodes i n }

/-- `vp_node_alloc`. -/
def vpNodeAlloc (t : Trie) : Nat × Trie :=
  if t.freeTop = 0 then (nullIndex, t)
  else (t.freeStack (t.freeTop - 1), { t with freeTop := t.freeTop - 1 })

/-- `vp_node_free`. -/
def vpNodeFree (t : Trie) (idx : Nat) : Trie :=
  { t with freeStack := Function.update t.freeStack t.freeTop idx, freeTop := t.freeTop + 1 }

/-- `vp_nibble`. -/
def vpNibble (key depth : Nat) : Nat := (key >>> ((keyNibbles - 1 - depth) * 4)) &&& 0xF

def nibblesOf (key : Nat) : List Nat := (List.range keyNibbles).map (vpNibble key)

/-- `vipm_key_valid`. -/
def vipmKeyValid (key : Nat) : Bool := key >>> 44 == 0

/-- The trie of `vipm_init_manager`: all nodes free, then the root is taken. -/
def initTrie : Trie :=
  let t : Trie :=
    { nodes := fun _ => Node.empty, freeStack := fun i => i, freeTop := maxNodes, root := 0
      nodeCount := 0 }
  { (vpNodeAlloc t).2 with root := (vpNodeAlloc t).1, nodeCount := 1 }

/-! ### Finding -/

/-- The loop of `vp_trie_find`, over the nibbles that are left. -/
def findLoop (t : Trie) (cur : Nat) : List Nat → Option Nat
  | [] => some cur
  | nib :: nibs =>
    let nxt := vpNodeGet (t.nodes cur) nib
    if nxt = nullIndex then none else findLoop t nxt nibs

/-- `vp_trie_find`. -/
def vpTrieFind (t : Trie) (key : Nat) : Except Status Nat :=
  if !vipmKeyValid key then .error .errInvalidKey
  else
    match findLoop t t.root (nibblesOf key) with
    | none => .error .errNotFound
    | some cur =>
      if (t.nodes cur).payload = nullPayload then .error .errNotFound
      else .ok (t.nodes cur).payload

/-! ### Putting -/

def missingNodes (t : Trie) (cur : Nat) : List Nat → Nat
  | [] => 0
  | nib :: nibs =>
    let nxt := vpNodeGet (t.nodes cur) nib
    if nxt = nullIndex then (nib :: nibs).length else missingNodes t nxt nibs

/-- The second loop of `vipm_mapping_put`: the node at the end, or none when the pool
gives out. -/
def putLoop (t : Trie) (cur : Nat) : List Nat → Option Nat × Trie
  | [] => (some cur, t)
  | nib :: nibs =>
    let nxt := vpNodeGet (t.nodes cur) nib
    if nxt = nullIndex then
      let (nn, t) := vpNodeAlloc t
      if nn = nullIndex then (none, t)
      else
        let t := t.setNode nn Node.empty
        let t := t.setNode cur (vpNodeSet (t.nodes cur) nib nn)
        putLoop { t with nodeCount := t.nodeCount + 1 } nn nibs
    else putLoop t nxt nibs

/-- The trie part of `vipm_mapping_put`, for a valid key. -/
def putTrie (t : Trie) (key entryIndex : Nat) : Status × Trie :=
  if missingNodes t t.root (nibblesOf key) > t.freeTop then (.banPoolExhausted, t)
  else
    match putLoop t t.root (nibblesOf key) with
    | (none, t) => (.banPoolExhausted, t)
    | (some cur, t) =>
      let hadPayload := (t.nodes cur).payload ≠ nullPayload
      (if hadPayload then .errDuplicateMapping else .ok,
        t.setNode cur { t.nodes cur with payload := entryIndex })

/-! ### Removing -/

/-- The loop that goes down and keeps the parents, the lowest first. -/
def parentsLoop (t : Trie) (cur : Nat) (parents : List (Nat × Nat)) :
    List Nat → Option (Nat × List (Nat × Nat))
  | [] => some (cur, parents)
  | nib :: nibs =>
    let nxt := vpNodeGet (t.nodes cur) nib
    if nxt = nullIndex then none else parentsLoop t nxt ((cur, nib) :: parents) nibs

/-- One round of the pruning loop. -/
def pruneNode (t : Trie) (node parent nib : Nat) : Trie :=
  if (t.nodes node).childBitmap = 0 ∧ (t.nodes node).payload = nullPayload then
    let t := t.setNode parent (vpNodeUnset (t.nodes parent) nib)
    let t := t.setNode node { t.nodes node with childBitmap := 0 }
    vpNodeFree { t with nodeCount := if t.nodeCount > 0 then t.nodeCount - 1 else t.nodeCount } node
  else t

def pruneLoop (t : Trie) (cur : Nat) : List (Nat × Nat) → Trie
  | [] => t
  | (parent, nib) :: rest => pruneLoop (pruneNode t cur parent nib) parent rest

/-- The trie part of `vipm_mapping_remove`, for a valid key. -/
def removeTrie (t : Trie) (key : Nat) : Status × Trie :=
  match parentsLoop t t.root [] (nibblesOf key) with
  | none => (.errNotFound, t)
  | some (cur, parents) =>
    if (t.nodes cur).payload = nullPayload then (.errNotFound, t)
    else
      (.ok, pruneLoop (t.setNode cur { t.nodes cur with payload := nullPayload }) cur parents)

/-! ### Nibbles -/

theorem vpNibble_lt (key depth : Nat) : vpNibble key depth < 16 :=
  Nat.lt_of_le_of_lt Nat.and_le_right (by decide)

theorem nibblesOf_lt {key : Nat} : ∀ nib ∈ nibblesOf key, nib < 16 := by
  intro nib hnib
  obtain ⟨d, -, rfl⟩ := List.mem_map.mp hnib
  exact vpNibble_lt key d

@[simp] theorem length_nibblesOf (key : Nat) : (nibblesOf key).length = keyNibbles := by
  simp [nibblesOf]

theorem testBit_vpNibble (key depth : Nat) {r : Nat} (hr : r < 4) :
    (vpNibble key depth).testBit r = key.testBit ((keyNibbles - 1 - depth) * 4 + r) := by
  unfold vpNibble
  rw [show (0xF : Nat) = 2 ^ 4 - 1 from rfl, Nat.testBit_and, Nat.testBit_shiftRight,
    Nat.testBit_two_pow_sub_one, decide_eq_true hr, Bool.and_true]

theorem vipmKeyValid_iff {key : Nat} : vipmKeyValid key = true ↔ key < 2 ^ 44 := by
  unfold vipmKeyValid
  rw [beq_iff_eq, Nat.shiftRight_eq_div_pow, Nat.div_eq_zero_iff_lt (Nat.two_pow_pos 44)]

theorem nibblesOf_injective {key key' : Nat} (hk : key < 2 ^ 44) (hk' : key' < 2 ^ 44)
    (h : nibblesOf key = nibblesOf key') : key = key' := by
  refine Nat.eq_of_testBit_eq fun j => ?_
  by_cases hj : j < 44
  · -- bit `j` is in the nibble `10 - j / 4`
    have hd : 10 - j / 4 < keyNibbles := by
      unfold keyNibbles
      omega
    have hnib : vpNibble key (10 - j / 4) = vpNibble key' (10 - j / 4) :=
      List.map_inj_left.mp h _ (List.mem_range.mpr hd)
    have hplace : (keyNibbles - 1 - (10 - j / 4)) * 4 + j % 4 = j := by
      unfold keyNibbles
      omega
    have hbit := congrArg (fun n => n.testBit (j % 4)) hnib
    simp only [testBit_vpNibble _ _ (Nat.mod_lt j (by decide : 4 > 0)), hplace] at hbit
    exact hbit
  · have hle : 2 ^ 44 ≤ 2 ^ j := Nat.pow_le_pow_right (by decide) (Nat.le_of_not_lt hj)
    rw [Nat.testBit_lt_two_pow (Nat.lt_of_lt_of_le hk hle),
      Nat.testBit_lt_two_pow (Nat.lt_of_lt_of_le hk' hle)]

/-! ### The shape of the trie

Every node is at one place or free, nodes off the root are not empty, and only the
places of whole keys hold payloads.  While an operation goes along a path, the node at
one place may be empty: the invariant is parameterised by that place.
-/

def edge (t : Trie) (i nib : Nat) : Option Nat := child (t.nodes i) nib

/-- The node at a place. -/
def addr (t : Trie) (p : List Nat) : Option Nat := walk (edge t) t.root p

def freeList (t : Trie) : List Nat := (List.range t.freeTop).map t.freeStack

def Node.entry (n : Node) : Option Nat := if n.payload = nullPayload then none else some n.payload

def payloadAt (t : Trie) (p : List Nat) : Option Nat := (addr t p).bind fun i => (t.nodes i).entry

/-- The invariant, where the node at `hole` may be empty. -/
structure TrieInv (t : Trie) (hole : List Nat) : Prop where
  tree : Tree (edge t) t.root
  depth : ∀ {p i}, addr t p = some i → p.length ≤ keyNibbles
  bound : ∀ {p i}, addr t p = some i → i < maxNodes
  nodeOk : ∀ {p i}, addr t p = some i → NodeOk (t.nodes i)
  full : ∀ {p i}, addr t p = some i → p ≠ [] → p ≠ hole →
    (t.nodes i).childBitmap ≠ 0 ∨ (t.nodes i).entry ≠ none
  leaf : ∀ {p i}, addr t p = some i → (t.nodes i).entry ≠ none → p.length = keyNibbles
  nodup : (freeList t).Nodup
  free : ∀ i, i ∈ freeList t ↔ i < maxNodes ∧ ∀ p, addr t p ≠ some i
  count : t.nodeCount + t.freeTop = maxNodes

variable {t : Trie} {p q hole : List Nat} {i j cur nib : Nat}

theorem entry_eq_none_iff {n : Node} : n.entry = none ↔ n.payload = nullPayload := by
  unfold Node.entry
  split <;> simp_all

@[simp] theorem addr_nil (t : Trie) : addr t [] = some t.root := rfl

theorem addr_concat (hq : addr t q = some i) (nib : Nat) : addr t (q ++ [nib]) = edge t i nib :=
  walk_concat_of hq nib

theorem TrieInv.tree_inj (h : TrieInv t hole) (hp : addr t p = some i) (hq : addr t q = some i) :
    p = q := h.tree p q i hp hq

/-- The root is exempt in any case. -/
theorem TrieInv.of_nil (h : TrieInv t []) (hole : List Nat) : TrieInv t hole :=
  { h with full := fun hp hne _ => h.full hp hne hne }

theorem TrieInv.fill (h : TrieInv t q) (hq : addr t q = some i)
    (hfull : (t.nodes i).childBitmap ≠ 0 ∨ (t.nodes i).entry ≠ none) (hole : List Nat) :
    TrieInv t hole := by
  refine { h with full := fun {p k} hp hne _ => ?_ }
  by_cases hpq : p = q
  · subst hpq
    rw [hq] at hp
    cases hp
    exact hfull
  · exact h.full hp hne hpq

theorem ne_nullIndex_of_lt (h : i < maxNodes) : i ≠ nullIndex := by
  unfold maxNodes at h
  unfold nullIndex
  omega

theorem TrieInv.ne_nullIndex (h : TrieInv t hole) (hp : addr t p = some i) : i ≠ nullIndex :=
  ne_nullIndex_of_lt (h.bound hp)

theorem TrieInv.get_eq (h : TrieInv t hole) (hp : addr t p = some i) (nib : Nat) :
    vpNodeGet (t.nodes i) nib = (edge t i nib).getD nullIndex := vpNodeGet_eq (h.nodeOk hp) nib

theorem TrieInv.get_null_iff (h : TrieInv t hole) (hp : addr t p = some i) (nib : Nat) :
    vpNodeGet (t.nodes i) nib = nullIndex ↔ edge t i nib = none :=
  vpNodeGet_eq_nullIndex_iff (h.nodeOk hp) nib

theorem addr_append (hq : addr t q = some cur) (nibs : List Nat) :
    addr t (q ++ nibs) = walk (edge t) cur nibs := by
  unfold addr at hq ⊢
  rw [walk_append, hq]
  rfl

theorem TrieInv.step (h : TrieInv t hole) (hq : addr t q = some cur) (nib : Nat) (nibs : List Nat) :
    (vpNodeGet (t.nodes cur) nib = nullIndex ∧ edge t cur nib = none ∧
        addr t (q ++ nib :: nibs) = none) ∨
      (vpNodeGet (t.nodes cur) nib ≠ nullIndex ∧
        edge t cur nib = some (vpNodeGet (t.nodes cur) nib) ∧
        addr t (q ++ [nib]) = some (vpNodeGet (t.nodes cur) nib)) := by
  cases he : edge t cur nib with
  | none =>
    refine .inl ⟨(h.get_null_iff hq nib).mpr he, rfl, ?_⟩
    rw [addr_append hq, walk, he]
  | some j =>
    have hj : addr t (q ++ [nib]) = some j := (addr_concat hq nib).trans he
    have hget : vpNodeGet (t.nodes cur) nib = j := by rw [h.get_eq hq, he]; rfl
    rw [hget]
    exact .inr ⟨h.ne_nullIndex hj, rfl, hj⟩

theorem TrieInv.findLoop_eq (h : TrieInv t hole) (hq : addr t q = some cur) (nibs : List Nat) :
    findLoop t cur nibs = addr t (q ++ nibs) := by
  induction nibs generalizing q cur with
  | nil => rw [List.append_nil, hq]; rfl
  | cons nib nibs ih =>
    rw [findLoop]
    rcases h.step hq nib nibs with ⟨hnull, -, hnone⟩ | ⟨hsome, -, hnext⟩
    · rw [if_pos hnull, hnone]
    · rw [if_neg hsome, ih hnext, List.append_assoc]
      rfl

/-! #### Places that change -/

theorem addr_setNode {n : Node} (h : ∀ nib, child n nib = child (t.nodes i) nib) (p : List Nat) :
    addr (t.setNode i n) p = addr t p := by
  refine walk_congr (fun _ k _ => ?_) p
  funext nib
  unfold edge Trie.setNode
  by_cases hk : k = i
  · subst hk
    simp only [Function.update_self]
    exact h nib
  · simp only [Function.update_of_ne hk]

def Trie.setPayload (t : Trie) (i e : Nat) : Trie := t.setNode i { t.nodes i with payload := e }

theorem nodes_setPayload_self (t : Trie) (i e : Nat) :
    (t.setPayload i e).nodes i = { t.nodes i with payload := e } := by
  simp [Trie.setPayload, Trie.setNode]

theorem nodes_setPayload_other {e : Nat} (h : j ≠ i) :
    (t.setPayload i e).nodes j = t.nodes j := by
  simp [Trie.setPayload, Trie.setNode, Function.update_of_ne h]

theorem addr_setPayload (t : Trie) (i e : Nat) (p : List Nat) :
    addr (t.setPayload i e) p = addr t p :=
  addr_setNode (n := { t.nodes i with payload := e }) (fun _ => rfl) p

theorem entry_payload (n : Node) (e : Nat) :
    Node.entry { n with payload := e } = if e = nullPayload then none else some e := rfl

theorem TrieInv.payloadAt_setPayload (h : TrieInv t hole) (hq : addr t q = some cur) (e : Nat)
    (p : List Nat) :
    payloadAt (t.setPayload cur e) p =
      if p = q then (if e = nullPayload then none else some e) else payloadAt t p := by
  unfold payloadAt
  rw [addr_setPayload]
  split
  next hpq =>
    rw [hpq, hq]
    show ((t.setPayload cur e).nodes cur).entry = _
    rw [nodes_setPayload_self, entry_payload]
  next hpq =>
    cases hp : addr t p with
    | none => rfl
    | some i =>
      have hi : i ≠ cur := by
        rintro rfl
        exact hpq (h.tree_inj hp hq)
      show ((t.setPayload cur e).nodes i).entry = (t.nodes i).entry
      rw [nodes_setPayload_other hi]

theorem TrieInv.setPayload (h : TrieInv t q) (hq : addr t q = some cur)
    (hlen : q.length = keyNibbles) (e : Nat) : TrieInv (t.setPayload cur e) q := by
  have hother : ∀ {p i}, addr t p = some i → p ≠ q → (t.setPayload cur e).nodes i = t.nodes i := by
    intro p i hp hpq
    refine nodes_setPayload_other ?_
    rintro rfl
    exact hpq (h.tree_inj hp hq)
  have htree : Tree (edge (t.setPayload cur e)) t.root := by
    intro p p' i hp hp'
    refine h.tree_inj (i := i) ?_ ?_
    · rw [← addr_setPayload t cur e]
      exact hp
    · rw [← addr_setPayload t cur e]
      exact hp'
  refine ⟨htree, ?_, ?_, ?_, ?_, ?_, h.nodup, ?_, h.count⟩
  · intro p i hp
    rw [addr_setPayload] at hp
    exact h.depth hp
  · intro p i hp
    rw [addr_setPayload] at hp
    exact h.bound hp
  · intro p i hp
    rw [addr_setPayload] at hp
    by_cases hi : i = cur
    · subst hi
      have hok := h.nodeOk hp
      rw [nodes_setPayload_self]
      exact ⟨hok.bitmap, hok.present, hok.behind⟩
    · rw [nodes_setPayload_other hi]
      exact h.nodeOk hp
  · intro p i hp hne hpq
    rw [addr_setPayload] at hp
    rw [hother hp hpq]
    exact h.full hp hne hpq
  · intro p i hp hentry
    rw [addr_setPayload] at hp
    by_cases hpq : p = q
    · rw [hpq, hlen]
    · rw [hother hp hpq] at hentry
      exact h.leaf hp hentry
  · intro i
    simp only [addr_setPayload]
    exact h.free i

end

end Vipm
