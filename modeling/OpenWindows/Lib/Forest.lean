import Mathlib.Data.List.Range
import Mathlib.Data.List.Perm.Basic

/-!
# Ordered forests held in a table

A forest with its roots and all children in order, and two ways to see one in a table of
cells that point to each other by number.  `Linked` says that the walk by `first` and `next`
visits the cells of a forest of numbers.  `postorder` lays a forest out with the children
in front of their parent, the order in which a recursive builder allocates them.
-/

universe u v

/-- A list of trees: the first tree's root and children, and the trees after it. -/
inductive Forest (α : Type u) where
  | nil
  | cons (root : α) (children rest : Forest α)
deriving DecidableEq, Repr

namespace Forest

variable {α : Type u} {β : Type v}

/-- The forest of one tree that is a single node. -/
def leaf (a : α) : Forest α := cons a nil nil

/-- The number of nodes. -/
def size : Forest α → Nat
  | nil => 0
  | cons _ children rest => children.size + 1 + rest.size

/-- The number of nodes on the longest path down from a root. -/
def height : Forest α → Nat
  | nil => 0
  | cons _ children rest => max (children.height + 1) rest.height

def map (f : α → β) : Forest α → Forest β
  | nil => nil
  | cons a children rest => cons (f a) (children.map f) (rest.map f)

/-- The nodes in document order, each before its children. -/
def toList : Forest α → List α
  | nil => []
  | cons a children rest => a :: (children.toList ++ rest.toList)

theorem map_map {γ : Type v} (f : α → β) (g : β → γ) (F : Forest α) :
    (F.map f).map g = F.map (g ∘ f) := by
  induction F with
  | nil => rfl
  | cons a children rest ihc ihr => simp only [map, ihc, ihr, Function.comp_apply]

theorem map_congr {f g : α → β} {F : Forest α} (h : ∀ a ∈ F.toList, f a = g a) :
    F.map f = F.map g := by
  induction F with
  | nil => rfl
  | cons a children rest ihc ihr =>
    simp only [toList, List.mem_cons, List.mem_append] at h
    rw [map, map, h a (.inl rfl), ihc fun b hb => h b (.inr (.inl hb)),
      ihr fun b hb => h b (.inr (.inr hb))]

theorem eq_of_map_eq {f g : α → β} {F : Forest α} (h : F.map f = F.map g) {a : α}
    (ha : a ∈ F.toList) : f a = g a := by
  induction F with
  | nil => cases ha
  | cons b children rest ihc ihr =>
    simp only [map, cons.injEq] at h
    simp only [toList, List.mem_cons, List.mem_append] at ha
    rcases ha with rfl | ha | ha
    · exact h.1
    · exact ihc h.2.1 ha
    · exact ihr h.2.2 ha

/-! ## Links -/

section Links

variable (first next : α → Option α)

/-- From `head`, `first` to the children and `next` along the siblings visit the nodes of the
forest, each at its place, and every chain ends with the forest. -/
def Linked : Option α → Forest α → Prop
  | head, nil => head = none
  | head, cons a children rest =>
    head = some a ∧ Linked (first a) children ∧ Linked (next a) rest

/-- The walk by the links, to the bound `fuel` on its depth. -/
def walk : Nat → Option α → Option (Forest α)
  | 0, _ => none
  | _ + 1, none => some nil
  | fuel + 1, some a => do
      let children ← walk fuel (first a)
      let rest ← walk fuel (next a)
      some (cons a children rest)

variable {first next}

theorem walk_of_linked {head : Option α} {F : Forest α} (h : Linked first next head F) {fuel : Nat}
    (hfuel : F.size < fuel) : walk first next fuel head = some F := by
  induction F generalizing head fuel with
  | nil =>
    cases h
    cases fuel with
    | zero => cases hfuel
    | succ fuel => rfl
  | cons a children rest ihc ihr =>
    obtain ⟨rfl, hc, hr⟩ := h
    cases fuel with
    | zero => cases hfuel
    | succ fuel =>
      simp only [size] at hfuel
      rw [walk, ihc hc (by omega), ihr hr (by omega)]
      rfl

end Links

/-- The links from `root` form one finite tree of the first `count` cells: each of them is
visited once, no other is, and every chain ends. -/
def IsTree (first next : Nat → Option Nat) (root count : Nat) : Prop :=
  ∃ children : Forest Nat,
    Linked first next (some root) (cons root children nil) ∧
      (cons root children nil).toList.Perm (List.range count)

/-! ## The layout with the children first -/

/-- A cell of the table: a value, the first child and the next sibling. -/
structure Cell (α : Type u) where
  value : α
  first : Option Nat
  next : Option Nat
deriving DecidableEq, Repr

/-- The cell of the first root, when the forest starts at cell `base`. -/
def head : Forest α → Nat → Option Nat
  | nil, _ => none
  | cons _ children _, base => some (base + children.size)

/-- The cells of the forest from `base` on. -/
def postorder : Forest α → Nat → List (Cell α)
  | nil, _ => []
  | cons a children rest, base =>
    children.postorder base ++
      ⟨a, children.head base, rest.head (base + children.size + 1)⟩ ::
        rest.postorder (base + children.size + 1)

/-- The cell of each node. -/
def places : Forest α → Nat → Forest Nat
  | nil, _ => nil
  | cons _ children rest, base =>
    cons (base + children.size) (children.places base) (rest.places (base + children.size + 1))

@[simp]
theorem length_postorder (F : Forest α) (base : Nat) : (F.postorder base).length = F.size := by
  induction F generalizing base with
  | nil => rfl
  | cons a children rest ihc ihr =>
    simp only [postorder, List.length_append, List.length_cons, size, ihc, ihr]
    omega

@[simp]
theorem size_places (F : Forest α) (base : Nat) : (F.places base).size = F.size := by
  induction F generalizing base with
  | nil => rfl
  | cons a children rest ihc ihr => simp only [places, size, ihc, ihr]

theorem postorder_values_perm (F : Forest α) (base : Nat) :
    ((F.postorder base).map Cell.value).Perm F.toList := by
  induction F generalizing base with
  | nil => exact .nil
  | cons a children rest ihc ihr =>
    rw [postorder, List.map_append, List.map_cons, toList]
    exact List.perm_middle.trans (((ihc base).append (ihr _)).cons a)

theorem places_perm (F : Forest α) (base : Nat) :
    (F.places base).toList.Perm (List.range' base F.size) := by
  induction F generalizing base with
  | nil => exact .nil
  | cons a children rest ihc ihr =>
    have hsplit : List.range' base (children.size + 1 + rest.size) =
        List.range' base children.size ++ (base + children.size) ::
          List.range' (base + children.size + 1) rest.size := by
      rw [Nat.add_assoc, ← List.range'_append_1, Nat.add_comm 1, List.range'_succ]
    rw [places, toList, size, hsplit]
    exact (((ihc base).append (ihr _)).cons _).trans List.perm_middle.symm

/-- The table `cells` holds the forest from `base` on. -/
def HeldAt (cells : Nat → Option (Cell α)) : Forest α → Nat → Prop
  | nil, _ => True
  | cons a children rest, base =>
    HeldAt cells children base ∧
      cells (base + children.size) =
        some ⟨a, children.head base, rest.head (base + children.size + 1)⟩ ∧
      HeldAt cells rest (base + children.size + 1)

theorem heldAt_postorder (F : Forest α) {base : Nat} {pre : List (Cell α)} (hpre : pre.length = base)
    (post : List (Cell α)) : HeldAt (fun i => (pre ++ F.postorder base ++ post)[i]?) F base := by
  induction F generalizing base pre post with
  | nil => trivial
  | cons a children rest ihc ihr =>
    refine ⟨?_, ?_, ?_⟩
    · have h := ihc hpre (⟨a, children.head base, rest.head (base + children.size + 1)⟩ ::
        rest.postorder (base + children.size + 1) ++ post)
      simpa [postorder] using h
    · simp [postorder, ← hpre]
    · have hbase : (pre ++ children.postorder base ++
          [(⟨a, children.head base, rest.head (base + children.size + 1)⟩ : Cell α)]).length =
          base + children.size + 1 := by
        simp [hpre]
        omega
      simpa [postorder] using ihr hbase post

section HeldAt

variable {cells : Nat → Option (Cell α)}

theorem HeldAt.linked {F : Forest α} {base : Nat} (h : HeldAt cells F base) :
    Linked (fun i => (cells i).bind Cell.first) (fun i => (cells i).bind Cell.next)
      (F.head base) (F.places base) := by
  induction F generalizing base with
  | nil => rfl
  | cons a children rest ihc ihr =>
    obtain ⟨hc, hcell, hr⟩ := h
    refine ⟨rfl, ?_, ?_⟩
    · simpa only [hcell, Option.bind_some] using ihc hc
    · simpa only [hcell, Option.bind_some] using ihr hr

theorem HeldAt.map_places {F : Forest α} {base : Nat} (h : HeldAt cells F base) :
    (F.places base).map (fun i => (cells i).map Cell.value) = F.map some := by
  induction F generalizing base with
  | nil => rfl
  | cons a children rest ihc ihr =>
    obtain ⟨hc, hcell, hr⟩ := h
    simp only [places, map, hcell, ihc hc, ihr hr, Option.map_some]

theorem HeldAt.isTree {a : α} {children : Forest α} (h : HeldAt cells (cons a children nil) 0) :
    IsTree (fun i => (cells i).bind Cell.first) (fun i => (cells i).bind Cell.next)
      children.size (children.size + 1) := by
  have hlinked := h.linked
  have hperm := places_perm (cons a children nil) 0
  rw [places, places, Nat.zero_add] at hlinked hperm
  rw [size, size, ← List.range_eq_range'] at hperm
  rw [head, Nat.zero_add] at hlinked
  exact ⟨children.places 0, hlinked, hperm⟩

end HeldAt

end Forest
