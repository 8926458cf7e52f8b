import Mathlib.Data.List.GetD
import OpenWindows.Lib.Bytes

/-!
# Byte memory

Memory is a function from addresses to bytes.  Numbers are loaded and stored
little-endian.  What a sequence of stores leaves alone is said with `SameOn`, a
region being a predicate on addresses.

A place is a row of bytes that holds a number.  The numbers of a list of places are
changed one after the other, each by what its place holds then.  Where no two places
share a byte, each number is changed once and the bytes between them stay.
-/

namespace Memory

open Bytes

/-- The bytes of all addresses. -/
def Mem := Nat → UInt8

/-- `n` bytes from an address. -/
def load (m : Mem) (a n : Nat) : List UInt8 := (List.range n).map fun i => m (a + i)

/-- Write bytes at an address. -/
def store (m : Mem) (a : Nat) (bs : List UInt8) : Mem :=
  fun x => if a ≤ x ∧ x < a + bs.length then bs.getD (x - a) 0 else m x

/-- The number in `n` bytes. -/
def loadNum (m : Mem) (a n : Nat) : Nat := leNum (load m a n)

/-- Write the lowest `n` bytes of a number. -/
def storeNum (m : Mem) (a n v : Nat) : Mem := store m a (leBytes n v)

/-- Two memories agree on a region. -/
def SameOn (P : Nat → Prop) (m m' : Mem) : Prop := ∀ x, P x → m' x = m x

/-- The addresses from `a` up to `b`. -/
def Span (a b x : Nat) : Prop := a ≤ x ∧ x < b

variable {m m' m'' : Mem} {P Q : Nat → Prop} {a b n v : Nat}

@[simp] theorem length_leBytes (n v : Nat) : (leBytes n v).length = n := by
  induction n generalizing v with
  | zero => rfl
  | succ n ih => simp [leBytes, ih]

@[simp] theorem length_load (m : Mem) (a n : Nat) : (load m a n).length = n := by simp [load]

theorem leNum_leBytes (n v : Nat) : leNum (leBytes n v) = v % 256 ^ n := by
  induction n generalizing v with
  | zero => simp [leBytes, Nat.mod_one]
  | succ n ih =>
    rw [leBytes, leNum, ih, Nat.pow_succ', Nat.mod_mul, UInt8.toNat_ofNat']

theorem loadNum_eq_zero (h : ∀ x, a ≤ x → x < a + n → m x = 0) : loadNum m a n = 0 := by
  have hload : load m a n = List.replicate n 0 := by
    refine List.eq_replicate_iff.mpr ⟨length_load .., fun b hb => ?_⟩
    obtain ⟨i, hi, rfl⟩ := List.mem_map.mp hb
    exact h _ (Nat.le_add_right ..) (Nat.add_lt_add_left (List.mem_range.mp hi) a)
  rw [loadNum, hload, leNum_replicate_zero]

theorem load_add (m : Mem) (a n k : Nat) : load m a (n + k) = load m a n ++ load m (a + n) k := by
  unfold load
  rw [List.range_add, List.map_append, List.map_map]
  congr 1
  refine List.map_congr_left fun i _ => ?_
  rw [Function.comp_apply, Nat.add_assoc]

theorem load_succ (m : Mem) (a n : Nat) : load m a (n + 1) = m a :: load m (a + 1) n := by
  rw [Nat.add_comm, load_add]
  simp [load]

variable {bs : List UInt8} {k : Nat}

/-- Bytes that stand in memory one after the other. -/
theorem load_append {rest : List UInt8} (h : load m a (bs ++ rest).length = bs ++ rest) :
    load m a bs.length = bs ∧ load m (a + bs.length) rest.length = rest := by
  rw [List.length_append, load_add] at h
  exact List.append_inj h (by simp)

/-! ## Agreement -/

theorem SameOn.refl (P : Nat → Prop) (m : Mem) : SameOn P m m := fun _ _ => rfl

theorem SameOn.trans (h : SameOn P m m') (h' : SameOn P m' m'') : SameOn P m m'' :=
  fun x hx => (h' x hx).trans (h x hx)

theorem SameOn.mono (h : SameOn P m m') (hPQ : ∀ x, Q x → P x) : SameOn Q m m' :=
  fun x hx => h x (hPQ x hx)

theorem SameOn.load_eq (h : SameOn P m m') (hP : ∀ x, a ≤ x → x < a + n → P x) :
    load m' a n = load m a n := by
  refine List.map_congr_left fun i hi => h _ (hP _ (by omega) ?_)
  have := List.mem_range.mp hi
  omega

theorem SameOn.loadNum_eq (h : SameOn P m m') (hP : ∀ x, a ≤ x → x < a + n → P x) :
    loadNum m' a n = loadNum m a n := by
  rw [loadNum, loadNum, h.load_eq hP]

/-- Slots of one size with different numbers do not overlap. -/
theorem mul_apart {i j : Nat} (hij : i ≠ j) (size : Nat) :
    i * size + size ≤ j * size ∨ j * size + size ≤ i * size := by
  rw [← Nat.succ_mul, ← Nat.succ_mul]
  rcases Nat.lt_or_gt_of_ne hij with h | h
  · exact .inl (Nat.mul_le_mul_right size h)
  · exact .inr (Nat.mul_le_mul_right size h)

/-! ## Stores -/

theorem store_of_outside {x : Nat} (h : x < a ∨ a + bs.length ≤ x) :
    store m a bs x = m x := if_neg (by omega)

theorem sameOn_store (hP : ∀ x, P x → x < a ∨ a + bs.length ≤ x) :
    SameOn P m (store m a bs) := fun x hx => store_of_outside (hP x hx)

theorem sameOn_storeNum (hP : ∀ x, P x → x < a ∨ a + n ≤ x) : SameOn P m (storeNum m a n v) :=
  sameOn_store (by simpa using hP)

theorem load_store_self (m : Mem) (a : Nat) (bs : List UInt8) :
    load (store m a bs) a bs.length = bs := by
  refine List.ext_getElem (by simp) fun i h1 h2 => ?_
  simp only [load, List.getElem_map, List.getElem_range, store]
  rw [if_pos (by omega), Nat.add_sub_cancel_left, List.getD_eq_getElem _ _ h2]

theorem loadNum_storeNum_self (m : Mem) (a n v : Nat) :
    loadNum (storeNum m a n v) a n = v % 256 ^ n := by
  have h := load_store_self m a (leBytes n v)
  rw [length_leBytes] at h
  rw [loadNum, storeNum, h, leNum_leBytes]

theorem loadNum_storeNum_of_disjoint (h : b + k ≤ a ∨ a + n ≤ b) :
    loadNum (storeNum m a n v) b k = loadNum m b k :=
  (sameOn_storeNum (P := Span b (b + k)) fun x hx => by
    have := hx.1
    have := hx.2
    omega).loadNum_eq fun _ h1 h2 => ⟨h1, h2⟩

theorem storeNum_of_outside {x : Nat} (h : x < a ∨ a + n ≤ x) : storeNum m a n v x = m x :=
  store_of_outside (by simpa using h)

theorem storeNum_storeNum (m : Mem) (a n v w : Nat) :
    storeNum (storeNum m a n v) a n w = storeNum m a n w := by
  funext x
  unfold storeNum store
  simp only [length_leBytes]
  split <;> rfl

theorem leBytes_zero (n : Nat) : leBytes n 0 = List.replicate n 0 := by
  induction n with
  | zero => rfl
  | succ n ih => rw [leBytes, List.replicate_succ, Nat.zero_div, ih]; rfl

theorem storeNum_zero (h : ∀ x, a ≤ x → x < a + n → m x = 0) : storeNum m a n 0 = m := by
  funext x
  unfold storeNum store
  rw [length_leBytes, leBytes_zero]
  split
  next hx =>
    rw [List.getD_eq_getElem _ _ (by rw [List.length_replicate]; omega), List.getElem_replicate,
      h x hx.1 hx.2]
  · rfl

theorem storeNum_loadNum (m m' : Mem) (hk : k < n) :
    storeNum m a n (loadNum m' b n) (a + k) = m' (b + k) := by
  have hbytes := leBytes_leNum (load m' b n)
  rw [length_load] at hbytes
  rw [storeNum, loadNum, hbytes, store, if_pos (by simpa using hk), Nat.add_sub_cancel_left,
    List.getD_eq_getElem _ _ (by simpa using hk)]
  simp [load]

/-! ## Machine words -/

theorem ofNat_loadNum32 {v : UInt32} (h : loadNum m a 4 = v.toNat % 256 ^ 4) :
    UInt32.ofNat (loadNum m a 4) = v := by
  have hv : v.toNat < 256 ^ 4 := v.toNat_lt
  rw [h, Nat.mod_eq_of_lt hv, UInt32.ofNat_toNat]

theorem ofNat_loadNum64 {v : UInt64} (h : loadNum m a 8 = v.toNat % 256 ^ 8) :
    UInt64.ofNat (loadNum m a 8) = v := by
  have hv : v.toNat < 256 ^ 8 := v.toNat_lt
  rw [h, Nat.mod_eq_of_lt hv, UInt64.ofNat_toNat]

/-! ## Records of one size -/

theorem load_of_append {as : List UInt8} (hlen : as.length = n)
    (h : load m a (n + k) = as ++ bs) : load m a n = as ∧ load m (a + n) k = bs := by
  rw [load_add] at h
  exact List.append_inj h (by simp [hlen])

theorem length_flatMap_record {α : Type*} {enc : α → List UInt8}
    (henc : ∀ x, (enc x).length = k) (xs : List α) : (xs.flatMap enc).length = k * xs.length := by
  simp [List.length_flatMap, henc, Nat.mul_comm]

theorem load_record {α : Type*} {enc : α → List UInt8} (henc : ∀ x, (enc x).length = k)
    {xs : List α} (h : load m a (k * xs.length) = xs.flatMap enc) {i : Nat} (hi : i < xs.length) :
    load m (a + k * i) k = enc xs[i] := by
  induction xs generalizing a i with
  | nil => simp at hi
  | cons x xs ih =>
    rw [List.length_cons, Nat.mul_succ, Nat.add_comm, List.flatMap_cons] at h
    obtain ⟨hhead, htail⟩ := load_of_append (henc x) h
    cases i with
    | zero => simpa using hhead
    | succ i =>
      rw [Nat.mul_succ, Nat.add_comm (k * i), ← Nat.add_assoc]
      exact ih htail (Nat.lt_of_succ_lt_succ hi)

/-! ## Numbers changed in place -/

/-- Where a number stands. -/
structure Place where
  addr : Nat
  width : Nat

namespace Place

/-- A byte of the place. -/
def Covers (p : Place) (x : Nat) : Prop := p.addr ≤ x ∧ x < p.addr + p.width

/-- No byte in common. -/
def Apart (p q : Place) : Prop := ∀ x, p.Covers x → ¬ q.Covers x

/-- The number that stands there. -/
def get (p : Place) (m : Mem) : Nat := loadNum m p.addr p.width

/-- Put a number there. -/
def set (p : Place) (m : Mem) (v : Nat) : Mem := storeNum m p.addr p.width v

variable {p q : Place} {m m' : Mem} {v x : Nat}

theorem Apart.symm (h : p.Apart q) : q.Apart p := fun x hq hp => h x hp hq

theorem set_of_outside (h : ¬ p.Covers x) : p.set m v x = m x :=
  storeNum_of_outside (by unfold Covers at h; omega)

theorem get_lt (p : Place) (m : Mem) : p.get m < 256 ^ p.width := by
  have hlt := leNum_lt (load m p.addr p.width)
  rwa [length_load] at hlt

theorem get_set (p : Place) (m : Mem) (v : Nat) : p.get (p.set m v) = v % 256 ^ p.width :=
  loadNum_storeNum_self ..

theorem Apart.get_set (h : p.Apart q) : q.get (p.set m v) = q.get m :=
  SameOn.loadNum_eq (P := q.Covers) (fun x hx => set_of_outside (h.symm x hx)) fun _ h1 h2 => ⟨h1, h2⟩

/-- The number is read off the bytes, and the bytes off the number. -/
theorem eq_of_get_eq (h : p.get m = p.get m') (hx : p.Covers x) : m x = m' x := by
  have hload : load m p.addr p.width = load m' p.addr p.width := by
    rw [← leBytes_leNum (load m p.addr p.width), ← leBytes_leNum (load m' p.addr p.width),
      length_load, length_load]
    exact congrArg _ h
  obtain ⟨k, rfl⟩ := Nat.exists_eq_add_of_le hx.1
  have hk : k < p.width := Nat.lt_of_add_lt_add_left hx.2
  have hget : ∀ n : Mem, (load n p.addr p.width)[k]? = some (n (p.addr + k)) := by
    intro n
    simp [load, hk]
  have hbyte := hget m
  rw [hload, hget m'] at hbyte
  exact (Option.some.inj hbyte).symm

end Place

/-! ## Changes -/

variable {ι : Type*} (place : ι → Place) (f g h : ι → Nat → Nat)

def change (m : Mem) (i : ι) : Mem := (place i).set m (f i ((place i).get m))

/-- Change the numbers at some places, in order. -/
def changeAll (m : Mem) (is : List ι) : Mem := is.foldl (change place f) m

variable {place f g h} {m m' : Mem} {i : ι} {is : List ι} {x : Nat}

/-- The places of a list have no byte in common. -/
def PairwiseApart (place : ι → Place) (is : List ι) : Prop :=
  is.Pairwise fun i j => (place i).Apart (place j)

theorem changeAll_append (m : Mem) (is js : List ι) :
    changeAll place f m (is ++ js) = changeAll place f (changeAll place f m is) js :=
  List.foldl_append

theorem changeAll_of_outside (hx : ∀ i ∈ is, ¬ (place i).Covers x) :
    changeAll place f m is x = m x := by
  induction is generalizing m with
  | nil => rfl
  | cons i is ih =>
    rw [changeAll, List.foldl_cons]
    refine (ih fun j hj => hx j (List.mem_cons_of_mem i hj)).trans ?_
    exact Place.set_of_outside (hx i List.mem_cons_self)

theorem sameOn_changeAll {p : Place} (hsame : SameOn p.Covers m m')
    (hp : ∀ i ∈ is, (place i).Apart p) : SameOn p.Covers m (changeAll place f m' is) :=
  fun x hx => (changeAll_of_outside fun i hi hcovers => hp i hi x hcovers hx).trans (hsame x hx)

theorem get_changeAll_of_apart {p : Place} (hp : ∀ i ∈ is, (place i).Apart p) :
    p.get (changeAll place f m is) = p.get m :=
  (sameOn_changeAll (SameOn.refl _ m) hp).loadNum_eq fun _ h1 h2 => ⟨h1, h2⟩

theorem get_changeAll (hapart : PairwiseApart place is) (hi : i ∈ is) :
    (place i).get (changeAll place f m is) = f i ((place i).get m) % 256 ^ (place i).width := by
  induction is generalizing m with
  | nil => nomatch hi
  | cons j is ih =>
    obtain ⟨hj, hrest⟩ := List.pairwise_cons.mp hapart
    rw [changeAll, List.foldl_cons]
    rcases List.mem_cons.mp hi with rfl | hi
    · refine (get_changeAll_of_apart fun k hk => (hj k hk).symm).trans ?_
      exact Place.get_set ..
    · refine (ih hrest hi).trans ?_
      rw [change, (hj i hi).get_set]

theorem eq_of_places (place : ι → Place) (is : List ι)
    (hget : ∀ i ∈ is, (place i).get m = (place i).get m')
    (hother : ∀ x, (∀ i ∈ is, ¬ (place i).Covers x) → m x = m' x) : m = m' := by
  funext x
  by_cases hx : ∃ i ∈ is, (place i).Covers x
  · obtain ⟨i, hi, hcovers⟩ := hx
    exact Place.eq_of_get_eq (hget i hi) hcovers
  · exact hother x fun i hi hcovers => hx ⟨i, hi, hcovers⟩

theorem changeAll_changeAll_eq_iff (hapart : PairwiseApart place is) :
    changeAll place g (changeAll place f m is) is = changeAll place h m is ↔
      ∀ i ∈ is, g i (f i ((place i).get m) % 256 ^ (place i).width) % 256 ^ (place i).width =
        h i ((place i).get m) % 256 ^ (place i).width := by
  have hget : ∀ i ∈ is, (place i).get (changeAll place g (changeAll place f m is) is) =
      g i (f i ((place i).get m) % 256 ^ (place i).width) % 256 ^ (place i).width := by
    intro i hi
    rw [get_changeAll hapart hi, get_changeAll hapart hi]
  constructor
  · intro heq i hi
    rw [← hget i hi, heq, get_changeAll hapart hi]
  · intro hvalues
    refine eq_of_places place is (fun i hi => ?_) fun x hx => ?_
    · rw [hget i hi, hvalues i hi, get_changeAll hapart hi]
    · rw [changeAll_of_outside hx, changeAll_of_outside hx, changeAll_of_outside hx]

theorem changeAll_eq_self (hapart : PairwiseApart place is)
    (hf : ∀ i ∈ is, f i ((place i).get m) % 256 ^ (place i).width = (place i).get m) :
    changeAll place f m is = m := by
  refine eq_of_places place is (fun i hi => ?_) fun x hx => changeAll_of_outside hx
  rw [get_changeAll hapart hi, hf i hi]

end Memory
