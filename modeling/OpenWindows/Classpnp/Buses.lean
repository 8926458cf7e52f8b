import OpenWindows.Classpnp.Device
import OpenWindows.Lib.Arbiter

/-!
# Buses and their devices

A bus is known by the low byte of its type and the first `CLASSPNP_BUS_ID_LEN` characters of its
identifier.  The buses have different keys, the keys are those of the buses that were enumerated,
and the lists of device indices split the devices among the buses.
-/

namespace Classpnp

open Arbiter

/-! ## Keys -/

/-- What a call of `classpnp_enumerate_bus` asks for. -/
abbrev Pair : Type := Nat × CStr

/-- What the context keeps of a type and an identifier. -/
def Pair.key (p : Pair) : Nat × List UInt8 := (p.1 % 2 ^ 8, p.2.chars.take busIdLen)

def Bus.key (b : Bus) : Nat × List UInt8 := (b.busType, b.busId.takeWhile (· ≠ 0))

/-- The identifier of the bus was stored by `classpnp_strncpy`. -/
def Bus.Stored (b : Bus) : Prop := ∃ x : CStr, b.busId = strncpy x.chars busIdLen

theorem CStr.ne_zero (x : CStr) {c : UInt8} (h : c ∈ x.chars) : c ≠ 0 := by
  rintro rfl
  exact x.noNul h

theorem takeWhile_strncpy (x : CStr) (n : Nat) :
    (strncpy x.chars n).takeWhile (· ≠ 0) = x.chars.take n := by
  unfold strncpy
  rw [List.takeWhile_append_of_pos]
  · cases n - x.chars.length with
    | zero => exact List.append_nil _
    | succ k =>
      rw [List.replicate_succ, List.takeWhile_cons_of_neg]
      · exact List.append_nil _
      · simp
  · intro c hc
    exact decide_eq_true (x.ne_zero (List.mem_of_mem_take hc))

theorem getD_eq_head?_drop (s : List UInt8) (i : Nat) : s.getD i 0 = (s.drop i).head?.getD 0 := by
  rw [List.head?_drop, List.getD_eq_getElem?_getD]

theorem getD_strncpy (s : List UInt8) {n i : Nat} (h : i < n) :
    (strncpy s n).getD i 0 = s.getD i 0 := by
  unfold strncpy
  rw [List.getD_eq_getElem?_getD, List.getD_eq_getElem?_getD, List.getElem?_append]
  split
  · rw [List.getElem?_take_of_lt h]
  · next hlt =>
    rw [List.length_take] at hlt
    rw [List.getElem?_replicate, List.getElem?_eq_none (show s.length ≤ i by omega)]
    split
    · rfl
    · rfl

theorem drop_succ_of_cons {s cs : List UInt8} {i : Nat} {c : UInt8} (h : s.drop i = c :: cs) :
    s.drop (i + 1) = cs := by
  rw [← List.drop_drop, h, List.drop_one, List.tail_cons]

theorem strEqual_iff (x y : CStr) {N n i : Nat} (h : i + n ≤ N) :
    strEqual (strncpy x.chars N) y.chars n i = true ↔
      (x.chars.drop i).take n = (y.chars.drop i).take n := by
  induction n generalizing i with
  | zero =>
    rw [List.take_zero, List.take_zero]
    exact iff_of_true rfl rfl
  | succ n ih =>
    rw [strEqual, getD_strncpy x.chars (by omega), getD_eq_head?_drop, getD_eq_head?_drop]
    have ih' := @ih (i + 1) (by omega)
    cases hx : x.chars.drop i with
    | nil =>
      cases hy : y.chars.drop i with
      | nil => exact iff_of_true rfl rfl
      | cons d ds =>
        have hd : d ≠ 0 := y.ne_zero (List.mem_of_mem_drop (hy ▸ List.mem_cons_self))
        rw [List.head?_nil, Option.getD_none, List.head?_cons, Option.getD_some,
          if_pos hd.symm]
        exact iff_of_false Bool.false_ne_true nofun
    | cons c cs =>
      have hc : c ≠ 0 := x.ne_zero (List.mem_of_mem_drop (hx ▸ List.mem_cons_self))
      cases hy : y.chars.drop i with
      | nil =>
        rw [List.head?_nil, Option.getD_none, List.head?_cons, Option.getD_some, if_pos hc]
        exact iff_of_false Bool.false_ne_true nofun
      | cons d ds =>
        rw [drop_succ_of_cons hx, drop_succ_of_cons hy] at ih'
        rw [List.take_succ_cons, List.take_succ_cons, List.cons.injEq, List.head?_cons,
          Option.getD_some, List.head?_cons, Option.getD_some]
        by_cases hcd : c = d
        · rw [if_neg (not_not.2 hcd), if_neg hc, ih', and_iff_right hcd]
        · rw [if_pos hcd]
          exact iff_of_false Bool.false_ne_true fun h => hcd h.1

theorem Bus.is_iff {b : Bus} (hb : b.Stored) (p : Pair) :
    b.Is p.1 p.2.chars = true ↔ b.key = p.key := by
  obtain ⟨x, hx⟩ := hb
  unfold Bus.Is Bus.key Pair.key
  rw [Bool.and_eq_true, beq_iff_eq, hx, takeWhile_strncpy, strEqual_iff x p.2 (by omega),
    Prod.mk.injEq, List.drop_zero, List.drop_zero]

/-! ## Detection -/

theorem detectLoop_spec (busType busIdx : Nat) {n slot : Nat} {devices : List Device}
    {indices : List Nat} (hfew : devices.length ≤ maxDevices) :
    ∃ new, detectLoop busType busIdx n slot devices indices =
        (devices ++ new, indices ++ List.range' devices.length new.length) ∧
      (∀ dev ∈ new, ∃ slot', dev = detect busType busIdx slot') ∧
      (devices ++ new).length ≤ maxDevices := by
  induction n generalizing slot devices indices with
  | zero =>
    refine ⟨[], ?_, nofun, ?_⟩
    · rw [detectLoop, List.append_nil, List.length_nil, List.range'_zero, List.append_nil]
    · rw [List.append_nil]
      exact hfew
  | succ n ih =>
    rw [detectLoop]
    split
    · refine ⟨[], ?_, nofun, ?_⟩
      · rw [List.append_nil, List.length_nil, List.range'_zero, List.append_nil]
      · rw [List.append_nil]
        exact hfew
    · next hlt =>
      rw [maxDevices] at hlt
      obtain ⟨new, hloop, hnew, hlen⟩ := @ih (slot + 1)
        (devices ++ [detect busType busIdx slot]) (indices ++ [devices.length % 2 ^ 8])
        (by rw [List.length_append, List.length_singleton, maxDevices]; omega)
      refine ⟨detect busType busIdx slot :: new, ?_, ?_, ?_⟩
      · rw [hloop, List.append_assoc, List.append_assoc, List.length_append,
          List.length_singleton, Nat.mod_eq_of_lt (by omega), List.length_cons, List.range'_succ]
        rfl
      · intro dev hdev
        rcases List.mem_cons.1 hdev with rfl | hdev
        · exact ⟨slot, rfl⟩
        · exact hnew dev hdev
      · rw [List.append_assoc] at hlen
        exact hlen

theorem enumerateBus_cases {C : Context} (hfew : C.devices.length ≤ maxDevices) (t : Nat)
    (busId : Option CStr) :
    (∃ st, enumerateBus C t busId = (st, C) ∧ st ≠ ok) ∨
      (∃ x, busId = some x ∧ C.buses.any (Bus.Is t x.chars) = true ∧
        enumerateBus C t busId = (ok, C)) ∨
      ∃ x new, busId = some x ∧ C.buses.any (Bus.Is t x.chars) = false ∧
        C.buses.length < maxBuses ∧
        (∀ dev ∈ new, ∃ slot, dev = detect t C.buses.length slot) ∧
        (C.devices ++ new).length ≤ maxDevices ∧
        enumerateBus C t busId = (ok, { C with
          devices := C.devices ++ new
          buses := C.buses ++ [⟨t % 2 ^ 8, strncpy x.chars busIdLen,
            List.range' C.devices.length new.length⟩]
          stats := { C.stats with totalEnumerations := C.stats.totalEnumerations + 1 } }) := by
  unfold enumerateBus
  cases busId with
  | none => exact .inl ⟨_, rfl, by decide⟩
  | some x =>
    dsimp only
    split
    · exact .inl ⟨_, rfl, by decide⟩
    · next hroom =>
      cases hany : C.buses.any (Bus.Is t x.chars) with
      | true => exact .inr (.inl ⟨x, rfl, hany, if_pos rfl⟩)
      | false =>
        obtain ⟨new, hloop, hnew, hlen⟩ := @detectLoop_spec t C.buses.length (simCount t) 0
          C.devices [] hfew
        refine .inr (.inr ⟨x, new, rfl, hany, Nat.lt_of_not_le hroom, hnew, hlen, ?_⟩)
        rw [if_neg Bool.false_ne_true, hloop]
        rfl

/-! ## The invariant -/

/-- The buses, where `links` are the `bus_idx` of the devices, `pairs` are the pairs that were
enumerated and `types` are the types that the devices were enumerated under. -/
structure BusInv (buses : List Bus) (links : List Nat) (pairs : List Pair) (types : List Nat) :
    Prop where
  few : buses.length ≤ maxBuses
  devices : links.length ≤ maxDevices
  stored : ∀ b ∈ buses, b.Stored
  nodup : (buses.map Bus.key).Nodup
  pairs : ∀ k, k ∈ buses.map Bus.key ↔ k ∈ pairs.map Pair.key
  shares : Shares (buses.map Bus.deviceIndices) links.length
  linked : ∀ (j i : Nat) (b : Bus), buses[j]? = some b → i ∈ b.deviceIndices → links[i]? = some j
  length : types.length = links.length
  typed : ∀ (i j t : Nat) (b : Bus), links[i]? = some j → types[i]? = some t →
    buses[j]? = some b → b.busType = t % 2 ^ 8

section Inv

variable {buses : List Bus} {links types : List Nat} {pairs : List Pair}

theorem busInv_init : BusInv [] [] [] [] where
  few := Nat.zero_le _
  devices := Nat.zero_le _
  stored b hb := by cases hb
  nodup := List.nodup_nil
  pairs _ := Iff.rfl
  shares := shares_nil
  linked _ _ _ hb := by cases hb
  length := rfl
  typed _ _ _ _ hi := by cases hi

theorem BusInv.any_iff (h : BusInv buses links pairs types) (p : Pair) :
    buses.any (Bus.Is p.1 p.2.chars) = true ↔ p.key ∈ pairs.map Pair.key := by
  rw [← h.pairs, List.any_eq_true, List.mem_map]
  constructor
  · rintro ⟨b, hb, his⟩
    exact ⟨b, hb, (Bus.is_iff (h.stored b hb) p).1 his⟩
  · rintro ⟨b, hb, hkey⟩
    exact ⟨b, hb, (Bus.is_iff (h.stored b hb) p).2 hkey⟩

theorem BusInv.owner (h : BusInv buses links pairs types) {i j : Nat} (hi : links[i]? = some j) :
    ∃ b, buses[j]? = some b ∧ i ∈ b.deviceIndices := by
  obtain ⟨j', l, hl, hmem⟩ := h.shares.exists_owner (List.getElem?_eq_some_iff.1 hi).1
  rw [List.getElem?_map] at hl
  obtain ⟨b, hb, rfl⟩ := Option.map_eq_some_iff.1 hl
  have hlink := h.linked j' i b hb hmem
  rw [hi] at hlink
  cases hlink
  exact ⟨b, hb, hmem⟩

theorem BusInv.known (h : BusInv buses links pairs types) {p : Pair}
    (hany : buses.any (Bus.Is p.1 p.2.chars) = true) :
    BusInv buses links (pairs ++ [p]) types :=
  { h with
    pairs := by
      intro k
      rw [h.pairs, List.map_append, List.mem_append]
      constructor
      · exact .inl
      · rintro (hk | hk)
        · exact hk
        · cases List.mem_singleton.1 hk
          exact (h.any_iff p).1 hany }

/-- A first enumeration adds a bus with devices of its own. -/
theorem BusInv.new (h : BusInv buses links pairs types) {p : Pair} {k : Nat}
    (hany : buses.any (Bus.Is p.1 p.2.chars) = false) (hroom : buses.length < maxBuses)
    (hfew : links.length + k ≤ maxDevices) :
    BusInv (buses ++ [⟨p.1 % 2 ^ 8, strncpy p.2.chars busIdLen, List.range' links.length k⟩])
      (links ++ List.replicate k buses.length) (pairs ++ [p]) (types ++ List.replicate k p.1) := by
  generalize hb : (⟨p.1 % 2 ^ 8, strncpy p.2.chars busIdLen, List.range' links.length k⟩ : Bus) = b
  have hkey : b.key = p.key := by
    rw [← hb, Bus.key, takeWhile_strncpy]
    rfl
  have hindices : b.deviceIndices = List.range' links.length k := by rw [← hb]
  have htype : b.busType = p.1 % 2 ^ 8 := by rw [← hb]
  have hfresh : p.key ∉ pairs.map Pair.key := by
    rw [← h.any_iff p, hany]
    exact Bool.false_ne_true
  have hlinks : ∀ {i j : Nat}, (links ++ List.replicate k buses.length)[i]? = some j →
      links[i]? = some j ∨ links.length ≤ i ∧ j = buses.length := by
    intro i j hi
    rw [List.getElem?_append] at hi
    split at hi
    · exact .inl hi
    · next hlt =>
      rw [List.getElem?_replicate] at hi
      split at hi
      · cases hi
        exact .inr ⟨Nat.le_of_not_lt hlt, rfl⟩
      · cases hi
  have hbuses : ∀ {j : Nat} {b' : Bus}, (buses ++ [b])[j]? = some b' →
      buses[j]? = some b' ∨ j = buses.length ∧ b' = b := by
    intro j b' hj
    rw [List.getElem?_append] at hj
    split at hj
    · exact .inl hj
    · next hlt =>
      rw [List.getElem?_singleton] at hj
      split at hj
      · next hzero =>
        cases hj
        exact .inr ⟨by omega, rfl⟩
      · cases hj
  constructor
  · rw [List.length_append, List.length_singleton]
    exact hroom
  · rw [List.length_append, List.length_replicate]
    exact hfew
  · intro b' hb'
    rcases List.mem_append.1 hb' with hb' | hb'
    · exact h.stored b' hb'
    · cases List.mem_singleton.1 hb'
      exact ⟨p.2, by rw [← hb]⟩
  · rw [List.map_append, List.map_singleton, hkey]
    rw [← List.concat_eq_append]
    exact h.nodup.concat fun hmem => hfresh ((h.pairs _).1 hmem)
  · intro k
    rw [List.map_append, List.map_append, List.mem_append, List.mem_append, h.pairs,
      List.map_singleton, List.map_singleton, hkey]
  · rw [List.map_append, List.map_singleton, hindices, List.length_append, List.length_replicate]
    exact h.shares.snoc k
  · intro j i b' hj hi
    rcases hbuses hj with hj | ⟨rfl, rfl⟩
    · have hold := h.linked j i b' hj hi
      rw [List.getElem?_append_left (List.getElem?_eq_some_iff.1 hold).1]
      exact hold
    · rw [hindices, List.mem_range'_1] at hi
      rw [List.getElem?_append_right hi.1, List.getElem?_replicate, if_pos (by omega)]
  · rw [List.length_append, List.length_append, h.length, List.length_replicate,
      List.length_replicate]
  · intro i j t b' hi ht hj
    rcases hlinks hi with hi | ⟨hle, rfl⟩
    · have hlt := (List.getElem?_eq_some_iff.1 hi).1
      rw [List.getElem?_append_left (h.length ▸ hlt)] at ht
      rcases hbuses hj with hj | ⟨rfl, rfl⟩
      · exact h.typed i j t b' hi ht hj
      · obtain ⟨b'', hb'', -⟩ := h.owner hi
        exact absurd (List.getElem?_eq_some_iff.1 hb'').1 (Nat.lt_irrefl _)
    · rw [List.getElem?_append_right (h.length ▸ hle), List.getElem?_replicate] at ht
      split at ht
      · cases ht
        rcases hbuses hj with hj | ⟨-, rfl⟩
        · exact absurd (List.getElem?_eq_some_iff.1 hj).1 (Nat.lt_irrefl _)
        · exact htype
      · cases ht

end Inv

end Classpnp
