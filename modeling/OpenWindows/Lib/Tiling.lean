import Mathlib.Data.List.Chain

/-!
# Pieces laid end to end

Pieces of given lengths stand one behind the other from an address on.  `place` gives the
address of each, `extent` what they cover together.  A piece is one of the list or apart from
it, and replacing some pieces by others of the same extent moves nothing else.
-/

namespace Tiling

variable {β : Type*} (len : β → Nat)

/-- What the pieces cover. -/
def extent : List β → Nat
  | [] => 0
  | b :: bs => len b + extent bs

/-- The pieces with their addresses, from an address on. -/
def place : Nat → List β → List (Nat × β)
  | _, [] => []
  | a, b :: bs => (a, b) :: place (a + len b) bs

variable {len} {a x y : Nat} {b c : β} {bs cs pre mid mid' post : List β}

theorem extent_append : extent len (bs ++ cs) = extent len bs + extent len cs := by
  induction bs with
  | nil => simp [extent]
  | cons b bs ih => simp [extent, ih, Nat.add_assoc]

theorem place_append :
    place len a (bs ++ cs) = place len a bs ++ place len (a + extent len bs) cs := by
  induction bs generalizing a with
  | nil => simp [place, extent]
  | cons b bs ih => simp [place, extent, ih, Nat.add_assoc]

theorem mem_place_iff :
    (x, b) ∈ place len a bs ↔ ∃ pre post, bs = pre ++ b :: post ∧ x = a + extent len pre := by
  constructor
  · intro h
    induction bs generalizing a with
    | nil => cases h
    | cons c bs ih =>
      rcases List.mem_cons.1 h with heq | h
      · cases heq
        exact ⟨[], bs, rfl, rfl⟩
      · obtain ⟨pre, post, rfl, rfl⟩ := ih h
        exact ⟨c :: pre, post, rfl, by simp [extent, Nat.add_assoc]⟩
  · rintro ⟨pre, post, rfl, rfl⟩
    rw [place_append]
    exact List.mem_append_right _ List.mem_cons_self

theorem map_snd_place : (place len a bs).map Prod.snd = bs := by
  induction bs generalizing a with
  | nil => rfl
  | cons b bs ih => rw [place, List.map_cons, ih]

theorem mem_of_mem_place (h : (x, b) ∈ place len a bs) : b ∈ bs := by
  have hmem := List.mem_map_of_mem (f := Prod.snd) h
  rwa [map_snd_place] at hmem

/-- Every piece stands inside the whole. -/
theorem place_bounds (h : (x, b) ∈ place len a bs) :
    a ≤ x ∧ x + len b ≤ a + extent len bs := by
  obtain ⟨pre, post, rfl, rfl⟩ := mem_place_iff.1 h
  simp only [extent_append, extent]
  omega

theorem place_apart (hb : (x, b) ∈ place len a bs) (hc : (y, c) ∈ place len a bs) :
    (x = y ∧ b = c) ∨ x + len b ≤ y ∨ y + len c ≤ x := by
  induction bs generalizing a with
  | nil => cases hb
  | cons d bs ih =>
    rcases List.mem_cons.1 hb with hb | hb
    · cases hb
      rcases List.mem_cons.1 hc with hc | hc
      · cases hc
        exact .inl ⟨rfl, rfl⟩
      · exact .inr (.inl (place_bounds hc).1)
    · rcases List.mem_cons.1 hc with hc | hc
      · cases hc
        exact .inr (.inr (place_bounds hb).1)
      · exact ih hb hc

/-- Each piece ends where the next one begins. -/
theorem place_isChain : (place len a bs).IsChain fun p q => p.1 + len p.2 = q.1 := by
  induction bs generalizing a with
  | nil => exact .nil
  | cons b bs ih =>
    cases bs with
    | nil => exact .singleton _
    | cons c bs => exact .cons_cons rfl ih

theorem mem_place_part : (x, b) ∈ place len a (pre ++ mid ++ post) ↔
    (x, b) ∈ place len a pre ∨ (x, b) ∈ place len (a + extent len pre) mid ∨
      (x, b) ∈ place len (a + extent len pre + extent len mid) post := by
  rw [List.append_assoc, place_append, place_append, List.mem_append, List.mem_append]

theorem mem_place_replace (hext : extent len mid' = extent len mid)
    (h : (x, b) ∈ place len a (pre ++ mid' ++ post)) :
    (x, b) ∈ place len (a + extent len pre) mid' ∨
      (x, b) ∈ place len a (pre ++ mid ++ post) ∧ (x + len b ≤ a + extent len pre ∨
        a + extent len pre + extent len mid ≤ x) := by
  rw [mem_place_part] at h ⊢
  rcases h with h | h | h
  · exact .inr ⟨.inl h, .inl (place_bounds h).2⟩
  · exact .inl h
  · rw [hext] at h
    exact .inr ⟨.inr (.inr h), .inr (place_bounds h).1⟩

end Tiling
