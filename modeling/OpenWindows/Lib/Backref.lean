import Mathlib.Data.List.GetD

/-!
# Back-references

Sequences written as literals and copies of what was already produced, over any type of
elements.  A copy runs element by element, so it may read what it has just written.
A sequence of tokens that was cut from a text gives the text back.
-/

namespace Backref

variable {α : Type*}

/-- One element of the factorisation of a sequence. -/
inductive Token (α : Type*)
  | literal (x : α)
  | copy (distance length : Nat)
deriving DecidableEq

section

variable [Inhabited α]

/-- Appends `length` elements, each the one that lies `distance` before the end. -/
def copyBack (distance : Nat) : Nat → List α → List α
  | 0, out => out
  | length + 1, out => copyBack distance length (out ++ [out.getD (out.length - distance) default])

/-- What a token does to the elements produced so far. -/
def Token.apply (out : List α) : Token α → List α
  | .literal x => out ++ [x]
  | .copy distance length => copyBack distance length out

/-- What a sequence of tokens makes of the elements produced so far. -/
def expand (out : List α) (ts : List (Token α)) : List α := ts.foldl Token.apply out

/-- A token reads nothing that lies before the start. -/
def Token.Backed (out : List α) : Token α → Prop
  | .literal _ => True
  | .copy distance _ => distance ≤ out.length

/-- Every token of a sequence reads what was produced. -/
def Backed (out : List α) : List (Token α) → Prop
  | [] => True
  | t :: ts => t.Backed out ∧ Backed (t.apply out) ts

@[simp] theorem expand_nil (out : List α) : expand out [] = out := rfl

@[simp] theorem expand_cons (out : List α) (t : Token α) (ts : List (Token α)) :
    expand out (t :: ts) = expand (t.apply out) ts := rfl

theorem expand_append (out : List α) (ts us : List (Token α)) :
    expand out (ts ++ us) = expand (expand out ts) us := List.foldl_append

theorem backed_append {out : List α} {ts us : List (Token α)} :
    Backed out (ts ++ us) ↔ Backed out ts ∧ Backed (expand out ts) us := by
  induction ts generalizing out with
  | nil => simp [Backed]
  | cons t ts ih => simp [Backed, ih, and_assoc]

@[simp] theorem length_copyBack (distance length : Nat) (out : List α) :
    (copyBack distance length out).length = out.length + length := by
  induction length generalizing out with
  | zero => rfl
  | succ length ih =>
    rw [copyBack, ih, List.length_append, List.length_singleton]
    omega

theorem length_le_apply (out : List α) (t : Token α) : out.length ≤ (t.apply out).length := by
  cases t with
  | literal x | copy distance length => simp [Token.apply]

/-- The output only grows. -/
theorem length_le_expand (out : List α) (ts : List (Token α)) :
    out.length ≤ (expand out ts).length := by
  induction ts generalizing out with
  | nil => exact Nat.le_refl _
  | cons t ts ih => exact Nat.le_trans (length_le_apply out t) (ih _)

theorem copyBack_take {text : List α} {pos distance length : Nat} (h0 : 0 < distance)
    (hd : distance ≤ pos) (hl : pos + length ≤ text.length)
    (heq : ∀ k < length, text.getD (pos + k - distance) default = text.getD (pos + k) default) :
    copyBack distance length (text.take pos) = text.take (pos + length) := by
  induction length generalizing pos with
  | zero => rfl
  | succ length ih =>
    have hpos : pos < text.length := by omega
    have hstep : text.take pos ++ [(text.take pos).getD ((text.take pos).length - distance) default] =
        text.take (pos + 1) := by
      have h := heq 0 (by omega)
      rw [Nat.add_zero] at h
      rw [List.length_take_of_le (Nat.le_of_lt hpos), List.take_add_one, List.getElem?_eq_getElem hpos]
      have hlt : pos - distance < pos := by omega
      rw [List.getD_eq_getElem?_getD, List.getElem?_take_of_lt hlt, ← List.getD_eq_getElem?_getD, h,
        List.getD_eq_getElem _ _ hpos]
      rfl
    rw [copyBack, hstep, ih (by omega) (by omega), Nat.add_assoc, Nat.add_comm 1]
    intro k hk
    have h := heq (k + 1) (by omega)
    rw [Nat.add_assoc, Nat.add_comm 1]
    exact h

end

/-! ## Factorisations of a text -/

section

variable [Inhabited α] (text : List α)

/-- The tokens produce the first `pos` elements of the text. -/
structure Factors (ts : List (Token α)) (pos : Nat) : Prop where
  backed : Backed [] ts
  expands : expand [] ts = text.take pos
  le : pos ≤ text.length

variable {text} {ts : List (Token α)} {pos : Nat}

theorem Factors.nil : Factors text [] 0 := ⟨trivial, rfl, Nat.zero_le _⟩

theorem Factors.snoc (h : Factors text ts pos) {t : Token α} {pos' : Nat}
    (hb : t.Backed (text.take pos)) (he : t.apply (text.take pos) = text.take pos')
    (hle : pos' ≤ text.length) : Factors text (ts ++ [t]) pos' where
  backed := by
    rw [backed_append, h.expands]
    exact ⟨h.backed, hb, trivial⟩
  expands := by rw [expand_append, h.expands, expand_cons, expand_nil, he]
  le := hle

theorem Factors.literal (h : Factors text ts pos) (hpos : pos < text.length) :
    Factors text (ts ++ [.literal (text.getD pos default)]) (pos + 1) := by
  refine h.snoc trivial ?_ hpos
  rw [Token.apply, List.take_add_one, List.getElem?_eq_getElem hpos, List.getD_eq_getElem _ _ hpos]
  rfl

theorem Factors.copy (h : Factors text ts pos) {distance length : Nat} (h0 : 0 < distance)
    (hd : distance ≤ pos) (hl : pos + length ≤ text.length)
    (heq : ∀ k < length, text.getD (pos + k - distance) default = text.getD (pos + k) default) :
    Factors text (ts ++ [.copy distance length]) (pos + length) := by
  refine h.snoc ?_ (copyBack_take h0 hd hl heq) hl
  rw [Token.Backed, List.length_take_of_le h.le]
  exact hd

theorem Factors.expand_eq (h : Factors text ts text.length) : expand [] ts = text := by
  rw [h.expands, List.take_length]

end

end Backref
