import Mathlib.Data.List.Basic

/-!
# Stream ciphers

Data combined with a stream of key blocks by exclusive or.  The stream comes from
a state that every block advances, and the last block may be used in part.
Combining twice with the same stream gives the data back.
-/

namespace Stream

def xorBytes (as bs : List UInt8) : List UInt8 := List.zipWith (· ^^^ ·) as bs

@[simp] theorem length_xorBytes (as bs : List UInt8) :
    (xorBytes as bs).length = min as.length bs.length := List.length_zipWith ..

theorem xorBytes_cancel {data key : List UInt8} (h : data.length ≤ key.length) :
    xorBytes (xorBytes data key) key = data := by
  induction data generalizing key with
  | nil => rfl
  | cons d data ih =>
    cases key with
    | nil => cases h
    | cons k key =>
      have hrest := ih (Nat.le_of_succ_le_succ h)
      have hhead : d ^^^ k ^^^ k = d := by rw [UInt8.xor_assoc, UInt8.xor_self, UInt8.xor_zero]
      simp only [xorBytes, List.zipWith_cons_cons] at hrest ⊢
      rw [hrest, hhead]

/-- What stands behind the data does not matter. -/
theorem xorBytes_append_left {as bs : List UInt8} (rest : List UInt8) :
    (xorBytes (as ++ rest) bs).take as.length = xorBytes as bs := by
  induction as generalizing bs with
  | nil => simp [xorBytes]
  | cons a as ih =>
    cases bs with
    | nil => simp [xorBytes]
    | cons b bs =>
      have hrest : (xorBytes (as ++ rest) bs).take as.length = xorBytes as bs := ih
      simp only [xorBytes] at hrest ⊢
      simp [hrest]

theorem xorBytes_comm (as bs : List UInt8) : xorBytes as bs = xorBytes bs as :=
  List.zipWith_comm_of_comm fun a b => UInt8.xor_comm a b

section

variable {σ : Type*} (size : Nat) (block : σ → List UInt8) (next : σ → σ)

/-- The data combined with the stream from a state on, for at most `n` blocks of
`size` bytes. -/
def crypt : Nat → σ → List UInt8 → List UInt8
  | 0, _, _ => []
  | n + 1, s, data =>
    if data = [] then []
    else xorBytes (data.take size) (block s) ++ crypt n (next s) (data.drop size)

variable {size block next}

theorem length_crypt (hblock : ∀ s, (block s).length = size) {n : Nat} {s : σ}
    {data : List UInt8} (hn : data.length ≤ n * size) :
    (crypt size block next n s data).length = data.length := by
  induction n generalizing s data with
  | zero =>
    have hnil : data = [] := List.length_eq_zero_iff.mp (by simpa using hn)
    simp [crypt, hnil]
  | succ n ih =>
    unfold crypt
    split
    next hnil => simp [hnil]
    · have hrest : (data.drop size).length ≤ n * size := by
        rw [List.length_drop]
        rw [Nat.succ_mul] at hn
        omega
      rw [List.length_append, ih hrest, length_xorBytes, List.length_take, List.length_drop, hblock]
      omega

theorem crypt_crypt (hblock : ∀ s, (block s).length = size) {n : Nat} {s : σ}
    {data : List UInt8} (hn : data.length ≤ n * size) :
    crypt size block next n s (crypt size block next n s data) = data := by
  induction n generalizing s data with
  | zero =>
    have hnil : data = [] := List.length_eq_zero_iff.mp (by simpa using hn)
    simp [crypt, hnil]
  | succ n ih =>
    have hlen : (crypt size block next (n + 1) s data).length = data.length :=
      length_crypt hblock hn
    by_cases hnil : data = []
    · simp [crypt, hnil]
    · have hrest : (data.drop size).length ≤ n * size := by
        rw [List.length_drop]
        rw [Nat.succ_mul] at hn
        omega
      have hne : crypt size block next (n + 1) s data ≠ [] := by
        intro heq
        rw [heq] at hlen
        exact hnil (List.length_eq_zero_iff.mp hlen.symm)
      have hout : crypt size block next (n + 1) s data =
          xorBytes (data.take size) (block s) ++ crypt size block next n (next s) (data.drop size) := by
        rw [crypt, if_neg hnil]
      -- the first block of the output is full, or nothing comes after it
      have hsplit : (crypt size block next (n + 1) s data).take size =
            xorBytes (data.take size) (block s) ∧
          (crypt size block next (n + 1) s data).drop size =
            crypt size block next n (next s) (data.drop size) := by
        have hhead : (xorBytes (data.take size) (block s)).length = min size data.length := by
          rw [length_xorBytes, List.length_take, hblock]
          omega
        rw [hout]
        by_cases hfull : size ≤ data.length
        · rw [Nat.min_eq_left hfull] at hhead
          exact ⟨List.take_left' hhead, List.drop_left' hhead⟩
        · have hempty : crypt size block next n (next s) (data.drop size) = [] := by
            have htail : data.drop size = [] := List.drop_eq_nil_of_le (by omega)
            rw [htail]
            cases n with
            | zero => rfl
            | succ n => rw [crypt, if_pos rfl]
          rw [hempty, List.append_nil]
          exact ⟨List.take_of_length_le (by omega), List.drop_eq_nil_of_le (by omega)⟩
      rw [crypt, if_neg hne, hsplit.1, hsplit.2, ih hrest, xorBytes_cancel, List.take_append_drop]
      rw [List.length_take, hblock]
      omega

end

end Stream
