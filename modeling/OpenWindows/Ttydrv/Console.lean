import Mathlib.Algebra.Group.Nat.Defs
import OpenWindows.Lib.StepSystem

/-!
# The console of `ttydrv`

A cursor that moves over a buffer of cells.  A character is written in a bounded number of
steps, but for a tab: its loop waits for the next tab stop, and where that stop is behind the
last column the cursor goes round the lines and never reaches it.
-/

namespace Ttydrv

open StepSystem

/-! ## The driver -/

/-- `tty_cell_t`. -/
structure Cell where
  ch : UInt8
  fg : UInt8
  bg : UInt8
  deriving DecidableEq

/-- The state of the driver, with the indices of the cells that it has written. -/
structure Screen where
  cells : List Cell
  rows : Nat
  cols : Nat
  fg : UInt8
  bg : UInt8
  curRow : Nat
  curCol : Nat
  initialized : Bool
  written : List Nat

def Screen.put (s : Screen) (i : Nat) (c : Cell) : Screen :=
  { s with cells := s.cells.set i c, written := i :: s.written }

/-- `ttydrv_row`: the index of the first cell of a row. -/
def ttydrvRow (s : Screen) (row : Nat) : Option Nat :=
  if row ≥ s.rows then none else some (row * s.cols)

/-- `ttydrv_blank_row`. -/
def ttydrvBlankRow (s : Screen) (row : Nat) : Screen :=
  match ttydrvRow s row with
  | none => s
  | some cells =>
    (List.range s.cols).foldl (fun s col => s.put (cells + col) ⟨32, s.fg, s.bg⟩) s

/-- One turn of the loop of `tty_scroll`, with `ow_memmove` cell by cell. -/
def copyRow (s : Screen) (row : Nat) : Screen :=
  match ttydrvRow s row, ttydrvRow s (row + 1) with
  | some dst, some src =>
    (List.range s.cols).foldl
      (fun s col => s.put (dst + col) (s.cells.getD (src + col) ⟨0, 0, 0⟩)) s
  | _, _ => s

/-- `tty_scroll`. -/
def ttyScroll (s : Screen) : Screen :=
  if !s.initialized ∨ s.rows < 2 then
    if s.initialized then ttydrvBlankRow s 0 else s
  else ttydrvBlankRow ((List.range (s.rows - 1)).foldl copyRow s) (s.rows - 1)

/-- The end of `ttydrv_put_glyph`: the cell at the cursor. -/
def placeGlyph (s : Screen) (ch : UInt8) : Screen :=
  match ttydrvRow s s.curRow with
  | none => s
  | some row =>
    { s.put (row + s.curCol) ⟨ch, s.fg, s.bg⟩ with curCol := (s.curCol + 1) % 2 ^ 16 }

/-- The test for the last row, in `ttydrv_put_glyph` and `tty_write_char`. -/
def keepRow (s : Screen) : Screen :=
  if s.curRow ≥ s.rows then ttyScroll { s with curRow := (s.rows + (2 ^ 16 - 1)) % 2 ^ 16 } else s

/-- `ttydrv_put_glyph`. -/
def ttydrvPutGlyph (s : Screen) (ch : UInt8) : Screen :=
  placeGlyph (keepRow (if s.curCol ≥ s.cols
    then { s with curCol := 0, curRow := (s.curRow + 1) % 2 ^ 16 } else s)) ch

/-- `next` of a tab. -/
def tabStop (col : Nat) : Nat := (col + 8) &&& 0xFFF8

/-- One turn of the loop of a tab. -/
def tabStep (stop : Nat) (s : Screen) : Screen ⊕ Screen :=
  if s.curCol < stop then .inl (ttydrvPutGlyph s 32) else .inr s

/-- `tty_write_char`, with a bound on the turns of the loop of a tab. -/
def ttyWriteChar (turns : Nat) (s : Screen) (c : UInt8) : Option Screen :=
  if !s.initialized then some s
  else if c = 10 then some (keepRow { s with curCol := 0, curRow := (s.curRow + 1) % 2 ^ 16 })
  else if c = 13 then some { s with curCol := 0 }
  else if c = 8 then
    if s.curCol > 0 then some { s with curCol := s.curCol - 1 }
    else if s.curRow > 0 then
      some { s with curRow := s.curRow - 1, curCol := (s.cols + (2 ^ 16 - 1)) % 2 ^ 16 }
    else some s
  else if c = 9 then (runFor (tabStep (tabStop s.curCol)) turns s).getRight?
  else if c < 0x20 then some s
  else some (ttydrvPutGlyph s c)

/-- `tty_write_string`, on the characters before the NUL. -/
def ttyWriteString (turns : Nat) (s : Screen) (text : List UInt8) : Option Screen :=
  text.foldlM (ttyWriteChar turns) s

/-- `tty_clear`. -/
def ttyClear (s : Screen) : Screen :=
  if !s.initialized then s
  else { (List.range s.rows).foldl ttydrvBlankRow s with curRow := 0, curCol := 0 }

/-- `tty_init`, on a buffer of cells. -/
def ttyInit (buffer : List Cell) (rows cols : UInt16) (fg bg : UInt8) : Option Screen :=
  if rows = 0 ∨ cols = 0 then none
  else some (ttyClear ⟨buffer, rows.toNat, cols.toNat, fg &&& 0x0F, bg &&& 0x0F, 0, 0, true, []⟩)

/-! ## What is promised -/

/-- The cursor is on the screen or right behind a line, and every write was inside the buffer. -/
structure Inside (s : Screen) : Prop where
  initialized : s.initialized = true
  cols : 1 ≤ s.cols ∧ s.cols < 2 ^ 16
  rows : s.rows < 2 ^ 16
  row : s.curRow < s.rows
  col : s.curCol ≤ s.cols
  written : ∀ i ∈ s.written, i < s.rows * s.cols

/-- A string is written to its end, and the screen is as it should be after every character. -/
structure Safe (s : Screen) (text : List UInt8) : Prop where
  returns : ∃ turns, (ttyWriteString turns s text).isSome
  inside : ∀ pre, pre <+: text → ∀ turns t, ttyWriteString turns s pre = some t → Inside t

def next (s : Screen) (c : UInt8) : Screen := (ttyWriteChar (2 ^ 16) s c).getD s

/-- The next stop of a tab is on the line. -/
def TabFits (s : Screen) (c : UInt8) : Prop := c = 9 → tabStop s.curCol ≤ s.cols

instance (s : Screen) (c : UInt8) : Decidable (TabFits s c) :=
  inferInstanceAs (Decidable (c = 9 → tabStop s.curCol ≤ s.cols))

variable {s t u : Screen} {c : UInt8} {turns stop : Nat}

/-! ## Writing cells -/

/-- Cells of the buffer are written, and nothing else changes. -/
structure Draws (s t : Screen) : Prop where
  eq : ∃ cells written, t = { s with cells := cells, written := written }
  inside : (∀ i ∈ s.written, i < s.rows * s.cols) → ∀ i ∈ t.written, i < s.rows * s.cols

theorem Draws.refl (s : Screen) : Draws s s := ⟨⟨_, _, rfl⟩, id⟩

theorem Draws.trans (h : Draws s t) (h' : Draws t u) : Draws s u := by
  obtain ⟨⟨_, _, rfl⟩, hin⟩ := h
  obtain ⟨⟨_, _, rfl⟩, hin'⟩ := h'
  exact ⟨⟨_, _, rfl⟩, fun hs => hin' (hin hs)⟩

theorem draws_put {i : Nat} (c : Cell) (h : i < s.rows * s.cols) : Draws s (s.put i c) :=
  ⟨⟨_, _, rfl⟩, fun hs => List.forall_mem_cons.mpr ⟨h, hs⟩⟩

theorem draws_foldl {α : Type*} {f : Screen → α → Screen} {l : List α}
    (h : ∀ t, ∀ a ∈ l, Draws s t → Draws t (f t a)) : Draws s (l.foldl f s) := by
  suffices ∀ t, Draws s t → Draws s (l.foldl f t) from this s (.refl s)
  induction l with
  | nil => exact fun t ht => ht
  | cons a l ih =>
    intro t ht
    exact ih (fun u b hb => h u b (List.mem_cons_of_mem _ hb)) _
      (ht.trans (h t a List.mem_cons_self ht))

variable {row : Nat}

theorem cell_lt {col : Nat} (hrow : row < s.rows) (hcol : col < s.cols) :
    row * s.cols + col < s.rows * s.cols := by
  calc row * s.cols + col
    _ < row * s.cols + s.cols := Nat.add_lt_add_left hcol _
    _ = (row + 1) * s.cols := (Nat.succ_mul row s.cols).symm
    _ ≤ s.rows * s.cols := Nat.mul_le_mul_right _ hrow

theorem draws_row (hrow : row < s.rows) (f : Screen → Nat → Cell) :
    Draws s ((List.range s.cols).foldl (fun t col => t.put (row * s.cols + col) (f t col)) s) := by
  refine draws_foldl fun t col hcol ht => ?_
  obtain ⟨⟨_, _, rfl⟩, -⟩ := ht
  exact draws_put _ (cell_lt hrow (List.mem_range.mp hcol))

theorem draws_blankRow (s : Screen) (row : Nat) : Draws s (ttydrvBlankRow s row) := by
  unfold ttydrvBlankRow ttydrvRow
  by_cases h : row ≥ s.rows
  · rw [if_pos h]
    exact .refl s
  · rw [if_neg h]
    exact draws_row (Nat.lt_of_not_le h) fun t _ => ⟨32, t.fg, t.bg⟩

theorem draws_copyRow (s : Screen) (row : Nat) : Draws s (copyRow s row) := by
  unfold copyRow ttydrvRow
  by_cases h : row + 1 ≥ s.rows
  · rw [if_pos h]
    split
    next hnone => cases hnone
    · exact .refl s
  · rw [if_neg h, if_neg (show ¬ row ≥ s.rows by omega)]
    exact draws_row (by omega) fun t col => t.cells.getD _ _

theorem draws_scroll (s : Screen) : Draws s (ttyScroll s) := by
  unfold ttyScroll
  split
  · split
    · exact draws_blankRow s 0
    · exact .refl s
  · exact (draws_foldl fun t row _ _ => draws_copyRow t row).trans (draws_blankRow _ _)

theorem draws_clear (s : Screen) : Draws s ((List.range s.rows).foldl ttydrvBlankRow s) :=
  draws_foldl fun t row _ _ => draws_blankRow t row

theorem Inside.draws (h : Inside s) (ht : Draws s t) : Inside t := by
  obtain ⟨⟨_, _, rfl⟩, hin⟩ := ht
  exact ⟨h.initialized, h.cols, h.rows, h.row, h.col, hin h.written⟩

/-! ## Glyphs -/

theorem inside_keepRow (h : Inside s) (hrow : row ≤ s.rows) {col : Nat} (hcol : col ≤ s.cols) :
    Inside (keepRow { s with curRow := row, curCol := col }) ∧
      (keepRow { s with curRow := row, curCol := col }).cols = s.cols ∧
      (keepRow { s with curRow := row, curCol := col }).curCol = col := by
  have hlast := h.rows
  have hpos := h.row
  unfold keepRow
  split
  · have hdraws := draws_scroll
      { s with curRow := (s.rows + (2 ^ 16 - 1)) % 2 ^ 16, curCol := col }
    have hback : (s.rows + (2 ^ 16 - 1)) % 2 ^ 16 < s.rows := by omega
    have hinside : Inside
        { s with curRow := (s.rows + (2 ^ 16 - 1)) % 2 ^ 16, curCol := col } :=
      ⟨h.initialized, h.cols, h.rows, hback, hcol, h.written⟩
    refine ⟨hinside.draws hdraws, ?_⟩
    obtain ⟨⟨_, _, heq⟩, -⟩ := hdraws
    dsimp only
    rw [heq]
    exact ⟨rfl, rfl⟩
  next hlt =>
    exact ⟨⟨h.initialized, h.cols, h.rows, Nat.lt_of_not_le hlt, hcol, h.written⟩, rfl, rfl⟩

/-- A cell at a cursor that is on the screen. -/
theorem inside_placeGlyph (h : Inside s) (hcol : s.curCol < s.cols) (ch : UInt8) :
    Inside (placeGlyph s ch) ∧ (placeGlyph s ch).cols = s.cols ∧
      (placeGlyph s ch).curCol = s.curCol + 1 := by
  have hmod : (s.curCol + 1) % 2 ^ 16 = s.curCol + 1 :=
    Nat.mod_eq_of_lt (Nat.lt_of_le_of_lt hcol h.cols.2)
  have hdraws := draws_put (s := s) ⟨ch, s.fg, s.bg⟩ (cell_lt h.row hcol)
  rw [placeGlyph, ttydrvRow, if_neg (Nat.not_le_of_lt h.row)]
  dsimp only
  rw [hmod]
  exact ⟨⟨h.initialized, h.cols, h.rows, h.row, hcol, (h.draws hdraws).written⟩, rfl, rfl⟩

theorem inside_putGlyph (h : Inside s) (ch : UInt8) :
    Inside (ttydrvPutGlyph s ch) ∧ (ttydrvPutGlyph s ch).cols = s.cols ∧
      (s.curCol < s.cols → (ttydrvPutGlyph s ch).curCol = s.curCol + 1) := by
  have hlast := h.rows
  have hrow := h.row
  have hcols := h.cols
  unfold ttydrvPutGlyph
  split
  next hfull =>
    have hnext : (s.curRow + 1) % 2 ^ 16 ≤ s.rows := by omega
    obtain ⟨hk, hkcols, hkcol⟩ := inside_keepRow h hnext (Nat.zero_le s.cols)
    obtain ⟨hp, hpcols, -⟩ := inside_placeGlyph hk (by rw [hkcol, hkcols]; omega) ch
    exact ⟨hp, hpcols.trans hkcols, fun hlt => absurd hfull (Nat.not_le_of_lt hlt)⟩
  next hroom =>
    have hkeep : keepRow s = s := if_neg (Nat.not_le_of_lt hrow)
    rw [hkeep]
    obtain ⟨hp, hpcols, hpcol⟩ := inside_placeGlyph h (Nat.lt_of_not_le hroom) ch
    exact ⟨hp, hpcols, fun _ => hpcol⟩

/-! ## Tabs -/

theorem halts_tab (h : Inside s) (hstop : stop ≤ s.cols) :
    ∃ n t, n ≤ stop - s.curCol ∧ Halts (tabStep stop) n s t ∧ Inside t := by
  induction hd : stop - s.curCol generalizing s with
  | zero => exact ⟨0, s, Nat.le_refl 0, ⟨s, .refl s, if_neg (by omega)⟩, h⟩
  | succ d ih =>
    have hlt : s.curCol < stop := by omega
    obtain ⟨hp, hpcols, hpcol⟩ := inside_putGlyph h 32
    have hcol := hpcol (by omega)
    obtain ⟨n, t, hn, ⟨v, hsteps, hend⟩, ht⟩ := ih hp (hpcols ▸ hstop) (by omega)
    exact ⟨n + 1, t, Nat.succ_le_succ hn, ⟨v, .head (if_pos hlt) hsteps, hend⟩, ht⟩

/-- And nowhere else: the cursor stays on the line or goes to the next one. -/
theorem not_halts_tab (h : Inside s) (hstop : s.cols < stop) (n : Nat) (t : Screen) :
    ¬ Halts (tabStep stop) n s t := by
  refine not_halts_of_invariant (P := fun s => Inside s ∧ s.cols < stop) ?_ ⟨h, hstop⟩ n t
  rintro s ⟨h, hstop⟩
  obtain ⟨hp, hpcols, -⟩ := inside_putGlyph h 32
  exact ⟨_, if_pos (Nat.lt_of_le_of_lt h.col hstop), hp, hpcols ▸ hstop⟩

/-! ## Characters -/

theorem writeChar_plain (h : Inside s) (hc : c ≠ 9) :
    ∃ t, Inside t ∧ ∀ turns, ttyWriteChar turns s c = some t := by
  have hrows := h.rows
  have hrow := h.row
  have hcols := h.cols
  have hcol := h.col
  have hready : ¬ (!s.initialized) = true := by simp [h.initialized]
  simp only [ttyWriteChar, if_neg hready, if_neg hc]
  split_ifs
  · have hmod : (s.curRow + 1) % 2 ^ 16 ≤ s.rows := by omega
    exact ⟨_, (inside_keepRow h hmod (Nat.zero_le _)).1, fun _ => rfl⟩
  · refine ⟨_, ?_, fun _ => rfl⟩
    exact ⟨h.initialized, hcols, hrows, hrow, Nat.zero_le _, h.written⟩
  · have hback : s.curCol - 1 ≤ s.cols := by omega
    refine ⟨_, ?_, fun _ => rfl⟩
    exact ⟨h.initialized, hcols, hrows, hrow, hback, h.written⟩
  · have hup : s.curRow - 1 < s.rows := by omega
    have hlast : (s.cols + (2 ^ 16 - 1)) % 2 ^ 16 ≤ s.cols := by omega
    refine ⟨_, ?_, fun _ => rfl⟩
    exact ⟨h.initialized, hcols, hrows, hup, hlast, h.written⟩
  · exact ⟨_, h, fun _ => rfl⟩
  · exact ⟨_, h, fun _ => rfl⟩
  · exact ⟨_, (inside_putGlyph h c).1, fun _ => rfl⟩

theorem writeChar_tab (h : Inside s) (turns : Nat) :
    ttyWriteChar turns s 9 = (runFor (tabStep (tabStop s.curCol)) turns s).getRight? := by
  unfold ttyWriteChar
  rw [h.initialized]
  rfl

theorem writeChar_tab_iff (h : Inside s) :
    ttyWriteChar turns s 9 = some t ↔ ∃ k, k < turns ∧ Halts (tabStep (tabStop s.curCol)) k s t := by
  rw [writeChar_tab h, Sum.getRight?_eq_some_iff, runFor_eq_inr]

theorem writeChar_cases (h : Inside s) (c : UInt8) :
    (TabFits s c ∧ Inside (next s c) ∧ ttyWriteChar (2 ^ 16) s c = some (next s c) ∧
        ∀ turns t, ttyWriteChar turns s c = some t → t = next s c) ∨
      (¬ TabFits s c ∧ ∀ turns, ttyWriteChar turns s c = none) := by
  have hnext {t : Screen} (ht : ttyWriteChar (2 ^ 16) s c = some t) : next s c = t := by
    rw [next, ht, Option.getD_some]
  by_cases hc : c = 9
  · subst hc
    by_cases hstop : tabStop s.curCol ≤ s.cols
    · obtain ⟨n, t, hn, hhalts, ht⟩ := halts_tab h hstop
      have hle : tabStop s.curCol ≤ 0xFFF8 := Nat.and_le_right
      have hwrite : ttyWriteChar (2 ^ 16) s 9 = some t :=
        (writeChar_tab_iff h).mpr ⟨n, by omega, hhalts⟩
      rw [hnext hwrite]
      refine .inl ⟨fun _ => hstop, ht, hwrite, fun turns u hu => ?_⟩
      obtain ⟨k, -, hk⟩ := (writeChar_tab_iff h).mp hu
      exact (hk.unique hhalts).2
    · refine .inr ⟨fun hfits => hstop (hfits rfl), fun turns => ?_⟩
      rw [Option.eq_none_iff_forall_ne_some]
      intro t ht
      obtain ⟨k, -, hk⟩ := (writeChar_tab_iff h).mp ht
      exact not_halts_tab h (Nat.lt_of_not_le hstop) k t hk
  · obtain ⟨t, ht, hwrite⟩ := writeChar_plain h hc
    rw [hnext (hwrite _)]
    refine .inl ⟨fun htab => absurd htab hc, ht, hwrite _, fun turns u hu => ?_⟩
    exact Option.some.inj (hu.symm.trans (hwrite turns))

theorem writeString_cons (turns : Nat) (s : Screen) (c : UInt8) (text : List UInt8) :
    ttyWriteString turns s (c :: text) =
      (ttyWriteChar turns s c).bind fun t => ttyWriteString turns t text := rfl

variable {text : List UInt8}

theorem writeString_inside (h : Inside s)
    (ht : ttyWriteString turns s text = some t) : Inside t := by
  induction text generalizing s with
  | nil =>
    cases ht
    exact h
  | cons c text ih =>
    rw [writeString_cons, Option.bind_eq_some_iff] at ht
    obtain ⟨u, hu, ht⟩ := ht
    obtain ⟨-, hin, -, hunique⟩ | ⟨-, hnone⟩ := writeChar_cases h c
    · rw [hunique turns u hu] at ht
      exact ih hin ht
    · rw [hnone] at hu
      cases hu

theorem along_of_writeString (h : Inside s)
    (ht : ttyWriteString turns s text = some t) : Along next TabFits s text := by
  induction text generalizing s with
  | nil => trivial
  | cons c text ih =>
    rw [writeString_cons, Option.bind_eq_some_iff] at ht
    obtain ⟨u, hu, ht⟩ := ht
    obtain ⟨hfits, hin, -, hunique⟩ | ⟨-, hnone⟩ := writeChar_cases h c
    · rw [hunique turns u hu] at ht
      exact ⟨hfits, ih hin ht⟩
    · rw [hnone] at hu
      cases hu

theorem writeString_of_along (h : Inside s) (hall : Along next TabFits s text) :
    ttyWriteString (2 ^ 16) s text = some (text.foldl next s) := by
  induction text generalizing s with
  | nil => rfl
  | cons c text ih =>
    obtain ⟨-, hin, hwrite, -⟩ | ⟨hfits, -⟩ := writeChar_cases h c
    · rw [writeString_cons, hwrite, Option.bind_some, List.foldl_cons]
      exact ih hin hall.2
    · exact absurd hall.1 hfits

theorem Inside.safe_iff (h : Inside s) (text : List UInt8) :
    Safe s text ↔ Along next TabFits s text := by
  constructor
  · rintro ⟨⟨turns, hturns⟩, -⟩
    obtain ⟨t, ht⟩ := Option.isSome_iff_exists.mp hturns
    exact along_of_writeString h ht
  · intro hall
    refine ⟨⟨2 ^ 16, ?_⟩, fun pre _ turns t ht => writeString_inside h ht⟩
    rw [writeString_of_along h hall]
    rfl

theorem inside_init {buffer : List Cell} {rows cols : UInt16} {fg bg : UInt8}
    (h : ttyInit buffer rows cols fg bg = some s) : Inside s := by
  unfold ttyInit at h
  split at h
  · cases h
  next hsize =>
    obtain ⟨hrows, hcols⟩ := not_or.mp hsize
    have hrow : 0 < rows.toNat := UInt16.pos_iff_ne_zero.mpr hrows
    have hcol : 1 ≤ cols.toNat := UInt16.pos_iff_ne_zero.mpr hcols
    obtain ⟨⟨_, _, heq⟩, hin⟩ := draws_clear
      ⟨buffer, rows.toNat, cols.toNat, fg &&& 0x0F, bg &&& 0x0F, 0, 0, true, []⟩
    have hwritten := hin nofun
    cases h
    rw [heq] at hwritten
    rw [ttyClear, if_neg (by simp), heq]
    exact ⟨rfl, ⟨hcol, cols.toNat_lt⟩, rows.toNat_lt, hrow, Nat.zero_le _, hwritten⟩

/-- On every screen, a string is written to its end inside the buffer exactly when no tab of it
waits for a stop behind the last column. -/
theorem write_safe_iff {buffer : List Cell} {rows cols : UInt16} {fg bg : UInt8}
    (h : ttyInit buffer rows cols fg bg = some s) (text : List UInt8) :
    Safe s text ↔ Along next TabFits s text := (inside_init h).safe_iff text

/-- A tab with a stop, a row that wraps and a newline that scrolls. -/
theorem write_safe_iff_wraps :
    ∃ s, ttyInit (List.replicate 20 ⟨0, 0, 0⟩) 2 10 7 0 = some s ∧
      Safe s [0x41, 9, 0x42, 0x42, 0x43, 9, 10, 0x44] := by
  obtain ⟨s, hs⟩ : ∃ s, ttyInit (List.replicate 20 ⟨0, 0, 0⟩) 2 10 7 0 = some s := ⟨_, rfl⟩
  refine ⟨s, hs, (write_safe_iff hs _).mpr ?_⟩
  cases hs
  decide

/-- A tab behind the eighth of ten columns never ends. -/
theorem tab_hangs :
    ∃ s, ttyInit (List.replicate 20 ⟨0, 0, 0⟩) 2 10 7 0 = some s ∧
      ¬ Safe s (List.replicate 8 0x41 ++ [9]) := by
  obtain ⟨s, hs⟩ : ∃ s, ttyInit (List.replicate 20 ⟨0, 0, 0⟩) 2 10 7 0 = some s := ⟨_, rfl⟩
  refine ⟨s, hs, fun hsafe => ?_⟩
  have hall := ((inside_init hs).safe_iff _).mp hsafe
  have hstop : tabStop ((List.replicate 8 0x41).foldl next s).curCol ≤
      ((List.replicate 8 0x41).foldl next s).cols := (along_append.mp hall).2.1 rfl
  cases hs
  exact absurd hstop (by decide)

end Ttydrv
