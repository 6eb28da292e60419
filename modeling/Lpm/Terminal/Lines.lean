/-
The lines of a pane's rows, and what drawing on a row does to its text.

A row that wrapped is continued by the next, so rows come to logical lines by `rejoin`, and
`capture` writes these with a line feed between them. What stands in front of a row decides
how its text is taken up (`rejoin_append`) whatever the row holds, so drawing at the end of
the last row draws at the end of the last line.
-/
import Lpm.Terminal.Grid

set_option autoImplicit false

open RustText Checked

namespace Lpm.Terminal

open List Option

/-! ## Rows into lines -/

/-- A text in front of the first line. -/
def prepend (text : Str) : List Str → List Str
  | [] => [text]
  | line :: lines => (text ++ line) :: lines

/-- The logical lines that rows show. -/
def rejoin : List Row → List Str
  | [] => []
  | row :: rows => if row.wrapped then prepend row.text (rejoin rows) else row.text :: rejoin rows

/-- Lines with a line feed between them. -/
def glue (lines : List Str) : Str := List.intercalate ['\n'] lines

@[simp] theorem glue_singleton (line : Str) : glue [line] = line := by
  simp [glue, List.intercalate]

@[simp] theorem glue_cons_cons (line next : Str) (lines : List Str) :
    glue (line :: next :: lines) = line ++ '\n' :: glue (next :: lines) := by
  simp [glue, List.intercalate]

theorem prepend_prepend (a b : Str) (lines : List Str) :
    prepend a (prepend b lines) = prepend (a ++ b) lines := by
  cases lines with
  | nil => rfl
  | cons line lines => rw [prepend, prepend, prepend, append_assoc]

theorem prepend_nil {lines : List Str} (h : lines ≠ []) : prepend [] lines = lines := by
  cases lines with
  | nil => exact absurd rfl h
  | cons line lines => rfl

theorem rejoin_ne_nil {rows : List Row} (h : rows ≠ []) : rejoin rows ≠ [] := by
  cases rows with
  | nil => exact absurd rfl h
  | cons row rows =>
    rw [rejoin]
    split
    · cases rejoin rows <;> exact cons_ne_nil _ _
    · exact cons_ne_nil _ _

/-- Rows in front of others come to whole lines and to the start of the next. -/
theorem rejoin_append (above : List Row) :
    ∃ done start, ∀ rows, rows ≠ [] → rejoin (above ++ rows) = done ++ prepend start (rejoin rows) := by
  induction above with
  | nil => exact ⟨[], [], fun rows h => (prepend_nil (rejoin_ne_nil h)).symm⟩
  | cons row above ih =>
    obtain ⟨done, start, hsplit⟩ := ih
    by_cases hwrapped : row.wrapped = true
    · cases done with
      | nil =>
        refine ⟨[], row.text ++ start, fun rows h => ?_⟩
        rw [cons_append, rejoin, if_pos hwrapped, hsplit rows h, nil_append,
          prepend_prepend, nil_append]
      | cons line done =>
        refine ⟨(row.text ++ line) :: done, start, fun rows h => ?_⟩
        rw [cons_append, rejoin, if_pos hwrapped, hsplit rows h]
        rfl
    · refine ⟨row.text :: done, start, fun rows h => ?_⟩
      rw [cons_append, rejoin, if_neg hwrapped, hsplit rows h]
      rfl

theorem rejoin_single (row : Row) : rejoin [row] = [row.text] := by
  rw [rejoin]
  split <;> rfl

/-- The last row holds the end of the last line. -/
theorem rejoin_last {above : List Row} {row : Row} {done : List Str} {line : Str}
    (h : rejoin (above ++ [row]) = done ++ [line]) :
    ∃ start, line = start ++ row.text ∧
      ∀ rows, rows ≠ [] → rejoin (above ++ rows) = done ++ prepend start (rejoin rows) := by
  obtain ⟨done', start, hsplit⟩ := rejoin_append above
  have hrow := hsplit [row] (cons_ne_nil _ _)
  rw [h, rejoin_single] at hrow
  obtain ⟨rfl, hline⟩ := append_inj' hrow rfl
  exact ⟨start, (List.cons.inj hline).1, hsplit⟩

/-- Text is drawn at the end of the last row. -/
theorem rejoin_draw {above : List Row} {row row' : Row} {done : List Str} {line text : Str}
    (h : rejoin (above ++ [row]) = done ++ [line]) (htext : row'.text = row.text ++ text) :
    rejoin (above ++ [row']) = done ++ [line ++ text] := by
  obtain ⟨start, rfl, hsplit⟩ := rejoin_last h
  rw [hsplit [row'] (cons_ne_nil _ _), rejoin_single, htext, prepend, append_assoc]

/-- A row that wraps is continued by an empty one. -/
theorem rejoin_wrap {above : List Row} {row row' blank : Row} {done : List Str} {line : Str}
    (h : rejoin (above ++ [row]) = done ++ [line]) (htext : row'.text = row.text)
    (hwrapped : row'.wrapped = true) (hblank : blank.text = []) :
    rejoin ((above ++ [row']) ++ [blank]) = done ++ [line] := by
  obtain ⟨start, rfl, hsplit⟩ := rejoin_last h
  rw [append_assoc, hsplit ([row'] ++ [blank]) (cons_ne_nil _ _), singleton_append,
    rejoin, if_pos hwrapped, rejoin_single, hblank, htext]
  simp only [prepend, append_nil]

/-- A row that does not wrap ends its line. -/
theorem rejoin_end {above rest : List Row} {row : Row} (hwrapped : row.wrapped = false) :
    rejoin (above ++ row :: rest) = rejoin (above ++ [row]) ++ rejoin rest := by
  obtain ⟨done, start, hsplit⟩ := rejoin_append above
  rw [hsplit (row :: rest) (cons_ne_nil _ _), hsplit [row] (cons_ne_nil _ _), rejoin,
    rejoin, hwrapped]
  simp only [Bool.false_eq_true, if_false, prepend, rejoin, append_assoc, singleton_append]

/-! ## The capture -/

/-- What the loop adds behind the first row. -/
theorem foldl_capture_row (rows : List Row) (out : Str) («open» : Bool) :
    (rows.foldl Grid.capture_row (out, false, «open»)).1 =
      if rows = [] then out
      else (if «open» then out else out ++ ['\n']) ++ glue (rejoin rows) := by
  induction rows generalizing out «open» with
  | nil => rfl
  | cons row rows ih =>
    have hout : (if !«open» && !false then out ++ ['\n'] else out) =
        if «open» then out else out ++ ['\n'] := by
      cases «open» <;> rfl
    rw [foldl_cons, Grid.capture_row, hout, ih, if_neg (cons_ne_nil _ _), rejoin]
    by_cases hrows : rows = []
    · subst hrows
      rw [if_pos rfl, ← rejoin, rejoin_single, glue_singleton]
    · rw [if_neg hrows]
      obtain ⟨line, lines, hlines⟩ := exists_cons_of_ne_nil (rejoin_ne_nil hrows)
      rw [hlines]
      split
      · rw [prepend]
        cases lines <;> simp only [glue_singleton, glue_cons_cons, append_assoc]
      · rw [glue_cons_cons]
        simp only [append_assoc, singleton_append]

/-- Captured with the whole scrollback, rows come back as their lines. -/
theorem capture_eq (g : Grid) {history : ℕ} (h : g.scrollback.length ≤ history) :
    g.capture history = glue (rejoin (g.scrollback ++ g.screen)) := by
  have hall : g.scrollback.drop (g.scrollback.length - history) = g.scrollback := by
    rw [Nat.sub_eq_zero_of_le h, drop_zero]
  unfold Grid.capture
  rw [hall]
  generalize g.scrollback ++ g.screen = rows
  dsimp only
  cases rows with
  | nil => rfl
  | cons row rows =>
    rw [foldl_cons, Grid.capture_row, foldl_capture_row, rejoin]
    by_cases hrows : rows = []
    · subst hrows
      rw [if_pos rfl, ← rejoin, rejoin_single, glue_singleton]
      rfl
    · rw [if_neg hrows]
      obtain ⟨line, lines, hlines⟩ := exists_cons_of_ne_nil (rejoin_ne_nil hrows)
      rw [hlines]
      split
      · cases lines <;> simp [prepend]
      · simp

/-! ## Drawing on a row -/

variable (marks : List (ℕ × Char))

/-- The text of cells that start at a column, with their marks. -/
def cells_text (start : ℕ) (cells : List Char) : Str :=
  (cells.zipIdx start).flatMap fun (ch, col) =>
    (if ch = WIDE_CONTINUATION then [] else [ch]) ++ (marks.filter fun m => m.1 == col).map Prod.snd

theorem text_eq (row : Row) :
    row.text = cells_text row.marks 0 (row.cells.take (min row.used row.cells.length)) := rfl

theorem cells_text_append (start : ℕ) (a b : List Char) :
    cells_text marks start (a ++ b) =
      cells_text marks start a ++ cells_text marks (start + a.length) b := by
  rw [cells_text, zipIdx_append, flatMap_append]
  rfl

/-- Marks elsewhere say nothing here. -/
theorem cells_text_congr {marks marks' : List (ℕ × Char)} {start : ℕ} {cells : List Char}
    (h : ∀ col, start ≤ col → col < start + cells.length →
      (marks.filter fun m => m.1 == col) = marks'.filter fun m => m.1 == col) :
    cells_text marks start cells = cells_text marks' start cells := by
  unfold cells_text
  rw [flatMap_def, flatMap_def]
  refine congrArg List.flatten (map_congr_left fun e he => ?_)
  obtain ⟨ch, col⟩ := e
  obtain ⟨hle, hlt, -⟩ := mem_zipIdx he
  dsimp only
  rw [h col hle hlt]

/-- The cells a glyph spills into show nothing. -/
theorem cells_text_padding {marks : List (ℕ × Char)} {start n : ℕ}
    (h : ∀ m ∈ marks, m.1 < start) :
    cells_text marks start (List.replicate n WIDE_CONTINUATION) = [] := by
  unfold cells_text
  rw [flatMap_eq_nil_iff]
  rintro ⟨ch, col⟩ he
  obtain ⟨hle, -, hch⟩ := mem_zipIdx he
  rw [getElem_replicate] at hch
  have hnone : (marks.filter fun m => m.1 == col) = [] := by
    refine filter_eq_nil_iff.mpr fun m hm heq => ?_
    have := h m hm
    have := eq_of_beq heq
    omega
  dsimp only
  rw [if_pos hch, hnone]
  rfl

/-- The last glyph of a row: its column, and the cells it spills into behind it. -/
structure Last (row : Row) (col : ℕ) : Prop where
  cells : ∃ before ch n, before.length = col ∧ ch ≠ WIDE_CONTINUATION ∧
    row.cells.take row.used = before ++ ch :: List.replicate n WIDE_CONTINUATION
  fits : row.used ≤ row.cells.length
  marks : ∀ m ∈ row.marks, m.1 ≤ col

theorem cells_text_glyph {marks : List (ℕ × Char)} {col n : ℕ} {ch : Char}
    (hch : ch ≠ WIDE_CONTINUATION) (h : ∀ m ∈ marks, m.1 ≤ col) :
    cells_text marks col (ch :: List.replicate n WIDE_CONTINUATION) =
      ch :: (marks.filter fun m => m.1 == col).map Prod.snd := by
  have hpadding : cells_text marks (col + 1) (List.replicate n WIDE_CONTINUATION) = [] :=
    cells_text_padding fun m hm => Nat.lt_succ_of_le (h m hm)
  rw [← singleton_append, cells_text_append, length_singleton, hpadding]
  simp [cells_text, hch]

/-- A mark goes behind the marks on the last glyph, where there is room for it. -/
theorem Last.add_mark {row : Row} {col : ℕ} (h : Last row col)
    (hroom : (row.marks_at col).length < MAX_MARKS) (mark : Char) :
    (row.add_mark col mark).text = row.text ++ [mark] ∧ Last (row.add_mark col mark) col ∧
      ((row.add_mark col mark).marks_at col).length = (row.marks_at col).length + 1 ∧
      (row.add_mark col mark).used = row.used ∧ (row.add_mark col mark).wrapped = row.wrapped ∧
      (row.add_mark col mark).cells = row.cells := by
  obtain ⟨before, ch, n, hlength, hch, hcells⟩ := h.cells
  have hmin : min row.used row.cells.length = row.used := Nat.min_eq_left h.fits
  have hadded : ∀ m ∈ row.marks ++ [(col, mark)], m.1 ≤ col := by
    intro m hm
    rcases mem_append.mp hm with hold | hnew
    · exact h.marks m hold
    · exact Nat.le_of_eq (congrArg Prod.fst (mem_singleton.mp hnew))
  rw [Row.add_mark, if_pos hroom]
  refine ⟨?_, ⟨⟨before, ch, n, hlength, hch, hcells⟩, h.fits, hadded⟩, ?_, rfl, rfl, rfl⟩
  · have hbefore : cells_text (row.marks ++ [(col, mark)]) 0 before = cells_text row.marks 0 before := by
      refine cells_text_congr fun c _ hlt => ?_
      have hne : (col == c) = false := beq_eq_false_iff_ne.mpr (by omega)
      rw [filter_append, filter_cons, hne]
      simp
    rw [text_eq, text_eq, hmin, hcells, cells_text_append, cells_text_append, hbefore, hlength,
      Nat.zero_add, cells_text_glyph hch hadded, cells_text_glyph hch h.marks, filter_append]
    simp
  · rw [Row.marks_at, filter_append]
    simp [Row.marks_at]

theorem take_succ_set {α : Type} {cells : List α} {i : ℕ} (h : i < cells.length) (ch : α) :
    (cells.set i ch).take (i + 1) = cells.take i ++ [ch] := by
  rw [take_add_one, take_set_of_le (Nat.le_refl i), getElem?_set_self h]
  rfl

/-- The loop that fills the cells a glyph spills into. -/
theorem padded {cells cells' : List Char} {col n : ℕ}
    (h : (List.range' 1 n).foldlM (fun cells pad => set_at cells (col + pad) WIDE_CONTINUATION)
      cells = some cells') :
    cells'.length = cells.length ∧
      (col + 1 + n ≤ cells.length →
        cells'.take (col + 1 + n) = cells.take (col + 1) ++ List.replicate n WIDE_CONTINUATION) := by
  induction n generalizing cells' with
  | zero =>
    cases h
    exact ⟨rfl, fun _ => (append_nil _).symm⟩
  | succ n ih =>
    rw [range'_concat, foldlM_append] at h
    obtain ⟨middle, hmiddle, hset⟩ := bind_eq_some_iff.mp h
    obtain ⟨hlength, htake⟩ := ih hmiddle
    rw [foldlM_cons, set_at] at hset
    split at hset
    next hlt =>
      cases hset
      refine ⟨(length_set ..).trans hlength, fun hle => ?_⟩
      rw [show col + 1 + (n + 1) = col + (1 + 1 * n) + 1 by omega, take_succ_set hlt,
        show col + (1 + 1 * n) = col + 1 + n by omega, htake (by omega), append_assoc,
        replicate_succ']
    next => exact nomatch hset

/-- A glyph at the end of a row is behind its text. -/
theorem drawn {row row' : Row} {col width : ℕ} {ch : Char}
    (h : Grid.draw row col width ch = some row') (hused : row.used = col)
    (hroom : col + width ≤ row.cells.length) (hwidth : 1 ≤ width)
    (hmarks : ∀ m ∈ row.marks, m.1 < col) (hch : ch ≠ WIDE_CONTINUATION) :
    row'.text = row.text ++ [ch] ∧ Last row' col ∧ (row'.marks_at col).length = 0 ∧
      row'.used = col + width ∧ row'.wrapped = row.wrapped ∧
      row'.cells.length = row.cells.length := by
  obtain ⟨cells, hset, hrest⟩ := bind_eq_some_iff.mp h
  obtain ⟨cells', hpad, heq⟩ := bind_eq_some_iff.mp hrest
  cases heq
  have hcells : cells = row.cells.set col ch := by
    rw [set_at, if_pos (by omega)] at hset
    exact (some.inj hset).symm
  obtain ⟨hlength, htake⟩ := padded hpad
  rw [hcells, length_set] at hlength htake
  -- no mark stands on the cells the glyph takes
  have hkept : row.marks.filter (fun m => decide (m.1 < col) || decide (col + width ≤ m.1)) =
      row.marks := filter_eq_self.mpr fun m hm => by simp [hmarks m hm]
  have hused' : max row.used (col + width) = col + width := by omega
  have hsplit : cells'.take (col + width) =
      row.cells.take col ++ ch :: List.replicate (width - 1) WIDE_CONTINUATION := by
    have := htake (by omega)
    rwa [show col + 1 + (width - 1) = col + width by omega, take_succ_set (by omega),
      append_assoc, singleton_append] at this
  have hbefore : (row.cells.take col).length = col := length_take_of_le (by omega)
  have hle : ∀ m ∈ row.marks, m.1 ≤ col := fun m hm => Nat.le_of_lt (hmarks m hm)
  have hnone : row.marks.filter (fun m => m.1 == col) = [] := by
    refine filter_eq_nil_iff.mpr fun m hm heq => ?_
    have := hmarks m hm
    have := eq_of_beq heq
    omega
  simp only [Row.clear_marks, Row.marks_at, hkept, hused']
  have hfits : col + width ≤ cells'.length := by omega
  refine ⟨?_, ⟨⟨_, ch, width - 1, hbefore, hch, hsplit⟩, hfits, hle⟩, by rw [hnone]; rfl, trivial,
    trivial, hlength⟩
  rw [text_eq, text_eq]
  dsimp only
  rw [Nat.min_eq_left hfits, hsplit, hused,
    Nat.min_eq_left (by omega), cells_text_append, hbefore, Nat.zero_add, cells_text_glyph hch hle,
    hnone]
  rfl

end Lpm.Terminal
