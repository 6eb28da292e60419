/-
The screen of a service pane: `termgrid.rs`.

A fixed number of rows and columns, a bounded scrollback, a cursor, a scroll region and
the main screen kept while the alternate one is up. Every operation that indexes or
subtracts may panic in the source, so it is a function into `Option` here.
-/
import Lpm.Lib.Checked
import Lpm.Lib.RustText

set_option autoImplicit false

open RustText Checked

namespace Lpm.Terminal

/-! ## Rows -/

def HISTORY_LIMIT : ℕ := 10000

/-- What stands in the cell a double-width glyph spills into. -/
def WIDE_CONTINUATION : Char := Char.ofNat 0

structure Row where
  cells : List Char
  used : ℕ
  wrapped : Bool
  marks : List (ℕ × Char)
  deriving DecidableEq

def Row.blank (cols : ℕ) : Row :=
  { cells := List.replicate cols ' ', used := 0, wrapped := false, marks := [] }

variable (row : Row)

/-- The marks on a cell, in the order they arrived. -/
def Row.marks_at (col : ℕ) : List (ℕ × Char) := row.marks.filter fun m => m.1 == col

def Row.text : Str :=
  ((row.cells.take (min row.used row.cells.length)).zipIdx).flatMap fun (ch, col) =>
    (if ch = WIDE_CONTINUATION then [] else [ch]) ++ (row.marks_at col).map Prod.snd

def MAX_MARKS : ℕ := 8

def Row.add_mark (col : ℕ) (mark : Char) : Row :=
  if (row.marks_at col).length < MAX_MARKS then { row with marks := row.marks ++ [(col, mark)] }
  else row

def Row.clear_marks (start stop : ℕ) : Row :=
  { row with marks := row.marks.filter fun m => decide (m.1 < start) || decide (stop ≤ m.1) }

def Row.clear : Row :=
  { cells := row.cells.map fun _ => ' ', used := 0, wrapped := false, marks := [] }

/-! ## The grid -/

structure Grid where
  cols : ℕ
  rows : ℕ
  screen : List Row
  scrollback : List Row
  cursor_row : ℕ
  cursor_col : ℕ
  saved_cursor : ℕ × ℕ
  scroll_top : ℕ
  scroll_bottom : ℕ
  wrap_pending : Bool
  autowrap : Bool
  alt_saved : Option (List Row × ℕ × ℕ)
  last_drawn : Option (ℕ × ℕ)
  title : Str
  dropped : ℕ
  anchor : Option ℕ
  typed : Str
  cut_after_echo : Bool

namespace Grid

/-- `(0..rows).map(|_| Row::blank(cols))`. -/
def blank_screen (cols rows : ℕ) : List Row := List.replicate rows (Row.blank cols)

def new (cols rows : ℕ) : Grid :=
  let cols := max cols 1
  let rows := max rows 1
  { cols, rows, screen := blank_screen cols rows, scrollback := [], cursor_row := 0, cursor_col := 0
    saved_cursor := (0, 0), scroll_top := 0, scroll_bottom := rows - 1, wrap_pending := false
    autowrap := true, alt_saved := none, last_drawn := none, title := [], dropped := 0
    anchor := none, typed := [], cut_after_echo := false }

variable (g : Grid)

def on_alt_screen : Bool := g.alt_saved.isSome

/-- `&mut self.screen[row]`, changed by a function. -/
def on_row (row : ℕ) (f : Row → Option Row) : Option Grid := do
  let r ← f (← g.screen[row]?)
  return { g with screen := ← set_at g.screen row r }

/-! ### Cursor and modes -/

def move_to (row col : ℕ) : Option Grid := do
  let last_row ← sub g.rows 1
  let last_col ← sub g.cols 1
  return { g with cursor_row := min row last_row, cursor_col := min col last_col, wrap_pending := false }

variable (n : ℕ)

def cursor_up : Grid :=
  let limit := if g.cursor_row ≥ g.scroll_top then g.scroll_top else 0
  { g with cursor_row := max (g.cursor_row - n) limit, wrap_pending := false }

def cursor_down : Option Grid := do
  let limit ← (if g.cursor_row ≤ g.scroll_bottom then some g.scroll_bottom else sub g.rows 1)
  return { g with cursor_row := min (g.cursor_row + n) limit, wrap_pending := false }

def cursor_left : Grid :=
  { g with cursor_col := g.cursor_col - n, wrap_pending := false }

def cursor_right : Option Grid := do
  return { g with cursor_col := min (g.cursor_col + n) (← sub g.cols 1), wrap_pending := false }

def save_cursor : Grid := { g with saved_cursor := (g.cursor_row, g.cursor_col) }

def restore_cursor : Option Grid := g.move_to g.saved_cursor.1 g.saved_cursor.2

def set_scroll_region (top bottom : ℕ) : Option Grid := do
  let g ← (if top < bottom ∧ bottom < g.rows then
      some { g with scroll_top := top, scroll_bottom := bottom }
    else do
      return { g with scroll_top := 0, scroll_bottom := ← sub g.rows 1 })
  g.move_to g.scroll_top 0

def enter_alt_screen : Option Grid :=
  if g.alt_saved.isSome then some g
  else
    { g with
      alt_saved := some (g.screen, g.cursor_row, g.cursor_col)
      screen := blank_screen g.cols g.rows }.move_to 0 0

def leave_alt_screen : Option Grid :=
  match g.alt_saved with
  | some (screen, row, col) => { g with alt_saved := none, screen := screen }.move_to row col
  | none => some g

def reset : Option Grid := do
  let bottom ← sub g.rows 1
  { g with
    alt_saved := none, last_drawn := none, screen := g.screen.map Row.clear
    scroll_top := 0, scroll_bottom := bottom, autowrap := true }.move_to 0 0

def clear_history : Grid :=
  { g with dropped := g.dropped + g.scrollback.length, scrollback := [] }

/-! ### Scrolling -/

/-- `while self.scrollback.len() > HISTORY_LIMIT`: the rows that stay, and how many are
let go of. -/
def trim_history : List Row → List Row × ℕ
  | [] => ([], 0)
  | row :: rows =>
    if (row :: rows).length > HISTORY_LIMIT then ((trim_history rows).1, (trim_history rows).2 + 1)
    else (row :: rows, 0)

variable (row : Row)

/-- A row goes into the scrollback, and the oldest ones leave it past its limit. -/
def retire : Grid :=
  let trimmed := trim_history (g.scrollback ++ [row])
  { g with scrollback := trimmed.1, dropped := g.dropped + trimmed.2 }

/-- Whether the scroll region is the whole screen. -/
def whole : Bool := g.scroll_top == 0 && g.scroll_bottom + 1 == g.rows

def scroll_up : Option Grid :=
  let keep_history := g.whole && !g.on_alt_screen
  times (min n g.rows) (fun g => do
    let (row, screen) ← remove_at g.screen g.scroll_top
    let g := if keep_history then g.retire row else g
    return { g with screen := ← insert_at screen g.scroll_bottom (Row.blank g.cols) }) g

/-- A blank row at `«at»`, and the row at `gone` out: a turn of the loops of `scroll_down`,
`insert_lines` and `delete_lines`. -/
def replace_row (gone «at» : ℕ) (g : Grid) : Option Grid := do
  let (_, screen) ← remove_at g.screen gone
  return { g with screen := ← insert_at screen «at» (Row.blank g.cols) }

def scroll_down : Option Grid :=
  times (min n g.rows) (fun g => g.replace_row g.scroll_bottom g.scroll_top) g

/-- IL and DL leave a cursor outside the scroll region alone. -/
def outside_region : Bool :=
  decide (g.cursor_row < g.scroll_top) || decide (g.cursor_row > g.scroll_bottom)

def insert_lines : Option Grid :=
  if g.outside_region then some g
  else times (min (max n 1) g.rows) (fun g => g.replace_row g.scroll_bottom g.cursor_row) g

def delete_lines : Option Grid :=
  if g.outside_region then some g
  else times (min (max n 1) g.rows) (fun g => g.replace_row g.cursor_row g.scroll_bottom) g

def next_row : Option Grid :=
  let g := { g with wrap_pending := false }
  if g.cursor_row = g.scroll_bottom then g.scroll_up 1
  else if g.cursor_row + 1 < g.rows then some { g with cursor_row := g.cursor_row + 1 }
  else some g

def reverse_index : Option Grid :=
  let g := { g with wrap_pending := false }
  if g.cursor_row = g.scroll_top then g.scroll_down 1
  else some { g with cursor_row := g.cursor_row - 1 }

/-! ### Writing -/

/-- The cursor's row wraps, and the text goes on at the start of the next. -/
def wrap : Option Grid := do
  let g ← g.on_row g.cursor_row fun row => some { row with wrapped := true }
  { g with cursor_col := 0, wrap_pending := false }.next_row

/-- The cells of a glyph: the character, and placeholders behind it. -/
def draw (col width : ℕ) (ch : Char) : Option Row := do
  let cells ← set_at row.cells col ch
  let cells ← (List.range' 1 (width - 1)).foldlM
    (fun cells pad => set_at cells (col + pad) WIDE_CONTINUATION) cells
  return { row with cells, used := max row.used (col + width) }.clear_marks col (col + width)

/-- Where a glyph of some width goes: behind a wrap that was put off, and behind one that
its width makes, or over the last cells when autowrap is off. -/
def make_room (width : ℕ) : Option Grid := do
  let g ← (if g.wrap_pending then g.wrap else some g)
  if g.cursor_col + width > g.cols then
    if g.autowrap then g.wrap
    else return { g with cursor_col := ← sub g.cols width }
  else some g

def put (ch : Char) (width : ℕ) : Option Grid := do
  let width := min (max width 1) g.cols
  let g ← g.make_room width
  let col := g.cursor_col
  let g ← g.on_row g.cursor_row fun row => draw row col width ch
  let g := { g with last_drawn := some (g.cursor_row, col) }
  if col + width ≥ g.cols then
    return { g with cursor_col := ← sub g.cols 1, wrap_pending := g.autowrap }
  else some { g with cursor_col := col + width }

def combine (mark : Char) : Option Grid :=
  match g.last_drawn with
  | some (row, col) => g.on_row row fun r => some (r.add_mark col mark)
  | none => some g

/-! ### Erasing -/

/-- `row.cells[c] = ' '` for every `c` of a range. -/
def blank_cells (start stop : ℕ) : Option Row := do
  let cells ← (List.range' start (stop - start)).foldlM (fun cells c => set_at cells c ' ') row.cells
  return { row with cells }.clear_marks start stop

def erase_in_line (mode : ℕ) : Option Grid :=
  let col := g.cursor_col
  let (start, stop) :=
    if mode = 1 then (0, min (col + 1) g.cols) else if mode = 2 then (0, g.cols) else (col, g.cols)
  g.on_row g.cursor_row fun row => do
    let row ← blank_cells row start stop
    let row := { row with wrapped := false, used := if mode = 0 then min row.used col else row.used }
    return if mode = 2 then { row with used := 0 } else row

/-- `self.screen[r].clear()` for every `r` of a range. -/
def clear_rows (start stop : ℕ) : Option Grid :=
  (List.range' start (stop - start)).foldlM (fun g r => g.on_row r fun row => some row.clear) g

def erase_in_display (mode : ℕ) : Option Grid :=
  if mode = 1 then do
    let g ← g.clear_rows 0 g.cursor_row
    g.erase_in_line 1
  else if mode = 2 ∨ mode = 3 then
    let g := { g with screen := g.screen.map Row.clear }
    some (if mode = 3 then g.clear_history else g)
  else do
    let g ← g.erase_in_line 0
    g.clear_rows (g.cursor_row + 1) g.rows

def erase_chars : Option Grid :=
  g.on_row g.cursor_row fun row =>
    blank_cells row g.cursor_col (min (g.cursor_col + max n 1) g.cols)

def insert_chars : Option Grid :=
  let col := g.cursor_col
  g.on_row g.cursor_row fun row => do
    let cells ← times (min (max n 1) (← sub g.cols col))
      (fun cells => do return (← insert_at cells col ' ').take g.cols) row.cells
    let row := { row with cells }.clear_marks col g.cols
    return { row with used := min (row.used + max n 1) g.cols }

def delete_chars : Option Grid :=
  let col := g.cursor_col
  g.on_row g.cursor_row fun row => do
    let cells ← times (min (max n 1) (← sub g.cols col))
      (fun cells => do return (← remove_at cells col).2 ++ [' ']) row.cells
    let row := { row with cells }.clear_marks col g.cols
    return { row with used := max (row.used - max n 1) col }

/-! ### The typed line -/

def line : ℕ := g.dropped + g.scrollback.length + g.cursor_row

def mark_anchor (typed : Str) : Grid :=
  { g with
    anchor := some g.line
    typed := trim_end (first_line typed)
    cut_after_echo := false }

/-- Whether the rows from a line down to the cursor's hold nothing. -/
def blank_from (anchor : ℕ) : Bool :=
  (((g.scrollback ++ g.screen).take (g.scrollback.length + g.cursor_row + 1)).drop
    (anchor - g.dropped)).all fun row => (trim row.text).isEmpty

/-- The first of the rows above a row that wrap into it. -/
def first_wrapped (screen : List Row) : ℕ → Option ℕ
  | 0 => some 0
  | row + 1 => do
    if (← screen[row]?).wrapped then first_wrapped screen row else some (row + 1)

def echo_ends_here : Option Bool := do
  let first ← first_wrapped g.screen g.cursor_row
  let rows ← slice g.screen first (g.cursor_row + 1)
  return ends_with (trim_end (rows.flatMap Row.text)) g.typed

def cut_typed_line : Option Grid :=
  match g.anchor with
  | none => some g
  | some anchor => do
    let g := { g with anchor := none }
    if g.on_alt_screen || !g.whole || decide (anchor < g.dropped) then some g
    else
      let start ← sub anchor g.dropped
      let stop := g.scrollback.length + g.cursor_row
      if start ≥ stop then some g
      else
        let rows ← drain (g.scrollback ++ g.screen) start stop
        -- the cursor stays on its screen row where the history allows
        let top ← sub start (min start g.cursor_row)
        let (history, screen) ← split_off rows top
        return { g with
          scrollback := history
          screen := resize screen g.rows (Row.blank g.cols)
          cursor_row := ← sub start top
          wrap_pending := false
          last_drawn := none }

def cut_to_anchor : Option Grid :=
  match g.anchor with
  | none => some g
  | some anchor =>
    if g.cursor_col > 0 || g.blank_from anchor then some { g with cut_after_echo := true }
    else g.cut_typed_line

def line_feed : Option Grid := do
  let echoed ← (if g.cut_after_echo then g.echo_ends_here else some false)
  let g ← g.next_row
  if echoed then cut_typed_line { g with cut_after_echo := false } else some g

/-! ### Reading -/

/-- A turn of the loop of `capture`: what was read, whether this row is the first, and
whether it continues the one before. -/
def capture_row : Str × Bool × Bool → Row → Str × Bool × Bool
  | (out, first, «open»), row =>
    let out := if !«open» && !first then out ++ ['\n'] else out
    (out ++ row.text, false, row.wrapped)

/-- The scrollback's last rows and the screen, where a row that wrapped goes on in the next. -/
def capture (history : ℕ) : Str :=
  let rows := g.scrollback.drop (g.scrollback.length - history) ++ g.screen
  (rows.foldl capture_row ([], true, false)).1

end Grid

end Lpm.Terminal
