/-
Lines that are printed come back as lines: `capture` after plain text.

The rows that were let go of, the scrollback and the screen are one list of rows, of which
the cursor's is the last that was drawn on (`Shape`), and the text of that row ends where the
next glyph goes (`Pen`). A glyph that has no room makes the row wrap, which leaves the lines
as they are, and is drawn at the start of an empty row; so whatever the widths are, a glyph
is drawn behind the last line's text.
-/
import Lpm.Terminal.Excursion
import Lpm.Terminal.Lines

set_option autoImplicit false

open RustText Utf8 Checked

namespace Lpm.Terminal

open List Option

/-! ## The rows -/

/-- The cursor's row with all above it, those let go of included; below it nothing was
drawn. -/
structure Shape (g : Grid) (gone above : List Row) (row : Row) : Prop where
  dropped : gone.length = g.dropped
  rows : gone ++ g.scrollback ++ g.screen =
    above ++ row :: List.replicate (g.rows - 1 - g.cursor_row) (Row.blank g.cols)
  cursor : (gone ++ g.scrollback).length + g.cursor_row = above.length
  below : g.cursor_row < g.rows
  height : g.screen.length = g.rows
  top : g.scroll_top = 0
  bottom : g.scroll_bottom + 1 = g.rows
  main : g.alt_saved = none
  autowrap : g.autowrap = true
  echo : g.cut_after_echo = false

section
variable {g g' : Grid} {gone above : List Row} {row row' : Row}

variable (h : Shape g gone above row)
include h

theorem Shape.cursor_row_eq : g.screen[g.cursor_row]? = some row := by
  have hright : (gone ++ g.scrollback ++ g.screen)[above.length]? = _ :=
    congrArg (fun l => l[above.length]?) h.rows
  rw [← h.cursor, getElem?_append_right (Nat.le_add_right _ _), Nat.add_sub_cancel_left,
    h.cursor, getElem?_append_right (Nat.le_refl _), Nat.sub_self] at hright
  exact hright

theorem Shape.set (row' : Row) :
    Shape { g with screen := g.screen.set g.cursor_row row' } gone above row' := by
  refine ⟨h.dropped, ?_, h.cursor, h.below, ?_, h.top, h.bottom, h.main, h.autowrap, h.echo⟩
  · have hset : (gone ++ g.scrollback ++ g.screen).set above.length row' = _ :=
      congrArg (fun l => l.set above.length row') h.rows
    rw [← h.cursor, set_append_right _ _ (Nat.le_add_right _ _), Nat.add_sub_cancel_left,
      h.cursor, set_append_right _ _ (Nat.le_refl _), Nat.sub_self] at hset
    exact hset
  · exact (length_set ..).trans h.height

/-- The cursor's row is changed, and the rest is what it was. -/
theorem Shape.on_row {f : Row → Option Row}
    (hstep : g.on_row g.cursor_row f = some g') :
    ∃ row', f row = some row' ∧ g' = { g with screen := g.screen.set g.cursor_row row' } := by
  rw [Grid.on_row, h.cursor_row_eq, bind_eq_bind, bind_some] at hstep
  obtain ⟨row', hrow', hrest⟩ := bind_eq_some_iff.mp hstep
  refine ⟨row', hrow', ?_⟩
  rw [set_at, if_pos (h.height ▸ h.below)] at hrest
  exact (some.inj hrest).symm

/-! ## The next row -/

omit h in
theorem trim_history_eq (rows : List Row) :
    ∃ gone, rows = gone ++ (Grid.trim_history rows).1 ∧ gone.length = (Grid.trim_history rows).2 := by
  induction rows with
  | nil => exact ⟨[], rfl, rfl⟩
  | cons row rows ih =>
    obtain ⟨gone, hrows, hlength⟩ := ih
    by_cases hover : (row :: rows).length > HISTORY_LIMIT
    · refine ⟨row :: gone, ?_, ?_⟩
      · rw [Grid.trim_history, if_pos hover, cons_append, ← hrows]
      · rw [Grid.trim_history, if_pos hover, length_cons, hlength]
    · refine ⟨[], ?_, ?_⟩
      · rw [Grid.trim_history, if_neg hover, nil_append]
      · rw [Grid.trim_history, if_neg hover]
        rfl

/-- Where the cursor is on the last row, the rows scroll, and an empty one comes below. -/
theorem Shape.scroll_up (hcursor : g.cursor_row = g.scroll_bottom)
    (hstep : g.scroll_up 1 = some g') :
    ∃ gone', Shape g' gone' (above ++ [row]) (Row.blank g'.cols) ∧ g'.cols = g.cols ∧
      g'.cursor_col = g.cursor_col ∧ g'.wrap_pending = g.wrap_pending := by
  have hbelow := h.below
  have hheight := h.height
  have hbottom := h.bottom
  have hone : min 1 g.rows = 1 := by omega
  -- the whole screen scrolls, so its first row goes to the scrollback
  have hkeep : (g.whole && !g.on_alt_screen) = true := by
    rw [Grid.whole, h.top, h.bottom, Grid.on_alt_screen, h.main]
    simp
  have hrows := h.rows
  rw [show g.rows - 1 - g.cursor_row = 0 by omega, replicate_zero] at hrows
  rw [Grid.scroll_up, hkeep, hone] at hstep
  cases hscreen : g.screen with
  | nil =>
    rw [hscreen, length_nil] at hheight
    omega
  | cons first rest =>
    rw [hscreen, length_cons] at hheight
    obtain ⟨gone', hgone', hlength⟩ := trim_history_eq (g.scrollback ++ [first])
    have htake : remove_at g.screen g.scroll_top = some (first, rest) := by
      rw [h.top, hscreen]
      rfl
    have hput : insert_at rest g.scroll_bottom (Row.blank g.cols) = some (rest ++ [Row.blank g.cols]) := by
      rw [show g.scroll_bottom = rest.length by omega, insert_at, if_pos (Nat.le_refl _),
        insertIdx_length_self]
    simp only [times, htake, if_true, bind_eq_bind, bind_some] at hstep
    rw [show (g.retire first).scroll_bottom = g.scroll_bottom from rfl,
      show (g.retire first).cols = g.cols from rfl, hput] at hstep
    obtain rfl := some.inj hstep
    -- taken together, the rows are those there were and a blank one
    have hall : gone ++ gone' ++ (g.retire first).scrollback ++ (rest ++ [Row.blank g.cols]) =
        above ++ [row] ++ [Row.blank g.cols] := by
      rw [← hrows, hscreen, append_assoc gone gone', Grid.retire, ← hgone']
      simp
    refine ⟨gone ++ gone', ⟨?_, ?_, ?_, hbelow, ?_, h.top, h.bottom, h.main, h.autowrap, h.echo⟩,
      rfl, rfl, rfl⟩
    · rw [length_append, h.dropped, hlength]
      rfl
    · change gone ++ gone' ++ (g.retire first).scrollback ++ (rest ++ [Row.blank g.cols]) =
        above ++ [row] ++ Row.blank g.cols ::
          List.replicate (g.rows - 1 - g.cursor_row) (Row.blank g.cols)
      rw [hall, show g.rows - 1 - g.cursor_row = 0 by omega, replicate_zero]
    · have hlengths := congrArg List.length hall
      simp only [length_append, length_singleton] at hlengths ⊢
      change gone.length + gone'.length + (g.retire first).scrollback.length + g.cursor_row = _
      omega
    · rw [length_append, length_singleton]
      exact hheight

/-- The row is over: the cursor goes on to an empty one. -/
theorem Shape.next_row (hstep : g.next_row = some g') :
    ∃ gone', Shape g' gone' (above ++ [row]) (Row.blank g'.cols) ∧ g'.cols = g.cols ∧
      g'.cursor_col = g.cursor_col ∧ g'.wrap_pending = false := by
  have hunparked : Shape { g with wrap_pending := false } gone above row := { h with }
  have hbelow := h.below
  have hbottom := h.bottom
  rw [Grid.next_row] at hstep
  dsimp only at hstep
  split at hstep
  next hcursor => exact hunparked.scroll_up hcursor hstep
  next hcursor =>
    rw [if_pos (show g.cursor_row + 1 < g.rows by omega)] at hstep
    obtain rfl := some.inj hstep
    refine ⟨gone, ⟨h.dropped, ?_, ?_, by dsimp only; omega, h.height, h.top, h.bottom, h.main,
      h.autowrap, h.echo⟩, rfl, rfl, rfl⟩
    · dsimp only
      rw [h.rows, show g.rows - 1 - g.cursor_row = (g.rows - 1 - (g.cursor_row + 1)) + 1 by omega,
        replicate_succ, append_assoc, singleton_append]
    · change (gone ++ g.scrollback).length + (g.cursor_row + 1) = (above ++ [row]).length
      rw [← Nat.add_assoc, h.cursor, length_append, length_singleton]

end

/-! ## Drawing -/

/-- The next glyph goes where the text of the row ends. -/
structure Pen (g : Grid) (row : Row) : Prop where
  width : row.cells.length = g.cols
  ends : row.wrapped = false
  used : row.used = if g.wrap_pending then g.cols else g.cursor_col
  room : g.cursor_col < g.cols
  marks : ∀ m ∈ row.marks, m.1 < row.used

/-- Whole lines, and one that is being drawn. -/
def Drawn (g : Grid) (done : List Str) (line : Str) : Prop :=
  ∃ gone above row, Shape g gone above row ∧ Pen g row ∧
    rejoin (above ++ [row]) = done ++ [line]

/-- The line ends in a glyph with some number of marks on it. -/
def Marked (g : Grid) (done : List Str) (line : Str) (n : ℕ) : Prop :=
  ∃ gone above row col, Shape g gone above row ∧ Pen g row ∧
    rejoin (above ++ [row]) = done ++ [line] ∧ g.last_drawn = some (g.cursor_row, col) ∧
    Last row col ∧ (row.marks_at col).length = n

theorem Marked.drawn {g : Grid} {done : List Str} {line : Str} {n : ℕ} (h : Marked g done line n) :
    Drawn g done line := by
  obtain ⟨gone, above, row, col, hshape, hpen, hlines, -⟩ := h
  exact ⟨gone, above, row, hshape, hpen, hlines⟩

section
variable {g : Grid} {done : List Str} {line : Str}

theorem blank_pen (hcols : 0 < g.cols) (hcol : g.cursor_col = 0) (hpending : g.wrap_pending = false) :
    Pen g (Row.blank g.cols) := by
  refine ⟨length_replicate, rfl, ?_, hcol ▸ hcols, fun m hm => absurd hm not_mem_nil⟩
  rw [hpending, hcol]
  rfl

theorem blank_text (cols : ℕ) : (Row.blank cols).text = [] := by
  rw [text_eq, Row.blank, Nat.zero_min]
  rfl

variable (h : Drawn g done line)
include h

/-- The row wraps, and the lines stay what they are. -/
theorem Drawn.wrap :
    Yields g.wrap fun g' => Drawn g' done line ∧ g'.wrap_pending = false ∧ g'.cursor_col = 0 ∧
      g'.cols = g.cols := by
  intro g' hwrap
  obtain ⟨gone, above, row, hshape, hpen, hlines⟩ := h
  obtain ⟨g'', hrow, hnext⟩ := bind_eq_some_iff.mp hwrap
  obtain ⟨row', hrow', rfl⟩ := hshape.on_row hrow
  obtain rfl := some.inj hrow'
  have hshape' : Shape { g with
      screen := g.screen.set g.cursor_row { row with wrapped := true }
      cursor_col := 0, wrap_pending := false } gone above { row with wrapped := true } :=
    { hshape.set { row with wrapped := true } with }
  obtain ⟨gone', hshape'', hcols, hcol, hpending⟩ := hshape'.next_row hnext
  have hpos : 0 < g'.cols := by
    rw [hcols]
    exact Nat.lt_of_le_of_lt (Nat.zero_le _) hpen.room
  refine ⟨⟨gone', _, _, hshape'', blank_pen hpos hcol hpending, ?_⟩, hpending, hcol, hcols⟩
  exact rejoin_wrap hlines rfl rfl (blank_text _)

/-- There is room for a glyph, perhaps on a new row. -/
theorem Drawn.make_room {width : ℕ} (hwidth : width ≤ g.cols) :
    Yields (g.make_room width) fun g' => Drawn g' done line ∧ g'.wrap_pending = false ∧
      g'.cursor_col + width ≤ g'.cols ∧ g'.cols = g.cols := by
  have hparked : Yields (if g.wrap_pending then g.wrap else some g) fun g' =>
      Drawn g' done line ∧ g'.wrap_pending = false ∧ g'.cols = g.cols := by
    refine Yields.ite (fun _ => h.wrap.mono fun g' h' => ⟨h'.1, h'.2.1, h'.2.2.2⟩) fun hnot => ?_
    exact Yields.pure ⟨h, Bool.eq_false_iff.mpr hnot, rfl⟩
  refine Yields.bind hparked fun g' hg' => ?_
  obtain ⟨hdrawn, hpending, hcols⟩ := hg'
  have hauto : g'.autowrap = true := by
    obtain ⟨gone, above, row, hshape, -⟩ := hdrawn
    exact hshape.autowrap
  refine Yields.ite (fun _ => ?_) fun hroom => Yields.pure ⟨hdrawn, hpending, not_lt.mp hroom, hcols⟩
  rw [if_pos hauto]
  refine hdrawn.wrap.mono fun g'' h'' => ⟨h''.1, h''.2.1, ?_, h''.2.2.2.trans hcols⟩
  rw [h''.2.2.1, h''.2.2.2, hcols, Nat.zero_add]
  exact hwidth

/-- A glyph is drawn at the end of the line. -/
theorem Drawn.put {ch : Char} (hch : ch ≠ WIDE_CONTINUATION) (width : ℕ) :
    Yields (g.put ch width) fun g' => Marked g' done (line ++ [ch]) 0 := by
  have hpos : 0 < g.cols := by
    obtain ⟨gone, above, row, -, hpen, -⟩ := h
    exact Nat.lt_of_le_of_lt (Nat.zero_le _) hpen.room
  have hone : 1 ≤ min (max width 1) g.cols := by omega
  refine Yields.bind (h.make_room (Nat.min_le_right _ _)) fun g' hg' => ?_
  obtain ⟨⟨gone, above, row, hshape, hpen, hlines⟩, hpending, hroom, hcols⟩ := hg'
  generalize min (max width 1) g.cols = width at hone hroom ⊢
  have hused : row.used = g'.cursor_col := by
    rw [hpen.used, hpending]
    rfl
  refine Yields.bind (P := fun g'' => ∃ row', Grid.draw row g'.cursor_col width ch = some row' ∧
    g'' = { g' with screen := g'.screen.set g'.cursor_row row' }) (fun g'' hg'' => hshape.on_row hg'')
    fun g'' hg'' => ?_
  obtain ⟨row', hdraw, rfl⟩ := hg''
  obtain ⟨htext, hlast, hnone, hused', hwrapped, hlength⟩ := drawn hdraw hused
    (hpen.width ▸ hroom) hone (fun m hm => hused ▸ hpen.marks m hm) hch
  have hshape' := hshape.set row'
  have hlines' := rejoin_draw hlines htext
  have hmarks : ∀ m ∈ row'.marks, m.1 < row'.used := fun m hm => by
    have := hlast.marks m hm
    omega
  -- a full line waits for the next glyph to wrap
  refine Yields.ite (fun hfull => ?_) fun hmore => Yields.pure ?_
  · rw [show sub g'.cols 1 = some (g'.cols - 1) from if_pos (by omega)]
    refine Yields.pure ⟨gone, above, row', g'.cursor_col, { hshape' with }, ?_, hlines', rfl, hlast,
      hnone⟩
    refine ⟨hlength.trans hpen.width, hwrapped.trans hpen.ends, ?_, by dsimp only; omega, hmarks⟩
    dsimp only
    rw [hshape.autowrap, hused']
    dsimp only at hfull
    simp only [if_true]
    omega
  · refine ⟨gone, above, row', g'.cursor_col, { hshape' with }, ?_, hlines', rfl, hlast, hnone⟩
    refine ⟨hlength.trans hpen.width, hwrapped.trans hpen.ends, ?_, not_le.mp hmore, hmarks⟩
    dsimp only
    rw [hpending, hused']
    rfl

omit h in
/-- A mark goes on the glyph the line ends in. -/
theorem Marked.combine {n : ℕ} (h : Marked g done line n) (hn : n < MAX_MARKS) (mark : Char) :
    Yields (g.combine mark) fun g' => Marked g' done (line ++ [mark]) (n + 1) := by
  intro g' hstep
  obtain ⟨gone, above, row, col, hshape, hpen, hlines, hdrawn, hlast, hcount⟩ := h
  rw [Grid.combine, hdrawn] at hstep
  obtain ⟨row', hrow', rfl⟩ := hshape.on_row hstep
  obtain rfl := some.inj hrow'
  obtain ⟨htext, hlast', hmore, hused, hwrapped, hcells⟩ := hlast.add_mark (hcount ▸ hn) mark
  refine ⟨gone, above, _, col, hshape.set _, ?_, rejoin_draw hlines htext, hdrawn, hlast',
    hcount ▸ hmore⟩
  refine ⟨hcells ▸ hpen.width, hwrapped.trans hpen.ends, hused.trans hpen.used, hpen.room,
    fun m hm => ?_⟩
  obtain ⟨before, ch, n, hlength, -, htake⟩ := hlast.cells
  have hlong := congrArg List.length htake
  have hle := hlast'.marks m hm
  have hfits := hlast.fits
  simp only [length_take, length_append, length_cons] at hlong
  omega

/-- A carriage return and a line feed end the line. -/
theorem Drawn.end_line :
    Yields (control 0x0D g >>= control 0x0A) fun g' => Drawn g' (done ++ [line]) [] := by
  intro g' hstep
  obtain ⟨gone, above, row, hshape, hpen, hlines⟩ := h
  have hshape' : Shape { g with cursor_col := 0, wrap_pending := false, cut_after_echo := false }
      gone above row := { hshape with echo := rfl }
  have hfeed : Grid.line_feed { g with cursor_col := 0, wrap_pending := false } = some g' := hstep
  rw [Grid.line_feed] at hfeed
  dsimp only at hfeed
  rw [hshape.echo, if_neg Bool.false_ne_true, bind_eq_bind, bind_some] at hfeed
  obtain ⟨g'', hnext, hfinish⟩ := bind_eq_some_iff.mp hfeed
  obtain rfl := some.inj hfinish
  obtain ⟨gone', hshape'', hcols, hcol, hpending⟩ := hshape'.next_row hnext
  have hpos : 0 < g''.cols := by
    rw [hcols]
    exact Nat.lt_of_le_of_lt (Nat.zero_le _) hpen.room
  refine ⟨gone', _, _, hshape'', blank_pen hpos hcol hpending, ?_⟩
  rw [append_assoc, singleton_append, rejoin_end hpen.ends, hlines, rejoin_single,
    blank_text]

end

/-! ## Printing -/

/-- A printable character of one cell or two, and the marks on it. -/
structure Glyph where
  ch : Char
  marks : List Char
  printable : 0x20 ≤ ch.toNat ∧ ch.toNat ≠ 0x7F
  wide : char_width ch ≠ 0
  combining : ∀ mark ∈ marks, char_width mark = 0
  few : marks.length ≤ MAX_MARKS

def Glyph.text (glyph : Glyph) : Str := glyph.ch :: glyph.marks

/-- The characters of a line. -/
def line_text (line : List Glyph) : Str := line.flatMap Glyph.text

def print (g : Grid) (text : Str) : Option Grid := text.foldlM (fun g ch => print_char ch g) g

section
variable {g : Grid} {done : List Str} {line : Str}

theorem Marked.print {n : ℕ} (h : Marked g done line n) {marks : List Char}
    (hcombining : ∀ mark ∈ marks, char_width mark = 0) (hfew : n + marks.length ≤ MAX_MARKS) :
    Yields (print g marks) fun g' => Drawn g' done (line ++ marks) := by
  induction marks generalizing g line n with
  | nil =>
    rw [append_nil]
    exact Yields.pure h.drawn
  | cons mark marks ih =>
    rw [Terminal.print, foldlM_cons, print_char, if_pos (hcombining mark mem_cons_self)]
    rw [length_cons] at hfew
    refine Yields.bind (h.combine (by omega) mark) fun g' h' => ?_
    rw [← singleton_append, ← append_assoc]
    exact ih h' (fun m hm => hcombining m (mem_cons_of_mem _ hm)) (by omega)

theorem Drawn.print_glyph (h : Drawn g done line) (glyph : Glyph) :
    Yields (print g glyph.text) fun g' => Drawn g' done (line ++ glyph.text) := by
  have hch : glyph.ch ≠ WIDE_CONTINUATION := by
    intro he
    have hprintable := glyph.printable.1
    rw [he] at hprintable
    exact absurd hprintable (by decide)
  rw [Glyph.text, Terminal.print, foldlM_cons, print_char, if_neg glyph.wide]
  refine Yields.bind (h.put hch _) fun g' h' => ?_
  rw [← singleton_append, ← append_assoc]
  exact h'.print glyph.combining (by rw [Nat.zero_add]; exact glyph.few)

theorem Drawn.print_line (h : Drawn g done line) (glyphs : List Glyph) :
    Yields (print g (line_text glyphs)) fun g' => Drawn g' done (line ++ line_text glyphs) := by
  induction glyphs generalizing g line with
  | nil =>
    rw [line_text, flatMap_nil, append_nil]
    exact Yields.pure h
  | cons glyph glyphs ih =>
    rw [line_text, flatMap_cons, Terminal.print, foldlM_append, ← append_assoc]
    exact Yields.bind (h.print_glyph glyph) fun g' h' => ih h'

end

end Lpm.Terminal
