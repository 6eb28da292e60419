/-
The terminal emulator never panics: `termvt.rs` and `termgrid.rs` on any input.

`Sound` is what every operation of the grid finds and leaves behind: a screen of the
right shape, the cursor and the scroll region inside it, rows of the right width in the
scrollback and in the saved screen as well, since both come back onto the screen. With
it every index is in range and every subtraction has room.
-/
import Lpm.Terminal.Emulator

set_option autoImplicit false

open RustText Utf8 Checked

namespace Lpm.Terminal

open List Option

/-! ## The invariant -/

/-- A row of some width. -/
def RowFits (cols : ℕ) (row : Row) : Prop := row.cells.length = cols ∧ row.used ≤ cols

structure Sound (cols rows : ℕ) (g : Grid) : Prop where
  cols_eq : g.cols = cols
  rows_eq : g.rows = rows
  screen : Sized (RowFits cols) rows g.screen
  cursor_row : g.cursor_row < rows
  cursor_col : g.cursor_col < cols
  region : g.scroll_top ≤ g.scroll_bottom
  bottom : g.scroll_bottom < rows
  saved : ∀ main, g.alt_saved = some main → Sized (RowFits cols) rows main.1
  scrollback : ∀ row ∈ g.scrollback, RowFits cols row
  history : g.scrollback.length ≤ HISTORY_LIMIT
  drawn : ∀ cell, g.last_drawn = some cell → cell.1 < rows

/-! ## Rows -/

section
variable {cols : ℕ} {row : Row}

theorem RowFits.blank (cols : ℕ) : RowFits cols (Row.blank cols) :=
  ⟨length_replicate, Nat.zero_le _⟩

variable (h : RowFits cols row)
include h

theorem RowFits.clear : RowFits cols row.clear :=
  ⟨by rw [Row.clear, length_map, h.1], Nat.zero_le _⟩

theorem RowFits.add_mark (col : ℕ) (mark : Char) :
    RowFits cols (row.add_mark col mark) := by
  unfold Row.add_mark
  split_ifs
  · exact h
  · exact h

theorem Sized.cells : Sized (fun _ => True) cols row.cells :=
  ⟨h.1, fun _ _ => trivial⟩

/-- A glyph that has room is drawn. -/
theorem returns_draw {col width : ℕ} (hwidth : 1 ≤ width)
    (hroom : col + width ≤ cols) (ch : Char) :
    Returns (Grid.draw row col width ch) (RowFits cols) := by
  refine ((Sized.cells h).set_at trivial (by omega)).bind fun cells hcells => ?_
  refine (Returns.each (fun cells hcells pad hpad => ?_) hcells).bind fun cells hcells => ?_
  · rw [mem_range'_1] at hpad
    exact Sized.set_at hcells trivial (by omega)
  · exact Returns.pure ⟨hcells.1, max_le h.2 hroom⟩

theorem returns_blank_cells {start stop : ℕ} (hstop : stop ≤ cols) :
    Returns (Grid.blank_cells row start stop) (RowFits cols) := by
  refine (Returns.each (fun cells hcells c hc => ?_) (Sized.cells h)).bind fun cells hcells => ?_
  · rw [mem_range'_1] at hc
    exact Sized.set_at hcells trivial (by omega)
  · exact Returns.pure ⟨hcells.1, h.2⟩

end

/-! ## The grid -/

section
variable {cols rows : ℕ} {g : Grid}

theorem Sound.start (hcols : 1 ≤ cols) (hrows : 1 ≤ rows) : Sound cols rows (Grid.new cols rows) := by
  have hc : max cols 1 = cols := Nat.max_eq_left hcols
  have hr : max rows 1 = rows := Nat.max_eq_left hrows
  unfold Grid.new
  rw [hc, hr]
  exact {
    cols_eq := rfl, rows_eq := rfl, screen := Sized.replicate (RowFits.blank cols) rows
    cursor_row := hrows, cursor_col := hcols, region := Nat.zero_le _
    bottom := Nat.sub_lt hrows Nat.one_pos, saved := by simp, scrollback := by simp
    history := Nat.zero_le _, drawn := by simp }

variable (h : Sound cols rows g)
include h

/-- What changes a row into one of the same width keeps the grid sound. -/
theorem Sound.on_row {row : ℕ} (hrow : row < rows) {f : Row → Option Row}
    (hf : ∀ r, RowFits cols r → Returns (f r) (RowFits cols)) :
    Returns (g.on_row row f) fun g' => Sound cols rows g'
      ∧ g'.cursor_row = g.cursor_row ∧ g'.cursor_col = g.cursor_col := by
  refine (h.screen.index hrow).bind fun r hr => ?_
  refine (hf r hr).bind fun r' hr' => ?_
  refine (h.screen.set_at hr' hrow).bind fun screen hscreen => ?_
  exact Returns.pure ⟨{ h with screen := hscreen }, rfl, rfl⟩

theorem Sound.rows_pos : 1 ≤ rows := Nat.one_le_of_lt h.cursor_row

theorem Sound.cols_pos : 1 ≤ cols := Nat.one_le_of_lt h.cursor_col

theorem Sound.last_row : Returns (sub g.rows 1) fun n => n = rows - 1 := by
  rw [h.rows_eq]
  exact returns_sub h.rows_pos

theorem Sound.last_col : Returns (sub g.cols 1) fun n => n = cols - 1 := by
  rw [h.cols_eq]
  exact returns_sub h.cols_pos

/-! ### Cursor and modes -/

theorem Sound.move_to (row col : ℕ) :
    Returns (g.move_to row col) (Sound cols rows) := by
  have hrows := h.rows_pos
  have hcols := h.cols_pos
  refine h.last_row.bind fun last_row hlast => ?_
  refine h.last_col.bind fun last_col hlast' => ?_
  refine Returns.pure { h with cursor_row := ?_, cursor_col := ?_ }
  · change min row last_row < rows
    omega
  · change min col last_col < cols
    omega

variable (n : ℕ)

theorem Sound.cursor_up : Sound cols rows (g.cursor_up n) := by
  have hrow := h.cursor_row
  have htop := h.region.trans_lt h.bottom
  refine { h with cursor_row := ?_ }
  change max (g.cursor_row - n) (if g.cursor_row ≥ g.scroll_top then g.scroll_top else 0) < rows
  split_ifs <;> omega

theorem Sound.cursor_down :
    Returns (g.cursor_down n) (Sound cols rows) := by
  have hrows := h.rows_pos
  have hlimit : Returns
      (if g.cursor_row ≤ g.scroll_bottom then some g.scroll_bottom else sub g.rows 1)
      fun limit => limit < rows :=
    Returns.ite (fun _ => Returns.pure h.bottom) fun _ => h.last_row.mono fun n hn => by omega
  refine hlimit.bind fun limit hlt => ?_
  refine Returns.pure { h with cursor_row := ?_ }
  change min (g.cursor_row + n) limit < rows
  omega

theorem Sound.cursor_left : Sound cols rows (g.cursor_left n) :=
  { h with cursor_col := (Nat.sub_le _ _).trans_lt h.cursor_col }

theorem Sound.cursor_right :
    Returns (g.cursor_right n) (Sound cols rows) := by
  have hcols := h.cols_pos
  refine h.last_col.bind fun last hlast => ?_
  refine Returns.pure { h with cursor_col := ?_ }
  change min (g.cursor_col + n) last < cols
  omega

theorem Sound.first_col : Sound cols rows { g with cursor_col := 0 } :=
  { h with cursor_col := h.cols_pos }

theorem Sound.save_cursor : Sound cols rows g.save_cursor := { h with }

theorem Sound.restore_cursor :
    Returns g.restore_cursor (Sound cols rows) := h.move_to _ _

theorem Sound.set_scroll_region (top bottom : ℕ) :
    Returns (g.set_scroll_region top bottom) (Sound cols rows) := by
  have hrows := h.rows_pos
  have hregion : Returns
      (if top < bottom ∧ bottom < g.rows then
        some { g with scroll_top := top, scroll_bottom := bottom }
      else do
        return { g with scroll_top := 0, scroll_bottom := ← sub g.rows 1 }) (Sound cols rows) := by
    refine Returns.ite (fun hlt => ?_) fun _ => ?_
    · rw [h.rows_eq] at hlt
      exact Returns.pure { h with region := hlt.1.le, bottom := hlt.2 }
    · refine h.last_row.bind fun last hlast => ?_
      refine Returns.pure { h with region := Nat.zero_le _, bottom := ?_ }
      change last < rows
      omega
  exact hregion.bind fun g' h' => h'.move_to _ _

theorem Sound.blank_screen :
    Sized (RowFits cols) rows (Grid.blank_screen g.cols g.rows) := by
  rw [h.cols_eq, h.rows_eq]
  exact Sized.replicate (RowFits.blank cols) rows

theorem Sound.enter_alt_screen :
    Returns g.enter_alt_screen (Sound cols rows) := by
  refine Returns.ite (fun _ => Returns.pure h) fun _ => ?_
  apply Sound.move_to
  refine { h with screen := h.blank_screen, saved := fun main hmain => ?_ }
  rw [← some.inj hmain]
  exact h.screen

theorem Sound.leave_alt_screen :
    Returns g.leave_alt_screen (Sound cols rows) := by
  unfold Grid.leave_alt_screen
  rcases hsaved : g.alt_saved with _ | ⟨screen, row, col⟩
  · exact Returns.pure h
  · apply Sound.move_to
    exact { h with screen := h.saved _ hsaved, saved := by simp }

theorem Sound.cleared :
    Sized (RowFits cols) rows (g.screen.map Row.clear) :=
  h.screen.map fun _ => RowFits.clear

theorem Sound.reset : Returns g.reset (Sound cols rows) := by
  have hrows := h.rows_pos
  refine h.last_row.bind fun last hlast => ?_
  apply Sound.move_to
  refine { h with
    screen := h.cleared, region := Nat.zero_le _, bottom := ?_, saved := by simp, drawn := by simp }
  change last < rows
  omega

theorem Sound.clear_history : Sound cols rows g.clear_history :=
  { h with scrollback := by simp [Grid.clear_history], history := Nat.zero_le _ }

/-! ### Scrolling -/

omit h in
theorem length_trim_history (l : List Row) : (Grid.trim_history l).1.length ≤ HISTORY_LIMIT := by
  induction l with
  | nil => exact Nat.zero_le _
  | cons row l ih =>
    rw [Grid.trim_history]
    by_cases hover : (row :: l).length > HISTORY_LIMIT
    · rw [if_pos hover]
      exact ih
    · rw [if_neg hover]
      exact not_lt.mp hover

omit h in
theorem mem_of_mem_trim_history {l : List Row} {r : Row} (h : r ∈ (Grid.trim_history l).1) :
    r ∈ l := by
  induction l with
  | nil => exact h
  | cons row l ih =>
    rw [Grid.trim_history] at h
    by_cases hover : (row :: l).length > HISTORY_LIMIT
    · rw [if_pos hover] at h
      exact mem_cons_of_mem _ (ih h)
    · rw [if_neg hover] at h
      exact h

theorem Sound.retire {row : Row} (hrow : RowFits cols row) :
    Sound cols rows (g.retire row) := by
  refine { h with scrollback := fun r hr => ?_, history := length_trim_history _ }
  rcases mem_append.mp (mem_of_mem_trim_history hr) with hmem | hmem
  · exact h.scrollback r hmem
  · rw [mem_singleton.mp hmem]
    exact hrow

/-- A row taken out and a blank one put in leave as many as there were. -/
theorem Sound.insert_blank {screen : List Row}
    (hscreen : Sized (RowFits cols) (rows - 1) screen) {i : ℕ} (hi : i < rows) :
    Returns (insert_at screen i (Row.blank g.cols)) (Sized (RowFits cols) rows) := by
  have hrows := h.rows_pos
  rw [h.cols_eq]
  have hinsert := hscreen.insert_at (RowFits.blank cols) (i := i) (by omega)
  rw [Nat.sub_add_cancel hrows] at hinsert
  exact hinsert

variable (n : ℕ)

/-- Scrolling leaves the cursor where it is. -/
theorem Sound.scroll_up :
    Returns (g.scroll_up n) fun g' => Sound cols rows g' ∧ g'.cursor_col = g.cursor_col := by
  refine Returns.times (P := fun g' => Sound cols rows g' ∧ g'.cursor_col = g.cursor_col)
    (fun g' h' => ?_) _ ⟨h, rfl⟩
  obtain ⟨h, hcol⟩ := h'
  refine (h.screen.remove_at (h.region.trans_lt h.bottom)).bind fun taken htaken => ?_
  obtain ⟨row, screen⟩ := taken
  have hretired : ∀ keep : Bool, Sound cols rows (if keep = true then g'.retire row else g')
      ∧ (if keep = true then g'.retire row else g').cursor_col = g.cursor_col := by
    intro keep
    split_ifs
    · exact ⟨h.retire htaken.1, hcol⟩
    · exact ⟨h, hcol⟩
  obtain ⟨hsound, hcol'⟩ := hretired (g.whole && !g.on_alt_screen)
  refine (hsound.insert_blank htaken.2 hsound.bottom).bind fun screen hscreen => ?_
  exact Returns.pure ⟨{ hsound with screen := hscreen }, hcol'⟩

theorem Sound.replace_row {gone i : ℕ} (hgone : gone < rows)
    (hi : i < rows) : Returns (g.replace_row gone i) fun g' => Sound cols rows g'
      ∧ g'.cursor_row = g.cursor_row ∧ g'.scroll_bottom = g.scroll_bottom := by
  refine (h.screen.remove_at hgone).bind fun taken htaken => ?_
  obtain ⟨row, screen⟩ := taken
  refine (h.insert_blank htaken.2 hi).bind fun screen hscreen => ?_
  exact Returns.pure ⟨{ h with screen := hscreen }, rfl, rfl⟩

theorem Sound.scroll_down :
    Returns (g.scroll_down n) (Sound cols rows) := by
  refine Returns.times (fun g h => ?_) _ h
  exact (h.replace_row h.bottom (h.region.trans_lt h.bottom)).mono fun g' h' => h'.1

theorem Sound.insert_lines :
    Returns (g.insert_lines n) (Sound cols rows) := by
  refine Returns.ite (fun _ => Returns.pure h) fun _ => ?_
  refine Returns.times (fun g h => ?_) _ h
  exact (h.replace_row h.bottom h.cursor_row).mono fun g' h' => h'.1

theorem Sound.delete_lines :
    Returns (g.delete_lines n) (Sound cols rows) := by
  refine Returns.ite (fun _ => Returns.pure h) fun _ => ?_
  refine Returns.times (fun g h => ?_) _ h
  exact (h.replace_row h.cursor_row h.bottom).mono fun g' h' => h'.1

theorem Sound.unpark : Sound cols rows { g with wrap_pending := false } :=
  { h with }

theorem Sound.next_row :
    Returns g.next_row fun g' => Sound cols rows g' ∧ g'.cursor_col = g.cursor_col := by
  refine Returns.ite (fun _ => h.unpark.scroll_up 1) fun _ => ?_
  refine Returns.ite (fun hlt => ?_) fun _ => Returns.pure ⟨h.unpark, rfl⟩
  refine Returns.pure ⟨{ h.unpark with cursor_row := ?_ }, rfl⟩
  change g.cursor_row + 1 < rows
  rw [← h.rows_eq]
  exact hlt

theorem Sound.reverse_index :
    Returns g.reverse_index (Sound cols rows) := by
  refine Returns.ite (fun _ => h.unpark.scroll_down 1) fun _ => ?_
  exact Returns.pure { h.unpark with cursor_row := (Nat.sub_le _ _).trans_lt h.cursor_row }

/-! ### Writing -/

theorem Sound.wrap :
    Returns g.wrap fun g' => Sound cols rows g' ∧ g'.cursor_col = 0 := by
  have hwrapped := h.on_row h.cursor_row (f := fun row => some { row with wrapped := true })
    fun r hr => Returns.pure hr
  exact hwrapped.bind fun g' h' => h'.1.first_col.unpark.next_row

/-- A glyph has room at the cursor once room was made for it. -/
theorem Sound.make_room {width : ℕ} (hcols : width ≤ cols) :
    Returns (g.make_room width) fun g' => Sound cols rows g' ∧ g'.cursor_col + width ≤ cols := by
  have hfirst : Returns (if g.wrap_pending then g.wrap else some g) (Sound cols rows) :=
    Returns.ite (fun _ => h.wrap.mono fun g' h' => h'.1) fun _ => Returns.pure h
  refine hfirst.bind fun g' h' => ?_
  refine Returns.ite (fun hover => Returns.ite (fun _ => ?_) fun _ => ?_) fun hle => ?_
  · exact h'.wrap.mono fun g'' h'' => ⟨h''.1, by rw [h''.2, Nat.zero_add]; exact hcols⟩
  -- over the last cells, in place
  · have heq := h'.cols_eq
    have hcursor := h'.cursor_col
    refine (returns_sub (heq ▸ hcols)).bind fun col hcol => ?_
    refine Returns.pure ⟨{ h' with cursor_col := ?_ }, ?_⟩
    · change col < cols
      omega
    · change col + width ≤ cols
      omega
  · refine Returns.pure ⟨h', ?_⟩
    rw [← h'.cols_eq]
    exact not_lt.mp hle

theorem Sound.put (ch : Char) (width : ℕ) :
    Returns (g.put ch width) (Sound cols rows) := by
  have hcols := h.cols_pos
  have hwidth : 1 ≤ min (max width 1) g.cols := by
    rw [h.cols_eq]
    omega
  have hfits : min (max width 1) g.cols ≤ cols := by
    rw [h.cols_eq]
    omega
  refine (h.make_room hfits).bind fun g' h' => ?_
  obtain ⟨h', hroom⟩ := h'
  refine (h'.on_row h'.cursor_row fun r hr => returns_draw hr hwidth hroom ch).bind fun g'' h'' => ?_
  obtain ⟨h'', hrow, -⟩ := h''
  have hdrawn : Sound cols rows { g'' with last_drawn := some (g''.cursor_row, g'.cursor_col) } := by
    refine { h'' with drawn := fun cell hcell => ?_ }
    rw [← some.inj hcell]
    exact h''.cursor_row
  refine Returns.ite (fun _ => ?_) fun hlt => Returns.pure { hdrawn with cursor_col := ?_ }
  · refine hdrawn.last_col.bind fun last hlast => ?_
    refine Returns.pure { hdrawn with cursor_col := ?_ }
    change last < cols
    omega
  · have hcols' : g''.cols = cols := h''.cols_eq
    change g'.cursor_col + min (max width 1) g.cols < cols
    exact not_le.mp fun hle => hlt (by rw [ge_iff_le]; exact hcols'.trans_le hle)

theorem Sound.combine (mark : Char) :
    Returns (g.combine mark) (Sound cols rows) := by
  unfold Grid.combine
  rcases hdrawn : g.last_drawn with _ | ⟨row, col⟩
  · exact Returns.pure h
  · refine (h.on_row (h.drawn _ hdrawn) fun r hr => ?_).mono fun g' h' => h'.1
    exact Returns.pure (hr.add_mark col mark)

/-! ### Erasing -/

theorem Sound.erase_in_line (mode : ℕ) :
    Returns (g.erase_in_line mode) fun g' => Sound cols rows g' ∧ g'.cursor_row = g.cursor_row := by
  have hstop : (if mode = 1 then (0, min (g.cursor_col + 1) g.cols)
      else if mode = 2 then (0, g.cols) else (g.cursor_col, g.cols)).2 ≤ cols := by
    rw [h.cols_eq]
    split_ifs
    · exact Nat.min_le_right _ _
    · exact le_rfl
    · exact le_rfl
  refine (h.on_row h.cursor_row fun r hr => ?_).mono fun g' h' => ⟨h'.1, h'.2.1⟩
  refine (returns_blank_cells hr hstop).bind fun r' hr' => ?_
  have hused : RowFits cols { r' with
      wrapped := false, used := if mode = 0 then min r'.used g.cursor_col else r'.used } := by
    refine ⟨hr'.1, ?_⟩
    change (if mode = 0 then min r'.used g.cursor_col else r'.used) ≤ cols
    have hle := hr'.2
    split_ifs <;> omega
  refine Returns.pure ?_
  by_cases hall : mode = 2
  · rw [if_pos hall]
    exact ⟨hused.1, Nat.zero_le _⟩
  · rw [if_neg hall]
    exact hused

theorem Sound.clear_rows {start stop : ℕ} (hstop : stop ≤ rows) :
    Returns (g.clear_rows start stop) (Sound cols rows) := by
  refine Returns.each (fun g h r hr => ?_) h
  rw [mem_range'_1] at hr
  exact (h.on_row (by omega) fun row hrow => Returns.pure hrow.clear).mono fun g' h' => h'.1

theorem Sound.erase_in_display (mode : ℕ) :
    Returns (g.erase_in_display mode) (Sound cols rows) := by
  refine Returns.ite (fun _ => ?_) fun _ => Returns.ite (fun _ => ?_) fun _ => ?_
  · refine (h.clear_rows h.cursor_row.le).bind fun g' h' => ?_
    exact (h'.erase_in_line 1).mono fun g'' h'' => h''.1
  · have hcleared : Sound cols rows { g with screen := g.screen.map Row.clear } :=
      { h with screen := h.cleared }
    refine Returns.pure ?_
    split_ifs
    · exact hcleared.clear_history
    · exact hcleared
  · refine (h.erase_in_line 0).bind fun g' h' => ?_
    exact h'.1.clear_rows h'.1.rows_eq.le

theorem Sound.erase_chars :
    Returns (g.erase_chars n) (Sound cols rows) := by
  refine (h.on_row h.cursor_row fun r hr => ?_).mono fun g' h' => h'.1
  refine returns_blank_cells hr ?_
  rw [h.cols_eq]
  exact Nat.min_le_right _ _

theorem Sound.insert_chars :
    Returns (g.insert_chars n) (Sound cols rows) := by
  have hcol := h.cursor_col
  refine (h.on_row h.cursor_row fun r hr => ?_).mono fun g' h' => h'.1
  rw [h.cols_eq]
  refine (returns_sub hcol.le).bind fun room hroom => ?_
  refine (Returns.times (fun cells hcells => ?_) _ (Sized.cells hr)).bind fun cells hcells => ?_
  · refine (hcells.insert_at trivial hcol.le).bind fun cells hcells => ?_
    exact Returns.pure (hcells.take (Nat.le_succ _))
  · exact Returns.pure ⟨hcells.1, Nat.min_le_right _ _⟩

theorem Sound.delete_chars :
    Returns (g.delete_chars n) (Sound cols rows) := by
  have hcol := h.cursor_col
  refine (h.on_row h.cursor_row fun r hr => ?_).mono fun g' h' => h'.1
  rw [h.cols_eq]
  refine (returns_sub hcol.le).bind fun room hroom => ?_
  refine (Returns.times (fun cells hcells => ?_) _ (Sized.cells hr)).bind fun cells hcells => ?_
  · refine (hcells.remove_at hcol).bind fun taken htaken => ?_
    have happend := htaken.2.append (Sized.replicate (P := fun _ => True) (a := ' ') trivial 1)
    rw [Nat.sub_add_cancel h.cols_pos] at happend
    exact Returns.pure happend
  · refine Returns.pure ⟨hcells.1, ?_⟩
    have hle : r.used ≤ cols := hr.2
    change max (r.used - max n 1) g.cursor_col ≤ cols
    omega

/-! ### The typed line -/

theorem Sound.mark_anchor (typed : Str) :
    Sound cols rows (g.mark_anchor typed) := { h with }

omit h in
theorem returns_first_wrapped {screen : List Row} {P : Row → Prop} (h : Sized P rows screen)
    {row : ℕ} (hrow : row < rows) :
    Returns (Grid.first_wrapped screen row) fun first => first ≤ row := by
  induction row with
  | zero => exact Returns.pure le_rfl
  | succ row ih =>
    refine (h.index (Nat.lt_of_succ_lt hrow)).bind fun r _ => ?_
    refine Returns.ite (fun _ => ?_) fun _ => Returns.pure le_rfl
    exact (ih (Nat.lt_of_succ_lt hrow)).mono fun first hfirst => Nat.le_succ_of_le hfirst

theorem Sound.echo_ends_here :
    Returns g.echo_ends_here fun _ => True := by
  refine (returns_first_wrapped h.screen h.cursor_row).bind fun first hfirst => ?_
  refine (h.screen.slice (by omega) (Nat.succ_le_of_lt h.cursor_row)).bind fun rows _ => ?_
  exact Returns.pure trivial

/-- Rows are cut out of the scrollback and the screen put together; what is left is as
long as the screen at most behind the new end of the scrollback. -/
theorem Sound.cut_typed_line :
    Returns g.cut_typed_line (Sound cols rows) := by
  unfold Grid.cut_typed_line
  rcases hanchor : g.anchor with _ | anchor
  · exact Returns.pure h
  have htaken : Sound cols rows { g with anchor := none } := { h with }
  refine Returns.ite (fun _ => Returns.pure htaken) fun hcut => ?_
  have hdropped : g.dropped ≤ anchor := by
    by_contra hlt
    simp [not_le.mp hlt] at hcut
  refine (returns_sub hdropped).bind fun start _ => ?_
  refine Returns.ite (fun _ => Returns.pure htaken) fun hlt => ?_
  have hrow := h.cursor_row
  have hstart : start < g.scrollback.length + g.cursor_row := not_le.mp hlt
  have hrows : Sized (RowFits cols) (g.scrollback.length + rows) (g.scrollback ++ g.screen) :=
    Sized.append ⟨rfl, h.scrollback⟩ h.screen
  refine (hrows.drain hstart.le (by omega)).bind fun kept hkept => ?_
  refine (returns_sub (Nat.min_le_left _ _)).bind fun top (htop : top = start - min start g.cursor_row) => ?_
  refine (hkept.split_off (i := top) (by omega)).bind fun halves hhalves => ?_
  obtain ⟨history, screen⟩ := halves
  refine (returns_sub (a := start) (b := top) (by omega)).bind fun row hrow' => ?_
  have hhistory := h.history
  refine Returns.pure { htaken with
    screen := ?_, cursor_row := ?_, scrollback := hhalves.1.2, history := ?_, drawn := by simp }
  · change Sized (RowFits cols) rows (resize screen g.rows (Row.blank g.cols))
    rw [h.rows_eq, h.cols_eq]
    exact hhalves.2.resize (RowFits.blank cols) (by omega)
  · change row < rows
    omega
  · change history.length ≤ HISTORY_LIMIT
    rw [hhalves.1.1]
    omega

theorem Sound.cut_to_anchor :
    Returns g.cut_to_anchor (Sound cols rows) := by
  unfold Grid.cut_to_anchor
  rcases g.anchor with _ | anchor
  · exact Returns.pure h
  · exact Returns.ite (fun _ => Returns.pure { h with }) fun _ => h.cut_typed_line

theorem Sound.line_feed : Returns g.line_feed (Sound cols rows) := by
  have hechoed : Returns (if g.cut_after_echo then g.echo_ends_here else some false)
      fun _ => True :=
    Returns.ite (fun _ => h.echo_ends_here) fun _ => Returns.pure trivial
  refine hechoed.bind fun echoed _ => ?_
  refine h.next_row.bind fun g' h' => ?_
  refine Returns.ite (fun _ => ?_) fun _ => Returns.pure h'.1
  have hcut : Sound cols rows { g' with cut_after_echo := false } := { h'.1 with }
  exact hcut.cut_typed_line

end

/-! ## The parser -/

/-- The bytes of a character that has not arrived in full fit their buffer. -/
structure Pending (u : PartialChar) : Prop where
  buf : u.buf.length = 4
  fits : u.len + u.need ≤ 4

/-- A pane between two bytes. -/
def PaneSound (cols rows : ℕ) (s : Parser × Grid) : Prop :=
  Pending s.1.utf8 ∧ Sound cols rows s.2

section
variable {cols rows : ℕ} {p : Parser} {g : Grid}

/-- A parser that goes on from where the grid was left. -/
theorem Pending.with_grid (hp : Pending p.utf8) {x : Option Grid}
    (h : Returns x (Sound cols rows)) {f : Grid → Option (Parser × Grid)}
    (hf : ∀ g', ∃ p', f g' = some (p', g') ∧ p'.utf8 = p.utf8) :
    Returns (x >>= f) (PaneSound cols rows) := by
  refine h.bind fun g' h' => ?_
  obtain ⟨p', hp', hutf8⟩ := hf g'
  exact ⟨_, hp', by rw [hutf8]; exact hp, h'⟩

variable (h : Sound cols rows g)
include h

theorem returns_print_char (ch : Char) :
    Returns (print_char ch g) (Sound cols rows) :=
  Returns.ite (fun _ => h.combine ch) fun _ => h.put ch _

theorem returns_tab : Returns (tab g) (Sound cols rows) :=
  h.last_col.bind fun _ _ => h.move_to _ _

theorem returns_control (b : UInt8) :
    Returns (control b g) (Sound cols rows) := by
  refine Returns.ite (fun _ => Returns.pure (h.cursor_left 1)) fun _ => ?_
  refine Returns.ite (fun _ => returns_tab h) fun _ => ?_
  refine Returns.ite (fun _ => h.line_feed) fun _ => ?_
  exact Returns.ite (fun _ => Returns.pure h.first_col.unpark) fun _ => Returns.pure h

omit h in
theorem returns_ground_start (hp : Pending p.utf8) (h : Sound cols rows g) (b : UInt8) :
    Returns (p.ground_start b g) (PaneSound cols rows) := by
  refine Returns.ite (fun _ => Returns.pure ⟨hp, h⟩) fun _ => ?_
  refine Returns.ite (fun _ => hp.with_grid (returns_control h b) fun g' => ⟨p, rfl, rfl⟩) fun _ => ?_
  refine Returns.ite (fun _ => hp.with_grid (returns_print_char h _) fun g' => ⟨p, rfl, rfl⟩)
    fun _ => ?_
  have hneed : ∀ n, (if 0xC2 ≤ b ∧ b ≤ 0xDF then some 1
      else if 0xE0 ≤ b ∧ b ≤ 0xEF then some 2
      else if 0xF0 ≤ b ∧ b ≤ 0xF4 then some 3 else none) = some n → n ≤ 3 := by
    intro n hn
    split_ifs at hn
    all_goals
      have hn' := some.inj hn
      omega
  rcases hneed' : (if 0xC2 ≤ b ∧ b ≤ 0xDF then some 1
      else if 0xE0 ≤ b ∧ b ≤ 0xEF then some 2
      else if 0xF0 ≤ b ∧ b ≤ 0xF4 then some 3 else none) with _ | n
  · simp only
    exact hp.with_grid (returns_print_char h _) fun g' => ⟨p, rfl, rfl⟩
  · simp only
    have hle := hneed n hneed'
    have hbuf : Sized (fun _ => True) 4 p.utf8.buf := ⟨hp.buf, fun _ _ => trivial⟩
    refine (hbuf.set_at trivial (Nat.succ_pos 3)).bind fun buf hbuf' => ?_
    exact Returns.pure ⟨⟨hbuf'.1, by change 1 + n ≤ 4; omega⟩, h⟩

omit h in
theorem returns_ground (hp : Pending p.utf8) (h : Sound cols rows g) (b : UInt8) :
    Returns (p.ground b g) (PaneSound cols rows) := by
  have hfits := hp.fits
  refine Returns.ite (fun hneed => ?_) fun _ => returns_ground_start hp h b
  refine Returns.ite (fun _ => ?_) fun _ => ?_
  · have hbuf : Sized (fun _ => True) 4 p.utf8.buf := ⟨hp.buf, fun _ _ => trivial⟩
    refine (hbuf.set_at trivial (by omega)).bind fun buf hbuf' => ?_
    refine (returns_sub (Nat.one_le_of_lt hneed)).bind fun need hneed' => ?_
    refine Returns.ite (fun _ => ?_) fun _ => ?_
    · refine (hbuf'.slice (Nat.zero_le _) (by omega)).bind fun bytes _ => ?_
      refine (Returns.each (fun g h ch _ => returns_print_char h ch) h).bind fun g' h' => ?_
      exact Returns.pure ⟨⟨hbuf'.1, by change 0 + need ≤ 4; omega⟩, h'⟩
    · exact Returns.pure ⟨⟨hbuf'.1, by change p.utf8.len + 1 + need ≤ 4; omega⟩, h⟩
  · refine (returns_print_char h _).bind fun g' h' => ?_
    exact returns_ground_start (p := { p with utf8 := { p.utf8 with len := 0, need := 0 } })
      ⟨hp.buf, Nat.zero_le _⟩ h' b

omit h in
theorem returns_esc (hp : Pending p.utf8) (h : Sound cols rows g) (b : UInt8) :
    Returns (p.esc b g) (PaneSound cols rows) := by
  unfold Parser.esc
  simp only
  split
  · exact Returns.pure ⟨hp, h⟩
  · exact Returns.pure ⟨hp, h⟩
  · exact Returns.pure ⟨hp, h⟩
  · exact Returns.pure ⟨hp, h⟩
  · exact Returns.pure ⟨hp, h⟩
  · exact Returns.pure ⟨hp, h⟩
  · exact Returns.pure ⟨hp, h.save_cursor⟩
  · exact hp.with_grid h.restore_cursor fun g' => ⟨_, rfl, rfl⟩
  · exact hp.with_grid h.line_feed fun g' => ⟨_, rfl, rfl⟩
  · exact hp.with_grid h.first_col.line_feed fun g' => ⟨_, rfl, rfl⟩
  · exact hp.with_grid h.reverse_index fun g' => ⟨_, rfl, rfl⟩
  · exact hp.with_grid h.reset fun g' => ⟨_, rfl, rfl⟩
  all_goals exact Returns.pure ⟨hp, h⟩

theorem returns_switch_mode (set : Bool) (mode : ℕ) :
    Returns (Parser.switch_mode set g mode) (Sound cols rows) := by
  refine Returns.ite (fun _ => Returns.pure { h with }) fun _ => ?_
  refine Returns.ite (fun _ => ?_) fun _ => Returns.pure h
  exact Returns.ite (fun _ => h.enter_alt_screen) fun _ => h.leave_alt_screen

theorem returns_mode (p : Parser) (set : Bool) :
    Returns (p.mode set g) (Sound cols rows) := by
  refine Returns.ite (fun _ => ?_) fun _ => Returns.pure h
  exact Returns.each (fun g h mode _ => returns_switch_mode h set mode) h

omit h in
/-- A parameter with a positive default is positive. -/
theorem one_le_arg (p : Parser) (n : ℕ) {default : ℕ} (h : 1 ≤ default) : 1 ≤ p.arg n default := by
  unfold Parser.arg
  split
  · exact h
  · exact h
  next v hv _ =>
    exact Nat.one_le_iff_ne_zero.mpr fun hzero => hv (by rw [hzero])

/-- A screen of `u16` size has a last row to count to. -/
theorem one_le_rows (hrows : rows ≤ 65535) :
    1 ≤ Parser.as_u16 g.rows := by
  have hpos := h.rows_pos
  unfold Parser.as_u16
  rw [h.rows_eq]
  omega

theorem returns_dispatch (hrows : rows ≤ 65535) (p : Parser) (b : UInt8) :
    Returns (p.dispatch b g) (Sound cols rows) := by
  have hone : 1 ≤ p.arg 0 1 := one_le_arg p 0 le_rfl
  have hone' : 1 ≤ p.arg 1 1 := one_le_arg p 1 le_rfl
  unfold Parser.dispatch
  simp only
  split
  · exact Returns.pure (h.cursor_up _)
  · exact h.cursor_down _
  · exact h.cursor_down _
  · exact h.cursor_right _
  · exact h.cursor_right _
  · exact Returns.pure (h.cursor_left _)
  · exact (h.cursor_down _).bind fun g' h' => Returns.pure h'.first_col
  · exact Returns.pure (h.cursor_up _).first_col
  · exact (returns_sub hone).bind fun _ _ => h.move_to _ _
  · exact (returns_sub hone).bind fun _ _ => h.move_to _ _
  · exact (returns_sub hone).bind fun _ _ => (returns_sub hone').bind fun _ _ => h.move_to _ _
  · exact (returns_sub hone).bind fun _ _ => (returns_sub hone').bind fun _ _ => h.move_to _ _
  · exact (returns_sub hone).bind fun _ _ => h.move_to _ _
  · exact h.erase_in_display _
  · exact (h.erase_in_line _).mono fun g' h' => h'.1
  · exact h.insert_lines _
  · exact h.delete_lines _
  · exact h.insert_chars _
  · exact h.delete_chars _
  · exact h.erase_chars _
  · exact (h.scroll_up _).mono fun g' h' => h'.1
  · exact h.scroll_down _
  · refine (returns_sub hone).bind fun _ _ => ?_
    exact (returns_sub (one_le_arg p 1 (one_le_rows h hrows))).bind fun _ _ => h.set_scroll_region _ _
  · exact Returns.pure h.save_cursor
  · exact h.restore_cursor
  · exact returns_mode h p true
  · exact returns_mode h p false
  · exact Returns.pure h

omit h

theorem returns_csi (hp : Pending p.utf8) (h : Sound cols rows g) (hrows : rows ≤ 65535) (b : UInt8) :
    Returns (p.csi b g) (PaneSound cols rows) := by
  refine Returns.ite (fun _ => Returns.pure ⟨hp, h⟩) fun _ => ?_
  refine Returns.ite (fun _ => Returns.pure ⟨hp, h⟩) fun _ => ?_
  refine Returns.ite (fun _ => Returns.pure ⟨hp, h⟩) fun _ => ?_
  refine Returns.ite (fun _ => Returns.pure ⟨hp, h⟩) fun _ => ?_
  refine Returns.ite (fun _ => ?_) fun _ => ?_
  · exact hp.with_grid (returns_dispatch h hrows p.push_param b) fun g' => ⟨_, rfl, rfl⟩
  refine Returns.ite (fun _ => Returns.pure ⟨hp, h⟩) fun _ => ?_
  refine Returns.ite (fun _ => ?_) fun _ => Returns.pure ⟨hp, h⟩
  exact hp.with_grid (returns_control h b) fun g' => ⟨_, rfl, rfl⟩

theorem returns_finish_osc (hp : Pending p.utf8) (h : Sound cols rows g) :
    Returns (p.finish_osc g) (PaneSound cols rows) := by
  refine Returns.ite (fun _ => Returns.pure ⟨hp, { h with }⟩) fun _ => ?_
  refine Returns.ite (fun _ => ?_) fun _ => Returns.ite (fun _ => ?_) fun _ => Returns.pure ⟨hp, h⟩
  · split
    · exact Returns.pure ⟨hp, h⟩
    · exact Returns.pure ⟨hp, h⟩
  · exact hp.with_grid h.cut_to_anchor fun g' => ⟨_, rfl, rfl⟩

theorem returns_osc_byte (hp : Pending p.utf8) (h : Sound cols rows g) (b : UInt8) :
    Returns (p.osc_byte b g) (PaneSound cols rows) := by
  refine Returns.ite (fun _ => ?_) fun _ => Returns.ite (fun _ => ?_) fun _ => ?_
  · exact Returns.ite (fun _ => returns_finish_osc (p := { p with state := .ground }) hp h)
      fun _ => Returns.pure ⟨hp, h⟩
  · exact (returns_finish_osc hp h).bind fun s hs => Returns.pure hs
  · exact Returns.ite (fun _ => Returns.pure ⟨hp, h⟩) fun _ => Returns.pure ⟨hp, h⟩

theorem string_byte_utf8 (p : Parser) (b : UInt8) : (p.string_byte b).utf8 = p.utf8 := by
  unfold Parser.string_byte
  split_ifs <;> rfl

/-- One byte. -/
theorem returns_byte (hp : Pending p.utf8) (h : Sound cols rows g) (hrows : rows ≤ 65535)
    (b : UInt8) : Returns (p.byte b g) (PaneSound cols rows) := by
  have hstring : Pending (p.string_byte b).utf8 := by rw [string_byte_utf8]; exact hp
  unfold Parser.byte
  split
  · exact returns_ground hp h b
  · exact returns_esc hp h b
  · exact Returns.pure ⟨hp, h⟩
  · exact returns_csi hp h hrows b
  · exact returns_osc_byte hp h b
  · exact returns_osc_byte hp h b
  · exact Returns.pure ⟨hstring, h⟩
  · exact Returns.pure ⟨hstring, h⟩

end

/-- Bytes of any kind, and lines typed in between: no operation of the emulator panics on
a screen of `u16` size, and every state it reaches is sound. -/
theorem emulator_never_panics (cols rows : ℕ) (hcols : 1 ≤ cols ∧ cols ≤ 65535)
    (hrows : 1 ≤ rows ∧ rows ≤ 65535) (events : List PaneEvent) :
    ∃ p g, run_pane cols rows events = some (p, g) ∧ Sound cols rows g := by
  have hstart : PaneSound cols rows ({}, Grid.new cols rows) :=
    ⟨⟨rfl, Nat.zero_le _⟩, Sound.start hcols.1 hrows.1⟩
  have hrun : Returns (run_pane cols rows events) (PaneSound cols rows) := by
    refine Returns.each (fun s hs e _ => ?_) hstart
    obtain ⟨p, g⟩ := s
    cases e with
    | byte b => exact returns_byte hs.1 hs.2 hrows.2 b
    | mark_anchor typed => exact Returns.pure ⟨hs.1, hs.2.mark_anchor typed⟩
  obtain ⟨⟨p, g⟩, heq, -, h⟩ := hrun
  exact ⟨p, g, heq, h⟩

/-- A scroll region set past the screen, with the cursor sent there. -/
theorem emulator_never_panics_small :
    ∃ p g, run_pane 2 1 [.byte 0x1B, .byte 0x5B, .byte 0x39, .byte 0x72, .byte 0x41] = some (p, g)
      ∧ Sound 2 1 g :=
  emulator_never_panics 2 1 (by decide) (by decide) _

end Lpm.Terminal
