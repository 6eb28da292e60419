/-
What running a typed line cuts out of the pane it was typed into.

A line's number counts the lines the pane ever had: the ones it let go of, then the
scrollback, then the screen. Scrolling the whole screen, trimming the scrollback and
clearing it keep the number of every line that stays (`Numbered`), so the number that
`mark_anchor` takes is that of the line the cursor was on. `cut_typed_line` then takes
the rows from that line to the one above the cursor's out of the scrollback and the
screen put together, and splits what is left so that the cursor keeps its row; the
screen is filled up below, and never has a row too many (`Sound.cut_out`).
-/
import Lpm.Terminal.Rejoin

set_option autoImplicit false

open RustText Checked

namespace Lpm.Terminal

open List

/-! ## Line numbers -/

namespace Grid

variable (g : Grid)

/-- The lines of the pane that are left, oldest first. -/
def lines : List Row := g.scrollback ++ g.screen

/-- The line with a number, where the pane has it. -/
def line_at (k : ℕ) : Option Row :=
  if k < g.dropped then none else g.lines[k - g.dropped]?

/-- The number the next line below the screen gets. -/
def line_end : ℕ := g.dropped + g.lines.length

end Grid

/-- Every line that stays keeps its number, and the anchor stays what it is. -/
structure Numbered (g g' : Grid) : Prop where
  anchor : g'.anchor = g.anchor
  dropped : g.dropped ≤ g'.dropped
  line_end : g.line_end ≤ g'.line_end
  line_at : ∀ k, g'.dropped ≤ k → k < g.line_end → g'.line_at k = g.line_at k

section
variable {g g' g'' : Grid}

theorem Numbered.refl (g : Grid) : Numbered g g :=
  ⟨rfl, Nat.le_refl _, Nat.le_refl _, fun _ _ _ => rfl⟩

theorem Numbered.trans (h : Numbered g g') (h' : Numbered g' g'') : Numbered g g'' where
  anchor := h'.anchor.trans h.anchor
  dropped := h.dropped.trans h'.dropped
  line_end := h.line_end.trans h'.line_end
  line_at k hk hend := by
    rw [h'.line_at k hk (Nat.lt_of_lt_of_le hend h.line_end),
      h.line_at k (h'.dropped.trans hk) hend]

/-- Lines let go of at the top are counted, and lines come in at the bottom. -/
theorem Numbered.of_lines {gone more : List Row} (hlines : g.lines ++ more = gone ++ g'.lines)
    (hdropped : g'.dropped = g.dropped + gone.length) (hanchor : g'.anchor = g.anchor) :
    Numbered g g' := by
  have hlength := congrArg List.length hlines
  rw [length_append, length_append] at hlength
  refine ⟨hanchor, by omega, by unfold Grid.line_end; omega, ?_⟩
  intro k hk hend
  unfold Grid.line_end at hend
  have hstays : g'.lines[k - g'.dropped]? = (gone ++ g'.lines)[k - g.dropped]? := by
    rw [getElem?_append_right (by omega), hdropped, Nat.sub_sub]
  rw [Grid.line_at, Grid.line_at, if_neg (by omega), if_neg (by omega), hstays, ← hlines,
    getElem?_append_left (by omega)]

theorem numbered_clear_history (g : Grid) : Numbered g g.clear_history := by
  apply @Numbered.of_lines g g.clear_history g.scrollback []
  · simp [Grid.lines, Grid.clear_history]
  · rfl
  · rfl

/-- The top row goes into the scrollback, and a blank one comes below. -/
theorem numbered_scroll {first blank : Row} {rest : List Row} (hscreen : g.screen = first :: rest) :
    Numbered g { g.retire first with screen := rest ++ [blank] } := by
  obtain ⟨gone, hgone, hlength⟩ := trim_history_eq (g.scrollback ++ [first])
  apply @Numbered.of_lines g { g.retire first with screen := rest ++ [blank] } gone [blank]
  · have hleft : g.lines ++ [blank] = (g.scrollback ++ [first]) ++ (rest ++ [blank]) := by
      simp [Grid.lines, hscreen]
    rw [hleft, hgone, append_assoc]
    rfl
  · rw [hlength]
    rfl
  · rfl

theorem whole_iff (g : Grid) :
    g.whole = true ↔ g.scroll_top = 0 ∧ g.scroll_bottom + 1 = g.rows := by
  simp [Grid.whole]

/-- Scrolling a whole screen keeps the number of every line it keeps. -/
theorem Sound.numbered_scroll_up {cols rows : ℕ} (h : Sound cols rows g) (hwhole : g.whole = true)
    (hmain : g.on_alt_screen = false) (n : ℕ) : Returns (g.scroll_up n) (Numbered g) := by
  have hkeep : (g.whole && !g.on_alt_screen) = true := by rw [hwhole, hmain]; rfl
  unfold Grid.scroll_up
  dsimp only
  rw [hkeep]
  refine (Returns.times (P := fun g' => Numbered g g' ∧ g'.screen.length = rows ∧
    g'.scroll_top = 0 ∧ g'.scroll_bottom + 1 = rows) ?_ (min n g.rows) ?_).mono fun g' h' => h'.1
  · rintro g' ⟨hnum, hheight, htop, hbottom⟩
    cases hscreen : g'.screen with
    | nil =>
      rw [hscreen, length_nil] at hheight
      omega
    | cons first rest =>
      rw [hscreen, length_cons] at hheight
      have htake : remove_at g'.screen g'.scroll_top = some (first, rest) := by
        rw [htop, hscreen]
        rfl
      have hput : insert_at rest (g'.retire first).scroll_bottom (Row.blank (g'.retire first).cols)
          = some (rest ++ [Row.blank g'.cols]) := by
        rw [show (g'.retire first).scroll_bottom = rest.length by
          change g'.scroll_bottom = _
          omega, insert_at, if_pos (Nat.le_refl _), insertIdx_length_self]
        rfl
      refine ⟨{ g'.retire first with screen := rest ++ [Row.blank g'.cols] }, ?_,
        hnum.trans (numbered_scroll hscreen), ?_, htop, hbottom⟩
      · rw [← hscreen, htake]
        simp only [if_true, Option.bind_eq_bind, Option.bind_some, hput]
        rfl
      · rw [length_append, length_singleton]
        exact hheight
  · obtain ⟨htop, hbottom⟩ := (whole_iff g).mp hwhole
    exact ⟨Numbered.refl g, h.screen.1, htop, h.rows_eq ▸ hbottom⟩

/-- The anchor is the line the cursor is on. -/
theorem line_at_anchor (g : Grid) (typed : Str) :
    ∃ anchor, (g.mark_anchor typed).anchor = some anchor ∧
      (g.mark_anchor typed).line_at anchor = g.screen[g.cursor_row]? := by
  refine ⟨g.line, rfl, ?_⟩
  have hline : g.line - g.dropped = g.scrollback.length + g.cursor_row := by
    unfold Grid.line
    omega
  change (if g.line < g.dropped then none else g.lines[g.line - g.dropped]?) = _
  rw [if_neg (by unfold Grid.line; omega), hline, Grid.lines,
    getElem?_append_right (Nat.le_add_right _ _), Nat.add_sub_cancel_left]

end

/-! ## The cut -/

/-- The rows from the anchor's line to the one above the cursor's are gone, the others are in
order with blank ones behind them, and the cursor is on the row it was on. Nothing else of
the grid changed but what was drawn last and whether a wrap is put off. -/
structure CutOut (g : Grid) (anchor : ℕ) (g' : Grid) : Prop where
  lines : ∃ blanks, g'.lines = g.lines.take (anchor - g.dropped)
    ++ g.lines.drop (max anchor g.line - g.dropped) ++ List.replicate blanks (Row.blank g.cols)
  height : g'.screen.length = g.rows
  cursor_line : g'.scrollback.length + g'.cursor_row = min anchor g.line - g.dropped
  cursor : g'.screen[g'.cursor_row]? = g.screen[g.cursor_row]?
  rest : g' = { g with
    anchor := none, scrollback := g'.scrollback, screen := g'.screen, cursor_row := g'.cursor_row
    wrap_pending := g'.wrap_pending, last_drawn := g'.last_drawn }

/-- The anchor is still in the pane, and the screen is the main one and scrolls as a whole. -/
def Cuttable (g : Grid) (anchor : ℕ) : Prop :=
  g.anchor = some anchor ∧ g.dropped ≤ anchor ∧ g.on_alt_screen = false ∧ g.whole = true

section
variable {cols rows anchor : ℕ} {g : Grid}

/-- Where no line is cut, only the anchor goes. -/
theorem cut_nothing (h : ∀ anchor, ¬ Cuttable g anchor) :
    g.cut_typed_line = some { g with anchor := none } := by
  unfold Grid.cut_typed_line
  rcases hanchor : g.anchor with _ | anchor
  · dsimp only
    rw [← hanchor]
  · dsimp only
    rw [if_pos]
    by_contra hcut
    refine h anchor ⟨hanchor, ?_⟩
    simpa [Grid.on_alt_screen, Grid.whole, and_assoc, and_comm] using hcut

/-- Where the anchor's line is the cursor's or below it, there is nothing to cut out. -/
theorem cut_out_none (hbelow : g.line ≤ anchor) (h : Sound cols rows g) :
    CutOut g anchor { g with anchor := none } := by
  have hline : g.line - g.dropped = g.scrollback.length + g.cursor_row := by
    unfold Grid.line
    omega
  refine ⟨⟨0, ?_⟩, ?_, ?_, rfl, rfl⟩
  · rw [max_eq_left hbelow, take_append_drop, replicate_zero, append_nil]
    rfl
  · rw [h.rows_eq]
    exact h.screen.1
  · rw [min_eq_right hbelow, hline]

/-- Where there is, the cursor's screen row goes as far up as the history lacks lines. -/
theorem Sound.cut_out (h : Sound cols rows g) (hcut : Cuttable g anchor) :
    Returns g.cut_typed_line (CutOut g anchor) := by
  obtain ⟨hanchor, hkept, hmain, hwhole⟩ := hcut
  have hline : g.line - g.dropped = g.scrollback.length + g.cursor_row := by
    unfold Grid.line
    omega
  have hguard : ¬ (g.on_alt_screen || !g.whole || decide (anchor < g.dropped)) = true := by
    rw [hmain, hwhole]
    simpa using hkept
  unfold Grid.cut_typed_line
  rw [hanchor]
  dsimp only
  refine Returns.ite (fun hstop => absurd hstop hguard) fun _ => ?_
  refine (returns_sub hkept).bind fun start hstart => ?_
  refine Returns.ite (fun hbelow => ?_) fun hlt => ?_
  · refine Returns.pure (cut_out_none ?_ h)
    omega
  have hrow := h.cursor_row
  have hlength : g.lines.length = g.scrollback.length + rows := by
    rw [Grid.lines, length_append, h.screen.1]
  have htail : (g.lines.drop (g.scrollback.length + g.cursor_row)).length = rows - g.cursor_row := by
    rw [length_drop, hlength]
    omega
  have hhead : (g.lines.take start).length = start := length_take_of_le (by omega)
  have hbound : start ≤ g.scrollback.length + g.cursor_row ∧
      g.scrollback.length + g.cursor_row ≤ (g.scrollback ++ g.screen).length := by
    rw [show g.scrollback ++ g.screen = g.lines from rfl]
    omega
  -- what is left of the lines, and where the screen starts in it
  obtain ⟨left, hleft⟩ : ∃ left, left = g.lines.take start
    ++ g.lines.drop (g.scrollback.length + g.cursor_row) := ⟨_, rfl⟩
  obtain ⟨top, htop⟩ : ∃ top, top = start - min start g.cursor_row := ⟨_, rfl⟩
  have hlen : left.length = start + (rows - g.cursor_row) := by
    rw [hleft, length_append, hhead, htail]
  have hdrain : drain (g.scrollback ++ g.screen) start (g.scrollback.length + g.cursor_row)
      = some left := by
    rw [hleft]
    exact if_pos hbound
  have hsub : sub start (min start g.cursor_row) = some top := by
    rw [htop]
    exact if_pos (Nat.min_le_left _ _)
  have hsplit : split_off left top = some (left.take top, left.drop top) := if_pos (by omega)
  have hback : sub start top = some (start - top) := if_pos (by omega)
  have hscreen : resize (left.drop top) g.rows (Row.blank g.cols) = left.drop top
      ++ List.replicate (g.rows - (left.drop top).length) (Row.blank g.cols) := by
    rw [resize, take_of_length_le]
    rw [length_drop, h.rows_eq]
    omega
  refine ⟨{ g with
    anchor := none, scrollback := left.take top
    screen := resize (left.drop top) g.rows (Row.blank g.cols), cursor_row := start - top
    wrap_pending := false, last_drawn := none }, ?_, ?_⟩
  · rw [hdrain]
    simp only [Option.bind_eq_bind, Option.bind_some, hsub, hsplit, hback]
    rfl
  · refine ⟨⟨g.rows - (left.drop top).length, ?_⟩, ?_, ?_, ?_, rfl⟩
    · change left.take top ++ resize (left.drop top) g.rows (Row.blank g.cols) = _
      rw [hscreen, ← append_assoc, take_append_drop, hleft, ← hstart,
        show max anchor g.line - g.dropped = g.scrollback.length + g.cursor_row by omega]
    · rw [hscreen, length_append, length_replicate, length_drop, h.rows_eq]
      omega
    · change (left.take top).length + (start - top) = _
      rw [length_take_of_le (by omega)]
      omega
    · change (resize (left.drop top) g.rows (Row.blank g.cols))[start - top]? = _
      rw [hscreen, getElem?_append_left (by rw [length_drop]; omega), getElem?_drop,
        Nat.add_sub_cancel' (by omega), hleft, getElem?_append_right (by omega), hhead,
        Nat.sub_self, getElem?_drop, Grid.lines, Nat.add_zero,
        getElem?_append_right (Nat.le_add_right _ _), Nat.add_sub_cancel_left]

end

/-! ## Every pane -/

/-- What happens to a pane: output arrives or a line is typed, or what runs in it is
interrupted, which resets the screen and clears the history. -/
inductive TypedEvent where
  | pane (e : PaneEvent)
  | interrupt

def TypedEvent.apply : Parser × Grid → TypedEvent → Option (Parser × Grid)
  | s, .pane e => e.apply s
  | (p, g), .interrupt => do return (p, (← g.reset).clear_history)

/-- What is right about the anchor and the cut in a state of the grid. -/
structure CutsTypedLine (g : Grid) : Prop where
  /-- The anchor is taken from the line the cursor is on, -/
  marks : ∀ typed, ∃ anchor, (g.mark_anchor typed).anchor = some anchor ∧
    (g.mark_anchor typed).line_at anchor = g.screen[g.cursor_row]?
  /-- and stays that line's number while rows scroll and the history is trimmed -/
  scrolls : g.whole = true → g.on_alt_screen = false →
    ∀ n, ∃ g', g.scroll_up n = some g' ∧ Numbered g g'
  /-- or cleared. -/
  clears : Numbered g g.clear_history
  cuts : ∀ anchor, Cuttable g anchor → ∃ g', g.cut_typed_line = some g' ∧ CutOut g anchor g'
  leaves : (∀ anchor, ¬ Cuttable g anchor) → g.cut_typed_line = some { g with anchor := none }

theorem Sound.cuts_typed_line {cols rows : ℕ} {g : Grid} (h : Sound cols rows g) :
    CutsTypedLine g where
  marks typed := line_at_anchor g typed
  scrolls hwhole hmain n := h.numbered_scroll_up hwhole hmain n
  clears := numbered_clear_history g
  cuts _ hcut := h.cut_out hcut
  leaves := cut_nothing

/-- Whatever a pane was sent and typed, with interrupts in between: the cut takes out the
rows from the anchor's line to above the cursor's, or nothing but the anchor. -/
theorem typed_line_cut (cols rows : ℕ) (hcols : 1 ≤ cols ∧ cols ≤ 65535)
    (hrows : 1 ≤ rows ∧ rows ≤ 65535) (events : List TypedEvent) :
    ∃ p g, events.foldlM TypedEvent.apply (({}, Grid.new cols rows) : Parser × Grid) = some (p, g) ∧
      CutsTypedLine g := by
  have hstart : PaneSound cols rows ({}, Grid.new cols rows) :=
    ⟨⟨rfl, Nat.zero_le _⟩, Sound.start hcols.1 hrows.1⟩
  have hrun : Returns (events.foldlM TypedEvent.apply (({}, Grid.new cols rows) : Parser × Grid))
      (PaneSound cols rows) := by
    refine Returns.each (fun s hs e _ => ?_) hstart
    obtain ⟨p, g⟩ := s
    cases e with
    | pane e =>
      cases e with
      | byte b => exact returns_byte hs.1 hs.2 hrows.2 b
      | mark_anchor typed => exact Returns.pure ⟨hs.1, hs.2.mark_anchor typed⟩
    | interrupt =>
      exact hs.2.reset.bind fun g' h' => Returns.pure ⟨hs.1, h'.clear_history⟩
  obtain ⟨⟨p, g⟩, heq, -, h⟩ := hrun
  exact ⟨p, g, heq, h.cuts_typed_line⟩

/-- A line typed into a pane of two rows, and its echo. -/
theorem typed_line_cut_small :
    ∃ p g, [.interrupt, .pane (.mark_anchor ['a']), .pane (.byte 0x61), .pane (.byte 0x0D),
        .pane (.byte 0x0A)].foldlM TypedEvent.apply (({}, Grid.new 8 2) : Parser × Grid) = some (p, g) ∧
      CutsTypedLine g :=
  typed_line_cut 8 2 (by decide) (by decide) _

end Lpm.Terminal
