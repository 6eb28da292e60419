/-
An excursion to the alternate screen leaves the main one as it was.

What is drawn on the alternate screen shares the cursor, the scroll region, the anchor of the
typed line and the scrollback with the main screen. `Within` is what every operation keeps
but those that switch screens: the rows put aside, and the scrollback while they are put
aside. Three kinds of sequences are left out of an excursion (`Parser.breaks`): those that
leave the alternate screen, reset the terminal, or erase the scrollback.
-/
import Lpm.Terminal.Safety

set_option autoImplicit false

open RustText Utf8 Checked

namespace Lpm.Terminal

open List

/-- The screen put aside stays, and the scrollback with it while there is one. -/
structure Within (g g' : Grid) : Prop where
  saved : g'.alt_saved = g.alt_saved
  history : g.alt_saved.isSome = true → g'.scrollback = g.scrollback

section
variable {g g' g'' : Grid}

theorem Within.refl (g : Grid) : Within g g := ⟨rfl, fun _ => rfl⟩

theorem Within.trans (h : Within g g') (h' : Within g' g'') : Within g g'' :=
  ⟨h'.saved.trans h.saved, fun hs => (h'.history (h.saved ▸ hs)).trans (h.history hs)⟩

/-- One operation after another. -/
theorem Within.bind {x : Option Grid} {f : Grid → Option Grid} (h : Yields x (Within g))
    (hf : ∀ g', Yields (f g') (Within g')) : Yields (x >>= f) (Within g) :=
  Yields.bind h fun g' h' => (hf g').mono fun _ h'' => h'.trans h''

theorem Within.times {f : Grid → Option Grid} (hf : ∀ g, Yields (f g) (Within g)) (n : ℕ) :
    Yields (times n f g) (Within g) :=
  Yields.times (fun g' h => (hf g').mono fun _ h' => h.trans h') n (Within.refl g)

theorem Within.each {γ : Type} {f : Grid → γ → Option Grid} {l : List γ}
    (hf : ∀ g, ∀ c ∈ l, Yields (f g c) (Within g)) : Yields (l.foldlM f g) (Within g) :=
  Yields.each (fun g' h c hc => (hf g' c hc).mono fun _ h' => h.trans h') (Within.refl g)

/-! ## The grid -/

theorem within_on_row (g : Grid) (row : ℕ) (f : Row → Option Row) :
    Yields (g.on_row row f) (Within g) :=
  Yields.skip fun _ => Yields.skip fun _ => Yields.skip fun _ => Yields.pure ⟨rfl, fun _ => rfl⟩

theorem within_move_to (g : Grid) (row col : ℕ) : Yields (g.move_to row col) (Within g) :=
  Yields.skip fun _ => Yields.skip fun _ => Yields.pure ⟨rfl, fun _ => rfl⟩

theorem within_cursor_down (g : Grid) (n : ℕ) : Yields (g.cursor_down n) (Within g) :=
  Yields.skip fun _ => Yields.pure ⟨rfl, fun _ => rfl⟩

theorem within_cursor_right (g : Grid) (n : ℕ) : Yields (g.cursor_right n) (Within g) :=
  Yields.skip fun _ => Yields.pure ⟨rfl, fun _ => rfl⟩

theorem within_set_scroll_region (g : Grid) (top bottom : ℕ) :
    Yields (g.set_scroll_region top bottom) (Within g) := by
  refine Within.bind ?_ fun g' => within_move_to g' _ _
  refine Yields.ite (fun _ => Yields.pure ⟨rfl, fun _ => rfl⟩) fun _ => ?_
  exact Yields.skip fun _ => Yields.pure ⟨rfl, fun _ => rfl⟩

/-- Rows are kept for the scrollback on the main screen only. -/
theorem within_scroll_up (g : Grid) (n : ℕ) : Yields (g.scroll_up n) (Within g) := by
  refine Yields.times (fun g' h => ?_) _ (Within.refl g)
  refine Yields.skip fun taken => ?_
  obtain ⟨row, screen⟩ := taken
  have hretired : Within g (if g.whole && !g.on_alt_screen then g'.retire row else g') := by
    by_cases hkeep : (g.whole && !g.on_alt_screen) = true
    · rw [if_pos hkeep]
      refine ⟨h.saved, fun hsome => ?_⟩
      rw [Grid.on_alt_screen, hsome, Bool.not_true, Bool.and_false] at hkeep
      exact absurd hkeep Bool.false_ne_true
    · rw [if_neg hkeep]
      exact h
  refine Yields.skip fun screen => Yields.pure ?_
  exact ⟨hretired.saved, hretired.history⟩

theorem within_replace_row (g : Grid) (gone i : ℕ) : Yields (g.replace_row gone i) (Within g) :=
  Yields.skip fun _ => Yields.skip fun _ => Yields.pure ⟨rfl, fun _ => rfl⟩

theorem within_scroll_down (g : Grid) (n : ℕ) : Yields (g.scroll_down n) (Within g) :=
  Within.times (fun g' => within_replace_row g' _ _) _

theorem within_insert_lines (g : Grid) (n : ℕ) : Yields (g.insert_lines n) (Within g) :=
  Yields.ite (fun _ => Yields.pure (Within.refl g)) fun _ =>
    Within.times (fun g' => within_replace_row g' _ _) _

theorem within_delete_lines (g : Grid) (n : ℕ) : Yields (g.delete_lines n) (Within g) :=
  Yields.ite (fun _ => Yields.pure (Within.refl g)) fun _ =>
    Within.times (fun g' => within_replace_row g' _ _) _

theorem within_next_row (g : Grid) : Yields g.next_row (Within g) := by
  refine Yields.ite (fun _ => ?_) fun _ => Yields.ite (fun _ => ?_) fun _ => ?_
  · exact (within_scroll_up _ 1).mono fun g' h => ⟨h.saved, h.history⟩
  · exact Yields.pure ⟨rfl, fun _ => rfl⟩
  · exact Yields.pure ⟨rfl, fun _ => rfl⟩

theorem within_reverse_index (g : Grid) : Yields g.reverse_index (Within g) := by
  refine Yields.ite (fun _ => ?_) fun _ => Yields.pure ⟨rfl, fun _ => rfl⟩
  exact (within_scroll_down _ 1).mono fun g' h => ⟨h.saved, h.history⟩

theorem within_wrap (g : Grid) : Yields g.wrap (Within g) :=
  Within.bind (within_on_row g _ _) fun _ => (within_next_row _).mono fun _ h => ⟨h.saved, h.history⟩

theorem within_make_room (g : Grid) (width : ℕ) : Yields (g.make_room width) (Within g) := by
  refine Within.bind (Yields.ite (fun _ => within_wrap g) fun _ => Yields.pure (Within.refl g))
    fun g' => ?_
  refine Yields.ite (fun _ => Yields.ite (fun _ => within_wrap g') fun _ => ?_) fun _ => ?_
  · exact Yields.skip fun _ => Yields.pure ⟨rfl, fun _ => rfl⟩
  · exact Yields.pure (Within.refl g')

theorem within_put (g : Grid) (ch : Char) (width : ℕ) : Yields (g.put ch width) (Within g) := by
  refine Within.bind (within_make_room g _) fun g' => ?_
  refine Within.bind (within_on_row g' _ _) fun g'' => ?_
  refine Yields.ite (fun _ => ?_) fun _ => Yields.pure ⟨rfl, fun _ => rfl⟩
  exact Yields.skip fun _ => Yields.pure ⟨rfl, fun _ => rfl⟩

theorem within_combine (g : Grid) (mark : Char) : Yields (g.combine mark) (Within g) := by
  unfold Grid.combine
  split
  · exact within_on_row g _ _
  · exact Yields.pure (Within.refl g)

theorem within_clear_rows (g : Grid) (start stop : ℕ) :
    Yields (g.clear_rows start stop) (Within g) :=
  Within.each fun g' _ _ => within_on_row g' _ _

/-- Erasing the display erases the scrollback in one mode only. -/
theorem within_erase_in_display (g : Grid) {mode : ℕ} (h : g.alt_saved = none ∨ mode ≠ 3) :
    Yields (g.erase_in_display mode) (Within g) := by
  refine Yields.ite (fun _ => ?_) fun _ => Yields.ite (fun _ => Yields.pure ?_) fun _ => ?_
  · exact Within.bind (within_clear_rows g _ _) fun g' => within_on_row g' _ _
  · split
    next h3 =>
      refine ⟨rfl, fun hsome => ?_⟩
      rcases h with hnone | hne
      · rw [hnone] at hsome
        exact nomatch hsome
      · exact absurd h3 hne
    next => exact ⟨rfl, fun _ => rfl⟩
  · exact Within.bind (within_on_row g _ _) fun g' => within_clear_rows g' _ _

/-- The typed line is not cut on the alternate screen. -/
theorem within_cut_typed_line (g : Grid) : Yields g.cut_typed_line (Within g) := by
  unfold Grid.cut_typed_line
  split
  · exact Yields.pure (Within.refl g)
  · refine Yields.ite (fun _ => Yields.pure ⟨rfl, fun _ => rfl⟩) fun hmain => ?_
    have hnot : g.alt_saved.isSome = false := by
      rw [Bool.or_assoc, Bool.or_eq_true, not_or] at hmain
      exact Bool.eq_false_iff.mpr hmain.1
    have hback : ∀ g', g'.alt_saved = g.alt_saved → Within g g' := fun g' hs =>
      ⟨hs, fun hsome => absurd (hnot.symm.trans hsome) Bool.false_ne_true⟩
    refine Yields.skip fun _ => Yields.ite (fun _ => Yields.pure (hback _ rfl)) fun _ => ?_
    refine Yields.skip fun _ => Yields.skip fun _ => Yields.skip fun halves => ?_
    exact Yields.skip fun _ => Yields.pure (hback _ rfl)

theorem within_cut_to_anchor (g : Grid) : Yields g.cut_to_anchor (Within g) := by
  unfold Grid.cut_to_anchor
  split
  · exact Yields.pure (Within.refl g)
  · exact Yields.ite (fun _ => Yields.pure ⟨rfl, fun _ => rfl⟩) fun _ => within_cut_typed_line g

theorem within_line_feed (g : Grid) : Yields g.line_feed (Within g) := by
  refine Yields.skip fun echoed => Within.bind (within_next_row g) fun g' => ?_
  refine Yields.ite (fun _ => ?_) fun _ => Yields.pure (Within.refl g')
  exact (within_cut_typed_line _).mono fun _ h => ⟨h.saved, h.history⟩

end

/-! ## The parser -/

def is_alt_mode (mode : ℕ) : Bool := mode == 47 || mode == 1047 || mode == 1049

variable (p : Parser)

/-- The sequence that ends with this byte sets or resets the mode of the alternate screen. -/
def Parser.switches_screen : Bool :=
  p.private == some 0x3F && p.push_param.params.any is_alt_mode

variable (b : UInt8)

/-- The byte enters the alternate screen. -/
def Parser.enters : Bool :=
  p.state == .csi && b == 0x68 && p.switches_screen

/-- The byte leaves the alternate screen. -/
def Parser.leaves : Bool :=
  p.state == .csi && b == 0x6C && p.switches_screen

/-- The byte leaves the alternate screen, resets the terminal or erases the scrollback. -/
def Parser.breaks : Bool :=
  (p.state == .esc && b == 0x63) ||
  (p.state == .csi && b == 0x4A && p.push_param.params.head?.getD 0 == 3) || p.leaves b

section
variable {p : Parser} {g : Grid}

theorem within_print_char (g : Grid) (ch : Char) : Yields (print_char ch g) (Within g) :=
  Yields.ite (fun _ => within_combine g ch) fun _ => within_put g ch _

theorem within_tab (g : Grid) : Yields (tab g) (Within g) :=
  Yields.skip fun _ => within_move_to g _ _

theorem within_control (g : Grid) (b : UInt8) : Yields (control b g) (Within g) := by
  refine Yields.ite (fun _ => Yields.pure ⟨rfl, fun _ => rfl⟩) fun _ => ?_
  refine Yields.ite (fun _ => within_tab g) fun _ => ?_
  refine Yields.ite (fun _ => within_line_feed g) fun _ => ?_
  exact Yields.ite (fun _ => Yields.pure ⟨rfl, fun _ => rfl⟩) fun _ => Yields.pure (Within.refl g)

/-- A parser that goes on from where the grid was left. -/
theorem within_then {x : Option Grid} (h : Yields x (Within g)) (p : Parser) :
    Yields (x >>= fun g' => some (p, g')) fun s => Within g s.2 :=
  Yields.bind h fun _ h' => Yields.pure h'

theorem within_ground_start (p : Parser) (b : UInt8) (g : Grid) :
    Yields (p.ground_start b g) fun s => Within g s.2 := by
  refine Yields.ite (fun _ => Yields.pure (Within.refl g)) fun _ => ?_
  refine Yields.ite (fun _ => within_then (within_control g b) p) fun _ => ?_
  refine Yields.ite (fun _ => within_then (within_print_char g _) p) fun _ => ?_
  dsimp only
  split
  · exact within_then (within_print_char g _) p
  · exact Yields.skip fun _ => Yields.pure (Within.refl g)

theorem within_ground (p : Parser) (b : UInt8) (g : Grid) :
    Yields (p.ground b g) fun s => Within g s.2 := by
  refine Yields.ite (fun _ => ?_) fun _ => within_ground_start p b g
  refine Yields.ite (fun _ => ?_) fun _ => ?_
  · refine Yields.skip fun buf => Yields.skip fun need => Yields.ite (fun _ => ?_) fun _ => ?_
    · refine Yields.skip fun bytes => ?_
      exact within_then (Within.each fun g' ch _ => within_print_char g' ch) _
    · exact Yields.pure (Within.refl g)
  · refine Yields.bind (within_print_char g _) fun g' h => ?_
    exact (within_ground_start _ b g').mono fun _ h' => h.trans h'

variable {b : UInt8}

/-- A byte that is matched as a character. -/
theorem byte_of_char {c : Char} (h : Char.ofNat b.toNat = c) : b = UInt8.ofNat c.toNat := by
  have hvalid : b.toNat.isValidChar := Or.inl (Nat.lt_trans b.toNat_lt (by decide))
  have hback : (Char.ofNat b.toNat).toNat = b.toNat := by
    rw [Char.ofNat, dif_pos hvalid]
    rfl
  rw [← h, hback, UInt8.ofNat_toNat]

theorem within_esc (p : Parser) (h : g.alt_saved = none ∨ b ≠ 0x63) :
    Yields (p.esc b g) fun s => Within g s.2 := by
  unfold Parser.esc
  dsimp only
  split
  case h_12 hc =>
    rcases h with hnone | hne
    · refine within_then (Yields.skip fun _ => (within_move_to _ _ _).mono fun g' h' => ?_) _
      exact ⟨h'.saved.trans hnone.symm, fun hs => by rw [hnone] at hs; exact nomatch hs⟩
    · exact absurd (byte_of_char hc) hne
  case h_8 => exact within_then (within_move_to g _ _) _
  case h_9 => exact within_then (within_line_feed g) _
  case h_10 =>
    have hfeed : Yields (Grid.line_feed { g with cursor_col := 0 }) (Within g) :=
      (within_line_feed _).mono fun _ h' => ⟨h'.saved, h'.history⟩
    exact within_then hfeed _
  case h_11 => exact within_then (within_reverse_index g) _
  all_goals exact Yields.pure ⟨rfl, fun _ => rfl⟩

theorem alt_mode {mode : ℕ} (h : mode = 47 ∨ mode = 1047 ∨ mode = 1049) : is_alt_mode mode = true := by
  rcases h with rfl | rfl | rfl <;> rfl

/-- Modes change, but not the screen: it is up already where it would be put up, and not
where it would be left. -/
theorem within_mode (p : Parser) (set : Bool)
    (h : g.alt_saved.isSome = set ∨ (p.private == some 0x3F && p.params.any is_alt_mode) = false) :
    Yields (p.mode set g) (Within g) := by
  refine Yields.ite (fun hprivate => ?_) fun _ => Yields.pure (Within.refl g)
  refine Yields.each (P := Within g) (fun g' h' mode hmode => ?_) (Within.refl g)
  refine Yields.ite (fun _ => Yields.pure ⟨h'.saved, h'.history⟩) fun _ => ?_
  refine Yields.ite (fun halt => ?_) fun _ => Yields.pure h'
  have hup : g'.alt_saved.isSome = set := by
    rw [h'.saved]
    rcases h with hup | hnone
    · exact hup
    · have hany : p.params.any is_alt_mode = true := List.any_eq_true.mpr ⟨mode, hmode, alt_mode halt⟩
      rw [hprivate, hany] at hnone
      exact absurd hnone (by decide)
  refine Yields.ite (fun hset => Yields.ite (fun _ => Yields.pure h') fun hn => ?_) fun hset => ?_
  · exact absurd (hup.trans hset) hn
  · have hnone : g'.alt_saved = none := by
      rw [Bool.not_eq_true] at hset
      exact Option.isNone_iff_eq_none.mp (by rw [← Option.not_isSome, hup, hset]; rfl)
    unfold Grid.leave_alt_screen
    rw [hnone]
    exact Yields.pure h'

theorem within_dispatch (p : Parser)
    (herase : g.alt_saved = none ∨ b ≠ 0x4A ∨ p.params.head?.getD 0 ≠ 3)
    (hset : b = 0x68 → g.alt_saved.isSome = true ∨
      (p.private == some 0x3F && p.params.any is_alt_mode) = false)
    (hreset : b = 0x6C → g.alt_saved.isSome = false ∨
      (p.private == some 0x3F && p.params.any is_alt_mode) = false) :
    Yields (p.dispatch b g) (Within g) := by
  unfold Parser.dispatch
  dsimp only
  split
  · exact Yields.pure ⟨rfl, fun _ => rfl⟩
  · exact within_cursor_down g _
  · exact within_cursor_down g _
  · exact within_cursor_right g _
  · exact within_cursor_right g _
  · exact Yields.pure ⟨rfl, fun _ => rfl⟩
  · exact Within.bind (within_cursor_down g _) fun _ => Yields.pure ⟨rfl, fun _ => rfl⟩
  · exact Yields.pure ⟨rfl, fun _ => rfl⟩
  · exact Yields.skip fun _ => within_move_to g _ _
  · exact Yields.skip fun _ => within_move_to g _ _
  · exact Yields.skip fun _ => Yields.skip fun _ => within_move_to g _ _
  · exact Yields.skip fun _ => Yields.skip fun _ => within_move_to g _ _
  · exact Yields.skip fun _ => within_move_to g _ _
  -- only `J`, `h` and `l` can leave the screen the parser is on
  next hc =>
    refine within_erase_in_display g (herase.imp_right fun h => ?_)
    exact h.resolve_left fun hne => hne (byte_of_char hc)
  · exact within_on_row g _ _
  · exact within_insert_lines g _
  · exact within_delete_lines g _
  · exact within_on_row g _ _
  · exact within_on_row g _ _
  · exact within_on_row g _ _
  · exact within_scroll_up g _
  · exact within_scroll_down g _
  · exact Yields.skip fun _ => Yields.skip fun _ => within_set_scroll_region g _ _
  · exact Yields.pure ⟨rfl, fun _ => rfl⟩
  · exact within_move_to g _ _
  next hc => exact within_mode p true (hset (byte_of_char hc))
  next hc => exact within_mode p false (hreset (byte_of_char hc))
  · exact Yields.pure (Within.refl g)

theorem within_finish_osc (p : Parser) (g : Grid) :
    Yields (p.finish_osc g) fun s => Within g s.2 := by
  refine Yields.ite (fun _ => Yields.pure ⟨rfl, fun _ => rfl⟩) fun _ => ?_
  refine Yields.ite (fun _ => ?_) fun _ => Yields.ite (fun _ => ?_) fun _ => ?_
  · split
    · exact Yields.pure (Within.refl g)
    · exact Yields.pure (Within.refl g)
  · exact within_then (within_cut_to_anchor g) _
  · exact Yields.pure (Within.refl g)

theorem within_osc_byte (p : Parser) (b : UInt8) (g : Grid) :
    Yields (p.osc_byte b g) fun s => Within g s.2 := by
  refine Yields.ite (fun _ => Yields.ite (fun _ => ?_) fun _ => ?_) fun _ => ?_
  · exact within_finish_osc _ g
  · exact Yields.pure (Within.refl g)
  refine Yields.ite (fun _ => ?_) fun _ => Yields.ite (fun _ => ?_) fun _ => ?_
  · exact Yields.bind (within_finish_osc p g) fun s h => Yields.pure h
  · exact Yields.pure (Within.refl g)
  · exact Yields.pure (Within.refl g)

theorem within_csi (p : Parser) (hs : p.state = .csi)
    (hbreaks : g.alt_saved = none ∨ p.breaks b = false)
    (henters : g.alt_saved.isSome = true ∨ p.enters b = false) :
    Yields (p.csi b g) fun s => Within g s.2 := by
  refine Yields.ite (fun _ => Yields.pure (Within.refl g)) fun _ => ?_
  refine Yields.ite (fun _ => Yields.pure (Within.refl g)) fun _ => ?_
  refine Yields.ite (fun _ => Yields.pure (Within.refl g)) fun _ => ?_
  refine Yields.ite (fun _ => Yields.pure (Within.refl g)) fun _ => ?_
  refine Yields.ite (fun _ => ?_) fun _ => ?_
  · refine within_then (within_dispatch p.push_param ?_ ?_ ?_) _
    · refine hbreaks.imp_right fun h => ?_
      by_contra hboth
      rw [not_or, not_not, not_not] at hboth
      simp [Parser.breaks, Parser.leaves, hs, hboth.1, hboth.2] at h
    · rintro rfl
      refine henters.imp_right fun h => ?_
      rwa [Parser.enters, hs] at h
    · rintro rfl
      refine hbreaks.imp (fun h => ?_) fun h => ?_
      · rw [h]
        rfl
      · rwa [Parser.breaks, Parser.leaves, hs] at h
  refine Yields.ite (fun _ => Yields.pure (Within.refl g)) fun _ => ?_
  refine Yields.ite (fun _ => within_then (within_control g b) _) fun _ => ?_
  exact Yields.pure (Within.refl g)

/-- A byte that neither enters nor breaks an excursion, which is all a byte can do. -/
theorem within_byte (p : Parser)
    (hbreaks : g.alt_saved = none ∨ p.breaks b = false)
    (henters : g.alt_saved.isSome = true ∨ p.enters b = false) :
    Yields (p.byte b g) fun s => Within g s.2 := by
  unfold Parser.byte
  split
  · exact within_ground p b g
  next hs =>
    refine within_esc p (hbreaks.imp_right fun h hb => ?_)
    rw [Parser.breaks, hs, hb] at h
    exact nomatch h
  · exact Yields.pure (Within.refl g)
  next hs => exact within_csi p hs hbreaks henters
  · exact within_osc_byte p b g
  · exact within_osc_byte p b g
  · exact Yields.pure (Within.refl g)
  · exact Yields.pure (Within.refl g)

/-! ## Entering and leaving -/

theorem move_to_eq {row col : ℕ} (hrow : row < g.rows) (hcol : col < g.cols) :
    g.move_to row col = some { g with cursor_row := row, cursor_col := col, wrap_pending := false } := by
  have hsub : ∀ n m : ℕ, m < n → sub n 1 = some (n - 1) := fun n m h => if_pos (by omega)
  have hmin : ∀ n m : ℕ, m < n → min m (n - 1) = m := fun n m h => by omega
  simp only [Grid.move_to, hsub _ _ hrow, hsub _ _ hcol, Option.bind_eq_bind, Option.bind_some,
    hmin _ _ hrow, hmin _ _ hcol]
  rfl

/-- Where the mode of the alternate screen is set or reset, it is up or down afterwards. -/
theorem switched_screen (g : Grid) (set : Bool) :
    Yields (if set then g.enter_alt_screen else g.leave_alt_screen)
      fun g' => g'.alt_saved.isSome = set := by
  cases set with
  | true =>
    rw [if_pos rfl]
    refine Yields.ite (fun hup => Yields.pure hup) fun _ => ?_
    intro g' hg'
    rw [(within_move_to _ 0 0 g' hg').saved]
    rfl
  | false =>
    rw [if_neg Bool.false_ne_true]
    unfold Grid.leave_alt_screen
    split
    · intro g' hg'
      rw [(within_move_to _ _ _ g' hg').saved]
      rfl
    next hnone => exact Yields.pure (by rw [hnone]; rfl)

variable (set : Bool)

theorem switched_modes {modes : List ℕ} (h : modes.any is_alt_mode = true) :
    Yields (modes.foldlM (Parser.switch_mode set) g) fun g' => g'.alt_saved.isSome = set := by
  have hstays : ∀ (g : Grid) (mode : ℕ), g.alt_saved.isSome = set →
      Yields (Parser.switch_mode set g mode) fun g' => g'.alt_saved.isSome = set := fun g mode hg =>
    Yields.ite (fun _ => Yields.pure hg) fun _ =>
      Yields.ite (fun _ => switched_screen g set) fun _ => Yields.pure hg
  induction modes generalizing g with
  | nil => exact nomatch h
  | cons mode modes ih =>
    rw [foldlM_cons]
    by_cases hmode : is_alt_mode mode = true
    · have halt : mode = 47 ∨ mode = 1047 ∨ mode = 1049 := by
        simpa [is_alt_mode, or_assoc] using hmode
      have hne : mode ≠ 7 := by omega
      refine Yields.bind (P := fun g' => g'.alt_saved.isSome = set) ?_ fun g' hg' => ?_
      · rw [Parser.switch_mode, if_neg hne, if_pos halt]
        exact switched_screen g set
      · exact Yields.each (fun g hg mode _ => hstays g mode hg) hg'
    · rw [any_cons, Bool.eq_false_iff.mpr hmode, Bool.false_or] at h
      exact Yields.skip fun g' => ih h

theorem switched (h : p.switches_screen = true) :
    Yields (p.push_param.mode set g) fun g' => g'.alt_saved.isSome = set := by
  rw [Parser.switches_screen, Bool.and_eq_true, beq_iff_eq] at h
  refine Yields.ite (fun _ => switched_modes set h.2) fun hprivate => ?_
  exact absurd h.1 hprivate

/-- The main screen is where it was, or put aside as it was. -/
structure Entering (g g' : Grid) : Prop where
  history : g'.scrollback = g.scrollback
  main : (g'.alt_saved = none ∧ g'.screen = g.screen ∧ g'.cursor_row = g.cursor_row ∧
    g'.cursor_col = g.cursor_col) ∨ g'.alt_saved = some (g.screen, g.cursor_row, g.cursor_col)

theorem entering_mode (p : Parser) (h : g.alt_saved = none) :
    Yields (p.mode true g) (Entering g) := by
  have hstart : Entering g g := ⟨rfl, Or.inl ⟨h, rfl, rfl, rfl⟩⟩
  refine Yields.ite (fun _ => ?_) fun _ => Yields.pure hstart
  refine Yields.each (P := Entering g) (fun g' h' mode _ => ?_) hstart
  refine Yields.ite (fun _ => Yields.pure ⟨h'.history, h'.main⟩) fun _ => ?_
  refine Yields.ite (fun _ => ?_) fun _ => Yields.pure h'
  refine Yields.ite (fun _ => Yields.ite (fun _ => Yields.pure h') fun hdown => ?_) fun hset => ?_
  · have hmain := h'.main.resolve_right fun hup => hdown (by rw [hup]; rfl)
    refine (within_move_to _ 0 0).mono fun g'' h'' => ⟨?_, Or.inr ?_⟩
    · exact (h''.history rfl).trans h'.history
    · rw [h''.saved, hmain.2.1, hmain.2.2.1, hmain.2.2.2]
  · exact absurd rfl hset

/-- The screen put aside is up again, or still put aside. -/
structure Leaving (g : Grid) (main : List Row × ℕ × ℕ) (g' : Grid) : Prop where
  history : g'.scrollback = g.scrollback
  size : g'.rows = g.rows ∧ g'.cols = g.cols
  main : g'.alt_saved = some main ∨ g'.alt_saved = none ∧ g'.screen = main.1 ∧
    g'.cursor_row = main.2.1 ∧ g'.cursor_col = main.2.2

theorem leaving_mode (p : Parser) {main : List Row × ℕ × ℕ} (h : g.alt_saved = some main)
    (hrow : main.2.1 < g.rows) (hcol : main.2.2 < g.cols) :
    Yields (p.mode false g) (Leaving g main) := by
  have hstart : Leaving g main g := ⟨rfl, ⟨rfl, rfl⟩, Or.inl h⟩
  refine Yields.ite (fun _ => ?_) fun _ => Yields.pure hstart
  refine Yields.each (P := Leaving g main) (fun g' h' mode _ => ?_) hstart
  refine Yields.ite (fun _ => Yields.pure ⟨h'.history, h'.size, h'.main⟩) fun _ => ?_
  refine Yields.ite (fun _ => Yields.ite (fun hset => nomatch hset) fun _ => ?_) fun _ => Yields.pure h'
  unfold Grid.leave_alt_screen
  rcases h'.main with hup | ⟨hdown, hmain⟩
  · obtain ⟨screen, row, col⟩ := main
    rw [hup]
    dsimp only
    rw [move_to_eq (h'.size.1 ▸ hrow) (h'.size.2 ▸ hcol)]
    exact Yields.pure ⟨h'.history, h'.size, Or.inr ⟨rfl, rfl, rfl, rfl⟩⟩
  · rw [hdown]
    exact Yields.pure h'

/-- A byte that ends a mode sequence sets or resets the modes, and nothing else. -/
theorem byte_mode (hs : p.state = .csi)
    (hb : b = if set then 0x68 else 0x6C) :
    p.byte b g = (p.push_param.mode set g).bind fun g' =>
      some ({ p.push_param with state := .ground }, g') := by
  rw [Parser.byte, hs, hb]
  cases set <;> rfl

theorem entered {p' : Parser} {g' : Grid} (h : g.alt_saved = none)
    (hb : p.enters b = true) (hstep : p.byte b g = some (p', g')) :
    g'.scrollback = g.scrollback ∧ g'.alt_saved = some (g.screen, g.cursor_row, g.cursor_col) := by
  rw [Parser.enters, Bool.and_eq_true, Bool.and_eq_true, beq_iff_eq, beq_iff_eq] at hb
  obtain ⟨⟨hs, hb⟩, hswitch⟩ := hb
  rw [byte_mode true hs hb] at hstep
  obtain ⟨g'', hmode, heq⟩ := Option.bind_eq_some_iff.mp hstep
  obtain rfl := (Prod.mk.inj (Option.some.inj heq)).2
  have hentering := entering_mode p.push_param h _ hmode
  refine ⟨hentering.history, hentering.main.resolve_left fun hmain => ?_⟩
  have hup : g''.alt_saved.isSome = true := switched true hswitch _ hmode
  rw [hmain.1] at hup
  exact nomatch hup

theorem left {p' : Parser} {g' : Grid} {main : List Row × ℕ × ℕ}
    (h : g.alt_saved = some main) (hrow : main.2.1 < g.rows) (hcol : main.2.2 < g.cols)
    (hb : p.leaves b = true) (hstep : p.byte b g = some (p', g')) :
    g'.scrollback = g.scrollback ∧ g'.alt_saved = none ∧ g'.screen = main.1 ∧
      g'.cursor_row = main.2.1 ∧ g'.cursor_col = main.2.2 := by
  rw [Parser.leaves, Bool.and_eq_true, Bool.and_eq_true, beq_iff_eq, beq_iff_eq] at hb
  obtain ⟨⟨hs, hb⟩, hswitch⟩ := hb
  rw [byte_mode false hs hb] at hstep
  obtain ⟨g'', hmode, heq⟩ := Option.bind_eq_some_iff.mp hstep
  obtain rfl := (Prod.mk.inj (Option.some.inj heq)).2
  have hleaving := leaving_mode p.push_param h hrow hcol _ hmode
  refine ⟨hleaving.history, hleaving.main.resolve_left fun hup => ?_⟩
  have hdown : g''.alt_saved.isSome = false := switched false hswitch _ hmode
  rw [hup] at hdown
  exact nomatch hdown

/-! ## The excursion -/

def feed (s : Parser × Grid) (bytes : List UInt8) : Option (Parser × Grid) :=
  bytes.foldlM (fun s b => s.1.byte b s.2) s

/-- No byte of the sequence breaks an excursion where it arrives. -/
def unbroken (s : Parser × Grid) : List UInt8 → Bool
  | [] => true
  | b :: bytes => !s.1.breaks b && (s.1.byte b s.2).all (unbroken · bytes)

theorem within_feed {s s' : Parser × Grid} {bytes : List UInt8} (hup : s.2.alt_saved.isSome = true)
    (h : unbroken s bytes = true) (hfeed : feed s bytes = some s') : Within s.2 s'.2 := by
  induction bytes generalizing s with
  | nil =>
    rw [← Option.some.inj hfeed]
    exact Within.refl _
  | cons b bytes ih =>
    rw [feed, foldlM_cons] at hfeed
    obtain ⟨middle, hstep, hrest⟩ := Option.bind_eq_some_iff.mp hfeed
    rw [unbroken, hstep, Option.all_some, Bool.and_eq_true, Bool.not_eq_true'] at h
    have hwithin : Within s.2 middle.2 := within_byte s.1 (Or.inr h.1) (Or.inl hup) middle hstep
    exact hwithin.trans (ih (hwithin.saved ▸ hup) h.2 hrest)

theorem sound_feed {cols rows : ℕ} {s : Parser × Grid} (hs : PaneSound cols rows s)
    (hrows : rows ≤ 65535) (bytes : List UInt8) : Returns (feed s bytes) (PaneSound cols rows) :=
  Returns.each (fun _ hs b _ => returns_byte hs.1 hs.2 hrows b) hs

theorem sound_run_pane (cols rows : ℕ) (hrows : rows ≤ 65535) (events : List PaneEvent) :
    Returns (run_pane cols rows events) (PaneSound (max cols 1) (max rows 1)) := by
  have hnew : Grid.new cols rows = Grid.new (max cols 1) (max rows 1) := by
    simp only [Grid.new, max_self, max_assoc]
  have hstart : PaneSound (max cols 1) (max rows 1) ({}, Grid.new cols rows) := by
    rw [hnew]
    exact ⟨⟨rfl, Nat.zero_le _⟩, Sound.start (le_max_right _ _) (le_max_right _ _)⟩
  refine Returns.each (fun s hs e _ => ?_) hstart
  cases e with
  | byte b => exact returns_byte hs.1 hs.2 (by omega) b
  | mark_anchor typed => exact Returns.pure ⟨hs.1, hs.2.mark_anchor typed⟩

end

/-- From any state a pane of `u16` size comes to on its main screen: a byte enters the
alternate screen, bytes follow that do not break the excursion, and a byte leaves it. The
rows, the cursor and the scrollback are what they were. -/
theorem excursion_restores (cols rows : ℕ) (hrows : rows ≤ 65535) (events : List PaneEvent)
    {s₀ s₁ s₂ s₃ : Parser × Grid} {enter leave : UInt8} {bytes : List UInt8}
    (hrun : run_pane cols rows events = some s₀) (hmain : s₀.2.on_alt_screen = false)
    (henter : s₀.1.enters enter = true) (hentered : s₀.1.byte enter s₀.2 = some s₁)
    (hbytes : unbroken s₁ bytes = true) (hfeed : feed s₁ bytes = some s₂)
    (hleave : s₂.1.leaves leave = true) (hleft : s₂.1.byte leave s₂.2 = some s₃) :
    s₃.2.on_alt_screen = false ∧ s₃.2.screen = s₀.2.screen ∧
      s₃.2.cursor_row = s₀.2.cursor_row ∧ s₃.2.cursor_col = s₀.2.cursor_col ∧
      s₃.2.scrollback = s₀.2.scrollback := by
  have hnone : s₀.2.alt_saved = none := by
    rw [← Option.isNone_iff_eq_none, ← Option.not_isSome]
    exact congrArg (!·) hmain
  obtain ⟨s, hs, hsound₀⟩ := sound_run_pane cols rows hrows events
  obtain rfl := Option.some.inj (hrun.symm.trans hs)
  obtain ⟨s, hs, hsound₁⟩ := returns_byte hsound₀.1 hsound₀.2 (by omega) enter
  obtain rfl := Option.some.inj (hentered.symm.trans hs)
  obtain ⟨s, hs, hsound₂⟩ := sound_feed hsound₁ (by omega) bytes
  obtain rfl := Option.some.inj (hfeed.symm.trans hs)
  obtain ⟨hhistory₁, hsaved₁⟩ := entered hnone henter hentered
  have hup : s₁.2.alt_saved.isSome = true := by rw [hsaved₁]; rfl
  have hwithin := within_feed hup hbytes hfeed
  -- the cursor put aside is inside the screen, so it is not moved when it comes back
  obtain ⟨hhistory₃, hdown, hscreen, hrow, hcol⟩ := left (hwithin.saved.trans hsaved₁)
    (hsound₂.2.rows_eq ▸ hsound₀.2.cursor_row) (hsound₂.2.cols_eq ▸ hsound₀.2.cursor_col)
    hleave hleft
  refine ⟨by rw [Grid.on_alt_screen, hdown]; rfl, hscreen, hrow, hcol, ?_⟩
  exact hhistory₃.trans ((hwithin.history hup).trans hhistory₁)

/-- `ESC [ ? 47`, which a final byte turns into entering or leaving. -/
def mode_47 : List UInt8 := [0x1B, 0x5B, 0x3F, 0x34, 0x37]

/-- Text on the main screen, and text that scrolls on the alternate one. -/
theorem excursion_restores_text :
    ∃ s : Parser × Grid, s.2.on_alt_screen = false ∧ s.2.screen.map Row.text = [['b'], []] ∧
      s.2.scrollback.map Row.text = [['a']] := by
  obtain ⟨s₀, hrun, hmain, henter, s₁, hentered, hbytes, s₂, hfeed, hleave, s₃, hleft, hscreen,
      hhistory⟩ :
      ∃ s₀, run_pane 2 2 (([0x61, 0x0A, 0x0D, 0x62, 0x0A] ++ mode_47).map .byte) = some s₀ ∧
        s₀.2.on_alt_screen = false ∧ s₀.1.enters 0x68 = true ∧
        ∃ s₁, s₀.1.byte 0x68 s₀.2 = some s₁ ∧ unbroken s₁ ([0x78, 0x0A, 0x0A, 0x0A] ++ mode_47) = true ∧
        ∃ s₂, feed s₁ ([0x78, 0x0A, 0x0A, 0x0A] ++ mode_47) = some s₂ ∧ s₂.1.leaves 0x6C = true ∧
        ∃ s₃, s₂.1.byte 0x6C s₂.2 = some s₃ ∧ s₀.2.screen.map Row.text = [['b'], []] ∧
          s₀.2.scrollback.map Row.text = [['a']] :=
    ⟨_, rfl, rfl, rfl, _, rfl, rfl, _, rfl, rfl, _, rfl, rfl, rfl⟩
  have hback := excursion_restores 2 2 (by decide) _ hrun hmain henter hentered hbytes hfeed
    hleave hleft
  exact ⟨s₃, hback.1, hback.2.1 ▸ hscreen, hback.2.2.2.2 ▸ hhistory⟩

end Lpm.Terminal
