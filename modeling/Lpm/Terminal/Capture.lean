/-
What is printed is captured: `capture` after lines of text.

In the ground state the decoder reads the bytes of a printable character into that character,
whatever is drawn with it, and is in the ground state again behind it (`feed_char`). So a text
is printed character by character, and its lines come to the grid as lines (`Drawn`).
-/
import Lpm.Terminal.Rejoin

set_option autoImplicit false

open RustText Utf8 Checked

namespace Lpm.Terminal

open List Option

/-! ## Reading a text -/

/-- The decoder is between two characters. -/
structure Idle (p : Parser) : Prop where
  state : p.state = .ground
  need : p.utf8.need = 0
  buf : p.utf8.buf.length = 4

theorem idle_start : Idle {} := ⟨rfl, rfl, rfl⟩

/-- The decoder is in a character: so much of it has arrived, and so much is still to come. -/
structure Amid (p : Parser) (got : List UInt8) (need : ℕ) : Prop where
  state : p.state = .ground
  need : p.utf8.need = need
  len : p.utf8.len = got.length
  buf : p.utf8.buf.length = 4
  got : p.utf8.buf.take got.length = got

section
variable {p : Parser} {got tail : List UInt8}

theorem byte_ground (h : p.state = .ground) (b : UInt8) (g : Grid) :
    p.byte b g = p.ground b g := by
  rw [Parser.byte, h]

theorem Idle.byte (h : Idle p) (b : UInt8) (g : Grid) : p.byte b g = p.ground_start b g := by
  rw [byte_ground h.state, Parser.ground, h.need, if_neg (Nat.lt_irrefl 0)]

theorem cont_range {b : UInt8} (h : is_cont b.toNat) : 0x80 ≤ b ∧ b ≤ 0xBF := by
  rw [UInt8.le_iff_toNat_le, UInt8.le_iff_toNat_le]
  exact ⟨h.1, Nat.le_of_lt_succ h.2⟩

/-- The buffer with one more byte of the character. -/
def more (p : Parser) (b : UInt8) (len need : ℕ) : Parser :=
  { p with utf8 := { buf := p.utf8.buf.set p.utf8.len b, len, need } }

/-- A byte of the character arrives; with the last one what has arrived is printed. -/
theorem Amid.ground {n : ℕ} (h : Amid p got (n + 1)) (hroom : got.length < 4) {b : UInt8}
    (hb : is_cont b.toNat) (g : Grid) :
    p.ground b g = if n = 0 then
        (print g (from_utf8_lossy (got ++ [b]))).map fun g => (more p b 0 0, g)
      else some (more p b (got.length + 1) n, g) := by
  have hset : set_at p.utf8.buf p.utf8.len b = some (p.utf8.buf.set p.utf8.len b) :=
    if_pos (by rw [h.buf, h.len]; exact hroom)
  have hsub : sub p.utf8.need 1 = some n := by
    rw [h.need]
    exact if_pos (Nat.le_add_left 1 n)
  have hslice : slice (p.utf8.buf.set p.utf8.len b) 0 (got.length + 1) = some (got ++ [b]) := by
    rw [h.len, slice, if_pos ⟨Nat.zero_le _, by rw [length_set, h.buf]; omega⟩,
      take_succ_set (by rw [h.buf]; omega), h.got, drop_zero]
  rw [Parser.ground, if_pos (by rw [h.need]; omega), if_pos (cont_range hb), hset, hsub]
  simp only [bind_eq_bind, bind_some]
  rw [h.len] at hslice ⊢
  by_cases hn : n = 0
  · rw [if_pos hn, if_pos hn, hslice, hn]
    change (Terminal.print g (from_utf8_lossy (got ++ [b])) >>= _) = _
    cases Terminal.print g (from_utf8_lossy (got ++ [b])) with
    | none => rfl
    | some g => rw [more, ← h.len]; rfl
  · rw [if_neg hn, if_neg hn, more, h.len]
    rfl

theorem Amid.more {n : ℕ} (h : Amid p got (n + 1)) (hroom : got.length < 4) (b : UInt8) :
    Amid (more p b (got.length + 1) n) (got ++ [b]) n := by
  refine ⟨h.state, rfl, ?_, (length_set ..).trans h.buf, ?_⟩
  · rw [length_append, length_singleton]
    rfl
  · rw [length_append, length_singleton, Terminal.more, h.len,
      take_succ_set (by rw [h.buf]; exact hroom), h.got]

/-- The rest of a character arrives, and what it spells is printed. -/
theorem Amid.feed (h : Amid p got tail.length) (htail : ∀ x ∈ tail, is_cont x.toNat)
    (hroom : got.length + tail.length ≤ 4) (hmore : tail ≠ []) :
    ∃ p', Idle p' ∧ ∀ g, Terminal.feed (p, g) tail =
      (print g (from_utf8_lossy (got ++ tail))).map fun g => (p', g) := by
  induction tail generalizing p got with
  | nil => exact absurd rfl hmore
  | cons b tail ih =>
    rw [length_cons] at h hroom
    have hb : is_cont b.toNat := htail b mem_cons_self
    have hstep : ∀ g, Terminal.feed (p, g) (b :: tail) =
        p.ground b g >>= fun s => Terminal.feed s tail := fun g => by
      rw [Terminal.feed, foldlM_cons, byte_ground h.state]
      rfl
    by_cases hlast : tail = []
    · subst hlast
      refine ⟨Terminal.more p b 0 0, ⟨h.state, rfl, (length_set ..).trans h.buf⟩, fun g => ?_⟩
      rw [hstep, h.ground (by omega) hb, if_pos length_nil]
      cases print g (from_utf8_lossy (got ++ [b])) <;> rfl
    · have hpos : ¬ tail.length = 0 := fun h0 => hlast (length_eq_zero_iff.mp h0)
      obtain ⟨p', hp', hfeed⟩ := ih (h.more (by omega) b)
        (fun x hx => htail x (mem_cons_of_mem _ hx))
        (by rw [length_append, length_singleton]; omega) hlast
      refine ⟨p', hp', fun g => ?_⟩
      rw [hstep, h.ground (by omega) hb, if_neg hpos, bind_eq_bind, bind_some, hfeed,
        append_assoc, singleton_append]

/-- The first byte of a longer character starts one. -/
theorem ground_start_long (hbuf : p.utf8.buf.length = 4) {b : UInt8} {n : ℕ}
    (hneed : (0xC2 ≤ b.toNat ∧ b.toNat ≤ 0xDF ∧ n = 1) ∨
      (0xE0 ≤ b.toNat ∧ b.toNat ≤ 0xEF ∧ n = 2) ∨ (0xF0 ≤ b.toNat ∧ b.toNat ≤ 0xF4 ∧ n = 3))
    (g : Grid) :
    p.ground_start b g =
      some ({ p with utf8 := { buf := p.utf8.buf.set 0 b, len := 1, need := n } }, g) := by
  have hle : ∀ {m : UInt8}, m.toNat < b.toNat → ¬ b ≤ m := fun hlt h =>
    Nat.not_lt.mpr (UInt8.le_iff_toNat_le.mp h) hlt
  have hne : ∀ {m : UInt8}, m.toNat < b.toNat → b ≠ m := fun hlt h =>
    Nat.ne_of_gt hlt (congrArg UInt8.toNat h)
  have hesc : b ≠ 0x1B := hne (by change 0x1B < _; omega)
  have hcontrol : ¬ (b ≤ 0x1F ∨ b = 0x7F) := by
    rintro (h | he)
    · exact hle (m := 0x1F) (by change 0x1F < _; omega) h
    · exact hne (m := 0x7F) (by change 0x7F < _; omega) he
  have hprint : ¬ b ≤ 0x7E := hle (by change 0x7E < _; omega)
  have hset : set_at p.utf8.buf 0 b = some (p.utf8.buf.set 0 b) := if_pos (by rw [hbuf]; omega)
  have hcount : (if 0xC2 ≤ b ∧ b ≤ 0xDF then some 1
      else if 0xE0 ≤ b ∧ b ≤ 0xEF then some 2
      else if 0xF0 ≤ b ∧ b ≤ 0xF4 then some 3
      else none) = some n := by
    rcases hneed with ⟨hlo, hhi, rfl⟩ | ⟨hlo, hhi, rfl⟩ | ⟨hlo, hhi, rfl⟩
    · exact if_pos ⟨UInt8.le_iff_toNat_le.mpr hlo, UInt8.le_iff_toNat_le.mpr hhi⟩
    · rw [if_neg fun h => hle (m := 0xDF) (by change 0xDF < _; omega) h.2]
      exact if_pos ⟨UInt8.le_iff_toNat_le.mpr hlo, UInt8.le_iff_toNat_le.mpr hhi⟩
    · rw [if_neg fun h => hle (m := 0xDF) (by change 0xDF < _; omega) h.2,
        if_neg fun h => hle (m := 0xEF) (by change 0xEF < _; omega) h.2]
      exact if_pos ⟨UInt8.le_iff_toNat_le.mpr hlo, UInt8.le_iff_toNat_le.mpr hhi⟩
  rw [Parser.ground_start, if_neg hesc, if_neg hcontrol, if_neg hprint]
  dsimp only
  rw [hcount]
  dsimp only
  rw [hset]
  rfl

theorem print_singleton (g : Grid) (c : Char) : print g [c] = print_char c g := by
  rw [print, foldlM_cons]
  cases print_char c g <;> rfl

theorem feed_append (s : Parser × Grid) (a b : List UInt8) :
    Terminal.feed s (a ++ b) = Terminal.feed s a >>= fun s => Terminal.feed s b :=
  foldlM_append

/-- What is printed of a text: no controls. -/
def Printed (c : Char) : Prop := 0x20 ≤ c.toNat ∧ c.toNat ≠ 0x7F

/-- A character arrives and is printed. -/
theorem feed_char (h : Idle p) {c : Char} (hc : Printed c) :
    ∃ p', Idle p' ∧ ∀ g, Terminal.feed (p, g) (String.utf8EncodeChar c) =
      (print_char c g).map fun g => (p', g) := by
  obtain ⟨hlow, hdel⟩ := hc
  have htoNat : c.val.toNat = c.toNat := rfl
  -- a byte of ASCII is printed at once, others wait for the whole character
  by_cases hascii : c.toNat < 0x80
  · have hbyte : (UInt8.ofNat c.toNat).toNat = c.toNat := toNat_ofNat_lt (by omega)
    have hencode : String.utf8EncodeChar c = [UInt8.ofNat c.toNat] := by
      rw [String.utf8EncodeChar, htoNat]
      exact if_pos (by omega)
    refine ⟨p, h, fun g => ?_⟩
    have hesc : UInt8.ofNat c.toNat ≠ 0x1B := fun he => by
      rw [he] at hbyte
      have : c.toNat = 0x1B := hbyte.symm
      omega
    have hcontrol : ¬ (UInt8.ofNat c.toNat ≤ 0x1F ∨ UInt8.ofNat c.toNat = 0x7F) := by
      rintro (hle | he)
      · rw [UInt8.le_iff_toNat_le, hbyte] at hle
        have : c.toNat ≤ 0x1F := hle
        omega
      · rw [he] at hbyte
        exact hdel hbyte.symm
    have hprint : UInt8.ofNat c.toNat ≤ 0x7E := by
      rw [UInt8.le_iff_toNat_le, hbyte]
      exact (by omega : c.toNat ≤ 0x7E)
    rw [hencode, Terminal.feed, foldlM_cons, h.byte, Parser.ground_start, if_neg hesc,
      if_neg hcontrol, if_pos hprint, hbyte, Char.ofNat_toNat]
    cases print_char c g <;> rfl
  · obtain ⟨b, tail, hencode, htail, hneed⟩ := encode_first (c := c) (by omega)
    -- the bytes together are the character
    have hlossy : from_utf8_lossy (b :: tail) = [c] := by
      have := lossy_encode_append c []
      rwa [append_nil, hencode, from_utf8_lossy_nil] at this
    have hamid : Amid { p with utf8 := { buf := p.utf8.buf.set 0 b, len := 1, need := tail.length } }
        [b] tail.length := by
      have hlt : 0 < p.utf8.buf.length := h.buf ▸ Nat.succ_pos 3
      exact ⟨h.state, rfl, rfl, (length_set ..).trans h.buf, take_succ_set hlt b⟩
    have hmore : tail ≠ [] := fun hnil => by
      rw [hnil, length_nil] at hneed
      omega
    obtain ⟨p', hp', hfeed⟩ := hamid.feed htail (by rw [length_singleton]; omega) hmore
    refine ⟨p', hp', fun g => ?_⟩
    rw [hencode, Terminal.feed, foldlM_cons, h.byte, ground_start_long h.buf hneed,
      bind_eq_bind, bind_some, ← Terminal.feed, hfeed, singleton_append, hlossy,
      print_singleton]

/-! ## Printing it -/

/-- A text arrives and is printed. -/
theorem feed_text (h : Idle p) {text : Str} (htext : ∀ c ∈ text, Printed c) :
    ∃ p', Idle p' ∧ ∀ g, Terminal.feed (p, g) (as_bytes text) =
      (print g text).map fun g => (p', g) := by
  induction text generalizing p with
  | nil => exact ⟨p, h, fun g => rfl⟩
  | cons c text ih =>
    obtain ⟨p', hp', hchar⟩ := feed_char h (htext c mem_cons_self)
    obtain ⟨p'', hp'', hfeed⟩ := ih hp' fun c hc => htext c (mem_cons_of_mem _ hc)
    refine ⟨p'', hp'', fun g => ?_⟩
    rw [as_bytes_cons, feed_append, hchar, print, foldlM_cons]
    cases print_char c g with
    | none => rfl
    | some g => exact hfeed g

/-- A line ends. -/
theorem feed_end_line (h : Idle p) (g : Grid) :
    Terminal.feed (p, g) [0x0D, 0x0A] =
      (control 0x0D g >>= control 0x0A).map fun g => (p, g) := by
  have hbyte : ∀ g, p.byte 0x0D g = (control 0x0D g).map fun g => (p, g) := fun g => by
    rw [h.byte]
    rfl
  have hbyte' : ∀ g, p.byte 0x0A g = (control 0x0A g).map fun g => (p, g) := fun g => by
    rw [h.byte, Parser.ground_start, if_neg (by decide), if_pos (by decide)]
    cases control 0x0A g <;> rfl
  rw [Terminal.feed, foldlM_cons, hbyte]
  change (Terminal.feed (p, { g with cursor_col := 0, wrap_pending := false }) [0x0A]) = _
  rw [Terminal.feed, foldlM_cons, hbyte']
  change _ = (control 0x0A { g with cursor_col := 0, wrap_pending := false }).map fun g => (p, g)
  cases control 0x0A { g with cursor_col := 0, wrap_pending := false } <;> rfl

end

/-! ## Lines -/

theorem Glyph.printed (glyph : Glyph) : ∀ c ∈ glyph.text, Printed c := by
  intro c hc
  rcases mem_cons.mp hc with rfl | hmark
  · exact glyph.printable
  -- what takes no cell is no ASCII character
  · have hwidth := glyph.combining c hmark
    by_contra hnot
    have hascii : c.toNat < 0x80 := by
      unfold Printed at hnot
      omega
    unfold char_width at hwidth
    simp only [Bool.or_eq_true, Bool.and_eq_true, decide_eq_true_eq, beq_iff_eq] at hwidth
    rw [if_neg (by omega), if_neg (by omega)] at hwidth
    exact absurd hwidth Nat.one_ne_zero

theorem line_printed (line : List Glyph) : ∀ c ∈ line_text line, Printed c := by
  intro c hc
  obtain ⟨glyph, -, hglyph⟩ := mem_flatMap.mp hc
  exact glyph.printed c hglyph

/-- The bytes of lines, with CR LF between them. -/
def line_bytes (lines : List (List Glyph)) : List UInt8 :=
  List.intercalate [0x0D, 0x0A] (lines.map fun line => as_bytes (line_text line))

/-- What is known of the parser and the grid while lines arrive. -/
structure Arriving (cols rows : ℕ) (done : List Str) (line : Str) (s : Parser × Grid) : Prop where
  idle : Idle s.1
  sound : Sound cols rows s.2
  drawn : Drawn s.2 done line

section
variable {cols rows : ℕ} {done : List Str} {s : Parser × Grid}

theorem returns_print {g : Grid} (h : Sound cols rows g) (text : Str) :
    Returns (print g text) (Sound cols rows) :=
  Returns.each (fun _ h c _ => returns_print_char h c) h

/-- A line arrives at the start of one. -/
theorem Arriving.line (h : Arriving cols rows done [] s) (line : List Glyph) :
    Returns (Terminal.feed s (as_bytes (line_text line)))
      (Arriving cols rows done (line_text line)) := by
  obtain ⟨p, g⟩ := s
  obtain ⟨p', hidle, hfeed⟩ := feed_text h.idle (line_printed line)
  obtain ⟨g', hprint, hsound, hdrawn⟩ :=
    (returns_print h.sound (line_text line)).and_yields (h.drawn.print_line line)
  refine ⟨(p', g'), ?_, ⟨hidle, hsound, hdrawn⟩⟩
  rw [hfeed, hprint]
  rfl

/-- The line is ended. -/
theorem Arriving.end_line {line : Str} (h : Arriving cols rows done line s) :
    Returns (Terminal.feed s [0x0D, 0x0A]) (Arriving cols rows (done ++ [line]) []) := by
  obtain ⟨p, g⟩ := s
  have hreturns : Returns (control 0x0D g >>= control 0x0A) (Sound cols rows) :=
    (returns_control h.sound 0x0D).bind fun g' hg' => returns_control hg' 0x0A
  obtain ⟨g', hcontrol, hsound, hdrawn⟩ := hreturns.and_yields h.drawn.end_line
  refine ⟨(p, g'), ?_, ⟨h.idle, hsound, hdrawn⟩⟩
  rw [feed_end_line h.idle, hcontrol]
  rfl

/-- Lines arrive, and the last of them is the one that is being drawn. -/
theorem Arriving.lines (h : Arriving cols rows done [] s) (line : List Glyph)
    (lines : List (List Glyph)) :
    Returns (Terminal.feed s (line_bytes (line :: lines))) fun s' =>
      ∃ before last, before ++ [last] = done ++ (line :: lines).map line_text ∧
        Arriving cols rows before last s' := by
  induction lines generalizing done s line with
  | nil =>
    rw [line_bytes, map_singleton, intercalate_singleton]
    exact (h.line line).mono fun s' h' => ⟨done, line_text line, rfl, h'⟩
  | cons next lines ih =>
    rw [line_bytes, map_cons, map_cons, intercalate_cons_cons, feed_append,
      feed_append]
    have hended : Returns (Terminal.feed s (as_bytes (line_text line)) >>=
        fun s => Terminal.feed s [0x0D, 0x0A]) (Arriving cols rows (done ++ [line_text line]) []) :=
      (h.line line).bind fun s' h' => h'.end_line
    refine hended.bind fun s' h' => (ih h' next).mono fun s'' h'' => ?_
    obtain ⟨before, last, hlines, hdrawn⟩ := h''
    refine ⟨before, last, ?_, hdrawn⟩
    rw [hlines, append_assoc]
    rfl

end

/-- A new grid has an empty line on it. -/
theorem new_drawn (cols rows : ℕ) : Drawn (Grid.new cols rows) [] [] := by
  have hrows : max rows 1 = max rows 1 - 1 + 1 := by omega
  refine ⟨[], [], Row.blank (max cols 1), ⟨rfl, ?_, rfl, ?_, length_replicate, rfl, ?_, rfl, rfl,
    rfl⟩, blank_pen (by change 0 < max cols 1; omega) rfl rfl, ?_⟩
  · change Grid.blank_screen (max cols 1) (max rows 1) = _
    rw [Grid.blank_screen, hrows, replicate_succ]
    rfl
  · change 0 < max rows 1
    omega
  · exact hrows.symm
  · rw [nil_append, nil_append, rejoin_single, blank_text]

theorem new_arriving (cols rows : ℕ) :
    Arriving (max cols 1) (max rows 1) [] [] ({}, Grid.new cols rows) := by
  have hsound : Sound (max cols 1) (max rows 1) (Grid.new (max cols 1) (max rows 1)) :=
    Sound.start (Nat.le_max_right _ _) (Nat.le_max_right _ _)
  have hnew : Grid.new (max cols 1) (max rows 1) = Grid.new cols rows := by
    rw [Grid.new, Grid.new, Nat.max_assoc, Nat.max_self, Nat.max_assoc, Nat.max_self]
  exact ⟨idle_start, hnew ▸ hsound, new_drawn cols rows⟩

theorem rejoin_blanks (cols n : ℕ) :
    rejoin (List.replicate n (Row.blank cols)) = List.replicate n [] := by
  induction n with
  | zero => rfl
  | succ n ih =>
    rw [replicate_succ, replicate_succ, rejoin, ih, blank_text]
    rfl

/-- The rows of a grid that lines were drawn on, none of them let go of. -/
theorem Drawn.rejoin_rows {g : Grid} {done : List Str} {line : Str} (h : Drawn g done line)
    (hdropped : g.dropped = 0) :
    ∃ blank, rejoin (g.scrollback ++ g.screen) = done ++ [line] ++ List.replicate blank [] := by
  obtain ⟨gone, above, row, hshape, hpen, hlines⟩ := h
  have hgone : gone = [] := length_eq_zero_iff.mp (hshape.dropped.trans hdropped)
  have hrows := hshape.rows
  rw [hgone, nil_append] at hrows
  refine ⟨g.rows - 1 - g.cursor_row, ?_⟩
  rw [hrows, rejoin_end hpen.ends, hlines, rejoin_blanks]

/-- Bytes that come in chunks are read as if they came at once. -/
theorem feed_chunks (chunks : List (List UInt8)) (s : Parser × Grid) :
    chunks.foldlM Terminal.feed s = Terminal.feed s chunks.flatten := by
  induction chunks generalizing s with
  | nil => rfl
  | cons chunk chunks ih =>
    rw [foldlM_cons, flatten_cons, feed_append]
    exact congrArg _ (funext ih)

/-- Lines that were printed are captured as these lines, with empty ones behind them: however
long they are, however wide the screen is and however their bytes come. -/
theorem capture_gives_lines (lines : List (List Glyph)) (cols rows : ℕ)
    (chunks : List (List UInt8)) (hchunks : chunks.flatten = line_bytes lines) :
    ∃ p g, chunks.foldlM Terminal.feed ({}, Grid.new cols rows) = some (p, g) ∧
      (g.dropped = 0 → ∃ blank, ∀ history, g.scrollback.length ≤ history →
        g.capture history = glue (lines.map line_text ++ List.replicate blank [])) := by
  rw [feed_chunks, hchunks]
  cases lines with
  | nil =>
    refine ⟨{}, Grid.new cols rows, rfl, fun hdropped => ?_⟩
    obtain ⟨blank, hrows⟩ := (new_drawn cols rows).rejoin_rows hdropped
    refine ⟨blank + 1, fun history hhistory => ?_⟩
    rw [capture_eq _ hhistory, hrows]
    rfl
  | cons line lines =>
    obtain ⟨⟨p, g⟩, hfeed, before, last, hlines, harriving⟩ :=
      (new_arriving cols rows).lines line lines
    refine ⟨p, g, hfeed, fun hdropped => ?_⟩
    obtain ⟨blank, hrows⟩ := harriving.drawn.rejoin_rows hdropped
    refine ⟨blank, fun history hhistory => ?_⟩
    rw [capture_eq _ hhistory, hrows, hlines, nil_append]

/-- A wide character that has no room at the margin, and arrives in two halves. -/
theorem capture_gives_lines_wide :
    ∃ p g, [[0x61, 0xE4], [0xB8, 0xAD]].foldlM Terminal.feed ({}, Grid.new 2 1) = some (p, g) ∧
      (g.dropped = 0 → ∃ blank, ∀ history, g.scrollback.length ≤ history →
        g.capture history = glue ([['a', '中']] ++ List.replicate blank [])) :=
  capture_gives_lines
    [[⟨'a', [], by decide, by decide, forall_mem_nil _, by decide⟩,
      ⟨'中', [], by decide, by decide, forall_mem_nil _, by decide⟩]] 2 1 _ (by decide)

end Lpm.Terminal
