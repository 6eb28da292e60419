/-
That each message fits, and that the messages hold the text.

The length that Telegram counts of what is written of a tree is the number of characters in the
tree, so a message is no longer than its plain text is allowed to be. The rows of the plain texts
are those of the body: each is followed through the blocks, the runs they are cut into and the
messages these are put in.
-/
import Mathlib.Algebra.Order.BigOperators.Group.List
import Mathlib.Algebra.Order.Group.Nat
import Mathlib.Data.List.DropRight
import Lpm.Lib.Rows
import Lpm.Telegram.Messages

set_option autoImplicit false

namespace Lpm.Telegram.Format

open List Option

open RustText Markup Chunks

/-! ## The length that Telegram counts -/

section
variable {inside : Str} {tag : Tag} {attr : Option (Str × Str)}

theorem dropWhile_notMem {c : Char} (h : c ∉ inside) (rest : Str) :
    (inside ++ c :: rest).dropWhile (fun x => x ≠ c) = c :: rest := by
  induction inside with
  | nil => exact dropWhile_cons_of_neg (by simp)
  | cons d inside ih =>
    rw [mem_cons, not_or] at h
    rw [cons_append, dropWhile_cons_of_pos (by simp [Ne.symm h.1]), ih h.2]

theorem visible_len_tag (h : '>' ∉ inside) (rest : Str) : visible_len ('<' :: (inside ++ '>' :: rest)) = visible_len rest := by
  rw [visible_len, if_pos rfl, dropWhile_notMem h]
  rfl

theorem visible_len_entity (h : ';' ∉ inside) (rest : Str) : visible_len ('&' :: (inside ++ ';' :: rest)) = visible_len rest + 1 := by
  rw [visible_len, if_neg (by decide), if_pos rfl, dropWhile_notMem h]
  rfl

theorem visible_len_push_escaped (c : Char) (rest : Str) : visible_len (push_escaped c ++ rest) = visible_len rest + 1 := by
  rw [push_escaped]
  split_ifs with hamp hlt hgt
  · exact @visible_len_entity "amp".toList (by decide) rest
  · exact @visible_len_entity "lt".toList (by decide) rest
  · exact @visible_len_entity "gt".toList (by decide) rest
  · rw [singleton_append, visible_len, if_neg hlt, if_neg hamp]

theorem gt_notMem_name (tag : Tag) : '>' ∉ tag.name := by
  cases tag with
  | b | i | s | code | pre | a | blockquote => decide

theorem visible_len_opening {above : List Tag} {children : List (Node Tag)} (h : Allowed above tag attr children) (rest : Str) :
    visible_len (opening Tag.name tag attr ++ rest) = visible_len rest := by
  have hattr : '>' ∉ write_attr attr := by
    have hone : ∀ key value : Str, '>' ∉ key → '>' ∉ write_attr (some (key, value)) := by
      intro key value hkey hin
      rw [write_attr] at hin
      rcases mem_cons.mp hin with heq | hin
      · exact absurd heq (by decide)
      · rcases mem_append.mp hin with hin | hin
        · rcases mem_append.mp hin with hin | hin
          · rcases mem_append.mp hin with hin | hin
            · exact hkey hin
            · exact absurd hin (by decide)
          · exact gt_notMem_escape_attr value hin
        · exact absurd hin (by decide)
    rcases h.attrs with rfl | ⟨-, url, rfl⟩ | ⟨-, -, lang, rfl⟩
    · exact not_mem_nil
    · exact hone _ url (by decide)
    · exact hone _ _ (by decide)
  have hinside : '>' ∉ tag.name ++ write_attr attr := by
    intro hin
    rcases mem_append.mp hin with hin | hin
    · exact gt_notMem_name tag hin
    · exact hattr hin
  have hlen := visible_len_tag hinside rest
  rw [opening, cons_append, append_assoc]
  exact hlen

theorem visible_len_closing (tag : Tag) (rest : Str) : visible_len (closing Tag.name tag ++ rest) = visible_len rest := by
  have hinside : '>' ∉ '/' :: tag.name := by
    intro hin
    rcases mem_cons.mp hin with heq | hin
    · exact absurd heq (by decide)
    · exact gt_notMem_name tag hin
  have hlen := visible_len_tag hinside rest
  rw [closing, cons_append, cons_append, append_assoc]
  exact hlen

mutual

theorem visible_len_node {above : List Tag} (n : Node Tag) (h : n.Placed Allowed above) (rest : Str) :
    visible_len (n.write Tag.name ++ rest) = n.size + visible_len rest :=
  match n with
  | .text c => by
    rw [Node.write, Node.size, visible_len_push_escaped, Nat.add_comm]
  | .element tag attr children => by
    obtain ⟨hallowed, hchildren⟩ := h
    rw [Node.write, Node.size, append_assoc, append_assoc, visible_len_opening hallowed,
      visible_len_nodes children hchildren, visible_len_closing]

theorem visible_len_nodes {above : List Tag} (ns : List (Node Tag)) (h : Placed Allowed above ns) (rest : Str) :
    visible_len (write Tag.name ns ++ rest) = size ns + visible_len rest :=
  match ns with
  | [] => (Nat.zero_add _).symm
  | n :: ns => by
    obtain ⟨hn, hns⟩ := h
    rw [write, size, append_assoc, visible_len_node n hn, visible_len_nodes ns hns, Nat.add_assoc]

end

theorem visible_len_write {nodes : List (Node Tag)} (h : Placed Allowed [] nodes) : visible_len (write Tag.name nodes) = size nodes := by
  have hlen := visible_len_nodes nodes h []
  rw [append_nil] at hlen
  rw [hlen, visible_len]
  rfl

end

/-! ## A line cut into pieces -/

/-- The pieces a line is cut into: one when it fits. -/
structure Cut (max : ℕ) (line : Str) (parts : List Str) : Prop where
  whole : parts.flatten = line
  fits : ∀ part ∈ parts, part.length ≤ max
  one : line.length ≤ max → parts = [line]

section
variable {max : ℕ} {line : Str} {lines : List Str}

theorem chunks_of_le {n : ℕ} (hne : line ≠ []) (h : line.length ≤ n) : chunks n line = [line] := by
  have hpos : 0 < line.length := length_pos_iff.mpr hne
  have hone : (line.length + n - 1) / n = 1 := by
    rw [Nat.div_eq_iff (by omega)]
    omega
  rw [chunks, hone, range_one, map_singleton, Nat.zero_mul, drop_zero, take_of_length_le h]

theorem char_chunks_cut (hmax : 0 < max) (line : Str) : Cut max line (char_chunks max line) := by
  have hone : Nat.max max 1 = max := Nat.max_eq_left hmax
  rw [char_chunks, hone]
  by_cases hempty : line.isEmpty = true
  · rw [if_pos hempty, List.isEmpty_iff.mp hempty]
    refine ⟨rfl, ?_, fun _ => rfl⟩
    intro part hpart
    rw [mem_singleton.mp hpart]
    exact Nat.zero_le _
  · rw [if_neg hempty]
    refine ⟨flatten_chunks hmax line, fun part hpart => length_le_of_mem_chunks hpart, ?_⟩
    intro hle
    exact chunks_of_le (fun hnil => hempty (List.isEmpty_iff.mpr hnil)) hle

theorem break_notMem_char_chunks (hmax : 0 < max) (h : '\n' ∉ line) : ∀ part ∈ char_chunks max line, '\n' ∉ part := by
  intro part hpart hin
  rw [← (char_chunks_cut hmax line).whole] at h
  exact h (mem_flatten_of_mem hpart hin)

/-! ## Runs of lines -/

/-- The runs so far, of lines that fit, hold the rows of the lines. -/
structure Run (max : ℕ) (lines : List Str) (state : List Str × Str) : Prop where
  out : ∀ text ∈ state.1, text.length ≤ max
  current : state.2.length ≤ max
  held : state.1.flatMap rows ++ rows state.2 = filled lines

theorem Run.step {state : List Str × Str} (h : Run max lines state) (hlen : line.length ≤ max) (hbreak : '\n' ∉ line) :
    Run max (lines ++ [line]) (piece_step max state line) := by
  obtain ⟨out, current⟩ := state
  obtain ⟨hout, hcurrent, hrows⟩ := h
  have hline : rows line = filled [line] := rows_line hbreak
  rw [piece_step]
  dsimp only at hout hcurrent hrows ⊢
  by_cases hnil : current = []
  -- the run begins
  · subst hnil
    rw [if_neg (by simp), if_neg (by simp)]
    refine ⟨hout, hlen, ?_⟩
    rw [rows_nil, append_nil] at hrows
    rw [nil_append, hrows, hline, ← filled_append]
  · by_cases hfull : current.length + line.length + 1 > max
    · rw [if_pos ⟨hnil, hfull⟩]
      dsimp only
      rw [if_neg (by simp), nil_append]
      refine ⟨?_, hlen, ?_⟩
      · intro text htext
        rcases mem_append.mp htext with htext | htext
        · exact hout text htext
        · rw [mem_singleton.mp htext]
          exact hcurrent
      · rw [flatMap_append, flatMap_singleton, hrows, hline, ← filled_append]
    · rw [if_neg (fun h => hfull h.2)]
      dsimp only
      rw [if_pos hnil]
      refine ⟨hout, ?_, ?_⟩
      · simp only [length_append, length_singleton]
        omega
      · rw [append_assoc, singleton_append, rows_break, ← append_assoc, hrows, hline, ← filled_append]

theorem Run.foldl {more : List Str} {state : List Str × Str} (h : Run max lines state) (hlen : ∀ line ∈ more, line.length ≤ max)
    (hbreak : ∀ line ∈ more, '\n' ∉ line) : Run max (lines ++ more) (more.foldl (piece_step max) state) := by
  induction more generalizing lines state with
  | nil =>
    rw [append_nil]
    exact h
  | cons line more ih =>
    have hstep := h.step (hlen line mem_cons_self) (hbreak line mem_cons_self)
    have hrest := ih hstep (fun l hl => hlen l (mem_cons_of_mem line hl)) fun l hl => hbreak l (mem_cons_of_mem line hl)
    rw [append_assoc] at hrest
    exact hrest

/-- Runs fit, and hold the rows of the lines, longer ones cut. -/
theorem pieces_run (hmax : 0 < max) (hbreak : ∀ line ∈ lines, '\n' ∉ line) :
    (∀ text ∈ pieces lines max, text.length ≤ max)
      ∧ (pieces lines max).flatMap rows = filled (lines.flatMap (char_chunks max)) := by
  have hstart : Run max [] ([], []) := ⟨fun _ h => absurd h not_mem_nil, Nat.zero_le _, by rw [rows_nil]; rfl⟩
  have hrun := @Run.foldl max [] (lines.flatMap (char_chunks max)) _ hstart
    (by
      intro part hpart
      obtain ⟨line, -, hpart⟩ := mem_flatMap.mp hpart
      exact (char_chunks_cut hmax line).fits part hpart)
    (by
      intro part hpart
      obtain ⟨line, hline, hpart⟩ := mem_flatMap.mp hpart
      exact break_notMem_char_chunks hmax (hbreak line hline) part hpart)
  rw [nil_append] at hrun
  rw [pieces]
  generalize (lines.flatMap (char_chunks max)).foldl (piece_step max) ([], []) = state at hrun
  obtain ⟨out, current⟩ := state
  obtain ⟨hout, hcurrent, hrows⟩ := hrun
  dsimp only at hout hcurrent hrows ⊢
  split_ifs with hne
  · constructor
    · intro text htext
      rcases mem_append.mp htext with htext | htext
      · exact hout text htext
      · rw [mem_singleton.mp htext]
        exact hcurrent
    · rw [flatMap_append, flatMap_singleton, hrows]
  · rw [not_not.mp hne, rows_nil, append_nil] at hrows
    exact ⟨hout, hrows⟩

end

/-! ## What is shown of the rows -/

/-- The markers of a fence. -/
def fences : List Str := ["\x60\x60\x60".toList, "~~~".toList]

/-- A row that opens a fenced block, or closes the one that is open. -/
def Turns (opened : Option Str) (row : Str) : Prop :=
  match opened with
  | none => ∃ fence ∈ fences, fence <+: trim row
  | some fence => fence <+: trim row

/-- What stands for a row: the row, or what stands behind its quote marker outside a fenced block,
but for the blanks at its ends. -/
def Carries (opened : Option Str) (row text : Str) : Prop :=
  trim text = trim row ∨ opened = none ∧ ∃ q, quoted (trim row) = some q ∧ trim text = trim q

/-- Every row is shown, in order, in pieces when it is too long, but for those that open a fenced
block and those that close one. A block is closed by the marker that opened it. -/
inductive Shown (max : ℕ) : Option Str → List Str → List Str → Prop where
  | nil {opened : Option Str} : Shown max opened [] []
  | opens {fence row : Str} {lines shown : List Str} (hfence : fence ∈ fences) (h : fence <+: trim row)
      (rest : Shown max (some fence) lines shown) : Shown max none (row :: lines) shown
  | closes {fence row : Str} {lines shown : List Str} (hfence : fence ∈ fences) (h : fence <+: trim row)
      (rest : Shown max none lines shown) : Shown max (some fence) (row :: lines) shown
  | row {opened : Option Str} {row text : Str} {parts lines shown : List Str} (hturns : ¬Turns opened row)
      (h : Carries opened row text) (hcut : Cut max text parts) (rest : Shown max opened lines shown) :
      Shown max opened (row :: lines) (filled parts ++ shown)

section
variable {max : ℕ} {opened : Option Str} {lines more shown shown' : List Str} {line text : Str}

/-- Rows that are no marker, and what comes behind them. -/
theorem Shown.of_texts {texts : List Str} (hmax : 0 < max) (h : List.Forall₂ (Carries opened) lines texts)
    (hturns : ∀ line ∈ lines, ¬Turns opened line) (rest : Shown max opened more shown) :
    Shown max opened (lines ++ more) (filled (texts.flatMap (char_chunks max)) ++ shown) := by
  induction h with
  | nil => exact rest
  | @cons row text lines texts hrow _ ih =>
    rw [flatMap_cons, filled_append, append_assoc]
    exact .row (hturns row mem_cons_self) hrow (char_chunks_cut hmax text) (ih fun l hl => hturns l (mem_cons_of_mem row hl))

theorem carries_map {f : Str → Str} (hf : ∀ line, trim (f line) = trim line) (lines : List Str) :
    List.Forall₂ (Carries opened) lines (lines.map f) := by
  rw [forall₂_map_right_iff]
  exact forall₂_same.mpr fun line _ => .inl (hf line)

theorem turns_congr {row row' : Str} (h : trim row' = trim row) : Turns opened row' ↔ Turns opened row := by
  cases opened with
  | none | some fence => rw [Turns, Turns, h]

/-- What is shown depends on the rows but for the blanks at their ends. -/
theorem Shown.congr (h : Shown max opened lines shown) (hmore : lines.map trim = more.map trim) : Shown max opened more shown := by
  induction h generalizing more with
  | nil =>
    obtain rfl := map_eq_nil_iff.mp hmore.symm
    exact .nil
  | opens hfence hrow rest ih =>
    obtain ⟨row', more, rfl, htrim, hrest⟩ := map_eq_cons_iff.mp hmore.symm
    exact .opens hfence (htrim ▸ hrow) (ih hrest.symm)
  | closes hfence hrow rest ih =>
    obtain ⟨row', more, rfl, htrim, hrest⟩ := map_eq_cons_iff.mp hmore.symm
    exact .closes hfence (htrim ▸ hrow) (ih hrest.symm)
  | row hturns hrow hcut rest ih =>
    obtain ⟨row', more, rfl, htrim, hrest⟩ := map_eq_cons_iff.mp hmore.symm
    refine .row ((turns_congr htrim).not.mpr hturns) ?_ hcut (ih hrest.symm)
    rw [Carries, htrim]
    exact hrow

theorem blank_of_trim (h : trim line = []) : ∀ c ∈ line, is_whitespace c = true := by
  intro c hc
  rcases mem_trim hc with hwhite | hin
  · exact hwhite
  · rw [h] at hin
    exact nomatch hin

theorem filled_marker {fence row : Str} (hfence : fence ∈ fences) (h : fence <+: trim row) :
    RustText.filled (row :: lines) = row :: RustText.filled lines := by
  apply filled_cons
  intro hnil
  rw [hnil, prefix_nil] at h
  rw [h] at hfence
  exact absurd hfence (by decide)

/-- Nothing is shown for a blank row. -/
theorem Shown.filled (h : Shown max opened lines shown) : Shown max opened (filled lines) shown := by
  induction h with
  | nil => exact .nil
  | opens hfence hrow rest ih =>
    rw [filled_marker hfence hrow]
    exact .opens hfence hrow ih
  | closes hfence hrow rest ih =>
    rw [filled_marker hfence hrow]
    exact .closes hfence hrow ih
  | @row opened row text parts lines shown hturns hrow hcut rest ih =>
    by_cases hblank : trim row = []
    · have htext : trim text = [] := by
        rcases hrow with htext | ⟨-, q, hq, -⟩
        · rw [htext, hblank]
        · rw [hblank] at hq
          exact nomatch hq
      have hparts : RustText.filled parts = [] := by
        apply filter_eq_nil_iff.mpr
        intro part hpart
        have hpart : trim part = [] := by
          apply trim_blank
          intro c hc
          apply blank_of_trim htext
          rw [← hcut.whole]
          exact mem_flatten_of_mem hpart hc
        simp [hpart]
      rw [hparts, filled_cons_blank hblank]
      exact ih
    · rw [filled_cons hblank]
      exact .row hturns hrow hcut ih

theorem trim_trim_end (s : Str) : trim (trim_end s) = trim s := by
  apply trim_congr
  rw [trim_end, trim_end, reverse_reverse, dropWhile_idempotent]

/-- A quote marker, with what stands behind it. -/
theorem quoted_some {x q : Str} (h : quoted x = some q) : ∃ y, x = '>' :: y ∧ trim q = trim y ∧ ∀ c ∈ q, c ∈ y := by
  unfold quoted at h
  split at h
  next rest =>
    cases h
    exact ⟨_, rfl, (trim_cons_white (by decide) _).symm, fun c hc => mem_cons_of_mem ' ' hc⟩
  next rest _ =>
    cases h
    exact ⟨_, rfl, rfl, fun c hc => hc⟩
  · exact nomatch h

theorem quoted_cons (y : Str) : ∃ q, quoted ('>' :: y) = some q := by
  unfold quoted
  split
  · exact ⟨_, rfl⟩
  · exact ⟨_, rfl⟩
  next hne =>
    exact absurd rfl (hne y)

theorem carries_quoted (h : quoted (trim_start line) = some text) : Carries none line text := by
  obtain ⟨y, hy, htrim, -⟩ := quoted_some h
  have hline : trim line = '>' :: trim_end y := by
    have hboth : trim line = trim_end (trim_start line) := rfl
    rw [hboth, hy, trim_end_cons_black (by decide)]
  obtain ⟨q, hq⟩ := quoted_cons (trim_end y)
  obtain ⟨z, hz, hqtrim, -⟩ := quoted_some hq
  obtain rfl := (List.cons.inj hz).2
  rw [← hline] at hq
  exact .inr ⟨rfl, q, hq, by rw [htrim, hqtrim, trim_trim_end]⟩

theorem trim_begins (line : Str) : trim line <+: trim_start line := by
  have hsuffix := dropWhile_suffix (l := (trim_start line).reverse) is_whitespace
  rw [← reverse_prefix, reverse_reverse] at hsuffix
  exact hsuffix

/-- A row whose first character is in no marker opens no block. -/
theorem not_turns {c : Char} {rest : Str} (hc : ∀ fence ∈ fences, c ∉ fence) (h : trim_start line = c :: rest) : ¬Turns none line := by
  rintro ⟨fence, hfence, hpre⟩
  have hpre := hpre.trans (trim_begins line)
  rw [h] at hpre
  cases fence with
  | nil => exact absurd hfence (by decide)
  | cons d fence =>
    obtain ⟨rfl, -⟩ := cons_prefix_cons.mp hpre
    exact hc _ hfence mem_cons_self

theorem not_turns_table (h : is_table_row (trim_start line) = true) : ¬Turns none line := by
  cases hstart : trim_start line with
  | nil =>
    rw [hstart] at h
    cases h
  | cons c rest =>
    have hc : c = '|' := by
      have hhead : (trim_end (c :: rest)).head? = some '|' := by
        rw [hstart, is_table_row] at h
        simp only [Bool.and_eq_true, decide_eq_true_eq] at h
        exact h.1.2
      rw [trim_end_cons] at hhead
      split_ifs at hhead
      · cases hhead
      · exact some.inj hhead
    subst hc
    exact not_turns (by decide) hstart

theorem not_turns_quoted (h : (quoted (trim_start line)).isSome = true) : ¬Turns none line := by
  obtain ⟨text, htext⟩ := isSome_iff_exists.mp h
  obtain ⟨y, hy, -⟩ := quoted_some htext
  exact not_turns (by decide) hy

theorem turns_of_fence_open {fence lang : Str} (h : fence_open (trim_start line) = some (fence, lang)) :
    fence ∈ fences ∧ fence <+: trim line := by
  obtain ⟨mark, hmark, heq⟩ := map_eq_some_iff.mp h
  obtain ⟨rfl, -⟩ := Prod.mk.inj heq
  have hin := mem_of_find?_eq_some hmark
  have hfound := find?_some hmark
  have hpre := isPrefixOf_iff_prefix.mp hfound
  refine ⟨hin, ?_⟩
  obtain ⟨rest, hrest⟩ := hpre
  have hboth : trim line = trim_end (trim_start line) := rfl
  have hblack : ∀ m : Str, (∀ c ∈ m, is_whitespace c = false) → trim_end (m ++ rest) = m ++ trim_end rest := by
    intro m hm
    induction m with
    | nil => rfl
    | cons c m ih =>
      rw [cons_append, trim_end_cons_black (hm c mem_cons_self), ih fun d hd => hm d (mem_cons_of_mem c hd)]
      rfl
  rw [hboth, ← hrest, hblack]
  · exact prefix_append _ _
  · have hmarks : (fences.all fun m => m.all fun c => !is_whitespace c) = true := by decide
    intro c hc
    have hall := List.all_eq_true.mp (List.all_eq_true.mp hmarks mark hin) c hc
    simpa using hall

theorem not_turns_of_fence_open (h : fence_open (trim_start line) = none) : ¬Turns none line := by
  rintro ⟨fence, hfence, hpre⟩
  have hnone := find?_eq_none.mp (map_eq_none_iff.mp h) fence hfence
  exact hnone (List.isPrefixOf_iff_prefix.mpr (hpre.trans (trim_begins line)))

/-! ## Blocks -/

/-- Blocks that fit and show the lines. -/
structure Shows (max : ℕ) (opened : Option Str) (lines : List Str) (blocks : List Block) : Prop where
  fits : ∀ b ∈ blocks, b.plain.length ≤ max
  shown : Shown max opened lines (blocks.flatMap fun b => rows b.plain)

theorem Shows.append {blocks later : List Block} (hfits : ∀ b ∈ blocks, b.plain.length ≤ max)
    (hshown : Shown max opened lines ((blocks.flatMap fun b => rows b.plain) ++ later.flatMap fun b => rows b.plain))
    (h : ∀ b ∈ later, b.plain.length ≤ max) : Shows max opened lines (blocks ++ later) := by
  refine ⟨?_, ?_⟩
  · intro b hb
    rcases mem_append.mp hb with hb | hb
    · exact hfits b hb
    · exact h b hb
  · rw [flatMap_append]
    exact hshown

/-- Blocks made of runs of what stands for rows that are no marker. -/
theorem Shows.of_pieces {texts : List Str} {block : Str → Block} {later : List Block} (hmax : 0 < max)
    (hplain : ∀ text, (block text).plain = text) (hbreak : ∀ text ∈ texts, '\n' ∉ text)
    (hcarries : List.Forall₂ (Carries opened) lines texts) (hturns : ∀ line ∈ lines, ¬Turns opened line)
    (h : Shows max opened more later) : Shows max opened (lines ++ more) ((pieces texts max).map block ++ later) := by
  obtain ⟨hfits, hrows⟩ := pieces_run hmax hbreak
  refine Shows.append ?_ ?_ h.fits
  · intro b hb
    obtain ⟨text, htext, rfl⟩ := List.mem_map.mp hb
    rw [hplain]
    exact hfits text htext
  · rw [flatMap_map]
    simp only [hplain]
    rw [hrows]
    exact Shown.of_texts hmax hcarries hturns h.shown

theorem shows_long {later : List Block} (hmax : 0 < max) (hbreak : '\n' ∉ line) (hturns : ¬Turns opened line)
    (h : Shows max opened more later) : Shows max opened (line :: more) ((char_chunks max line).map Block.text ++ later) := by
  have hcut := char_chunks_cut hmax line
  refine Shows.append ?_ ?_ h.fits
  · intro b hb
    obtain ⟨part, hpart, rfl⟩ := List.mem_map.mp hb
    exact hcut.fits part hpart
  · have hrows : ∀ parts : List Str, (∀ part ∈ parts, '\n' ∉ part) →
        (parts.map Block.text).flatMap (fun b => rows b.plain) = RustText.filled parts := by
      intro parts hparts
      induction parts with
      | nil => rfl
      | cons part parts ih =>
        have hpart : rows (Block.text part).plain = RustText.filled [part] := rows_line (hparts part mem_cons_self)
        rw [map_cons, flatMap_cons, hpart, ih fun p hp => hparts p (mem_cons_of_mem part hp), ← filled_append]
        rfl
    rw [hrows _ (break_notMem_char_chunks hmax hbreak)]
    exact .row hturns (.inl rfl) hcut h.shown

theorem shows_line {b : Block} {later : List Block} (hb : b.plain = line) (hbreak : '\n' ∉ line) (hlen : line.length ≤ max)
    (hturns : ¬Turns opened line) (h : Shows max opened more later) : Shows max opened (line :: more) (b :: later) := by
  have hcut : Cut max line [line] := by
    refine ⟨flatten_singleton, ?_, fun _ => rfl⟩
    intro part hpart
    rw [mem_singleton.mp hpart]
    exact hlen
  refine @Shows.append max opened (line :: more) [b] later ?_ ?_ h.fits
  · intro b' hb'
    rw [mem_singleton.mp hb', hb]
    exact hlen
  · rw [flatMap_singleton, hb, rows_line hbreak]
    exact .row hturns (.inl rfl) hcut h.shown

theorem carries_quotes (h : ∀ l ∈ lines, (quoted (trim_start l)).isSome = true) :
    List.Forall₂ (Carries none) lines (lines.filterMap fun l => quoted (trim_start l)) := by
  induction lines with
  | nil => exact .nil
  | cons line lines ih =>
    obtain ⟨text, htext⟩ := isSome_iff_exists.mp (h line mem_cons_self)
    rw [filterMap_cons_some (f := fun l => quoted (trim_start l)) htext]
    exact .cons (carries_quoted htext) (ih fun l hl => h l (mem_cons_of_mem line hl))

theorem break_notMem_quoted (h : quoted (trim_start line) = some text) (hbreak : '\n' ∉ line) : '\n' ∉ text := by
  obtain ⟨y, hy, -, hmem⟩ := quoted_some h
  intro hin
  have hstart : '\n' ∈ trim_start line := by
    rw [hy]
    exact mem_cons_of_mem '>' (hmem _ hin)
  exact hbreak ((dropWhile_sublist _).subset hstart)

/-- What the scan takes, and what it goes on with. -/
theorem drop_takeWhile (p : Str → Bool) (lines : List Str) : lines.drop (lines.takeWhile p).length = lines.dropWhile p := by
  induction lines with
  | nil => rfl
  | cons line lines ih =>
    by_cases hp : p line = true
    · rw [takeWhile_cons_of_pos hp, dropWhile_cons_of_pos hp, length_cons, drop_succ_cons, ih]
    · rw [takeWhile_cons_of_neg hp, dropWhile_cons_of_neg hp]
      rfl

theorem takeWhile_append_drop (p : Str → Bool) (lines : List Str) :
    lines.takeWhile p ++ lines.drop (lines.takeWhile p).length = lines := by
  rw [drop_takeWhile]
  exact takeWhile_append_dropWhile

theorem mem_of_mem_trim {c : Char} (h : c ∈ trim line) : c ∈ line := by
  have hback := (dropWhile_sublist _).subset (mem_reverse.mp h)
  exact (dropWhile_sublist _).subset (mem_reverse.mp hback)

/-- The blocks show the rows they are made of. -/
theorem blocks_from_shows {is_alphanumeric : Char → Bool} (hmax : 0 < max) (hbreak : ∀ line ∈ lines, '\n' ∉ line) :
    Shows max none lines (blocks_from is_alphanumeric max lines) := by
  -- on the number of rows: a block takes some, and the rest is shown by what is behind it
  induction hlen : lines.length using Nat.strong_induction_on generalizing lines with
  | h n ih =>
    have hlater : ∀ more : List Str, more.length < lines.length → (∀ line ∈ more, line ∈ lines) →
        Shows max none more (blocks_from is_alphanumeric max more) :=
      fun more hmore hsub => ih more.length (hlen ▸ hmore) (fun l hl => hbreak l (hsub l hl)) rfl
    cases lines with
    | nil =>
      rw [blocks_from]
      exact ⟨fun b hb => absurd hb not_mem_nil, .nil⟩
    | cons line rest =>
      have hdrop : ∀ k, Shows max none (rest.drop k) (blocks_from is_alphanumeric max (rest.drop k)) := by
        intro k
        apply hlater
        · rw [length_drop, length_cons]
          omega
        · exact fun l hl => mem_cons_of_mem line (mem_of_mem_drop hl)
      have hline := hbreak line mem_cons_self
      have htaken : ∀ p : Str → Bool, ∀ l ∈ rest.takeWhile p, '\n' ∉ l :=
        fun p l hl => hbreak l (mem_cons_of_mem line ((takeWhile_sublist p).subset hl))
      rw [blocks_from]
      dsimp only
      split
      -- a fence, what it holds, and the row that closes it
      next fence lang hopen =>
        obtain ⟨hfence, hpre⟩ := turns_of_fence_open hopen
        have hparts := takeWhile_append_drop (fun l => !fence.isPrefixOf (trim l)) rest
        have hclose := hdrop ((rest.takeWhile fun l => !fence.isPrefixOf (trim l)).length + 1)
        have hafter : Shows max (some fence) (rest.drop (rest.takeWhile fun l => !fence.isPrefixOf (trim l)).length)
            (blocks_from is_alphanumeric max (rest.drop ((rest.takeWhile fun l => !fence.isPrefixOf (trim l)).length + 1))) := by
          rw [← drop_drop] at hclose ⊢
          rw [drop_takeWhile] at hclose ⊢
          have hnot := head?_dropWhile_not (fun l => !fence.isPrefixOf (trim l)) rest
          cases hafter : rest.dropWhile fun l => !fence.isPrefixOf (trim l) with
          | nil =>
            rw [drop_nil, blocks_from]
            exact ⟨fun b hb => absurd hb not_mem_nil, .nil⟩
          | cons close more =>
            rw [hafter] at hclose hnot
            have hpre : fence.isPrefixOf (trim close) = true := by simpa using hnot
            exact ⟨hclose.fits, .closes hfence (List.isPrefixOf_iff_prefix.mp hpre) hclose.shown⟩
        have hinside : ∀ l ∈ rest.takeWhile fun l => !fence.isPrefixOf (trim l), ¬Turns (some fence) l := by
          intro l hl hturns
          have hnot := mem_takeWhile_imp (p := fun l => !fence.isPrefixOf (trim l)) hl
          rw [List.isPrefixOf_iff_prefix.mpr hturns] at hnot
          cases hnot
        have hcarries := @carries_map (some fence) id (fun _ => rfl) (rest.takeWhile fun l => !fence.isPrefixOf (trim l))
        rw [List.map_id] at hcarries
        have h : Shows max (some fence) _ (preformatted _ lang max ++ _) :=
          Shows.of_pieces hmax (fun _ => rfl) (htaken _) hcarries hinside hafter
        rw [hparts] at h
        exact ⟨h.fits, .opens hfence hpre h.shown⟩
      next hopen =>
        have hturns := not_turns_of_fence_open hopen
        -- no fence: table rows are taken together, quoted rows too, any other row alone
        by_cases htable : is_table_row (trim_start line) = true
        · rw [if_pos htable]
          have hparts := takeWhile_append_drop (fun l => is_table_row (trim_start l)) rest
          have htables : ∀ l ∈ rest.takeWhile fun l => is_table_row (trim_start l), is_table_row (trim_start l) = true :=
            fun l hl => mem_takeWhile_imp (p := fun l => is_table_row (trim_start l)) hl
          have htrimmed : ∀ text ∈ (line :: rest.takeWhile fun l => is_table_row (trim_start l)).map trim, '\n' ∉ text := by
            intro text htext hin
            obtain ⟨l, hl, rfl⟩ := List.mem_map.mp htext
            rcases mem_cons.mp hl with rfl | hl
            · exact hline (mem_of_mem_trim hin)
            · exact htaken _ l hl (mem_of_mem_trim hin)
          have h : Shows max none _ (preformatted _ [] max ++ _) :=
            Shows.of_pieces hmax (fun _ => rfl) htrimmed (carries_map trim_trim _)
              (forall_mem_cons.mpr ⟨hturns, fun l hl => not_turns_table (htables l hl)⟩)
              (hdrop (rest.takeWhile fun l => is_table_row (trim_start l)).length)
          rw [cons_append, hparts] at h
          exact h
        · rw [if_neg htable]
          split
          next text htext =>
            have hparts := takeWhile_append_drop (fun l => (quoted (trim_start l)).isSome) rest
            have hquotes : ∀ l ∈ rest.takeWhile fun l => (quoted (trim_start l)).isSome, (quoted (trim_start l)).isSome = true :=
              fun l hl => mem_takeWhile_imp (p := fun l => (quoted (trim_start l)).isSome) hl
            have hcarries := List.Forall₂.cons (carries_quoted htext) (carries_quotes hquotes)
            have hnobreak : ∀ t ∈ text :: (rest.takeWhile fun l => (quoted (trim_start l)).isSome).filterMap
                fun l => quoted (trim_start l), '\n' ∉ t := by
              intro t ht
              rcases mem_cons.mp ht with rfl | ht
              · exact break_notMem_quoted htext hline
              · obtain ⟨l, hl, ht⟩ := mem_filterMap.mp ht
                exact break_notMem_quoted ht (htaken _ l hl)
            have h : Shows max none _ (blockquote is_alphanumeric _ max ++ _) :=
              Shows.of_pieces hmax (fun _ => rfl) hnobreak hcarries
                (forall_mem_cons.mpr ⟨hturns, fun l hl => not_turns_quoted (hquotes l hl)⟩)
                (hdrop (rest.takeWhile fun l => (quoted (trim_start l)).isSome).length)
            rw [cons_append, hparts] at h
            exact h
          · have hmore := hlater rest (Nat.lt_succ_self _) fun l hl => mem_cons_of_mem line hl
            split_ifs with hlong
            · exact shows_long hmax hline hturns hmore
            · exact shows_line rfl hline (Nat.le_of_not_lt hlong) hturns hmore

theorem mem_strip {c : Char} (h : c ∈ (strip_suffix '\r' line).getD line) : c ∈ line := by
  rw [strip_suffix] at h
  split_ifs at h
  · exact (dropLast_sublist _).subset h
  · exact h

theorem break_notMem_lines (s : Str) : ∀ line ∈ Format.lines s, '\n' ∉ line := by
  intro line hline hin
  have hparts : ∀ part ∈ s.splitOn '\n', '\n' ∉ part := fun part hpart hc => (mem_of_mem_line hpart hc).2 rfl
  rcases mem_append.mp hline with hline | hline
  · obtain ⟨part, hpart, rfl⟩ := List.mem_map.mp hline
    exact hparts part ((dropLast_sublist _).subset hpart) (mem_strip hin)
  · have hlast := mem_toList.mp (mem_filter.mp hline).1
    exact hparts line (mem_of_getLast? hlast) hin

/-- The lines that `str::lines` gives are the rows, but for the blanks at their ends. -/
theorem trimmed_lines (s : Str) : trimmed (Format.lines s) = trimmed (s.splitOn '\n') := by
  have hne : s.splitOn '\n' ≠ [] := splitOn_ne_nil '\n' s
  have hparts := dropLast_concat_getLast hne
  rw [Format.lines, trimmed_append, trimmed_map trim_strip_suffix]
  conv_rhs => rw [← hparts]
  rw [trimmed_append, getLast?_eq_some_getLast hne]
  congr 1
  cases (s.splitOn '\n').getLast hne with
  | nil => rfl
  | cons c row => rfl

/-! ## Messages -/

/-- What is blank has no rows. -/
theorem rows_blank (h : trim text = []) : rows text = [] := by
  have hnone := trimmed_rows_blank (blank_of_trim h)
  rw [trimmed] at hnone
  exact map_eq_nil_iff.mp hnone

/-- The blanks that a message leaves out at its ends hold no rows. -/
theorem kept_rows (group : List Block) : ((kept group).flatMap fun b => rows b.plain) = group.flatMap fun b => rows b.plain := by
  have hblank : ∀ b : Block, b.is_blank = true → rows b.plain = [] :=
    fun b hb => rows_blank (List.isEmpty_iff.mp hb)
  have hfront : ∀ blocks : List Block,
      ((blocks.dropWhile Block.is_blank).flatMap fun b => rows b.plain) = blocks.flatMap fun b => rows b.plain := by
    intro blocks
    induction blocks with
    | nil => rfl
    | cons b blocks ih =>
      by_cases hb : b.is_blank = true
      · rw [dropWhile_cons_of_pos hb, ih, flatMap_cons, hblank b hb, nil_append]
      · rw [dropWhile_cons_of_neg hb]
  have hback : (((group.reverse.dropWhile Block.is_blank).reverse).flatMap fun b => rows b.plain) = group.flatMap fun b => rows b.plain := by
    have hsplit : (group.reverse.dropWhile Block.is_blank).reverse ++ (group.reverse.takeWhile Block.is_blank).reverse = group := by
      rw [← reverse_append, takeWhile_append_dropWhile, reverse_reverse]
    have hnone : ((group.reverse.takeWhile Block.is_blank).reverse.flatMap fun b => rows b.plain) = [] := by
      apply flatMap_eq_nil_iff.mpr
      intro b hb
      exact hblank b (mem_takeWhile_imp (mem_reverse.mp hb))
    conv_rhs => rw [← hsplit]
    rw [flatMap_append, hnone, append_nil]
  rw [kept, hfront, hback]

theorem message_rows (group : List Block) :
    ((message group).toList.flatMap fun m => rows m.plain) = group.flatMap fun b => rows b.plain := by
  rw [← kept_rows]
  cases hm : message group with
  | none =>
    have hnil : kept group = [] := by
      unfold message at hm
      rw [← kept] at hm
      dsimp only at hm
      split_ifs at hm with hempty
      exact List.isEmpty_iff.mp hempty
    rw [hnil]
    rfl
  | some m =>
    obtain ⟨-, rfl⟩ := message_eq hm
    rw [toList_some, flatMap_singleton]
    dsimp only
    rw [join, rows_join, flatMap_map]

theorem pack_rows (blocks : List Block) (max : ℕ) :
    ((pack blocks max).flatMap fun m => rows m.plain) = blocks.flatMap fun b => rows b.plain := by
  obtain ⟨groups, hpacked, hpack⟩ := pack_packed blocks max
  rw [hpack, ← hpacked.flatten]
  clear hpack hpacked
  induction groups with
  | nil => rfl
  | cons group groups ih =>
    have hcons : (group :: groups).filterMap message = (message group).toList ++ groups.filterMap message := by
      cases hm : message group with
      | none => rw [filterMap_cons_none hm]; rfl
      | some m => rw [filterMap_cons_some hm]; rfl
    rw [hcons, flatMap_append, message_rows, ih, flatten_cons, flatMap_append]

/-- The blocks of a body fit, and show its rows. -/
theorem all_blocks_shown (is_alphanumeric : Char → Bool) {head : Str} {body : Option Str} (hmax : 0 < max) (hhead : head.length ≤ max) :
    (∀ b ∈ all_blocks is_alphanumeric head body max, b.plain.length ≤ max)
      ∧ ∃ shown, ((all_blocks is_alphanumeric head body max).flatMap fun b => rows b.plain) = rows head ++ shown
        ∧ Shown max none (rows (body.getD [])) shown := by
  have hbody : ∀ raw : Str, Shows max none (rows raw) (blocks_of is_alphanumeric (trim raw) max) := by
    intro raw
    have hshows := @blocks_from_shows max (Format.lines (trim raw)) is_alphanumeric hmax (break_notMem_lines _)
    refine ⟨hshows.fits, hshows.shown.filled.congr ?_⟩
    have htrim := trimmed_lines (trim raw)
    rw [trimmed_rows_trim] at htrim
    exact htrim
  rw [all_blocks]
  split
  next b hb =>
    obtain ⟨hraw, -⟩ := filter_eq_some_iff.mp hb
    obtain ⟨raw, rfl, rfl⟩ := map_eq_some_iff.mp hraw
    obtain ⟨hfits, hshown⟩ := hbody raw
    refine ⟨?_, _, ?_, hshown⟩
    · intro b hb
      rcases mem_cons.mp hb with rfl | hb
      · exact hhead
      · rcases mem_cons.mp hb with rfl | hb
        · exact Nat.zero_le _
        · exact hfits b hb
    · have hempty : rows (Block.text []).plain = [] := rows_nil
      rw [flatMap_cons, flatMap_cons, hempty, nil_append]
  next hnone =>
    refine ⟨?_, [], ?_, ?_⟩
    · intro b hb
      rw [mem_singleton.mp hb]
      exact hhead
    · rw [flatMap_singleton, append_nil]
    -- a body with no text has no rows to show
    · have hblank : rows (body.getD []) = [] := by
        cases body with
        | none => exact rows_nil
        | some raw =>
          apply rows_blank
          by_contra hne
          rw [map_some, filter_some, if_pos (by simpa using hne)] at hnone
          cases hnone
      rw [hblank]
      exact .nil

theorem mem_join {c : Char} {parts : List Str} (h : c ∈ join parts) : c = '\n' ∨ ∃ part ∈ parts, c ∈ part := by
  induction parts with
  | nil => exact nomatch h
  | cons part parts ih =>
    cases parts with
    | nil =>
      rw [join, intercalate_singleton] at h
      exact .inr ⟨part, mem_cons_self, h⟩
    | cons next parts =>
      rw [join, intercalate_cons_cons, append_assoc] at h
      rcases mem_append.mp h with h | h
      · exact .inr ⟨part, mem_cons_self, h⟩
      · rcases mem_cons.mp h with rfl | h
        · exact .inl rfl
        · rcases ih h with hc | ⟨p, hp, hc⟩
          · exact .inl hc
          · exact .inr ⟨p, mem_cons_of_mem part hp, hc⟩

end

end Lpm.Telegram.Format
