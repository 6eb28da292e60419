/-
The rows of a text that are not blank, and that blanks at the ends of a text are no row of it.
-/
import Lpm.Lib.Patterns

set_option autoImplicit false

namespace RustText

open List

section
variable {c : Char} {s t a b : Str}

/-! ## White space at an end -/

theorem trim_end_cons (c : Char) (s : Str) :
    trim_end (c :: s) = if trim_end s = [] ∧ is_whitespace c = true then [] else c :: trim_end s := by
  have hnil : (s.reverse.dropWhile is_whitespace).isEmpty = true ↔ trim_end s = [] := by
    rw [trim_end, List.isEmpty_iff, reverse_eq_nil_iff]
  rw [trim_end, reverse_cons, dropWhile_append]
  by_cases hs : trim_end s = []
  · rw [if_pos (hnil.mpr hs), hs]
    by_cases hc : is_whitespace c = true
    · rw [if_pos ⟨rfl, hc⟩, dropWhile_cons_of_pos hc]
      rfl
    · rw [if_neg (fun h => hc h.2), dropWhile_cons_of_neg hc]
      rfl
  · rw [if_neg (fun h => hs (hnil.mp h)), if_neg (fun h => hs h.1), reverse_append]
    rfl

theorem trim_end_cons_black (h : is_whitespace c = false) (s : Str) : trim_end (c :: s) = c :: trim_end s := by
  rw [trim_end_cons, if_neg (by simp [h])]

/-- The two ends are trimmed in any order. -/
theorem trim_eq (s : Str) : trim s = trim_start (trim_end s) := by
  induction s with
  | nil => rfl
  | cons c s ih =>
    by_cases hc : is_whitespace c = true
    · have hleft : trim (c :: s) = trim s := by rw [trim, dropWhile_cons_of_pos hc, ← trim]
      rw [hleft, ih, trim_end_cons]
      split_ifs with hblank
      · rw [hblank.1]
      · exact (dropWhile_cons_of_pos hc).symm
    · rw [Bool.not_eq_true] at hc
      have hleft : trim (c :: s) = trim_end (c :: s) := by
        rw [trim, dropWhile_cons_of_neg (by rw [hc]; exact Bool.false_ne_true), ← trim_end]
      rw [hleft, trim_end_cons_black hc]
      exact (dropWhile_cons_of_neg (by rw [hc]; exact Bool.false_ne_true)).symm

theorem trim_congr (h : trim_end s = trim_end t) : trim s = trim t := by
  rw [trim_eq, trim_eq, h]

theorem trim_end_snoc (h : is_whitespace c = true) (s : Str) : trim_end (s ++ [c]) = trim_end s := by
  rw [trim_end, reverse_append, reverse_singleton, singleton_append, dropWhile_cons_of_pos h, ← trim_end]

theorem trim_cons_white (h : is_whitespace c = true) (s : Str) : trim (c :: s) = trim s := by
  rw [trim, dropWhile_cons_of_pos h, ← trim]

theorem trim_end_blank (h : ∀ c ∈ s, is_whitespace c = true) : trim_end s = [] := by
  induction s with
  | nil => rfl
  | cons c s ih =>
    rw [trim_end_cons, if_pos ⟨ih fun d hd => h d (mem_cons_of_mem c hd), h c mem_cons_self⟩]

theorem trim_blank (h : ∀ c ∈ s, is_whitespace c = true) : trim s = [] := by
  rw [trim_eq, trim_end_blank h]
  rfl

/-- A carriage return that is stripped is white space. -/
theorem trim_strip_suffix (s : Str) : trim ((strip_suffix '\r' s).getD s) = trim s := by
  rw [strip_suffix]
  split_ifs with hlast
  · rw [Option.getD_some]
    apply trim_congr
    obtain ⟨line, rfl⟩ := getLast?_eq_some_iff.mp hlast
    rw [dropLast_concat]
    exact (trim_end_snoc (by decide) line).symm
  · rfl

/-! ## Rows -/

/-- Those that are not blank. -/
def filled (lines : List Str) : List Str := lines.filter fun line => !(trim line).isEmpty

/-- The lines of a text that are not blank. -/
def rows (s : Str) : List Str := filled (s.splitOn '\n')

theorem filled_append (xs ys : List Str) : filled (xs ++ ys) = filled xs ++ filled ys := filter_append _ _

theorem filled_cons_blank (h : trim a = []) (xs : List Str) : filled (a :: xs) = filled xs :=
  filter_cons_of_neg (by simp [h])

theorem filled_cons (h : trim a ≠ []) (xs : List Str) : filled (a :: xs) = a :: filled xs :=
  filter_cons_of_pos (by simpa using h)

theorem rows_break (a b : Str) : rows (a ++ '\n' :: b) = rows a ++ rows b := by
  rw [rows, splitOn_append_cons_self, filled_append]
  rfl

theorem rows_line (h : '\n' ∉ a) : rows a = filled [a] := by
  rw [rows, splitOn_eq_singleton h]

theorem rows_nil : rows [] = [] := by decide

theorem rows_join (parts : List Str) : rows (['\n'].intercalate parts) = parts.flatMap rows := by
  induction parts with
  | nil => exact rows_nil
  | cons part parts ih =>
    cases parts with
    | nil =>
      rw [intercalate_singleton, flatMap_singleton]
    | cons next parts =>
      rw [intercalate_cons_cons, append_assoc, singleton_append, rows_break, ih, @flatMap_cons _ _ part]

/-- Rows but for the blanks at their ends. -/
def trimmed (lines : List Str) : List Str := (filled lines).map trim

theorem trimmed_append (xs ys : List Str) : trimmed (xs ++ ys) = trimmed xs ++ trimmed ys := by
  rw [trimmed, filled_append, map_append]
  rfl

theorem trimmed_cons_congr {xs ys : List Str} (h : trim a = trim b) (hrest : trimmed xs = trimmed ys) :
    trimmed (a :: xs) = trimmed (b :: ys) := by
  rw [trimmed] at hrest
  by_cases ha : trim a = []
  · rw [trimmed, trimmed, filled_cons_blank ha, filled_cons_blank (h ▸ ha)]
    exact hrest
  · rw [trimmed, trimmed, filled_cons ha, filled_cons (h ▸ ha), map_cons, map_cons, h, hrest]
    rfl

theorem trimmed_map {f : Str → Str} (hf : ∀ line, trim (f line) = trim line) (lines : List Str) :
    trimmed (lines.map f) = trimmed lines := by
  induction lines with
  | nil => rfl
  | cons line lines ih => exact trimmed_cons_congr (hf line) ih

theorem splitOn_cons (c : Char) (s : Str) :
    (c = '\n' ∧ (c :: s).splitOn '\n' = [] :: s.splitOn '\n')
      ∨ ∃ first more, c ≠ '\n' ∧ s.splitOn '\n' = first :: more ∧ (c :: s).splitOn '\n' = (c :: first) :: more := by
  rw [splitOn_cons_eq_if_modifyHead]
  by_cases hc : c = '\n'
  · exact .inl ⟨hc, if_pos (by simp [hc])⟩
  · right
    cases hsplit : s.splitOn '\n' with
    | nil => exact absurd hsplit (splitOn_ne_nil _ _)
    | cons first more =>
      refine ⟨first, more, hc, rfl, ?_⟩
      rw [if_neg (by simp [hc])]
      rfl

/-- A line holds characters of the text, and no line break. -/
theorem mem_of_mem_line {line : Str} (h : line ∈ s.splitOn '\n') (hc : c ∈ line) : c ∈ s ∧ c ≠ '\n' := by
  induction s generalizing line with
  | nil =>
    rw [splitOn_nil, mem_singleton] at h
    rw [h] at hc
    exact nomatch hc
  | cons d s ih =>
    rcases splitOn_cons d s with ⟨-, hsplit⟩ | ⟨first, more, hd, hs, hsplit⟩
    · rw [hsplit] at h
      rcases mem_cons.mp h with rfl | h
      · exact nomatch hc
      · exact ⟨mem_cons_of_mem d (ih h hc).1, (ih h hc).2⟩
    · rw [hsplit] at h
      rw [hs] at ih
      rcases mem_cons.mp h with rfl | h
      · rcases mem_cons.mp hc with rfl | hc
        · exact ⟨mem_cons_self, hd⟩
        · have hin := ih mem_cons_self hc
          exact ⟨mem_cons_of_mem d hin.1, hin.2⟩
      · have hin := ih (mem_cons_of_mem first h) hc
        exact ⟨mem_cons_of_mem d hin.1, hin.2⟩

theorem trimmed_rows_cons (h : is_whitespace c = true) (s : Str) :
    trimmed ((c :: s).splitOn '\n') = trimmed (s.splitOn '\n') := by
  rcases splitOn_cons c s with ⟨-, hsplit⟩ | ⟨first, more, -, hs, hsplit⟩
  · rw [hsplit, trimmed, filled_cons_blank rfl, ← trimmed]
  · rw [hsplit, hs]
    exact trimmed_cons_congr (trim_cons_white h first) rfl

theorem trimmed_rows_blank (h : ∀ c ∈ s, is_whitespace c = true) : trimmed (s.splitOn '\n') = [] := by
  induction s with
  | nil => decide
  | cons c s ih =>
    rw [trimmed_rows_cons (h c mem_cons_self), ih fun d hd => h d (mem_cons_of_mem c hd)]

/-- Behind a text blanks change nothing but the end of its last line. -/
theorem splitOn_append_blank (h : ∀ c ∈ b, is_whitespace c = true) (a : Str) :
    ∃ first more first' more', (a ++ b).splitOn '\n' = first :: more ∧ a.splitOn '\n' = first' :: more'
      ∧ trim_end first = trim_end first' ∧ trimmed more = trimmed more' := by
  induction a with
  | nil =>
    cases hsplit : b.splitOn '\n' with
    | nil => exact absurd hsplit (splitOn_ne_nil _ _)
    | cons first more =>
      have hall : ∀ line ∈ first :: more, ∀ c ∈ line, is_whitespace c = true := by
        intro line hline c hc
        rw [← hsplit] at hline
        exact h c (mem_of_mem_line hline hc).1
      refine ⟨first, more, [], [], hsplit, rfl, trim_end_blank (hall first mem_cons_self), ?_⟩
      have hnone : filled more = [] := by
        apply filter_eq_nil_iff.mpr
        intro line hline
        simp [trim_blank (hall line (mem_cons_of_mem first hline))]
      rw [trimmed, hnone]
      rfl
  | cons c a ih =>
    obtain ⟨first, more, first', more', hab, ha, htrim, hmore⟩ := ih
    rw [cons_append]
    rcases splitOn_cons c (a ++ b) with ⟨hc, hsplit⟩ | ⟨x, xs, hc, hx, hsplit⟩
    · rcases splitOn_cons c a with ⟨-, hsplit'⟩ | ⟨_, _, hne, -⟩
      · rw [hab] at hsplit
        rw [ha] at hsplit'
        exact ⟨_, _, _, _, hsplit, hsplit', rfl, trimmed_cons_congr (trim_congr htrim) hmore⟩
      · exact absurd hc hne
    · rcases splitOn_cons c a with ⟨heq, -⟩ | ⟨y, ys, -, hy, hsplit'⟩
      · exact absurd heq hc
      · obtain ⟨rfl, rfl⟩ := List.cons.inj (hx.symm.trans hab)
        obtain ⟨rfl, rfl⟩ := List.cons.inj (hy.symm.trans ha)
        refine ⟨_, _, _, _, hsplit, hsplit', ?_, hmore⟩
        rw [trim_end_cons, trim_end_cons, htrim]

/-- A text has the rows that it has when trimmed. -/
theorem trimmed_rows_trim (s : Str) : trimmed ((trim s).splitOn '\n') = trimmed (s.splitOn '\n') := by
  have hstart : ∀ x : Str, trimmed ((trim_start x).splitOn '\n') = trimmed (x.splitOn '\n') := by
    intro x
    induction x with
    | nil => rfl
    | cons c x ih =>
      by_cases hc : is_whitespace c = true
      · rw [trimmed_rows_cons hc, ← ih, trim_start, dropWhile_cons_of_pos hc, ← trim_start]
      · rw [trim_start, dropWhile_cons_of_neg hc]
  have hend : trimmed ((trim_end s).splitOn '\n') = trimmed (s.splitOn '\n') := by
    have hs : trim_end s ++ (s.reverse.takeWhile is_whitespace).reverse = s := by
      rw [trim_end, ← reverse_append, takeWhile_append_dropWhile, reverse_reverse]
    have hblank : ∀ c ∈ (s.reverse.takeWhile is_whitespace).reverse, is_whitespace c = true :=
      fun c hc => mem_takeWhile_imp (mem_reverse.mp hc)
    obtain ⟨first, more, first', more', hab, ha, htrim, hmore⟩ := splitOn_append_blank hblank (trim_end s)
    rw [hs] at hab
    rw [hab, ha]
    exact (trimmed_cons_congr (trim_congr htrim) hmore).symm
  rw [trim_eq, hstart, hend]

end

end RustText
