/-
Replace in files of `file_replace.rs` beside the search of `file_search.rs`, which shows what it
will change.

Both read the file line by line and look for the same matches, but each prepares its lines in its
own way. What stands between the two is the content: where no line gives one of them a match the
other misses, a replace changes what the search lists and nothing else.

The matcher and `interpolate` come from the `grep` crates. A matcher is what it finds in a text,
with the order of its matches; `interpolate` is a function of the match. Of grep's searcher the
model has what it hands over of a content without NUL bytes: the lines after a byte order mark, each
with its number, in whose text without the newline the matcher finds something.
-/
import Lpm.Lib.Utf8
import Mathlib.Data.List.Forall2

set_option autoImplicit false

open RustText Utf8

namespace Lpm.Search

open List

/-! ## Matches -/

/-- A match: its bytes in the text, and what a template becomes at it. -/
structure Captures where
  start : ℕ
  stop : ℕ
  interpolate : Str → Str

/-- A matcher finds its matches from left to right, none over another. -/
structure Matcher where
  captures_iter : Str → List Captures
  in_order : ∀ text, (captures_iter text).Pairwise fun m later => m.stop ≤ later.start

inductive Replacer where
  | Literal (text : Str)
  | Template (template : Str)

def Replacer.expand (caps : Captures) : Replacer → Str
  | .Literal text => text
  | .Template template => caps.interpolate template

structure Pattern where
  matcher : Matcher
  replacer : Option Replacer

variable (s : Str)

def is_char_boundary (n : ℕ) : Bool := (as_bytes (slice_to s n)).length = n

/-- `&s[from..to]` -/
def slice (start stop : ℕ) : Str := (slice_to s stop).drop (slice_to s start).length

/-- What `for_each_match` calls its closure with. -/
structure Hit where
  start : ℕ
  stop : ℕ
  replacement : Option Str

/-- The calls `for_each_match` makes when none of them stops it. -/
def hits (pattern : Pattern) (text : Str) : List Hit :=
  ((pattern.matcher.captures_iter text).filter fun m =>
      m.start < m.stop && is_char_boundary text m.start && is_char_boundary text m.stop).map
    fun m => ⟨m.start, m.stop, pattern.replacer.map (·.expand m)⟩

/-- The calls in order, until one answers `false`. -/
def calls {σ : Type} (f : Hit → σ → σ × Bool) : List Hit → σ → σ
  | [], s => s
  | hit :: rest, s => if (f hit s).2 then calls f rest (f hit s).1 else (f hit s).1

def for_each_match {σ : Type} (pattern : Pattern) (text : Str) (f : Hit → σ → σ × Bool) (s : σ) : σ :=
  calls f (hits pattern text) s

def utf16_len : ℕ := (s.map fun c => if c.toNat < 0x10000 then 1 else 2).sum

/-! ## Lines -/

/-- `split_inclusive('\n')` -/
def split_inclusive : Str → List Str
  | [] => []
  | c :: s =>
    if c = '\n' then ['\n'] :: split_inclusive s
    else match split_inclusive s with
      | [] => [[c]]
      | line :: rest => (c :: line) :: rest

/-- `trim_end_matches(['\n', '\r'])` -/
def trim_end_matches : Str := (s.reverse.dropWhile fun c => c = '\n' || c = '\r').reverse

/-! ## Replace -/

structure MatchAt where
  line : ℕ
  col : ℕ

/-- What one line of `replace_text` carries from match to match. -/
structure Written where
  out : Str
  last : ℕ
  count : ℕ

/-- What `replace_text` does with a match of a line. -/
def write_hit (body : Str) (at_ : Option MatchAt) (hit : Hit) (w : Written) : Written × Bool :=
  if at_.any fun a => a.col ≠ utf16_len (slice_to body hit.start) + 1 then (w, true)
  else (⟨w.out ++ slice body w.last hit.start ++ hit.replacement.getD [], hit.stop, w.count + 1⟩, at_.isNone)

/-- What `replace_text` does with a line. -/
def replace_line (pattern : Pattern) (at_ : Option MatchAt) (line : ℕ) (raw : Str) (sofar : Str × ℕ) : Str × ℕ :=
  let body := trim_end_matches raw
  if at_.any fun a => a.line ≠ line then (sofar.1 ++ raw, sofar.2)
  else
    let written := for_each_match pattern body (write_hit body at_) ⟨sofar.1, 0, sofar.2⟩
    (written.out ++ slice_from body written.last ++ raw.drop body.length, written.count)

/-- The lines of a file with their numbers. -/
def numbered (text : Str) : List (Str × ℕ) := (split_inclusive text).zipIdx 1

/-- `text` with its matches replaced, or with `at_`, only that one, and how many were replaced. -/
def replace_text (pattern : Pattern) (text : Str) (at_ : Option MatchAt) : Str × ℕ :=
  (numbered text).foldl (fun sofar l => replace_line pattern at_ l.2 l.1 sofar) ([], 0)

/-! ## Search -/

def CONTEXT_CHARS : ℕ := 30
def SNIPPET_CHARS : ℕ := 120

structure LineMatch where
  line : ℕ
  col : ℕ
  len : ℕ
  text : Str
  start : ℕ
  replacement : Option Str

/-- The line from a little before the occurrence. -/
def snippet (text : Str) (first start : ℕ) : Str × ℕ :=
  let lead := slice text first start
  let cut := lead.length - CONTEXT_CHARS
  let around := (if 0 < cut then ['…'] else []) ++ lead.drop cut
  (around ++ (slice_from text start).take (SNIPPET_CHARS - around.length), utf16_len around)

/-- What one line of the search carries from match to match. -/
structure Listing where
  out : List LineMatch
  seen : ℕ
  col : ℕ

/-- One step of `line_matches`: the column carries on from the match before. -/
def list_hit (line : ℕ) (text : Str) (limit : ℕ) (hit : Hit) (l : Listing) : Listing × Bool :=
  let indent := (as_bytes (text.takeWhile is_whitespace)).length
  let col := l.col + utf16_len (slice text l.seen hit.start)
  let around := snippet text (min indent hit.start) hit.start
  let out := l.out ++
    [⟨line, col, utf16_len (slice text hit.start hit.stop), around.1, around.2, hit.replacement⟩]
  (⟨out, hit.start, col⟩, out.length < limit)

def line_matches (pattern : Pattern) (line : ℕ) (raw : Str) (out : List LineMatch) (limit : ℕ) : List LineMatch :=
  (for_each_match pattern (trim_end_matches raw) (list_hit line (trim_end_matches raw) limit) ⟨out, 0, 1⟩).out

/-- The searcher hands a line over when the matcher finds something, and be it empty, in its text
without the newline. -/
def handed (pattern : Pattern) (raw : Str) : Bool :=
  !(pattern.matcher.captures_iter (raw.takeWhile (· ≠ '\n'))).isEmpty

def search_lines (pattern : Pattern) (limit : ℕ) : List (Str × ℕ) → List LineMatch → List LineMatch
  | [], out => out
  | (raw, line) :: rest, out =>
    if handed pattern raw then
      let out := line_matches pattern line raw out limit
      if out.length < limit then search_lines pattern limit rest out else out
    else search_lines pattern limit rest out

def BOM : Char := '\uFEFF'

/-- What the searcher reads of a file. -/
def without_bom (content : Str) : Str := if content.head? = some BOM then content.tail else content

def search_file (pattern : Pattern) (content : Str) (limit : ℕ) : List LineMatch :=
  search_lines pattern limit (numbered (without_bom content)) []

/-! ## Places in a line -/

section
variable {s : Str} {a b : ℕ}

theorem slice_to_append_slice (h : a ≤ b) : slice_to s a ++ slice s a b = slice_to s b := by
  rw [slice]
  induction s generalizing a b with
  | nil => rfl
  | cons c s ih =>
    rw [slice_to, slice_to]
    by_cases ha : (String.utf8EncodeChar c).length ≤ a
    · rw [if_pos ha, if_pos (ha.trans h), length_cons, drop_succ_cons, cons_append, ih (by omega)]
    · rw [if_neg ha]
      rfl

theorem slice_to_append_slice_from (s : Str) (n : ℕ) : slice_to s n ++ slice_from s n = s := by
  rw [slice_from]
  induction s generalizing n with
  | nil => rfl
  | cons c s ih =>
    rw [slice_to]
    split_ifs with h
    · rw [length_cons, drop_succ_cons, cons_append, ih]
    · rfl

theorem utf16_len_append (s t : Str) : utf16_len (s ++ t) = utf16_len s + utf16_len t := by
  rw [utf16_len, map_append, sum_append]
  rfl

theorem utf16_len_pos (h : s ≠ []) : 0 < utf16_len s := by
  obtain ⟨c, t, rfl⟩ := exists_cons_of_ne_nil h
  rw [utf16_len, map_cons, sum_cons]
  split_ifs
  · omega
  · omega

theorem utf16_len_slice_to (h : a ≤ b) : utf16_len (slice_to s b) = utf16_len (slice_to s a) + utf16_len (slice s a b) := by
  rw [← slice_to_append_slice h, utf16_len_append]

/-- A later boundary is a later column. -/
theorem utf16_len_lt (ha : is_char_boundary s a = true) (hb : is_char_boundary s b = true) (h : a < b) :
    utf16_len (slice_to s a) < utf16_len (slice_to s b) := by
  have hne : slice s a b ≠ [] := by
    intro hnil
    have hsame := slice_to_append_slice (s := s) h.le
    rw [hnil, append_nil] at hsame
    have ha := of_decide_eq_true ha
    have hb := of_decide_eq_true hb
    rw [hsame] at ha
    omega
  have hpos := utf16_len_pos hne
  rw [utf16_len_slice_to h.le]
  omega

end

/-- What the calls of `for_each_match` have in common. -/
structure Hit.Whole (text : Str) (hit : Hit) : Prop where
  lt : hit.start < hit.stop
  start_boundary : is_char_boundary text hit.start = true
  stop_boundary : is_char_boundary text hit.stop = true

theorem whole_of_mem {pattern : Pattern} {text : Str} {hit : Hit} (h : hit ∈ hits pattern text) : hit.Whole text := by
  obtain ⟨m, hm, rfl⟩ := List.mem_map.mp h
  have hm := (mem_filter.mp hm).2
  rw [Bool.and_eq_true, Bool.and_eq_true, decide_eq_true_iff] at hm
  exact ⟨hm.1.1, hm.1.2, hm.2⟩

variable (pattern : Pattern)

theorem hits_in_order (text : Str) : (hits pattern text).Pairwise fun h later => h.stop ≤ later.start :=
  pairwise_map.mpr ((pattern.matcher.in_order text).filter _)

/-! ## What a replace changes -/

def is_at (body : Str) (a : MatchAt) (hit : Hit) : Bool := a.col = utf16_len (slice_to body hit.start) + 1

/-- The matches of a line that a replace changes. -/
def taken (at_ : Option MatchAt) (line : ℕ) (raw : Str) : List Hit :=
  match at_ with
  | none => hits pattern (trim_end_matches raw)
  | some a =>
    if a.line = line then ((hits pattern (trim_end_matches raw)).find? (is_at (trim_end_matches raw) a)).toList
    else []

/-- The rest of a line from `last` on, with some of its matches replaced. -/
def spliced (body : Str) (last : ℕ) : List Hit → Str
  | [] => slice_from body last
  | hit :: rest => slice body last hit.start ++ hit.replacement.getD [] ++ spliced body hit.stop rest

variable (raw : Str)

/-- A line with some of its matches replaced. -/
def edited (changed : List Hit) : Str :=
  spliced (trim_end_matches raw) 0 changed ++ raw.drop (trim_end_matches raw).length

structure Change where
  line : ℕ
  raw : Str
  hit : Hit

/-- The matches of a file that a replace changes. -/
def changes (text : Str) (at_ : Option MatchAt) : List Change :=
  (numbered text).flatMap fun l => (taken pattern at_ l.2 l.1).map (Change.mk l.2 l.1)

theorem written_all (body : Str) (hs : List Hit) (w : Written) :
    let written := calls (write_hit body none) hs w
    written.out ++ slice_from body written.last = w.out ++ spliced body w.last hs
      ∧ written.count = w.count + hs.length := by
  induction hs generalizing w with
  | nil => exact ⟨rfl, rfl⟩
  | cons hit rest ih =>
    obtain ⟨hout, hcount⟩ := ih (write_hit body none hit w).1
    refine ⟨hout.trans ?_, hcount.trans ?_⟩
    · rw [spliced, ← append_assoc, ← append_assoc]
      rfl
    · rw [length_cons, Nat.add_comm rest.length, ← Nat.add_assoc]
      rfl

theorem written_at (body : Str) (a : MatchAt) (hs : List Hit) (w : Written) :
    let written := calls (write_hit body (some a)) hs w
    written.out ++ slice_from body written.last = w.out ++ spliced body w.last (hs.find? (is_at body a)).toList
      ∧ written.count = w.count + (hs.find? (is_at body a)).toList.length := by
  induction hs generalizing w with
  | nil => exact ⟨rfl, rfl⟩
  | cons hit rest ih =>
    by_cases his : a.col = utf16_len (slice_to body hit.start) + 1
    · have hstep : write_hit body (some a) hit w
          = (⟨w.out ++ slice body w.last hit.start ++ hit.replacement.getD [], hit.stop, w.count + 1⟩, false) := by
        simp [write_hit, his]
      have hat : is_at body a hit = true := decide_eq_true his
      rw [find?_cons_of_pos hat, calls, hstep, if_neg Bool.false_ne_true]
      refine ⟨?_, rfl⟩
      rw [Option.toList_some, spliced, ← append_assoc, ← append_assoc]
      rfl
    · have hstep : write_hit body (some a) hit w = (w, true) := by simp [write_hit, his]
      rw [find?_cons_of_neg (by simpa [is_at] using his), calls, hstep, if_pos rfl]
      exact ih w

theorem trim_end_prefix : trim_end_matches raw ++ raw.drop (trim_end_matches raw).length = raw := by
  have hsuffix := reverse_prefix.mpr (dropWhile_suffix (l := raw.reverse) fun c => c = '\n' || c = '\r')
  rw [reverse_reverse] at hsuffix
  exact prefix_iff_eq_append.mp hsuffix

theorem edited_nil : edited raw [] = raw := by
  rw [edited, spliced, slice_from, slice_to_zero]
  exact trim_end_prefix raw

theorem replace_line_eq (at_ : Option MatchAt) (line : ℕ) (raw : Str) (sofar : Str × ℕ) :
    replace_line pattern at_ line raw sofar
      = (sofar.1 ++ edited raw (taken pattern at_ line raw), sofar.2 + (taken pattern at_ line raw).length) := by
  cases at_ with
  | none =>
    obtain ⟨hout, hcount⟩ := written_all (trim_end_matches raw) (hits pattern (trim_end_matches raw)) ⟨sofar.1, 0, sofar.2⟩
    rw [replace_line, if_neg (by simp), taken, edited, ← append_assoc, ← hout, ← hcount]
    rfl
  | some a =>
    rw [replace_line, taken]
    by_cases hline : a.line = line
    · obtain ⟨hout, hcount⟩ :=
        written_at (trim_end_matches raw) a (hits pattern (trim_end_matches raw)) ⟨sofar.1, 0, sofar.2⟩
      rw [if_neg (by simpa using hline), if_pos hline, edited, ← append_assoc, ← hout, ← hcount]
      rfl
    · rw [if_pos (by simpa using hline), if_neg hline, edited_nil]
      rfl

/-- What a replace writes: the lines of the file with the matches it changes replaced. -/
theorem replace_text_eq (text : Str) (at_ : Option MatchAt) :
    replace_text pattern text at_
      = ((numbered text).flatMap fun l => edited l.1 (taken pattern at_ l.2 l.1),
        (changes pattern text at_).length) := by
  have hlines : ∀ (lines : List (Str × ℕ)) (sofar : Str × ℕ),
      lines.foldl (fun sofar l => replace_line pattern at_ l.2 l.1 sofar) sofar
        = (sofar.1 ++ lines.flatMap fun l => edited l.1 (taken pattern at_ l.2 l.1),
          sofar.2 + (lines.flatMap fun l => (taken pattern at_ l.2 l.1).map (Change.mk l.2 l.1)).length) := by
    intro lines
    induction lines with
    | nil => exact fun sofar => by simp
    | cons l rest ih =>
      intro sofar
      rw [foldl_cons, ih, replace_line_eq, flatMap_cons, flatMap_cons, append_assoc, length_append,
        length_map, Nat.add_assoc]
  rw [replace_text, hlines, nil_append, Nat.zero_add]
  rfl

/-! ## What a search lists -/

/-- A match of a line as the search lists it. -/
def shown (line : ℕ) (text : Str) (hit : Hit) : LineMatch :=
  let indent := (as_bytes (text.takeWhile is_whitespace)).length
  let around := snippet text (min indent hit.start) hit.start
  ⟨line, utf16_len (slice_to text hit.start) + 1, utf16_len (slice text hit.start hit.stop), around.1, around.2,
    hit.replacement⟩

/-- The column that `line_matches` carries on is the one counted from the start of the line. -/
theorem list_hit_eq {line limit : ℕ} {text : Str} {hit : Hit} {l : Listing}
    (hcol : l.col = utf16_len (slice_to text l.seen) + 1) (h : l.seen ≤ hit.start) :
    list_hit line text limit hit l
      = (⟨l.out ++ [shown line text hit], hit.start, utf16_len (slice_to text hit.start) + 1⟩,
        decide ((l.out ++ [shown line text hit]).length < limit)) := by
  have hnext : l.col + utf16_len (slice text l.seen hit.start) = utf16_len (slice_to text hit.start) + 1 := by
    rw [utf16_len_slice_to h, hcol]
    omega
  rw [list_hit, shown, hnext]

theorem listed_all {line limit : ℕ} {text : Str} (hs : List Hit) (l : Listing)
    (hcol : l.col = utf16_len (slice_to text l.seen) + 1) (hseen : ∀ h ∈ hs, l.seen ≤ h.start)
    (horder : hs.Pairwise fun h later => h.start ≤ later.start)
    (hroom : (calls (list_hit line text limit) hs l).out.length < limit) :
    (calls (list_hit line text limit) hs l).out = l.out ++ hs.map (shown line text) := by
  induction hs generalizing l with
  | nil => exact (append_nil _).symm
  | cons hit rest ih =>
    obtain ⟨hfirst, horder⟩ := pairwise_cons.mp horder
    rw [calls, list_hit_eq hcol (hseen hit mem_cons_self)] at hroom ⊢
    by_cases hlt : (l.out ++ [shown line text hit]).length < limit
    · rw [if_pos (decide_eq_true hlt)] at hroom ⊢
      rw [ih _ rfl hfirst horder hroom, map_cons, append_assoc]
      rfl
    · rw [if_neg (by simpa using hlt)] at hroom
      exact absurd hroom hlt

/-- What the search lists of a line. -/
def listing (line : ℕ) : List LineMatch :=
  if handed pattern raw then (hits pattern (trim_end_matches raw)).map (shown line (trim_end_matches raw)) else []

theorem search_lines_eq {pattern : Pattern} {limit : ℕ} (lines : List (Str × ℕ)) (out : List LineMatch)
    (hroom : (search_lines pattern limit lines out).length < limit) :
    search_lines pattern limit lines out = out ++ lines.flatMap fun l => listing pattern l.1 l.2 := by
  induction lines generalizing out with
  | nil => exact (append_nil out).symm
  | cons l rest ih =>
    rw [flatMap_cons, listing]
    rw [search_lines] at hroom ⊢
    by_cases hhanded : handed pattern l.1 = true
    · rw [if_pos hhanded] at hroom ⊢
      dsimp only at hroom ⊢
      by_cases hlt : (line_matches pattern l.2 l.1 out limit).length < limit
      · rw [if_pos hlt] at hroom ⊢
        have hline : line_matches pattern l.2 l.1 out limit
            = out ++ (hits pattern (trim_end_matches l.1)).map (shown l.2 (trim_end_matches l.1)) := by
          apply listed_all _ _ _ (fun _ _ => Nat.zero_le _) _ hlt
          · rw [slice_to_zero]
            rfl
          · exact (hits_in_order pattern _).imp_of_mem fun hh _ h => (whole_of_mem hh).lt.le.trans h
        rw [ih _ hroom, hline, if_pos hhanded, append_assoc]
      · rw [if_neg hlt] at hroom
        exact absurd hroom hlt
    · rw [if_neg hhanded] at hroom ⊢
      rw [ih _ hroom, if_neg hhanded, nil_append]

/-! ## Both together -/

/-- The mark in front of a line that the searcher does not read. -/
def mark_of (content : Str) (line : ℕ) : Str := if line = 1 ∧ content.head? = some BOM then [BOM] else []

/-- The occurrence listed is the match changed: it stands in the same place of the line and becomes
the same text. -/
structure Same (content : Str) (change : Change) (m : LineMatch) : Prop where
  line_eq : m.line = change.line
  replacement_eq : m.replacement = change.hit.replacement
  place : ∃ before occurrence after,
    trim_end_matches change.raw = mark_of content change.line ++ before ++ occurrence ++ after
      ∧ change.hit.start = (as_bytes (mark_of content change.line ++ before)).length
      ∧ change.hit.stop = (as_bytes (mark_of content change.line ++ before ++ occurrence)).length
      ∧ m.col = utf16_len before + 1 ∧ m.len = utf16_len occurrence

/-- A replace changes exactly what the search lists, all of it or the one occurrence asked for. -/
structure ChangesWhatItShows (pattern : Pattern) (content : Str) (listed : List LineMatch) : Prop where
  every : List.Forall₂ (Same content) (changes pattern content none) listed
  one : ∀ m ∈ listed, ∃ change, Same content change m ∧ changes pattern content (some ⟨m.line, m.col⟩) = [change]

/-- No line gives the replace or the search a match that the other does not see: the matcher finds
something in a line with its carriage returns when it has a match without them, and finds no match
in a line that a byte order mark stands before, with the mark or without. -/
def SeenByBoth (content : Str) : Prop :=
  ∀ l ∈ numbered content,
    if mark_of content l.2 = [] then hits pattern (trim_end_matches l.1) ≠ [] → handed pattern l.1 = true
    else hits pattern (trim_end_matches l.1) = [] ∧
      (handed pattern l.1.tail = true → hits pattern (trim_end_matches l.1.tail) = [])

section
variable {pattern : Pattern} {content : Str} {l : Str × ℕ} {hit : Hit}

theorem slice_to_bytes (s t : Str) : slice_to (s ++ t) (as_bytes s).length = s := by
  rw [slice_to_append le_rfl]
  have hwhole := slice_to_append_slice_from s (as_bytes s).length
  induction s with
  | nil => rfl
  | cons c s ih =>
    rw [as_bytes_cons, length_append, slice_to, if_pos (Nat.le_add_right _ _), Nat.add_sub_cancel_left,
      ih (slice_to_append_slice_from s _)]

theorem same_shown (hmark : mark_of content l.2 = []) (h : hit ∈ hits pattern (trim_end_matches l.1)) :
    Same content ⟨l.2, l.1, hit⟩ (shown l.2 (trim_end_matches l.1) hit) := by
  have hwhole := whole_of_mem h
  refine ⟨rfl, rfl, slice_to (trim_end_matches l.1) hit.start, slice (trim_end_matches l.1) hit.start hit.stop,
    slice_from (trim_end_matches l.1) hit.stop, ?_⟩
  rw [hmark, nil_append, slice_to_append_slice hwhole.lt.le, slice_to_append_slice_from]
  exact ⟨rfl, (of_decide_eq_true hwhole.start_boundary).symm, (of_decide_eq_true hwhole.stop_boundary).symm, rfl, rfl⟩

/-- No two lines of a file have one number. -/
theorem numbered_split (h : l ∈ numbered content) :
    ∃ before after, numbered content = before ++ l :: after ∧ (∀ x ∈ before, x.2 ≠ l.2) ∧ ∀ x ∈ after, x.2 ≠ l.2 := by
  obtain ⟨before, after, heq⟩ := append_of_mem h
  have hnodup : ((numbered content).map Prod.snd).Nodup := by
    rw [numbered, zipIdx_map_snd]
    exact nodup_range'
  rw [heq, map_append, map_cons, nodup_append] at hnodup
  obtain ⟨-, hafter, hbefore⟩ := hnodup
  refine ⟨before, after, heq, ?_, ?_⟩
  · exact fun x hx => hbefore _ (List.mem_map_of_mem hx) _ mem_cons_self
  · intro x hx hsame
    exact (nodup_cons.mp hafter).1 (hsame ▸ List.mem_map_of_mem hx)

/-- Replacing at the column a match is listed with changes that match alone: a later match of the
line has a later column. -/
theorem changes_at (hl : l ∈ numbered content) (h : hit ∈ hits pattern (trim_end_matches l.1)) :
    changes pattern content (some ⟨l.2, utf16_len (slice_to (trim_end_matches l.1) hit.start) + 1⟩) = [⟨l.2, l.1, hit⟩] := by
  obtain ⟨before, after, heq, hbefore, hafter⟩ := numbered_split hl
  have hother : ∀ lines : List (Str × ℕ), (∀ x ∈ lines, x.2 ≠ l.2) → lines.flatMap (fun x =>
      (taken pattern (some ⟨l.2, utf16_len (slice_to (trim_end_matches l.1) hit.start) + 1⟩) x.2 x.1).map
        (Change.mk x.2 x.1)) = [] := by
    intro lines hne
    apply flatMap_eq_nil_iff.mpr
    intro x hx
    rw [taken, if_neg (hne x hx).symm, map_nil]
  have hfind : (hits pattern (trim_end_matches l.1)).find?
      (is_at (trim_end_matches l.1) ⟨l.2, utf16_len (slice_to (trim_end_matches l.1) hit.start) + 1⟩) = some hit := by
    obtain ⟨front, back, hsplit⟩ := append_of_mem h
    apply find?_eq_some_iff_append.mpr
    refine ⟨decide_eq_true rfl, front, back, hsplit, ?_⟩
    intro x hx
    have horder := hits_in_order pattern (trim_end_matches l.1)
    rw [hsplit] at horder
    have hle := (pairwise_append.mp horder).2.2 x hx hit mem_cons_self
    have hx : x ∈ hits pattern (trim_end_matches l.1) := hsplit ▸ mem_append_left _ hx
    have hlt := utf16_len_lt (whole_of_mem hx).start_boundary (whole_of_mem h).start_boundary
      ((whole_of_mem hx).lt.trans_le hle)
    rw [is_at, Bool.not_eq_true', decide_eq_false_iff_not]
    exact fun heq => hlt.ne' (Nat.succ.inj heq)
  rw [changes, heq, flatMap_append, flatMap_cons, hother before hbefore, hother after hafter, taken, if_pos rfl,
    hfind]
  rfl

theorem hits_nil (pattern : Pattern) : hits pattern [] = [] := by
  apply eq_nil_iff_forall_not_mem.mpr
  intro hit h
  have hwhole := whole_of_mem h
  have hstop : 0 = hit.stop := of_decide_eq_true hwhole.stop_boundary
  have hlt := hwhole.lt
  omega

/-- The lines of a file behind a byte order mark are its lines without, but for the mark. -/
theorem numbered_bom (s : Str) : ∃ first rest, (∀ x ∈ rest, x.2 ≠ 1) ∧ numbered (BOM :: s) = (BOM :: first, 1) :: rest
    ∧ (numbered s = (first, 1) :: rest ∨ first = [] ∧ numbered s = [] ∧ rest = []) := by
  have hne : BOM ≠ '\n' := by decide
  rw [numbered, numbered, split_inclusive, if_neg hne]
  cases split_inclusive s with
  | nil => exact ⟨[], [], nofun, rfl, .inr ⟨rfl, rfl, rfl⟩⟩
  | cons first rest =>
    refine ⟨first, rest.zipIdx 2, ?_, rfl, .inl rfl⟩
    intro x hx hone
    have hle := le_snd_of_mem_zipIdx hx
    omega

theorem mark_of_eq_nil : mark_of content l.2 = [] ↔ ¬ (l.2 = 1 ∧ content.head? = some BOM) := by
  rw [mark_of]
  split_ifs with h
  · exact ⟨nofun, fun hnot => absurd h hnot⟩
  · exact ⟨fun _ => h, fun _ => rfl⟩

/-- A line that no mark stands before is the same to both. -/
theorem mem_numbered (hmark : mark_of content l.2 = []) : l ∈ numbered (without_bom content) ↔ l ∈ numbered content := by
  rw [without_bom]
  split_ifs with hbom
  · obtain ⟨s, rfl⟩ : ∃ s, content = BOM :: s := ⟨content.tail, (cons_head?_tail hbom).symm⟩
    obtain ⟨first, rest, -, hnum, hshort⟩ := numbered_bom s
    have hline : l.2 ≠ 1 := fun hone => mark_of_eq_nil.mp hmark ⟨hone, hbom⟩
    have hfirst : ∀ text : Str, l ≠ (text, 1) := fun text heq => hline (congrArg Prod.snd heq)
    rw [hnum, tail_cons]
    rcases hshort with hshort | ⟨-, hshort, hrest⟩
    · simp [hshort, hfirst]
    · simp [hshort, hrest, hfirst]
  · rfl

/-- The search reads the first line behind the mark. -/
theorem mem_of_mark (hmark : mark_of content l.2 ≠ []) (h : l ∈ numbered content) :
    l.2 = 1 ∧ content.head? = some BOM ∧ (l.1.tail ≠ [] → (l.1.tail, 1) ∈ numbered (without_bom content)) := by
  obtain ⟨hline, hbom⟩ := not_not.mp (mt mark_of_eq_nil.mpr hmark)
  refine ⟨hline, hbom, fun htail => ?_⟩
  obtain ⟨s, rfl⟩ : ∃ s, content = BOM :: s := ⟨content.tail, (cons_head?_tail hbom).symm⟩
  obtain ⟨first, rest, hrest, hnum, hshort⟩ := numbered_bom s
  rw [hnum] at h
  rcases mem_cons.mp h with rfl | h
  · rcases hshort with hshort | ⟨hfirst, -⟩
    · rw [without_bom, if_pos hbom, tail_cons, hshort]
      exact mem_cons_self
    · exact absurd hfirst htail
  · exact absurd hline (hrest l h)

theorem mem_with_mark (hmark : mark_of content l.2 ≠ []) (h : l ∈ numbered (without_bom content)) :
    l.2 = 1 ∧ (BOM :: l.1, l.2) ∈ numbered content := by
  obtain ⟨hline, hbom⟩ := not_not.mp (mt mark_of_eq_nil.mpr hmark)
  refine ⟨hline, ?_⟩
  obtain ⟨s, rfl⟩ : ∃ s, content = BOM :: s := ⟨content.tail, (cons_head?_tail hbom).symm⟩
  obtain ⟨first, rest, hrest, hnum, hshort⟩ := numbered_bom s
  rw [without_bom, if_pos hbom, tail_cons] at h
  rcases hshort with hshort | ⟨-, hshort, -⟩
  · rw [hshort] at h
    rcases mem_cons.mp h with rfl | h
    · rw [hnum]
      exact mem_cons_self
    · exact absurd hline (hrest l h)
  · rw [hshort] at h
    exact absurd h not_mem_nil

theorem mem_listing {m : LineMatch} (h : m ∈ listing pattern l.1 l.2) : handed pattern l.1 = true
    ∧ ∃ hit ∈ hits pattern (trim_end_matches l.1), m = shown l.2 (trim_end_matches l.1) hit := by
  rw [listing] at h
  split_ifs at h with hhanded
  · obtain ⟨hit, hhit, rfl⟩ := List.mem_map.mp h
    exact ⟨hhanded, hit, hhit, rfl⟩
  · exact absurd h not_mem_nil

theorem every_line (lines : List (Str × ℕ)) (hmark : ∀ l ∈ lines, mark_of content l.2 = [])
    (hseen : ∀ l ∈ lines, hits pattern (trim_end_matches l.1) ≠ [] → handed pattern l.1 = true) :
    List.Forall₂ (Same content) (lines.flatMap fun l => (taken pattern none l.2 l.1).map (Change.mk l.2 l.1))
      (lines.flatMap fun l => listing pattern l.1 l.2) := by
  induction lines with
  | nil => exact .nil
  | cons l rest ih =>
    obtain ⟨hline, hmark⟩ := forall_mem_cons.mp hmark
    obtain ⟨hsee, hseen⟩ := forall_mem_cons.mp hseen
    rw [flatMap_cons, flatMap_cons]
    refine rel_append ?_ (ih hmark hseen)
    rw [taken, listing]
    split_ifs with hhanded
    · rw [forall₂_map_left_iff, forall₂_map_right_iff]
      exact forall₂_same.mpr fun hit hhit => same_shown hline hhit
    · rw [not_not.mp (mt hsee hhanded)]
      exact .nil

/-- Seen by both, every match changed is listed and every match listed can be changed by itself. -/
theorem changes_of_seen (h : SeenByBoth pattern content) : ChangesWhatItShows pattern content
    ((numbered (without_bom content)).flatMap fun l => listing pattern l.1 l.2) := by
  refine ⟨?_, ?_⟩
  · by_cases hbom : content.head? = some BOM
    · obtain ⟨s, rfl⟩ : ∃ s, content = BOM :: s := ⟨content.tail, (cons_head?_tail hbom).symm⟩
      obtain ⟨first, rest, hrest, hnum, hshort⟩ := numbered_bom s
      have hmark : ∀ x ∈ rest, mark_of (BOM :: s) x.2 = [] :=
        fun x hx => mark_of_eq_nil.mpr fun hone => hrest x hx hone.1
      have hseen : ∀ x ∈ rest, hits pattern (trim_end_matches x.1) ≠ [] → handed pattern x.1 = true := by
        intro x hx
        have hboth := h x (hnum ▸ mem_cons_of_mem _ hx)
        rwa [if_pos (hmark x hx)] at hboth
      have hfirst := h (BOM :: first, 1) (hnum ▸ mem_cons_self)
      have hmarked : ¬ mark_of (BOM :: s) 1 = [] :=
        fun hnil => (@mark_of_eq_nil _ (first, 1)).mp hnil ⟨rfl, hbom⟩
      rw [if_neg hmarked, tail_cons] at hfirst
      have hlist : listing pattern first 1 = [] := by
        rw [listing]
        split_ifs with hhanded
        · rw [hfirst.2 hhanded, map_nil]
        · rfl
      have hevery := every_line rest hmark hseen
      rw [changes, hnum, flatMap_cons, taken, hfirst.1, map_nil, nil_append, without_bom, if_pos hbom,
        tail_cons]
      rcases hshort with hshort | ⟨-, hshort, rfl⟩
      · rw [hshort, flatMap_cons, hlist]
        exact hevery
      · rw [hshort]
        exact hevery
    · have hmark : ∀ l : Str × ℕ, mark_of content l.2 = [] := fun l => mark_of_eq_nil.mpr fun hone => hbom hone.2
      rw [without_bom, if_neg hbom]
      apply every_line _ fun l _ => hmark l
      intro l hl
      have hboth := h l hl
      rwa [if_pos (hmark l)] at hboth
  · intro m hm
    obtain ⟨l, hl, hm⟩ := mem_flatMap.mp hm
    obtain ⟨hhanded, hit, hhit, rfl⟩ := mem_listing hm
    by_cases hmark : mark_of content l.2 = []
    · exact ⟨⟨l.2, l.1, hit⟩, same_shown hmark hhit, changes_at ((mem_numbered hmark).mp hl) hhit⟩
    -- Behind a mark nothing is listed.
    · have hboth := h _ (mem_with_mark hmark hl).2
      rw [if_neg hmark, tail_cons] at hboth
      rw [hboth.2 hhanded] at hhit
      exact absurd hhit not_mem_nil

theorem exists_listed {changed : List Change} {listed : List LineMatch} (h : List.Forall₂ (Same content) changed listed)
    {change : Change} (hin : change ∈ changed) : ∃ m ∈ listed, Same content change m := by
  induction h with
  | nil => exact absurd hin not_mem_nil
  | cons hsame _ ih =>
    rcases mem_cons.mp hin with rfl | hin
    · exact ⟨_, mem_cons_self, hsame⟩
    · obtain ⟨m, hm, hsame⟩ := ih hin
      exact ⟨m, mem_cons_of_mem _ hm, hsame⟩

/-- A column counted behind a byte order mark is not the one a replace counts from the mark. -/
theorem no_mark_of_one {m : LineMatch} {change : Change} (hsame : Same content change m)
    (hone : changes pattern content (some ⟨m.line, m.col⟩) = [change]) : mark_of content m.line = [] := by
  obtain ⟨l, -, hchange⟩ := mem_flatMap.mp (hone ▸ mem_cons_self : change ∈ changes pattern content _)
  obtain ⟨hit, hhit, rfl⟩ := List.mem_map.mp hchange
  obtain ⟨hline, -, before, occurrence, after, hraw, hstart, -, hcol, -⟩ := hsame
  rw [taken, if_pos hline, Option.mem_toList] at hhit
  have hat : m.col = utf16_len (slice_to (trim_end_matches l.1) hit.start) + 1 :=
    of_decide_eq_true (find?_eq_some_iff_append.mp hhit).1
  dsimp only at hraw hstart
  rw [hstart, hraw, append_assoc, slice_to_bytes, utf16_len_append, hcol] at hat
  by_contra hne
  have hpos := utf16_len_pos (hline ▸ hne)
  dsimp only at hpos
  omega

/-- A match that only one side sees is changed and not listed, or listed and not to be changed by itself. -/
theorem seen_of_changes (h : ChangesWhatItShows pattern content
    ((numbered (without_bom content)).flatMap fun l => listing pattern l.1 l.2)) : SeenByBoth pattern content := by
  -- a listed match that changes by itself has no mark before it
  have hunmarked : ∀ m ∈ (numbered (without_bom content)).flatMap (fun l => listing pattern l.1 l.2),
      mark_of content m.line = [] := by
    intro m hm
    obtain ⟨change, hsame, hone⟩ := h.one m hm
    exact no_mark_of_one hsame hone
  intro l hl
  -- a change is listed
  have hlisted : ∀ hit ∈ hits pattern (trim_end_matches l.1), mark_of content l.2 = []
      ∧ ∃ x ∈ numbered (without_bom content), x.2 = l.2 ∧ handed pattern x.1 = true := by
    intro hit hhit
    have hchange : Change.mk l.2 l.1 hit ∈ changes pattern content none :=
      mem_flatMap.mpr ⟨l, hl, List.mem_map_of_mem hhit⟩
    obtain ⟨m, hm, hsame⟩ := exists_listed h.every hchange
    obtain ⟨x, hx, hmx⟩ := mem_flatMap.mp hm
    obtain ⟨hhanded, _, -, rfl⟩ := mem_listing hmx
    have hline : x.2 = l.2 := hsame.line_eq
    have hnone : mark_of content x.2 = [] := hunmarked _ hm
    exact ⟨hline ▸ hnone, x, hx, hline, hhanded⟩
  split_ifs with hmark
  · intro hne
    obtain ⟨hit, hhit⟩ := exists_mem_of_ne_nil _ hne
    obtain ⟨-, x, hx, hline, hhanded⟩ := hlisted hit hhit
    have hx := (mem_numbered (hline ▸ hmark)).mp hx
    obtain ⟨before, after, heq, hbefore, hafter⟩ := numbered_split hl
    rw [heq] at hx
    rcases mem_append.mp hx with hx | hx
    · exact absurd hline (hbefore x hx)
    · rcases mem_cons.mp hx with rfl | hx
      · exact hhanded
      · exact absurd hline (hafter x hx)
  · refine ⟨?_, fun hhanded => ?_⟩
    · apply eq_nil_iff_forall_not_mem.mpr
      exact fun hit hhit => hmark (hlisted hit hhit).1
    · apply eq_nil_iff_forall_not_mem.mpr
      intro hit hhit
      obtain ⟨hline, -, htail⟩ := mem_of_mark hmark hl
      have hne : l.1.tail ≠ [] := by
        intro hnil
        rw [hnil] at hhit
        exact absurd (hits_nil pattern ▸ hhit) not_mem_nil
      have hin : shown 1 (trim_end_matches l.1.tail) hit ∈ listing pattern l.1.tail 1 := by
        rw [listing, if_pos hhanded]
        exact List.mem_map_of_mem hhit
      exact hmark (hline ▸ hunmarked _ (mem_flatMap.mpr ⟨_, htail hne, hin⟩))

end

/-- Where the search is not cut off, a replace writes the file with the matches it changes replaced,
and these are the ones listed exactly when no line shows a match to one side alone. -/
theorem replace_changes_shown_iff (pattern : Pattern) (content : Str) (limit : ℕ)
    (hroom : (search_file pattern content limit).length < limit) :
    (∀ at_, replace_text pattern content at_
        = ((numbered content).flatMap fun l => edited l.1 (taken pattern at_ l.2 l.1), (changes pattern content at_).length))
      ∧ (ChangesWhatItShows pattern content (search_file pattern content limit) ↔ SeenByBoth pattern content) := by
  refine ⟨replace_text_eq pattern content, ?_⟩
  rw [search_file, search_lines_eq _ _ hroom, nil_append]
  exact ⟨seen_of_changes, changes_of_seen⟩

/-- `a$` with the replacement `b`. -/
def last_a : Pattern where
  matcher :=
    { captures_iter := fun text =>
        if text.getLast? = some 'a' then [⟨(as_bytes text).length - 1, (as_bytes text).length, id⟩] else []
      in_order := by
        intro text
        split_ifs
        · exact pairwise_singleton _ _
        · exact .nil }
  replacer := some (.Literal ['b'])

theorem replace_changes_shown_last_a :
    ChangesWhatItShows last_a "ba\na".toList (search_file last_a "ba\na".toList 5000) := by
  refine (replace_changes_shown_iff last_a "ba\na".toList 5000 (by decide)).2.mpr ?_
  refine forall_mem_cons.mpr ⟨?_, forall_mem_singleton.mpr ?_⟩
  · exact fun _ => by decide
  · exact fun _ => by decide

/-- Before the `a` at the end of a line with a carriage return the searcher sees no match of `a$`,
and the replace changes it. -/
theorem carriage_return_changed : search_file last_a "a\r\n".toList 5000 = []
    ∧ replace_text last_a "a\r\n".toList none = ("b\r\n".toList, 1)
    ∧ ¬ ChangesWhatItShows last_a "a\r\n".toList (search_file last_a "a\r\n".toList 5000) := by
  have hnone : search_file last_a "a\r\n".toList 5000 = [] := rfl
  refine ⟨hnone, by decide, fun h => ?_⟩
  have hlen : (changes last_a "a\r\n".toList none).length = 0 := (hnone ▸ h.every).length_eq
  exact absurd hlen (by decide)

end Lpm.Search
