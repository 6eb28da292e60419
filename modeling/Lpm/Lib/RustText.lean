/-
Text as the Rust standard library reads it, over lists of characters: the
splitting, trimming and number parsing of `str`, and the components of a
relative `Path` on a Unix host.

The functions keep their Rust names. A `str` is a list of characters here, which
is what its `chars()` gives; comparing two of them goes by code point either way.
-/
import Mathlib.Algebra.Order.Ring.Int

set_option autoImplicit false

namespace RustText

open List Option

/-- The characters of a Rust `str`. -/
abbrev Str := List Char

scoped instance lawful_str : LawfulBEq Str := inferInstance

/-! ## Splitting -/

/-- `str::split_once`: what stands before and after the first `c`. -/
def split_once (c : Char) : Str → Option (Str × Str)
  | [] => none
  | x :: xs =>
    if x = c then some ([], xs)
    else (split_once c xs).map fun (a, b) => (x :: a, b)

/-- `str::rsplit_once`: what stands before and after the last `c`. -/
def rsplit_once (c : Char) (s : Str) : Option (Str × Str) :=
  (split_once c s.reverse).map fun (a, b) => (b.reverse, a.reverse)

/-- `str::strip_prefix`. -/
def strip_prefix (p s : Str) : Option Str :=
  if p.isPrefixOf s then some (s.drop p.length) else none

/-- `str::strip_suffix` for one character. -/
def strip_suffix (c : Char) (s : Str) : Option Str :=
  if s.getLast? = some c then some s.dropLast else none

/-- `split_once` cuts the text at the separator and nowhere else. -/
theorem split_once_eq {c : Char} {s a b : Str} (h : split_once c s = some (a, b)) :
    s = a ++ c :: b ∧ c ∉ a := by
  induction s generalizing a b with
  | nil => simp [split_once] at h
  | cons x xs ih =>
    rw [split_once] at h
    by_cases hx : x = c
    · rw [if_pos hx] at h
      obtain ⟨rfl, rfl⟩ : [] = a ∧ xs = b := by simpa using h
      simp [hx]
    · rw [if_neg hx] at h
      obtain ⟨⟨a', b'⟩, hsome, heq⟩ := map_eq_some_iff.mp h
      obtain ⟨rfl, rfl⟩ : x :: a' = a ∧ b' = b := by simpa using heq
      obtain ⟨hxs, hc⟩ := ih hsome
      exact ⟨by simp [hxs], by simp [hc, Ne.symm hx]⟩

/-- And a text put together around its first separator is cut there. -/
theorem split_once_append {c : Char} {a : Str} (h : c ∉ a) (b : Str) :
    split_once c (a ++ c :: b) = some (a, b) := by
  induction a with
  | nil => simp [split_once]
  | cons x xs ih =>
    rw [mem_cons, not_or] at h
    rw [cons_append, split_once, if_neg (Ne.symm h.1), ih h.2]
    rfl

/-- A text that is not cut has no separator. -/
theorem split_once_eq_none {c : Char} {s : Str} (h : split_once c s = none) : c ∉ s := by
  induction s with
  | nil => simp
  | cons x xs ih =>
    rw [split_once] at h
    by_cases hx : x = c
    · rw [if_pos hx] at h
      exact absurd h (by simp)
    · rw [if_neg hx, map_eq_none_iff] at h
      rw [mem_cons, not_or]
      exact ⟨Ne.symm hx, ih h⟩

theorem split_once_none {c : Char} {s : Str} (h : c ∉ s) : split_once c s = none := by
  cases hs : split_once c s with
  | none => rfl
  | some ab =>
    obtain ⟨heq, -⟩ := split_once_eq hs
    rw [heq] at h
    exact absurd (mem_append_right _ mem_cons_self) h

theorem strip_prefix_append (p s : Str) : strip_prefix p (p ++ s) = some s := by
  unfold strip_prefix
  rw [if_pos (by simp), drop_left]

theorem strip_prefix_eq {p s rest : Str} (h : strip_prefix p s = some rest) : s = p ++ rest := by
  unfold strip_prefix at h
  split_ifs at h with hpre
  obtain ⟨t, rfl⟩ := isPrefixOf_iff_prefix.mp hpre
  rw [drop_left] at h
  rw [some.inj h]

/-! ## White space -/

/-- Unicode's `White_Space` property, which is `char::is_whitespace`. -/
def is_whitespace (c : Char) : Bool :=
  let n := c.toNat
  (9 ≤ n && n ≤ 13) || n == 32 || n == 0x85 || n == 0xA0 || n == 0x1680
    || (0x2000 ≤ n && n ≤ 0x200A) || n == 0x2028 || n == 0x2029 || n == 0x202F
    || n == 0x205F || n == 0x3000

variable (s : Str)

/-- `str::trim`. -/
def trim : Str :=
  ((s.dropWhile is_whitespace).reverse.dropWhile is_whitespace).reverse

/-- `str::trim_end`. -/
def trim_end : Str := (s.reverse.dropWhile is_whitespace).reverse

/-- `str::lines().next()`, with nothing for no line: the first line without its ending. -/
def first_line : Str :=
  match split_once '\n' s with
  | some (line, _) => (strip_suffix '\r' line).getD line
  | none => s

/-- `str::ends_with`. -/
def ends_with (s t : Str) : Bool := t.isSuffixOf s

/-- `str::split_whitespace`: the runs between white space, none of them empty. -/
def split_whitespace : List Str :=
  (s.splitOnP is_whitespace).filter fun w => !w.isEmpty

/-- No piece of a split text has a separator in it. -/
theorem no_sep_of_mem_splitOnP {p : Char → Bool} {s path : Str} (h : s ∈ path.splitOnP p) :
    ∀ c ∈ s, p c = false := by
  induction path generalizing s with
  | nil =>
    rw [splitOnP_nil, mem_singleton] at h
    rw [h]
    exact fun c hc => nomatch hc
  | cons c path ih =>
    rw [splitOnP_cons_eq_if_modifyHead] at h
    by_cases hc : p c = true
    · rw [if_pos hc, mem_cons] at h
      rcases h with rfl | h
      · exact fun c hc => nomatch hc
      · exact ih h
    · rw [if_neg hc] at h
      obtain ⟨first, segs, hsplit⟩ := exists_cons_of_ne_nil (splitOnP_ne_nil p path)
      rw [hsplit, modifyHead_cons, mem_cons] at h
      rw [hsplit] at ih
      rcases h with rfl | h
      · intro d hd
        rcases mem_cons.mp hd with rfl | hd
        · exact Bool.eq_false_iff.mpr hc
        · exact ih mem_cons_self d hd
      · exact ih (mem_cons_of_mem _ h)

/-- `[&str]::join(" ")`. -/
def join_words (words : List Str) : Str := List.intercalate [' '] words

/-! ## Case -/

/-- `str::to_ascii_lowercase`. -/
def to_ascii_lowercase : Str := s.map Char.toLower

/-- `str::eq_ignore_ascii_case`. -/
def eq_ignore_ascii_case (a b : Str) : Bool := to_ascii_lowercase a == to_ascii_lowercase b

/-! ## Numbers -/

/-- The digits of an unsigned number, most significant first; none of them may be
anything but a digit, and there has to be one. -/
def parse_digits : Str → Option ℕ
  | [] => none
  | s => if s.all Char.isDigit then some (s.foldl (fun n c => 10 * n + (c.toNat - 48)) 0) else none

/-- `str::parse::<uN>()` with `bound = 2^N`: digits after at most one `+`. -/
def parse_unsigned (bound : ℕ) (s : Str) : Option ℕ :=
  let digits := match s with
    | '+' :: rest => rest
    | rest => rest
  (parse_digits digits).filter (· < bound)

/-- `str::parse::<u32>()`. -/
def parse_u32 : Option ℕ := parse_unsigned (2 ^ 32) s

/-- `str::parse::<u64>()`. -/
def parse_u64 : Option ℕ := parse_unsigned (2 ^ 64) s

/-- `str::parse::<i64>()`. -/
def parse_i64 : Option ℤ :=
  match s with
  | '-' :: rest => ((parse_digits rest).filter (· ≤ 2 ^ 63)).map fun n => -(n : ℤ)
  | _ => (parse_unsigned (2 ^ 63) s).map fun n => (n : ℤ)

/-- `str::parse::<i32>()`. -/
def parse_i32 : Option ℤ :=
  match s with
  | '-' :: rest => ((parse_digits rest).filter (· ≤ 2 ^ 31)).map fun n => -(n : ℤ)
  | _ => (parse_unsigned (2 ^ 31) s).map fun n => (n : ℤ)

theorem parse_unsigned_lt {bound n : ℕ} {s : Str} (h : parse_unsigned bound s = some n) :
    n < bound := by
  simp only [parse_unsigned, filter_eq_some_iff, decide_eq_true_eq] at h
  exact h.2

/-! ## Paths -/

/-- A component of a Unix path, as `Path::components` gives it. -/
inductive Component where
  | root_dir
  | cur_dir
  | parent_dir
  | normal (name : Str)
  deriving DecidableEq

/-- `Path::components`: repeated and trailing separators and every `.` but a
leading one are dropped. -/
def components (p : Str) : List Component :=
  let parts := p.splitOn '/'
  let lead : List Component :=
    if p.head? = some '/' then [.root_dir]
    else if parts.head? = some ['.'] then [.cur_dir]
    else []
  lead ++ parts.filterMap fun part =>
    if part = [] ∨ part = ['.'] then none
    else if part = ['.', '.'] then some .parent_dir
    else some (.normal part)

/-- `Path::file_name`: the last component when it is a name. -/
def file_name (p : Str) : Option Str :=
  match (components p).getLast? with
  | some (.normal name) => some name
  | _ => none

/-- `Path::starts_with`: whole components, not characters. -/
def path_starts_with (p base : Str) : Bool := (components base).isPrefixOf (components p)

end RustText
