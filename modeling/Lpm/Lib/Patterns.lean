/-
A text searched for another: `str::find`, `str::contains` and `str::replace` with a `&str`
pattern, and the words of a text from the left.

Replacing in a text that is put together goes piece by piece as long as no occurrence of the
pattern lies across two pieces.
-/
import Lpm.Lib.RustText
import Mathlib.Data.List.TakeWhile

set_option autoImplicit false

namespace RustText

open List Option

/-! ## The first occurrence -/

/-- `str::find` of a pattern, as the text before its first occurrence and the text after. -/
def split_str (pat : Str) : Str → Option (Str × Str)
  | [] => if pat = [] then some ([], []) else none
  | c :: s =>
    if pat.isPrefixOf (c :: s) then some ([], (c :: s).drop pat.length)
    else (split_str pat s).map fun (a, b) => (c :: a, b)

/-- `str::contains`. -/
def contains (pat s : Str) : Bool := (split_str pat s).isSome

section
variable {pat rep s a b : Str} {c : Char}

theorem split_str_eq (h : split_str pat s = some (a, b)) : s = a ++ pat ++ b := by
  induction s generalizing a b with
  | nil =>
    rw [split_str] at h
    split_ifs at h with hpat
    obtain ⟨rfl, rfl⟩ : [] = a ∧ [] = b := by simpa using h
    rw [hpat]
    rfl
  | cons c s ih =>
    rw [split_str] at h
    split_ifs at h with hpre
    · obtain ⟨rfl, rfl⟩ : [] = a ∧ (c :: s).drop pat.length = b := by simpa using h
      obtain ⟨t, ht⟩ := isPrefixOf_iff_prefix.mp hpre
      rw [← ht, drop_left]
      rfl
    · obtain ⟨⟨a', b'⟩, hsome, heq⟩ := map_eq_some_iff.mp h
      obtain ⟨rfl, rfl⟩ : c :: a' = a ∧ b' = b := by simpa using heq
      rw [ih hsome]
      rfl

/-- What comes behind does not change the first occurrence. -/
theorem split_str_append (h : split_str pat s = some (a, b)) (hpat : pat ≠ []) (t : Str) :
    split_str pat (s ++ t) = some (a, b ++ t) := by
  induction s generalizing a b with
  | nil =>
    rw [split_str, if_neg hpat] at h
    exact nomatch h
  | cons c s ih =>
    rw [split_str] at h
    rw [cons_append, split_str]
    split_ifs at h with hpre
    · obtain ⟨rfl, rfl⟩ : [] = a ∧ (c :: s).drop pat.length = b := by simpa using h
      have hlong := (List.isPrefixOf_iff_prefix.mp hpre).length_le
      have hpre' : pat.isPrefixOf (c :: (s ++ t)) = true :=
        isPrefixOf_iff_prefix.mpr ((List.isPrefixOf_iff_prefix.mp hpre).trans (prefix_append (c :: s) t))
      rw [if_pos hpre', ← cons_append, drop_append_of_le_length hlong]
    · obtain ⟨⟨a', b'⟩, hsome, heq⟩ := map_eq_some_iff.mp h
      obtain ⟨rfl, rfl⟩ : c :: a' = a ∧ b' = b := by simpa using heq
      have hpre' : ¬pat.isPrefixOf (c :: (s ++ t)) = true := by
        intro hpre'
        have hlong : pat.length ≤ (c :: s).length := by
          have hlen := congrArg List.length (split_str_eq hsome)
          simp only [length_append, length_cons] at hlen ⊢
          omega
        exact hpre (List.isPrefixOf_iff_prefix.mpr
          (prefix_of_prefix_length_le (List.isPrefixOf_iff_prefix.mp hpre') (prefix_append (c :: s) t) hlong))
      rw [if_neg hpre', ih hsome]
      rfl

/-- Where no occurrence begins, the first one is further on. -/
theorem split_str_keep (h : ∀ i < a.length, ¬pat <+: (a ++ b).drop i) :
    split_str pat (a ++ b) = (split_str pat b).map fun (x, y) => (a ++ x, y) := by
  induction a with
  | nil => simp
  | cons c a ih =>
    have hfirst : ¬pat.isPrefixOf (c :: (a ++ b)) = true := fun hpre =>
      h 0 (Nat.succ_pos _) (List.isPrefixOf_iff_prefix.mp hpre)
    rw [cons_append, split_str, if_neg hfirst, ih fun i hi => h (i + 1) (Nat.succ_lt_succ hi), Option.map_map]
    rfl

/-- At the place it begins, an occurrence is found at once. -/
theorem split_str_self (hpat : pat ≠ []) (t : Str) : split_str pat (pat ++ t) = some ([], t) := by
  obtain ⟨c, p, rfl⟩ := exists_cons_of_ne_nil hpat
  have hpre : (c :: p).isPrefixOf (c :: (p ++ t)) = true :=
    isPrefixOf_iff_prefix.mpr (prefix_append (c :: p) t)
  rw [cons_append, split_str, if_pos hpre, ← cons_append, drop_left]

/-- An occurrence is found wherever it begins. -/
theorem contains_iff : contains pat s = true ↔ ∃ i, i ≤ s.length ∧ pat <+: s.drop i := by
  induction s with
  | nil =>
    rw [contains, split_str]
    split_ifs with hpat
    · exact ⟨fun _ => ⟨0, Nat.le_refl 0, hpat ▸ nil_prefix⟩, fun _ => rfl⟩
    · refine ⟨fun h => (nomatch h), fun ⟨i, _, h⟩ => ?_⟩
      rw [drop_nil, prefix_nil] at h
      exact absurd h hpat
  | cons c s ih =>
    rw [contains, split_str]
    split_ifs with hpre
    · exact ⟨fun _ => ⟨0, Nat.zero_le _, isPrefixOf_iff_prefix.mp hpre⟩, fun _ => rfl⟩
    · rw [isSome_map]
      refine ih.trans ⟨fun ⟨i, hi, h⟩ => ⟨i + 1, Nat.succ_le_succ hi, h⟩, fun ⟨i, hi, h⟩ => ?_⟩
      cases i with
      | zero => exact absurd (List.isPrefixOf_iff_prefix.mpr h) hpre
      | succ i => exact ⟨i, Nat.le_of_succ_le_succ hi, h⟩

/-! ## Replacing -/

/-- `str::replace` with the next characters of the text passed over, which are those of an
occurrence that was replaced. -/
def replace_after (pat rep : Str) : ℕ → Str → Str
  | _, [] => []
  | n + 1, _ :: s => replace_after pat rep n s
  | 0, c :: s =>
    if pat.isPrefixOf (c :: s) then rep ++ replace_after pat rep (pat.length - 1) s
    else c :: replace_after pat rep 0 s

/-- `str::replace` of a pattern that is not empty. -/
def replace (pat rep s : Str) : Str := replace_after pat rep 0 s

theorem replace_after_append (hpat : pat ≠ []) (n : ℕ) (hn : n ≤ a.length)
    (h : ∀ i < a.length, pat <+: (a ++ b).drop i → i + pat.length ≤ a.length) :
    replace_after pat rep n (a ++ b) = replace_after pat rep n a ++ replace pat rep b := by
  induction a generalizing n with
  | nil =>
    obtain rfl : n = 0 := Nat.le_zero.mp hn
    rfl
  | cons c a ih =>
    have hrest : ∀ i < a.length, pat <+: (a ++ b).drop i → i + pat.length ≤ a.length := by
      intro i hi hpre
      have hlen := h (i + 1) (Nat.succ_lt_succ hi) hpre
      rw [length_cons] at hlen
      omega
    cases n with
    | succ n => exact ih n (Nat.le_of_succ_le_succ hn) hrest
    | zero =>
      rw [cons_append, replace_after, replace_after]
      by_cases hpre : pat.isPrefixOf (c :: (a ++ b)) = true
      · have hlen := h 0 (Nat.zero_lt_succ _) (List.isPrefixOf_iff_prefix.mp hpre)
        have hhere : pat.isPrefixOf (c :: a) = true := by
          rw [List.isPrefixOf_iff_prefix]
          refine prefix_of_prefix_length_le (List.isPrefixOf_iff_prefix.mp hpre)
            (prefix_append (c :: a) b) ?_
          omega
        rw [length_cons] at hlen
        have hpos : 0 < pat.length := length_pos_iff.mpr hpat
        rw [if_pos hpre, if_pos hhere, ih (pat.length - 1) (by omega) hrest, append_assoc]
      · have hhere : pat.isPrefixOf (c :: a) ≠ true := by
          intro hhere
          rw [List.isPrefixOf_iff_prefix] at hhere
          exact hpre (List.isPrefixOf_iff_prefix.mpr (hhere.trans (prefix_append (c :: a) b)))
        rw [if_neg hpre, if_neg hhere, ih 0 (Nat.zero_le _) hrest]
        rfl

/-- Two pieces that no occurrence lies across are replaced in one by one. -/
theorem replace_append (hpat : pat ≠ []) (h : ∀ i < a.length, pat <+: (a ++ b).drop i → i + pat.length ≤ a.length) :
    replace pat rep (a ++ b) = replace pat rep a ++ replace pat rep b :=
  replace_after_append hpat 0 (Nat.zero_le _) h

/-- A piece in which no occurrence begins stays. -/
theorem replace_keep (h : ∀ i < a.length, ¬pat <+: (a ++ b).drop i) :
    replace pat rep (a ++ b) = a ++ replace pat rep b := by
  induction a with
  | nil => rfl
  | cons c a ih =>
    have hhere : ¬pat.isPrefixOf (c :: (a ++ b)) = true := fun hpre =>
      h 0 (Nat.zero_lt_succ _) (List.isPrefixOf_iff_prefix.mp hpre)
    rw [cons_append, replace, replace_after, if_neg hhere]
    exact congrArg (c :: ·) (ih fun i hi hpre => h (i + 1) (Nat.succ_lt_succ hi) hpre)

/-! ## Pieces -/

/-- An occurrence does not reach over a character that the pattern has not. -/
theorem length_le_of_not_mem (hc : c ∉ pat) {i : ℕ} (hi : i ≤ a.length)
    (h : pat <+: (a ++ c :: b).drop i) : i + pat.length ≤ a.length := by
  rw [drop_append_of_le_length hi] at h
  by_contra hlong
  have hlen : (a.drop i).length = a.length - i := length_drop
  have hlt : (a.drop i).length < pat.length := by omega
  have hget := List.IsPrefix.getElem h hlt
  rw [getElem_append_right (Nat.le_refl _)] at hget
  simp only [Nat.sub_self, getElem_cons_zero] at hget
  exact hc (hget ▸ getElem_mem hlt)

/-- A pattern with a character that the text has not does not occur. -/
theorem contains_false (hc : c ∈ pat) (hs : c ∉ s) : contains pat s = false := by
  rw [Bool.eq_false_iff]
  intro h
  obtain ⟨i, -, hpre⟩ := contains_iff.mp h
  exact hs (mem_of_mem_drop (hpre.subset hc))

/-- Two pieces that no occurrence lies across hold what either holds. -/
theorem contains_append (h : ∀ i < a.length, pat <+: (a ++ b).drop i → i + pat.length ≤ a.length) :
    contains pat (a ++ b) = true ↔ contains pat a = true ∨ contains pat b = true := by
  rw [contains_iff, contains_iff, contains_iff]
  constructor
  · rintro ⟨i, hi, hpre⟩
    by_cases hia : i < a.length
    · refine Or.inl ⟨i, Nat.le_of_lt hia, ?_⟩
      have hlen := h i hia hpre
      rw [drop_append_of_le_length (Nat.le_of_lt hia)] at hpre
      refine prefix_of_prefix_length_le hpre (prefix_append _ _) ?_
      rw [length_drop]
      omega
    · rw [length_append] at hi
      refine Or.inr ⟨i - a.length, by omega, ?_⟩
      rw [drop_append, drop_eq_nil_of_le (Nat.le_of_not_lt hia), nil_append] at hpre
      exact hpre
  · rintro (⟨i, hi, hpre⟩ | ⟨i, hi, hpre⟩)
    · refine ⟨i, by rw [length_append]; omega, ?_⟩
      rw [drop_append_of_le_length hi]
      exact hpre.trans (prefix_append _ _)
    · refine ⟨a.length + i, by rw [length_append]; omega, ?_⟩
      rw [drop_length_add_append]
      exact hpre

/-- A piece in which no occurrence begins adds none. -/
theorem contains_keep (h : ∀ i < a.length, ¬pat <+: (a ++ b).drop i) :
    contains pat (a ++ b) = true ↔ contains pat b = true := by
  rw [contains_iff, contains_iff]
  constructor
  · rintro ⟨i, hi, hpre⟩
    by_cases hia : i < a.length
    · exact absurd hpre (h i hia)
    · rw [length_append] at hi
      refine ⟨i - a.length, by omega, ?_⟩
      rw [drop_append, drop_eq_nil_of_le (Nat.le_of_not_lt hia), nil_append] at hpre
      exact hpre
  · rintro ⟨i, hi, hpre⟩
    refine ⟨a.length + i, by rw [length_append]; omega, ?_⟩
    rw [drop_length_add_append]
    exact hpre

/-! ## Words -/

/-- `str::trim_start`. -/
def trim_start (s : Str) : Str := s.dropWhile is_whitespace

/-- White space in front makes no word. -/
theorem split_whitespace_cons (h : is_whitespace c = true) : split_whitespace (c :: s) = split_whitespace s := by
  unfold split_whitespace
  rw [splitOnP_cons_eq_if_modifyHead, if_pos h]
  rfl

theorem split_whitespace_spaces (h : ∀ c ∈ a, is_whitespace c = true) :
    split_whitespace (a ++ s) = split_whitespace s := by
  induction a with
  | nil => rfl
  | cons c a ih =>
    rw [cons_append, split_whitespace_cons (h c mem_cons_self),
      ih fun c hc => h c (mem_cons_of_mem _ hc)]

theorem split_whitespace_trim_start (s : Str) : split_whitespace (trim_start s) = split_whitespace s := by
  have hsplit : s.takeWhile is_whitespace ++ trim_start s = s := takeWhile_append_dropWhile
  conv_rhs => rw [← hsplit]
  exact (split_whitespace_spaces fun c hc => mem_takeWhile_imp hc).symm

/-- Trimming takes away white space only. -/
theorem mem_trim (hc : c ∈ s) : is_whitespace c = true ∨ c ∈ trim s := by
  have hdrop : ∀ {c : Char} {s : Str}, c ∈ s → is_whitespace c = true ∨ c ∈ s.dropWhile is_whitespace := by
    intro c s hc
    rw [← @takeWhile_append_dropWhile _ is_whitespace s] at hc
    rcases mem_append.mp hc with htake | hdrop
    · exact Or.inl (mem_takeWhile_imp htake)
    · exact Or.inr hdrop
  rcases hdrop hc with hspace | hin
  · exact Or.inl hspace
  · rcases hdrop (mem_reverse.mpr hin) with hspace | hin
    · exact Or.inl hspace
    · exact Or.inr (mem_reverse.mpr hin)

theorem trim_start_head {s : Str} : ∀ c ∈ (trim_start s).head?, is_whitespace c = false := by
  intro c hc
  have hnot := head?_dropWhile_not is_whitespace s
  rw [trim_start] at hc
  rw [mem_def.mp hc] at hnot
  simpa using hnot

theorem trim_head {s : Str} : ∀ c ∈ (trim s).head?, is_whitespace c = false := by
  intro c hc
  have hpre : trim s <+: trim_start s := reverse_suffix.mp (by
    rw [trim, reverse_reverse]
    exact dropWhile_suffix _)
  obtain ⟨t, ht⟩ := hpre
  refine @trim_start_head s c ?_
  rw [← ht]
  cases hs : trim s with
  | nil =>
    rw [hs] at hc
    exact nomatch hc
  | cons d s =>
    rw [hs] at hc
    exact hc

theorem dropWhile_of_head {p : Char → Bool} {s : Str} (h : ∀ c ∈ s.head?, p c = false) : s.dropWhile p = s := by
  cases s with
  | nil => rfl
  | cons c s => rw [dropWhile_cons_of_neg (by rw [h c rfl]; exact Bool.false_ne_true)]

theorem trim_trim (s : Str) : trim (trim s) = trim s := by
  have hfront : (trim s).dropWhile is_whitespace = trim s := dropWhile_of_head trim_head
  have hback : (trim s).reverse.dropWhile is_whitespace = (trim s).reverse := by
    rw [trim, reverse_reverse]
    exact dropWhile_of_head trim_start_head
  conv_lhs => rw [trim, hfront, hback, reverse_reverse]

/-- A word up to white space or the end. -/
theorem split_whitespace_word (ha : a ≠ []) (hword : ∀ c ∈ a, is_whitespace c = false)
    (hs : ∀ c ∈ s.head?, is_whitespace c = true) : split_whitespace (a ++ s) = a :: split_whitespace s := by
  have hne : (!a.isEmpty) = true := by simpa using ha
  unfold split_whitespace
  cases s with
  | nil =>
    rw [append_nil, splitOnP_eq_singleton hword, splitOnP_nil]
    simp [ha]
  | cons c s =>
    have hc : is_whitespace c = true := hs c rfl
    rw [splitOnP_append_cons_of_forall_mem hword c hc, splitOnP_cons_eq_if_modifyHead, if_pos hc,
      filter_cons_of_pos (p := fun w : Str => !w.isEmpty) hne]
    rfl

end

end RustText
