/-
UTF-8 as the Rust standard library writes and reads it: the bytes of a `str`, and
`String::from_utf8_lossy`, which reads any bytes at all and puts U+FFFD where they are
not text.

A sequence that breaks off is replaced as a whole, up to the byte that breaks it, and
reading goes on at that byte. So bytes that start in the middle of a character lose
that character and nothing behind it.
-/
import Lpm.Lib.RustText
import Mathlib.Data.List.DropRight

set_option autoImplicit false

open RustText

namespace Utf8

open List

/-- `str::as_bytes`. -/
def as_bytes (s : Str) : List UInt8 := s.flatMap String.utf8EncodeChar

/-- `char::REPLACEMENT_CHARACTER`. -/
def REPLACEMENT_CHARACTER : Char := '\uFFFD'

/-! ## Reading -/

/-- How long a sequence is, from its first byte: 0 for a byte that starts none. -/
def utf8_char_width (b : ℕ) : ℕ :=
  if b < 0x80 then 1
  else if b < 0xC2 then 0
  else if b < 0xE0 then 2
  else if b < 0xF0 then 3
  else if b < 0xF5 then 4
  else 0

/-- A continuation byte. -/
def is_cont (b : ℕ) : Prop := 0x80 ≤ b ∧ b < 0xC0

instance (b : ℕ) : Decidable (is_cont b) := inferInstanceAs (Decidable (_ ∧ _))

/-- The second byte of a sequence of three or four: narrower than a continuation byte
behind the first bytes of overlong forms, surrogates and code points that are too big. -/
def second_fits (b x : ℕ) : Prop :=
  is_cont x ∧ (b = 0xE0 → 0xA0 ≤ x) ∧ (b = 0xED → x < 0xA0) ∧ (b = 0xF0 → 0x90 ≤ x)
    ∧ (b = 0xF4 → x < 0x90)

instance (b x : ℕ) : Decidable (second_fits b x) := inferInstanceAs (Decidable (_ ∧ _))

/-- The byte at a place, 0 past the end. -/
def safe_get (bytes : List UInt8) (i : ℕ) : ℕ := (bytes.getD i 0).toNat

/-- One turn of `Utf8Chunks::next`: the character that starts at `b`, if one does, and
how many of the bytes after `b` are read with it. -/
def next (b : ℕ) (rest : List UInt8) : Option Char × ℕ :=
  let x := safe_get rest 0
  let y := safe_get rest 1
  let z := safe_get rest 2
  match utf8_char_width b with
  | 1 => (some (Char.ofNat b), 0)
  | 2 =>
    if is_cont x then (some (Char.ofNat (b % 32 * 64 + x % 64)), 1) else (none, 0)
  | 3 =>
    if ¬ second_fits b x then (none, 0)
    else if ¬ is_cont y then (none, 1)
    else (some (Char.ofNat (b % 16 * 4096 + x % 64 * 64 + y % 64)), 2)
  | 4 =>
    if ¬ second_fits b x then (none, 0)
    else if ¬ is_cont y then (none, 1)
    else if ¬ is_cont z then (none, 2)
    else (some (Char.ofNat (b % 8 * 262144 + x % 64 * 4096 + y % 64 * 64 + z % 64)), 3)
  | _ => (none, 0)

/-- `String::from_utf8_lossy`. -/
def from_utf8_lossy : List UInt8 → Str
  | [] => []
  | b :: rest =>
    (next b.toNat rest).1.getD REPLACEMENT_CHARACTER
      :: from_utf8_lossy (rest.drop (next b.toNat rest).2)
termination_by bytes => bytes.length
decreasing_by simp only [length_drop, length_cons]; omega

@[simp] theorem from_utf8_lossy_nil : from_utf8_lossy [] = [] := by
  rw [from_utf8_lossy]

/-! ## The bytes of a text -/

@[simp] theorem as_bytes_nil : as_bytes [] = [] := rfl

@[simp] theorem as_bytes_cons (c : Char) (s : Str) :
    as_bytes (c :: s) = String.utf8EncodeChar c ++ as_bytes s := rfl

@[simp] theorem as_bytes_append (s t : Str) : as_bytes (s ++ t) = as_bytes s ++ as_bytes t :=
  flatMap_append

/-- The code points there are: no surrogates, and none past U+10FFFF. -/
theorem code_point (c : Char) :
    c.val.toNat < 0xD800 ∨ 0xDFFF < c.val.toNat ∧ c.val.toNat < 0x110000 :=
  c.valid

theorem toNat_ofNat_lt {n : ℕ} (h : n < 256) : (UInt8.ofNat n).toNat = n :=
  UInt8.toNat_ofNat_of_lt' h

section
variable {b : ℕ} {x y z : UInt8} (rest : List UInt8)

theorem next_one (h : b < 0x80) : next b rest = (some (Char.ofNat b), 0) := by
  have hw : utf8_char_width b = 1 := if_pos h
  unfold next
  rw [hw]
  rfl

theorem next_two (h : 0xC2 ≤ b ∧ b < 0xE0) (hx : is_cont x.toNat) :
    next b (x :: rest) = (some (Char.ofNat (b % 32 * 64 + x.toNat % 64)), 1) := by
  have hw : utf8_char_width b = 2 := by
    unfold utf8_char_width
    split_ifs <;> omega
  unfold next
  rw [hw]
  exact if_pos hx

theorem next_three (h : 0xE0 ≤ b ∧ b < 0xF0) (hx : second_fits b x.toNat)
    (hy : is_cont y.toNat) :
    next b (x :: y :: rest)
      = (some (Char.ofNat (b % 16 * 4096 + x.toNat % 64 * 64 + y.toNat % 64)), 2) := by
  have hw : utf8_char_width b = 3 := by
    unfold utf8_char_width
    split_ifs <;> omega
  unfold next
  rw [hw]
  exact (if_neg (not_not.mpr hx)).trans (if_neg (not_not.mpr hy))

theorem next_four (h : 0xF0 ≤ b ∧ b < 0xF5) (hx : second_fits b x.toNat)
    (hy : is_cont y.toNat) (hz : is_cont z.toNat) :
    next b (x :: y :: z :: rest)
      = (some (Char.ofNat (b % 8 * 262144 + x.toNat % 64 * 4096 + y.toNat % 64 * 64
          + z.toNat % 64)), 3) := by
  have hw : utf8_char_width b = 4 := by
    unfold utf8_char_width
    split_ifs <;> omega
  unfold next
  rw [hw]
  exact (if_neg (not_not.mpr hx)).trans
    ((if_neg (not_not.mpr hy)).trans (if_neg (not_not.mpr hz)))

end

/-- A byte that starts no sequence is an error by itself. -/
theorem next_cont {b : ℕ} (h : is_cont b) (rest : List UInt8) : next b rest = (none, 0) := by
  have hw : utf8_char_width b = 0 := by
    unfold utf8_char_width
    unfold is_cont at h
    split_ifs <;> omega
  unfold next
  rw [hw]
  rfl

theorem is_cont_low (n : ℕ) : is_cont (UInt8.ofNat (n % 64 + 128)).toNat := by
  rw [toNat_ofNat_lt (by omega)]
  exact ⟨by omega, by omega⟩

variable (c : Char)

/-- Reading at a character's first byte gives the character back, and takes its bytes. -/
theorem next_encode (rest : List UInt8) :
    ∃ b tail, String.utf8EncodeChar c = b :: tail
      ∧ next b.toNat (tail ++ rest) = (some c, tail.length) := by
  have hpoint := code_point c
  have hback : Char.ofNat c.val.toNat = c := Char.ofNat_toNat c
  rw [String.utf8EncodeChar]
  generalize c.val.toNat = v at hpoint hback ⊢
  -- one case for each length of the encoding
  by_cases h1 : v ≤ 0x7f
  · refine ⟨_, _, by rw [if_pos h1], ?_⟩
    rw [toNat_ofNat_lt (by omega), next_one _ (by omega), hback]
    rfl
  rw [if_neg h1]
  by_cases h2 : v ≤ 0x7ff
  · refine ⟨_, _, by rw [if_pos h2], ?_⟩
    rw [toNat_ofNat_lt (by omega), cons_append,
      next_two _ (by omega) (is_cont_low v), toNat_ofNat_lt (by omega)]
    rw [show (v / 64 % 32 + 192) % 32 * 64 + (v % 64 + 128) % 64 = v by omega, hback]
    rfl
  rw [if_neg h2]
  by_cases h3 : v ≤ 0xffff
  · refine ⟨_, _, by rw [if_pos h3], ?_⟩
    have hx : second_fits (v / 4096 % 16 + 224) (UInt8.ofNat (v / 64 % 64 + 128)).toNat := by
      refine ⟨is_cont_low _, ?_⟩
      rw [toNat_ofNat_lt (by omega)]
      omega
    rw [toNat_ofNat_lt (by omega), cons_append, cons_append,
      next_three _ (by omega) hx (is_cont_low v), toNat_ofNat_lt (by omega),
      toNat_ofNat_lt (by omega)]
    rw [show (v / 4096 % 16 + 224) % 16 * 4096 + (v / 64 % 64 + 128) % 64 * 64
      + (v % 64 + 128) % 64 = v by omega, hback]
    rfl
  · refine ⟨_, _, by rw [if_neg h3], ?_⟩
    have hx : second_fits (v / 262144 % 8 + 240) (UInt8.ofNat (v / 4096 % 64 + 128)).toNat := by
      refine ⟨is_cont_low _, ?_⟩
      rw [toNat_ofNat_lt (by omega)]
      omega
    rw [toNat_ofNat_lt (by omega), cons_append, cons_append, cons_append,
      next_four _ (by omega) hx (is_cont_low _) (is_cont_low v), toNat_ofNat_lt (by omega),
      toNat_ofNat_lt (by omega), toNat_ofNat_lt (by omega)]
    rw [show (v / 262144 % 8 + 240) % 8 * 262144 + (v / 4096 % 64 + 128) % 64 * 4096
      + (v / 64 % 64 + 128) % 64 * 64 + (v % 64 + 128) % 64 = v by omega, hback]
    rfl

/-- Every byte of a character but its first is a continuation byte. -/
theorem encode_tail :
    ∃ b tail, String.utf8EncodeChar c = b :: tail ∧ ∀ x ∈ tail, is_cont x.toNat := by
  rw [String.utf8EncodeChar]
  split_ifs
  · exact ⟨_, _, rfl, by simp⟩
  · refine ⟨_, _, rfl, ?_⟩
    simp only [mem_cons, not_mem_nil, or_false, forall_eq]
    exact is_cont_low _
  · refine ⟨_, _, rfl, ?_⟩
    simp only [mem_cons, not_mem_nil, or_false, forall_eq_or_imp, forall_eq]
    exact ⟨is_cont_low _, is_cont_low _⟩
  · refine ⟨_, _, rfl, ?_⟩
    simp only [mem_cons, not_mem_nil, or_false, forall_eq_or_imp, forall_eq]
    exact ⟨is_cont_low _, is_cont_low _, is_cont_low _⟩

/-- The first byte of a character that is not ASCII says how many follow. -/
theorem encode_first {c : Char} (hc : 0x80 ≤ c.val.toNat) :
    ∃ b tail, String.utf8EncodeChar c = b :: tail ∧ (∀ x ∈ tail, is_cont x.toNat) ∧
      ((0xC2 ≤ b.toNat ∧ b.toNat ≤ 0xDF ∧ tail.length = 1) ∨
        (0xE0 ≤ b.toNat ∧ b.toNat ≤ 0xEF ∧ tail.length = 2) ∨
        (0xF0 ≤ b.toNat ∧ b.toNat ≤ 0xF4 ∧ tail.length = 3)) := by
  obtain ⟨b, tail, henc, htail⟩ := encode_tail c
  refine ⟨b, tail, henc, htail, ?_⟩
  have hpoint := code_point c
  rw [String.utf8EncodeChar] at henc
  generalize c.val.toNat = v at hc hpoint henc
  split_ifs at henc with h1 h2 h3
  · omega
  all_goals
    cases henc
    rw [toNat_ofNat_lt (by omega)]
  · exact Or.inl ⟨by omega, by omega, rfl⟩
  · exact Or.inr (Or.inl ⟨by omega, by omega, rfl⟩)
  · exact Or.inr (Or.inr ⟨by omega, by omega, rfl⟩)

/-- An ASCII byte is a character by itself wherever it stands in a text. -/
theorem ascii_mem_encode {b : UInt8} (hb : b.toNat < 0x80) {c : Char}
    (h : b ∈ String.utf8EncodeChar c) : c.val.toNat = b.toNat := by
  have hlow {n : ℕ} (hn : 0x80 ≤ n) (hn' : n < 256) : ¬ b = UInt8.ofNat n := by
    rintro rfl
    rw [toNat_ofNat_lt hn'] at hb
    omega
  rw [String.utf8EncodeChar] at h
  split_ifs at h with h1 h2 h3
  · rw [mem_singleton.mp h, toNat_ofNat_lt (by omega)]
  all_goals simp only [mem_cons, not_mem_nil, or_false] at h
  · rcases h with h | h <;> exact absurd h (hlow (by omega) (by omega))
  · rcases h with h | h | h <;> exact absurd h (hlow (by omega) (by omega))
  · rcases h with h | h | h | h <;> exact absurd h (hlow (by omega) (by omega))

theorem ascii_mem_as_bytes {b : UInt8} (hb : b.toNat < 0x80) {s : Str} (h : b ∈ as_bytes s) :
    Char.ofNat b.toNat ∈ s := by
  obtain ⟨c, hc, hmem⟩ := mem_flatMap.mp h
  rw [← ascii_mem_encode hb hmem]
  rw [show Char.ofNat c.val.toNat = c from Char.ofNat_toNat c]
  exact hc

/-! ## Slicing at a byte -/

/-- `&s[..n]`, where `n` is where a character begins or the end. -/
def slice_to : Str → ℕ → Str
  | [], _ => []
  | c :: s, n =>
    if (String.utf8EncodeChar c).length ≤ n then c :: slice_to s (n - (String.utf8EncodeChar c).length) else []

/-- `&s[n..]`. -/
def slice_from (s : Str) (n : ℕ) : Str := s.drop (slice_to s n).length

theorem encode_length_pos : 0 < (String.utf8EncodeChar c).length := by
  obtain ⟨b, tail, henc, -⟩ := encode_tail c
  rw [henc]
  exact Nat.succ_pos _

variable (s : Str)

theorem slice_to_zero : slice_to s 0 = [] := by
  cases s with
  | nil => rfl
  | cons c s =>
    have hpos := encode_length_pos c
    rw [slice_to, if_neg (by omega)]

theorem slice_to_length_le (n : ℕ) : (slice_to s n).length ≤ s.length := by
  induction s generalizing n with
  | nil => exact Nat.le_refl _
  | cons c s ih =>
    rw [slice_to]
    split_ifs
    · exact Nat.succ_le_succ (ih _)
    · exact Nat.zero_le _

/-- What comes behind the place does not matter. -/
theorem slice_to_append {s : Str} {n : ℕ} (h : n ≤ (as_bytes s).length) (t : Str) :
    slice_to (s ++ t) n = slice_to s n := by
  induction s generalizing n with
  | nil =>
    rw [Nat.le_zero.mp h]
    exact slice_to_zero t
  | cons c s ih =>
    rw [as_bytes_cons, length_append] at h
    rw [cons_append, slice_to, slice_to, ih (by omega)]

theorem slice_from_append {s : Str} {n : ℕ} (h : n ≤ (as_bytes s).length) (t : Str) :
    slice_from (s ++ t) n = slice_from s n ++ t := by
  rw [slice_from, slice_from, slice_to_append h, drop_append_of_le_length (slice_to_length_le s n)]

/-! ## Reading back what was written -/

/-- A whole character in front is read as itself. -/
theorem lossy_encode_append (c : Char) (rest : List UInt8) :
    from_utf8_lossy (String.utf8EncodeChar c ++ rest) = c :: from_utf8_lossy rest := by
  obtain ⟨b, tail, henc, hnext⟩ := next_encode c rest
  rw [henc, cons_append, from_utf8_lossy, hnext]
  simp only [Option.getD_some, drop_left]

/-- What was text reads back as it was, whatever follows. -/
theorem lossy_as_bytes_append (rest : List UInt8) :
    from_utf8_lossy (as_bytes s ++ rest) = s ++ from_utf8_lossy rest := by
  induction s with
  | nil => rfl
  | cons c s ih =>
    rw [as_bytes_cons, append_assoc, lossy_encode_append, ih, cons_append]

@[simp] theorem lossy_as_bytes : from_utf8_lossy (as_bytes s) = s := by
  simpa using lossy_as_bytes_append s []

/-- Continuation bytes in front are an error each, and leave the rest as it is. -/
theorem lossy_cont_append {cut : List UInt8} (h : ∀ x ∈ cut, is_cont x.toNat)
    (rest : List UInt8) :
    from_utf8_lossy (cut ++ rest)
      = List.replicate cut.length REPLACEMENT_CHARACTER ++ from_utf8_lossy rest := by
  induction cut with
  | nil => rfl
  | cons x cut ih =>
    rw [forall_mem_cons] at h
    rw [cons_append, from_utf8_lossy, next_cont h.1, drop_zero, ih h.2]
    rfl

/-! ## Cutting the bytes of a text -/

/-- `cut` is what is left of the last character of `gone` with at least its first byte
taken away, or nothing. -/
def LeftOver (gone : Str) (cut : List UInt8) : Prop :=
  cut = [] ∨ ∃ before c first, gone = before ++ [c] ∧ String.utf8EncodeChar c = first ++ cut
    ∧ first ≠ []

theorem LeftOver.cons {gone : Str} {cut : List UInt8} (h : LeftOver gone cut) (c : Char) :
    LeftOver (c :: gone) cut := by
  rcases h with hnil | ⟨before, d, first, hgone, henc, hne⟩
  · exact .inl hnil
  · exact .inr ⟨c :: before, d, first, by rw [hgone, cons_append], henc, hne⟩

/-- What is left of a character are continuation bytes. -/
theorem LeftOver.is_cont {gone : Str} {cut : List UInt8} (h : LeftOver gone cut) :
    ∀ x ∈ cut, is_cont x.toNat := by
  rcases h with rfl | ⟨before, c, first, -, henc, hne⟩
  · simp
  · obtain ⟨b, tail, henc', htail⟩ := encode_tail c
    intro x hx
    obtain ⟨b', first, rfl⟩ := exists_cons_of_ne_nil hne
    rw [henc', cons_append, List.cons.injEq] at henc
    exact htail x (henc.2 ▸ mem_append_right _ hx)

/-- Bytes dropped from the front of a text take whole characters with them, and then
some of the bytes of one more. -/
theorem drop_as_bytes (n : ℕ) :
    ∃ gone cut kept, s = gone ++ kept ∧ (as_bytes s).drop n = cut ++ as_bytes kept
      ∧ LeftOver gone cut := by
  induction s generalizing n with
  | nil => exact ⟨[], [], [], rfl, by simp, .inl rfl⟩
  | cons c s ih =>
    rw [as_bytes_cons, drop_append]
    by_cases hn : (String.utf8EncodeChar c).length ≤ n
    · obtain ⟨gone, cut, kept, hs, hdrop, hleft⟩ := ih (n - (String.utf8EncodeChar c).length)
      refine ⟨c :: gone, cut, kept, by rw [hs, cons_append], ?_, hleft.cons c⟩
      rw [drop_eq_nil_of_le hn, nil_append, hdrop]
    -- the cut falls inside `c`, or right in front of it
    · rw [Nat.sub_eq_zero_of_le (by omega), drop_zero]
      by_cases hz : n = 0
      · exact ⟨[], [], c :: s, rfl, by rw [hz]; rfl, .inl rfl⟩
      · refine ⟨[c], (String.utf8EncodeChar c).drop n, s, rfl, rfl, .inr ?_⟩
        refine ⟨[], c, (String.utf8EncodeChar c).take n, rfl, (take_append_drop n _).symm, ?_⟩
        intro hnil
        have hlen := congrArg List.length hnil
        rw [length_take, length_nil] at hlen
        omega

/-- A text without its first bytes reads as U+FFFD for every byte left of a character
cut in two, and then as the rest of the text. -/
theorem lossy_drop_as_bytes (n : ℕ) :
    ∃ gone cut kept, s = gone ++ kept ∧ (as_bytes s).drop n = cut ++ as_bytes kept
      ∧ LeftOver gone cut
      ∧ from_utf8_lossy ((as_bytes s).drop n)
          = List.replicate cut.length REPLACEMENT_CHARACTER ++ kept := by
  obtain ⟨gone, cut, kept, hs, hdrop, hleft⟩ := drop_as_bytes s n
  refine ⟨gone, cut, kept, hs, hdrop, hleft, ?_⟩
  rw [hdrop, lossy_cont_append hleft.is_cont, lossy_as_bytes]

/-! ## Slices

The part of a text that lies between two byte offsets, both of them between characters.

A text that grows at its end keeps the slices it had, two slices that meet make one, and a
slice is what the bytes of the text hold between its offsets. -/

/-- `part` is the text of `whole` from the byte offset `start` to the byte offset `stop`. -/
def Slice (whole : Str) (start : ℕ) (part : Str) (stop : ℕ) : Prop :=
  ∃ before after, whole = before ++ part ++ after ∧ start = (as_bytes before).length
    ∧ stop = (as_bytes (before ++ part)).length

theorem eq_nil_of_no_bytes {s : Str} (h : (as_bytes s).length = 0) : s = [] := by
  cases s with
  | nil => rfl
  | cons c s =>
    rw [as_bytes_cons, length_append, String.length_utf8EncodeChar] at h
    have hpos := Char.utf8Size_pos c
    omega

/-- Two beginnings of one text with as many bytes are the same. -/
theorem beginning_unique {a b x y : Str} (h : a ++ x = b ++ y)
    (hlen : (as_bytes a).length = (as_bytes b).length) : a = b := by
  rcases append_eq_append_iff.mp h with ⟨c, hb, -⟩ | ⟨c, ha, -⟩
  · rw [hb, as_bytes_append, length_append] at hlen
    rw [hb, eq_nil_of_no_bytes (show (as_bytes c).length = 0 by omega), append_nil]
  · rw [ha, as_bytes_append, length_append] at hlen
    rw [ha, eq_nil_of_no_bytes (show (as_bytes c).length = 0 by omega), append_nil]

section
variable {whole part next : Str} {start stop stop' : ℕ}

/-- What lies between the end of a text and its end. -/
theorem Slice.at_end (whole : Str) : Slice whole (as_bytes whole).length [] (as_bytes whole).length := by
  refine ⟨whole, [], ?_, rfl, ?_⟩
  · rw [append_nil, append_nil]
  · rw [append_nil]

/-- The end of a text that was added to. -/
theorem Slice.added (whole part : Str) :
    Slice (whole ++ part) (as_bytes whole).length part (as_bytes (whole ++ part)).length :=
  ⟨whole, [], (append_nil _).symm, rfl, rfl⟩

variable (h : Slice whole start part stop)
include h

theorem Slice.grow (more : Str) :
    Slice (whole ++ more) start part stop := by
  obtain ⟨before, after, rfl, hstart, hstop⟩ := h
  exact ⟨before, after ++ more, append_assoc _ _ _, hstart, hstop⟩

theorem Slice.length : stop = start + (as_bytes part).length := by
  obtain ⟨before, after, -, rfl, rfl⟩ := h
  rw [as_bytes_append, length_append]

theorem Slice.join (hnext : Slice whole stop next stop') :
    Slice whole start (part ++ next) stop' := by
  obtain ⟨before, after, hwhole, hstart, hstop⟩ := h
  obtain ⟨front, rest, hfront, hmeet, hstop'⟩ := hnext
  have hsame : before ++ part = front := by
    apply @beginning_unique _ _ after (next ++ rest)
    · rw [← hwhole, hfront, append_assoc]
    · rw [← hstop, hmeet]
  refine ⟨before, rest, ?_, hstart, ?_⟩
  · rw [hfront, ← hsame, append_assoc before part next]
  · rw [hstop', ← hsame, append_assoc]

/-- A slice is what the bytes hold between its offsets. -/
theorem Slice.bytes :
    stop ≤ (as_bytes whole).length
      ∧ as_bytes part = ((as_bytes whole).drop start).take (stop - start) := by
  have hlength := h.length
  obtain ⟨before, after, rfl, hstart, hstop⟩ := h
  refine ⟨?_, ?_⟩
  · rw [hstop, as_bytes_append (before ++ part) after, length_append]
    omega
  · have htake : stop - start = (as_bytes part).length := by omega
    rw [htake, hstart, as_bytes_append, as_bytes_append, append_assoc, drop_left,
      take_left]

end

end Utf8
