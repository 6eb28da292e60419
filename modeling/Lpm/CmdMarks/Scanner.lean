/-
The scanner of `cmdmarks.rs`: it picks the marks a shell writes about its commands out of a
terminal's output, which comes in chunks.

What a chunk leaves open is carried over to the next one. Giving up on a mark is decided by
bytes that are there, so it is decided the same way with less of the output behind them; and
nothing begins before what is carried. So a text can be cut anywhere (`scan_append`).
-/
import Lpm.Lib.Patterns
import Lpm.Lib.Utf8
import Mathlib.Data.List.Find

set_option autoImplicit false

open RustText Utf8

namespace Lpm.CmdMarks

/-- What the private sequences share: ESC, `]770`. -/
def PREFIX : Str := ['\x1b', ']', '7', '7', '0']

def MAX_BODY : ℕ := 1024

inductive Mark where
  | Start (line : Str)
  | End (status : ℤ)
  deriving DecidableEq

structure Scanner where
  /-- What the chunks so far left open. -/
  held : Str := []
  deriving DecidableEq

inductive Found where
  | At (end_ len : ℕ)
  | Broken
  | Incomplete

/-- The loop of `terminator`, at the byte `i`. -/
def terminator_loop : List UInt8 → ℕ → Found
  | [], _ => .Incomplete
  | b :: bytes, i =>
    if i > MAX_BODY then .Broken
    else if b = 0x07 then .At i 1
    else if b = 0x1b then
      match bytes.head? with
      | some next => if next = 0x5c then .At i 2 else .Broken
      | none => .Incomplete
    else terminator_loop bytes (i + 1)

def terminator (rest : Str) : Found := terminator_loop (as_bytes rest) 0

/-- `3;<line>` or `4;<status>`: what follows the shared prefix. -/
def parse (body : Str) : Option Mark :=
  match split_once ';' body with
  | none => none
  | some (kind, value) =>
    if kind = ['3'] then some (.Start value)
    else if kind = ['4'] then (parse_i32 (trim value)).map .End
    else none

/-- The end of a chunk that could be the start of the next mark. -/
def trailing_prefix (s : Str) : Str :=
  match (List.range' 1 (PREFIX.length - 1)).reverse.find? fun n => (PREFIX.take n).isSuffixOf s with
  | none => []
  | some n => s.drop (s.length - n)

theorem split_shorter {s before rest : Str} (h : split_str PREFIX s = some (before, rest)) : rest.length < s.length := by
  rw [split_str_eq h, List.length_append, List.length_append]
  exact Nat.lt_add_of_pos_left (Nat.add_pos_right _ (by decide))

/-- The loop of `feed`: the marks, and what is carried over. -/
def scan (s : Str) : List Mark × Str :=
  match _h : split_str PREFIX s with
  | none => ([], trailing_prefix s)
  | some (before, rest) =>
    match terminator rest with
    | .At end_ len =>
      let (marks, held) := scan (slice_from rest (end_ + len))
      ((parse (slice_to rest end_)).toList ++ marks, held)
    | .Broken => scan rest
    | .Incomplete => ([], s.drop before.length)
termination_by s.length
decreasing_by
  · have hlt := split_shorter _h
    rw [slice_from, List.length_drop]
    omega
  · exact split_shorter _h

def Scanner.feed (self : Scanner) (text : Str) : List Mark × Scanner :=
  let s := if self.held.isEmpty then text else self.held ++ text
  let (marks, held) := scan s
  (marks, { held })

/-- The marks of one chunk after another, and the scanner after them. -/
def Scanner.feed_all (self : Scanner) : List Str → List Mark × Scanner
  | [] => ([], self)
  | chunk :: chunks =>
    let (marks, next) := self.feed chunk
    let (more, last) := next.feed_all chunks
    (marks ++ more, last)

/-! ## Where a mark ends -/

section
variable {bytes : List UInt8} {rest : Str} {i end_ len : ℕ}

/-- Whatever comes behind, a decision stands. -/
theorem terminator_loop_append (h : terminator_loop bytes i ≠ .Incomplete) (more : List UInt8) :
    terminator_loop (bytes ++ more) i = terminator_loop bytes i := by
  induction bytes generalizing i with
  | nil => exact absurd rfl h
  | cons b bytes ih =>
    rw [terminator_loop] at h
    rw [List.cons_append, terminator_loop, terminator_loop]
    by_cases hmax : i > MAX_BODY
    · rw [if_pos hmax, if_pos hmax]
    · rw [if_neg hmax] at h ⊢
      rw [if_neg hmax]
      by_cases hbel : b = 0x07
      · rw [if_pos hbel, if_pos hbel]
      · rw [if_neg hbel] at h ⊢
        rw [if_neg hbel]
        by_cases hesc : b = 0x1b
        · rw [if_pos hesc] at h ⊢
          rw [if_pos hesc]
          -- an escape that ends the bytes decides nothing
          cases bytes with
          | nil => exact absurd rfl h
          | cons next bytes => rfl
        · rw [if_neg hesc] at h ⊢
          rw [if_neg hesc]
          exact ih h

/-- The terminator is one of the two, at the place found. -/
theorem terminator_loop_at (h : terminator_loop bytes i = .At end_ len) :
    ∃ body tail, end_ = i + body.length ∧
      (len = 1 ∧ bytes = body ++ 0x07 :: tail ∨ len = 2 ∧ bytes = body ++ 0x1b :: 0x5c :: tail) := by
  induction bytes generalizing i with
  | nil => exact nomatch h
  | cons b bytes ih =>
    rw [terminator_loop] at h
    split_ifs at h with hmax hbel hesc
    · obtain ⟨rfl, rfl⟩ : i = end_ ∧ 1 = len := by simpa using h
      exact ⟨[], bytes, rfl, .inl ⟨rfl, by rw [hbel]; rfl⟩⟩
    · cases bytes with
      | nil => exact nomatch h
      | cons next bytes =>
        change (if next = 0x5c then Found.At i 2 else .Broken) = .At end_ len at h
        split_ifs at h with hnext
        obtain ⟨rfl, rfl⟩ : i = end_ ∧ 2 = len := by simpa using h
        exact ⟨[], bytes, rfl, .inr ⟨rfl, by rw [hesc, hnext]; rfl⟩⟩
    · obtain ⟨body, tail, hend, hbytes⟩ := ih h
      refine ⟨b :: body, tail, by rw [hend, List.length_cons]; omega, ?_⟩
      exact hbytes.imp (fun h => ⟨h.1, by rw [h.2]; rfl⟩) fun h => ⟨h.1, by rw [h.2]; rfl⟩

/-- Nothing is decided only while the body may still fit. -/
theorem terminator_loop_open (h : terminator_loop bytes i = .Incomplete) : bytes = [] ∨ i + bytes.length ≤ MAX_BODY + 1 := by
  induction bytes generalizing i with
  | nil => exact .inl rfl
  | cons b bytes ih =>
    right
    rw [terminator_loop] at h
    rw [List.length_cons]
    split_ifs at h with hmax hbel hesc
    · cases bytes with
      | nil =>
        rw [List.length_nil]
        omega
      | cons next bytes =>
        change (if next = 0x5c then Found.At i 2 else .Broken) = .Incomplete at h
        split_ifs at h
    · rcases ih h with hnil | hle
      · rw [hnil, List.length_nil]
        omega
      · omega

theorem terminator_append (h : terminator rest ≠ .Incomplete) (t : Str) : terminator (rest ++ t) = terminator rest := by
  rw [terminator, as_bytes_append]
  exact terminator_loop_append h _

theorem terminator_within (h : terminator rest = .At end_ len) : end_ + len ≤ (as_bytes rest).length := by
  obtain ⟨body, tail, hend, hbytes⟩ := terminator_loop_at h
  rcases hbytes with ⟨hlen, hbytes⟩ | ⟨hlen, hbytes⟩
  all_goals
    rw [hbytes, hend, hlen]
    simp only [List.length_append, List.length_cons]
    omega

end

/-! ## What is carried over -/

section
variable {s t before rest : Str}

/-- The lengths are tried from the longest down. -/
theorem lengths_descend : (List.range' 1 (PREFIX.length - 1)).reverse.Pairwise (· > ·) := by decide

/-- Any start of the prefix that the text ends with is in what is carried. -/
theorem trailing_prefix_longest {n : ℕ} (hpos : 1 ≤ n) (hn : n < PREFIX.length) (h : (PREFIX.take n).isSuffixOf s = true) :
    n ≤ (s |> trailing_prefix).length := by
  have hin : n ∈ (List.range' 1 (PREFIX.length - 1)).reverse :=
    List.mem_reverse.mpr (List.mem_range'_1.mpr ⟨hpos, by omega⟩)
  unfold trailing_prefix
  cases hfind : (List.range' 1 (PREFIX.length - 1)).reverse.find? fun n => (PREFIX.take n).isSuffixOf s with
  | none => exact absurd h (List.find?_eq_none.mp hfind n hin)
  | some k =>
    obtain ⟨hk, longer, shorter, hlist, hlonger⟩ := List.find?_eq_some_iff_append.mp hfind
    have hle : n ≤ k := by
      have hsorted := lengths_descend
      rw [hlist] at hin hsorted
      rcases List.mem_append.mp hin with hin | hin
      · exact absurd h (by rw [Bool.not_eq_true, ← Bool.not_eq_true']; exact hlonger n hin)
      · rcases List.mem_cons.mp hin with rfl | hin
        · exact Nat.le_refl _
        · exact Nat.le_of_lt (List.rel_of_pairwise_cons (List.pairwise_append.mp hsorted).2.1 hin)
    have hlong : n ≤ s.length := by
      have hlen := (List.isSuffixOf_iff_suffix.mp h).length_le
      rw [List.length_take] at hlen
      omega
    change n ≤ (s.drop (s.length - k)).length
    rw [List.length_drop]
    omega

/-- It is the end of the text, and shorter than the prefix. -/
theorem trailing_prefix_split (s : Str) :
    ∃ front, s = front ++ trailing_prefix s ∧ (s |> trailing_prefix).length < PREFIX.length := by
  unfold trailing_prefix
  cases hfind : (List.range' 1 (PREFIX.length - 1)).reverse.find? fun n => (PREFIX.take n).isSuffixOf s with
  | none => exact ⟨s, (List.append_nil s).symm, Nat.succ_pos 4⟩
  | some n =>
    have hin := List.mem_range'_1.mp (List.mem_reverse.mp (List.mem_of_find?_eq_some hfind))
    refine ⟨s.take (s.length - n), (List.take_append_drop _ _).symm, ?_⟩
    rw [List.length_drop]
    omega

theorem trailing_prefix_start (s : Str) : trailing_prefix s <+: PREFIX := by
  unfold trailing_prefix
  cases hfind : (List.range' 1 (PREFIX.length - 1)).reverse.find? fun n => (PREFIX.take n).isSuffixOf s with
  | none => exact List.nil_prefix
  | some n =>
    have hin := List.mem_range'_1.mp (List.mem_reverse.mp (List.mem_of_find?_eq_some hfind))
    have hsuffix : (PREFIX.take n).isSuffixOf s = true := (List.find?_eq_some_iff_append.mp hfind).1
    have hdrop := List.suffix_iff_eq_drop.mp (List.isSuffixOf_iff_suffix.mp hsuffix)
    rw [List.length_take, Nat.min_eq_left (by omega)] at hdrop
    change s.drop (s.length - n) <+: PREFIX
    rw [← hdrop]
    exact List.take_prefix n PREFIX

/-- Without a prefix in the text, none begins before what is carried, whatever comes. -/
theorem no_prefix_before {front : Str} (hnone : split_str PREFIX s = none) (hs : s = front ++ trailing_prefix s) (t : Str) :
    ∀ i < front.length, ¬PREFIX <+: (front ++ ((s |> trailing_prefix) ++ t)).drop i := by
  intro i hi hpre
  have hlen := congrArg List.length hs
  rw [List.length_append] at hlen
  rw [← List.append_assoc, ← hs, List.drop_append_of_le_length (by omega)] at hpre
  by_cases hwhole : PREFIX.length ≤ (s.drop i).length
  · have hin : contains PREFIX s = true :=
      contains_iff.mpr ⟨i, by omega, List.prefix_of_prefix_length_le hpre (List.prefix_append _ _) hwhole⟩
    rw [contains, hnone] at hin
    cases hin
  -- the prefix runs over the end of the text: its start there is longer than what is carried
  · have hstart : s.drop i <+: PREFIX := List.prefix_of_prefix_length_le (List.prefix_append _ _) hpre (by omega)
    have hsuffix : (PREFIX.take (s.drop i).length).isSuffixOf s = true := by
      rw [← List.prefix_iff_eq_take.mp hstart]
      exact List.isSuffixOf_iff_suffix.mpr (List.drop_suffix i s)
    have hlong := trailing_prefix_longest (by rw [List.length_drop]; omega) (by omega) hsuffix
    rw [List.length_drop] at hlong
    omega

/-- A text in front that no start of the prefix reaches into is not carried. -/
theorem trailing_prefix_append {a b : Str}
    (h : ∀ n, 1 ≤ n → n < PREFIX.length → (PREFIX.take n).isSuffixOf (a ++ b) = true → n ≤ b.length) :
    trailing_prefix (a ++ b) = trailing_prefix b := by
  have hsame : ∀ n ∈ (List.range' 1 (PREFIX.length - 1)).reverse,
      (PREFIX.take n).isSuffixOf (a ++ b) = (PREFIX.take n).isSuffixOf b := by
    intro n hn
    have hin := List.mem_range'_1.mp (List.mem_reverse.mp hn)
    rw [Bool.eq_iff_iff, List.isSuffixOf_iff_suffix, List.isSuffixOf_iff_suffix]
    refine ⟨fun hsuffix => ?_, fun hsuffix => hsuffix.trans (List.suffix_append a b)⟩
    have hle := h n hin.1 (by omega) (List.isSuffixOf_iff_suffix.mpr hsuffix)
    exact List.suffix_of_suffix_length_le hsuffix (List.suffix_append a b) (by rw [List.length_take]; omega)
  unfold trailing_prefix
  rw [List.find?_congr hsame]
  cases hfound : (List.range' 1 (PREFIX.length - 1)).reverse.find? fun n => (PREFIX.take n).isSuffixOf b with
  | none => rfl
  | some n =>
    have hfits : (PREFIX.take n).isSuffixOf b = true := (List.find?_eq_some_iff_append.mp hfound).1
    have hsuffix := List.isSuffixOf_iff_suffix.mp hfits
    have hin := List.mem_range'_1.mp (List.mem_reverse.mp (List.mem_of_find?_eq_some hfound))
    have hle := hsuffix.length_le
    rw [List.length_take] at hle
    change (a ++ b).drop ((a ++ b).length - n) = b.drop (b.length - n)
    rw [List.length_append, List.drop_append, List.drop_of_length_le (by omega), List.nil_append]
    congr 1
    omega

/-! ## Cutting the output -/

theorem scan_none (h : split_str PREFIX s = none) : scan s = ([], trailing_prefix s) := by
  rw [scan]
  split
  · rfl
  next hsome =>
    exact nomatch h.symm.trans hsome

/-- What the loop does behind a prefix it has found. -/
def behind (rest : Str) : List Mark × Str :=
  match terminator rest with
  | .At end_ len =>
    ((parse (slice_to rest end_)).toList ++ (scan (slice_from rest (end_ + len))).1, (scan (slice_from rest (end_ + len))).2)
  | .Broken => scan rest
  | .Incomplete => ([], PREFIX ++ rest)

theorem scan_some (h : split_str PREFIX s = some (before, rest)) : scan s = behind rest := by
  have hdrop : s.drop before.length = PREFIX ++ rest := by
    rw [split_str_eq h, List.append_assoc, List.drop_left]
  rw [scan]
  split
  next hnone =>
    exact nomatch hnone.symm.trans h
  next before' rest' hsome =>
    obtain ⟨rfl, rfl⟩ : before = before' ∧ rest = rest' := by simpa using h.symm.trans hsome
    rw [behind, hdrop]

/-- Scanning a text is scanning any start of it, and then what that carried with the rest. -/
theorem scan_append (s t : Str) :
    scan (s ++ t) = ((scan s).1 ++ (scan ((scan s).2 ++ t)).1, (scan ((scan s).2 ++ t)).2) := by
  induction hlen : s.length using Nat.strongRecOn generalizing s with
  | ind n ih =>
    cases hsplit : split_str PREFIX s with
    | none =>
      obtain ⟨front, hs, -⟩ := trailing_prefix_split s
      rw [scan_none hsplit]
      have hkeep := split_str_keep (no_prefix_before hsplit hs t)
      rw [← List.append_assoc, ← hs] at hkeep
      cases hnext : split_str PREFIX ((s |> trailing_prefix) ++ t) with
      | none =>
        rw [hnext] at hkeep
        rw [scan_none hkeep, scan_none hnext, List.nil_append]
        -- a start of the prefix that reached further back would have been carried
        have hreach := @trailing_prefix_append front ((s |> trailing_prefix) ++ t) fun n hpos hn hsuffix => by
          rw [← List.append_assoc, ← hs] at hsuffix
          obtain ⟨u, hu⟩ := List.isSuffixOf_iff_suffix.mp hsuffix
          have hlens := congrArg List.length hu
          rw [List.length_append, List.length_append, List.length_take] at hlens
          rw [List.length_append]
          by_contra hlong
          have hstart : (PREFIX.take (n - t.length)).isSuffixOf s = true := by
            have htake := congrArg (List.take s.length) hu
            rw [List.take_left, List.take_append, List.take_of_length_le (by omega), List.take_take,
              Nat.min_eq_left (by omega)] at htake
            refine List.isSuffixOf_iff_suffix.mpr ⟨u, ?_⟩
            rw [← htake]
            congr 2
            omega
          have hle := trailing_prefix_longest (by omega) (by omega) hstart
          omega
        rw [← List.append_assoc, ← hs] at hreach
        rw [hreach]
      | some found =>
        obtain ⟨before, rest⟩ := found
        rw [hnext] at hkeep
        rw [scan_some hkeep, scan_some hnext, List.nil_append]
    | some found =>
      obtain ⟨before, rest⟩ := found
      have hshort := split_shorter hsplit
      rw [scan_some hsplit, scan_some (split_str_append hsplit (by decide) t)]
      cases hend : terminator rest with
      | At end_ len =>
        have hsame : terminator (rest ++ t) = .At end_ len := by
          rw [terminator_append (by simp [hend]), hend]
        have hwithin := terminator_within hend
        have hlt : (slice_from rest (end_ + len)).length < n := by
          rw [slice_from, List.length_drop]
          omega
        rw [behind, behind, hend, hsame]
        dsimp only
        rw [slice_to_append (by omega), slice_from_append hwithin, ih _ hlt _ rfl, List.append_assoc]
      | Broken =>
        have hsame : terminator (rest ++ t) = .Broken := by
          rw [terminator_append (by simp [hend]), hend]
        rw [behind, behind, hend, hsame]
        exact ih _ (hlen ▸ hshort) _ rfl
      | Incomplete =>
        have hopen : behind rest = ([], PREFIX ++ rest) := by rw [behind, hend]
        rw [hopen, List.nil_append, List.append_assoc, scan_some (split_str_self (by decide) _)]

/-- What is carried decides nothing by itself. -/
theorem scan_held (s : Str) : scan (scan s).2 = ([], (scan s).2) := by
  have hsplit := scan_append s []
  rw [List.append_nil, List.append_nil] at hsplit
  have hmarks := congrArg Prod.fst hsplit
  have hheld := congrArg Prod.snd hsplit
  dsimp only at hmarks hheld
  exact Prod.ext (List.append_cancel_left (hmarks.symm.trans (List.append_nil _).symm)) hheld.symm

/-- At most a prefix, a body of the largest size and the first byte of a terminator are
carried. -/
theorem scan_held_length (s : Str) : (as_bytes (scan s).2).length ≤ (as_bytes PREFIX).length + MAX_BODY + 1 := by
  induction hlen : s.length using Nat.strongRecOn generalizing s with
  | ind n ih =>
    cases hsplit : split_str PREFIX s with
    | none =>
      rw [scan_none hsplit]
      obtain ⟨more, hmore⟩ := trailing_prefix_start s
      have hbytes := congrArg (fun p => (as_bytes p).length) hmore
      simp only [as_bytes_append, List.length_append] at hbytes
      dsimp only
      omega
    | some found =>
      obtain ⟨before, rest⟩ := found
      have hshort := split_shorter hsplit
      rw [scan_some hsplit, behind]
      cases hend : terminator rest with
      | At end_ len =>
        have hlt : (slice_from rest (end_ + len)).length < n := by
          rw [slice_from, List.length_drop]
          omega
        exact ih _ hlt _ rfl
      | Broken => exact ih _ (hlen ▸ hshort) _ rfl
      | Incomplete =>
        dsimp only
        rw [as_bytes_append, List.length_append]
        rcases terminator_loop_open hend with hnil | hle
        · rw [hnil, List.length_nil]
          omega
        · omega

end

/-! ## Chunks -/

theorem feed_eq (self : Scanner) (text : Str) :
    self.feed text = ((scan (self.held ++ text)).1, ⟨(scan (self.held ++ text)).2⟩) := by
  rw [Scanner.feed]
  cases hheld : self.held with
  | nil => rfl
  | cons c held => rfl

theorem feed_all_eq (self : Scanner) (hself : scan self.held = ([], self.held)) (chunks : List Str) :
    self.feed_all chunks = ((scan (self.held ++ chunks.flatten)).1, ⟨(scan (self.held ++ chunks.flatten)).2⟩) := by
  induction chunks generalizing self with
  | nil => rw [Scanner.feed_all, List.flatten_nil, List.append_nil, hself]
  | cons chunk chunks ih =>
    have hnext := ih ⟨(scan (self.held ++ chunk)).2⟩ (scan_held _)
    rw [Scanner.feed_all, feed_eq, List.flatten_cons, ← List.append_assoc, scan_append (self.held ++ chunk)]
    dsimp only
    rw [hnext]

/-- However the output is cut, the marks are those of the whole, and what is carried from one
chunk to the next is never more than a prefix, a body of the largest size and the first byte
of a terminator. -/
theorem marks_of_chunks (chunks : List Str) :
    (({} : Scanner).feed_all chunks).1 = (({} : Scanner).feed chunks.flatten).1
      ∧ (as_bytes (({} : Scanner).feed_all chunks).2.held).length ≤ (as_bytes PREFIX).length + MAX_BODY + 1 := by
  have hstart : scan ({} : Scanner).held = ([], ({} : Scanner).held) := scan_none (by decide)
  rw [feed_all_eq _ hstart, feed_eq]
  exact ⟨rfl, scan_held_length _⟩

end Lpm.CmdMarks
