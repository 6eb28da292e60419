/-
What the text of a cron field denotes, and when the parser reads just that.

An item is a star, a value or a range of two values, with or without a step, and
stands for every number from its first one by that step up to its last one. The
parser goes through with exactly the items that denote something (`denotes_iff`).
The loop over the numbers of an item adds the step to a `u32` that is not checked.
A step that fits a `u32` but not with the item's first number added wraps round to a
number below that one, and every number from there down to zero is set as well.
-/
import Lpm.Jobs.CronExact

set_option autoImplicit false

open RustText Fallible

namespace Lpm.Jobs.Cron

open List

/-- The fields of a line. -/
def FIELDS : List Field := [MINUTE, HOUR, DOM, MONTH, DOW]

variable {f : Field}

theorem plain_of_mem (hf : f ∈ FIELDS) : f.Plain := by
  simp only [FIELDS, mem_cons, not_mem_nil, or_false] at hf
  rcases hf with rfl | rfl | rfl | rfl | rfl
  · exact plain_minute
  · exact plain_hour
  · exact plain_dom
  · exact plain_month
  · exact plain_dow

/-! ## The items of a field -/

/-- The number a text stands for: itself, or the one it is a name of. -/
inductive Stands (f : Field) (text : Str) : ℕ → Prop where
  | number {n : ℕ} (hparse : parse_u32 text = some n) (hmin : f.min ≤ n) (hmax : n ≤ f.max) :
    Stands f text n
  | name {i : ℕ} (hparse : parse_u32 text = none)
    (hname : f.names.findIdx? (fun n => eq_ignore_ascii_case n.toList text) = some i)
    (hmin : f.min ≤ i + f.names_from) (hmax : i + f.names_from ≤ f.max) :
    Stands f text (i + f.names_from)

/-- The first and the last number of a range; a value with a step runs on to the end of
the field. -/
inductive Spans (f : Field) : Str → Bool → ℕ → ℕ → Prop where
  | star {stepped : Bool} : Spans f ['*'] stepped f.min f.max
  | range {a b : Str} {stepped : Bool} {lo hi : ℕ} (hlo : Stands f a lo) (hhi : Stands f b hi)
    (hle : lo ≤ hi) : Spans f (a ++ '-' :: b) stepped lo hi
  | value {text : Str} {v : ℕ} (hv : Stands f text v) : Spans f text false v v
  | value_on {text : Str} {v : ℕ} (hv : Stands f text v) : Spans f text true v f.max

/-- The first number, the last one allowed and the step of an item. -/
inductive Denotes (f : Field) : Str → ℕ → ℕ → ℕ → Prop where
  | plain {text : Str} {lo hi : ℕ} (hspan : Spans f text false lo hi) : Denotes f text lo hi 1
  | stepped {text s : Str} {lo hi step : ℕ} (hspan : Spans f text true lo hi)
    (hstep : parse_u32 s = some step) (hpos : 0 < step) :
    Denotes f (text ++ '/' :: s) lo hi step

variable {text : Str}

theorem value_iff {n : ℕ} : value text f = .ok n ↔ Stands f text n := by
  constructor
  · intro h
    obtain ⟨hmin, hmax⟩ := value_bounds h
    unfold value at h
    dsimp only at h
    -- a number is tried before a name
    cases hparse : parse_u32 text with
    | some m =>
      rw [hparse] at h
      dsimp only at h
      split_ifs at h
      obtain rfl := Except.ok.inj h
      exact .number hparse hmin hmax
    | none =>
      rw [hparse] at h
      dsimp only at h
      cases hname : f.names.findIdx? (fun n => eq_ignore_ascii_case n.toList text) with
      | none =>
        rw [hname] at h
        cases h
      | some i =>
        rw [hname] at h
        dsimp only [Option.map_some] at h
        split_ifs at h
        obtain rfl := Except.ok.inj h
        exact .name hparse hname hmin hmax
  · intro h
    unfold value
    cases h with
    | number hparse hmin hmax =>
      rw [hparse]
      dsimp only
      rw [if_neg (by simp [hmin, hmax])]
    | name hparse hname hmin hmax =>
      rw [hparse, hname]
      dsimp only [Option.map_some]
      rw [if_neg (by simp [hmin, hmax])]

/-- None of the characters that put an item together. -/
def Solid (text : Str) : Prop := ∀ c ∈ text, c ≠ '-' ∧ c ≠ '/' ∧ c ≠ '*'

theorem parse_u32_solid {n : ℕ} (h : parse_u32 text = some n) : Solid text := by
  have hdigits : ∀ s : Str, (parse_digits s).isSome → ∀ c ∈ s, c.isDigit = true := by
    intro s hs c hc
    cases s with
    | nil => cases hc
    | cons d ds =>
      unfold parse_digits at hs
      dsimp only at hs
      split_ifs at hs with hall
      · exact List.all_eq_true.mp hall c hc
      · cases hs
  have hsolid : ∀ c : Char, c.isDigit = true → c ≠ '-' ∧ c ≠ '/' ∧ c ≠ '*' := by
    intro c hc
    refine ⟨?_, ?_, ?_⟩
    all_goals
      rintro rfl
      exact absurd hc (by decide)
  unfold parse_u32 parse_unsigned at h
  dsimp only at h
  obtain ⟨hsome, -⟩ := Option.filter_eq_some_iff.mp h
  intro c hc
  split at hsome
  · rcases mem_cons.mp hc with rfl | hc
    · decide
    · exact hsolid c (hdigits _ (by rw [hsome]; rfl) c hc)
  · exact hsolid c (hdigits _ (by rw [hsome]; rfl) c hc)

variable (hf : f ∈ FIELDS)
include hf

theorem name_solid {i : ℕ}
    (h : f.names.findIdx? (fun n => eq_ignore_ascii_case n.toList text) = some i) :
    Solid text := by
  have hnames : ∀ f ∈ FIELDS, ∀ n ∈ f.names, (to_ascii_lowercase n.toList).all (fun c =>
      c ≠ '-' ∧ c ≠ '/' ∧ c ≠ '*') = true := by decide
  obtain ⟨hi, hname, -⟩ := findIdx?_eq_some_iff_getElem.mp h
  have hsame : to_ascii_lowercase f.names[i].toList = to_ascii_lowercase text := by
    unfold eq_ignore_ascii_case at hname
    exact beq_iff_eq.mp hname
  intro c hc
  have hlower : c.toLower ∈ to_ascii_lowercase f.names[i].toList := by
    rw [hsame]
    exact List.mem_map_of_mem hc
  have hplain := List.all_eq_true.mp (hnames f hf _ (getElem_mem hi)) _ hlower
  obtain ⟨h1, h2, h3⟩ := of_decide_eq_true hplain
  refine ⟨?_, ?_, ?_⟩
  · rintro rfl
    exact h1 rfl
  · rintro rfl
    exact h2 rfl
  · rintro rfl
    exact h3 rfl

theorem Stands.solid {n : ℕ} (h : Stands f text n) :
    Solid text := by
  cases h with
  | number hparse _ _ => exact parse_u32_solid hparse
  | name _ hname _ _ => exact name_solid hf hname

theorem Spans.no_slash {stepped : Bool} {lo hi : ℕ}
    (h : Spans f text stepped lo hi) : '/' ∉ text := by
  have hvalue : ∀ {text v}, Stands f text v → '/' ∉ text := by
    intro text v hv hmem
    exact (hv.solid hf _ hmem).2.1 rfl
  cases h with
  | star => decide
  | range hlo hhi _ =>
    rw [mem_append, mem_cons, not_or, not_or]
    exact ⟨hvalue hlo, by decide, hvalue hhi⟩
  | value hv => exact hvalue hv
  | value_on hv => exact hvalue hv

theorem spans_iff {step : Option ℕ} {lo hi : ℕ} :
    item_range text step f = .ok (lo, hi) ∧ lo ≤ hi ↔ Spans f text step.isSome lo hi := by
  constructor
  · rintro ⟨h, hle⟩
    unfold item_range at h
    -- the parser tries a star, then a range, then a value
    by_cases hstar : text = ['*']
    · rw [if_pos hstar] at h
      cases h
      rw [hstar]
      exact .star
    rw [if_neg hstar] at h
    cases hsplit : split_once '-' text with
    | some ab =>
      rw [hsplit] at h
      obtain ⟨lo', hlo, h⟩ := bind_ok h
      obtain ⟨hi', hhi, h⟩ := bind_ok h
      cases h
      rw [(split_once_eq hsplit).1]
      exact .range (value_iff.mp hlo) (value_iff.mp hhi) hle
    | none =>
      rw [hsplit] at h
      obtain ⟨v, hv, h⟩ := bind_ok h
      cases h
      cases step with
      | none => exact .value (value_iff.mp hv)
      | some _ => exact .value_on (value_iff.mp hv)
  · intro h
    have hplain := plain_of_mem hf
    -- a value is no star and has no hyphen, so the parser gets to it
    have hvalue : ∀ {v}, Stands f text v →
        item_range text step f = .ok (v, if step.isSome then f.max else v) := by
      intro v hv
      have hsolid := hv.solid hf
      unfold item_range
      rw [if_neg ?_, split_once_none fun hmem => (hsolid _ hmem).1 rfl, value_iff.mpr hv]
      · rfl
      · rintro rfl
        exact (hsolid '*' (by decide)).2.2 rfl
    generalize hstepped : step.isSome = stepped at h
    cases h with
    | star => exact ⟨by rw [item_range, if_pos rfl], hplain.min_le⟩
    | range hlo hhi hle =>
      refine ⟨?_, hle⟩
      unfold item_range
      rw [if_neg ?_, split_once_append fun hmem => (hlo.solid hf _ hmem).1 rfl]
      · dsimp only
        rw [value_iff.mpr hlo, value_iff.mpr hhi]
        rfl
      · intro hstar
        have hmem : '-' ∈ ['*'] := by
          rw [← hstar]
          exact mem_append_right _ mem_cons_self
        exact absurd hmem (by decide)
    | value hv =>
      rw [hvalue hv, hstepped]
      exact ⟨rfl, le_refl _⟩
    | value_on hv =>
      rw [hvalue hv, hstepped]
      exact ⟨rfl, (value_bounds (value_iff.mpr hv)).2⟩

variable {item : Str}

/-- What an item denotes is what the parser makes of it. -/
theorem denotes_iff {lo hi step : ℕ} :
    Denotes f item lo hi step ↔ ∃ text s, item_step item f = .ok (text, s) ∧
      item_range text s f = .ok (lo, hi) ∧ lo ≤ hi ∧ s.getD 1 = step := by
  constructor
  · intro h
    cases h with
    | plain hspan =>
      obtain ⟨hrange, hle⟩ : item_range item none f = .ok (lo, hi) ∧ lo ≤ hi :=
        (spans_iff hf).mpr hspan
      refine ⟨item, none, ?_, hrange, hle, rfl⟩
      unfold item_step
      rw [split_once_none (hspan.no_slash hf)]
    | @stepped text _ _ _ _ hspan hstep hpos =>
      obtain ⟨hrange, hle⟩ : item_range text (some step) f = .ok (lo, hi) ∧ lo ≤ hi :=
        (spans_iff hf).mpr hspan
      refine ⟨_, some step, ?_, hrange, hle, rfl⟩
      unfold item_step
      rw [split_once_append (hspan.no_slash hf)]
      dsimp only
      rw [hstep, Option.filter_some, if_pos (by simpa using hpos)]
  · rintro ⟨text, s, hstep, hrange, hle, rfl⟩
    have hspan := (spans_iff hf).mp ⟨hrange, hle⟩
    unfold item_step at hstep
    cases hsplit : split_once '/' item with
    | none =>
      rw [hsplit] at hstep
      cases hstep
      exact .plain hspan
    | some parts =>
      rw [hsplit] at hstep
      dsimp only at hstep
      split at hstep
      next step hfilter =>
        cases hstep
        obtain ⟨hparse, hpos⟩ := Option.filter_eq_some_iff.mp hfilter
        rw [(split_once_eq hsplit).1]
        exact .stepped hspan hparse (by simpa using hpos)
      · cases hstep

/-- An item denotes one thing. -/
theorem Denotes.unique {lo hi step lo' hi' step' : ℕ}
    (h : Denotes f item lo hi step) (h' : Denotes f item lo' hi' step') :
    lo = lo' ∧ hi = hi' ∧ step = step' := by
  obtain ⟨text, s, hstep, hrange, -, rfl⟩ := (denotes_iff hf).mp h
  obtain ⟨text', s', hstep', hrange', -, rfl⟩ := (denotes_iff hf).mp h'
  rw [hstep] at hstep'
  cases hstep'
  rw [hrange] at hrange'
  cases hrange'
  exact ⟨rfl, rfl, rfl⟩

theorem Denotes.bounds {lo hi step : ℕ}
    (h : Denotes f item lo hi step) :
    (f.min ≤ lo ∧ lo ≤ hi ∧ hi ≤ f.max) ∧ 0 < step ∧ step < 2 ^ 32 := by
  have hstep : 0 < step ∧ step < 2 ^ 32 := by
    cases h with
    | plain _ => decide
    | stepped _ hparse hpos => exact ⟨hpos, parse_unsigned_lt hparse⟩
  obtain ⟨text, s, -, hrange, hle, -⟩ := (denotes_iff hf).mp h
  obtain ⟨hlo, hhi, -⟩ := item_range_start (plain_of_mem hf) hrange
  exact ⟨⟨hlo.1, hle, hhi⟩, hstep⟩

/-- The parser goes through with the items that denote something. -/
theorem item_bits_iff {bits bits' : BitVec 64} :
    item_bits f bits item = .ok bits' ↔
      ∃ lo hi step, Denotes f item lo hi step ∧ bits' = set_bits hi step (hi + 1) lo bits := by
  constructor
  · intro h
    unfold item_bits at h
    obtain ⟨⟨text, s⟩, hstep, h⟩ := bind_ok h
    obtain ⟨⟨lo, hi⟩, hrange, h⟩ := bind_ok h
    dsimp only at h
    split_ifs at h with hback
    obtain rfl := Except.ok.inj h
    exact ⟨lo, hi, _, (denotes_iff hf).mpr ⟨text, s, hstep, hrange, not_lt.mp hback, rfl⟩, rfl⟩
  · rintro ⟨lo, hi, step, hdenotes, rfl⟩
    obtain ⟨text, s, hstep, hrange, hle, rfl⟩ := (denotes_iff hf).mp hdenotes
    simp only [item_bits, hstep, bind, Except.bind, hrange, if_neg (not_lt.mpr hle)]
    rfl

omit hf

/-! ## The loop over the numbers of an item -/

/-- The values the loop's counter takes, from `lo` on, in the `u32` it is kept in. -/
inductive LoopAt (lo hi step : ℕ) : ℕ → Prop where
  | start : LoopAt lo hi step lo
  | next {v : ℕ} (h : LoopAt lo hi step v) (hv : v ≤ hi) : LoopAt lo hi step ((v + step) % 2 ^ 32)

/-- The numbers `lo`, `lo + step`, … up to `hi`. -/
def Steps (lo hi step n : ℕ) : Prop := n ≤ hi ∧ ∃ k, n = lo + k * step

section
variable {lo hi step : ℕ}

variable (hhi : hi < 64)
include hhi

/-- A step that fits in at the first number fits in at every later one: past the first
number it is at most `hi`. -/
theorem fits_later (hfits : lo + step < 2 ^ 32) {k : ℕ} (hk : lo + k * step ≤ hi) :
    lo + k * step + step < 2 ^ 32 := by
  rcases Nat.eq_zero_or_pos k with rfl | hpos
  · omega
  · have hle : step ≤ k * step := Nat.le_mul_of_pos_left step hpos
    omega

theorem loop_at_steps (hfits : lo + step < 2 ^ 32) {v : ℕ}
    (h : LoopAt lo hi step v) : ∃ k, v = lo + k * step := by
  induction h with
  | start => exact ⟨0, by omega⟩
  | next _ hv ih =>
    obtain ⟨k, rfl⟩ := ih
    have hlt := fits_later hhi hfits hv
    refine ⟨k + 1, ?_⟩
    rw [Nat.mod_eq_of_lt hlt, Nat.succ_mul]
    omega

/-- The bits the loop sets from `lo + k * step` on. -/
theorem set_bits_has (hstep : 0 < step) (hfits : lo + step < 2 ^ 32) (fuel k n : ℕ)
    (bits : BitVec 64) (hfuel : hi + 1 ≤ fuel + (lo + k * step)) :
    has (set_bits hi step fuel (lo + k * step) bits) n = true ↔
      has bits n = true ∨ n ≤ hi ∧ ∃ j, k ≤ j ∧ n = lo + j * step := by
  have hpast : ∀ k, hi < lo + k * step → ¬ (n ≤ hi ∧ ∃ j, k ≤ j ∧ n = lo + j * step) := by
    rintro k hlt ⟨hn, j, hj, rfl⟩
    have hmul := Nat.mul_le_mul_right step hj
    omega
  induction fuel generalizing k bits with
  | zero =>
    rw [set_bits, or_iff_left (hpast k (by omega))]
  | succ fuel ih =>
    rw [set_bits]
    split_ifs with hv
    -- the sum stays below `2 ^ 32`, so it does not wrap
    · have hnext : (lo + k * step + step) % 2 ^ 32 = lo + (k + 1) * step := by
        rw [Nat.mod_eq_of_lt (fits_later hhi hfits hv), Nat.succ_mul]
        omega
      have hbit : has (bits ||| BitVec.twoPow 64 (lo + k * step)) n = true ↔
          has bits n = true ∨ n = lo + k * step := by
        unfold has
        rw [BitVec.getLsbD_or, BitVec.getLsbD_twoPow, Bool.or_eq_true]
        have h64 : lo + k * step < 64 := by omega
        rw [decide_eq_true h64, Bool.true_and, decide_eq_true_eq]
        exact or_congr_right eq_comm
      have hmore : hi + 1 ≤ fuel + (lo + (k + 1) * step) := by
        rw [Nat.succ_mul]
        omega
      have hrest := ih (k + 1) (bits ||| BitVec.twoPow 64 (lo + k * step)) hmore
      rw [hnext]
      refine hrest.trans ?_
      rw [hbit, or_assoc]
      refine or_congr_right ⟨?_, ?_⟩
      · rintro (rfl | ⟨hn, j, hj, rfl⟩)
        · exact ⟨hv, k, le_refl _, rfl⟩
        · exact ⟨hn, j, by omega, rfl⟩
      · rintro ⟨hn, j, hj, rfl⟩
        rcases Nat.eq_or_lt_of_le hj with rfl | hlt
        · exact Or.inl rfl
        · exact Or.inr ⟨hn, j, hlt, rfl⟩
    · rw [or_iff_left (hpast k (not_le.mp hv))]

theorem set_bits_steps (hstep : 0 < step) (hfits : lo + step < 2 ^ 32)
    (bits : BitVec 64) (n : ℕ) : has (set_bits hi step (hi + 1) lo bits) n = true ↔
      has bits n = true ∨ Steps lo hi step n := by
  have h := set_bits_has hhi hstep hfits (hi + 1) 0 n bits (by omega)
  rw [Nat.zero_mul] at h
  refine h.trans (or_congr_right ?_)
  simp [Steps]

/-- The counter passes the end of the range. -/
theorem loop_ends (hstep : 0 < step) (hfits : lo + step < 2 ^ 32) :
    ∃ v, LoopAt lo hi step v ∧ hi < v := by
  -- it is past the end at the latest after as many turns as the range has numbers
  have hreach : ∀ k, LoopAt lo hi step (lo + k * step) ∨ ∃ v, LoopAt lo hi step v ∧ hi < v := by
    intro k
    induction k with
    | zero => exact Or.inl (by simpa using LoopAt.start)
    | succ k ih =>
      rcases ih with hat | hpast
      · by_cases hv : lo + k * step ≤ hi
        · have hnext := hat.next hv
          rw [Nat.mod_eq_of_lt (fits_later hhi hfits hv), Nat.add_assoc, ← Nat.succ_mul] at hnext
          exact Or.inl hnext
        · exact Or.inr ⟨_, hat, not_le.mp hv⟩
      · exact Or.inr hpast
  rcases hreach (hi + 1) with hat | hpast
  · refine ⟨_, hat, ?_⟩
    have hmul : (hi + 1) * 1 ≤ (hi + 1) * step := Nat.mul_le_mul_left _ hstep
    omega
  · exact hpast

end

/-! ## The bits of a field -/

section
variable {f : Field} {text : Str} {bits : BitVec 64}

/-- Some item of the text stands for `n`. -/
def Written (f : Field) (text : Str) (n : ℕ) : Prop :=
  ∃ item ∈ text.splitOn ',', ∃ lo hi step, Denotes f item lo hi step ∧ Steps lo hi step n

/-- The field is read as it is written: its bits are the numbers of its items, all of
them inside the field, and every loop ends and adds its step without an overflow. -/
structure ReadExactly (f : Field) (text : Str) (bits : BitVec 64) : Prop where
  bits_iff : ∀ n, has bits n = true ↔ Written f text n
  inside : ∀ n, has bits n = true → f.min ≤ n ∧ n ≤ f.max
  ends : ∀ item ∈ text.splitOn ',', ∀ lo hi step, Denotes f item lo hi step →
    ∃ v, LoopAt lo hi step v ∧ hi < v
  no_overflow : ∀ item ∈ text.splitOn ',', ∀ lo hi step, Denotes f item lo hi step →
    ∀ v, LoopAt lo hi step v → v ≤ hi → v + step < 2 ^ 32

theorem items_has (hf : f ∈ FIELDS) {items : List Str} {start : BitVec 64}
    (h : items.foldlM (item_bits f) start = .ok bits)
    (hfits : ∀ item ∈ items, ∀ lo hi step, Denotes f item lo hi step → lo + step < 2 ^ 32) (n : ℕ) :
    has bits n = true ↔ has start n = true ∨
      ∃ item ∈ items, ∃ lo hi step, Denotes f item lo hi step ∧ Steps lo hi step n := by
  induction items generalizing start with
  | nil =>
    obtain rfl := Except.ok.inj h
    simp
  | cons item items ih =>
    rw [foldlM_cons] at h
    obtain ⟨first, hitem, hrest⟩ := bind_ok h
    obtain ⟨lo, hi, step, hdenotes, rfl⟩ := (item_bits_iff hf).mp hitem
    obtain ⟨⟨-, -, hmax⟩, hpos, -⟩ := hdenotes.bounds hf
    have hhi : hi < 64 := lt_of_le_of_lt hmax (plain_of_mem hf).max_lt
    have hfirst := hfits item mem_cons_self lo hi step hdenotes
    rw [ih hrest fun item' hmem => hfits item' (mem_cons_of_mem _ hmem),
      set_bits_steps hhi hpos hfirst, or_assoc]
    refine or_congr_right ⟨?_, ?_⟩
    · rintro (hsteps | ⟨item', hmem, hwritten⟩)
      · exact ⟨item, mem_cons_self, lo, hi, step, hdenotes, hsteps⟩
      · exact ⟨item', mem_cons_of_mem _ hmem, hwritten⟩
    · rintro ⟨item', hmem, lo', hi', step', hdenotes', hsteps⟩
      rcases mem_cons.mp hmem with rfl | hmem
      · obtain ⟨rfl, rfl, rfl⟩ := hdenotes.unique hf hdenotes'
        exact Or.inl hsteps
      · exact Or.inr ⟨item', hmem, lo', hi', step', hdenotes', hsteps⟩

/-- A field that was accepted is read as it is written exactly when the step of every
item fits a `u32` with the item's first number added. -/
theorem field_exact_iff (hf : f ∈ FIELDS) (h : field text f = .ok bits) :
    ReadExactly f text bits ↔ ∀ item ∈ text.splitOn ',', ∀ lo hi step,
      Denotes f item lo hi step → lo + step < 2 ^ 32 := by
  constructor
  · intro hexact item hitem lo hi step hdenotes
    obtain ⟨⟨-, hle, -⟩, -⟩ := hdenotes.bounds hf
    exact hexact.no_overflow item hitem lo hi step hdenotes lo .start hle
  · intro hfits
    have hbits : ∀ n, has bits n = true ↔ Written f text n := by
      intro n
      unfold field at h
      rw [items_has hf h hfits n, Written, or_iff_right]
      simp [has]
    have hsmall : ∀ {item lo hi step}, Denotes f item lo hi step → hi < 64 := by
      intro item lo hi step hdenotes
      exact lt_of_le_of_lt (hdenotes.bounds hf).1.2.2 (plain_of_mem hf).max_lt
    refine ⟨hbits, ?_, ?_, ?_⟩
    · intro n hn
      obtain ⟨item, -, lo, hi, step, hdenotes, hle, k, rfl⟩ := (hbits n).mp hn
      obtain ⟨⟨hmin, -, hmax⟩, -⟩ := hdenotes.bounds hf
      exact ⟨by omega, by omega⟩
    · intro item hitem lo hi step hdenotes
      exact loop_ends (hsmall hdenotes) (hdenotes.bounds hf).2.1
        (hfits item hitem lo hi step hdenotes)
    · intro item hitem lo hi step hdenotes v hat hv
      have hfirst := hfits item hitem lo hi step hdenotes
      obtain ⟨k, rfl⟩ := loop_at_steps (hsmall hdenotes) hfirst hat
      exact fits_later (hsmall hdenotes) hfirst hv

end

/-- Every number from zero to five, where the item stands for five alone. -/
theorem field_wraps : ∃ bits, field "5/4294967295".toList MINUTE = .ok bits ∧
    has bits 4 = true ∧ ¬ ReadExactly MINUTE "5/4294967295".toList bits := by
  refine ⟨63, by rfl, by decide, ?_⟩
  intro hexact
  obtain ⟨item, hitem, lo, hi, step, hdenotes, -, k, hk⟩ := (hexact.bits_iff 4).mp (by decide)
  have hitems : "5/4294967295".toList.splitOn ',' = ["5/4294967295".toList] := by rfl
  rw [hitems, mem_singleton] at hitem
  have hvalue : Stands MINUTE ['5'] 5 := .number (by rfl) (by decide) (by decide)
  have hparse : parse_u32 "4294967295".toList = some 4294967295 := by rfl
  have hfive : Denotes MINUTE "5/4294967295".toList 5 59 4294967295 :=
    .stepped (.value_on hvalue) hparse (by decide)
  rw [hitem] at hdenotes
  obtain ⟨rfl, -, -⟩ := hdenotes.unique mem_cons_self hfive
  omega

/-- Minutes 2, 9, 16, … of an hour and the last one. -/
theorem field_exact_sevens : ∃ bits, field "2/7,59".toList MINUTE = .ok bits ∧
    (ReadExactly MINUTE "2/7,59".toList bits ↔ ∀ item ∈ "2/7,59".toList.splitOn ',', ∀ lo hi step,
      Denotes MINUTE item lo hi step → lo + step < 2 ^ 32) := by
  have h : field "2/7,59".toList MINUTE = .ok 0xc08102040810204 := by rfl
  exact ⟨_, h, field_exact_iff mem_cons_self h⟩

end Lpm.Jobs.Cron
