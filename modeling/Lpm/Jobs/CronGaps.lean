/-
How close two runs of an accepted cron line are.

`min_gap_minutes` looks at the minutes and the hours of a line alone. What it comes to
is no more than the distance of two minutes in one hour, or of the last and the first
minute across two hours in a row, whichever of these the line has. Two runs with an
hour without runs between them it leaves out; those are more than an hour apart, and two
hours when the line runs on one minute only.

The other way round every distance it counts is that of two real runs on one day, but
for the step from hour 23 to hour 0, which needs two matching days in a row.
-/
import Lpm.Jobs.CronExact

set_option autoImplicit false

open RustText DaySearch Fallible

namespace Lpm.Jobs.Cron

open List

/-! ## The shortest wait -/

/-- The least distance between neighbours of a list in order, as `windows(2)` has it. -/
def least_step (l : List ℕ) : Option ℕ := (l.zipWith (fun a b => b - a) l.tail).min?

/-- No two elements are closer than the closest neighbours. -/
theorem least_step_le {l : List ℕ} (hsorted : l.Pairwise (· < ·)) {a b : ℕ} (ha : a ∈ l) (hb : b ∈ l)
    (hlt : a < b) : ∃ step, least_step l = some step ∧ step ≤ b - a := by
  obtain ⟨i, hi, rfl⟩ := mem_iff_getElem.mp ha
  obtain ⟨j, hj, rfl⟩ := mem_iff_getElem.mp hb
  have hij : i < j := by
    by_contra hge
    rcases Nat.eq_or_lt_of_le (not_lt.mp hge) with rfl | hji
    · exact absurd hlt (lt_irrefl _)
    · exact absurd (pairwise_iff_getElem.mp hsorted j i hj hi hji) (by omega)
  -- the neighbour after `a` is no further than `b`
  have hnext : l[i + 1] ≤ l[j] := by
    rcases Nat.eq_or_lt_of_le (Nat.succ_le_of_lt hij) with heq | hlt'
    · subst heq
      exact le_refl _
    · exact (pairwise_iff_getElem.mp hsorted (i + 1) j (by omega) hj hlt').le
  have hmem : l[i + 1] - l[i] ∈ l.zipWith (fun a b => b - a) l.tail := by
    refine mem_iff_getElem.mpr ⟨i, ?_, ?_⟩
    · rw [length_zipWith, length_tail]
      omega
    · rw [getElem_zipWith, getElem_tail]
  cases hmin : least_step l with
  | none =>
    rw [min?_eq_none_iff.mp hmin] at hmem
    cases hmem
  | some step =>
    have hle := (min?_eq_some_iff.mp hmin).2 _ hmem
    exact ⟨step, rfl, by omega⟩

/-- And the closest neighbours are two elements. -/
theorem least_step_mem {l : List ℕ} (hsorted : l.Pairwise (· < ·)) {step : ℕ}
    (h : least_step l = some step) : ∃ a ∈ l, ∃ b ∈ l, a < b ∧ step = b - a := by
  have hmem := (min?_eq_some_iff.mp h).1
  obtain ⟨i, hi, heq⟩ := mem_iff_getElem.mp hmem
  rw [length_zipWith, length_tail] at hi
  rw [getElem_zipWith, getElem_tail] at heq
  exact ⟨l[i], getElem_mem _, l[i + 1], getElem_mem _,
    pairwise_iff_getElem.mp hsorted i (i + 1) (by omega) (by omega) (by omega), heq.symm⟩

namespace CronSpec
variable {s : CronSpec}

/-- The minutes of an hour the line runs at. -/
def minute_list (s : CronSpec) : List ℕ := (List.range 60).filter (has s.minutes)

theorem mem_minute_list {m : ℕ} : m ∈ s.minute_list ↔ m < 60 ∧ has s.minutes m = true := by
  rw [minute_list, mem_filter, mem_range]

theorem minute_list_sorted : s.minute_list.Pairwise (· < ·) :=
  pairwise_lt_range.filter _

/-- Two hours in a row, around the clock. -/
def BackToBack (s : CronSpec) (h : ℕ) : Prop :=
  h < 24 ∧ has s.hours h = true ∧ has s.hours ((h + 1) % 24) = true

theorem back_to_back_iff :
    ((List.range 24).any fun h => has s.hours h && has s.hours ((h + 1) % 24)) = true ↔
      ∃ h, s.BackToBack h := by
  simp [BackToBack]

theorem min_gap_minutes_eq (s : CronSpec) : s.min_gap_minutes =
    match (List.range 24).any fun h => has s.hours h && has s.hours ((h + 1) % 24),
      s.minute_list.head?, s.minute_list.getLast? with
    | true, some first, some last =>
      min ((least_step s.minute_list).getD (2 ^ 32 - 1)) (60 - last + first)
    | _, _, _ => (least_step s.minute_list).getD (2 ^ 32 - 1) := rfl

theorem min_gap_back_to_back (h : ∃ h, s.BackToBack h) {first last : ℕ}
    (hfirst : s.minute_list.head? = some first) (hlast : s.minute_list.getLast? = some last) :
    s.min_gap_minutes =
      min ((least_step s.minute_list).getD (2 ^ 32 - 1)) (60 - last + first) := by
  rw [min_gap_minutes_eq, back_to_back_iff.mpr h, hfirst, hlast]

theorem min_gap_apart (h : ¬ ∃ h, s.BackToBack h) :
    s.min_gap_minutes = (least_step s.minute_list).getD (2 ^ 32 - 1) := by
  rw [min_gap_minutes_eq, Bool.eq_false_iff.mpr (mt back_to_back_iff.mp h)]

/-- The first minute and the last one of a line that runs at all. -/
theorem minute_list_ends {m : ℕ} (hm : m ∈ s.minute_list) : ∃ first last,
    s.minute_list.head? = some first ∧ s.minute_list.getLast? = some last ∧
      first ∈ s.minute_list ∧ last ∈ s.minute_list ∧
      ∀ m ∈ s.minute_list, first ≤ m ∧ m ≤ last := by
  have hne := ne_nil_of_mem hm
  have hsorted : s.minute_list.Pairwise (· ≤ ·) := s.minute_list_sorted.imp Nat.le_of_lt
  refine ⟨s.minute_list.head hne, s.minute_list.getLast hne, head?_eq_some_head hne,
    getLast?_eq_some_getLast hne, head_mem hne, getLast_mem hne, ?_⟩
  intro m hm
  exact ⟨hsorted.rel_head hm, hsorted.rel_getLast hm⟩

theorem min_gap_le_step {m m' : ℕ} (hm : m ∈ s.minute_list) (hm' : m' ∈ s.minute_list)
    (hlt : m < m') : s.min_gap_minutes ≤ m' - m := by
  obtain ⟨step, hstep, hle⟩ := least_step_le s.minute_list_sorted hm hm' hlt
  by_cases h : ∃ h, s.BackToBack h
  · obtain ⟨first, last, hfirst, hlast, -⟩ := minute_list_ends hm
    rw [min_gap_back_to_back h hfirst hlast, hstep, Option.getD_some]
    omega
  · rw [min_gap_apart h, hstep, Option.getD_some]
    exact hle

theorem min_gap_le_wrap {h m m' : ℕ} (hback : s.BackToBack h) (hm : m ∈ s.minute_list)
    (hm' : m' ∈ s.minute_list) : s.min_gap_minutes ≤ 60 - m + m' := by
  obtain ⟨first, last, hfirst, hlast, -, -, hends⟩ := minute_list_ends hm
  have hm60 := (mem_minute_list.mp hm).1
  have := hends m hm
  have := hends m' hm'
  rw [min_gap_back_to_back ⟨h, hback⟩ hfirst hlast]
  omega

/-- What it comes to is one of the distances it counts, or none. -/
theorem min_gap_counted (s : CronSpec) : s.min_gap_minutes = 2 ^ 32 - 1 ∨
    (∃ m ∈ s.minute_list, ∃ m' ∈ s.minute_list, m < m' ∧ s.min_gap_minutes = m' - m) ∨
    ∃ h, s.BackToBack h ∧ ∃ m ∈ s.minute_list, ∃ m' ∈ s.minute_list,
      s.min_gap_minutes = 60 - m + m' := by
  have hstep : (least_step s.minute_list).getD (2 ^ 32 - 1) = 2 ^ 32 - 1 ∨
      ∃ m ∈ s.minute_list, ∃ m' ∈ s.minute_list, m < m' ∧
        (least_step s.minute_list).getD (2 ^ 32 - 1) = m' - m := by
    cases hmin : least_step s.minute_list with
    | none => exact Or.inl rfl
    | some step => exact Or.inr (least_step_mem s.minute_list_sorted hmin)
  by_cases hback : ∃ h, s.BackToBack h
  · obtain ⟨h, hh⟩ := hback
    cases hlist : s.minute_list with
    | nil =>
      refine Or.inl ?_
      rw [min_gap_minutes_eq, hlist, head?_nil]
      cases (List.range 24).any fun h => has s.hours h && has s.hours ((h + 1) % 24) <;> rfl
    | cons m ms =>
      obtain ⟨first, last, hfirst, hlast, hmem, hmem', -⟩ :=
        minute_list_ends (s := s) (m := m) (by rw [hlist]; exact mem_cons_self)
      rw [← hlist, min_gap_back_to_back ⟨h, hh⟩ hfirst hlast]
      rcases Nat.le_total ((least_step s.minute_list).getD (2 ^ 32 - 1)) (60 - last + first) with
        hle | hle
      · rw [min_eq_left hle]
        rcases hstep with hnone | hsome
        · exact Or.inl hnone
        · exact Or.inr (Or.inl hsome)
      · rw [min_eq_right hle]
        exact Or.inr (Or.inr ⟨h, hh, last, hmem', first, hmem, rfl⟩)
  · rw [min_gap_apart hback]
    rcases hstep with hnone | hsome
    · exact Or.inl hnone
    · exact Or.inr (Or.inl hsome)

/-! ## Two runs -/

/-- A run on a matching day. -/
theorem matches_at {d : ℤ} {h m : ℕ} (hd : s.day_matches d = true) (hlt : h < 24)
    (hh : has s.hours h = true) (hm : m ∈ s.minute_list) (offset : ℤ) :
    s.Matches offset (day_start offset d + ((h * 60 + m : ℕ) : ℤ) * 60) := by
  obtain ⟨h60, hhas⟩ := mem_minute_list.mp hm
  refine mem_pts.mp ⟨d, hd, mem_epochs.mpr ⟨h * 60 + m, mem_day_minutes.mpr ⟨by omega, ?_, ?_⟩,
    by omega, rfl⟩⟩
  · rwa [show (h * 60 + m) / 60 = h by omega]
  · rwa [show (h * 60 + m) % 60 = m by omega]

/-- Two runs are as far apart as `min_gap_minutes` says, or two hours. -/
theorem runs_apart {gap : ℕ} (hgap : gap ≤ s.min_gap_minutes * 60) {offset t t' : ℤ}
    (h : s.Matches offset t) (h' : s.Matches offset t') (hlt : t < t') :
    (min gap 7200 : ℕ) ≤ t' - t := by
  obtain ⟨hfull, hminute, hhour, -⟩ := h
  obtain ⟨hfull', hminute', hhour', -⟩ := h'
  obtain ⟨x, hx⟩ : ∃ x, x = t + offset := ⟨_, rfl⟩
  obtain ⟨y, hy⟩ : ∃ y, y = t' + offset := ⟨_, rfl⟩
  rw [← hx] at hfull hminute hhour
  rw [← hy] at hfull' hminute' hhour'
  obtain ⟨m, hm⟩ : ∃ m, m = (x / 60 % 60).toNat := ⟨_, rfl⟩
  obtain ⟨m', hm'⟩ : ∃ m', m' = (y / 60 % 60).toNat := ⟨_, rfl⟩
  have hmem : m ∈ s.minute_list := mem_minute_list.mpr ⟨by omega, by rwa [hm]⟩
  have hmem' : m' ∈ s.minute_list := mem_minute_list.mpr ⟨by omega, by rwa [hm']⟩
  rcases (by omega : y / 3600 = x / 3600 ∨ y / 3600 = x / 3600 + 1 ∨ x / 3600 + 2 ≤ y / 3600) with
    hsame | hnext | hlater
  -- two minutes of one hour
  · have hle := min_gap_le_step hmem hmem' (by omega)
    omega
  -- the end of one hour and the start of the next
  · have hback : s.BackToBack (x / 3600 % 24).toNat := by
      refine ⟨by omega, hhour, ?_⟩
      rwa [show ((x / 3600 % 24).toNat + 1) % 24 = (y / 3600 % 24).toNat by omega]
    have hle := min_gap_le_wrap hback hmem hmem'
    omega
  -- an hour between them; with one minute only that makes two hours
  · by_cases hm : m ≤ m'
    · omega
    · have hle := min_gap_le_step hmem' hmem (by omega)
      omega

/-- Two runs closer than `gap` seconds, wherever the local clock stands. -/
def RunsCloserThan (s : CronSpec) (gap : ℕ) : Prop :=
  ∀ offset : ℤ, ∃ t t', s.Matches offset t ∧ s.Matches offset t' ∧ t < t' ∧ t' - t < gap

/-- A line that is on in the last hour of the day and in the first, and never on two days
in a row: the step across midnight counts and no two runs are that step apart. -/
def MidnightApart (s : CronSpec) : Prop :=
  has s.hours 23 = true ∧ has s.hours 0 = true ∧
    ∀ d, s.day_matches d = true → s.day_matches (d + 1) = false

theorem runs_close (hacc : Accepted s) {gap : ℕ} (hgap : s.min_gap_minutes * 60 < gap) :
    s.RunsCloserThan gap ∨ s.MidnightApart := by
  obtain ⟨d, -, -, hd⟩ := hacc.matches_from 0
  obtain ⟨hour, hlt, hhour⟩ := hacc.hour
  rcases s.min_gap_counted with hnone | ⟨m, hm, m', hm', hltm, hgapm⟩ |
      ⟨h, ⟨h24, hh, hh'⟩, m, hm, m', hm', hgapm⟩
  -- nothing to count: the distance of two matching days is less than that all the same
  · left
    intro offset
    obtain ⟨x, hx, hx', hdx⟩ := hacc.matches_from 0
    obtain ⟨y, hy, hy', hdy⟩ := hacc.matches_from (x + 1)
    obtain ⟨n, hn, hhas⟩ := hacc.minute
    have hmem : n ∈ s.minute_list := mem_minute_list.mpr ⟨hn, hhas⟩
    refine ⟨_, _, matches_at hdx hlt hhour hmem offset, matches_at hdy hlt hhour hmem offset, ?_, ?_⟩
    · unfold day_start
      omega
    · unfold day_start
      omega
  · left
    intro offset
    exact ⟨_, _, matches_at hd hlt hhour hm offset, matches_at hd hlt hhour hm' offset,
      by omega, by omega⟩
  · have hm60 := (mem_minute_list.mp hm).1
    by_cases hlast : h = 23
    · by_cases hdays : ∃ d, s.day_matches d = true ∧ s.day_matches (d + 1) = true
      · obtain ⟨d, hd, hd'⟩ := hdays
        left
        intro offset
        refine ⟨_, _, matches_at hd h24 hh hm offset,
          matches_at hd' (by omega : (h + 1) % 24 < 24) hh' hm' offset, ?_, ?_⟩
        · rw [day_start_succ]
          omega
        · rw [day_start_succ]
          omega
      · right
        subst hlast
        refine ⟨hh, hh', ?_⟩
        intro d hd
        rw [← Bool.not_eq_true]
        intro hd'
        exact hdays ⟨d, hd, hd'⟩
    · left
      intro offset
      have hnext : (h + 1) % 24 = h + 1 := by omega
      rw [hnext] at hh'
      exact ⟨_, _, matches_at hd h24 hh hm offset, matches_at hd (by omega : h + 1 < 24) hh' hm' offset,
        by omega, by omega⟩

end CronSpec

/-! ## The lines refused for running too often -/

/-- What a line that runs too often is refused with. -/
def too_often (min_gap_secs : ℕ) : String :=
  let every := min_gap_secs / 60
  s!"A cron job can run at most every {every} minutes."

/-- The texts a field is refused with start with what was written or with the field. -/
def FieldError (e : String) : Prop := e.toList.head? = some '“' ∨ e.toList.head? = some 'T'

variable {e : String} {f : Field}

theorem value_error {text : Str} (h : value text f = .error e) :
    FieldError e := by
  unfold value at h
  dsimp only at h
  split at h
  · obtain rfl := Except.error.inj h
    exact Or.inl (by simp [toString])
  · split_ifs at h
    obtain rfl := Except.error.inj h
    exact Or.inr (by simp [toString])

theorem item_error {bits : BitVec 64} {item : Str}
    (h : item_bits f bits item = .error e) : FieldError e := by
  unfold item_bits at h
  rcases bind_error h with hstep | ⟨⟨range, step⟩, -, h⟩
  · unfold item_step at hstep
    dsimp only at hstep
    split at hstep
    · split at hstep
      · cases hstep
      · obtain rfl := Except.error.inj hstep
        exact Or.inl (by simp [toString])
    · cases hstep
  rcases bind_error h with hrange | ⟨⟨lo, hi⟩, -, h⟩
  · unfold item_range at hrange
    by_cases hstar : range = ['*']
    · rw [if_pos hstar] at hrange
      cases hrange
    rw [if_neg hstar] at hrange
    split at hrange
    · rcases bind_error hrange with hlo | ⟨_, -, hrange⟩
      · exact value_error hlo
      · rcases bind_error hrange with hhi | ⟨_, -, hrange⟩
        · exact value_error hhi
        · cases hrange
    · rcases bind_error hrange with hv | ⟨_, -, hrange⟩
      · exact value_error hv
      · cases hrange
  · dsimp only at h
    split_ifs at h
    · obtain rfl := Except.error.inj h
      exact Or.inl (by simp [toString])
    · cases h

theorem field_error {text : Str} (h : field text f = .error e) :
    FieldError e := by
  unfold field at h
  generalize text.splitOn ',' = items at h
  generalize (0 : BitVec 64) = bits at h
  induction items generalizing bits with
  | nil => cases h
  | cons item items ih =>
    rw [foldlM_cons] at h
    rcases bind_error h with hitem | ⟨_, -, hrest⟩
    · exact item_error hitem
    · exact ih _ hrest

theorem too_often_no_field (gap : ℕ) : ¬ FieldError (too_often gap) := by
  unfold FieldError too_often
  simp [toString]

theorem too_often_job (gap : ℕ) : (too_often gap).toList[7]? = some 'j' := by
  unfold too_often
  dsimp only [toString]
  rw [String.toList_append, String.toList_append, append_assoc,
    getElem?_append_left (by decide)]
  decide

theorem parse_gap {expr : Str} {gap : ℕ} {s : CronSpec} (h : parse expr gap = .ok s) :
    gap ≤ s.min_gap_minutes * 60 := by
  unfold parse at h
  dsimp only at h
  split_ifs at h
  split at h
  · obtain ⟨_, -, h⟩ := bind_ok h
    obtain ⟨_, -, h⟩ := bind_ok h
    obtain ⟨_, -, h⟩ := bind_ok h
    obtain ⟨_, -, h⟩ := bind_ok h
    obtain ⟨_, -, h⟩ := bind_ok h
    split_ifs at h with _ hgap
    obtain rfl := Except.ok.inj h
    exact not_lt.mp hgap
  · cases h

/-- A line refused for running too often is accepted when any gap will do. -/
theorem parse_too_often {expr : Str} {gap : ℕ} (h : parse expr gap = .error (too_often gap)) :
    ∃ s, parse expr 0 = .ok s ∧ s.min_gap_minutes * 60 < gap := by
  have hfield := too_often_no_field gap
  unfold parse at h ⊢
  dsimp only at h ⊢
  split_ifs at h ⊢ with hat
  · rw [← Except.error.inj h] at hfield
    exact absurd (Or.inl (by simp [toString])) hfield
  · split at h
    next minute hour dom month dow _ =>
      rcases bind_error h with herr | ⟨days, hdow, h⟩
      · exact absurd (field_error herr) hfield
      rcases bind_error h with herr | ⟨minutes, hminute, h⟩
      · exact absurd (field_error herr) hfield
      rcases bind_error h with herr | ⟨hours, hhour, h⟩
      · exact absurd (field_error herr) hfield
      rcases bind_error h with herr | ⟨doms, hdom, h⟩
      · exact absurd (field_error herr) hfield
      rcases bind_error h with herr | ⟨months, hmonth, h⟩
      · exact absurd (field_error herr) hfield
      split_ifs at h with hday hgap
      · rw [← Except.error.inj h] at hfield
        exact absurd (Or.inr (by decide)) hfield
      · rw [hdow, hminute, hhour, hdom, hmonth]
        refine ⟨_, ?_, hgap⟩
        change (if _ then _ else if _ then _ else _) = _
        rw [if_neg hday, if_neg (Nat.not_lt_zero _)]
        rfl
      · cases h
    · have hjob := too_often_job gap
      rw [← Except.error.inj h] at hjob
      exact absurd hjob (by decide)

/-- What `parse` promises about how often a line runs. Two runs of an accepted line are
`min_gap_secs` apart, or two hours where more than that was asked for. A line refused for
running too often has two runs closer than that, or counts the step across a midnight
that no two of its days meet at. -/
theorem frequency_guard (expr : Str) (min_gap_secs : ℕ) :
    (∀ s, parse expr min_gap_secs = .ok s → ∀ offset t t', s.Matches offset t →
        s.Matches offset t' → t < t' → (min min_gap_secs 7200 : ℕ) ≤ t' - t) ∧
      (parse expr min_gap_secs = .error (too_often min_gap_secs) →
        ∃ s, parse expr 0 = .ok s ∧ (s.RunsCloserThan min_gap_secs ∨ s.MidnightApart)) := by
  constructor
  · intro s hs offset t t' h h' hlt
    exact CronSpec.runs_apart (parse_gap hs) h h' hlt
  · intro herr
    obtain ⟨s, hs, hgap⟩ := parse_too_often herr
    exact ⟨s, hs, CronSpec.runs_close (parse_accepted hs) hgap⟩

theorem frequency_guard_fives : ∃ s, parse "*/5 * * * *".toList 300 = .ok s ∧
    ∀ offset t t', s.Matches offset t → s.Matches offset t' → t < t' → 300 ≤ t' - t := by
  have h : parse "*/5 * * * *".toList 300 = .ok
      { source := "*/5 * * * *".toList, minutes := 0x84210842108421, hours := 0xffffff,
        dom := 0xfffffffe, months := 0x1ffe, dow := 0x7f, dom_any := true, dow_any := true } := by
    rfl
  exact ⟨_, h, (frequency_guard _ _).1 _ h⟩

/-- At nine and at eleven. -/
def nine_and_eleven : CronSpec :=
  { source := "0 9,11 * * *".toList, minutes := 1, hours := 0xa00, dom := 0xfffffffe,
    months := 0x1ffe, dow := 0x7f, dom_any := true, dow_any := true }

/-- Two and fifty-eight past midnight and past eleven at night, on the first of a month. -/
def around_midnight : CronSpec :=
  { source := "2,58 0,23 1 * *".toList, minutes := 0x400000000000004, hours := 0x800001, dom := 2,
    months := 0x1ffe, dow := 0x7f, dom_any := false, dow_any := true }

theorem around_midnight_days {d : ℤ} (h : around_midnight.day_matches d = true) :
    Gregorian.day d = 1 := by
  have hdoms : ∀ n < 32, has around_midnight.dom n = true → n = 1 := by decide
  have hday := Gregorian.day_bounds d
  obtain ⟨hmonth, -⟩ := Gregorian.month_bounds d
  have hlen := (Gregorian.month_length_bounds (Gregorian.is_leap (Gregorian.year d)) hmonth).2
  unfold CronSpec.day_matches at h
  split_ifs at h
  · exact hdoms _ (by omega) (Bool.and_eq_true_iff.mp h).1
  · exact absurd rfl ‹_›

theorem around_midnight_apart {offset t t' : ℤ} (h : around_midnight.Matches offset t)
    (h' : around_midnight.Matches offset t') (hlt : t < t') : 300 ≤ t' - t := by
  have hminutes : ∀ m < 60, has around_midnight.minutes m = true → m = 2 ∨ m = 58 := by decide
  have hhours : ∀ m < 24, has around_midnight.hours m = true → m = 0 ∨ m = 23 := by decide
  obtain ⟨hfull, hminute, hhour, hday⟩ := h
  obtain ⟨hfull', hminute', hhour', hday'⟩ := h'
  have hm := hminutes _ (by omega) hminute
  have hm' := hminutes _ (by omega) hminute'
  have hh := hhours _ (by omega) hhour
  have hh' := hhours _ (by omega) hhour'
  by_cases hnext : local_date offset t' = local_date offset t + 1
  -- the day after a first is a second
  · have hfirst := around_midnight_days hday
    have hbounds := Gregorian.month_days_bounds (local_date offset t)
    obtain ⟨hsecond, -⟩ := Gregorian.same_month (local_date offset t) (k := 2) (by omega) (by omega)
    rw [hfirst, show local_date offset t - (1 : ℕ) + (2 : ℕ) = local_date offset t' by omega,
      around_midnight_days hday'] at hsecond
    omega
  · unfold local_date at hnext
    omega

/-- With ten thousand seconds asked for, a line that runs twice in two hours is accepted;
and one whose runs are never closer than 56 minutes is refused for five. -/
theorem frequency_guard_misses :
    (parse "0 9,11 * * *".toList 10000 = .ok nine_and_eleven ∧
      nine_and_eleven.Matches 0 32400 ∧ nine_and_eleven.Matches 0 39600) ∧
    parse "2,58 0,23 1 * *".toList 300 = .error (too_often 300) ∧
      parse "2,58 0,23 1 * *".toList 0 = .ok around_midnight ∧
      ∀ offset t t', around_midnight.Matches offset t → around_midnight.Matches offset t' →
        t < t' → 300 ≤ t' - t := by
  refine ⟨⟨by rfl, ?_, ?_⟩, by rfl, by rfl, fun _ _ _ => around_midnight_apart⟩
  · exact ⟨by decide, by decide, by decide, by decide +kernel⟩
  · exact ⟨by decide, by decide, by decide, by decide +kernel⟩

end Lpm.Jobs.Cron
