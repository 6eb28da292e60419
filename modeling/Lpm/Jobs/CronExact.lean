/-
When the cron search is exact.

An accepted line has matching days without end in both directions, because a date
that a leap year has falls on every weekday within a 400-year cycle. The search of
`jobcron.rs` gives up after `SEARCH_DAYS` days, and that is the one way it can miss:
`search_exact_iff` says that it is exact wherever a match is within that reach, and
that it is exact at every instant for the lines whose matching days are never that
far apart. Nearly every line is one of them; 29 February restricted to a weekday by
a stepped star is not.
-/
import Lpm.Jobs.Cron
import Lpm.Lib.Fallible

set_option autoImplicit false

open RustText DaySearch Fallible

namespace Lpm.Jobs.Cron

open List

/-! ## The bits of a field -/

theorem set_bits_mono {hi step n : ℕ} (fuel v : ℕ) {bits : BitVec 64} (h : has bits n = true) :
    has (set_bits hi step fuel v bits) n = true := by
  induction fuel generalizing v bits with
  | zero => exact h
  | succ fuel ih =>
    rw [set_bits]
    split_ifs with hv
    · refine ih _ ?_
      unfold has at h ⊢
      rw [BitVec.getLsbD_or, h, Bool.true_or]
    · exact h

/-- The loop sets the bit it starts from. -/
theorem set_bits_first {hi step v : ℕ} (fuel : ℕ) (bits : BitVec 64) (hv : v ≤ hi)
    (hhi : hi < 64) : has (set_bits hi step (fuel + 1) v bits) v = true := by
  rw [set_bits, if_pos hv]
  refine set_bits_mono _ _ ?_
  unfold has
  rw [BitVec.getLsbD_or, BitVec.getLsbD_twoPow]
  simp [show v < 64 by omega]

/-- A field's numbers are bits of a `u64`, and no name of one starts with a star. -/
structure Field.Plain (f : Field) : Prop where
  max_lt : f.max < 64
  min_le : f.min ≤ f.max
  no_star : ∀ n ∈ f.names, ∀ rest, eq_ignore_ascii_case n.toList ('*' :: rest) = false

variable {f : Field}

theorem value_bounds {text : Str} {n : ℕ} (h : value text f = .ok n) :
    f.min ≤ n ∧ n ≤ f.max := by
  unfold value at h
  dsimp only at h
  split at h
  · cases h
  · split_ifs at h with hbad
    obtain rfl := Except.ok.inj h
    simp only [Bool.or_eq_true, decide_eq_true_eq, not_or, not_lt] at hbad
    exact hbad

/-- Nothing that starts with a star is a number or a name. -/
theorem value_star (hf : f.Plain) (rest : Str) :
    ∃ e, value ('*' :: rest) f = .error e := by
  have hparse : parse_u32 ('*' :: rest) = none := by
    simp [parse_u32, parse_unsigned, parse_digits]
  have hname : (f.names.findIdx? fun n => eq_ignore_ascii_case n.toList ('*' :: rest)) = none := by
    rw [findIdx?_eq_none_iff]
    intro n hn
    exact hf.no_star n hn rest
  unfold value
  simp only [hparse, hname, Option.map_none]
  exact ⟨_, rfl⟩

/-- The range of an item starts inside its field, at the least number when the item
starts with a star. -/
theorem item_range_start {range : Str} {step : Option ℕ} (hf : f.Plain) {lo hi : ℕ}
    (h : item_range range step f = .ok (lo, hi)) :
    (f.min ≤ lo ∧ lo ≤ f.max) ∧ hi ≤ f.max ∧ (range.head? = some '*' → lo = f.min) := by
  unfold item_range at h
  by_cases hstar : range = ['*']
  · rw [if_pos hstar] at h
    obtain ⟨rfl, rfl⟩ : f.min = lo ∧ f.max = hi := by simpa using h
    exact ⟨⟨le_refl _, hf.min_le⟩, le_refl _, fun _ => rfl⟩
  rw [if_neg hstar] at h
  cases hs : split_once '-' range with
  | some ab =>
    obtain ⟨a, b⟩ := ab
    simp only [hs] at h
    obtain ⟨lo', hlo, h⟩ := bind_ok h
    obtain ⟨hi', hhi, h⟩ := bind_ok h
    obtain ⟨rfl, rfl⟩ : lo' = lo ∧ hi' = hi := by simpa using Except.ok.inj h
    refine ⟨value_bounds hlo, (value_bounds hhi).2, fun hhead => ?_⟩
    -- the text before the dash would start with the star
    obtain ⟨hrange, -⟩ := split_once_eq hs
    cases a with
    | nil => simp [hrange] at hhead
    | cons c rest =>
      obtain rfl : c = '*' := by simpa [hrange] using hhead
      obtain ⟨e, he⟩ := value_star hf rest
      rw [he] at hlo
      cases hlo
  | none =>
    simp only [hs] at h
    obtain ⟨v, hv, h⟩ := bind_ok h
    obtain ⟨rfl, rfl⟩ : v = lo ∧ (if step.isSome then f.max else v) = hi := by
      simpa using Except.ok.inj h
    obtain ⟨hmin, hmax⟩ := value_bounds hv
    refine ⟨⟨hmin, hmax⟩, by split_ifs <;> omega, fun hhead => ?_⟩
    cases range with
    | nil => cases hhead
    | cons c rest =>
      obtain rfl : c = '*' := by simpa using hhead
      obtain ⟨e, he⟩ := value_star hf rest
      rw [he] at hv
      cases hv

theorem item_step_head {item range : Str} {step : Option ℕ}
    (h : item_step item f = .ok (range, step)) (hhead : item.head? = some '*') :
    range.head? = some '*' := by
  unfold item_step at h
  cases hs : split_once '/' item with
  | none =>
    simp only [hs] at h
    obtain ⟨rfl, -⟩ : item = range ∧ none = step := by simpa using h
    exact hhead
  | some p =>
    obtain ⟨before, after⟩ := p
    simp only [hs] at h
    split at h
    · obtain ⟨rfl, -⟩ := Prod.ext_iff.mp (Except.ok.inj h)
      obtain ⟨hitem, -⟩ := split_once_eq hs
      cases before with
      | nil => simp [hitem] at hhead
      | cons c rest => simpa [hitem] using hhead
    · cases h

/-- An item adds a number of its field, the least one when it starts with a star,
and takes none away. -/
theorem item_bits_adds (hf : f.Plain) {bits bits' : BitVec 64} {item : Str}
    (h : item_bits f bits item = .ok bits') :
    (∃ v, (f.min ≤ v ∧ v ≤ f.max) ∧ has bits' v = true) ∧
      (item.head? = some '*' → has bits' f.min = true) ∧
      ∀ n, has bits n = true → has bits' n = true := by
  unfold item_bits at h
  obtain ⟨⟨range, step⟩, hstep, h⟩ := bind_ok h
  obtain ⟨⟨lo, hi⟩, hrange, h⟩ := bind_ok h
  dsimp only at h
  obtain ⟨hlo, hhi, hmin⟩ := item_range_start hf hrange
  split_ifs at h with hback
  obtain rfl := Except.ok.inj h
  have hfirst : has (set_bits hi (step.getD 1) (hi + 1) lo bits) lo = true :=
    set_bits_first hi bits (not_lt.mp hback) (lt_of_le_of_lt hhi hf.max_lt)
  refine ⟨⟨lo, hlo, hfirst⟩, fun hhead => ?_, fun n hn => set_bits_mono _ _ hn⟩
  rw [← hmin (item_step_head hstep hhead)]
  exact hfirst

/-- A field that was read names one of its numbers, the least one when it starts with
a star. -/
theorem field_has {text : Str} (hf : f.Plain) {bits : BitVec 64}
    (h : field text f = .ok bits) :
    (∃ v, (f.min ≤ v ∧ v ≤ f.max) ∧ has bits v = true) ∧
      (text.head? = some '*' → has bits f.min = true) := by
  unfold field at h
  obtain ⟨item, items, hitems⟩ : ∃ item items, text.splitOn ',' = item :: items :=
    exists_cons_of_ne_nil (splitOn_ne_nil ',' text)
  rw [hitems, foldlM_cons] at h
  obtain ⟨first, hitem, hrest⟩ := bind_ok h
  obtain ⟨⟨v, hv, hhas⟩, hstar, -⟩ := item_bits_adds hf hitem
  -- the items after the first only add
  have hkeep : ∀ n, has first n = true → has bits n = true := by
    intro n hn
    exact foldlM_ok (P := fun b => has b n = true)
      (fun _ _ _ hb hstep => (item_bits_adds hf hstep).2.2 n hb) hn hrest
  refine ⟨⟨v, hv, hkeep v hhas⟩, fun hhead => hkeep _ (hstar ?_)⟩
  cases text with
  | nil => cases hhead
  | cons c rest =>
    obtain rfl : c = '*' := by simpa using hhead
    rw [splitOn_cons_eq_if_modifyHead, if_neg (by decide)] at hitems
    cases hrest' : rest.splitOn ',' with
    | nil => exact absurd hrest' (splitOn_ne_nil ',' rest)
    | cons x xs =>
      rw [hrest', modifyHead_cons] at hitems
      rw [← (List.cons.inj hitems).1]
      rfl

/-! ## Accepted lines -/

theorem fold_sunday_has {days : BitVec 64} {n : ℕ} (hn : n < 7) (h : has days n = true) :
    has (fold_sunday days) n = true := by
  unfold fold_sunday
  split_ifs with h7
  · unfold has at h ⊢
    rw [BitVec.getLsbD_and, BitVec.getLsbD_or, h, BitVec.getLsbD_not, BitVec.getLsbD_twoPow]
    simp [show n < 64 by omega, show ¬ 7 = n by omega]
  · exact h

theorem fold_sunday_zero {days : BitVec 64} (h : has days 7 = true) :
    has (fold_sunday days) 0 = true := by
  rw [fold_sunday, if_pos h]
  unfold has
  rw [BitVec.getLsbD_and, BitVec.getLsbD_or, BitVec.getLsbD_not, BitVec.getLsbD_twoPow]
  simp

/-- What a line that was accepted has: an hour and a minute, a month and a weekday,
the first day of a field that starts with a star, and some date. -/
structure Accepted (s : CronSpec) : Prop where
  minute : ∃ m < 60, has s.minutes m = true
  hour : ∃ h < 24, has s.hours h = true
  month : ∃ m, (1 ≤ m ∧ m ≤ 12) ∧ has s.months m = true
  weekday : ∃ w < 7, has s.dow w = true
  dom_star : s.dom_any = true → has s.dom 1 = true
  dow_star : s.dow_any = true → has s.dow 0 = true
  some_day : s.has_a_day = true

theorem plain_minute : MINUTE.Plain := ⟨by decide, by decide, fun n hn => nomatch hn⟩

theorem plain_hour : HOUR.Plain := ⟨by decide, by decide, fun n hn => nomatch hn⟩

theorem plain_dom : DOM.Plain := ⟨by decide, by decide, fun n hn => nomatch hn⟩

/-- A name that starts with a letter is nothing that starts with a star. -/
theorem name_no_star {names : List String}
    (h : names.all (fun n => (n.toList.head?.map Char.toLower).any (· != '*')) = true) :
    ∀ n ∈ names, ∀ rest, eq_ignore_ascii_case n.toList ('*' :: rest) = false := by
  intro n hn rest
  have hhead := List.all_eq_true.mp h n hn
  unfold eq_ignore_ascii_case to_ascii_lowercase
  rw [beq_eq_false_iff_ne]
  intro heq
  rcases htext : n.toList with _ | ⟨c, cs⟩
  · rw [htext] at heq
    cases heq
  · rw [htext, map_cons, map_cons] at heq
    rw [htext] at hhead
    have hc : c.toLower = '*' := (List.cons.inj heq).1
    simp [hc] at hhead

theorem plain_month : MONTH.Plain := ⟨by decide, by decide, name_no_star (by decide)⟩

theorem plain_dow : DOW.Plain := ⟨by decide, by decide, name_no_star (by decide)⟩

variable {s : CronSpec}

theorem parse_accepted {expr : Str} {gap : ℕ} (h : parse expr gap = .ok s) :
    Accepted s := by
  unfold parse at h
  dsimp only at h
  split_ifs at h
  split at h
  next minute hour dom month dow _ =>
    obtain ⟨days, hdow, h⟩ := bind_ok h
    obtain ⟨minutes, hminute, h⟩ := bind_ok h
    obtain ⟨hours, hhour, h⟩ := bind_ok h
    obtain ⟨doms, hdom, h⟩ := bind_ok h
    obtain ⟨months, hmonth, h⟩ := bind_ok h
    split_ifs at h with hday hgap
    obtain rfl := Except.ok.inj h
    obtain ⟨⟨w, hw, hhasw⟩, hdowstar⟩ := field_has plain_dow hdow
    obtain ⟨⟨m, hm, hhasm⟩, -⟩ := field_has plain_minute hminute
    obtain ⟨⟨n, hn, hhasn⟩, -⟩ := field_has plain_hour hhour
    obtain ⟨⟨k, hk, hhask⟩, -⟩ := field_has plain_month hmonth
    obtain ⟨-, hdomstar⟩ := field_has plain_dom hdom
    refine ⟨⟨m, Nat.lt_succ_of_le hm.2, hhasm⟩, ⟨n, Nat.lt_succ_of_le hn.2, hhasn⟩,
      ⟨k, hk, hhask⟩, ?_, fun hstar => hdomstar (by simpa using hstar),
      fun hstar => ?_, by simpa using hday⟩
    · rcases Nat.lt_or_ge w 7 with hlt | hge
      · exact ⟨w, hlt, fold_sunday_has hlt hhasw⟩
      · obtain rfl : w = 7 := le_antisymm hw.2 hge
        exact ⟨0, by decide, fold_sunday_zero hhasw⟩
    · exact fold_sunday_has (by decide) (hdowstar (by simpa using hstar))
  · cases h

/-- The date an accepted line with a starred weekday field was accepted for. -/
theorem date_of_has_a_day (h : s.has_a_day = true) (hany : s.dow_any = true) :
    ∃ m d : ℕ, (1 ≤ m ∧ m ≤ 12) ∧ (1 ≤ d ∧ (d : ℤ) ≤ Gregorian.month_length true m) ∧
      has s.months m = true ∧ has s.dom d = true := by
  simp only [CronSpec.has_a_day, hany, Bool.not_true, Bool.false_eq_true, if_false,
    List.any_eq_true, mem_filter, mem_range'_1] at h
  obtain ⟨m, ⟨⟨h1, h12⟩, hm⟩, d, ⟨hd1, hdlen⟩, hd⟩ := h
  refine ⟨m, d, ⟨h1, by omega⟩, ⟨hd1, ?_⟩, hm, hd⟩
  have hm12 : m < 13 := by omega
  interval_cases m <;>
    simp only [Gregorian.month_length, Gregorian.days_before] <;> simp at hdlen ⊢ <;> omega

/-- Some date with some weekday satisfies the day fields, whichever way they combine. -/
theorem Accepted.date (h : Accepted s) :
    ∃ m d w : ℕ, (1 ≤ m ∧ m ≤ 12) ∧ (1 ≤ d ∧ (d : ℤ) ≤ Gregorian.month_length true m) ∧ w < 7 ∧
      has s.months m = true ∧
      (if s.dom_any || s.dow_any then has s.dom d && has s.dow w
        else has s.dom d || has s.dow w) = true := by
  by_cases hany : s.dow_any = true
  · obtain ⟨m, d, hm, hd, hhasm, hhasd⟩ := date_of_has_a_day h.some_day hany
    refine ⟨m, d, 0, hm, hd, by decide, hhasm, ?_⟩
    rw [hany, Bool.or_true, if_pos rfl, hhasd, h.dow_star hany]
    rfl
  -- the weekday is restricted, and the first of any month falls on it some year
  · obtain ⟨m, hm, hhasm⟩ := h.month
    obtain ⟨w, hw, hhasw⟩ := h.weekday
    have hlen := (Gregorian.month_length_bounds true hm).1
    refine ⟨m, 1, w, hm, ⟨le_refl _, by omega⟩, hw, hhasm, ?_⟩
    rw [Bool.not_eq_true] at hany
    rw [hany, Bool.or_false, hhasw]
    by_cases hdom : s.dom_any = true
    · rw [if_pos hdom, h.dom_star hdom]
      rfl
    · rw [if_neg hdom, Bool.or_true]

/-- From any day on an accepted line has a matching day. -/
theorem Accepted.matches_from (h : Accepted s) (n : ℤ) :
    ∃ x, n ≤ x ∧ x < n + 2 * 146097 ∧ s.day_matches x = true := by
  obtain ⟨m, d, w, hm, hd, hw, hhasm, hday⟩ := h.date
  obtain ⟨x, hx, hx', hmonth, hdayx, hweekday⟩ := Gregorian.exists_date hm hd w hw n
  refine ⟨x, hx, hx', ?_⟩
  unfold CronSpec.day_matches
  rw [hmonth, hdayx, hweekday, hhasm]
  exact hday

theorem Accepted.runs_before (h : Accepted s) : Timetable.RunsBefore s.day_matches := by
  intro d
  obtain ⟨x, -, hx, hruns⟩ := h.matches_from (d - 2 * 146097)
  exact ⟨x, by omega, hruns⟩

/-! ## The instants a line matches -/

/-- The line matches the instant `t`: its local clock shows a full minute, the minute
and the hour are in their fields, and the day is one `day_matches` accepts. -/
def CronSpec.Matches (s : CronSpec) (offset t : ℤ) : Prop :=
  (t + offset) % 60 = 0 ∧ has s.minutes ((t + offset) / 60 % 60).toNat = true ∧
    has s.hours ((t + offset) / 3600 % 24).toNat = true ∧
    s.day_matches (local_date offset t) = true

theorem mem_day_minutes {at_min : ℕ} :
    at_min ∈ s.day_minutes ↔
      at_min < 24 * 60 ∧ has s.hours (at_min / 60) = true ∧ has s.minutes (at_min % 60) = true := by
  simp only [CronSpec.day_minutes, mem_flatMap, mem_filter, mem_range, List.mem_map]
  constructor
  · rintro ⟨h, ⟨hh, hhas⟩, m, ⟨hm, hhasm⟩, rfl⟩
    rw [show (h * 60 + m) / 60 = h by omega, show (h * 60 + m) % 60 = m by omega]
    exact ⟨by omega, hhas, hhasm⟩
  · rintro ⟨hlt, hhas, hhasm⟩
    exact ⟨at_min / 60, ⟨by omega, hhas⟩, at_min % 60, ⟨by omega, hhasm⟩, by omega⟩

/-- The points of the days of a line, as the search looks at them. -/
def timetable (s : CronSpec) (offset : ℤ) : Timetable where
  start := day_start offset
  points := s.day_points offset
  sorted := fun d => epochs_sorted offset d s.day_minutes
  inside := by
    intro d p hp
    obtain ⟨m, -, hm, rfl⟩ := mem_epochs.mp hp
    rw [day_start_succ]
    omega
  start_mono := day_start_mono offset

/-- The points of the matching days are the instants the line matches. -/
theorem mem_pts {offset t : ℤ} :
    t ∈ (timetable s offset).pts s.day_matches ↔ s.Matches offset t := by
  constructor
  · rintro ⟨d, hruns, hp⟩
    have hdate : local_date offset t = d :=
      local_date_eq ((timetable s offset).inside d t hp).1 ((timetable s offset).inside d t hp).2
    obtain ⟨m, hm, hlt, rfl⟩ := mem_epochs.mp hp
    obtain ⟨-, hhour, hminute⟩ := mem_day_minutes.mp hm
    have hclock : day_start offset d + m * 60 + offset = (d - EPOCH_DAY) * 86400 + m * 60 := by
      unfold day_start
      omega
    refine ⟨?_, ?_, ?_, by rwa [hdate]⟩ <;> rw [hclock]
    · omega
    · rwa [show (((d - EPOCH_DAY) * 86400 + (m : ℤ) * 60) / 60 % 60).toNat = m % 60 by omega]
    · rwa [show (((d - EPOCH_DAY) * 86400 + (m : ℤ) * 60) / 3600 % 24).toNat = m / 60 by omega]
  · rintro ⟨hfull, hminute, hhour, hday⟩
    refine ⟨local_date offset t, hday, mem_epochs.mpr ?_⟩
    refine ⟨((t + offset) % 86400 / 60).toNat, mem_day_minutes.mpr ⟨by omega, ?_, ?_⟩, by omega, ?_⟩
    · rwa [show ((t + offset) % 86400 / 60).toNat / 60 = ((t + offset) / 3600 % 24).toNat by omega]
    · rwa [show ((t + offset) % 86400 / 60).toNat % 60 = ((t + offset) / 60 % 60).toNat by omega]
    · unfold day_start local_date
      omega

theorem Accepted.has_points (h : Accepted s) (offset d : ℤ) :
    (timetable s offset).points d ≠ [] := by
  obtain ⟨m, hm, hhasm⟩ := h.minute
  obtain ⟨n, hn, hhasn⟩ := h.hour
  refine ne_nil_of_mem (a := day_start offset d + ((n * 60 + m : ℕ) : ℤ) * 60)
    (mem_epochs.mpr ⟨n * 60 + m, mem_day_minutes.mpr ⟨by omega, ?_, ?_⟩, by omega, rfl⟩)
  · rwa [show (n * 60 + m) / 60 = n by omega]
  · rwa [show (n * 60 + m) % 60 = m by omega]

/-! ## Exactness -/

/-- The search is exact at `now`: it names the least matching instant after `now` and
the greatest one up to it. -/
def CronSpec.ExactAt (s : CronSpec) (offset now : ℤ) : Prop :=
  (∃ t, s.next_after offset now = some t ∧ IsLeast {t | now < t ∧ s.Matches offset t} t) ∧
    ∃ t, s.last_at_or_before offset now = some t ∧ IsGreatest {t | t ≤ now ∧ s.Matches offset t} t

/-- Some match after `now`, and some match up to it, is on a day within reach. -/
def CronSpec.InReach (s : CronSpec) (offset now : ℤ) : Prop :=
  (∃ t, now < t ∧ s.Matches offset t ∧
      local_date offset t < local_date offset now + SEARCH_DAYS) ∧
    ∃ t, t ≤ now ∧ s.Matches offset t ∧
      local_date offset now - SEARCH_DAYS < local_date offset t

section
variable {s : CronSpec} {offset now : ℤ}

theorem local_date_of_mem {d t : ℤ} (ht : t ∈ (timetable s offset).points d) :
    local_date offset t = d :=
  local_date_eq ((timetable s offset).inside d t ht).1 ((timetable s offset).inside d t ht).2

theorem pts_eq : (timetable s offset).pts s.day_matches = {t | s.Matches offset t} :=
  Set.ext fun _ => mem_pts

theorem next_after_eq : s.next_after offset now =
    (Timetable.days_forward s.day_matches (local_date offset now) SEARCH_DAYS).findSome? fun d =>
      ((timetable s offset).points d).find? fun p => now < p := rfl

theorem last_at_or_before_eq : s.last_at_or_before offset now =
    (Timetable.days_backward s.day_matches (local_date offset now) SEARCH_DAYS).findSome? fun d =>
      ((timetable s offset).points d).reverse.find? fun p => p ≤ now := rfl

/-- What the forward search finds is the least match after `now`. -/
theorem next_after_least {t : ℤ} (h : s.next_after offset now = some t) :
    IsLeast {t | now < t ∧ s.Matches offset t} t := by
  rw [next_after_eq] at h
  have hleast := Timetable.least_of_search Timetable.days_forward_ahead (day_start_le offset now) h
  rwa [pts_eq] at hleast

theorem last_at_or_before_greatest {t : ℤ} (h : s.last_at_or_before offset now = some t) :
    IsGreatest {t | t ≤ now ∧ s.Matches offset t} t := by
  rw [last_at_or_before_eq] at h
  have hgreatest :=
    Timetable.greatest_of_search Timetable.days_backward_behind (lt_day_start_succ offset now) h
  rwa [pts_eq] at hgreatest

/-- The forward search finds something exactly when a match is within reach. -/
theorem next_after_some_iff :
    (∃ t, s.next_after offset now = some t) ↔
      ∃ t, now < t ∧ s.Matches offset t ∧
        local_date offset t < local_date offset now + SEARCH_DAYS := by
  rw [next_after_eq, Timetable.search_iff]
  constructor
  · rintro ⟨d, hd, p, hp, hlt⟩
    obtain ⟨⟨-, hreach⟩, hruns⟩ := Timetable.mem_days_forward.mp hd
    exact ⟨p, hlt, mem_pts.mp ⟨d, hruns, hp⟩, by rwa [local_date_of_mem hp]⟩
  · rintro ⟨t, hlt, hmatch, hreach⟩
    obtain ⟨d, hruns, hp⟩ := mem_pts.mpr hmatch
    have hmono := local_date_mono offset (le_of_lt hlt)
    rw [local_date_of_mem hp] at hreach hmono
    exact ⟨d, Timetable.mem_days_forward.mpr ⟨⟨hmono, hreach⟩, hruns⟩, t, hp, hlt⟩

theorem last_at_or_before_some_iff :
    (∃ t, s.last_at_or_before offset now = some t) ↔
      ∃ t, t ≤ now ∧ s.Matches offset t ∧
        local_date offset now - SEARCH_DAYS < local_date offset t := by
  rw [last_at_or_before_eq, Timetable.search_back_iff]
  constructor
  · rintro ⟨d, hd, p, hp, hle⟩
    obtain ⟨⟨hreach, -⟩, hruns⟩ := Timetable.mem_days_backward.mp hd
    exact ⟨p, hle, mem_pts.mp ⟨d, hruns, hp⟩, by rwa [local_date_of_mem hp]⟩
  · rintro ⟨t, hle, hmatch, hreach⟩
    obtain ⟨d, hruns, hp⟩ := mem_pts.mpr hmatch
    have hmono := local_date_mono offset hle
    rw [local_date_of_mem hp] at hreach hmono
    exact ⟨d, Timetable.mem_days_backward.mpr ⟨⟨hreach, hmono⟩, hruns⟩, t, hp, hle⟩

/-- The search is exact at an instant exactly when a match on either side of it is on
a day within reach. -/
theorem exact_at_iff : s.ExactAt offset now ↔ s.InReach offset now := by
  unfold CronSpec.ExactAt CronSpec.InReach
  rw [← next_after_some_iff, ← last_at_or_before_some_iff]
  constructor
  · rintro ⟨⟨t, ht, -⟩, t', ht', -⟩
    exact ⟨⟨t, ht⟩, t', ht'⟩
  · rintro ⟨⟨t, ht⟩, t', ht'⟩
    exact ⟨⟨t, ht, next_after_least ht⟩, t', ht', last_at_or_before_greatest ht'⟩

/-- With no gap as long as the search, both searches find something. -/
theorem next_after_finds (hacc : Accepted s)
    (hgaps : Timetable.GapsBelow s.day_matches SEARCH_DAYS) (offset now : ℤ) :
    ∃ t, s.next_after offset now = some t := by
  rw [next_after_eq]
  exact Timetable.search_finds hgaps hacc.runs_before (hacc.has_points offset)
    (lt_day_start_succ offset now)

theorem last_at_or_before_finds (hacc : Accepted s)
    (hgaps : Timetable.GapsBelow s.day_matches SEARCH_DAYS) (offset now : ℤ) :
    ∃ t, s.last_at_or_before offset now = some t := by
  rw [last_at_or_before_eq]
  exact Timetable.search_finds_back hgaps hacc.runs_before (hacc.has_points offset)
    (day_start_le offset now)

/-- For an accepted line: the search is exact at an instant exactly when a match on
either side is on a day within reach, and at every instant exactly when no two
matching days, one after the other, are `SEARCH_DAYS` days or more apart. -/
theorem search_exact_iff {expr : Str} {gap : ℕ} (h : parse expr gap = .ok s) (offset : ℤ) :
    (∀ now, s.ExactAt offset now ↔ s.InReach offset now) ∧
      ((∀ now, s.ExactAt offset now) ↔ Timetable.GapsBelow s.day_matches SEARCH_DAYS) := by
  have hacc := parse_accepted h
  refine ⟨fun _ => exact_at_iff, fun hall d hruns => ?_, fun hgaps now => ?_⟩
  -- the last second of a matching day sees no more of that day
  · have hdate : local_date offset (day_start offset (d + 1) - 1) = d := by
      unfold day_start local_date
      omega
    obtain ⟨⟨t, hlt, hmatch, hreach⟩, -⟩ :=
      exact_at_iff.mp (hall (day_start offset (d + 1) - 1))
    rw [hdate] at hreach
    refine ⟨local_date offset t, hmatch.2.2.2, ?_, hreach⟩
    have hmono := local_date_mono offset (show day_start offset (d + 1) ≤ t by omega)
    have hnext : local_date offset (day_start offset (d + 1)) = d + 1 := by
      unfold day_start local_date
      omega
    omega
  · obtain ⟨t, ht⟩ := next_after_finds hacc hgaps offset now
    obtain ⟨t', ht'⟩ := last_at_or_before_finds hacc hgaps offset now
    exact ⟨⟨t, ht, next_after_least ht⟩, t', ht', last_at_or_before_greatest ht'⟩

end

/-- 29 February, on a weekday that a step of seven from Sunday reaches. -/
def leap_sunday : CronSpec :=
  { source := "0 0 29 2 */7".toList, minutes := 1, hours := 1, dom := 1 <<< 29, months := 4,
    dow := 1, dom_any := false, dow_any := true }

theorem parse_leap_sunday : parse "0 0 29 2 */7".toList 300 = .ok leap_sunday := by rfl

theorem search_exact_leap_sunday :
    (∀ now, leap_sunday.ExactAt 0 now ↔ leap_sunday.InReach 0 now) ∧
      ((∀ now, leap_sunday.ExactAt 0 now) ↔
        Timetable.GapsBelow leap_sunday.day_matches SEARCH_DAYS) :=
  search_exact_iff parse_leap_sunday 0

/-- The days the line matches are the Sundays among the 29ths of February. -/
theorem leap_sunday_days {d : ℤ} (h : leap_sunday.day_matches d = true) :
    ∃ y, y % 4 = 0 ∧ d = Gregorian.year_start y + 59 ∧ d % 7 = 0 := by
  have hmonths : ∀ n < 13, has leap_sunday.months n = true → n = 2 := by decide
  have hdoms : ∀ n < 32, has leap_sunday.dom n = true → n = 29 := by decide
  have hdows : ∀ n < 7, has leap_sunday.dow n = true → n = 0 := by decide
  obtain ⟨hmonth, -⟩ := Gregorian.month_bounds d
  have hday := Gregorian.day_bounds d
  have hlen := (Gregorian.month_length_bounds (Gregorian.is_leap (Gregorian.year d)) hmonth).2
  have hweekday : Gregorian.days_from_sunday d < 7 := by
    unfold Gregorian.days_from_sunday
    omega
  unfold CronSpec.day_matches at h
  split_ifs at h with hm
  · have h2 := hmonths (Gregorian.month d) (by omega) (by simpa using hm)
    obtain ⟨hd, hw⟩ := Bool.and_eq_true_iff.mp h
    have h29 := hdoms (Gregorian.day d) (by omega) hd
    have h0 := hdows _ hweekday hw
    refine ⟨Gregorian.year d, ?_, ?_, ?_⟩
    -- only a leap year's February has a 29th
    · by_contra hno
      have hleap : Gregorian.is_leap (Gregorian.year d) = false := by
        simp [Gregorian.is_leap, hno]
      rw [h2, h29, hleap] at hday
      exact absurd hday.2 (by decide)
    · have hread := Gregorian.of_ymd_eq d
      rw [h2, h29, Gregorian.of_ymd, Gregorian.days_before] at hread
      omega
    · unfold Gregorian.days_from_sunday at h0
      omega
  · exact absurd rfl ‹_›

/-- The line runs on 29 February 2032, a Sunday, and then in 2060; on the day after
the first of the two the search finds no next run. -/
theorem leap_sunday_not_exact :
    parse "0 0 29 2 */7".toList 300 = .ok leap_sunday ∧
      leap_sunday.next_after 0 1961712000 = none ∧
      (1961712000 : ℤ) < 2845238400 ∧ leap_sunday.Matches 0 2845238400 := by
  refine ⟨parse_leap_sunday, ?_, by decide, by decide, by decide, by decide, by decide +kernel⟩
  rcases hnext : leap_sunday.next_after 0 1961712000 with _ | t
  · rfl
  · obtain ⟨t, hlt, hmatch, hreach⟩ := next_after_some_iff.mp ⟨t, hnext⟩
    obtain ⟨y, h4, hstart, h7⟩ := leap_sunday_days hmatch.2.2.2
    have hmono := local_date_mono 0 (le_of_lt hlt)
    have htoday : local_date 0 1961712000 = 741868 := by decide
    rw [htoday] at hmono hreach
    rw [hstart] at h7 hmono hreach
    unfold Gregorian.year_start SEARCH_DAYS at *
    -- three leap years are in reach, and none of them has its day on a Sunday
    have hy : 2032 ≤ y ∧ y ≤ 2040 := by omega
    rcases (by omega : y = 2032 ∨ y = 2036 ∨ y = 2040) with rfl | rfl | rfl <;> omega

end Lpm.Jobs.Cron
