/-
How soon a calendar job runs again.

The searches of `jobs.rs` look a fixed number of days ahead: 62 for a rule over
months, 16 for weekdays some of which are picked anew each week. That is far
enough (`day_ok_soon`): every date a rule names comes round within 61 days, and
every week has a day that was picked.
-/
import Lpm.Jobs.FirePoints

set_option autoImplicit false

open Gregorian

namespace Lpm.Jobs

open List Option

/-! ## Weeks -/

/-- The loop picks out of the days it is given. -/
theorem pick_from_sub (left i : ℕ) (rest : List ℕ) (h : UInt64) (hleft : left ≤ rest.length) :
    ∀ w ∈ pick_from left i rest h, w ∈ rest := by
  induction left generalizing i rest h with
  | zero =>
    intro w hw
    exact absurd hw not_mem_nil
  | succ left ih =>
    intro w hw
    have hk : (draw h i 0).toNat % rest.length < rest.length := Nat.mod_lt _ (by omega)
    rcases mem_cons.mp hw with rfl | hw
    · rw [getD_eq_getElem _ _ hk]
      exact getElem_mem hk
    · refine mem_of_mem_eraseIdx (ih _ _ _ ?_ w hw)
      rw [length_eraseIdx_of_lt hk]
      omega

/-- Of a pool that has days at least one is picked. -/
theorem picked_days_mem {pool : List ℕ} {n : ℕ} (hpool : pool ≠ []) (hn : 1 ≤ n)
    (week_seed : UInt64) : ∃ w ∈ picked_days pool n week_seed, w ∈ pool := by
  have hlen : 0 < pool.length := length_pos_iff.mpr hpool
  obtain ⟨left, hleft⟩ : ∃ left, min n pool.length = left + 1 := ⟨min n pool.length - 1, by omega⟩
  have hsub := pick_from_sub (left + 1) 0 pool week_seed (by omega)
  unfold picked_days
  rw [hleft]
  exact ⟨_, mem_cons_self, hsub _ mem_cons_self⟩

theorem day_pool_ne_nil (days : List ℕ) : day_pool days ≠ [] := by
  unfold day_pool
  split_ifs with h
  · decide
  · simpa using h

theorem day_pool_lt {days : List ℕ} (h : ∀ d ∈ days, d < 7) : ∀ w ∈ day_pool days, w < 7 := by
  unfold day_pool
  split_ifs
  · exact fun w hw => mem_range.mp hw
  · exact h

/-- The days of a week share its Thursday. -/
theorem week_thursday_eq (date : ℤ) {w : ℕ} (hw : w < 7) :
    weekday_of (date - weekday_of date + w) = w ∧
      week_thursday (date - weekday_of date + w) = week_thursday date := by
  unfold week_thursday weekday_of days_from_monday
  omega

section
variable {spec : CalendarSpec} {seed : UInt64}

/-- Every week has a day that a job on weekdays runs on. -/
theorem day_ok_in_week (seed : UInt64) (hs : spec.Sound) (hdates : spec.dates = none) (date : ℤ) :
    ∃ w : ℕ, w < 7 ∧ day_ok spec seed (date - weekday_of date + w) = true := by
  obtain ⟨w, hpicked, hpool⟩ : ∃ w, (∀ n, spec.pick_days = some n →
      w ∈ picked_days (day_pool spec.days) n (draw seed (iso_year date) (iso_week date))) ∧
      w ∈ day_pool spec.days := by
    rcases hpick : spec.pick_days with _ | n
    · obtain ⟨w, hw⟩ := exists_mem_of_ne_nil _ (day_pool_ne_nil spec.days)
      exact ⟨w, nofun, hw⟩
    · obtain ⟨w, hw, hpool⟩ := picked_days_mem (day_pool_ne_nil spec.days) (hs.pick n hpick)
        (draw seed (iso_year date) (iso_week date))
      refine ⟨w, ?_, hpool⟩
      intro n' hn'
      rwa [← some.inj hn']
  have hw7 := day_pool_lt hs.days_lt w hpool
  obtain ⟨hweekday, hthursday⟩ := week_thursday_eq date hw7
  refine ⟨w, hw7, ?_⟩
  unfold day_ok iso_week iso_year
  rw [hdates, hweekday, hthursday]
  dsimp only
  rw [if_neg (by simpa using hpool)]
  rcases hpick : spec.pick_days with _ | n
  · rfl
  · exact contains_iff_mem.mpr (hpicked n hpick)

/-! ## Months -/

theorem days_in_month_eq (date : ℤ) : (days_in_month date : ℤ) = month_days date := by
  have hlen := month_days_bounds date
  unfold days_in_month
  exact Int.toNat_of_nonneg (by unfold month_days at hlen; omega)

/-- A date of the month, reached from any day of that month. -/
theorem date_of_month_day (date : ℤ) {k : ℕ} (hk : 1 ≤ k) (hlen : k ≤ days_in_month date) :
    day (date - day date + k) = k ∧ days_in_month (date - day date + k) = days_in_month date ∧
      ∀ m, with_day (date - day date + k) m = date - day date + m := by
  have hdim := days_in_month_eq date
  obtain ⟨hday, hdays⟩ := same_month date hk (by omega)
  refine ⟨hday, ?_, ?_⟩
  · have := days_in_month_eq (date - day date + k)
    omega
  · intro m
    unfold with_day
    rw [hday]
    omega

/-- Any seven days in a row hold five workdays. -/
theorem four_workdays (base : ℤ) :
    4 ≤ ((List.range' 1 7).filter fun day => weekday_of (base + (day : ℕ)) < 5).length := by
  have hweek : ∀ r < 7,
      4 ≤ ((List.range' 1 7).filter fun day => (r + day + 6) % 7 < 5).length := by decide
  obtain ⟨r, hr⟩ : ∃ r : ℕ, r = (base % 7).toNat := ⟨_, rfl⟩
  refine le_trans (hweek r (by omega)) (le_of_eq ?_)
  congr 1
  refine filter_congr ?_
  intro day _
  have : weekday_of (base + (day : ℕ)) = (r + day + 6) % 7 := by
    unfold weekday_of days_from_monday
    omega
  rw [this]

section
variable {nth : ℕ} {date : ℤ} (hnth : 1 ≤ nth) (hlast : nth ≤ LAST)
include hnth hlast

theorem nth_day_in_month :
    ∃ k : ℕ, 1 ≤ k ∧ k ≤ days_in_month date ∧ nth_matches (date - day date + k) nth .Day = true := by
  have hdim := days_in_month_eq date
  have hlen := month_days_bounds date
  change nth ≤ 5 at hlast
  obtain ⟨k, hk⟩ : ∃ k, k = if nth = LAST then days_in_month date else nth := ⟨_, rfl⟩
  have hk' : 1 ≤ k ∧ k ≤ days_in_month date := by
    unfold LAST at hk
    split_ifs at hk <;> omega
  obtain ⟨hday, hdays, -⟩ := date_of_month_day date hk'.1 hk'.2
  refine ⟨k, hk'.1, hk'.2, ?_⟩
  unfold nth_matches
  dsimp only
  rw [hday, hdays, ← hk]
  exact beq_self_eq_true k

theorem nth_weekday_in_month {w : ℕ} (hw : w < 7) : ∃ k : ℕ, 1 ≤ k ∧ k ≤ days_in_month date ∧
    nth_matches (date - day date + k) nth (.Weekday w) = true := by
  have hdim := days_in_month_eq date
  have hlen := month_days_bounds date
  change nth ≤ 5 at hlast
  -- the day among the last seven, or among the seven of that position
  obtain ⟨k, hk, hle, hweekday, hpos⟩ : ∃ k : ℕ, 1 ≤ k ∧ k ≤ days_in_month date ∧
      weekday_of (date - day date + k) = w ∧
        if nth = 5 then days_in_month date < k + 7 else (k - 1) / 7 + 1 = nth := by
    obtain ⟨base, hbase⟩ : ∃ base, base = date - day date := ⟨_, rfl⟩
    rw [← hbase]
    unfold weekday_of days_from_monday
    by_cases h5 : nth = 5
    · simp only [h5, if_true]
      refine ⟨(days_in_month date - (base + days_in_month date - 1 - w) % 7).toNat, ?_⟩
      omega
    · simp only [h5, if_false]
      refine ⟨(7 * (nth - 1) + 1 + (w - base - 7 * (nth - 1)) % 7 : ℤ).toNat, ?_⟩
      omega
  obtain ⟨hday, hdays, -⟩ := date_of_month_day date hk hle
  refine ⟨k, hk, hle, ?_⟩
  unfold nth_matches LAST
  dsimp only
  rw [hday, hdays, hweekday, beq_self_eq_true, Bool.true_and]
  split_ifs at hpos ⊢
  · exact decide_eq_true hpos
  · exact beq_iff_eq.mpr hpos

theorem nth_workday_in_month : ∃ k : ℕ, 1 ≤ k ∧ k ≤ days_in_month date ∧
    nth_matches (date - day date + k) nth .Workday = true := by
  have hdim := days_in_month_eq date
  have hlen := month_days_bounds date
  change nth ≤ 5 at hlast
  obtain ⟨workdays, hworkdays⟩ : ∃ workdays, workdays = (List.range' 1 (days_in_month date)).filter
      fun m => weekday_of (date - day date + (m : ℕ)) < 5 := ⟨_, rfl⟩
  have hmany : 4 ≤ workdays.length := by
    -- the first week of the month alone has that many
    obtain ⟨rest, hrest⟩ : ∃ rest, days_in_month date = 7 + rest := ⟨days_in_month date - 7, by omega⟩
    rw [hworkdays, hrest, ← range'_append_1, filter_append, length_append]
    have := four_workdays (date - day date)
    omega
  obtain ⟨k, hk⟩ : ∃ k, (if nth = LAST then workdays.getLast? else workdays[nth - 1]?) = some k := by
    unfold LAST
    split_ifs with h5
    · refine ⟨workdays.getLast (length_pos_iff.mp (by omega)), ?_⟩
      exact getLast?_eq_some_getLast _
    · exact ⟨workdays.get ⟨nth - 1, by omega⟩, getElem?_eq_getElem _⟩
  have hmem : k ∈ workdays := by
    split_ifs at hk
    · exact mem_of_getLast? hk
    · exact mem_of_getElem? hk
  rw [hworkdays, mem_filter, mem_range'_1, decide_eq_true_eq] at hmem
  obtain ⟨hday, hdays, hwith⟩ := date_of_month_day date hmem.1.1 (by omega)
  refine ⟨k, hmem.1.1, by omega, ?_⟩
  unfold nth_matches
  dsimp only
  rw [if_neg (by omega), hday, hdays]
  simp only [hwith, ← hworkdays, hk, beq_self_eq_true]

end

/-- A rule over months has a day in every month, or names a date of the month. -/
theorem month_rule_soon {rule : DateRule} (hs : rule.Sound) (hon : ∀ dates, rule ≠ .On dates)
    (date : ℤ) : ∃ d, date < d ∧ d < date + 62 ∧ rule.matches d = true := by
  rcases rule with ⟨days, last, fill⟩ | ⟨nth, of⟩ | dates
  · obtain ⟨hsome, hin⟩ := hs
    rcases hsome with hlast | hdays
    -- the last day of the next month
    · refine month_soon (P := fun d => DateRule.matches (.MonthDays days last fill) d = true) ?_ date
      intro date
      have hdim := days_in_month_eq date
      have hlen := month_days_bounds date
      obtain ⟨hday, hdays, -⟩ := date_of_month_day date (show 1 ≤ days_in_month date by omega) le_rfl
      refine ⟨days_in_month date, by omega, by omega, ?_⟩
      unfold DateRule.matches
      dsimp only
      rw [hday, hdays, hlast, beq_self_eq_true]
      simp
    · obtain ⟨k, hk⟩ := exists_mem_of_ne_nil _ hdays
      obtain ⟨d, hlt, hgap, hday⟩ := date_soon date (hin k hk).1 (hin k hk).2
      refine ⟨d, hlt, hgap, ?_⟩
      unfold DateRule.matches
      dsimp only
      rw [hday, contains_iff_mem.mpr hk, Bool.true_or]
  · refine month_soon (P := fun d => DateRule.matches (.Nth nth of) d = true) ?_ date
    intro date
    have hdim := days_in_month_eq date
    have hmonth : ∃ k : ℕ, 1 ≤ k ∧ k ≤ days_in_month date ∧
        nth_matches (date - day date + k) nth of = true := by
      obtain ⟨⟨hnth, hlast⟩, hweekday⟩ := hs
      rcases of with w | - | -
      · exact nth_weekday_in_month hnth hlast (hweekday w rfl)
      · exact nth_day_in_month hnth hlast
      · exact nth_workday_in_month hnth hlast
    obtain ⟨k, hk, hle, hmatch⟩ := hmonth
    exact ⟨k, hk, by omega, hmatch⟩
  · exact absurd rfl (hon dates)

/-- A job that does not name its dates outright runs again within its lookaround. -/
theorem day_ok_soon (seed : UInt64) (hs : spec.Sound) {n : ℕ} (hn : lookaround spec = some n) (date : ℤ) :
    ∃ d, date < d ∧ d < date + n ∧ day_ok spec seed d = true := by
  rcases hdates : spec.dates with _ | rule
  -- a day of the next week
  · obtain ⟨w, hw, hok⟩ := day_ok_in_week seed hs hdates (date + 7)
    have hn16 : n = 16 := by
      unfold lookaround at hn
      rw [hdates] at hn
      exact (some.inj hn).symm
    have hmonday : (weekday_of (date + 7) : ℤ) < 7 := by
      unfold weekday_of days_from_monday
      omega
    exact ⟨_, by omega, by omega, hok⟩
  · have hon : ∀ dates, rule ≠ .On dates := by
      rintro dates rfl
      unfold lookaround at hn
      rw [hdates] at hn
      cases hn
    have hn62 : n = 62 := by
      rw [lookaround, hdates] at hn
      rcases rule with ⟨days, last, fill⟩ | ⟨nth, of⟩ | dates
      · exact (some.inj hn).symm
      · exact (some.inj hn).symm
      · exact absurd rfl (hon dates)
    obtain ⟨d, hlt, hgap, hmatch⟩ := month_rule_soon (hs.rule rule hdates) hon date
    refine ⟨d, hlt, by omega, ?_⟩
    unfold day_ok
    rw [hdates]
    exact hmatch

end

/-! ## The searches reach far enough

`candidate_days` lists the days next to today, 16 of them for weekdays and 62 for
a rule over months. With `day_ok_soon` no two days the job runs on, one after the
other, are that far apart, so the search ahead has one after today in reach and the
search back one before today, whatever the clock shows. What they then find is the
nearest fire point of all, days out of reach included. -/

open DaySearch

section
variable {spec : CalendarSpec} {n : ℕ}

/-- The days of a job that does not name its dates outright are never as far apart
as its search looks. -/
theorem day_ok_gaps (seed : UInt64) (hs : spec.Sound) (hn : lookaround spec = some n) :
    Timetable.GapsBelow (day_ok spec seed) n := by
  intro date _
  obtain ⟨d, hlt, hgap, hok⟩ := day_ok_soon seed hs hn date
  exact ⟨d, hok, hlt, hgap⟩

theorem day_ok_runs_before (seed : UInt64) (hs : spec.Sound) (hn : lookaround spec = some n) :
    Timetable.RunsBefore (day_ok spec seed) := by
  intro date
  obtain ⟨d, -, hgap, hok⟩ := day_ok_soon seed hs hn (date - n)
  exact ⟨d, by omega, hok⟩

variable (offset now : ℤ) (seed : UInt64)

theorem next_fire_point_some (hs : spec.Sound) (hn : lookaround spec = some n) :
    ∃ t, next_fire_point spec offset now seed = some t := by
  unfold next_fire_point
  dsimp only
  rw [candidate_days_near hn]
  exact Timetable.search_finds (T := fire_timetable hs offset seed) (day_ok_gaps seed hs hn)
    (day_ok_runs_before seed hs hn) (fun _ => day_fire_points_ne_nil hs)
    (lt_day_start_succ offset now)

theorem most_recent_fire_point_some (hs : spec.Sound) (hn : lookaround spec = some n) :
    ∃ t, most_recent_fire_point spec offset now seed = some t := by
  unfold most_recent_fire_point
  dsimp only
  rw [candidate_days_near hn]
  exact Timetable.search_finds_back (T := fire_timetable hs offset seed) (day_ok_gaps seed hs hn)
    (day_ok_runs_before seed hs hn) (fun _ => day_fire_points_ne_nil hs)
    (day_start_le offset now)

/-- Only calendar dates are looked at whole. -/
theorem lookaround_some (hdates : ∀ dates, spec.dates ≠ some (.On dates)) :
    ∃ n, lookaround spec = some n := by
  rcases hn : lookaround spec with _ | n
  · obtain ⟨dates, hon⟩ := lookaround_none hn
    exact absurd hon (hdates dates)
  · exact ⟨n, rfl⟩

/-- Both searches of a job that does not name its dates outright find something, and
what they find is the nearest fire point on its side of `now`. -/
theorem nearest_fire_points {ops : TextOps} {sched : ScheduleDef}
    (h : resolve_calendar ops sched = .ok spec)
    (hdates : ∀ dates, spec.dates ≠ some (.On dates)) :
    (∃ t, next_fire_point spec offset now seed = some t ∧
        IsLeast {p | now < p ∧ IsFirePoint spec offset seed p} t) ∧
      ∃ t, most_recent_fire_point spec offset now seed = some t ∧
        IsGreatest {p | p ≤ now ∧ IsFirePoint spec offset seed p} t := by
  have hs := resolve_calendar_sound h
  obtain ⟨n, hn⟩ := lookaround_some hdates
  obtain ⟨t, ht⟩ := next_fire_point_some offset now seed hs hn
  obtain ⟨t', ht'⟩ := most_recent_fire_point_some offset now seed hs hn
  exact ⟨⟨t, ht, next_least hs ht⟩, t', ht', most_recent_greatest hs ht'⟩

end

/-- At nine on the 31st of the months that have one, which leaves 61 days between
31 March and 31 May. -/
def on_the_31st : ScheduleDef :=
  { «at» := .One "09:00".toList, «until» := [], times := none, days := .List [.Num 31],
    short_months := [], pick_days := none, every := none, manual := false, cron := [] }

def spec_31st : CalendarSpec :=
  { at_min := 540, also_at := [], until_min := none, times := 1, days := [], pick_days := none,
    dates := some (.MonthDays [31] false false) }

theorem on_the_31st_resolves : resolve_calendar ascii_ops on_the_31st = .ok spec_31st := by rfl

/-- At the run of 31 March 2026, with the next one 61 days away. -/
theorem nearest_fire_points_31st :
    (∃ t, next_fire_point spec_31st 0 1774947600 7 = some t ∧
        IsLeast {p | 1774947600 < p ∧ IsFirePoint spec_31st 0 7 p} t) ∧
      ∃ t, most_recent_fire_point spec_31st 0 1774947600 7 = some t ∧
        IsGreatest {p | p ≤ 1774947600 ∧ IsFirePoint spec_31st 0 7 p} t :=
  nearest_fire_points 0 1774947600 7 on_the_31st_resolves (by intro dates h; cases h)

end Lpm.Jobs
