/-
What the schedules that resolve are like.

Everything a search for a fire point relies on was checked when the job file was
read: the days of a rule exist, the times of a day are in order and lie in the
day, a window ends after it starts and has room for its runs.
-/
import Lpm.Jobs.CronExact
import Lpm.Jobs.Schedule

set_option autoImplicit false

open OrdMap RustText Fallible

namespace Lpm.Jobs

open List Option

/-! ## Days -/

/-- A rule that can be met: its days are dates of the month, its position is one a
month has, its calendar dates are in order. -/
def DateRule.Sound : DateRule → Prop
  | .MonthDays days last _ => (last = true ∨ days ≠ []) ∧ ∀ d ∈ days, 1 ≤ d ∧ d ≤ 31
  | .Nth nth of => (1 ≤ nth ∧ nth ≤ LAST) ∧ ∀ w, of = .Weekday w → w < 7
  | .On dates => dates.Pairwise (· < ·)

def ParsedDays.Sound : ParsedDays → Prop
  | .Weekdays days => ∀ d ∈ days, d < 7
  | .Rule rule => rule.Sound

section
variable {ops : TextOps} {text : Str}

theorem parse_day_lt {w : ℕ} (h : parse_day ops text = .ok w) : w < 7 := by
  unfold parse_day at h
  dsimp only at h
  split at h
  next i hi =>
    obtain rfl := Except.ok.inj h
    obtain ⟨hlt, -⟩ := findIdx?_eq_some_iff_getElem.mp hi
    exact hlt
  · cases h

theorem parse_nth_sound {rule : DateRule} (h : parse_nth ops text = some rule) :
    rule.Sound := by
  unfold parse_nth at h
  split at h
  next nth of _ =>
    split at h
    · cases h
    next i hi =>
      obtain ⟨hlt, -⟩ := findIdx?_eq_some_iff_getElem.mp hi
      have hnth : 1 ≤ i + 1 ∧ i + 1 ≤ LAST := ⟨by omega, hlt⟩
      split_ifs at h
      · cases h
        exact ⟨hnth, nofun⟩
      · cases h
        exact ⟨hnth, nofun⟩
      · split at h
        next w hw =>
          cases h
          refine ⟨hnth, ?_⟩
          intro w' heq
          rw [← NthOf.Weekday.inj heq]
          exact parse_day_lt hw
        · cases h
  · cases h

theorem finish_sound (parsed : ParsedDays) {done : ParsedDays} {short_months : Str}
    (hparsed : parsed.Sound) (h : finish ops parsed short_months = .ok done) : done.Sound := by
  unfold finish at h
  obtain ⟨fill, -, h⟩ := bind_ok h
  split at h
  · obtain rfl := Except.ok.inj h
    exact hparsed
  · cases h
  · obtain rfl := Except.ok.inj h
    exact hparsed

/-- What the loop of `parse_days` has gathered are days that exist. -/
structure GatheredDays.Sound (g : GatheredDays) : Prop where
  weekdays_lt : ∀ d ∈ g.weekdays, d < 7
  dates_in : ∀ d ∈ g.dates, 1 ≤ d ∧ d ≤ 31

theorem date_of_month_in {n : ℤ} {kind : DayKind} (h : date_of_month n = .ok kind) :
    ∃ d, kind = .Date d ∧ 1 ≤ d ∧ d ≤ 31 := by
  unfold date_of_month at h
  split_ifs at h with hn
  obtain rfl := Except.ok.inj h
  exact ⟨n.toNat, rfl, by omega, by omega⟩

/-- What `classify` makes of an item is a day that exists. -/
def DayKind.Sound : DayKind → Prop
  | .Weekday w => w < 7
  | .Date d => 1 ≤ d ∧ d ≤ 31
  | _ => True

theorem classify_sound {item : DayItem} {kind : DayKind} (h : classify ops item = .ok kind) :
    kind.Sound := by
  unfold classify at h
  split at h
  · obtain ⟨d, rfl, hd⟩ := date_of_month_in h
    exact hd
  · dsimp only at h
    split_ifs at h
    · obtain rfl := Except.ok.inj h
      exact trivial
    · split at h
      · obtain ⟨d, rfl, hd⟩ := date_of_month_in h
        exact hd
      · split at h
        · obtain rfl := Except.ok.inj h
          exact trivial
        · obtain ⟨w, hday, rfl⟩ := map_ok h
          exact parse_day_lt hday

theorem gather_day_sound {g g' : GatheredDays} {item : DayItem} (hg : g.Sound)
    (h : gather_day ops g item = .ok g') : g'.Sound := by
  unfold gather_day at h
  obtain ⟨kind, hkind, h⟩ := bind_ok h
  have hsound := classify_sound hkind
  obtain ⟨hweekdays, hdates⟩ := hg
  rcases kind with w | d | - | date
  all_goals
    obtain rfl := Except.ok.inj h
    refine ⟨?_, ?_⟩
    all_goals
      intro x hx
      simp only [mem_append, mem_singleton] at hx
      grind -ring -linarith -ac [DayKind.Sound]

theorem parse_days_sound {value : DaysValue} {short_months : Str} {parsed : ParsedDays}
    (h : parse_days ops value short_months = .ok parsed) : parsed.Sound := by
  unfold parse_days at h
  dsimp only at h
  split at h
  · split at h
    next rule hrule =>
      exact finish_sound (.Rule rule) (parse_nth_sound hrule) h
    · cases h
  · obtain ⟨g, hg, h⟩ := bind_ok h
    obtain ⟨hweekdays, hdates⟩ := foldlM_ok (P := GatheredDays.Sound)
      (fun _ _ _ hg hstep => gather_day_sound hg hstep)
      ⟨fun _ hd => absurd hd not_mem_nil, fun _ hd => absurd hd not_mem_nil⟩ hg
    split_ifs at h with hmix hon hmonth
    · exact finish_sound (.Rule (.On (ordered_set g.on))) (ordered_set_sorted g.on) h
    · refine finish_sound (.Rule (.MonthDays (ordered_set g.dates) g.last false))
        ⟨?_, fun d hd => hdates d (mem_ordered_set.mp hd)⟩ h
      rcases Bool.or_eq_true_iff.mp hmonth with hne | hlast
      · right
        intro hnil
        rcases hlist : g.dates with _ | ⟨d, ds⟩
        · simp [hlist] at hne
        · have hmem : d ∈ ordered_set g.dates := mem_ordered_set.mpr (by simp [hlist])
          rw [hnil] at hmem
          exact absurd hmem not_mem_nil
      · exact Or.inl hlast
    · exact finish_sound (.Weekdays (ordered_set g.weekdays))
        (fun d hd => hweekdays d (mem_ordered_set.mp hd)) h

/-! ## Times of day -/

theorem parse_at_minutes_lt {m : ℕ} (h : parse_at_minutes text = .ok m) :
    m < 24 * 60 := by
  unfold parse_at_minutes at h
  dsimp only at h
  split at h
  · cases h
  · split at h
    · split_ifs at h with hbad
      obtain rfl := Except.ok.inj h
      simp only [Bool.or_eq_true, decide_eq_true_eq, not_or, not_lt] at hbad
      omega
    · cases h

theorem parse_until_lt {stop : Option ℕ} (h : parse_until text = .ok stop) :
    ∀ u, stop = some u → u < 24 * 60 := by
  intro u hu
  subst hu
  unfold parse_until at h
  split_ifs at h
  · cases h
  · obtain ⟨m, hm, heq⟩ := map_ok h
    cases heq
    exact parse_at_minutes_lt hm

/-- A window has one start, ends after it and has room for its runs. -/
theorem check_times_window {at_min u times : ℕ} {also_at : List ℕ}
    (h : check_times at_min also_at (some u) times = .ok ()) :
    also_at = [] ∧ at_min < u ∧ MIN_INTERVAL_SECS ≤ (u - at_min) * 60 / times := by
  unfold check_times at h
  dsimp only at h
  split_ifs at h with halso hend hroom
  exact ⟨by simpa using halso, not_le.mp hend, not_lt.mp hroom⟩

/-- What `resolve_calendar` hands on. -/
structure CalendarSpec.Sound (spec : CalendarSpec) : Prop where
  times_sorted : (spec.at_min :: spec.also_at).Pairwise (· < ·)
  times_lt : ∀ m ∈ spec.at_min :: spec.also_at, m < 24 * 60
  window : ∀ u, spec.until_min = some u →
    spec.also_at = [] ∧ spec.at_min < u ∧ u < 24 * 60 ∧ 1 ≤ spec.times ∧
      MIN_INTERVAL_SECS ≤ (u - spec.at_min) * 60 / spec.times
  pick : ∀ n, spec.pick_days = some n → 1 ≤ n
  days_lt : ∀ d ∈ spec.days, d < 7
  rule : ∀ rule, spec.dates = some rule → rule.Sound

theorem resolve_pick_days_pos {pick picked : Option ℕ} {days : List ℕ}
    (h : resolve_pick_days pick days = .ok picked) : ∀ n, picked = some n → 1 ≤ n := by
  intro n hn
  subst hn
  unfold resolve_pick_days at h
  dsimp only at h
  generalize (if days.isEmpty then 7 else days.length) = pool at h
  split at h
  · cases h
  · cases h
  next m hm =>
    split_ifs at h
    · cases h
    · obtain rfl := some.inj (Except.ok.inj h)
      exact Nat.one_le_iff_ne_zero.mpr fun h0 => hm h0

variable {sched : ScheduleDef}

theorem resolve_calendar_sound {spec : CalendarSpec}
    (h : resolve_calendar ops sched = .ok spec) : spec.Sound := by
  unfold resolve_calendar at h
  obtain ⟨ats, hats, h⟩ := bind_ok h
  have hlt : ∀ m ∈ ordered_set ats, m < 24 * 60 := by
    intro m hm
    obtain ⟨text, -, hparse⟩ := mapM_ok hats m (mem_ordered_set.mp hm)
    exact parse_at_minutes_lt hparse
  have hsorted := ordered_set_sorted ats
  split at h
  · cases h
  next at_min also_at htimes =>
    rw [htimes] at hlt hsorted
    obtain ⟨parsed, hparsed, h⟩ := bind_ok h
    obtain ⟨stop, hstop, h⟩ := bind_ok h
    obtain ⟨_, hcheck, h⟩ := bind_ok h
    split_ifs at h
    obtain ⟨pick, hpick, h⟩ := bind_ok h
    obtain rfl := Except.ok.inj h
    have hdays := parse_days_sound hparsed
    refine ⟨hsorted, hlt, ?_, resolve_pick_days_pos hpick, ?_, ?_⟩
    · intro u hu
      obtain rfl : stop = some u := hu
      obtain ⟨halso, hend, hroom⟩ := check_times_window hcheck
      exact ⟨halso, hend, parse_until_lt hstop u rfl, le_max_right _ _, hroom⟩
    · rcases parsed with days | rule
      · exact hdays
      · exact fun d hd => absurd hd not_mem_nil
    · intro rule hrule
      rcases parsed with days | rule'
      · cases hrule
      · cases hrule
        exact hdays

/-! ## Intervals -/

theorem parse_every_secs_bounds {v : EveryValue} {secs : ℕ} (h : parse_every_secs ops v = .ok secs) :
    MIN_INTERVAL_SECS ≤ secs ∧ secs < 2 ^ 64 := by
  unfold parse_every_secs at h
  obtain ⟨secs', hsecs, h⟩ := bind_ok h
  split_ifs at h with hmin
  obtain rfl := Except.ok.inj h
  refine ⟨not_lt.mp hmin, ?_⟩
  unfold every_secs at hsecs
  split at hsecs
  · split_ifs at hsecs
    obtain rfl := Except.ok.inj hsecs
    exact Nat.mod_lt _ (by decide)
  · dsimp only at hsecs
    split at hsecs
    · cases hsecs
    · split_ifs at hsecs with hlt
      obtain rfl := Except.ok.inj hsecs
      exact hlt

theorem parse_every_band_bounds {v : EveryValue} {lo hi : ℕ}
    (h : parse_every_band ops v = .ok (lo, hi)) : MIN_INTERVAL_SECS ≤ lo ∧ lo ≤ hi ∧ hi < 2 ^ 64 := by
  have hfixed : (parse_every_secs ops v).map (fun s => (s, s)) = .ok (lo, hi) →
      MIN_INTERVAL_SECS ≤ lo ∧ lo ≤ hi ∧ hi < 2 ^ 64 := by
    intro h
    obtain ⟨s, hsecs, heq⟩ := map_ok h
    cases heq
    obtain ⟨hmin, hmax⟩ := parse_every_secs_bounds hsecs
    exact ⟨hmin, le_refl _, hmax⟩
  unfold parse_every_band at h
  dsimp only at h
  split at h
  · exact hfixed h
  · split at h
    · exact hfixed h
    · split_ifs at h
      obtain ⟨min, hmin, h⟩ := bind_ok h
      obtain ⟨max, hmax, h⟩ := bind_ok h
      split_ifs at h with hback
      cases h
      exact ⟨(parse_every_secs_bounds hmin).1, not_lt.mp hback, (parse_every_secs_bounds hmax).2⟩

structure IntervalLimits.Sound (l : IntervalLimits) : Prop where
  window : ∀ start stop, l.window = some (start, stop) → start < stop ∧ stop < 24 * 60
  days_lt : ∀ d ∈ l.days, d < 7

theorem resolve_window_bounds {ats : List Str} {stop : Str} {window : Option (ℕ × ℕ)}
    (h : resolve_window ats stop = .ok window) :
    ∀ a b, window = some (a, b) → a < b ∧ b < 24 * 60 := by
  intro a b hab
  subst hab
  unfold resolve_window at h
  split at h
  · cases h
  · obtain ⟨start, -, h⟩ := bind_ok h
    obtain ⟨stop, hstop, h⟩ := bind_ok h
    split_ifs at h with hend
    obtain ⟨rfl, rfl⟩ := Prod.ext_iff.mp (some.inj (Except.ok.inj h))
    exact ⟨not_le.mp hend, parse_at_minutes_lt hstop⟩
  · cases h
  · cases h
  · cases h

/-- What `resolve_schedule` hands on. -/
def Schedule.Sound : Schedule → Prop
  | .Interval min_secs max_secs limits =>
    MIN_INTERVAL_SECS ≤ min_secs ∧ min_secs ≤ max_secs ∧ max_secs < 2 ^ 64 ∧
      ∀ l, limits = some l → l.Sound
  | .Calendar spec => spec.Sound
  | .Cron spec => Cron.Accepted spec
  | .Manual => True

theorem resolve_interval_sound {every : EveryValue} {schedule : Schedule}
    (h : resolve_interval ops sched every = .ok schedule) : schedule.Sound := by
  unfold resolve_interval at h
  split_ifs at h
  obtain ⟨window, hwindow, h⟩ := bind_ok h
  obtain ⟨parsed, hparsed, h⟩ := bind_ok h
  obtain ⟨days, hdays, h⟩ := bind_ok h
  obtain ⟨⟨lo, hi⟩, hband, h⟩ := bind_ok h
  obtain rfl := Except.ok.inj h
  obtain ⟨hmin, hle, hmax⟩ := parse_every_band_bounds hband
  refine ⟨hmin, hle, hmax, ?_⟩
  intro l hl
  split_ifs at hl
  cases hl
  refine ⟨resolve_window_bounds hwindow, ?_⟩
  rcases parsed with ds | rule
  · obtain rfl := Except.ok.inj hdays
    exact parse_days_sound hparsed
  · cases hdays

theorem resolve_schedule_sound {schedule : Schedule}
    (h : resolve_schedule ops sched = .ok schedule) : schedule.Sound := by
  unfold resolve_schedule at h
  dsimp only at h
  by_cases hmanual : sched.manual
  · rw [if_pos hmanual] at h
    obtain rfl := Except.ok.inj h
    exact trivial
  rw [if_neg hmanual] at h
  by_cases hcron : !(trim sched.cron).isEmpty
  · rw [if_pos hcron] at h
    split_ifs at h
    obtain ⟨spec, hspec, rfl⟩ := map_ok h
    exact Cron.parse_accepted hspec
  rw [if_neg hcron] at h
  split at h
  · exact resolve_interval_sound h
  · split_ifs at h
    obtain ⟨spec, hspec, rfl⟩ := map_ok h
    exact resolve_calendar_sound hspec

end

end Lpm.Jobs
