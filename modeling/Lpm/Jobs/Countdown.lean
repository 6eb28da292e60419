/-
The countdown and the scheduler.

The app shows `next_fire_at`; the scheduler asks `is_due` over and over. For an
interval, a window and a cron line the two agree: the time shown is the first at
which the job becomes due. A calendar job and a cron line look back for the last
fire point and ahead for the next, and `Paired.first_news_iff` is what makes the two
the same. An interval adds up seconds, and there they part when the sum no longer
fits the clock.
-/
import Lpm.Jobs.CalendarGaps

set_option autoImplicit false

open DaySearch RustText

namespace Lpm.Jobs

open List

/-- The last second chrono has a date for. No clock reads more. -/
def LAST_INSTANT : ℕ := 8210266876799

/-- The time the countdown shows is the first reading of the clock after `now` at
which the job is due. -/
def CountdownExact (schedule : Schedule) (offset : ℤ) (last_run now : ℕ) (seed : UInt64) : Prop :=
  (∀ p, next_fire_at schedule offset last_run now seed = some p → (now : ℤ) < p) ∧
    ∀ t : ℕ, t < 2 ^ 63 →
      (IsLeast {t : ℕ | now < t ∧ is_due schedule offset last_run t seed = true} t ↔
        next_fire_at schedule offset last_run now seed = some (t : ℤ))

/-! ## Hours and days a job keeps to -/

section
variable {l : IntervalLimits} {offset : ℤ}

/-- A day the limits allow comes within a week. -/
theorem day_ok_in_week_ahead (hl : l.Sound) (today : ℤ) :
    ∃ d, today < d ∧ d < today + 8 ∧ l.day_ok d = true := by
  unfold IntervalLimits.day_ok
  rcases hdays : l.days with _ | ⟨w, ws⟩
  · exact ⟨today + 1, by omega, by omega, rfl⟩
  · have hw : w < 7 := hl.days_lt w (by rw [hdays]; exact mem_cons_self)
    refine ⟨today + (w - today) % 7 + 1, by omega, by omega, ?_⟩
    have hweekday : weekday_of (today + (w - today) % 7 + 1) = w := by
      unfold weekday_of Gregorian.days_from_monday
      omega
    rw [hweekday]
    simp

/-- The limits are a day and a span of its minutes; no window is the whole day. -/
theorem allows_iff (offset : ℤ) (hl : l.Sound) : ∃ lo hi : ℕ, (l.window.map (·.1)).getD 0 = lo ∧ lo ≤ hi ∧
    hi < 24 * 60 ∧ ∀ now, l.allows offset now = true ↔
      l.day_ok (local_date offset now) = true ∧
        lo ≤ IntervalLimits.local_minute offset now ∧ IntervalLimits.local_minute offset now ≤ hi := by
  unfold IntervalLimits.allows
  rcases hwindow : l.window with _ | ⟨lo, hi⟩
  · refine ⟨0, 24 * 60 - 1, rfl, by decide, by decide, ?_⟩
    intro now
    have : IntervalLimits.local_minute offset now ≤ 24 * 60 - 1 := by
      unfold IntervalLimits.local_minute
      omega
    simp [this]
  · obtain ⟨hlt, hday⟩ := hl.window lo hi hwindow
    refine ⟨lo, hi, rfl, hlt.le, hday, ?_⟩
    intro now
    simp

/-- The instant a daily window opens. -/
def opens_at (offset : ℤ) (lo : ℕ) (d : ℤ) : ℤ := day_start offset d + lo * 60

variable {lo : ℕ}

theorem opens_at_clock (offset d : ℤ) (hlo : lo < 24 * 60) :
    local_date offset (opens_at offset lo d) = d ∧
      IntervalLimits.local_minute offset (opens_at offset lo d) = lo := by
  unfold opens_at local_date IntervalLimits.local_minute day_start
  omega

variable {now : ℤ}

/-- An instant whose minute is not before the opening is not before it. -/
theorem opens_at_le (h : lo ≤ IntervalLimits.local_minute offset now) :
    opens_at offset lo (local_date offset now) ≤ now := by
  unfold IntervalLimits.local_minute at h
  unfold opens_at local_date day_start
  omega

theorem local_minute_of_opened
    (h : opens_at offset lo (local_date offset now) ≤ now) :
    lo ≤ IntervalLimits.local_minute offset now := by
  unfold opens_at local_date day_start at h
  unfold IntervalLimits.local_minute
  omega

theorem opens_at_mono (offset : ℤ) (lo : ℕ) : StrictMono (opens_at offset lo) := by
  intro d d' h
  unfold opens_at day_start
  omega

theorem local_minute_mono {t u : ℤ} (h : t ≤ u) (hdate : local_date offset t = local_date offset u) :
    IntervalLimits.local_minute offset t ≤ IntervalLimits.local_minute offset u := by
  unfold local_date at hdate
  unfold IntervalLimits.local_minute
  omega

/-- The days `next_open` goes through, and the instant each of them opens at. -/
theorem next_open_search (hlo : lo < 24 * 60)
    (hopen : (l.window.map (·.1)).getD 0 = lo) (hnow : ¬ l.allows offset now = true) :
    l.next_open offset now =
      ((Timetable.days_forward l.day_ok (local_date offset now) 8).map (opens_at offset lo)).find?
        fun opens => now ≤ opens := by
  have hepoch : (fun d => local_epoch offset d lo) = fun d => some (opens_at offset lo d) := by
    funext d
    rw [local_epoch, if_pos hlo]
    rfl
  unfold IntervalLimits.next_open
  dsimp only
  rw [if_neg hnow, hopen, hepoch, filterMap_eq_map']
  rfl

/-- `next_open` is the first moment from `now` on that the limits allow, and it comes
within nine days. -/
theorem next_open_least (hl : l.Sound) (offset now : ℤ) :
    ∃ t, l.next_open offset now = some t ∧ t < now + 9 * 86400 ∧
      IsLeast {t | now ≤ t ∧ l.allows offset t = true} t := by
  obtain ⟨lo, hi, hopen, hle, hday, hallows⟩ := allows_iff offset hl
  by_cases hnow : l.allows offset now = true
  · refine ⟨now, ?_, by omega, ⟨le_rfl, hnow⟩, fun _ ht => ht.1⟩
    unfold IntervalLimits.next_open
    exact if_pos hnow
  rw [next_open_search (by omega) hopen hnow]
  obtain ⟨days, hdays⟩ :
      ∃ days, days = Timetable.days_forward l.day_ok (local_date offset now) 8 := ⟨_, rfl⟩
  have hin : ∀ d, d ∈ days ↔
      (local_date offset now ≤ d ∧ d < local_date offset now + 8) ∧ l.day_ok d = true := by
    intro d
    rw [hdays]
    exact Timetable.mem_days_forward
  have hsorted : (days.map (opens_at offset lo)).Pairwise (· < ·) := by
    rw [hdays, pairwise_map]
    exact Timetable.days_forward_sorted.imp fun h => opens_at_mono offset lo h
  rw [← hdays]
  -- a later day opens after `now`
  have hlater : ∀ d, local_date offset now < d → now < opens_at offset lo d := by
    intro d hd
    have := lt_day_start_succ offset now
    have := day_start_mono offset (show local_date offset now + 1 ≤ d by omega)
    unfold opens_at
    omega
  obtain ⟨d₁, hlt₁, hgap₁, hok₁⟩ := day_ok_in_week_ahead hl (local_date offset now)
  obtain ⟨t, ht⟩ : ∃ t, (days.map (opens_at offset lo)).find? (fun opens => now ≤ opens) = some t := by
    rw [← Option.isSome_iff_exists, find?_isSome]
    exact ⟨_, List.mem_map_of_mem ((hin d₁).mpr ⟨⟨hlt₁.le, hgap₁⟩, hok₁⟩),
      decide_eq_true (hlater d₁ hlt₁).le⟩
  have hnowt : now ≤ t := by simpa using find?_some ht
  obtain ⟨d, hd, rfl⟩ := List.mem_map.mp (mem_of_find?_eq_some ht)
  obtain ⟨⟨htoday, hgap⟩, hok⟩ := (hin d).mp hd
  obtain ⟨hdate, hminute⟩ := opens_at_clock offset d (show lo < 24 * 60 by omega)
  refine ⟨_, ht, ?_, ⟨hnowt, (hallows _).mpr ⟨by rwa [hdate], by omega, by omega⟩⟩, ?_⟩
  · have := day_start_le offset now
    unfold opens_at day_start at *
    omega
  rintro u ⟨hu, hallowed⟩
  obtain ⟨hoku, hlow, hhigh⟩ := (hallows u).mp hallowed
  have htodayu := local_date_mono offset hu
  have hopened := opens_at_le hlow
  by_cases hin8 : local_date offset u < local_date offset now + 8
  · refine le_trans (find_least hsorted ht _
      (List.mem_map_of_mem ((hin _).mpr ⟨⟨htodayu, hin8⟩, hoku⟩)) (decide_eq_true ?_)) hopened
    -- else `now` is on that day too, and inside the window
    by_contra hbefore
    have hsame : local_date offset now = local_date offset u := by
      by_contra hne
      exact hbefore (hlater _ (lt_of_le_of_ne htodayu hne)).le
    have hin : lo ≤ IntervalLimits.local_minute offset now :=
      local_minute_of_opened (by rw [hsame]; omega)
    have := local_minute_mono hu hsame
    exact hnow ((hallows now).mpr ⟨by rwa [hsame], hin, by omega⟩)
  · have hlt := opens_at_mono offset lo (show d < local_date offset u by omega)
    omega

end

/-! ## Intervals -/

section
variable {min_secs max_secs last_run now : ℕ} {seed : UInt64} {offset : ℤ}

theorem interval_gap_bounds (last_run : ℕ) (seed : UInt64) (hle : min_secs ≤ max_secs) :
    min_secs ≤ interval_gap min_secs max_secs last_run seed ∧
      interval_gap min_secs max_secs last_run seed ≤ max_secs := by
  unfold interval_gap
  split_ifs
  · exact ⟨le_rfl, hle⟩
  · have := Nat.mod_lt (draw seed last_run 0).toNat (show 0 < max_secs - min_secs + 1 by omega)
    omega

/-- A sum of seconds that fits is read as it is. -/
theorem as_i64_fits {n : ℕ} (h : n < 2 ^ 63) : as_i64 (n % 2 ^ 64) = n := by
  rw [Nat.mod_eq_of_lt (by omega), as_i64, if_pos h]

/-- One that does not comes out before the run it was added to. -/
theorem as_i64_wraps {gap : ℕ} (hgap : gap < 2 ^ 64) (hlast : last_run < 2 ^ 63)
    (h : ¬ last_run + gap < 2 ^ 63) : as_i64 ((last_run + gap) % 2 ^ 64) ≤ last_run := by
  unfold as_i64
  split_ifs <;> omega

variable {limits : Option IntervalLimits}

/-- An interval is due from the end of its gap on, at the instants its limits allow. -/
theorem interval_due {t : ℕ} (ht : last_run ≤ t) :
    is_due (.Interval min_secs max_secs limits) offset last_run t seed = true ↔
      last_run + interval_gap min_secs max_secs last_run seed ≤ t ∧
        ∀ l, limits = some l → l.allows offset t = true := by
  unfold is_due
  rw [Bool.and_eq_true, decide_eq_true_eq, Option.all_eq_true]
  exact and_congr_left fun _ => by omega

/-- When the sum fits, the countdown shows the first instant after the gap that the
limits allow. -/
theorem interval_shows (offset : ℤ) (hs : (Schedule.Interval min_secs max_secs limits).Sound)
    (hfits : last_run + interval_gap min_secs max_secs last_run seed < 2 ^ 63)
    (hlate : limits = none → now < last_run + interval_gap min_secs max_secs last_run seed) :
    ∃ p, next_fire_at (.Interval min_secs max_secs limits) offset last_run now seed = some p ∧
      IsLeast {t : ℤ | (last_run + interval_gap min_secs max_secs last_run seed : ℕ) ≤ t ∧
        (now : ℤ) ≤ t ∧ ∀ l, limits = some l → l.allows offset t = true} p := by
  obtain ⟨-, -, -, hlimits⟩ := hs
  unfold next_fire_at
  dsimp only
  rw [as_i64_fits hfits]
  rcases limits with _ | l
  · have := hlate rfl
    exact ⟨_, rfl, ⟨le_rfl, by omega, nofun⟩, fun _ ht => ht.1⟩
  · obtain ⟨p, hp, -, ⟨hle, hallowed⟩, hleast⟩ := next_open_least (hlimits l rfl) offset
      (max ((last_run + interval_gap min_secs max_secs last_run seed : ℕ) : ℤ) now)
    refine ⟨p, hp, ⟨le_trans (le_max_left _ _) hle, le_trans (le_max_right _ _) hle, ?_⟩, ?_⟩
    · intro l' hl'
      rwa [← Option.some.inj hl']
    · rintro t ⟨hgap, hnow, hallows⟩
      exact hleast ⟨max_le hgap hnow, hallows l rfl⟩

/-- When it does not, the countdown shows an instant that is past or near. -/
theorem interval_shows_wrapped (hs : (Schedule.Interval min_secs max_secs limits).Sound)
    (hle : last_run ≤ now) (hnow : now ≤ LAST_INSTANT)
    (hfits : ¬ last_run + interval_gap min_secs max_secs last_run seed < 2 ^ 63) :
    ∃ p, next_fire_at (.Interval min_secs max_secs limits) offset last_run now seed = some p ∧
      p < now + 9 * 86400 := by
  obtain ⟨-, hband, hmax, hlimits⟩ := hs
  have hlast : LAST_INSTANT < 2 ^ 63 := by decide
  have hgap := (interval_gap_bounds last_run seed hband).2
  have hwrap := as_i64_wraps (lt_of_le_of_lt hgap hmax) (by omega) hfits
  unfold next_fire_at
  dsimp only
  rcases limits with _ | l
  · exact ⟨_, rfl, by omega⟩
  · rw [max_eq_right (show _ ≤ (now : ℤ) by omega)]
    obtain ⟨p, hp, hnear, -⟩ := next_open_least (hlimits l rfl) offset now
    exact ⟨p, hp, hnear⟩

theorem interval_exact_iff (hs : (Schedule.Interval min_secs max_secs limits).Sound)
    (hle : last_run ≤ now) (hnow : now ≤ LAST_INSTANT)
    (hnot : is_due (.Interval min_secs max_secs limits) offset last_run now seed = false) :
    CountdownExact (.Interval min_secs max_secs limits) offset last_run now seed ↔
      last_run + interval_gap min_secs max_secs last_run seed < 2 ^ 63 := by
  have hnot' : ¬ (last_run + interval_gap min_secs max_secs last_run seed ≤ now ∧
      ∀ l, limits = some l → l.allows offset now = true) := by
    rw [← interval_due hle, hnot]
    exact Bool.false_ne_true
  constructor
  · rintro ⟨hafter, hfirst⟩
    by_contra hfits
    obtain ⟨p, hp, hnear⟩ := interval_shows_wrapped hs hle hnow hfits
    have hlt := hafter p hp
    have hlast : LAST_INSTANT + 9 * 86400 < 2 ^ 63 := by decide
    -- the instant shown is one at which the gap is far from over
    lift p to ℕ using by omega
    obtain ⟨⟨hlater, hdue⟩, -⟩ := (hfirst p (by omega)).mpr hp
    have := ((interval_due (by omega)).mp hdue).1
    omega
  · intro hfits
    have hlate : limits = none →
        now < last_run + interval_gap min_secs max_secs last_run seed := by
      rintro rfl
      by_contra hge
      exact hnot' ⟨not_lt.mp hge, nofun⟩
    obtain ⟨p, hp, ⟨hgap, hnowp, hallowed⟩, hleast⟩ := interval_shows offset hs hfits hlate
    have hlt : (now : ℤ) < p := by
      rcases lt_or_eq_of_le hnowp with hlt | rfl
      · exact hlt
      · exact absurd ⟨by omega, hallowed⟩ hnot'
    refine ⟨?_, ?_⟩
    · intro p' hp'
      rw [hp] at hp'
      rwa [← Option.some.inj hp']
    · intro t ht
      rw [hp, Option.some.injEq]
      constructor
      · rintro ⟨⟨hlater, hdue⟩, hmin⟩
        obtain ⟨hgapt, hallowst⟩ := (interval_due (by omega)).mp hdue
        have hpt : p ≤ t := hleast ⟨by omega, by omega, hallowst⟩
        lift p to ℕ using by omega
        have htp : t ≤ p := hmin ⟨by omega, (interval_due (by omega)).mpr ⟨by omega, hallowed⟩⟩
        omega
      · rintro rfl
        refine ⟨⟨by omega, (interval_due (by omega)).mpr ⟨by omega, hallowed⟩⟩, ?_⟩
        rintro u ⟨hu, hdue⟩
        obtain ⟨hgapu, hallowsu⟩ := (interval_due (by omega)).mp hdue
        have := hleast ⟨show _ ≤ (u : ℤ) by omega, by omega, hallowsu⟩
        omega

end

/-! ## Calendars and cron lines -/

section
variable {offset : ℤ} {seed : UInt64} {last_run now : ℕ}

/-- What one read of the clock asks, when it is whether the last point is news, agrees
with a search ahead. -/
theorem exact_of_paired {schedule : Schedule} {points : Set ℤ} {back ahead : ℤ → Option ℤ}
    (hpaired : Paired points back ahead) (news : ℤ → Prop)
    (hahead : next_fire_at schedule offset last_run now seed = ahead now)
    (hdue : ∀ t : ℕ, now ≤ t → t < 2 ^ 63 →
      (is_due schedule offset last_run t seed = true ↔ ∃ p, back t = some p ∧ news p))
    (hnow : now < 2 ^ 63) (hnot : is_due schedule offset last_run now seed = false)
    (hlater : ∀ p, (now : ℤ) < p → news p) :
    CountdownExact schedule offset last_run now seed := by
  have hquiet : ∀ p, back now = some p → ¬ news p := by
    intro p hp hnews
    have := (hdue now le_rfl hnow).mpr ⟨p, hp, hnews⟩
    rw [hnot] at this
    exact Bool.false_ne_true this
  refine ⟨?_, ?_⟩
  · intro p hp
    rw [hahead] at hp
    exact (hpaired.ahead_least now p hp).1.1
  · intro t ht
    rw [hahead, ← hpaired.first_news_iff hquiet hlater]
    constructor
    · rintro ⟨⟨hlt, hduet⟩, hmin⟩
      refine ⟨⟨by omega, (hdue t hlt.le ht).mp hduet⟩, ?_⟩
      rintro u ⟨hu, hnews⟩
      lift u to ℕ using by omega
      by_contra hlt'
      have := hmin ⟨by omega, (hdue u (by omega) (by omega)).mpr hnews⟩
      omega
    · rintro ⟨⟨hlt, hnews⟩, hmin⟩
      refine ⟨⟨by omega, (hdue t (by omega) ht).mpr hnews⟩, ?_⟩
      rintro u ⟨hu, hdueu⟩
      by_contra hlt'
      have := hmin ⟨show (now : ℤ) < u by omega, (hdue u hu.le (by omega)).mp hdueu⟩
      omega

/-- The searches over the fire points of a calendar job. -/
theorem calendar_paired {spec : CalendarSpec} (hs : spec.Sound) (offset : ℤ) (seed : UInt64) :
    Paired {p | IsFirePoint spec offset seed p}
      (fun now => most_recent_fire_point spec offset now seed)
      (fun now => next_fire_point spec offset now seed) where
  back_greatest := fun _ _ h => most_recent_greatest hs h
  back_earlier := fun _ _ _ hle hu h => most_recent_earlier hs hle hu h
  back_self := by
    rintro p ⟨d, hruns, hp⟩
    obtain ⟨t, ht⟩ := most_recent_finds hs hruns hp le_rfl fun n hn => by
      have : 16 ≤ n := lookaround_ge hn
      rw [local_date_of_fire_point hs hp]
      omega
    obtain ⟨⟨hle, -⟩, hmax⟩ := most_recent_greatest hs ht
    have := hmax ⟨le_rfl, d, hruns, hp⟩
    rw [ht, le_antisymm hle this]
  ahead_least := fun _ _ h => next_least hs h
  ahead_finds := by
    rintro now p ⟨d, hruns, hp⟩ hlt
    rcases hn : lookaround spec with _ | n
    · exact next_finds hs hruns hp hlt fun n hn' => by simp [hn] at hn'
    -- some day of the lookaround runs, and its points are all later
    · obtain ⟨d', hafter, hnear, hruns'⟩ := day_ok_soon seed hs hn (local_date offset now)
      obtain ⟨p', hp'⟩ : ∃ p', p' ∈ day_fire_points spec offset seed d' :=
        exists_mem_of_ne_nil _ (day_fire_points_ne_nil hs)
      have hstart := day_start_mono offset (show local_date offset now + 1 ≤ d' by omega)
      have hnow := lt_day_start_succ offset now
      have hinside := (day_fire_points_inside hs hp').1
      refine next_finds hs hruns' hp' (by omega) ?_
      intro n' hn'
      rw [hn] at hn'
      rwa [← Option.some.inj hn']

theorem calendar_exact {spec : CalendarSpec} (hs : spec.Sound) (hwindow : spec.until_min.isSome)
    (hle : last_run ≤ now) (hnow : now < 2 ^ 63)
    (hnot : is_due (.Calendar spec) offset last_run now seed = false) :
    CountdownExact (.Calendar spec) offset last_run now seed := by
  refine exact_of_paired (calendar_paired hs offset seed)
    (fun p => 0 ≤ p ∧ (last_run : ℤ) < p) rfl ?_ hnow hnot (fun p hp => by omega)
  intro t htnow ht
  have hjitter : implicit_jitter spec seed = 0 := if_pos hwindow
  unfold is_due
  dsimp only
  rw [hjitter, Option.any_eq_true]
  refine exists_congr fun p => and_congr_right fun hp => ?_
  obtain ⟨⟨hpt, -⟩, -⟩ := most_recent_greatest hs hp
  rw [Bool.and_eq_true, decide_eq_true_eq, decide_eq_true_eq]
  rcases lt_or_ge p 0 with hneg | hpos
  -- a fire point before 1970 is later than any clock reads
  · have := as_u64_of_neg hneg
    rw [(held_until_of_neg hneg (by decide)).2 (by omega)]
    omega
  · rw [held_until_of_nonneg hpos, as_u64_of_nonneg hpos]
    omega

/-- The searches of a cron line whose matching days are never too far apart. -/
theorem cron_paired {s : Cron.CronSpec} (hs : Cron.Accepted s)
    (hgaps : Timetable.GapsBelow s.day_matches Cron.SEARCH_DAYS) (offset : ℤ) :
    Paired {t | s.Matches offset t} (s.last_at_or_before offset) (s.next_after offset) where
  back_greatest := fun _ _ h => Cron.last_at_or_before_greatest h
  back_earlier := by
    intro now u t hle hu h
    obtain ⟨⟨-, hmatch⟩, hmax⟩ := Cron.last_at_or_before_greatest h
    obtain ⟨t', ht'⟩ := Cron.last_at_or_before_finds hs hgaps offset now
    obtain ⟨⟨hle', hmatch'⟩, hmax'⟩ := Cron.last_at_or_before_greatest ht'
    have h1 : t ≤ t' := hmax' ⟨hle, hmatch⟩
    have h2 : t' ≤ t := hmax ⟨hle'.trans hu, hmatch'⟩
    rw [ht', le_antisymm h2 h1]
  back_self := by
    intro p hp
    obtain ⟨t, ht⟩ := Cron.last_at_or_before_finds hs hgaps offset p
    obtain ⟨⟨hle, -⟩, hmax⟩ := Cron.last_at_or_before_greatest ht
    rw [ht, le_antisymm hle (hmax ⟨le_rfl, hp⟩)]
  ahead_least := fun _ _ h => Cron.next_after_least h
  ahead_finds := fun now _ _ _ => Cron.next_after_finds hs hgaps offset now

theorem cron_exact {s : Cron.CronSpec} (hs : Cron.Accepted s)
    (hgaps : Timetable.GapsBelow s.day_matches Cron.SEARCH_DAYS)
    (hle : last_run ≤ now) (hnow : now < 2 ^ 63)
    (hnot : is_due (.Cron s) offset last_run now seed = false) :
    CountdownExact (.Cron s) offset last_run now seed := by
  refine exact_of_paired (cron_paired hs hgaps offset)
    (fun p => p < 0 ∨ (last_run : ℤ) < p) rfl ?_ hnow hnot (fun p hp => by omega)
  intro t htnow ht
  unfold is_due
  dsimp only
  rw [Option.any_eq_true]
  refine exists_congr fun p => and_congr_right fun hp => ?_
  rw [decide_eq_true_eq]
  rcases lt_or_ge p 0 with hneg | hpos
  · have := as_u64_of_neg hneg
    omega
  · rw [as_u64_of_nonneg hpos]
    omega

end

/-! ## The countdown is exact -/

/-- The schedules whose countdown is the time they become due: intervals, calendar jobs
with a window, and cron lines whose search always finds a day. -/
def Schedule.Counted : Schedule → Prop
  | .Interval _ _ _ => True
  | .Calendar spec => spec.until_min.isSome
  | .Cron s => Timetable.GapsBelow s.day_matches Cron.SEARCH_DAYS
  | .Manual => False

/-- The end of an interval's gap is an instant the clock can read. -/
def Schedule.GapFits (last_run : ℕ) (seed : UInt64) : Schedule → Prop
  | .Interval min_secs max_secs _ => last_run + interval_gap min_secs max_secs last_run seed < 2 ^ 63
  | _ => True

/-- For a schedule that resolves, at an instant at which the job is not due: the
countdown shows the first instant at which it becomes due, exactly when the last run
and the gap after it add up to less than `2^63` seconds. -/
theorem countdown_exact_iff {ops : TextOps} {sched : ScheduleDef} {schedule : Schedule}
    (h : resolve_schedule ops sched = .ok schedule) (hcounted : schedule.Counted) (offset : ℤ)
    (seed : UInt64) {last_run now : ℕ} (hle : last_run ≤ now) (hnow : now ≤ LAST_INSTANT)
    (hnot : is_due schedule offset last_run now seed = false) :
    CountdownExact schedule offset last_run now seed ↔ schedule.GapFits last_run seed := by
  have hs := resolve_schedule_sound h
  have hlast : LAST_INSTANT < 2 ^ 63 := by decide
  rcases schedule with ⟨min_secs, max_secs, limits⟩ | spec | s | -
  · exact interval_exact_iff hs hle hnow hnot
  · exact iff_of_true (calendar_exact hs hcounted hle (by omega) hnot) trivial
  · exact iff_of_true (cron_exact hs hcounted hle (by omega) hnot) trivial
  · exact absurd hcounted id

/-- A job file whose schedule is an interval and nothing else. -/
def interval_of (every : String) : ScheduleDef :=
  { «at» := .One [], «until» := [], times := none, days := .List [], short_months := [],
    pick_days := none, every := some (.Str every.toList), manual := false, cron := [] }

theorem resolve_every_6h :
    resolve_schedule ascii_ops (interval_of "6h") = .ok (.Interval 21600 21600 none) := by rfl

theorem countdown_exact_every_6h :
    CountdownExact (.Interval 21600 21600 none) 0 1700000000 1700000000 0 ↔
      (Schedule.Interval 21600 21600 none).GapFits 1700000000 0 :=
  countdown_exact_iff resolve_every_6h trivial 0 0 le_rfl (by decide) (by decide)

/-- An interval of `2·10^17` minutes is accepted, its seconds fitting a `u64`; the
countdown shows an instant before 1970. -/
theorem countdown_wraps :
    resolve_schedule ascii_ops (interval_of "200000000000000000m") =
        .ok (.Interval 12000000000000000000 12000000000000000000 none) ∧
      is_due (.Interval 12000000000000000000 12000000000000000000 none) 0 1700000000 1700000000 0
        = false ∧
      next_fire_at (.Interval 12000000000000000000 12000000000000000000 none) 0 1700000000
        1700000000 0 = some (-6446744072009551616) ∧
      ¬ CountdownExact (.Interval 12000000000000000000 12000000000000000000 none) 0 1700000000
        1700000000 0 := by
  have hshown : next_fire_at (.Interval 12000000000000000000 12000000000000000000 none) 0 1700000000
      1700000000 0 = some (-6446744072009551616) := by decide
  refine ⟨by rfl, by decide, hshown, ?_⟩
  rintro ⟨hafter, -⟩
  exact absurd (hafter _ hshown) (by decide)

end Lpm.Jobs
