/-
The fire points of a calendar job.

On one day they are either its fixed times or, for a job with a window, one instant
drawn from each slice of it; in order and inside the day both ways, so that the
days in order give the fire points in order. `most_recent_fire_point` and
`next_fire_point` are searches over that timetable.
-/
import Lpm.Jobs.Accepted

set_option autoImplicit false

open OrdMap DaySearch

namespace Lpm.Jobs

open List

section
variable {spec : CalendarSpec} {offset : ℤ} {seed : UInt64} {date : ℤ}

/-! ## One day -/

/-- The length of a slice of the window that ends at minute `u`. -/
def slice_secs (spec : CalendarSpec) (u : ℕ) : ℤ :=
  ((u : ℤ) * 60 - (spec.at_min : ℤ) * 60) / (spec.times : ℤ)

/-- The run drawn from slice `k`. -/
def window_point (spec : CalendarSpec) (offset : ℤ) (seed : UInt64) (date : ℤ) (u k : ℕ) : ℤ :=
  day_start offset date + spec.at_min * 60 + k * slice_secs spec u +
    slice_offset seed date (slice_secs spec u) spec.times k

theorem slice_offset_bounds {slice : ℤ} (times k : ℕ) (seed : UInt64) (date : ℤ)
    (hslice : (MIN_INTERVAL_SECS : ℤ) ≤ slice) :
    0 ≤ slice_offset seed date slice times k ∧ slice_offset seed date slice times k ≤ slice ∧
      (k + 1 < times →
        slice_offset seed date slice times k ≤ slice - (MIN_INTERVAL_SECS : ℤ)) := by
  have hmin : (MIN_INTERVAL_SECS : ℤ) = 300 := rfl
  unfold slice_offset
  dsimp only
  generalize hspan : (slice - if k + 1 < times then (MIN_INTERVAL_SECS : ℤ) else 0) = span
  have hspan0 : 0 ≤ span ∧ span ≤ slice ∧ (k + 1 < times → span = slice - MIN_INTERVAL_SECS) := by
    split_ifs at hspan with hk <;> omega
  split_ifs with hpos
  · have hdraw := Nat.mod_lt (draw seed date k).toNat (show 0 < span.toNat + 1 by omega)
    omega
  · omega

theorem slice_secs_bounds (hs : spec.Sound) {u : ℕ} (hu : spec.until_min = some u) :
    (MIN_INTERVAL_SECS : ℤ) ≤ slice_secs spec u ∧
      slice_secs spec u * spec.times ≤ (u : ℤ) * 60 - (spec.at_min : ℤ) * 60 := by
  obtain ⟨-, hend, -, htimes, hroom⟩ := hs.window u hu
  have hcast : slice_secs spec u = (((u - spec.at_min) * 60 / spec.times : ℕ) : ℤ) := by
    unfold slice_secs
    rw [Int.natCast_ediv]
    congr 1
    omega
  constructor
  · rw [hcast]
    exact_mod_cast hroom
  · unfold slice_secs
    exact Int.ediv_mul_le _ (by omega)

/-- Two runs of one window are at least the least interval apart. -/
theorem window_point_succ (offset : ℤ) (seed : UInt64) (date : ℤ) (hs : spec.Sound) {u k : ℕ} (hu : spec.until_min = some u)
    (hk : k + 1 < spec.times) :
    window_point spec offset seed date u k + MIN_INTERVAL_SECS ≤
      window_point spec offset seed date u (k + 1) := by
  obtain ⟨hslice, -⟩ := slice_secs_bounds hs hu
  obtain ⟨-, -, hheld⟩ := slice_offset_bounds spec.times k seed date hslice
  obtain ⟨hpos, -, -⟩ := slice_offset_bounds spec.times (k + 1) seed date hslice
  have hheld := hheld hk
  have hmul : ((k + 1 : ℕ) : ℤ) * slice_secs spec u = k * slice_secs spec u + slice_secs spec u := by
    push_cast
    ring
  unfold window_point
  rw [hmul]
  omega

theorem window_point_mono (offset : ℤ) (seed : UInt64) (date : ℤ) (hs : spec.Sound) {u j k : ℕ} (hu : spec.until_min = some u)
    (hjk : j < k) (hk : k < spec.times) :
    window_point spec offset seed date u j + MIN_INTERVAL_SECS ≤
      window_point spec offset seed date u k := by
  induction k with
  | zero => exact absurd hjk (Nat.not_lt_zero j)
  | succ k ih =>
    have hstep := window_point_succ offset seed date hs hu hk
    rcases Nat.lt_succ_iff_lt_or_eq.mp hjk with hlt | rfl
    · have := ih hlt (by omega)
      omega
    · exact hstep

/-- The runs of a window stay inside it. -/
theorem window_point_bounds (offset : ℤ) (seed : UInt64) (date : ℤ) (hs : spec.Sound) {u k : ℕ} (hu : spec.until_min = some u)
    (hk : k < spec.times) :
    day_start offset date + spec.at_min * 60 ≤ window_point spec offset seed date u k ∧
      window_point spec offset seed date u k ≤ day_start offset date + u * 60 := by
  obtain ⟨hslice, hfits⟩ := slice_secs_bounds hs hu
  obtain ⟨hpos, hle, -⟩ := slice_offset_bounds spec.times k seed date hslice
  have hmin : (MIN_INTERVAL_SECS : ℤ) = 300 := rfl
  have hlow : 0 ≤ (k : ℤ) * slice_secs spec u := mul_nonneg (by omega) (by omega)
  have hhigh : ((k : ℤ) + 1) * slice_secs spec u ≤ slice_secs spec u * spec.times := by
    rw [mul_comm]
    exact mul_le_mul_of_nonneg_left (by exact_mod_cast hk) (by omega)
  unfold window_point
  constructor
  · omega
  · linarith

/-- A window gives one point for each of its runs. -/
theorem window_fire_points (hs : spec.Sound) {u : ℕ} (hu : spec.until_min = some u) :
    day_fire_points spec offset seed date =
      (List.range spec.times).map (window_point spec offset seed date u) := by
  obtain ⟨halso, hend, hday, htimes, -⟩ := hs.window u hu
  have hwindow : ¬ day_start offset date + (u : ℤ) * 60 -
      (day_start offset date + (spec.at_min : ℤ) * 60) ≤ 0 := by omega
  have hslice : (day_start offset date + (u : ℤ) * 60 -
      (day_start offset date + (spec.at_min : ℤ) * 60)) / (spec.times : ℤ) = slice_secs spec u := by
    unfold slice_secs
    congr 1
    omega
  unfold day_fire_points local_epoch
  simp only [halso, hu, isEmpty_nil, Bool.not_true, Bool.false_eq_true, if_false,
    show spec.at_min < 24 * 60 by omega, hday, if_true, Option.bind_some, Option.map_some,
    Option.getD_some, hwindow, max_eq_left htimes, hslice]
  rfl

theorem window_points_apart (hs : spec.Sound) {u : ℕ} (hu : spec.until_min = some u)
    (offset : ℤ) (seed : UInt64) (date : ℤ) : (day_fire_points spec offset seed date).Pairwise
      fun p q => p + (MIN_INTERVAL_SECS : ℤ) ≤ q := by
  rw [window_fire_points hs hu, pairwise_map]
  refine pairwise_lt_range.imp_of_mem ?_
  intro j k _ hk hjk
  exact window_point_mono offset seed date hs hu hjk (mem_range.mp hk)

theorem lt_of_apart {p q : ℤ} (h : p + (MIN_INTERVAL_SECS : ℤ) ≤ q) : p < q := by
  have hmin : (MIN_INTERVAL_SECS : ℤ) = 300 := rfl
  omega

/-- A window that was accepted has room for its runs: on a day whose offset is the same
from one end to the other it gives every one of them, inside the window, in order and
the least interval apart. -/
theorem window_runs_spread {ops : TextOps} {sched : ScheduleDef} {u : ℕ}
    (h : resolve_calendar ops sched = .ok spec) (hu : spec.until_min = some u)
    (offset : ℤ) (seed : UInt64) (date : ℤ) :
    (day_fire_points spec offset seed date).length = spec.times ∧
      (day_fire_points spec offset seed date).Pairwise (· < ·) ∧
      (∃ start stop, local_epoch offset date spec.at_min = some start ∧
        local_epoch offset date u = some stop ∧
        ∀ p ∈ day_fire_points spec offset seed date, start ≤ p ∧ p ≤ stop) ∧
      (day_fire_points spec offset seed date).Pairwise fun p q => p + (MIN_INTERVAL_SECS : ℤ) ≤ q := by
  have hs := resolve_calendar_sound h
  obtain ⟨-, hend, hday, -, -⟩ := hs.window u hu
  have hstart : local_epoch offset date spec.at_min =
      some (day_start offset date + spec.at_min * 60) := if_pos (by omega)
  have hstop : local_epoch offset date u = some (day_start offset date + u * 60) := if_pos hday
  have hapart := window_points_apart hs hu offset seed date
  refine ⟨?_, ?_, ⟨_, _, hstart, hstop, ?_⟩, hapart⟩
  · rw [window_fire_points hs hu, length_map, length_range]
  · exact hapart.imp lt_of_apart
  · intro p hp
    rw [window_fire_points hs hu] at hp
    obtain ⟨k, hk, rfl⟩ := List.mem_map.mp hp
    exact window_point_bounds offset seed date hs hu (mem_range.mp hk)

/-- Three runs between nine and half past: a slice of ten minutes each. -/
def three_in_half_an_hour : ScheduleDef :=
  { «at» := .One "09:00".toList, «until» := "09:30".toList, times := some 3, days := .List [],
    short_months := [], pick_days := none, every := none, manual := false, cron := [] }

theorem window_runs_spread_three :
    ∃ spec, resolve_calendar ascii_ops three_in_half_an_hour = .ok spec ∧
      spec.until_min = some 570 ∧ (day_fire_points spec 7200 12345 739800).length = 3 := by
  have h : resolve_calendar ascii_ops three_in_half_an_hour = .ok
      { at_min := 540, also_at := [], until_min := some 570, times := 3, days := [],
        pick_days := none, dates := none } := by rfl
  exact ⟨_, h, rfl, (window_runs_spread h rfl 7200 12345 739800).1⟩

/-- Without one, the fixed times of the day. -/
theorem fixed_fire_points (hs : spec.Sound) (hu : spec.until_min = none) :
    day_fire_points spec offset seed date = epochs offset date (spec.at_min :: spec.also_at) := by
  unfold day_fire_points
  rcases halso : spec.also_at with _ | ⟨m, ms⟩
  · have hlt : spec.at_min < 24 * 60 := hs.times_lt _ mem_cons_self
    have hone : epochs offset date [spec.at_min] =
        [day_start offset date + (spec.at_min : ℤ) * 60] := by
      rw [epochs, filterMap_cons, local_epoch, if_pos hlt]
      exact ordered_set_of_sorted (pairwise_singleton _ _)
    rw [hone, local_epoch, if_pos hlt, hu]
    rfl
  · rfl

theorem day_fire_points_sorted (hs : spec.Sound) :
    (day_fire_points spec offset seed date).Pairwise (· < ·) := by
  rcases hu : spec.until_min with _ | u
  · rw [fixed_fire_points hs hu]
    exact epochs_sorted _ _ _
  · exact (window_points_apart hs hu offset seed date).imp lt_of_apart

theorem day_fire_points_inside (hs : spec.Sound) {p : ℤ}
    (hp : p ∈ day_fire_points spec offset seed date) :
    day_start offset date ≤ p ∧ p < day_start offset (date + 1) := by
  rw [day_start_succ]
  rcases hu : spec.until_min with _ | u
  · rw [fixed_fire_points hs hu] at hp
    obtain ⟨m, -, hm, rfl⟩ := mem_epochs.mp hp
    omega
  · rw [window_fire_points hs hu] at hp
    obtain ⟨k, hk, rfl⟩ := List.mem_map.mp hp
    obtain ⟨-, -, hday, -⟩ := hs.window u hu
    have hbounds := window_point_bounds offset seed date hs hu (mem_range.mp hk)
    omega

theorem day_fire_points_ne_nil (hs : spec.Sound) :
    day_fire_points spec offset seed date ≠ [] := by
  rcases hu : spec.until_min with _ | u
  · rw [fixed_fire_points hs hu]
    exact ne_nil_of_mem
      (mem_epochs.mpr ⟨spec.at_min, mem_cons_self, hs.times_lt _ mem_cons_self, rfl⟩)
  · obtain ⟨-, -, -, htimes, -⟩ := hs.window u hu
    rw [window_fire_points hs hu]
    simpa using Nat.one_le_iff_ne_zero.mp htimes

/-- The timetable the two searches run over. -/
def fire_timetable (hs : spec.Sound) (offset : ℤ) (seed : UInt64) : Timetable where
  start := day_start offset
  points := day_fire_points spec offset seed
  sorted := fun _ => day_fire_points_sorted hs
  inside := fun _ _ hp => day_fire_points_inside hs hp
  start_mono := day_start_mono offset

/-- The job fires at `p`. -/
def IsFirePoint (spec : CalendarSpec) (offset : ℤ) (seed : UInt64) (p : ℤ) : Prop :=
  ∃ d, day_ok spec seed d = true ∧ p ∈ day_fire_points spec offset seed d

theorem local_date_of_fire_point (hs : spec.Sound) {d p : ℤ}
    (hp : p ∈ day_fire_points spec offset seed d) : local_date offset p = d :=
  local_date_eq (day_fire_points_inside hs hp).1 (day_fire_points_inside hs hp).2

/-! ## A fire point on the clock -/

variable {n : ℤ}

theorem as_u64_of_nonneg (h : 0 ≤ n) : as_u64 n = n.toNat := if_pos h

theorem as_u64_of_neg (h : n < 0) : 2 ^ 63 ≤ as_u64 n ∧ as_u64 n < 2 ^ 64 := by
  unfold as_u64
  rw [if_neg (not_le.mpr h)]
  omega

theorem held_until_of_nonneg (h : 0 ≤ n) (jitter : ℕ) :
    held_until n jitter = n.toNat + jitter := by
  rw [held_until, if_pos h, as_u64_of_nonneg h]

/-- A fire point before 1970 is held back beyond any clock, unless its jitter takes it
past the turn of that year. -/
theorem held_until_of_neg (h : n < 0) {jitter : ℕ} (hjitter : jitter < 2 ^ 63) :
    (0 ≤ n + jitter → held_until n jitter = (n + jitter).toNat) ∧
      (n + jitter < 0 → held_until n jitter = as_u64 n + jitter) := by
  unfold held_until as_u64
  rw [if_neg (not_le.mpr h), if_neg (not_le.mpr h)]
  omega

/-! ## The days a search looks at -/

/-- How many days a search looks at; a list of calendar dates is looked at whole. -/
def lookaround (spec : CalendarSpec) : Option ℕ :=
  match spec.dates with
  | some (.On _) => none
  | some _ => some MONTH_LOOKAROUND_DAYS
  | none => some LOOKAROUND_DAYS

/-- Without calendar dates the days are the ones next to today. -/
theorem candidate_days_near {n : ℕ} (hn : lookaround spec = some n) (today : ℤ) (forward : Bool) :
    candidate_days spec today forward =
      (List.range n).map fun i : ℕ => if forward then today + (i : ℤ) else today - (i : ℤ) := by
  unfold lookaround at hn
  unfold candidate_days
  split at hn
  · cases hn
  next rule hrule hdates =>
    cases hn
    rw [hdates]
    rcases rule with ⟨days, last, fill⟩ | ⟨nth, of⟩ | dates
    · rfl
    · rfl
    · exact absurd rfl (hrule dates)
  next hdates =>
    cases hn
    rw [hdates]
    rfl

theorem lookaround_none (h : lookaround spec = none) : ∃ dates, spec.dates = some (.On dates) := by
  unfold lookaround at h
  split at h
  · exact ⟨_, ‹_›⟩
  · cases h
  · cases h

theorem lookaround_ge {n : ℕ} (h : lookaround spec = some n) : LOOKAROUND_DAYS ≤ n := by
  unfold lookaround at h
  split at h
  · cases h
  · cases h
    decide
  · cases h
    exact le_rfl

theorem day_ok_dates {dates : List ℤ} (h : spec.dates = some (.On dates)) {d : ℤ} :
    day_ok spec seed d = true ↔ d ∈ dates := by
  unfold day_ok DateRule.matches
  rw [h]
  exact contains_iff_mem

theorem candidate_days_ahead (hs : spec.Sound) (today : ℤ) :
    Timetable.Ahead (day_ok spec seed) today
      ((candidate_days spec today true).filter (day_ok spec seed)) := by
  rcases hn : lookaround spec with _ | n
  · obtain ⟨dates, hdates⟩ := lookaround_none hn
    have hsorted : dates.Pairwise (· < ·) := hs.rule _ hdates
    have hcand : candidate_days spec today true = dates.filter fun d => today ≤ d := by
      unfold candidate_days
      rw [hdates]
      rfl
    rw [hcand]
    refine ⟨(hsorted.filter _).filter _, ?_, ?_⟩
    · intro d hd
      obtain ⟨hmem, hruns⟩ := mem_filter.mp hd
      refine ⟨?_, hruns⟩
      simp only [mem_filter, decide_eq_true_eq] at hmem
      exact hmem.2
    · intro d htoday hruns _ _ _
      have hmem := (day_ok_dates hdates).mp hruns
      simp [mem_filter, hmem, htoday, hruns]
  · rw [candidate_days_near hn]
    exact Timetable.days_forward_ahead

theorem candidate_days_behind (hs : spec.Sound) (today : ℤ) :
    Timetable.Behind (day_ok spec seed) today
      ((candidate_days spec today false).filter (day_ok spec seed)) := by
  rcases hn : lookaround spec with _ | n
  · obtain ⟨dates, hdates⟩ := lookaround_none hn
    have hsorted : dates.Pairwise (· < ·) := hs.rule _ hdates
    have hcand : candidate_days spec today false = (dates.filter fun d => d ≤ today).reverse := by
      unfold candidate_days
      rw [hdates]
      rfl
    rw [hcand]
    refine ⟨(pairwise_reverse.mpr (hsorted.filter _)).filter _, ?_, ?_⟩
    · intro d hd
      obtain ⟨hmem, hruns⟩ := mem_filter.mp hd
      refine ⟨?_, hruns⟩
      simp only [mem_reverse, mem_filter, decide_eq_true_eq] at hmem
      exact hmem.2
    · intro d htoday hruns _ _ _
      have hmem := (day_ok_dates hdates).mp hruns
      simp [mem_filter, hmem, htoday, hruns]
  · rw [candidate_days_near hn]
    exact Timetable.days_backward_behind

theorem mem_candidates_ahead {today d : ℤ} :
    d ∈ (candidate_days spec today true).filter (day_ok spec seed) ↔
      day_ok spec seed d = true ∧ today ≤ d ∧ ∀ n, lookaround spec = some n → d < today + n := by
  rcases hn : lookaround spec with _ | n
  · obtain ⟨dates, hdates⟩ := lookaround_none hn
    unfold candidate_days
    rw [hdates, mem_filter]
    simp [day_ok_dates hdates]
    tauto
  · rw [candidate_days_near hn]
    refine Timetable.mem_days_forward.trans ?_
    simp only [Option.some.injEq, forall_eq']
    tauto

theorem mem_candidates_behind {today d : ℤ} :
    d ∈ (candidate_days spec today false).filter (day_ok spec seed) ↔
      day_ok spec seed d = true ∧ d ≤ today ∧ ∀ n, lookaround spec = some n → today - n < d := by
  rcases hn : lookaround spec with _ | n
  · obtain ⟨dates, hdates⟩ := lookaround_none hn
    unfold candidate_days
    rw [hdates, mem_filter]
    simp [day_ok_dates hdates]
    tauto
  · rw [candidate_days_near hn]
    refine Timetable.mem_days_backward.trans ?_
    simp only [Option.some.injEq, forall_eq']
    tauto

/-! ## The two searches -/

variable {now t : ℤ}

variable (hs : spec.Sound)
include hs

theorem most_recent_greatest
    (h : most_recent_fire_point spec offset now seed = some t) :
    IsGreatest {p | p ≤ now ∧ IsFirePoint spec offset seed p} t :=
  Timetable.greatest_of_search (T := fire_timetable hs offset seed) (candidate_days_behind hs _)
    (lt_day_start_succ offset now) h

theorem next_least (h : next_fire_point spec offset now seed = some t) :
    IsLeast {p | now < p ∧ IsFirePoint spec offset seed p} t :=
  Timetable.least_of_search (T := fire_timetable hs offset seed) (candidate_days_ahead hs _)
    (day_start_le offset now) h

/-- The search back finds something when a fire point up to `now` is near enough. -/
theorem most_recent_finds {d p : ℤ} (hruns : day_ok spec seed d = true)
    (hp : p ∈ day_fire_points spec offset seed d) (hle : p ≤ now)
    (hnear : ∀ n, lookaround spec = some n → local_date offset now - n < d) :
    ∃ t, most_recent_fire_point spec offset now seed = some t := by
  have htoday := local_date_mono offset hle
  rw [local_date_of_fire_point hs hp] at htoday
  exact (Timetable.search_back_iff (T := fire_timetable hs offset seed)).mpr
    ⟨d, mem_candidates_behind.mpr ⟨hruns, htoday, hnear⟩, p, hp, hle⟩

theorem next_finds {d p : ℤ} (hruns : day_ok spec seed d = true)
    (hp : p ∈ day_fire_points spec offset seed d) (hlt : now < p)
    (hnear : ∀ n, lookaround spec = some n → d < local_date offset now + n) :
    ∃ t, next_fire_point spec offset now seed = some t := by
  have htoday := local_date_mono offset hlt.le
  rw [local_date_of_fire_point hs hp] at htoday
  exact (Timetable.search_iff (T := fire_timetable hs offset seed)).mpr
    ⟨d, mem_candidates_ahead.mpr ⟨hruns, htoday, hnear⟩, p, hp, hlt⟩

/-- What the search back finds is found from every earlier instant that it is not
after: with no fire point in between the answer stays the same. -/
theorem most_recent_earlier {u : ℤ} (hle : t ≤ now) (hu : now ≤ u)
    (h : most_recent_fire_point spec offset u seed = some t) :
    most_recent_fire_point spec offset now seed = some t := by
  obtain ⟨-, hmax⟩ := most_recent_greatest hs h
  obtain ⟨d, hd, hfind⟩ := exists_of_findSome?_eq_some h
  have ht : t ∈ day_fire_points spec offset seed d :=
    mem_reverse.mp (mem_of_find?_eq_some hfind)
  obtain ⟨hruns, -, hnear⟩ := mem_candidates_behind.mp hd
  have htoday := local_date_mono offset hu
  obtain ⟨t', ht'⟩ := most_recent_finds hs hruns ht hle fun n hn => by
    have := hnear n hn
    omega
  obtain ⟨⟨hle', hfire'⟩, hmax'⟩ := most_recent_greatest hs ht'
  have h1 : t ≤ t' := hmax' ⟨hle, d, hruns, ht⟩
  have h2 : t' ≤ t := hmax ⟨hle'.trans hu, hfire'⟩
  rw [ht', le_antisymm h2 h1]

end

end Lpm.Jobs
