/-
One run for every fire point.

A scheduler reads the clock at least once a minute, starts the job whenever
`is_due` says so and records the reading as the last run. `is_due` looks at the most
recent fire point only, and holds a run back by the job's jitter: a fire point is
served while it is the most recent one, or never. So every fire point gets its run
exactly when the next one leaves room for the jitter and a tick.

Fixed times may be five minutes apart, or share midnight, and the jitter goes up to
five minutes; the runs of a window keep enough room. A fire point shortly before
1970 is a different matter: its held-back instant wraps, and it is due at every tick.
-/
import Lpm.Jobs.FirePoints

set_option autoImplicit false

namespace Lpm.Jobs

/-- The readings of the clock at which the scheduler asks whether the job is due. -/
structure Ticks where
  reading : ℕ → ℕ
  forward : Monotone reading
  every_minute : ∀ n, reading (n + 1) ≤ reading n + 60

/-! ## The scheduler -/

section
variable (spec : CalendarSpec) (offset : ℤ) (seed : UInt64) (T : Ticks)

/-- The last run after tick `n`; the scheduler's own start counts as one. -/
def last_run : ℕ → ℕ
  | 0 => T.reading 0
  | n + 1 =>
    if is_due (.Calendar spec) offset (last_run n) (T.reading (n + 1)) seed then T.reading (n + 1)
    else last_run n

/-- Tick `n + 1` starts the job, for the fire point `p`. -/
def Starts (n : ℕ) (p : ℤ) : Prop :=
  is_due (.Calendar spec) offset (last_run spec offset seed T n) (T.reading (n + 1)) seed = true ∧
    most_recent_fire_point spec offset (T.reading (n + 1)) seed = some p

/-- Every fire point after the scheduler's start has its run within a tick of the end of
its jitter, and no fire point has two runs. -/
def EachOnce : Prop :=
  (∀ N p, IsFirePoint spec offset seed p → (T.reading 0 : ℤ) < p →
      p + implicit_jitter spec seed + 60 ≤ T.reading N → ∃ n < N, Starts spec offset seed T n p) ∧
    ∀ p m n, Starts spec offset seed T m p → Starts spec offset seed T n p → m = n

end

/-! ## What is needed -/

section
variable (spec : CalendarSpec) (offset : ℤ) (seed : UInt64)

/-- After a fire point comes the jitter and a minute for the tick before the next. -/
def Spaced : Prop :=
  ∀ p q, IsFirePoint spec offset seed p → IsFirePoint spec offset seed q → 0 < p → p < q →
    p + implicit_jitter spec seed + 60 ≤ q

/-- A fire point whose jitter reaches over the start of 1970 is followed by another
before the jitter is over. -/
def Settled : Prop :=
  ∀ p, IsFirePoint spec offset seed p → p < 0 → 0 ≤ p + implicit_jitter spec seed →
    ∃ q, IsFirePoint spec offset seed q ∧ p < q ∧ q ≤ p + implicit_jitter spec seed

end

section
variable {spec : CalendarSpec} {offset : ℤ} {seed : UInt64} {T : Ticks}

theorem implicit_jitter_le (spec : CalendarSpec) (seed : UInt64) :
    implicit_jitter spec seed ≤ 300 := by
  unfold implicit_jitter MAX_JITTER_SECS
  split_ifs
  · exact Nat.zero_le _
  · have := Nat.mod_lt seed.toNat (show 0 < 5 * 60 + 1 by decide)
    omega

theorem calendar_due {last now : ℕ} :
    is_due (.Calendar spec) offset last now seed = true ↔
      ∃ p, most_recent_fire_point spec offset now seed = some p ∧ last < as_u64 p ∧
        held_until p (implicit_jitter spec seed) ≤ now := by
  unfold is_due
  dsimp only
  rw [Option.any_eq_true]
  refine exists_congr fun p => and_congr_right fun _ => ?_
  rw [Bool.and_eq_true, decide_eq_true_eq, decide_eq_true_eq]

/-- With no fire point in between, one less than two weeks back is the most recent. -/
theorem most_recent_eq (hs : spec.Sound) {p now : ℤ} (hp : IsFirePoint spec offset seed p)
    (hle : p ≤ now) (hnear : now ≤ p + 86400)
    (hlast : ∀ q, IsFirePoint spec offset seed q → p < q → now < q) :
    most_recent_fire_point spec offset now seed = some p := by
  obtain ⟨d, hruns, hmem⟩ := hp
  obtain ⟨t, ht⟩ := most_recent_finds hs hruns hmem hle (by
    intro n hn
    have h16 : 16 ≤ n := lookaround_ge hn
    obtain ⟨hlow, hhigh⟩ := day_fire_points_inside hs hmem
    unfold local_date
    unfold day_start at hlow hhigh
    omega)
  obtain ⟨⟨htle, hfire⟩, hmax⟩ := most_recent_greatest hs ht
  have hpt := hmax ⟨hle, d, hruns, hmem⟩
  rw [ht]
  by_contra hne
  have hlt : p < t := lt_of_le_of_ne hpt fun h => hne (by rw [h])
  have := hlast t hfire hlt
  omega

/-! ## One run for each -/

theorem last_run_le (n : ℕ) : last_run spec offset seed T n ≤ T.reading n := by
  induction n with
  | zero => exact le_rfl
  | succ n ih =>
    rw [last_run]
    split_ifs
    · exact le_rfl
    · exact ih.trans (T.forward (Nat.le_succ n))

theorem last_run_mono : Monotone (last_run spec offset seed T) := by
  refine monotone_nat_of_le_succ fun n => ?_
  rw [last_run]
  split_ifs
  · exact (last_run_le n).trans (T.forward (Nat.le_succ n))
  · exact le_rfl

variable {p : ℤ}

theorem Starts.last_run_succ {n : ℕ} (h : Starts spec offset seed T n p) :
    last_run spec offset seed T (n + 1) = T.reading (n + 1) := by
  rw [last_run, if_pos h.1]

/-- What a start says about its fire point. -/
theorem Starts.due {n : ℕ} (h : Starts spec offset seed T n p) :
    last_run spec offset seed T n < as_u64 p ∧
      held_until p (implicit_jitter spec seed) ≤ T.reading (n + 1) := by
  obtain ⟨hdue, hrecent⟩ := h
  obtain ⟨p', hrecent', hrest⟩ := calendar_due.mp hdue
  rw [hrecent] at hrecent'
  rwa [Option.some.inj hrecent']

/-- A run for a fire point is not before the number it is compared with, so that there
is no second one. -/
theorem Starts.not_again (hs : spec.Sound) (hsettled : Settled spec offset seed) {m n : ℕ}
    (hm : Starts spec offset seed T m p) (hn : Starts spec offset seed T n p) : ¬ m < n := by
  intro hlt
  obtain ⟨-, hheld⟩ := hm.due
  obtain ⟨hlast, -⟩ := hn.due
  have hmono : last_run spec offset seed T (m + 1) ≤ last_run spec offset seed T n :=
    last_run_mono hlt
  rw [hm.last_run_succ] at hmono
  have hjitter := implicit_jitter_le spec seed
  rcases lt_or_ge p 0 with hneg | hpos
  · obtain ⟨hwraps, hstays⟩ := held_until_of_neg hneg
      (show implicit_jitter spec seed < 2 ^ 63 by omega)
    rcases lt_or_ge (p + implicit_jitter spec seed) 0 with hbefore | hafter
    · rw [hstays hbefore] at hheld
      omega
    -- the wrapped instant has come, and with it a later fire point
    · rw [hwraps hafter] at hheld
      obtain ⟨⟨-, hfire⟩, hmax⟩ := most_recent_greatest hs hm.2
      obtain ⟨q, hq, hpq, hqj⟩ := hsettled p hfire hneg hafter
      have := hmax ⟨show q ≤ T.reading (m + 1) by omega, hq⟩
      omega
  · rw [as_u64_of_nonneg hpos] at hlast
    rw [held_until_of_nonneg hpos] at hheld
    omega

/-- Until the jitter of a fire point is over no run is recorded past it. -/
theorem last_run_before (hs : spec.Sound) (hspaced : Spaced spec offset seed)
    (hp : IsFirePoint spec offset seed p) (hstart : (T.reading 0 : ℤ) < p) (n : ℕ)
    (hn : (T.reading n : ℤ) < p + implicit_jitter spec seed) :
    (last_run spec offset seed T n : ℤ) < p := by
  have hjitter := implicit_jitter_le spec seed
  induction n with
  | zero => exact hstart
  | succ n ih =>
    have hstep : T.reading n ≤ T.reading (n + 1) := T.forward (Nat.le_succ n)
    rw [last_run]
    split_ifs with hdue
    · by_contra hge
      -- the tick is in the jitter of `p`, which is the most recent fire point
      have hrecent : most_recent_fire_point spec offset (T.reading (n + 1)) seed = some p := by
        refine most_recent_eq hs hp (not_lt.mp hge) (by omega) ?_
        intro q hq hpq
        have := hspaced p q hp hq (by omega) hpq
        omega
      obtain ⟨-, hheld⟩ := Starts.due ⟨hdue, hrecent⟩
      rw [held_until_of_nonneg (by omega)] at hheld
      omega
    · exact ih (by omega)

/-- A fire point with room after it has its run. -/
theorem starts_of_spaced (hs : spec.Sound) (hspaced : Spaced spec offset seed)
    (hp : IsFirePoint spec offset seed p) (hstart : (T.reading 0 : ℤ) < p) {N : ℕ}
    (hN : p + implicit_jitter spec seed + 60 ≤ T.reading N) :
    ∃ n < N, Starts spec offset seed T n p := by
  have hjitter := implicit_jitter_le spec seed
  -- the first tick after the jitter is over
  have hex : ∃ n, p + implicit_jitter spec seed ≤ T.reading n := ⟨N, by omega⟩
  obtain ⟨k, hk, hfirst⟩ : ∃ k, p + implicit_jitter spec seed ≤ T.reading k ∧
      ∀ i < k, (T.reading i : ℤ) < p + implicit_jitter spec seed :=
    ⟨Nat.find hex, Nat.find_spec hex, fun i hi => not_le.mp (Nat.find_min hex hi)⟩
  rcases k with _ | n
  · omega
  have hbefore := hfirst n (Nat.lt_succ_self n)
  have hgap := T.every_minute n
  have hlast := last_run_before hs hspaced hp hstart n hbefore
  have hrecent : most_recent_fire_point spec offset (T.reading (n + 1)) seed = some p := by
    refine most_recent_eq hs hp (by omega) (by omega) ?_
    intro q hq hpq
    have := hspaced p q hp hq (by omega) hpq
    omega
  refine ⟨n, ?_, calendar_due.mpr ⟨p, hrecent, ?_, ?_⟩, hrecent⟩
  · by_contra hge
    have := T.forward (show N ≤ n by omega)
    omega
  · rw [as_u64_of_nonneg (by omega)]
    omega
  · rw [held_until_of_nonneg (by omega)]
    omega

/-! ## A run lost, a run too many -/

/-- A minute and a half of ticks that are a second apart until the jitter is nearly
over, and then a minute. -/
def late_ticks (start jitter : ℕ) : Ticks where
  reading n := if n ≤ jitter then start + n else start + jitter + 60 * (n - jitter)
  forward := by
    refine monotone_nat_of_le_succ fun n => ?_
    split_ifs <;> omega
  every_minute n := by
    split_ifs <;> omega

/-- The next fire point is too soon: the tick after the jitter comes late, and then the
first of the two has passed. -/
theorem lost_run (hs : spec.Sound) {p q : ℤ} (hp : IsFirePoint spec offset seed p)
    (hq : IsFirePoint spec offset seed q) (hpos : 0 < p) (hpq : p < q)
    (hclose : q < p + implicit_jitter spec seed + 60) :
    ¬ EachOnce spec offset seed (late_ticks (p - 1).toNat (implicit_jitter spec seed)) := by
  obtain ⟨j, hj⟩ : ∃ j, j = implicit_jitter spec seed := ⟨_, rfl⟩
  rw [← hj] at hclose ⊢
  have hread : ∀ n, (late_ticks (p - 1).toNat j).reading n =
      if n ≤ j then (p - 1).toNat + n else (p - 1).toNat + j + 60 * (n - j) := fun _ => rfl
  rintro ⟨hserved, -⟩
  obtain ⟨n, -, hstarts⟩ := hserved (j + 2) p hp (by rw [hread, if_pos (Nat.zero_le j)]; omega) (by
    rw [← hj, hread, if_neg (by omega)]
    omega)
  obtain ⟨-, hheld⟩ := hstarts.due
  rw [held_until_of_nonneg hpos.le, ← hj] at hheld
  by_cases hearly : n + 1 ≤ j
  · rw [hread, if_pos hearly] at hheld
    omega
  -- by then the later fire point is the most recent one
  · obtain ⟨-, hmax⟩ := most_recent_greatest hs hstarts.2
    have hqn : q ≤ (late_ticks (p - 1).toNat j).reading (n + 1) := by
      rw [hread, if_neg hearly]
      omega
    have := hmax ⟨hqn, hq⟩
    omega

/-- Ticks that all fall in one second. -/
def one_second (start : ℕ) : Ticks where
  reading _ := start
  forward := fun _ _ _ => le_rfl
  every_minute _ := Nat.le_add_right _ _

/-- The held-back instant of a fire point shortly before 1970 wraps, and the job is due
for it again and again. -/
theorem extra_run (hs : spec.Sound) (hp : IsFirePoint spec offset seed p) (hneg : p < 0)
    (hafter : 0 ≤ p + implicit_jitter spec seed)
    (halone : ∀ q, IsFirePoint spec offset seed q → p < q → p + implicit_jitter spec seed < q) :
    ¬ EachOnce spec offset seed (one_second (p + implicit_jitter spec seed).toNat) := by
  have hjitter := implicit_jitter_le spec seed
  obtain ⟨now, hnow⟩ : ∃ now, now = (p + implicit_jitter spec seed).toNat := ⟨_, rfl⟩
  rw [← hnow]
  have hrecent : most_recent_fire_point spec offset now seed = some p := by
    refine most_recent_eq hs hp (by omega) (by omega) ?_
    intro q hq hpq
    have := halone q hq hpq
    omega
  have hlarge := as_u64_of_neg hneg
  have hheld := (held_until_of_neg hneg (show implicit_jitter spec seed < 2 ^ 63 by omega)).1 hafter
  have hstarts : ∀ n, Starts spec offset seed (one_second now) n p := by
    intro n
    have hlast : last_run spec offset seed (one_second now) n ≤ now := last_run_le n
    refine ⟨calendar_due.mpr ⟨p, hrecent, by omega, ?_⟩, hrecent⟩
    rw [hheld, hnow]
    exact le_rfl
  rintro ⟨-, honce⟩
  exact absurd (honce p 0 1 (hstarts 0) (hstarts 1)) (by decide)

/-- Every fire point gets one run, whatever the ticks, exactly when the fire points
leave room for the jitter and a tick and none is due forever. -/
theorem each_once_of_fire_points_iff (hs : spec.Sound) :
    (∀ T, EachOnce spec offset seed T) ↔ Spaced spec offset seed ∧ Settled spec offset seed := by
  constructor
  · intro hall
    refine ⟨?_, ?_⟩
    · intro p q hp hq hpos hpq
      by_contra hclose
      exact lost_run hs hp hq hpos hpq (not_le.mp hclose) (hall _)
    · intro p hp hneg hafter
      by_contra hno
      refine extra_run hs hp hneg hafter ?_ (hall _)
      intro q hq hpq
      by_contra hle
      exact hno ⟨q, hq, hpq, not_lt.mp hle⟩
  · rintro ⟨hspaced, hsettled⟩ T
    refine ⟨fun N p hp hstart hN => starts_of_spaced hs hspaced hp hstart hN, ?_⟩
    intro p m n hm hn
    rcases Nat.lt_trichotomy m n with hlt | heq | hlt
    · exact absurd hlt (hm.not_again hs hsettled hn)
    · exact heq
    · exact absurd hlt (hn.not_again hs hsettled hm)

/-! ## In days and minutes -/

/-- What `Spaced` and `Settled` come to for a schedule without a window, `held` being the
seconds its seed holds a run back. -/
structure Roomy (spec : CalendarSpec) (offset : ℤ) (seed : UInt64) (held : ℕ) : Prop where
  same_day : ∀ d, day_ok spec seed d = true → ∀ m ∈ spec.at_min :: spec.also_at,
    ∀ m' ∈ spec.at_min :: spec.also_at, 0 < day_start offset d + m * 60 → m < m' →
      m * 60 + held + 60 ≤ m' * 60
  next_day : ∀ d, day_ok spec seed d = true → day_ok spec seed (d + 1) = true →
    ∀ m ∈ spec.at_min :: spec.also_at, ∀ m' ∈ spec.at_min :: spec.also_at,
      0 < day_start offset d + m * 60 → m * 60 + held + 60 ≤ (24 * 60 + m') * 60
  epoch : ∀ d, day_ok spec seed d = true → ∀ m ∈ spec.at_min :: spec.also_at,
    day_start offset d + m * 60 < 0 → 0 ≤ day_start offset d + m * 60 + held →
      ∃ m' ∈ spec.at_min :: spec.also_at, (m < m' ∧ m' * 60 ≤ m * 60 + held) ∨
        (day_ok spec seed (d + 1) = true ∧ (24 * 60 + m') * 60 ≤ m * 60 + held)

theorem fixed_fire_point_iff (hs : spec.Sound) (hu : spec.until_min = none) :
    IsFirePoint spec offset seed p ↔ ∃ d, day_ok spec seed d = true ∧
      ∃ m ∈ spec.at_min :: spec.also_at, p = day_start offset d + m * 60 := by
  unfold IsFirePoint
  refine exists_congr fun d => and_congr_right fun _ => ?_
  rw [fixed_fire_points hs hu, mem_epochs]
  refine exists_congr fun m => and_congr_right fun hm => ?_
  exact and_iff_right (hs.times_lt m hm)

/-- Two fixed times less than a day apart are on one day or on two that follow. -/
theorem fixed_days {d d' : ℤ} {m m' : ℕ} (hm : m < 24 * 60) (hm' : m' < 24 * 60)
    (hlt : day_start offset d + m * 60 < day_start offset d' + m' * 60)
    (hnear : day_start offset d' + m' * 60 < day_start offset d + m * 60 + 24 * 60 * 60) :
    (d' = d ∧ m < m') ∨ d' = d + 1 := by
  unfold day_start at hlt hnear
  omega

theorem spaced_of_roomy (hs : spec.Sound) (hu : spec.until_min = none)
    (h : Roomy spec offset seed (implicit_jitter spec seed)) : Spaced spec offset seed := by
  have hjitter := implicit_jitter_le spec seed
  intro p q hp hq hpos hpq
  obtain ⟨d, hd, m, hm, rfl⟩ := (fixed_fire_point_iff hs hu).mp hp
  obtain ⟨d', hd', m', hm', rfl⟩ := (fixed_fire_point_iff hs hu).mp hq
  by_contra hclose
  rcases fixed_days (hs.times_lt m hm) (hs.times_lt m' hm') hpq (by omega) with ⟨rfl, hlt⟩ | rfl
  · have := h.same_day d' hd m hm m' hm' hpos hlt
    omega
  · have := h.next_day d hd hd' m hm m' hm' hpos
    rw [day_start_succ] at hclose
    omega

theorem settled_of_roomy (hs : spec.Sound) (hu : spec.until_min = none)
    (h : Roomy spec offset seed (implicit_jitter spec seed)) : Settled spec offset seed := by
  intro p hp hneg hafter
  obtain ⟨d, hd, m, hm, rfl⟩ := (fixed_fire_point_iff hs hu).mp hp
  obtain ⟨m', hm', ⟨hlt, hle⟩ | ⟨hd', hle⟩⟩ := h.epoch d hd m hm hneg hafter
  · exact ⟨_, (fixed_fire_point_iff hs hu).mpr ⟨d, hd, m', hm', rfl⟩, by omega, by omega⟩
  · have hday := hs.times_lt m hm
    refine ⟨_, (fixed_fire_point_iff hs hu).mpr ⟨d + 1, hd', m', hm', rfl⟩, ?_, ?_⟩
    all_goals
      rw [day_start_succ]
      omega

theorem roomy_of_spaced (hs : spec.Sound) (hu : spec.until_min = none)
    (hspaced : Spaced spec offset seed) (hsettled : Settled spec offset seed) :
    Roomy spec offset seed (implicit_jitter spec seed) := by
  have hjitter := implicit_jitter_le spec seed
  have hfire : ∀ d, day_ok spec seed d = true → ∀ m ∈ spec.at_min :: spec.also_at,
      IsFirePoint spec offset seed (day_start offset d + m * 60) := fun d hd m hm =>
    (fixed_fire_point_iff hs hu).mpr ⟨d, hd, m, hm, rfl⟩
  refine ⟨?_, ?_, ?_⟩
  · intro d hd m hm m' hm' hpos hlt
    have := hspaced _ _ (hfire d hd m hm) (hfire d hd m' hm') hpos (by omega)
    omega
  · intro d hd hd' m hm m' hm' hpos
    have hday := hs.times_lt m hm
    have := hspaced _ _ (hfire d hd m hm) (hfire (d + 1) hd' m' hm') hpos (by
      rw [day_start_succ]
      omega)
    rw [day_start_succ] at this
    omega
  · intro d hd m hm hneg hafter
    obtain ⟨q, hq, hpq, hqj⟩ := hsettled _ (hfire d hd m hm) hneg hafter
    obtain ⟨d', hd', m', hm', rfl⟩ := (fixed_fire_point_iff hs hu).mp hq
    refine ⟨m', hm', ?_⟩
    rcases fixed_days (hs.times_lt m hm) (hs.times_lt m' hm') hpq (by omega) with ⟨rfl, hlt⟩ | rfl
    · exact Or.inl ⟨hlt, by omega⟩
    · rw [day_start_succ] at hqj
      exact Or.inr ⟨hd', by omega⟩

/-- The runs of a window keep enough room: the least interval inside it, a minute and
no jitter from one day to the next. -/
theorem window_spaced (hs : spec.Sound) {u : ℕ} (hu : spec.until_min = some u) :
    Spaced spec offset seed ∧ Settled spec offset seed := by
  have hjitter : implicit_jitter spec seed = 0 := by
    unfold implicit_jitter
    rw [hu]
    rfl
  have hmin : (MIN_INTERVAL_SECS : ℤ) = 300 := rfl
  obtain ⟨-, -, hday, -, -⟩ := hs.window u hu
  constructor
  · rintro p q ⟨d, hd, hp⟩ ⟨d', hd', hq⟩ hpos hpq
    have hp' := (day_fire_points_inside hs hp).1
    have hq' := (day_fire_points_inside hs hq).2
    rw [window_fire_points hs hu] at hp hq
    obtain ⟨k, hk, rfl⟩ := List.mem_map.mp hp
    obtain ⟨k', hk', rfl⟩ := List.mem_map.mp hq
    rw [List.mem_range] at hk hk'
    rcases Int.lt_trichotomy d d' with hlt | rfl | hgt
    · have hend := (window_point_bounds offset seed d hs hu hk).2
      have hbegin := (window_point_bounds offset seed d' hs hu hk').1
      have hdays := day_start_mono offset (show d + 1 ≤ d' by omega)
      rw [day_start_succ] at hdays
      omega
    · rcases Nat.lt_trichotomy k k' with hlt | rfl | hgt
      · have := window_point_mono offset seed d hs hu hlt hk'
        omega
      · exact absurd hpq (lt_irrefl _)
      · have := window_point_mono offset seed d hs hu hgt hk
        omega
    · have := day_start_mono offset (show d' + 1 ≤ d by omega)
      omega
  · intro p _ hneg hafter
    omega

/-- For a calendar schedule that resolves: every fire point gets exactly one run,
whatever the ticks, exactly when the schedule has a window, or its times leave room for
the seconds its seed holds a run back and a minute more, across midnight too. -/
theorem each_once_iff {ops : TextOps} {sched : ScheduleDef}
    (h : resolve_calendar ops sched = .ok spec) (offset : ℤ) (seed : UInt64) :
    (∀ T, EachOnce spec offset seed T) ↔
      (spec.until_min = none → Roomy spec offset seed (seed.toNat % 301)) := by
  have hs := resolve_calendar_sound h
  rw [each_once_of_fire_points_iff hs]
  rcases hu : spec.until_min with _ | u
  · have hheld : seed.toNat % 301 = implicit_jitter spec seed := by
      unfold implicit_jitter
      rw [hu]
      rfl
    rw [hheld]
    exact ⟨fun ⟨hspaced, hsettled⟩ _ => roomy_of_spaced hs hu hspaced hsettled, fun hroomy =>
      ⟨spaced_of_roomy hs hu (hroomy rfl), settled_of_roomy hs hu (hroomy rfl)⟩⟩
  · exact iff_of_true (window_spaced hs hu) nofun

end

/-- A job at the times given, every day. -/
def times_of_day (times : List String) : ScheduleDef :=
  { «at» := .Many (times.map String.toList), «until» := [], times := none, days := .List [],
    short_months := [], pick_days := none, every := none, manual := false, cron := [] }

/-- Nine o'clock and five past. -/
def nine_and_five_past : CalendarSpec :=
  { at_min := 540, also_at := [545], until_min := none, times := 1, days := [], pick_days := none,
    dates := none }

theorem resolve_nine_and_five_past :
    resolve_calendar ascii_ops (times_of_day ["09:00", "09:05"]) = .ok nine_and_five_past := by rfl

theorem each_once_nine_and_five_past :
    (∀ T, EachOnce nine_and_five_past 0 0 T) ↔
      (nine_and_five_past.until_min = none →
        Roomy nine_and_five_past 0 0 ((0 : UInt64).toNat % 301)) :=
  each_once_iff resolve_nine_and_five_past 0 0

/-- The job "digest" of the project "demo" is held back by five minutes. At a tick just
before 09:05 its run for 09:00 is still held back, and at the next tick 09:05 is the most
recent fire point. -/
theorem nine_o_clock_is_lost :
    resolve_calendar ascii_ops (times_of_day ["09:00", "09:05"]) = .ok nine_and_five_past ∧
      ¬ EachOnce nine_and_five_past 0 (job_seed "demo".toList "digest".toList)
        (late_ticks 1700038799 300) := by
  refine ⟨resolve_nine_and_five_past, ?_⟩
  have hs := resolve_calendar_sound resolve_nine_and_five_past
  have hjitter : implicit_jitter nine_and_five_past (job_seed "demo".toList "digest".toList) = 300 := by
    decide
  have hfire : ∀ m ∈ [540, 545], IsFirePoint nine_and_five_past 0
      (job_seed "demo".toList "digest".toList) (day_start 0 738839 + (m : ℕ) * 60) := fun m hm =>
    (fixed_fire_point_iff hs rfl).mpr ⟨738839, by decide, m, hm, rfl⟩
  have hlost := lost_run hs (hfire 540 (by decide)) (hfire 545 (by decide)) (by decide) (by decide)
    (by rw [hjitter]; decide)
  rwa [hjitter] at hlost

end Lpm.Jobs
