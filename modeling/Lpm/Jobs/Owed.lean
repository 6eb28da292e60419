/-
How long a due job has waited.

A tick ranks the due jobs by the fire point each is owed (`due_fire_at`). For an interval
that is where its gap ended, and stays it. For a calendar or a cron job it is the latest
fire point up to now, where the job came due at the first one after its last run
(`CameDue`): the two are the same as long as no further one has passed (`Once`), and
otherwise the job counts as having waited less than it did.
-/
import Lpm.Jobs.Countdown

set_option autoImplicit false

namespace Lpm.Jobs

open Option

/-- `due_fire_at`. -/
def due_fire_at (schedule : Schedule) (offset : ℤ) (last_run now : ℕ) (seed : UInt64) :
    Option ℕ :=
  match schedule with
  | .Interval min_secs max_secs limits =>
    let due := (last_run + interval_gap min_secs max_secs last_run seed) % 2 ^ 64
    match limits with
    | some l => (l.next_open offset (as_i64 due)).map as_u64
    | none => some due
  | .Calendar spec =>
    (most_recent_fire_point spec offset (as_i64 now) seed).map fun occ =>
      held_until occ (implicit_jitter spec seed)
  | .Cron spec => (spec.last_at_or_before offset (as_i64 now)).map as_u64
  | .Manual => none

/-- A job as the scheduler resolves it, with the seed of its key. -/
structure Job where
  schedule : Schedule
  seed : UInt64
  sound : schedule.Sound

variable (offset : ℤ) (job : Job)

/-- The end of `overdue_by`: how long a due job has waited. -/
def waited (last_run now : ℕ) : ℕ :=
  match due_fire_at job.schedule offset last_run now job.seed with
  | some fire => now - fire
  | none => 0

/-- `overdue_by`, of a job that has been seen before: how long it has been due. -/
def overdue_by (last_run : Option ℕ) (on : Bool) (now : ℕ) : Option ℕ :=
  match last_run with
  | some last_run =>
    if on && is_due job.schedule offset last_run now job.seed then
      some (waited offset job last_run now)
    else none
  | none => none

/-! ## When a job came due -/

/-- The instants a job fires at, where its schedule names such. -/
def Fires (p : ℤ) : Prop :=
  match job.schedule with
  | .Calendar spec => IsFirePoint spec offset job.seed p
  | .Cron spec => spec.Matches offset p
  | _ => False

/-- How long after a fire point the job is due. -/
def Job.jitter : ℕ :=
  match job.schedule with
  | .Calendar spec => implicit_jitter spec job.seed
  | _ => 0

/-- The instant a job came due at, after its last run. -/
def CameDue (last_run t : ℕ) : Prop :=
  match job.schedule with
  | .Interval min_secs max_secs limits =>
    IsLeast {t : ℕ | last_run + interval_gap min_secs max_secs last_run job.seed ≤ t ∧
      ∀ l, limits = some l → l.allows offset t = true} t
  | .Manual => False
  | _ => ∃ p, IsLeast {p : ℤ | last_run < p ∧ Fires offset job p} p ∧ (t : ℤ) = p + job.jitter

/-- No further fire point has passed since the one the job came due at. -/
def Once (last_run now : ℕ) : Prop :=
  ∀ p q, Fires offset job p → Fires offset job q → (last_run : ℤ) < p → p ≤ now →
    (last_run : ℤ) < q → q ≤ now → p = q

/-- The last fire point up to now is not before 1970. -/
def AfterEpoch (now : ℕ) : Prop :=
  ∀ p, IsGreatest {p : ℤ | p ≤ now ∧ Fires offset job p} p → 0 ≤ p

section
variable {offset : ℤ} {job : Job} {last_run now t : ℕ}

theorem as_i64_of_lt {n : ℕ} (h : n < 2 ^ 63) : as_i64 n = n := if_pos h

/-- What a due job is owed, where it fires at points: the last one up to now, past its
last run. -/
theorem owed_point {occ : ℤ} (hpast : last_run < as_u64 occ) (hzero : 0 ≤ occ) (hle : occ ≤ now)
    (hfires : Fires offset job occ) {p : ℤ}
    (hp : IsLeast {p : ℤ | last_run < p ∧ Fires offset job p} p) :
    p ≤ occ ∧ (Once offset job last_run now → p = occ) := by
  rw [as_u64_of_nonneg hzero] at hpast
  have hmem : occ ∈ {p : ℤ | last_run < p ∧ Fires offset job p} := ⟨by omega, hfires⟩
  have hfirst : p ≤ occ := hp.2 hmem
  refine ⟨hfirst, ?_⟩
  intro honce
  exact honce p occ hp.1.2 hfires hp.1.1 (hfirst.trans hle) hmem.1 hle

/-- A job that fires at points, owed the one `occ`. -/
theorem waited_point {occ : ℤ}
    (hfire : due_fire_at job.schedule offset last_run now job.seed = some (occ.toNat + job.jitter))
    (hpast : last_run < as_u64 occ) (hzero : 0 ≤ occ) (hle : occ + job.jitter ≤ now)
    (hfires : Fires offset job occ)
    (hcame : ∃ p, IsLeast {p : ℤ | last_run < p ∧ Fires offset job p} p ∧ (t : ℤ) = p + job.jitter) :
    t ≤ now ∧ waited offset job last_run now ≤ now - t ∧
      (Once offset job last_run now → waited offset job last_run now = now - t) := by
  obtain ⟨p, hp, ht⟩ := hcame
  obtain ⟨hfirst, honce⟩ := owed_point hpast hzero (show occ ≤ now by omega) hfires hp
  rw [waited, hfire]
  dsimp only
  refine ⟨by omega, by omega, ?_⟩
  intro h
  have := honce h
  omega

/-- An interval job is owed the end of its gap, or the first moment allowed after it. -/
theorem waited_interval {lo hi : ℕ} {limits : Option IntervalLimits}
    (hschedule : job.schedule = .Interval lo hi limits) (hnow : now < 2 ^ 63)
    (hdue : is_due job.schedule offset last_run now job.seed = true)
    (hcame : CameDue offset job last_run t) :
    t ≤ now ∧ waited offset job last_run now = now - t := by
  have hsound := job.sound
  rw [hschedule] at hsound
  obtain ⟨hmin, hband, -, hlimits⟩ := hsound
  have hgap := (interval_gap_bounds last_run job.seed hband).1
  have hlong : 0 < MIN_INTERVAL_SECS := by decide
  obtain ⟨gap, hgapeq⟩ : ∃ gap, gap = interval_gap lo hi last_run job.seed := ⟨_, rfl⟩
  rw [CameDue, hschedule] at hcame
  dsimp only at hcame
  rw [hschedule, is_due, Bool.and_eq_true, decide_eq_true_eq] at hdue
  rw [waited, hschedule]
  unfold due_fire_at
  dsimp only
  rw [← hgapeq] at hgap hcame hdue ⊢
  obtain ⟨hover, hallowed⟩ := hdue
  -- the sum does not wrap, as the clock is past it
  rw [Nat.mod_eq_of_lt (show last_run + gap < 2 ^ 64 by omega)]
  cases limits with
  | none =>
    have hend : t ≤ last_run + gap := hcame.2 ⟨Nat.le_refl _, nofun⟩
    have hstart : last_run + gap ≤ t := hcame.1.1
    dsimp only
    exact ⟨by omega, by omega⟩
  | some l =>
    rw [as_i64_of_lt (show last_run + gap < 2 ^ 63 by omega)]
    -- within limits it is the next moment they allow
    obtain ⟨p, hp, -, ⟨hfrom, hopen⟩, hleast⟩ :=
      next_open_least (hlimits l rfl) offset ((last_run + gap : ℕ) : ℤ)
    dsimp only
    rw [hp, map_some]
    dsimp only
    have hopens := hcame.1.2 l rfl
    have hpt : p ≤ t := hleast ⟨by exact_mod_cast hcame.1.1, hopens⟩
    have htp : t ≤ p.toNat := by
      refine hcame.2 ⟨by omega, ?_⟩
      intro l' hl'
      cases hl'
      rw [Int.toNat_of_nonneg (by omega)]
      exact hopen
    have hnowopen : t ≤ now := by
      refine hcame.2 ⟨by omega, ?_⟩
      intro l' hl'
      cases hl'
      simpa using hallowed
    rw [as_u64_of_nonneg (by omega)]
    exact ⟨hnowopen, by omega⟩

/-- A due job came due at some time past, and counts as waiting no longer than since then;
and since then exactly, where no further fire point has passed. -/
theorem waited_since (hnow : now < 2 ^ 63) (hepoch : AfterEpoch offset job now)
    (hdue : is_due job.schedule offset last_run now job.seed = true)
    (hcame : CameDue offset job last_run t) :
    t ≤ now ∧ waited offset job last_run now ≤ now - t ∧
      (Once offset job last_run now → waited offset job last_run now = now - t) := by
  cases hschedule : job.schedule with
  | Interval lo hi limits =>
    obtain ⟨hle, heq⟩ := waited_interval hschedule hnow hdue hcame
    exact ⟨hle, heq.le, fun _ => heq⟩
  | Calendar spec =>
    have hsound := job.sound
    have hjitter : job.jitter = implicit_jitter spec job.seed := by rw [Job.jitter, hschedule]
    have hfires : Fires offset job = fun p => IsFirePoint spec offset job.seed p := by
      unfold Fires
      rw [hschedule]
    rw [hschedule] at hsound
    rw [AfterEpoch, hfires] at hepoch
    rw [hschedule, is_due, Option.any_eq_true] at hdue
    -- `is_due` and `due_fire_at` look at one fire point, the latest
    obtain ⟨occ, hocc, hboth⟩ := hdue
    rw [Bool.and_eq_true, decide_eq_true_eq, decide_eq_true_eq] at hboth
    have hlast := most_recent_greatest hsound hocc
    have hzero : 0 ≤ occ := hepoch occ hlast
    have hheld := hboth.2
    rw [held_until_of_nonneg hzero] at hheld
    refine waited_point ?_ hboth.1 hzero ?_ ?_ ?_
    · rw [hschedule, due_fire_at, as_i64_of_lt hnow, hocc, map_some,
        held_until_of_nonneg hzero, hjitter]
    · rw [hjitter]
      omega
    · rw [hfires]
      exact hlast.1.2
    · rw [CameDue, hschedule] at hcame
      exact hcame
  | Cron spec =>
    have hjitter : job.jitter = 0 := by rw [Job.jitter, hschedule]
    have hfires : Fires offset job = fun p => spec.Matches offset p := by
      unfold Fires
      rw [hschedule]
    rw [AfterEpoch, hfires] at hepoch
    rw [hschedule, is_due, Option.any_eq_true] at hdue
    obtain ⟨occ, hocc, hpast⟩ := hdue
    rw [decide_eq_true_eq] at hpast
    have hlast := Cron.last_at_or_before_greatest hocc
    have hzero : 0 ≤ occ := hepoch occ hlast
    refine waited_point ?_ hpast hzero ?_ ?_ ?_
    · rw [hschedule, due_fire_at, as_i64_of_lt hnow, hocc, map_some,
        as_u64_of_nonneg hzero, hjitter]
      rfl
    · rw [hjitter]
      have := hlast.1.1
      omega
    · rw [hfires]
      exact hlast.1.2
    · rw [CameDue, hschedule] at hcame
      exact hcame
  | Manual =>
    rw [hschedule] at hdue
    exact absurd hdue (by simp [is_due])

end

end Lpm.Jobs
