/-
The schedule of a job in `jobs.rs`: what a job file may say about timing, what it
resolves to, when the job is due and what the countdown shows.

Seconds of the clock are a `u64` in the code and a natural number here; reading
one as an `i64` changes nothing, the clock of every host counting its seconds in
an `i64`. A fire point goes the other way, and one before 1970 turns into a huge
number (`as_u64`). Sums of a `u64` wrap, as a release build has them. A draw is
always some `u64`; nothing else is used of it.
-/
import Lpm.Jobs.Cron

set_option autoImplicit false

open OrdMap RustText

namespace Lpm.Jobs

def MIN_INTERVAL_SECS : ℕ := 300

def MAX_JITTER_SECS : ℕ := 5 * 60

/-! ## What a job file says -/

/-- A bare number is read as hours. -/
inductive EveryValue where
  | Int (h : ℤ)
  | Str (s : Str)

structure ScheduleDef where
  «at» : AtValue
  «until» : Str
  times : Option ℕ
  days : DaysValue
  short_months : Str
  pick_days : Option ℕ
  every : Option EveryValue
  manual : Bool
  cron : Str

/-- A time-of-day schedule, in minutes since local midnight. -/
structure CalendarSpec where
  at_min : ℕ
  also_at : List ℕ
  until_min : Option ℕ
  times : ℕ
  days : List ℕ
  pick_days : Option ℕ
  dates : Option DateRule
  deriving DecidableEq

inductive Schedule where
  | Interval (min_secs max_secs : ℕ) (limits : Option IntervalLimits)
  | Calendar (spec : CalendarSpec)
  | Cron (spec : Cron.CronSpec)
  | Manual

/-! ## Intervals -/

/-- The unit of a length that ends in one. -/
def unit_secs : Char → Option ℕ
  | 'm' => some 60
  | 'h' => some 3600
  | 'd' => some 86400
  | _ => none

/-- A length as the text of `parse_every_secs` has it, and its unit. -/
def length_parts (s : Str) : Str × ℕ :=
  match s.getLast?.bind unit_secs with
  | some mult => (trim s.dropLast, mult)
  | none => (s, 3600)

section
variable (ops : TextOps) (v : EveryValue)

/-- The seconds an interval comes to, however few. -/
def every_secs : Except String ℕ :=
  match v with
  | .Int h =>
    if h ≤ 0 then .error "The interval must be at least 5 minutes."
    else .ok (h.toNat * 3600 % 2 ^ 64)
  | .Str s =>
    let (num, mult) := length_parts (ops.to_lowercase (trim s))
    match parse_u64 num with
    | none => .error "The interval isn't a valid length."
    | some n => if n * mult < 2 ^ 64 then .ok (n * mult) else .error "The interval is too large."

/-- `parse_every_secs`. -/
def parse_every_secs : Except String ℕ := do
  let secs ← every_secs ops v
  if secs < MIN_INTERVAL_SECS then .error "The interval must be at least 5 minutes."
  else return secs

/-- The shorter end of a band takes the unit of the longer one when it has none. -/
def carry_unit (lo hi : Str) : Str :=
  match hi.getLast? with
  | none => lo
  | some unit =>
    if (unit_secs unit).isSome && !(lo.getLast?.bind unit_secs).isSome then lo ++ [unit] else lo

/-- `parse_every_band`. -/
def parse_every_band : Except String (ℕ × ℕ) :=
  let fixed := (parse_every_secs ops v).map fun s => (s, s)
  match v with
  | .Int _ => fixed
  | .Str raw =>
    match split_once '-' (ops.to_lowercase (trim raw)) with
    | none => fixed
    | some (lo, hi) =>
      let lo := trim lo
      let hi := trim hi
      if lo.isEmpty || hi.isEmpty then .error "The interval isn't a valid length."
      else do
        let min ← parse_every_secs ops (.Str (carry_unit lo hi))
        let max ← parse_every_secs ops (.Str hi)
        if max < min then .error "The longest gap has to be at least the shortest."
        else return (min, max)

end

/-! ## Times of day -/

/-- `parse_at_minutes`. -/
def parse_at_minutes («at» : Str) : Except String ℕ :=
  let bad := "Use a time like 09:00."
  match split_once ':' «at» with
  | none => .error bad
  | some (h, m) =>
    match parse_u32 (trim h), parse_u32 (trim m) with
    | some h, some m => if 23 < h || 59 < m then .error bad else .ok (h * 60 + m)
    | _, _ => .error bad

/-- The end of a window, when there is one. -/
def parse_until (text : Str) : Except String (Option ℕ) :=
  if (trim text).isEmpty then .ok none else (parse_at_minutes (trim text)).map some

/-- `resolve_pick_days`. -/
def resolve_pick_days (pick : Option ℕ) (days : List ℕ) : Except String (Option ℕ) :=
  let pool := if days.isEmpty then 7 else days.length
  let plural := if pool = 1 then "" else "s"
  match pick with
  | none => .ok none
  | some 0 => .error "Pick at least one day."
  | some n =>
    if pool < n then .error s!"This job only has {pool} day{plural} to pick from."
    else if n = pool then .ok none
    else .ok (some n)

section
variable (ops : TextOps)

/-- What `resolve_calendar` checks about a window and the times that share a day. -/
def check_times (at_min : ℕ) (also_at : List ℕ) (until_min : Option ℕ) (times : ℕ) :
    Except String Unit :=
  let gaps := (at_min :: also_at).zipWith (fun a b => b - a) also_at
  match until_min with
  | some u =>
    if !also_at.isEmpty then .error "A window starts at one time, not a list of them."
    else if u ≤ at_min then .error "The window has to end after it starts."
    else if (u - at_min) * 60 / times < MIN_INTERVAL_SECS then
      .error "That's more runs than the window has room for."
    else .ok ()
  | none =>
    if 1 < times then .error "Give the job a window to spread its runs across."
    else if gaps.any fun gap => gap * 60 < MIN_INTERVAL_SECS then
      .error "Keep the times at least 5 minutes apart."
    else .ok ()

/-- The weekdays of a calendar job, or the rule that replaces them. -/
def calendar_days : ParsedDays → List ℕ × Option DateRule
  | .Weekdays days => (days, none)
  | .Rule rule => ([], some rule)

variable (sched : ScheduleDef)

/-- `resolve_calendar`. -/
def resolve_calendar : Except String CalendarSpec := do
  let ats ← sched.at.items.mapM parse_at_minutes
  match ordered_set ats with
  -- `ats[0]` of no time at all: `resolve_schedule` has looked at that before
  | [] => .error "Give this job a time or an interval."
  | at_min :: also_at =>
    let parsed ← parse_days ops sched.days sched.short_months
    let (days, dates) := calendar_days parsed
    let until_min ← parse_until sched.until
    let times := max (sched.times.getD 1) 1
    check_times at_min also_at until_min times
    if dates.isSome && sched.pick_days.isSome then
      .error "Picking days at random works with days of the week only."
    else
      let pick_days ← resolve_pick_days sched.pick_days days
      return { at_min, also_at, until_min, times, days, pick_days, dates }

/-- The daily window of an interval job. -/
def resolve_window (ats : List Str) (stop : Str) : Except String (Option (ℕ × ℕ)) :=
  match ats, stop.isEmpty with
  | [], true => .ok none
  | [start], false => do
    let start ← parse_at_minutes start
    let stop ← parse_at_minutes stop
    if stop ≤ start then .error "The window has to end after it starts."
    else return some (start, stop)
  | [], false => .error "Give the window a start time."
  | [_], true => .error "Give the window an end time."
  | _, _ => .error "An interval takes one window, not a list of times."

/-- The weekdays of an interval job. -/
def interval_days : ParsedDays → Except String (List ℕ)
  | .Weekdays days => .ok days
  | .Rule _ => .error "An interval can only be limited to days of the week."

/-- `resolve_interval`. -/
def resolve_interval (every : EveryValue) : Except String Schedule := do
  if sched.times.isSome then .error "Runs a day belong to a job that runs at a time of day."
  else if sched.pick_days.isSome then
    .error "Picking days belongs to a job that runs at a time of day."
  else
    let window ← resolve_window sched.at.items (trim sched.until)
    let parsed ← parse_days ops sched.days sched.short_months
    let days ← interval_days parsed
    let (min_secs, max_secs) ← parse_every_band ops every
    let limits := if window.isSome || !days.isEmpty then some ⟨window, days⟩ else none
    return .Interval min_secs max_secs limits

/-- `resolve_schedule`. -/
def resolve_schedule : Except String Schedule :=
  let cron := trim sched.cron
  let no_days := match sched.days with
    | .List [] => true
    | _ => false
  if sched.manual then .ok .Manual
  else if !cron.isEmpty then
    if sched.every.isSome || !sched.at.items.isEmpty || !no_days then
      .error "A cron line says when the job runs on its own — drop at, every and days."
    else (Cron.parse cron MIN_INTERVAL_SECS).map .Cron
  else
    match sched.every with
    | some every => resolve_interval ops sched every
    | none =>
      if sched.at.items.isEmpty then .error "Give this job a time or an interval."
      else (resolve_calendar ops sched).map .Calendar

end

/-! ## Draws -/

def FNV_PRIME : UInt64 := 0x100000001b3

/-- `job_seed`: FNV-1a over the bytes of "project/job". -/
def job_seed (project job_id : Str) : UInt64 :=
  let key := project ++ '/' :: job_id
  (key.flatMap String.utf8EncodeChar).foldl (fun h b => (h ^^^ b.toUInt64) * FNV_PRIME)
    0xcbf29ce484222325

/-- The bytes of a `u64`, lowest first. -/
def le_bytes (v : UInt64) : List UInt64 :=
  (List.range 8).map fun i => (v >>> UInt64.ofNat (i * 8)) &&& 0xff

/-- `draw`. -/
def draw (seed : UInt64) (a : ℤ) (b : ℕ) : UInt64 :=
  (le_bytes (UInt64.ofInt a) ++ le_bytes (UInt64.ofNat b)).foldl
    (fun h byte => (h ^^^ byte) * FNV_PRIME) seed

variable (spec : CalendarSpec) (seed : UInt64)

/-- `implicit_jitter`: none for a job with a window of its own. -/
def implicit_jitter : ℕ :=
  if spec.until_min.isSome then 0 else seed.toNat % (MAX_JITTER_SECS + 1)

/-- `day_pool`. -/
def day_pool (days : List ℕ) : List ℕ := if days.isEmpty then List.range 7 else days

/-- The loop of `picked_days`, with `left` days still to pick. -/
def pick_from : (left i : ℕ) → (rest : List ℕ) → (h : UInt64) → List ℕ
  | 0, _, _, _ => []
  | left + 1, i, rest, h =>
    let h := draw h i 0
    let k := h.toNat % rest.length
    rest.getD k 0 :: pick_from left (i + 1) (rest.eraseIdx k) h

/-- `picked_days`. -/
def picked_days (pool : List ℕ) (n : ℕ) (week_seed : UInt64) : List ℕ :=
  pick_from (min n pool.length) 0 pool week_seed

variable (date : ℤ)

/-- The Thursday of the week of a date, which is in the ISO year of that week. -/
def week_thursday : ℤ := date - weekday_of date + 3

/-- `iso_week().year()`. -/
def iso_year : ℤ := Gregorian.year (week_thursday date)

/-- `iso_week().week()`. -/
def iso_week : ℕ :=
  ((week_thursday date - Gregorian.year_start (iso_year date)) / 7).toNat + 1

/-- `day_ok`. -/
def day_ok : Bool :=
  match spec.dates with
  | some rule => rule.matches date
  | none =>
    let weekday := weekday_of date
    let pool := day_pool spec.days
    if !pool.contains weekday then false
    else
      match spec.pick_days with
      | none => true
      | some n =>
        let week_seed := draw seed (iso_year date) (iso_week date)
        (picked_days pool n week_seed).contains weekday

/-! ## Fire points -/

def LOOKAROUND_DAYS : ℕ := 16

/-- The seconds into its slice a run of a window lands at, for slice `k` of `times`:
every slice but the last holds back the least interval at its end. -/
def slice_offset (slice : ℤ) (times k : ℕ) : ℤ :=
  let span := slice - if k + 1 < times then (MIN_INTERVAL_SECS : ℤ) else 0
  if 0 < span then ((draw seed date k).toNat % (span.toNat + 1) : ℕ) else 0

/-- `day_fire_points`. -/
def day_fire_points (offset : ℤ) (seed : UInt64) (date : ℤ) : List ℤ :=
  if !spec.also_at.isEmpty then epochs offset date (spec.at_min :: spec.also_at)
  else
    match local_epoch offset date spec.at_min with
    | none => []
    | some start =>
      let stop := spec.until_min.bind (local_epoch offset date)
      let window := (stop.map fun e => e - start).getD 0
      if window ≤ 0 then [start]
      else
        let times := max spec.times 1
        let slice := window / times
        (List.range times).map fun k => start + k * slice + slice_offset seed date slice times k

/-- `candidate_days`. -/
def candidate_days (today : ℤ) (forward : Bool) : List ℤ :=
  match spec.dates with
  | some (.On dates) =>
    if forward then dates.filter fun d => today ≤ d
    else (dates.filter fun d => d ≤ today).reverse
  | dates =>
    let span := if dates.isSome then MONTH_LOOKAROUND_DAYS else LOOKAROUND_DAYS
    (List.range span).map fun i : ℕ => if forward then today + (i : ℤ) else today - (i : ℤ)

/-- `most_recent_fire_point`. -/
def most_recent_fire_point (offset now : ℤ) (seed : UInt64) : Option ℤ :=
  let today := local_date offset now
  ((candidate_days spec today false).filter (day_ok spec seed)).findSome? fun d =>
    (day_fire_points spec offset seed d).reverse.find? fun p => p ≤ now

/-- `next_fire_point`. -/
def next_fire_point (offset now : ℤ) (seed : UInt64) : Option ℤ :=
  let today := local_date offset now
  ((candidate_days spec today true).filter (day_ok spec seed)).findSome? fun d =>
    (day_fire_points spec offset seed d).find? fun p => now < p

/-! ## Due, and the countdown -/

/-- `as u64`, of an `i64`: a negative one lands in the upper half. -/
def as_u64 (n : ℤ) : ℕ := if 0 ≤ n then n.toNat else (2 ^ 64 + max n (-2 ^ 63)).toNat

/-- `as i64`, of a `u64`. -/
def as_i64 (n : ℕ) : ℤ := if n < 2 ^ 63 then n else n - 2 ^ 64

/-- `interval_gap`. -/
def interval_gap (min_secs max_secs last_run : ℕ) (seed : UInt64) : ℕ :=
  if max_secs ≤ min_secs then min_secs
  else min_secs + (draw seed last_run 0).toNat % (max_secs - min_secs + 1)

/-- The instant a fire point is held back to. The sum only wraps for a fire point
shortly before 1970. -/
def held_until (occ : ℤ) (jitter : ℕ) : ℕ :=
  if 0 ≤ occ then as_u64 occ + jitter else (as_u64 occ + jitter) % 2 ^ 64

variable (schedule : Schedule)

/-- `is_due`. -/
def is_due (offset : ℤ) (last_run now : ℕ) (seed : UInt64) : Bool :=
  match schedule with
  | .Interval min_secs max_secs limits =>
    interval_gap min_secs max_secs last_run seed ≤ now - last_run
      && limits.all fun l => l.allows offset now
  | .Calendar spec =>
    (most_recent_fire_point spec offset now seed).any fun occ =>
      last_run < as_u64 occ && held_until occ (implicit_jitter spec seed) ≤ now
  | .Cron spec => (spec.last_at_or_before offset now).any fun occ => last_run < as_u64 occ
  | .Manual => false

/-- `next_fire_at`. -/
def next_fire_at (offset : ℤ) (last_run now : ℕ) (seed : UInt64) :
    Option ℤ :=
  match schedule with
  | .Interval min_secs max_secs limits =>
    let due := as_i64 ((last_run + interval_gap min_secs max_secs last_run seed) % 2 ^ 64)
    match limits with
    | some l => l.next_open offset (max due now)
    | none => some due
  | .Calendar spec => next_fire_point spec offset now seed
  | .Cron spec => spec.next_after offset now
  | .Manual => none

end Lpm.Jobs
