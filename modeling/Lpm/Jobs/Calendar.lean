/-
The local clock of `jobs.rs`, with a fixed offset from UTC.

`offset` is the number of seconds the local clock is ahead. With no daylight-saving
change every local time is one instant, which leaves only the first case of
`local_epoch`. The calendar has no last day here; chrono's ends in the years
±262143, further from any instant than the searches below look.
-/
import Lpm.Lib.DaySearch
import Lpm.Lib.Gregorian
import Lpm.Lib.OrdMap
import Lpm.Lib.RustText

set_option autoImplicit false

open OrdMap DaySearch

namespace Lpm.Jobs

/-- The day number of 1970-01-01. -/
def EPOCH_DAY : ℤ := 719163

/-- `Local.timestamp_opt(now, 0)`, its date. -/
def local_date (offset now : ℤ) : ℤ := (now + offset) / 86400 + EPOCH_DAY

variable (offset date : ℤ)

/-- The instant of local midnight. -/
def day_start : ℤ := (date - EPOCH_DAY) * 86400 - offset

/-- `local_epoch`: the instant `at_min` minutes after midnight of `date`. -/
def local_epoch (at_min : ℕ) : Option ℤ :=
  if at_min < 24 * 60 then some (day_start offset date + at_min * 60) else none

theorem day_start_le (offset now : ℤ) : day_start offset (local_date offset now) ≤ now := by
  unfold day_start local_date
  omega

theorem lt_day_start_succ (offset now : ℤ) :
    now < day_start offset (local_date offset now + 1) := by
  unfold day_start local_date
  omega

theorem day_start_succ :
    day_start offset (date + 1) = day_start offset date + 86400 := by
  unfold day_start
  omega

theorem day_start_mono (offset : ℤ) : Monotone (day_start offset) := by
  intro d d' h
  unfold day_start
  omega

theorem local_date_mono (offset : ℤ) : Monotone (local_date offset) := by
  intro t t' h
  unfold local_date
  omega

/-- The date of an instant is the day whose bounds hold it. -/
theorem local_date_eq {offset now date : ℤ} (hlow : day_start offset date ≤ now)
    (hhigh : now < day_start offset (date + 1)) : local_date offset now = date := by
  unfold day_start local_date at *
  omega

/-- What a day's minutes, in any order and any number of times, come to as instants:
sorted, each once. -/
def epochs (mins : List ℕ) : List ℤ :=
  ordered_set (mins.filterMap (local_epoch offset date))

theorem mem_epochs {offset date t : ℤ} {mins : List ℕ} :
    t ∈ epochs offset date mins ↔
      ∃ m ∈ mins, m < 24 * 60 ∧ t = day_start offset date + m * 60 := by
  rw [epochs, mem_ordered_set, List.mem_filterMap]
  refine exists_congr fun m => and_congr_right fun _ => ?_
  unfold local_epoch
  split_ifs with h
  · simp [h, eq_comm]
  · simp [h]

theorem epochs_sorted (mins : List ℕ) :
    (epochs offset date mins).Pairwise (· < ·) := ordered_set_sorted _

/-! ## The vocabulary of a schedule

`jobcal.rs`. Two functions of the code are not defined here and stand as parameters:
`to_lowercase`, Unicode lower case, and `parse_date`, chrono's reading of
`%Y-%m-%d`. Nothing is assumed of either. -/

open OrdMap RustText

/-- What the readers below take from outside. -/
structure TextOps where
  to_lowercase : Str → Str
  parse_date : Str → Option ℤ

/-- Enough for text in ASCII without calendar dates. -/
def ascii_ops : TextOps := { to_lowercase := to_ascii_lowercase, parse_date := fun _ => none }

def DAY_NAMES : List String := ["mon", "tue", "wed", "thu", "fri", "sat", "sun"]

/-- How far a search for a month-based rule looks either way. -/
def MONTH_LOOKAROUND_DAYS : ℕ := 62

def NTH_WORDS : List String := ["first", "second", "third", "fourth", "last"]

def LAST : ℕ := 5

/-! ## What a schedule is written with -/

inductive AtValue where
  | One (s : Str)
  | Many (v : List Str)

/-- `AtValue::items`. -/
def AtValue.items (self : AtValue) : List Str :=
  (match self with
    | .One s => [trim s]
    | .Many v => v.map trim).filter fun s => !s.isEmpty

inductive DayItem where
  | Num (n : ℤ)
  | Text (s : Str)

inductive DaysValue where
  | List (v : List DayItem)
  | One (item : DayItem)

inductive NthOf where
  | Weekday (w : ℕ)
  | Day
  | Workday
  deriving DecidableEq

/-- Which days a calendar job runs on when that is not a set of weekdays. -/
inductive DateRule where
  | MonthDays (days : List ℕ) (last fill_short : Bool)
  | Nth (nth : ℕ) (of : NthOf)
  | On (dates : List ℤ)
  deriving DecidableEq

/-- Weekdays are numbered from Monday; none of them means every day. -/
inductive ParsedDays where
  | Weekdays (days : List ℕ)
  | Rule (rule : DateRule)

/-! ## Reading it -/

section
variable (ops : TextOps)

/-- `parse_day`. -/
def parse_day (d : Str) : Except String ℕ :=
  let d := ops.to_lowercase (trim d)
  let shown := String.ofList d
  match DAY_NAMES.findIdx? fun n => n.toList == d with
  | some i => .ok i
  | none => .error s!"\"{shown}\" isn't a valid day."

/-- `parse_nth`. -/
def parse_nth (text : Str) : Option DateRule :=
  match split_whitespace text with
  | [nth, of] =>
    match NTH_WORDS.findIdx? fun w => w.toList == nth with
    | none => none
    | some i =>
      if of = "day".toList then some (.Nth (i + 1) .Day)
      else if of = "weekday".toList then some (.Nth (i + 1) .Workday)
      else
        match parse_day ops of with
        | .ok w => some (.Nth (i + 1) (.Weekday w))
        | .error _ => none
  | _ => none

/-- What one item of `days` is. -/
inductive DayKind where
  | Weekday (w : ℕ)
  | Date (d : ℕ)
  | Last
  | On (date : ℤ)

/-- The `date` of `classify`. -/
def date_of_month (n : ℤ) : Except String DayKind :=
  if 1 ≤ n ∧ n ≤ 31 then .ok (.Date n.toNat)
  else .error "Dates of the month run from 1 to 31."

/-- `classify`. -/
def classify (item : DayItem) : Except String DayKind :=
  match item with
  | .Num n => date_of_month n
  | .Text raw =>
    let t := ops.to_lowercase (trim raw)
    if t = "last".toList then .ok .Last
    else
      match parse_i64 t with
      | some n => date_of_month n
      | none =>
        match ops.parse_date t with
        | some d => .ok (.On d)
        | none => (parse_day ops t).map .Weekday

/-- The `shortMonths` setting: whether a date a short month lacks runs on its last day. -/
def short_months_fill (short_months : Str) : Except String (Option Bool) :=
  let text := ops.to_lowercase (trim short_months)
  if text = [] then .ok none
  else if text = "skip".toList then .ok (some false)
  else if text = "last".toList then .ok (some true)
  else .error "shortMonths is either \"skip\" or \"last\"."

/-- `finish`: the setting only goes with dates of the month. -/
def finish (parsed : ParsedDays) (short_months : Str) : Except String ParsedDays := do
  match parsed, ← short_months_fill ops short_months with
  | .Rule (.MonthDays days last _), fill => .ok (.Rule (.MonthDays days last (fill.getD false)))
  | _, some _ => .error "shortMonths only goes with dates of the month."
  | parsed, none => .ok parsed

/-- What the loop of `parse_days` has gathered. -/
structure GatheredDays where
  weekdays : List ℕ
  dates : List ℕ
  last : Bool
  on : List ℤ

/-- One turn of that loop. -/
def gather_day (g : GatheredDays) (item : DayItem) : Except String GatheredDays := do
  match ← classify ops item with
  | .Weekday d => return { g with weekdays := g.weekdays ++ [d] }
  | .Date d => return { g with dates := g.dates ++ [d] }
  | .Last => return { g with last := true }
  | .On d => return { g with on := g.on ++ [d] }

/-- A position in the month, when `items` is one text of several words. -/
def position_text (items : List DayItem) : Option Str :=
  match items with
  | [.Text t] =>
    let t := ops.to_lowercase (trim t)
    if t.any is_whitespace then some t else none
  | _ => none

/-- `parse_days`. -/
def parse_days (value : DaysValue) (short_months : Str) : Except String ParsedDays :=
  let items := match value with
    | .List v => v
    | .One item => [item]
  match position_text ops items with
  | some t =>
    match parse_nth ops t with
    | some rule => finish ops (.Rule rule) short_months
    | none => .error "Use a position like \"first mon\" or \"last weekday\"."
  | none => do
    let g ← items.foldlM (gather_day ops) { weekdays := [], dates := [], last := false, on := [] }
    let kinds := ([!g.weekdays.isEmpty, !g.dates.isEmpty || g.last, !g.on.isEmpty].filter id).length
    if 1 < kinds then
      .error "Use weekdays, dates of the month or calendar dates — not a mix."
    else
      let parsed : ParsedDays :=
        if !g.on.isEmpty then .Rule (.On (ordered_set g.on))
        else if !g.dates.isEmpty || g.last then
          .Rule (.MonthDays (ordered_set g.dates) g.last false)
        else .Weekdays (ordered_set g.weekdays)
      finish ops parsed short_months

end

/-! ## Which days it means -/

variable (date : ℤ)

/-- `days_in_month`, of the month a date is in. -/
def days_in_month : ℕ :=
  (Gregorian.month_length (Gregorian.is_leap (Gregorian.year date)) (Gregorian.month date)).toNat

/-- `weekday_of`, from Monday. -/
def weekday_of : ℕ := Gregorian.days_from_monday date

/-- `date.with_day(day)`, for a day the month has. -/
def with_day (day : ℕ) : ℤ := date - Gregorian.day date + day

/-- `nth_matches`. -/
def nth_matches (nth : ℕ) (of : NthOf) : Bool :=
  let dim := days_in_month date
  let d := Gregorian.day date
  match of with
  | .Day => d == if nth = LAST then dim else nth
  | .Weekday w =>
    weekday_of date == w && if nth = LAST then dim < d + 7 else (d - 1) / 7 + 1 == nth
  | .Workday =>
    if 5 ≤ weekday_of date then false
    else
      let workdays := (List.range' 1 dim).filter fun day => weekday_of (with_day date day) < 5
      let pick := if nth = LAST then workdays.getLast? else workdays[nth - 1]?
      pick == some d

/-- `DateRule::matches`. -/
def DateRule.matches (self : DateRule) (date : ℤ) : Bool :=
  match self with
  | .MonthDays days last fill_short =>
    let dim := days_in_month date
    let d := Gregorian.day date
    days.contains d || (d == dim && (last || (fill_short && days.any fun x => dim < x)))
  | .Nth nth of => nth_matches date nth of
  | .On dates => dates.contains date

/-! ## The hours and days an interval job keeps to -/

/-- `IntervalLimits`: a daily window in minutes, both ends included, and weekdays. -/
structure IntervalLimits where
  window : Option (ℕ × ℕ)
  days : List ℕ

namespace IntervalLimits

variable (self : IntervalLimits)

def day_ok (date : ℤ) : Bool :=
  self.days.isEmpty || self.days.contains (weekday_of date)

variable (offset now : ℤ)

/-- The minute of the day the local clock shows. -/
def local_minute : ℕ := ((now + offset) % 86400 / 60).toNat

/-- `allows`. -/
def allows : Bool :=
  let minute := local_minute offset now
  self.day_ok (local_date offset now) &&
    match self.window with
    | none => true
    | some (start, stop) => start ≤ minute && minute ≤ stop

/-- `next_open`: the first moment at or after `now` a run may start. -/
def next_open : Option ℤ :=
  if self.allows offset now then some now
  else
    let today := local_date offset now
    let open_min := (self.window.map (·.1)).getD 0
    ((((List.range 8).map fun i : ℕ => today + (i : ℤ)).filter self.day_ok).filterMap fun d =>
      local_epoch offset d open_min).find? fun opens => now ≤ opens

end IntervalLimits

end Lpm.Jobs
