/-
The cron lines of `jobcron.rs`: reading one, and looking for the next and the last
run of it.

A field is a set of numbers as bits of a `u64`. A step is a `u32` added with wrap
in a release build, so a step just below `2^32` walks backwards; the loop over a
range is written with fuel, and `set_bits_enough` says that it never runs out.
-/
import Lpm.Jobs.Calendar

set_option autoImplicit false

open RustText DaySearch

namespace Lpm.Jobs.Cron

/-! ## Reading a line -/

/-- How many days a search looks at. -/
def SEARCH_DAYS : ℕ := 366 * 8 + 2

def MONTH_NAMES : List String :=
  ["jan", "feb", "mar", "apr", "may", "jun", "jul", "aug", "sep", "oct", "nov", "dec"]

def DAY_NAMES : List String := ["sun", "mon", "tue", "wed", "thu", "fri", "sat"]

def MACROS : List (String × String) :=
  [("@yearly", "0 0 1 1 *"), ("@annually", "0 0 1 1 *"), ("@monthly", "0 0 1 * *"),
    ("@weekly", "0 0 * * 0"), ("@daily", "0 0 * * *"), ("@midnight", "0 0 * * *"),
    ("@hourly", "0 * * * *")]

structure Field where
  name : String
  min : ℕ
  max : ℕ
  names : List String
  names_from : ℕ

def MINUTE : Field := { name := "minute", min := 0, max := 59, names := [], names_from := 0 }

def HOUR : Field := { name := "hour", min := 0, max := 23, names := [], names_from := 0 }

def DOM : Field := { name := "day of month", min := 1, max := 31, names := [], names_from := 0 }

def MONTH : Field :=
  { name := "month", min := 1, max := 12, names := MONTH_NAMES, names_from := 1 }

/-- 7 is Sunday too; `parse` folds it onto 0. -/
def DOW : Field :=
  { name := "day of week", min := 0, max := 7, names := DAY_NAMES, names_from := 0 }

/-- `has`. -/
def has (bits : BitVec 64) (n : ℕ) : Bool := bits.getLsbD n

structure CronSpec where
  source : Str
  minutes : BitVec 64
  hours : BitVec 64
  dom : BitVec 64
  months : BitVec 64
  dow : BitVec 64
  /-- A day field that starts with a star does not restrict the day on its own. -/
  dom_any : Bool
  dow_any : Bool

/-- `value`: one number of a field, or the name of one. -/
def value (text : Str) (f : Field) : Except String ℕ :=
  let shown := String.ofList text
  let n := match parse_u32 text with
    | some n => some n
    | none => (f.names.findIdx? fun n => eq_ignore_ascii_case n.toList text).map (· + f.names_from)
  match n with
  | none => .error s!"“{shown}” isn't a valid {f.name}."
  | some n =>
    if n < f.min || f.max < n then
      .error s!"The {f.name} field takes {f.min}–{f.max}, not {n}."
    else .ok n

/-- `while v <= hi { bits |= 1 << v; v += step }`. -/
def set_bits (hi step : ℕ) : (fuel v : ℕ) → BitVec 64 → BitVec 64
  | 0, _, bits => bits
  | fuel + 1, v, bits =>
    if v ≤ hi then set_bits hi step fuel ((v + step) % 2 ^ 32) (bits ||| BitVec.twoPow 64 v)
    else bits

/-- The step of an item and what stands before it. -/
def item_step (item : Str) (f : Field) : Except String (Str × Option ℕ) :=
  let shown := String.ofList item
  match split_once '/' item with
  | some (range, step) =>
    match (parse_u32 step).filter (0 < ·) with
    | some step => .ok (range, some step)
    | none => .error s!"“{shown}” needs a whole step above 0 in the {f.name} field."
  | none => .ok (item, none)

/-- The ends of an item's range. -/
def item_range (range : Str) (step : Option ℕ) (f : Field) : Except String (ℕ × ℕ) :=
  if range = ['*'] then .ok (f.min, f.max)
  else
    match split_once '-' range with
    | some (a, b) => do
      let lo ← value a f
      let hi ← value b f
      return (lo, hi)
    | none => do
      let v ← value range f
      return (v, if step.isSome then f.max else v)

/-- One item of a field's list, its bits added to those before it. -/
def item_bits (f : Field) (bits : BitVec 64) (item : Str) : Except String (BitVec 64) := do
  let (range, step) ← item_step item f
  let (lo, hi) ← item_range range step f
  let shown := String.ofList range
  if hi < lo then .error s!"“{shown}” runs backwards in the {f.name} field."
  else return set_bits hi (step.getD 1) (hi + 1) lo bits

/-- `field`. -/
def field (text : Str) (f : Field) : Except String (BitVec 64) :=
  (text.splitOn ',').foldlM (item_bits f) 0

/-- `parse` folds a 7 in the weekday field onto Sunday. -/
def fold_sunday (days : BitVec 64) : BitVec 64 :=
  if has days 7 then (days ||| 1) &&& ~~~(BitVec.twoPow 64 7) else days

namespace CronSpec

/-- `has_a_day`: only a restricted day of month left to decide alone can miss. -/
def has_a_day (s : CronSpec) : Bool :=
  let LONGEST : List ℕ := [31, 29, 31, 30, 31, 30, 31, 31, 30, 31, 30, 31]
  if !s.dow_any then true
  else
    ((List.range' 1 12).filter (has s.months)).any fun m =>
      (List.range' 1 (LONGEST.getD (m - 1) 0)).any (has s.dom)

/-- `min_gap_minutes`: the shortest wait between two runs. -/
def min_gap_minutes (s : CronSpec) : ℕ :=
  let minutes := (List.range 60).filter (has s.minutes)
  let gap := (minutes.zipWith (fun a b => b - a) minutes.tail).min?.getD (2 ^ 32 - 1)
  let back_to_back := (List.range 24).any fun h => has s.hours h && has s.hours ((h + 1) % 24)
  match back_to_back, minutes.head?, minutes.getLast? with
  | true, some first, some last => min gap (60 - last + first)
  | _, _, _ => gap

end CronSpec

/-- `parse`: a line, refused when it is malformed, never runs or runs too often. -/
def parse (expr : Str) (min_gap_secs : ℕ) : Except String CronSpec := do
  let source := join_words (split_whitespace expr)
  let lower := to_ascii_lowercase source
  let line := ((MACROS.find? fun m => m.1.toList == lower).map fun m => m.2.toList).getD lower
  let shown := String.ofList source
  if line.head? = some '@' then .error s!"“{shown}” isn't a schedule lpm knows."
  else
    match line.splitOn ' ' with
    | [minute, hour, dom, month, dow] =>
      let days ← field dow DOW
      let days := fold_sunday days
      let minutes ← field minute MINUTE
      let hours ← field hour HOUR
      let dom_bits ← field dom DOM
      let months ← field month MONTH
      let spec : CronSpec :=
        { source, minutes, hours, dom := dom_bits, months, dow := days,
          dom_any := dom.head? = some '*', dow_any := dow.head? = some '*' }
      if !spec.has_a_day then .error "That cron line never runs — no month has that date."
      else if spec.min_gap_minutes * 60 < min_gap_secs then
        let every := min_gap_secs / 60
        .error s!"A cron job can run at most every {every} minutes."
      else return spec
    | _ =>
      .error "A cron line has five fields: minute, hour, day of month, month and day of week."

/-! ## Looking for a run -/

namespace CronSpec

variable (s : CronSpec)

/-- `day_matches`: the two day fields are both needed when one of them starts with a
star, and either is enough when none does. -/
def day_matches (d : ℤ) : Bool :=
  if !has s.months (Gregorian.month d) then false
  else
    let dom := has s.dom (Gregorian.day d)
    let dow := has s.dow (Gregorian.days_from_sunday d)
    if s.dom_any || s.dow_any then dom && dow else dom || dow

/-- The minutes of a day at which the line runs. -/
def day_minutes : List ℕ :=
  ((List.range 24).filter (has s.hours)).flatMap fun h =>
    ((List.range 60).filter (has s.minutes)).map fun m => h * 60 + m

/-- `day_points`. -/
def day_points (offset d : ℤ) : List ℤ := epochs offset d s.day_minutes

variable (offset now : ℤ)

/-- `days_from`: today and the days after it, or before it, that match. -/
def days_from (forward : Bool) : List ℤ :=
  let today := local_date offset now
  ((List.range SEARCH_DAYS).map fun i : ℕ => if forward then today + (i : ℤ) else today - (i : ℤ)).filter
    s.day_matches

/-- `next_after`: the first run strictly after `now`. -/
def next_after : Option ℤ :=
  (s.days_from offset now true).findSome? fun d => (s.day_points offset d).find? fun p => now < p

/-- `last_at_or_before`: the latest run at or before `now`. -/
def last_at_or_before : Option ℤ :=
  (s.days_from offset now false).findSome? fun d =>
    (s.day_points offset d).reverse.find? fun p => p ≤ now

end CronSpec

end Lpm.Jobs.Cron
