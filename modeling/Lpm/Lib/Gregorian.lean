/-
The proleptic Gregorian calendar over day numbers, day 1 being the first of
January of the year 1, as `NaiveDate::num_days_from_ce` counts them.

A date is its day number, so the next day is one more and a weekday is a
remainder. What needs an argument is the year a day falls in: `year` guesses it
from the mean length of a year, the guess is off by one at most, and
`year_eq_iff` says that the answer is the year whose bounds hold the day.
The calendar has no first and no last day.
-/
import Mathlib

set_option autoImplicit false

namespace Gregorian

/-! ## Years -/

/-- The first of January of year `y`. -/
def year_start (y : ℤ) : ℤ := 365 * (y - 1) + (y - 1) / 4 - (y - 1) / 100 + (y - 1) / 400 + 1

def is_leap (y : ℤ) : Bool := y % 4 = 0 && (y % 100 != 0 || y % 400 = 0)

/-- The year day `d` is in. -/
def year (d : ℤ) : ℤ :=
  let y := 400 * (d - 1) / 146097 + 1
  if d < year_start y then y - 1 else if year_start (y + 1) ≤ d then y + 1 else y

theorem year_start_succ (y : ℤ) :
    year_start (y + 1) = year_start y + (if is_leap y then 366 else 365) := by
  unfold year_start is_leap
  by_cases h4 : y % 4 = 0 <;> by_cases h100 : y % 100 = 0 <;> by_cases h400 : y % 400 = 0 <;>
    simp [h4, h100, h400] <;> omega

/-- Every 400 years the calendar repeats, weekdays included. -/
theorem year_start_cycle (y k : ℤ) : year_start (y + 400 * k) = year_start y + 146097 * k := by
  unfold year_start
  omega

theorem is_leap_cycle (y k : ℤ) : is_leap (y + 400 * k) = is_leap y := by
  unfold is_leap
  rw [show (y + 400 * k) % 4 = y % 4 by omega, show (y + 400 * k) % 100 = y % 100 by omega,
    show (y + 400 * k) % 400 = y % 400 by omega]

theorem year_start_mono {y z : ℤ} (h : y ≤ z) : year_start y ≤ year_start z := by
  unfold year_start
  omega

variable (d : ℤ)

theorem year_bounds : year_start (year d) ≤ d ∧ d < year_start (year d + 1) := by
  unfold year
  dsimp only
  -- the mean year is close enough that the guess is off by one at most
  have hlow : year_start (400 * (d - 1) / 146097 + 1 - 1) ≤ d := by
    unfold year_start
    omega
  have hhigh : d < year_start (400 * (d - 1) / 146097 + 1 + 1 + 1) := by
    unfold year_start
    omega
  split_ifs with hbefore hafter
  · exact ⟨hlow, by rwa [Int.sub_add_cancel]⟩
  · exact ⟨hafter, hhigh⟩
  · exact ⟨by omega, by omega⟩

theorem year_eq_iff {d y : ℤ} : year d = y ↔ year_start y ≤ d ∧ d < year_start (y + 1) := by
  constructor
  · rintro rfl
    exact year_bounds d
  · rintro ⟨hlow, hhigh⟩
    obtain ⟨hlow', hhigh'⟩ := year_bounds d
    rcases Int.lt_trichotomy (year d) y with hlt | heq | hgt
    · have := year_start_mono (show year d + 1 ≤ y by omega)
      omega
    · exact heq
    · have := year_start_mono (show y + 1 ≤ year d by omega)
      omega

/-! ## Months and days -/

/-- The days of the year before month `m` (1 to 12; 13 is the end of the year). -/
def days_before (leap : Bool) (m : ℕ) : ℤ :=
  let l : ℤ := if leap then 1 else 0
  match m with
  | 0 | 1 => 0
  | 2 => 31
  | 3 => 59 + l
  | 4 => 90 + l
  | 5 => 120 + l
  | 6 => 151 + l
  | 7 => 181 + l
  | 8 => 212 + l
  | 9 => 243 + l
  | 10 => 273 + l
  | 11 => 304 + l
  | 12 => 334 + l
  | _ => 365 + l

/-- The length of month `m`. -/
def month_length (leap : Bool) (m : ℕ) : ℤ := days_before leap (m + 1) - days_before leap m

/-- The first of `tries` months from `m` on, or the one after them, that holds the
day `n` days into a year. -/
def month_from (leap : Bool) (n : ℤ) : (tries m : ℕ) → ℕ
  | 0, m => m
  | tries + 1, m => if n < days_before leap (m + 1) then m else month_from leap n tries (m + 1)

/-- The month that holds the day `n` days into a year. -/
def month_of_ordinal (leap : Bool) (n : ℤ) : ℕ := month_from leap n 11 1

variable (d : ℤ)

/-- `Datelike::month`, from 1. -/
def month : ℕ := month_of_ordinal (is_leap (year d)) (d - year_start (year d))

/-- `Datelike::day`, from 1. -/
def day : ℕ :=
  (d - year_start (year d) - days_before (is_leap (year d)) (month d) + 1).toNat

/-- `Weekday::num_days_from_monday`. -/
def days_from_monday : ℕ := ((d - 1) % 7).toNat

/-- `Weekday::num_days_from_sunday`. -/
def days_from_sunday : ℕ := (d % 7).toNat

/-- The day number of a date that is written out. -/
def of_ymd (y : ℤ) (m d : ℕ) : ℤ := year_start y + days_before (is_leap y) m + d - 1

theorem days_before_mono (leap : Bool) : Monotone (days_before leap) := by
  refine monotone_nat_of_le_succ fun m => ?_
  match m with
  | 0 | 1 | 2 | 3 | 4 | 5 | 6 | 7 | 8 | 9 | 10 | 11 | 12 => cases leap <;> decide
  | m + 13 => exact le_refl _

theorem month_from_bounds {leap : Bool} {n : ℤ} (tries m : ℕ) (hlow : days_before leap m ≤ n)
    (hhigh : n < days_before leap (m + tries + 1)) :
    let r := month_from leap n tries m
    (m ≤ r ∧ r ≤ m + tries) ∧ days_before leap r ≤ n ∧ n < days_before leap (r + 1) := by
  induction tries generalizing m with
  | zero => exact ⟨⟨le_refl m, le_refl m⟩, hlow, hhigh⟩
  | succ tries ih =>
    rw [month_from]
    split_ifs with hin
    · exact ⟨⟨le_refl m, by omega⟩, hlow, hin⟩
    · obtain ⟨⟨hm, hr⟩, hbounds⟩ := ih (m + 1) (not_lt.mp hin) (by
        rwa [show m + 1 + tries + 1 = m + (tries + 1) + 1 by omega])
      exact ⟨⟨by omega, by omega⟩, hbounds⟩

/-- Two months cannot hold one day. -/
theorem month_unique {leap : Bool} {n : ℤ} {m m' : ℕ} (h : days_before leap m ≤ n)
    (h' : n < days_before leap (m' + 1)) : m ≤ m' := by
  by_contra hlt
  have := days_before_mono leap (show m' + 1 ≤ m by omega)
  omega

theorem days_before_thirteen (leap : Bool) :
    days_before leap 13 = if leap then 366 else 365 := by
  cases leap <;> rfl

theorem days_before_one (leap : Bool) : days_before leap 1 = 0 := rfl

/-- The month of a day and the bounds that hold it. -/
theorem month_bounds :
    (1 ≤ month d ∧ month d ≤ 12) ∧
      days_before (is_leap (year d)) (month d) ≤ d - year_start (year d) ∧
      d - year_start (year d) < days_before (is_leap (year d)) (month d + 1) := by
  obtain ⟨hlow, hhigh⟩ := year_bounds d
  rw [year_start_succ, ← days_before_thirteen] at hhigh
  exact month_from_bounds 11 1 (by rw [days_before_one]; omega) (by
    show d - year_start (year d) < days_before _ 13
    omega)

theorem month_length_bounds (leap : Bool) {m : ℕ} (hm : 1 ≤ m ∧ m ≤ 12) :
    28 ≤ month_length leap m ∧ month_length leap m ≤ 31 := by
  obtain ⟨h1, h12⟩ := hm
  match m with
  | 1 | 2 | 3 | 4 | 5 | 6 | 7 | 8 | 9 | 10 | 11 | 12 => cases leap <;> decide

theorem day_bounds :
    1 ≤ day d ∧ (day d : ℤ) ≤ month_length (is_leap (year d)) (month d) := by
  obtain ⟨-, hlow, hhigh⟩ := month_bounds d
  unfold day month_length
  omega

/-- A day is the date it reads as. -/
theorem of_ymd_eq : of_ymd (year d) (month d) (day d) = d := by
  obtain ⟨-, hlow, -⟩ := month_bounds d
  unfold of_ymd day
  omega

/-- A date that is written out is read back. -/
theorem of_ymd_read {y : ℤ} {m d : ℕ} (hm : 1 ≤ m ∧ m ≤ 12)
    (hd : 1 ≤ d ∧ (d : ℤ) ≤ month_length (is_leap y) m) :
    year (of_ymd y m d) = y ∧ month (of_ymd y m d) = m ∧ day (of_ymd y m d) = d := by
  unfold month_length at hd
  have hlow : days_before (is_leap y) 1 ≤ days_before (is_leap y) m := days_before_mono _ hm.1
  have hhigh : days_before (is_leap y) (m + 1) ≤ days_before (is_leap y) 13 :=
    days_before_mono _ (by omega)
  rw [days_before_one] at hlow
  have hyear : year (of_ymd y m d) = y := by
    rw [year_eq_iff, year_start_succ, ← days_before_thirteen, of_ymd]
    omega
  have hmonth : month (of_ymd y m d) = m := by
    obtain ⟨-, hlow', hhigh'⟩ := month_bounds (of_ymd y m d)
    rw [hyear] at hlow' hhigh'
    have hofs : of_ymd y m d - year_start y = days_before (is_leap y) m + d - 1 := by
      unfold of_ymd
      omega
    exact le_antisymm (month_unique hlow' (by omega)) (month_unique (by omega) hhigh')
  refine ⟨hyear, hmonth, ?_⟩
  rw [day, hmonth, hyear, of_ymd]
  omega

/-! ## From one month to the next -/

/-- The length of the month a day is in. -/
def month_days : ℤ := month_length (is_leap (year d)) (month d)

theorem month_days_bounds : 28 ≤ month_days d ∧ month_days d ≤ 31 :=
  month_length_bounds _ (month_bounds d).1

/-- The days of a month are counted from its start. -/
theorem same_month {k : ℕ} (hk : 1 ≤ k) (hlen : (k : ℤ) ≤ month_days d) :
    day (d - day d + k) = k ∧ month_days (d - day d + k) = month_days d := by
  have hd := of_ymd_eq d
  have hx : of_ymd (year d) (month d) k = d - day d + k := by
    unfold of_ymd at hd ⊢
    omega
  obtain ⟨hyear, hmonth, hday⟩ := of_ymd_read (month_bounds d).1 ⟨hk, hlen⟩
  rw [hx] at hyear hmonth hday
  exact ⟨hday, by rw [month_days, hyear, hmonth]; rfl⟩

/-- So are those of the next month; no two months in a row are both short. -/
theorem next_month : ∃ len : ℤ, (28 ≤ len ∧ len ≤ 31) ∧ (month_days d = 31 ∨ len = 31) ∧
    ∀ k : ℕ, 1 ≤ k → (k : ℤ) ≤ len →
      day (d - day d + month_days d + k) = k ∧ month_days (d - day d + month_days d + k) = len := by
  have hd := of_ymd_eq d
  obtain ⟨hmonth, -⟩ := month_bounds d
  obtain ⟨y, m, hm, hnext, hlong⟩ : ∃ y m, (1 ≤ m ∧ m ≤ 12) ∧
      (year_start y + days_before (is_leap y) m =
        year_start (year d) + days_before (is_leap (year d)) (month d + 1)) ∧
      (month_days d = 31 ∨ month_length (is_leap y) m = 31) := by
    by_cases hdec : month d = 12
    · refine ⟨year d + 1, 1, by omega, ?_, Or.inr (by cases is_leap (year d + 1) <;> rfl)⟩
      rw [hdec, days_before_one, days_before_thirteen, year_start_succ]
      omega
    · refine ⟨year d, month d + 1, by omega, rfl, ?_⟩
      unfold month_days
      generalize month d = m at hmonth hdec
      obtain ⟨h1, h12⟩ := hmonth
      match m with
      | 1 | 2 | 3 | 4 | 5 | 6 | 7 | 8 | 9 | 10 | 11 => cases is_leap (year d) <;> decide
      | 12 => exact absurd rfl hdec
  refine ⟨month_length (is_leap y) m, month_length_bounds _ hm, hlong, ?_⟩
  intro k hk hlen
  have hx : of_ymd y m k = d - day d + month_days d + k := by
    unfold month_days month_length
    unfold of_ymd at hd ⊢
    omega
  obtain ⟨hyear, hmonth', hday⟩ := of_ymd_read hm ⟨hk, hlen⟩
  rw [hx] at hyear hmonth' hday
  exact ⟨hday, by rw [month_days, hyear, hmonth']⟩

/-- A property that some day of every month has holds of a day in the next 61. -/
theorem month_soon {P : ℤ → Prop}
    (h : ∀ d, ∃ k : ℕ, 1 ≤ k ∧ (k : ℤ) ≤ month_days d ∧ P (d - day d + k)) (d : ℤ) :
    ∃ x, d < x ∧ x < d + 62 ∧ P x := by
  obtain ⟨len, hlen, -, hread⟩ := next_month d
  obtain ⟨hday, hlast⟩ := day_bounds d
  obtain ⟨hfirst, hdays⟩ := hread 1 le_rfl (by omega)
  rw [Int.natCast_one] at hfirst hdays
  obtain ⟨k, hk, hle, hp⟩ := h (d - day d + month_days d + 1)
  rw [hfirst] at hp
  rw [hdays] at hle
  have hbounds := month_days_bounds d
  refine ⟨_, ?_, ?_, hp⟩
  · change (day d : ℤ) ≤ month_days d at hlast
    omega
  · omega

/-- Every date of the month comes round in the next 61 days. -/
theorem date_soon {k : ℕ} (hk : 1 ≤ k) (hk31 : k ≤ 31) :
    ∃ x, d < x ∧ x < d + 62 ∧ day x = k := by
  obtain ⟨len, hlen, hlong, hread⟩ := next_month d
  obtain ⟨hday, hlast⟩ := day_bounds d
  change (day d : ℤ) ≤ month_days d at hlast
  have hbounds := month_days_bounds d
  by_cases hnext : (k : ℤ) ≤ len
  · exact ⟨_, by omega, by omega, (hread k hk hnext).1⟩
  -- the next month is short, so this one and the one after it are long
  have hlong : month_days d = 31 := by omega
  by_cases hlater : day d < k
  · exact ⟨_, by omega, by omega, (same_month d hk (by omega)).1⟩
  obtain ⟨hfirst, hdays⟩ := hread 1 le_rfl (by omega)
  rw [Int.natCast_one] at hfirst hdays
  obtain ⟨len', hlen', hlong', hread'⟩ := next_month (d - day d + month_days d + 1)
  rw [hfirst, hdays] at hread'
  rw [hdays] at hlong'
  exact ⟨_, by omega, by omega, (hread' k hk (by omega)).1⟩

/-! ## Dates that come round -/

/-- A date of the year that a leap year has falls on each weekday, before any day
and after it. The leap years of a cycle that follow each other at four years start
five weekdays apart, so seven of them start on all seven. -/
theorem exists_date {m d : ℕ} (hm : 1 ≤ m ∧ m ≤ 12)
    (hd : 1 ≤ d ∧ (d : ℤ) ≤ month_length true m) (w : ℕ) (hw : w < 7) (n : ℤ) :
    ∃ x, n ≤ x ∧ x < n + 2 * 146097 ∧ month x = m ∧ day x = d ∧ days_from_sunday x = w := by
  obtain ⟨ofs, hofs⟩ : ∃ ofs, ofs = days_before true m + d - 1 := ⟨_, rfl⟩
  obtain ⟨j, hj⟩ : ∃ j, j = (3 * ((w : ℤ) - ofs - year_start 4)) % 7 := ⟨_, rfl⟩
  obtain ⟨k, hk⟩ : ∃ k, k = n / 146097 + 1 := ⟨_, rfl⟩
  have hj7 : 0 ≤ j ∧ j < 7 := by omega
  have hleap : is_leap (4 + 4 * j + 400 * k) = true := by
    rw [is_leap_cycle, is_leap]
    have h4 : (4 + 4 * j) % 4 = 0 := by omega
    have h100 : (4 + 4 * j) % 100 ≠ 0 := by omega
    simp [h4, h100]
  have hstart : year_start (4 + 4 * j + 400 * k) = year_start 4 + 1461 * j + 146097 * k := by
    rw [year_start_cycle]
    clear hj
    unfold year_start
    omega
  have hx : of_ymd (4 + 4 * j + 400 * k) m d = year_start 4 + 1461 * j + 146097 * k + ofs := by
    rw [of_ymd, hleap, hstart, hofs]
    omega
  have hofs366 : 0 ≤ ofs ∧ ofs < 366 := by
    have hlow : days_before true 1 ≤ days_before true m := days_before_mono _ hm.1
    have hhigh : days_before true (m + 1) ≤ days_before true 13 := days_before_mono _ (by omega)
    rw [days_before_one] at hlow
    rw [days_before_thirteen, if_pos rfl] at hhigh
    unfold month_length at hd
    omega
  have h4 : year_start 4 = 1096 := rfl
  obtain ⟨-, hmonth, hday⟩ := of_ymd_read (y := 4 + 4 * j + 400 * k) hm (by rw [hleap]; exact hd)
  refine ⟨of_ymd (4 + 4 * j + 400 * k) m d, ?_, ?_, hmonth, hday, ?_⟩
  · omega
  · omega
  · rw [days_from_sunday, hx]
    omega

end Gregorian
