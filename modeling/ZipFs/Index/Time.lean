import ZipFs.Index.Basic
import Mathlib.Tactic.IntervalCases

/-!
# Timestamps

`to_unix` and `days_from_civil` of `src/index/build.rs`. The source counts in eras of
400 years that begin on the first of March, so that the leap day is the last day of a
year, and divides with a division that rounds towards zero.

The calendar these are compared with is the proleptic Gregorian one, stated by itself:
which years are leap years, how long the months are, and which day follows a day. It
has a year 0 and years before it.

The arithmetic is on `i64` in the source. A zip timestamp has a 16-bit year, so nothing
comes near the ends of that range, and the numbers here are integers.
-/

namespace ZipFs

/-! ## The source -/

/-- What is used of `rawzip::time::ZipDateTimeKind`. -/
structure ZipDateTime where
  year : Int
  month : Nat
  day : Nat
  hour : Nat
  minute : Nat
  second : Nat
  nanosecond : Nat
  deriving DecidableEq, Repr

/-- Days between the Unix epoch and a civil date. -/
def daysFromCivil (year : Int) (month day : Nat) : Int :=
  let month : Int := max month 1
  let day : Int := max day 1
  let year := if month ≤ 2 then year - 1 else year
  let era := (if year ≥ 0 then year else year - 399).tdiv 400
  let yearOfEra := year - era * 400
  let monthShifted := (month + 9).tmod 12
  let dayOfYear := (153 * monthShifted + 2).tdiv 5 + day - 1
  let dayOfEra := yearOfEra * 365 + yearOfEra.tdiv 4 - yearOfEra.tdiv 100 + dayOfYear
  era * 146097 + dayOfEra - 719468

/-- Converts a zip timestamp to seconds and nanoseconds since the Unix epoch. -/
def toUnix (dt : ZipDateTime) : Int × Nat :=
  let days := daysFromCivil dt.year dt.month dt.day
  let secs := days * 86400 + (dt.hour : Int) * 3600 + (dt.minute : Int) * 60 + (dt.second : Int)
  (secs, dt.nanosecond)

/-! ## The calendar -/

/-- Every fourth year, but of the centuries only every fourth. -/
def LeapYear (year : Int) : Prop := year % 4 = 0 ∧ (year % 100 ≠ 0 ∨ year % 400 = 0)

instance (year : Int) : Decidable (LeapYear year) := inferInstanceAs (Decidable (_ ∧ _))

def daysInMonth (year : Int) (month : Nat) : Nat :=
  if month = 2 then (if LeapYear year then 29 else 28)
  else if month = 4 ∨ month = 6 ∨ month = 9 ∨ month = 11 then 30
  else 31

/-- A date of the proleptic Gregorian calendar. -/
structure Date where
  year : Int
  month : Nat
  day : Nat
  month_pos : 1 ≤ month
  month_le : month ≤ 12
  day_pos : 1 ≤ day
  day_le : day ≤ daysInMonth year month

namespace Date

theorem one_le_daysInMonth (year : Int) (month : Nat) : 1 ≤ daysInMonth year month := by
  unfold daysInMonth
  split
  · split
    · omega
    · omega
  · split
    · omega
    · omega

/-- The following calendar day. -/
def next (d : Date) : Date :=
  if h : d.day < daysInMonth d.year d.month then
    ⟨d.year, d.month, d.day + 1, d.month_pos, d.month_le, by omega, h⟩
  else if h : d.month < 12 then
    ⟨d.year, d.month + 1, 1, by omega, h, by omega, one_le_daysInMonth _ _⟩
  else ⟨d.year + 1, 1, 1, by omega, by omega, by omega, one_le_daysInMonth _ _⟩

/-- Earlier in the calendar: by year, then month, then day. -/
def Before (a b : Date) : Prop :=
  a.year < b.year ∨ a.year = b.year ∧
    (a.month < b.month ∨ a.month = b.month ∧ a.day < b.day)

def days (d : Date) : Int := daysFromCivil d.year d.month d.day

end Date

/-- A date with a time of day. -/
structure DateTime where
  date : Date
  hour : Nat
  minute : Nat
  second : Nat
  hour_lt : hour < 24
  minute_lt : minute < 60
  second_lt : second < 60

namespace DateTime

/-- As rawzip hands it over. -/
def zip (t : DateTime) (nanosecond : Nat) : ZipDateTime :=
  ⟨t.date.year, t.date.month, t.date.day, t.hour, t.minute, t.second, nanosecond⟩

/-- Earlier: by date, then hour, then minute, then second. -/
def Before (a b : DateTime) : Prop :=
  a.date.Before b.date ∨ a.date = b.date ∧
    (a.hour < b.hour ∨ a.hour = b.hour ∧
      (a.minute < b.minute ∨ a.minute = b.minute ∧ a.second < b.second))

end DateTime

/-! ## The closed form -/

/-- The days before the first of a month within its year, which begins in March. -/
def marchDays (month : Nat) : Int := (153 * (((month : Int) + 9) % 12) + 2) / 5

/-- The days before the first of March of a year, up to a constant. -/
def yearDays (year : Int) : Int := year * 365 + year / 4 - year / 100 + year / 400

/-- The year that a month belongs to when years begin in March. -/
def marchYear (year : Int) (month : Nat) : Int := if month ≤ 2 then year - 1 else year

/-- The era of a year is found by rounding down, also before year 0. -/
theorem era_eq (year : Int) :
    (if year ≥ 0 then year else year - 399).tdiv 400 = year / 400 := by
  split
  · rw [Int.tdiv_eq_ediv_of_nonneg (by omega)]
  · rw [show year - 399 = -(399 - year) by omega, Int.neg_tdiv,
      Int.tdiv_eq_ediv_of_nonneg (by omega)]
    omega

/-- The leap years of an era and of all eras before it are the leap years before a year. -/
theorem yearDays_era (year : Int) :
    year / 400 * 146097 + ((year - year / 400 * 400) * 365 + (year - year / 400 * 400) / 4 -
      (year - year / 400 * 400) / 100) = yearDays year := by
  unfold yearDays
  omega

theorem daysFromCivil_eq {year : Int} {month day : Nat} (hm : 1 ≤ month) (hd : 1 ≤ day) :
    daysFromCivil year month day =
      yearDays (marchYear year month) + marchDays month + day - 719469 := by
  have hmonth : max (month : Int) 1 = month := by omega
  have hday : max (day : Int) 1 = day := by omega
  have hyear : (if (month : Int) ≤ 2 then year - 1 else year) = marchYear year month := by
    unfold marchYear
    split
    · rw [if_pos (by omega)]
    · rw [if_neg (by omega)]
  have hera : 0 ≤ marchYear year month - marchYear year month / 400 * 400 := by omega
  unfold daysFromCivil
  simp only [hmonth, hday, hyear, era_eq]
  rw [Int.tdiv_eq_ediv_of_nonneg hera, Int.tdiv_eq_ediv_of_nonneg hera,
    Int.tmod_eq_emod_of_nonneg (by omega), Int.tdiv_eq_ediv_of_nonneg (by omega)]
  have hsum := yearDays_era (marchYear year month)
  unfold marchDays
  omega

/-! ## Months and years -/

/-- The day before the first of a month. -/
def monthStart (year : Int) (month : Nat) : Int :=
  yearDays (marchYear year month) + marchDays month - 719469

theorem Date.days_eq (d : Date) : d.days = monthStart d.year d.month + d.day := by
  unfold Date.days monthStart
  rw [daysFromCivil_eq d.month_pos d.day_pos]
  omega

/-- The leap day is the last day of its year. -/
theorem yearDays_pred (year : Int) :
    yearDays year = yearDays (year - 1) + if LeapYear year then 366 else 365 := by
  unfold yearDays
  split
  · rename_i h
    obtain ⟨h4, h100⟩ := h
    omega
  · rename_i h
    unfold LeapYear at h
    omega

/-- Each month begins when the one before it is over. -/
theorem monthStart_succ (year : Int) {month : Nat} (h1 : 1 ≤ month) (h12 : month < 12) :
    monthStart year (month + 1) = monthStart year month + daysInMonth year month := by
  unfold monthStart
  by_cases h2 : month = 2
  · -- the year of the source begins here
    subst h2
    have hthis : marchYear year 3 = year := rfl
    have hlast : marchYear year 2 = year - 1 := rfl
    have hmarch : marchDays 3 = 0 := by decide
    have hfebruary : marchDays 2 = 337 := by decide
    have hleap := yearDays_pred year
    rw [hthis, hlast, hmarch, hfebruary]
    unfold daysInMonth
    rw [if_pos rfl]
    by_cases h : LeapYear year
    · rw [if_pos h] at hleap ⊢
      omega
    · rw [if_neg h] at hleap ⊢
      omega
  · have hyear : marchYear year (month + 1) = marchYear year month := by
      unfold marchYear
      split
      · rw [if_pos (by omega)]
      · rw [if_neg (by omega)]
    have hmonth : marchDays (month + 1) = marchDays month + daysInMonth year month := by
      unfold marchDays daysInMonth
      rw [if_neg h2]
      interval_cases month
      all_goals first | exact absurd rfl h2 | rfl
    rw [hyear, hmonth]
    omega

/-- Each year begins when the December before it is over. -/
theorem monthStart_year (year : Int) : monthStart (year + 1) 1 = monthStart year 12 + 31 := by
  unfold monthStart marchYear marchDays
  norm_num
  omega

theorem monthStart_le (year : Int) {m m' : Nat} (h1 : 1 ≤ m) (hle : m ≤ m') (h12 : m' ≤ 12) :
    monthStart year m ≤ monthStart year m' := by
  induction m', hle using Nat.le_induction with
  | base => exact Int.le_refl _
  | succ k hk ih =>
      have hstep := monthStart_succ year (show 1 ≤ k by omega) (by omega)
      have := ih (by omega)
      omega

/-- A month lies before all later ones of its year. -/
theorem monthStart_lt (year : Int) {m m' : Nat} (h1 : 1 ≤ m) (hlt : m < m') (h12 : m' ≤ 12) :
    monthStart year m + daysInMonth year m ≤ monthStart year m' := by
  rw [← monthStart_succ year h1 (by omega)]
  exact monthStart_le year (by omega) hlt h12

theorem yearStart_lt {y y' : Int} (h : y < y') : monthStart (y + 1) 1 ≤ monthStart y' 1 := by
  unfold monthStart marchYear marchDays yearDays
  norm_num
  omega

namespace Date

/-- A day lies in its month. -/
theorem days_bounds (d : Date) :
    monthStart d.year d.month < d.days ∧
      d.days ≤ monthStart d.year d.month + daysInMonth d.year d.month := by
  have h1 := d.day_pos
  have h2 := d.day_le
  rw [d.days_eq]
  omega

/-- A day lies in its year. -/
theorem days_year (d : Date) :
    monthStart d.year 1 < d.days ∧ d.days ≤ monthStart (d.year + 1) 1 := by
  obtain ⟨hlo, hhi⟩ := d.days_bounds
  have h1 := d.month_pos
  have h12 := d.month_le
  refine ⟨?_, ?_⟩
  · have := monthStart_le d.year (Nat.le_refl 1) h1 h12
    omega
  · rcases Nat.lt_or_ge d.month 12 with hlt | hge
    · have := monthStart_lt d.year h1 hlt (Nat.le_refl 12)
      rw [monthStart_year]
      omega
    · have h : d.month = 12 := by omega
      rw [h] at hhi
      rw [monthStart_year]
      exact hhi

theorem days_next (d : Date) : d.next.days = d.days + 1 := by
  have h1 := d.day_pos
  have h2 := d.day_le
  rw [Date.days_eq, Date.days_eq]
  unfold next
  split
  · dsimp only
    omega
  · split
    · rename_i hday hmonth
      have := monthStart_succ d.year d.month_pos hmonth
      dsimp only
      omega
    · rename_i hday hmonth
      have h12 : d.month = 12 := by
        have := d.month_le
        omega
      have h31 : daysInMonth d.year 12 = 31 := rfl
      have := monthStart_year d.year
      rw [h12] at hday h2 ⊢
      dsimp only
      omega

theorem days_lt {a b : Date} (h : a.Before b) : a.days < b.days := by
  rcases h with hy | ⟨hy, hm | ⟨hm, hd⟩⟩
  · have h1 := a.days_year
    have h2 := b.days_year
    have := yearStart_lt hy
    omega
  · have h1 := a.days_bounds
    have h2 := b.days_bounds
    have := monthStart_lt b.year a.month_pos hm b.month_le
    rw [hy] at h1
    omega
  · rw [a.days_eq, b.days_eq, hy, hm]
    omega

/-- Two dates are the same, or one of them is earlier. -/
theorem before_trichotomy (a b : Date) : a.Before b ∨ a = b ∨ b.Before a := by
  rcases a with ⟨y, m, d, _, _, _, _⟩
  rcases b with ⟨y', m', d', _, _, _, _⟩
  unfold Before
  simp only [Date.mk.injEq]
  omega

theorem days_injective {a b : Date} (h : a.days = b.days) : a = b := by
  rcases a.before_trichotomy b with hlt | heq | hlt
  · have := days_lt hlt
    omega
  · exact heq
  · have := days_lt hlt
    omega

end Date

/-- The seconds of a time of day. -/
theorem toUnix_fst (t : DateTime) (nanosecond : Nat) :
    (toUnix (t.zip nanosecond)).1 =
      t.date.days * 86400 + t.hour * 3600 + t.minute * 60 + t.second :=
  rfl

/--
**Timestamps follow the calendar.** The day after a date is one day later, whatever
month, year, century or era ends in between; the epoch is day 0; so later dates have
larger numbers and different dates different ones, and the seconds of two valid
date-times are ordered as the date-times are.
-/
theorem timestamps_follow_calendar :
    (∀ d : Date, daysFromCivil d.next.year d.next.month d.next.day =
      daysFromCivil d.year d.month d.day + 1) ∧
    daysFromCivil 1970 1 1 = 0 ∧
    (∀ a b : Date, a.Before b →
      daysFromCivil a.year a.month a.day < daysFromCivil b.year b.month b.day) ∧
    (∀ a b : Date, daysFromCivil a.year a.month a.day = daysFromCivil b.year b.month b.day →
      a = b) ∧
    (∀ (a b : DateTime) (n n' : Nat), a.Before b →
      (toUnix (a.zip n)).1 < (toUnix (b.zip n')).1) := by
  refine ⟨Date.days_next, by decide, fun a b => Date.days_lt, fun a b => Date.days_injective, ?_⟩
  intro a b n n' h
  have ha := a.hour_lt
  have hm := a.minute_lt
  have hs := a.second_lt
  rw [toUnix_fst, toUnix_fst]
  rcases h with hd | ⟨hd, ht⟩
  · have := Date.days_lt hd
    omega
  · rw [hd]
    omega

/-- The leap day of a century that has one. -/
theorem timestamps_follow_calendar_leap_day :
    daysFromCivil 2000 2 29 = daysFromCivil 2000 2 28 + 1 ∧
      daysFromCivil (-1) 12 31 + 1 = daysFromCivil 0 1 1 :=
  ⟨timestamps_follow_calendar.1 ⟨2000, 2, 28, by decide, by decide, by decide, by decide⟩,
    (timestamps_follow_calendar.1 ⟨-1, 12, 31, by decide, by decide, by decide, by decide⟩).symm⟩

end ZipFs
