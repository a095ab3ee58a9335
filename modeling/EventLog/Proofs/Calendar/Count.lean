import EventLog.Calendar
import Mathlib.Tactic.IntervalCases

set_option autoImplicit false

/-! # Counting days

What a date means is said by counting: whole years from 1970 on or back, each with its leap day if
it has one, then the whole months of the year, then the days of the month (`DateTime.dayNumber`).
`DateTime.ofDay` computes in eras of 400 years that begin on the first of March; the date that it
gives is one of the calendar and its number is the one it was computed from
(`DateTime.dayNumber_ofDay`), and so it is for the seconds of a timestamp
(`DateTime.seconds_ofSeconds`).
-/

namespace EventLog

namespace DateTime

/-! ## The calendar -/

/-- Every fourth year is a leap year, but of the full centuries only every fourth. -/
def IsLeap (year : Int) : Prop := year % 4 = 0 ∧ (year % 100 ≠ 0 ∨ year % 400 = 0)

instance (year : Int) : Decidable (IsLeap year) :=
  inferInstanceAs (Decidable (year % 4 = 0 ∧ (year % 100 ≠ 0 ∨ year % 400 = 0)))

def daysInYear (year : Int) : Nat := if IsLeap year then 366 else 365

def daysInMonth (year : Int) : Nat → Nat
  | 2 => if IsLeap year then 29 else 28
  | 4 | 6 | 9 | 11 => 30
  | _ => 31

/-- The number of days of `count` years, the first of which is `year`. -/
def daysOfYears (year : Int) : Nat → Nat
  | 0 => 0
  | count + 1 => daysOfYears year count + daysInYear (year + count)

/-- The number of days of the first `count` months of a year. -/
def daysOfMonths (year : Int) : Nat → Nat
  | 0 => 0
  | count + 1 => daysOfMonths year count + daysInMonth year (count + 1)

/-- The number of days from the start of 1970 to the start of a year, negative for those before. -/
def yearStart (year : Int) : Int :=
  if 1970 ≤ year then daysOfYears 1970 (year - 1970).toNat
  else -daysOfYears year (1970 - year).toNat

/-- The number of days from 1970-01-01 to a date, counted by years, months and days. -/
def dayNumber (year : Int) (month day : Nat) : Int :=
  yearStart year + daysOfMonths year (month - 1) + (day - 1)

/-- The number of seconds from the start of 1970 to a date and time of day. -/
def seconds (t : DateTime) : Int :=
  dayNumber t.year t.month t.day * 86400 + t.hour * 3600 + t.minute * 60 + t.second

/-- The day of a month is one that the calendar has. -/
structure ValidDay (year : Int) (month day : Nat) : Prop where
  one_le_month : 1 ≤ month
  month_le : month ≤ 12
  one_le_day : 1 ≤ day
  day_le : day ≤ daysInMonth year month

/-- A date of the calendar with a time of day. -/
structure Valid (t : DateTime) : Prop where
  validDay : ValidDay t.year t.month t.day
  hour_lt : t.hour < 24
  minute_lt : t.minute < 60
  second_lt : t.second < 60

/-! ## Years -/

/-- The first of March of a year, counted in days from that of year 0. -/
def marchDay (year : Int) : Int := 365 * year + year / 4 - year / 100 + year / 400

/-- Between the first days of March before and in a year lies its leap day. -/
theorem daysInYear_eq (year : Int) :
    (daysInYear year : Int) = marchDay year - marchDay (year - 1) := by
  unfold marchDay
  by_cases h : IsLeap year
  · rw [daysInYear, if_pos h]
    unfold IsLeap at h
    omega
  · rw [daysInYear, if_neg h]
    unfold IsLeap at h
    omega

theorem daysOfYears_eq (year : Int) (count : Nat) :
    (daysOfYears year count : Int) = marchDay (year + count - 1) - marchDay (year - 1) := by
  induction count with
  | zero => simp [daysOfYears]
  | succ count ih =>
      have hnext : year + ((count + 1 : Nat) : Int) - 1 = year + count := by omega
      rw [daysOfYears, Int.natCast_add, ih, daysInYear_eq, hnext]
      omega

/-- A year starts 306 days after the first of March of the year before. -/
theorem yearStart_eq (year : Int) : yearStart year + epochDay = marchDay (year - 1) + 306 := by
  have hepoch : marchDay (1970 - 1) + 306 = epochDay := by decide
  unfold yearStart
  by_cases h : 1970 ≤ year
  · have hyear : 1970 + ((year - 1970).toNat : Int) - 1 = year - 1 := by omega
    rw [if_pos h, daysOfYears_eq, hyear]
    omega
  · have hyear : year + ((1970 - year).toNat : Int) - 1 = 1970 - 1 := by omega
    rw [if_neg h, daysOfYears_eq, hyear]
    omega

/-- A year is followed by the next one. -/
theorem yearStart_succ (year : Int) : yearStart (year + 1) = yearStart year + daysInYear year := by
  have hthis := yearStart_eq year
  have hnext := yearStart_eq (year + 1)
  have hdays := daysInYear_eq year
  rw [Int.add_sub_cancel] at hnext
  omega

/-! ## Days from the first of March on -/

/-- The date of a day of the year that begins on the first of March of `year`; the first day has
number 0. -/
def ofMarch (year : Int) (day : Nat) : Int × Nat × Nat :=
  let fromMarch := (5 * day + 2) / 153
  let month := if fromMarch < 10 then fromMarch + 3 else fromMarch - 9
  (if month ≤ 2 then year + 1 else year, month, day - (153 * fromMarch + 2) / 5 + 1)

/-- The months from March on, as far as they lie in the same year, and those of the year after. -/
theorem daysOfMonths_eq (year : Int) {month : Nat} (h : month < 12) :
    daysOfMonths year month =
      if month < 2 then 31 * month
      else (if IsLeap year then 60 else 59) + (153 * (month - 2) + 2) / 5 := by
  interval_cases month <;> simp [daysOfMonths, daysInMonth] <;> split <;> rfl

/-- From March to December, five months have 153 days wherever they begin. -/
theorem daysInMonth_eq (year : Int) {fromMarch : Nat} (h : fromMarch < 10) :
    daysInMonth year (fromMarch + 3) =
      (153 * (fromMarch + 1) + 2) / 5 - (153 * fromMarch + 2) / 5 := by
  interval_cases fromMarch <;> rfl

/-- A date of the calendar that lies `n` days after the first of March of year 0. -/
structure Dates (date : Int × Nat × Nat) (n : Int) : Prop where
  valid : ValidDay date.1 date.2.1 date.2.2
  number : dayNumber date.1 date.2.1 date.2.2 + epochDay = n

/-- March to December: the leap day of the year lies before. -/
theorem dates_sameYear (year : Int) {day : Nat} (h : (5 * day + 2) / 153 < 10) :
    Dates (ofMarch year day) (marchDay year + day) := by
  -- Counted from March, the months up to December are numbers 0 to 9.
  have hstart := yearStart_eq year
  have hlength := daysInYear_eq year
  unfold ofMarch
  generalize hmonth : (5 * day + 2) / 153 = fromMarch at h ⊢
  have hafter : ¬fromMarch + 3 ≤ 2 := by omega
  have hmonths : fromMarch + 3 - 1 = fromMarch + 2 := by omega
  simp only [if_pos h, if_neg hafter]
  constructor
  · show ValidDay year (fromMarch + 3) (day - (153 * fromMarch + 2) / 5 + 1)
    refine ⟨by omega, by omega, by omega, ?_⟩
    rw [daysInMonth_eq year h]
    omega
  · show dayNumber year (fromMarch + 3) (day - (153 * fromMarch + 2) / 5 + 1) + epochDay = _
    rw [dayNumber, hmonths, daysOfMonths_eq year (by omega), if_neg (by omega), Nat.add_sub_cancel]
    by_cases hleap : IsLeap year
    · rw [daysInYear, if_pos hleap] at hlength
      rw [if_pos hleap]
      omega
    · rw [daysInYear, if_neg hleap] at hlength
      rw [if_neg hleap]
      omega

/-- January and February of the year after: the last day of February may be its leap day. -/
theorem dates_nextYear {year : Int} {day : Nat} (h : day < daysInYear (year + 1))
    (hmonth : 10 ≤ (5 * day + 2) / 153) : Dates (ofMarch year day) (marchDay year + day) := by
  have hstart := yearStart_eq year
  have hlength := daysInYear_eq year
  have hnext := yearStart_succ year
  have hday : day < if IsLeap (year + 1) then 366 else 365 := h
  -- Months 10 and 11 are January and February, which belong to the year after.
  have hmonths : (5 * day + 2) / 153 = 10 ∨ (5 * day + 2) / 153 = 11 := by
    split at hday <;> omega
  unfold ofMarch
  rcases hmonths with hjanuary | hfebruary
  · rw [hjanuary]
    constructor
    · show ValidDay (year + 1) 1 (day - 306 + 1)
      refine ⟨by decide, by decide, by omega, ?_⟩
      show day - 306 + 1 ≤ 31
      omega
    · show yearStart (year + 1) + (0 : Nat) + ((day - 306 + 1 : Nat) - 1) + epochDay = _
      omega
  · rw [hfebruary]
    constructor
    · show ValidDay (year + 1) 2 (day - 337 + 1)
      refine ⟨by decide, by decide, by omega, ?_⟩
      show day - 337 + 1 ≤ if IsLeap (year + 1) then 29 else 28
      by_cases hleap : IsLeap (year + 1)
      · rw [if_pos hleap] at hday ⊢
        omega
      · rw [if_neg hleap] at hday ⊢
        omega
    · show yearStart (year + 1) + (31 : Nat) + ((day - 337 + 1 : Nat) - 1) + epochDay = _
      omega

/-- **The days of a year from March on** have dates of the calendar, which count back to them. -/
theorem dates_ofMarch {year : Int} {day : Nat} (h : day < daysInYear (year + 1)) :
    Dates (ofMarch year day) (marchDay year + day) := by
  by_cases hmonth : (5 * day + 2) / 153 < 10
  · exact dates_sameYear year hmonth
  · exact dates_nextYear h (Nat.le_of_not_lt hmonth)

/-! ## Eras -/

def yearOfEra (day : Nat) : Nat :=
  (day - day / 1460 + day / 36524 - day / 146096) / 365

/-- A day of an era lies in a century, in that in a group of four years, and in that in a year. Only
the last year of a group has a leap day, and the last group of a century only if it is the last one
of the era. -/
theorem exists_eraDay {day : Nat} (h : day < 146097) :
    ∃ century group year rest, century < 4 ∧ group < 25 ∧ year < 4 ∧
      day = 36524 * century + 1461 * group + 365 * year + rest ∧
      (rest < 365 ∨ rest = 365 ∧ year = 3 ∧ (group < 24 ∨ century = 3)) := by
  let century := min (day / 36524) 3
  let group := (day - 36524 * century) / 1461
  let year := min ((day - 36524 * century - 1461 * group) / 365) 3
  exact ⟨century, group, year, day - 36524 * century - 1461 * group - 365 * year, by omega,
    by omega, by omega, by omega, by omega⟩

/-- The quotients of the day take out just the leap days before it. -/
theorem yearOfEra_eq {day century group year rest : Nat} (hcentury : century < 4)
    (hgroup : group < 25) (hyear : year < 4)
    (hday : day = 36524 * century + 1461 * group + 365 * year + rest)
    (hrest : rest < 365 ∨ rest = 365 ∧ year = 3 ∧ (group < 24 ∨ century = 3)) :
    yearOfEra day = 100 * century + 4 * group + year := by
  have hcenturies : day / 36524 - day / 146096 = century ∧ day / 146096 ≤ day / 36524 := by
    have hlast : 1461 * group + 365 * year + rest < 36524 ∨ day = 146096 ∧ century = 3 := by omega
    omega
  -- One more leap day is taken out at the end of a group, before the group is over.
  have hgroups : day / 1460 =
      25 * century + group + if year = 3 ∧ 365 ≤ rest + 24 * century + group then 1 else 0 := by
    split <;> omega
  have hnumerator : day - day / 1460 + day / 36524 - day / 146096 = day - day / 1460 + century := by
    omega
  rw [yearOfEra, hnumerator, hgroups]
  split <;> omega

/-- A day of an era is one of the year that is computed for it. -/
theorem yearOfEra_spec {day : Nat} (h : day < 146097) :
    yearOfEra day < 400 ∧ 365 * yearOfEra day + yearOfEra day / 4 - yearOfEra day / 100 ≤ day ∧
      day - (365 * yearOfEra day + yearOfEra day / 4 - yearOfEra day / 100) <
        daysInYear (yearOfEra day + 1) := by
  obtain ⟨century, group, year, rest, hcentury, hgroup, hyear, hday, hrest⟩ := exists_eraDay h
  rw [yearOfEra_eq hcentury hgroup hyear hday hrest]
  -- Leap days are linear in the century, the group of four years and the year in it.
  have hgroups : (100 * century + 4 * group + year) / 4 = 25 * century + group := by omega
  have hcenturies : (100 * century + 4 * group + year) / 100 = century := by omega
  have hbefore : 365 * (100 * century + 4 * group + year) + (25 * century + group) - century =
      36524 * century + 1461 * group + 365 * year := by omega
  rw [hgroups, hcenturies, hbefore]
  refine ⟨by omega, by omega, ?_⟩
  by_cases hleap : IsLeap ((100 * century + 4 * group + year : Nat) + 1)
  · rw [daysInYear, if_pos hleap]
    omega
  · rw [daysInYear, if_neg hleap]
    unfold IsLeap at hleap
    omega

/-- Eras have the same days. -/
theorem marchDay_add_era (year era : Int) :
    marchDay (year + era * 400) = marchDay year + era * daysPerEra := by
  unfold marchDay daysPerEra
  omega

theorem daysInYear_add_era (year era : Int) : daysInYear (year + era * 400) = daysInYear year := by
  have hleap : IsLeap (year + era * 400) ↔ IsLeap year := by
    unfold IsLeap
    omega
  simp only [daysInYear, hleap]

/-- A date is computed from the era and the day of the era. -/
theorem ofDay_eq (n : Int) :
    ofDay n =
      ofMarch (yearOfEra ((n + epochDay) % daysPerEra).toNat + (n + epochDay) / daysPerEra * 400)
        (((n + epochDay) % daysPerEra).toNat -
          (365 * yearOfEra ((n + epochDay) % daysPerEra).toNat +
            yearOfEra ((n + epochDay) % daysPerEra).toNat / 4 -
            yearOfEra ((n + epochDay) % daysPerEra).toNat / 100)) := rfl

/-- **The date of a day** is one of the calendar, and counting to it gives the day. -/
theorem dayNumber_ofDay (n : Int) :
    ValidDay (ofDay n).1 (ofDay n).2.1 (ofDay n).2.2 ∧
      dayNumber (ofDay n).1 (ofDay n).2.1 (ofDay n).2.2 = n := by
  rw [ofDay_eq]
  -- Every era has 146097 days, so all that matters is the day within one era.
  have hsplit : (n + epochDay) / daysPerEra * daysPerEra + (n + epochDay) % daysPerEra =
      n + epochDay := Int.ediv_mul_add_emod _ _
  have hnonneg : 0 ≤ (n + epochDay) % daysPerEra := Int.emod_nonneg _ (by decide)
  have hlt : (n + epochDay) % daysPerEra < daysPerEra := Int.emod_lt_of_pos _ (by decide)
  generalize (n + epochDay) / daysPerEra = era at hsplit ⊢
  have hday : (((n + epochDay) % daysPerEra).toNat : Int) = (n + epochDay) % daysPerEra :=
    Int.toNat_of_nonneg hnonneg
  generalize ((n + epochDay) % daysPerEra).toNat = day at hday ⊢
  have hera : day < 146097 := by
    unfold daysPerEra at hlt hday
    omega
  obtain ⟨hyear, hle, hrest⟩ := yearOfEra_spec hera
  generalize yearOfEra day = year at hyear hle hrest ⊢
  have hlength : day - (365 * year + year / 4 - year / 100) <
      daysInYear (year + era * 400 + 1) := by
    have hcomm : (year : Int) + era * 400 + 1 = year + 1 + era * 400 := by omega
    rw [hcomm, daysInYear_add_era]
    exact hrest
  obtain ⟨hvalid, hnumber⟩ := dates_ofMarch hlength
  refine ⟨hvalid, ?_⟩
  rw [marchDay_add_era] at hnumber
  have hmarch : marchDay year = (365 * year + year / 4 - year / 100 : Nat) := by
    unfold marchDay
    omega
  omega

/-! ## Seconds -/

/-- **The time of a timestamp** is one of the calendar, and counting to it gives the timestamp. -/
theorem seconds_ofSeconds (n : Int) : (ofSeconds n).Valid ∧ (ofSeconds n).seconds = n := by
  obtain ⟨hvalid, hnumber⟩ := dayNumber_ofDay (n / 86400)
  -- The division by 86400 rounds down, so the time of day is never negative.
  refine ⟨⟨hvalid, ?_, ?_, ?_⟩, ?_⟩
  · show (n % 86400).toNat / 3600 < 24
    omega
  · show (n % 86400).toNat / 60 % 60 < 60
    omega
  · show (n % 86400).toNat % 60 < 60
    omega
  · show dayNumber (ofDay (n / 86400)).1 (ofDay (n / 86400)).2.1 (ofDay (n / 86400)).2.2 * 86400 +
      ((n % 86400).toNat / 3600 : Nat) * 3600 + ((n % 86400).toNat / 60 % 60 : Nat) * 60 +
      ((n % 86400).toNat % 60 : Nat) = n
    rw [hnumber]
    omega

example : ofSeconds 951782400 = ⟨2000, 2, 29, 0, 0, 0⟩ := by decide

end DateTime

end EventLog
