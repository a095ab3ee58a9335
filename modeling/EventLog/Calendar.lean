import EventLog.Text.Digits

set_option autoImplicit false

/-! # Calendar time

A timestamp counts seconds from the start of 1970 (UTC). `DateTime.ofSeconds` gives its date in
the Gregorian calendar, continued to all years, and its time of day; years before year one count
on as 0, -1 and so on.

Days are counted in eras of 400 years, which all have the same number of days, from the first of
March of year 0, so that the leap day is the last day of a year.
-/

namespace EventLog

/-- A date of the Gregorian calendar and a time of day. -/
structure DateTime where
  year : Int
  month : Nat
  day : Nat
  hour : Nat
  minute : Nat
  second : Nat
  deriving DecidableEq, Repr

namespace DateTime

def daysPerEra : Int := 146097

/-- The day of 1970-01-01, counted from the first of March of year 0. -/
def epochDay : Int := 719468

/-- Year, month and day of the `n`th day after 1970-01-01. -/
def ofDay (n : Int) : Int × Nat × Nat :=
  let era := (n + epochDay) / daysPerEra
  let dayOfEra := ((n + epochDay) % daysPerEra).toNat
  -- Take out the leap days that came before: one in four years, but not in a hundred, but in
  -- four hundred.
  let yearOfEra :=
    (dayOfEra - dayOfEra / 1460 + dayOfEra / 36524 - dayOfEra / 146096) / 365
  let dayOfYear := dayOfEra - (365 * yearOfEra + yearOfEra / 4 - yearOfEra / 100)
  -- Five months from March or August on have 153 days.
  let fromMarch := (5 * dayOfYear + 2) / 153
  let day := dayOfYear - (153 * fromMarch + 2) / 5 + 1
  let month := if fromMarch < 10 then fromMarch + 3 else fromMarch - 9
  let year := yearOfEra + era * 400
  (if month ≤ 2 then year + 1 else year, month, day)

/-- Date and time of day of a number of seconds from the start of 1970. -/
def ofSeconds (seconds : Int) : DateTime :=
  let time := (seconds % 86400).toNat
  let (year, month, day) := ofDay (seconds / 86400)
  { year, month, day
    hour := time / 3600
    minute := time / 60 % 60
    second := time % 60 }

/-- The year with at least four digits, or a minus sign and at least three. -/
def yearText (year : Int) : String :=
  if year < 0 then "-" ++ decimal 3 year.natAbs else decimal 4 year.natAbs

/-- The text `YYYY-MM-DD HH:MM:SSZ`. -/
def text (t : DateTime) : String :=
  yearText t.year ++ "-" ++ decimal 2 t.month ++ "-" ++ decimal 2 t.day ++ " " ++
    decimal 2 t.hour ++ ":" ++ decimal 2 t.minute ++ ":" ++ decimal 2 t.second ++ "Z"

end DateTime

/-! ## Timestamps -/

/-- The least supported timestamp: one day and some hours into the year -9999. -/
def minTimestamp : Int := -377705023201

/-- The greatest supported timestamp, late in the year 9999. -/
def maxTimestamp : Int := 253402207200

def timestampSupported (seconds : Int64) : Bool :=
  minTimestamp ≤ seconds.toInt && seconds.toInt ≤ maxTimestamp

def timestampText (seconds : Int64) : String := (DateTime.ofSeconds seconds.toInt).text

end EventLog
