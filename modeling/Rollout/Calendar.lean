/-!
Points in time and their written form. A point in time is counted in seconds and nanoseconds from
the beginning of 1970 in universal time; it is written as a date and a time of day with six decimal
places. A second that is counted over and above a full minute is written as second sixty.
-/

set_option autoImplicit false
set_option relaxedAutoImplicit false

namespace Rollout.Calendar

/-- A date of the Gregorian calendar, carried on before and after its use. -/
structure Date where
  year : Int
  month : Nat
  day : Nat
deriving DecidableEq, Repr

/-- The date a number of days after the first of January 1970. Years are counted from March, so that
a leap day is the last of its year, in eras of four centuries. -/
def Date.ofDays (days : Int) : Date :=
  let z := days + 719468
  let era := z.fdiv 146097
  let dayOfEra := (z.fmod 146097).toNat
  let yearOfEra :=
    (dayOfEra - dayOfEra / 1460 + dayOfEra / 36524 - dayOfEra / 146096) / 365
  let dayOfYear := dayOfEra - (365 * yearOfEra + yearOfEra / 4 - yearOfEra / 100)
  let fromMarch := (5 * dayOfYear + 2) / 153
  let day := dayOfYear - (153 * fromMarch + 2) / 5 + 1
  let month := if fromMarch < 10 then fromMarch + 3 else fromMarch - 9
  let year := yearOfEra + era * 400
  ⟨if month ≤ 2 then year + 1 else year, month, day⟩

/-- A point in time, as it is written. -/
structure Moment where
  date : Date
  hour : Nat
  minute : Nat
  second : Nat
  micro : Nat
deriving DecidableEq, Repr

/-- The years that can be written. -/
def firstYear : Int := -262143

/-- The last year that can be written. -/
def lastYear : Int := 262142

/-- The nanoseconds of a second. -/
def nanosPerSecond : Nat := 1000000000

/-- The point in time of a count of seconds and nanoseconds. Nanoseconds beyond a second are a leap
second, which only the last second of a minute can have. -/
def Moment.ofUnix? (seconds : Int) (nanos : Nat) : Option Moment :=
  let leap := nanosPerSecond ≤ nanos
  let date := Date.ofDays (seconds.fdiv 86400)
  let second := (seconds.fmod 86400).toNat
  if 2 * nanosPerSecond ≤ nanos ∨ (leap ∧ second % 60 ≠ 59) then none
  else if date.year < firstYear ∨ lastYear < date.year then none
  else some
    { date
      hour := second / 3600
      minute := second / 60 % 60
      second := second % 60 + nanos / nanosPerSecond
      micro := nanos % nanosPerSecond / 1000 }

/-- A number with at least so many digits. -/
def padded (width n : Nat) : String :=
  let digits := toString n
  "".pushn '0' (width - digits.length) ++ digits

/-- A year has four digits at least, and a sign if it is not between 0 and 9999. -/
def yearText (year : Int) : String :=
  if 0 ≤ year ∧ year ≤ 9999 then padded 4 year.toNat
  else (if year < 0 then "-" else "+") ++ padded 4 year.natAbs

/-- A point in time as it is written. -/
def Moment.text (m : Moment) : String :=
  yearText m.date.year ++ "-" ++ padded 2 m.date.month ++ "-" ++ padded 2 m.date.day ++ "T" ++
    padded 2 m.hour ++ ":" ++ padded 2 m.minute ++ ":" ++ padded 2 m.second ++ "." ++
    padded 6 m.micro ++ "+00:00"

/-- The shape of a written text: every digit as zero. -/
def shape (s : String) : String := s.map fun c ↦ if c.isDigit then '0' else c

end Rollout.Calendar
