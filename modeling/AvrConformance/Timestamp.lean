import AvrConformance.Text.Number

/-!
# Moments of time

A moment is a count of seconds since the start of 1970, UTC, and may lie
before it. It is written as a date of the Gregorian calendar and a time of day.
The calendar repeats every 400 years, so a day is found by its era of 400
years, then by the year within the era, then by the day within the year. Years
are counted from March, which puts the leap day at the end of the year.
-/

namespace AvrConformance

/-- A moment, to the second. -/
structure Timestamp where
  seconds : Int
  deriving DecidableEq

/-- A day of the Gregorian calendar. -/
structure Date where
  year : Int
  month : Nat
  day : Nat
  deriving DecidableEq

namespace Date

/-- The days in 400 years. -/
def eraDays : Nat := 146097

/-- The days from the first of March of the year 0 to the first of January 1970. -/
def epochDay : Nat := 719468

/-- The date that lies a number of days after the first of January 1970. -/
def ofDays (days : Int) : Date :=
  let shifted := days + epochDay
  let era := shifted / eraDays
  let dayOfEra := (shifted % eraDays).toNat
  let yearOfEra :=
    (dayOfEra - dayOfEra / 1460 + dayOfEra / 36524 - dayOfEra / 146096) / 365
  let dayOfYear := dayOfEra - (365 * yearOfEra + yearOfEra / 4 - yearOfEra / 100)
  let marchMonth := (5 * dayOfYear + 2) / 153
  let month := if marchMonth < 10 then marchMonth + 3 else marchMonth - 9
  { year := era * 400 + yearOfEra + (if month ≤ 2 then 1 else 0)
    month
    day := dayOfYear - (153 * marchMonth + 2) / 5 + 1 }

/-- The year of a date: four digits, and a sign if that is not enough. -/
def yearText (year : Int) : String :=
  if 0 ≤ year ∧ year ≤ 9999 then Text.decimal 4 year.toNat
  else (if year < 0 then "-" else "+") ++ Text.decimal 4 year.natAbs

def text (d : Date) : String :=
  s!"{yearText d.year}-{Text.decimal 2 d.month}-{Text.decimal 2 d.day}"

end Date

namespace Timestamp

def epoch : Timestamp := ⟨0⟩

def date (t : Timestamp) : Date := .ofDays (t.seconds / 86400)

/-- The time of day of a moment, with colons between. -/
def clock (t : Timestamp) : String :=
  let second := (t.seconds % 86400).toNat
  let two := Text.decimal 2
  s!"{two (second / 3600)}:{two (second / 60 % 60)}:{two (second % 60)}"

def text (t : Timestamp) : String := s!"{t.date.text} {t.clock} UTC"

def compact (t : Timestamp) : String := s!"{t.date.text}T{t.clock}Z"

end Timestamp

end AvrConformance
