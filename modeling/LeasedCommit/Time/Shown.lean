import LeasedCommit.Text.Digits
import LeasedCommit.Time.Timestamp

set_option autoImplicit false

/-! # How times are shown

An instant is shown as a UTC date and time with milliseconds, or as a bare number of
microseconds once it lies past the last day of the calendar (`calendarEnd`). A duration is
shown in the largest unit in which it is at least one, with as many decimals as it needs. -/

namespace LeasedCommit

open Text

/-! ## The calendar -/

/-- A day of the proleptic Gregorian calendar. -/
structure Date where
  year : Nat
  month : Nat
  day : Nat
deriving DecidableEq

/-- The date `days` days after 1 January 1970. Years are counted from March, so that the leap
day is the last of its year; 146097 days make 400 years. -/
def Date.ofDays (days : Nat) : Date :=
  let shifted := days + 719468
  let inEra := shifted % 146097
  let yearOfEra := (inEra - inEra / 1460 + inEra / 36524 - inEra / 146096) / 365
  let dayOfYear := inEra - (365 * yearOfEra + yearOfEra / 4 - yearOfEra / 100)
  let monthFromMarch := (5 * dayOfYear + 2) / 153
  let month := if monthFromMarch < 10 then monthFromMarch + 3 else monthFromMarch - 9
  let year := yearOfEra + shifted / 146097 * 400
  { year := if month ≤ 2 then year + 1 else year
    month := month
    day := dayOfYear - (153 * monthFromMarch + 2) / 5 + 1 }

/-- A year of more than four digits carries a sign. -/
def Date.shown (d : Date) : String :=
  (if d.year > 9999 then "+" else "") ++ decimal 4 d.year ++ "-" ++ decimal 2 d.month ++ "-"
    ++ decimal 2 d.day

/-! ## Instants -/

/-- The last second that has a date, the end of the year 262142. -/
def calendarEnd : Nat := 8210266876799

/-- The second of an instant and the nanoseconds into it, if the instant has a date. -/
def Timestamp.dateTime? (t : Timestamp) : Option (Nat × Nat) :=
  if t.micros / 1000000 ≤ calendarEnd then
    some (t.micros / 1000000, t.micros % 1000000 * 1000)
  else none

/-- The text of an instant. -/
def Timestamp.shown (t : Timestamp) : String :=
  match t.dateTime? with
  | none => toString t.micros ++ "us"
  | some (secs, nanos) =>
    (Date.ofDays (secs / 86400)).shown ++ "T" ++ decimal 2 (secs % 86400 / 3600) ++ ":"
      ++ decimal 2 (secs % 3600 / 60) ++ ":" ++ decimal 2 (secs % 60) ++ "."
      ++ decimal 3 (nanos / 1000000) ++ "Z"

/-! ## Durations -/

/-- The text of a duration. -/
def Duration.shown (d : Duration) : String :=
  if d.nanos ≥ 1000000000 then decimalFraction 9 d.nanos ++ "s"
  else if d.nanos ≥ 1000000 then decimalFraction 6 d.nanos ++ "ms"
  else if d.nanos ≥ 1000 then decimalFraction 3 d.nanos ++ "µs"
  else decimalFraction 0 d.nanos ++ "ns"

end LeasedCommit
