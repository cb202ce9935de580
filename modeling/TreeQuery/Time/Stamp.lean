import TreeQuery.Time.Calendar

/-!
# Time stamps

A moment is a count of seconds from the start of 1970 and a count of nanoseconds in that second.
A second that is taken to be followed by a leap second may hold up to two thousand million of them.
Times are shown as `2000-02-29 23:59:59.999999`: cut off to microseconds, and a leap second as the
second after, `:60` at the end of a minute.

`Timestamp.text` is a time in `TIMESTAMP_FORMAT`.
-/

namespace TreeQuery

/-- A moment. -/
structure Timestamp where
  seconds : Int := 0
  nanos : Nat := 0
  deriving DecidableEq, Repr

/-- Decimal digits with zeros in front, up to a width. -/
def padded (width n : Nat) : String :=
  let digits := toString n
  String.ofList (List.replicate (width - digits.length) '0') ++ digits

/-- A year: four digits from 0 to 9999, and otherwise a sign before at least four digits. -/
def yearText (year : Int) : String :=
  if 0 ≤ year ∧ year ≤ 9999 then padded 4 year.toNat
  else (if year < 0 then "-" else "+") ++ padded 4 year.natAbs

namespace Timestamp

/-- The start of 1970. -/
def epoch : Timestamp := {}

/-- How many seconds a day has. -/
def daySeconds : Int := 86400

/-- The day of a moment, counted from 1 January 1970. -/
def days (t : Timestamp) : Int := t.seconds.fdiv daySeconds

/-- The second of the day. -/
def secondOfDay (t : Timestamp) : Nat := (t.seconds.fmod daySeconds).toNat

/-- The second of the minute, one more in a leap second. -/
def second (t : Timestamp) : Nat := t.secondOfDay % 60 + t.nanos / 1000000000

/-- The microsecond of the second. -/
def micros (t : Timestamp) : Nat := t.nanos % 1000000000 / 1000

/-- The date as it is shown. -/
def dateText (t : Timestamp) : String :=
  let date := Date.ofDays t.days
  yearText date.year ++ "-" ++ padded 2 date.month ++ "-" ++ padded 2 date.day

/-- The time of day as it is shown, without fractions of a second. -/
def clockText (t : Timestamp) : String :=
  padded 2 (t.secondOfDay / 3600) ++ ":" ++ padded 2 (t.secondOfDay / 60 % 60) ++ ":" ++
    padded 2 t.second

/-- The moment as it is shown. -/
def text (t : Timestamp) : String :=
  t.dateText ++ " " ++ t.clockText ++ "." ++ padded 6 t.micros

end Timestamp

end TreeQuery
