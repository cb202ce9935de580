/-!
# The calendar

Days are counted from 1 January 1970, and dates are those of the Gregorian calendar, carried on
before its beginning. A year is taken to start in March, so that the leap day comes last; 400
years then always have 146097 days.
-/

namespace TreeQuery

/-- A day of the calendar. Years before the year 1 are zero and negative. -/
structure Date where
  year : Int
  month : Nat
  day : Nat
  deriving DecidableEq, Repr

namespace Date

/-- How many days lie between 1 March of the year 0 and 1 January 1970. -/
def epochOffset : Int := 719468

/-- The year in a span of 400 years, counted from March, of a day of that span. -/
def yearOfEra (day : Nat) : Nat :=
  (day - day / 1460 + day / 36524 - day / 146096) / 365

/-- The first day of a year in a span of 400 years, counted from March. -/
def yearStart (year : Nat) : Nat :=
  365 * year + year / 4 - year / 100

/-- The date of a day, counted from 1 January 1970. -/
def ofDays (days : Int) : Date :=
  let shifted := days + epochOffset
  let era := shifted.fdiv 146097
  let dayOfEra := (shifted.fmod 146097).toNat
  let year := yearOfEra dayOfEra
  let dayOfYear := dayOfEra - yearStart year
  let march := (5 * dayOfYear + 2) / 153
  let day := dayOfYear - (153 * march + 2) / 5 + 1
  let month := if march < 10 then march + 3 else march - 9
  ⟨era * 400 + year + (if month ≤ 2 then 1 else 0), month, day⟩

end Date

end TreeQuery
