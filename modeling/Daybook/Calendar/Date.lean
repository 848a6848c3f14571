import Daybook.Fault

/-!
# Days of the calendar

A date of the proleptic Gregorian calendar is the number of days after
1 January 1970, and the calendar runs from the first day of the year −262143 to
the last day of the year 262142. Year, month and day of the month are read off
that number by the cycle of 400 years.
-/

namespace Daybook

/-- Whether a year of the Gregorian calendar has 366 days. -/
def isLeapYear (year : Int) : Bool :=
  year % 4 == 0 && (year % 100 != 0 || year % 400 == 0)

/-- The days from 1 January of the year 1 to 1 January of `year`. -/
def daysBeforeYear (year : Int) : Int :=
  let past := year - 1
  365 * past + past / 4 - past / 100 + past / 400

/-- The days of a year before the first of a month. -/
def daysBeforeMonth (leap : Bool) (month : Nat) : Nat :=
  let common :=
    match month with
    | 0 | 1 => 0
    | 2 => 31
    | 3 => 59
    | 4 => 90
    | 5 => 120
    | 6 => 151
    | 7 => 181
    | 8 => 212
    | 9 => 243
    | 10 => 273
    | 11 => 304
    | 12 => 334
    | _ => 365
  if leap && 3 ≤ month then common + 1 else common

/-- The number of days in a month. -/
def daysInMonth (leap : Bool) (month : Nat) : Nat :=
  daysBeforeMonth leap (month + 1) - daysBeforeMonth leap month

/-- The days from 1 January of the year 1 to 1 January 1970. -/
def epochOffset : Int := 719162

/-- A day between the first and the last day of the calendar, counted from
1 January 1970. -/
structure Date where
  /-- Days after 1 January 1970. -/
  day : Int
  first_le : -96465292 ≤ day := by omega
  le_last : day ≤ 95026236 := by omega
  deriving DecidableEq

/-- Year, month and day of the month of a date. -/
structure Civil where
  year : Int
  month : Nat
  day : Nat
  deriving DecidableEq, Repr

namespace Date

/-- The first day of the calendar, 1 January of the year −262143. -/
def first : Date := { day := -96465292 }

/-- The last day of the calendar, 31 December of the year 262142. -/
def last : Date := { day := 95026236 }

/-- The date a number of days after 1 January 1970. -/
def ofDay? (day : Int) : Option Date :=
  if h : -96465292 ≤ day ∧ day ≤ 95026236 then some ⟨day, h.1, h.2⟩ else none

/-- The date `days` days later, or earlier where `days` is negative. -/
def addDays? (date : Date) (days : Int) : Option Date := ofDay? (date.day + days)

/-- As `addDays?`, where leaving the calendar is a fault. -/
def shift (date : Date) (days : Int) : Except Fault Date :=
  match date.addDays? days with
  | some moved => .ok moved
  | none => .error .beyondCalendar

/-- The date with a given year, month and day, if the calendar has it. -/
def ofCivil? (year : Int) (month day : Nat) : Option Date :=
  if 1 ≤ month && month ≤ 12 && 1 ≤ day && day ≤ daysInMonth (isLeapYear year) month then
    ofDay? (daysBeforeYear year - epochOffset + daysBeforeMonth (isLeapYear year) month + (day - 1))
  else none

/-- The year that holds a day counted from 1 January of the year 1, and the days
of that year before it. -/
def yearAndDay (count : Int) : Int × Int :=
  let inEra := count % 146097
  let century := min 3 (inEra / 36524)
  let inCentury := inEra - 36524 * century
  let four := inCentury / 1461
  let inFour := inCentury - 1461 * four
  let past := min 3 (inFour / 365)
  (400 * (count / 146097) + 100 * century + 4 * four + past + 1, inFour - 365 * past)

/-- The month that holds a day of the year, counted from zero. -/
def monthOf (leap : Bool) (dayOfYear : Nat) : Nat :=
  1 + ([2, 3, 4, 5, 6, 7, 8, 9, 10, 11, 12].filter
    fun month => daysBeforeMonth leap month ≤ dayOfYear).length

/-- Year, month and day of the month. -/
def civil (date : Date) : Civil :=
  let (year, dayOfYear) := yearAndDay (date.day + epochOffset)
  let leap := isLeapYear year
  let month := monthOf leap dayOfYear.toNat
  ⟨year, month, dayOfYear.toNat - daysBeforeMonth leap month + 1⟩

/-- The year of a date. -/
def year (date : Date) : Int := date.civil.year

/-- The month of a date, from 1 to 12. -/
def month (date : Date) : Nat := date.civil.month

/-- The days since the last Monday, from 0 on a Monday to 6 on a Sunday. -/
def weekday (date : Date) : Nat := ((date.day + 3) % 7).toNat

/-- The Monday on or before a date. -/
def monday (date : Date) : Except Fault Date := date.shift (-(date.weekday : Int))

/-- The first day of the month `offset` months after that of the date. -/
def firstOfMonth? (date : Date) (offset : Int) : Option Date :=
  let index := date.year * 12 + (date.month - 1 : Nat) + offset
  ofCivil? (index / 12) ((index % 12).toNat + 1) 1

/-- The earliest date on or after `today` with a given month and day, searched
for through the four years that follow. 29 February waits for a leap year. -/
def upcoming? (today : Date) (month day : Nat) : Option Date :=
  ([0, 1, 2, 3, 4].filterMap fun ahead => ofCivil? (today.year + ahead) month day).find?
    fun date => today.day ≤ date.day

end Date

end Daybook
