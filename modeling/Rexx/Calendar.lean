import Rexx.Text.Basic

/-!
# `Calendar` — dates and times of day

A point in time is a number of microseconds since the start of the year 1970. `Moment` splits it into the parts of a date
in the calendar now in use and of a time of day.
-/

namespace Rexx

structure Moment where
  days : Nat
  year : Nat
  month : Nat
  day : Nat
  dayOfYear : Nat
  second : Nat
  micros : Nat
deriving DecidableEq, Repr

namespace Moment

def isLeap (year : Nat) : Bool := year % 4 == 0 && (year % 100 != 0 || year % 400 == 0)

/-- The number of days before the first of a month, the months counted from March, in a year that begins in March. -/
def daysBefore (monthFromMarch : Nat) : Nat := (153 * monthFromMarch + 2) / 5

/-- The moment at a number of microseconds since the start of 1970. -/
def ofMicros (t : Nat) : Moment :=
  let seconds := t / 1000000
  let days := seconds / 86400
  let z := days + 719468
  let era := z / 146097
  let doe := z % 146097
  let yoe := (doe - doe / 1460 + doe / 36524 - doe / 146096) / 365
  let doy := doe - (365 * yoe + yoe / 4 - yoe / 100)
  let m := (5 * doy + 2) / 153
  let month := if m < 10 then m + 3 else m - 9
  let year := yoe + era * 400 + (if month ≤ 2 then 1 else 0)
  let ordinal := if m < 10 then doy + 59 + (if isLeap year then 1 else 0) else doy - 306
  ⟨days, year, month, doy - daysBefore m + 1, ordinal + 1, seconds % 86400, t % 1000000⟩

def weekday (t : Moment) : Nat := (t.days + 4) % 7

def hour (t : Moment) : Nat := t.second / 3600

def minute (t : Moment) : Nat := t.second / 60 % 60

def monthName (t : Moment) : Text :=
  (["January", "February", "March", "April", "May", "June", "July", "August", "September", "October", "November",
    "December"].getD (t.month - 1) "").toList

def weekdayName (t : Moment) : Text :=
  (["Sunday", "Monday", "Tuesday", "Wednesday", "Thursday", "Friday", "Saturday"].getD t.weekday "").toList

def shortYear (t : Moment) : Text := Text.zeroPadded 2 (t.year % 100)

def clockTime (t : Moment) : Text :=
  Text.zeroPadded 2 t.hour ++ ":" ++ Text.zeroPadded 2 t.minute ++ ":" ++ Text.zeroPadded 2 (t.second % 60)

end Moment

end Rexx
