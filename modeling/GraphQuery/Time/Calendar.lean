/-! The proleptic Gregorian calendar, with a year 0: days are counted from the first day of
year 1, and each day number belongs to one date. -/

namespace GraphQuery.Calendar

def isLeap (year : Int) : Bool := year % 4 = 0 && (year % 100 ≠ 0 || year % 400 = 0)

def daysInMonth (year : Int) (month : Nat) : Nat :=
  match month with
  | 2 => if isLeap year then 29 else 28
  | 4 | 6 | 9 | 11 => 30
  | _ => 31

/-- The days from the first day of year 1 to the first day of a year. -/
def daysBeforeYear (year : Int) : Int :=
  let past := year - 1
  365 * past + past / 4 - past / 100 + past / 400

/-- The days of a year before one of its months. -/
def daysBeforeMonth (year : Int) (month : Nat) : Nat :=
  (List.range' 1 (month - 1)).foldr (fun m days => daysInMonth year m + days) 0

/-- The number of a date's day. -/
def dayNumber (year : Int) (month day : Nat) : Int :=
  daysBeforeYear year + daysBeforeMonth year month + (day - 1 : Int)

/-- The year of a day number. Among 400, 100 and 4 years the last one is the longer one, so the
count of centuries and of single years stops at three. -/
def yearOf (number : Int) : Int :=
  let inEra := number % 146097
  let century := min 3 (inEra / 36524)
  let inCentury := inEra - 36524 * century
  let inFour := inCentury % 1461
  400 * (number / 146097) + 100 * century + 4 * (inCentury / 1461) + min 3 (inFour / 365) + 1

/-- Goes through the months of a year until a day of the year falls into one. -/
def monthAndDay (year : Int) : List Nat → Nat → Nat × Nat
  | [], dayOfYear => (12, dayOfYear + 1)
  | [month], dayOfYear => (month, dayOfYear + 1)
  | month :: months, dayOfYear =>
    if dayOfYear < daysInMonth year month then (month, dayOfYear + 1)
    else monthAndDay year months (dayOfYear - daysInMonth year month)

/-- The date of a day number. -/
def dateOf (number : Int) : Int × Nat × Nat :=
  let year := yearOf number
  (year, monthAndDay year (List.range' 1 12) (number - daysBeforeYear year).toNat)

end GraphQuery.Calendar
