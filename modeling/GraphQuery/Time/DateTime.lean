import GraphQuery.Number.Decimal
import GraphQuery.Time.Calendar

/-! Points in time with an optional offset from universal time. A point is its distance in
seconds from the first moment of year 1; without offset it is read as if it had none, and is only
comparable with a point that has one if fourteen hours either way make no difference. -/

namespace GraphQuery

structure DateTime where
  seconds : Decimal
  /-- The minutes by which local time is ahead of universal time. -/
  offset : Option Int
deriving DecidableEq

namespace DateTime

/-- The point in time with these local parts. -/
def ofParts? (year : Int) (month day hour minute : Nat) (second : Decimal)
    (offset : Option Int) : Option DateTime := do
  let whole := 86400 * Calendar.dayNumber year month day + 3600 * hour
    + 60 * (minute - offset.getD 0)
  let seconds ← (← Decimal.ofInt? whole).add second
  some ⟨seconds, offset⟩

/-- Points with and without offset are never equal. -/
def equal (a b : DateTime) : Bool :=
  a.offset.isSome == b.offset.isSome && a.seconds == b.seconds

/-- How far local time can be from universal time, in seconds. -/
def widest : Decimal := ⟨50400 * Decimal.one, by unfold Decimal.Fits Decimal.one; decide⟩

def compare (a b : DateTime) : Option Ordering :=
  if a.offset.isSome = b.offset.isSome then some (a.seconds.compare b.seconds)
  else
    let (later, earlier) := if a.offset.isSome
      then ((b.seconds.add widest).map a.seconds.compare,
        (b.seconds.sub widest).map a.seconds.compare)
      else ((a.seconds.add widest).map (·.compare b.seconds),
        (a.seconds.sub widest).map (·.compare b.seconds))
    if later = earlier then later else none

/-! ### Reading -/

/-- Reads the next character, which must be this one. -/
def expect (c : Char) : List Char → Option (List Char)
  | d :: cs => if c = d then some cs else none
  | [] => none

/-- Reads a number of two digits up to a greatest value. -/
def readTwo (greatest : Nat) (cs : List Char) : Option (Nat × List Char) :=
  let (digits, rest) := Digits.span cs
  let n := Digits.toNat digits
  if digits.length = 2 ∧ n ≤ greatest then some (n, rest) else none

/-- A year has at least four digits, and only four if it starts with a zero. -/
def readYear (cs : List Char) : Option (Int × List Char) :=
  let (negative, cs) := match cs with
    | '-' :: cs => (true, cs)
    | cs => (false, cs)
  let (digits, rest) := Digits.span cs
  if digits.length < 4 ∨ (4 < digits.length ∧ digits.head? = some '0') then none
  else (Integer.ofInt? (Digits.toNat digits)).map fun year =>
    (if negative then -year.toInt else year.toInt, rest)

/-- Seconds have two digits before the point; a point must be followed by digits. -/
def readSecond (cs : List Char) : Option (Decimal × List Char) := do
  let (whole, rest) := Digits.span cs
  let (text, rest) ← match rest with
    | '.' :: more =>
      let (fraction, rest) := Digits.span more
      if fraction.isEmpty then none else some (whole ++ '.' :: fraction, rest)
    | _ => some (whole, rest)
  let second ← (Decimal.readMagnitude? text).bind fun n => Decimal.ofUnits? n
  if whole.length = 2 ∧ second.units < 60 * Decimal.one then some (second, rest) else none

/-- Reads an offset of at most fourteen hours. -/
def readOffset : List Char → Option (Int × List Char)
  | 'Z' :: cs => some (0, cs)
  | cs => do
    let (negative, cs) := match cs with
      | '-' :: cs => (true, cs)
      | '+' :: cs => (false, cs)
      | cs => (false, cs)
    let (hours, cs) ← readTwo 14 cs
    let cs ← expect ':' cs
    let (minutes, cs) ← readTwo 59 cs
    if hours = 14 ∧ minutes ≠ 0 then none
    else
      let offset : Int := hours * 60 + minutes
      some (if negative then -offset else offset, cs)

/-- Reads `year-month-dayThour:minute:second` with an optional offset. The last hour of a day is
24 only with no minutes or no seconds after it. -/
def readChars? (cs : List Char) : Option DateTime := do
  let (year, cs) ← readYear cs
  let (month, cs) ← readTwo 12 (← expect '-' cs)
  let (day, cs) ← readTwo 31 (← expect '-' cs)
  let (hour, cs) ← readTwo 24 (← expect 'T' cs)
  let (minute, cs) ← readTwo 59 (← expect ':' cs)
  let (second, cs) ← readSecond (← expect ':' cs)
  if month = 0 ∨ day = 0 ∨ Calendar.daysInMonth year month < day then none
  else if hour = 24 ∧ minute ≠ 0 ∧ second.units ≠ 0 then none
  else if cs.isEmpty then ofParts? year month day hour minute second none
  else
    let (offset, cs) ← readOffset cs
    if cs.isEmpty then ofParts? year month day hour minute second (some offset) else none

def read? (text : String) : Option DateTime := readChars? text.toList

/-! ### Writing -/

/-- Writes the seconds of a minute, of which there are `units` of 10⁻¹⁸. -/
def renderSecond (units : Nat) : List Char :=
  let text := Positional.render units (-18)
  if units < Nat.pow 10 19 then '0' :: text else text

def renderOffset (offset : Int) : List Char :=
  if offset = 0 then ['Z']
  else (if offset < 0 then '-' else '+') ::
    (Digits.padded 2 (offset.natAbs / 60) ++ ':' :: Digits.padded 2 (offset.natAbs % 60))

def renderChars (t : DateTime) : List Char :=
  let units := t.seconds.units + 60 * t.offset.getD 0 * Decimal.one
  let minutes := units / (60 * Decimal.one)
  let (year, month, day) := Calendar.dateOf (minutes / 1440)
  let inDay := (minutes % 1440).toNat
  (if year < 0 then ['-'] else []) ++ Digits.padded 4 year.natAbs
    ++ '-' :: Digits.padded 2 month ++ '-' :: Digits.padded 2 day
    ++ 'T' :: Digits.padded 2 (inDay / 60) ++ ':' :: Digits.padded 2 (inDay % 60)
    ++ ':' :: renderSecond (units % (60 * Decimal.one)).toNat
    ++ (t.offset.map renderOffset).getD []

def render (t : DateTime) : String := String.ofList t.renderChars

end DateTime

end GraphQuery
