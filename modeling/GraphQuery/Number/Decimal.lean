import GraphQuery.Number.Positional
import GraphQuery.Number.Integer

/-! Decimals with eighteen places: a whole number of units of 10⁻¹⁸ that fits in 128 bits.
An operation has no value if its result does not fit, and a product has none if it needs more
places. -/

namespace GraphQuery

/-- The units of 10⁻¹⁸ in one. -/
def Decimal.one : Int := 1000000000000000000

/-- Two to the power of 127. -/
def Decimal.bound : Int := 170141183460469231731687303715884105728

def Decimal.Fits (units : Int) : Prop := -Decimal.bound ≤ units ∧ units < Decimal.bound

instance (units : Int) : Decidable (Decimal.Fits units) := by
  unfold Decimal.Fits; infer_instance

structure Decimal where
  units : Int
  fits : Decimal.Fits units
deriving DecidableEq

namespace Decimal

def ofUnits? (units : Int) : Option Decimal :=
  if h : Fits units then some ⟨units, h⟩ else none

/-- The decimal of a whole number of any size. -/
def ofInt? (n : Int) : Option Decimal := ofUnits? (n * one)

theorem fits_of_int64 (n : Int64) : Fits (n.toInt * one) := by
  have h₁ := Int64.le_toInt n
  have h₂ := Int64.toInt_lt n
  unfold Fits bound one
  omega

def ofInteger (n : Int64) : Decimal := ⟨n.toInt * one, fits_of_int64 n⟩

def compare (a b : Decimal) : Ordering := Ord.compare a.units b.units

def add (a b : Decimal) : Option Decimal := ofUnits? (a.units + b.units)

def sub (a b : Decimal) : Option Decimal := ofUnits? (a.units - b.units)

/-- The product, if eighteen places are enough for it. -/
def mul (a b : Decimal) : Option Decimal :=
  let product := a.units * b.units
  if product % one = 0 then ofUnits? (product / one) else none

def neg (a : Decimal) : Option Decimal := ofUnits? (-a.units)

def abs (a : Decimal) : Option Decimal := ofUnits? a.units.natAbs

/-- Multiplies by ten as often as the result fits; the second component counts how often. -/
def widen : Nat → Int → Int × Nat
  | 0, n => (n, 0)
  | fuel + 1, n =>
    if Fits (n * 10) then
      let (m, k) := widen fuel (n * 10)
      (m, k + 1)
    else (n, 0)

/-- Divides by ten as often as no remainder is left; the second component counts how often. -/
def narrow : Nat → Int → Int × Nat
  | 0, n => (n, 0)
  | fuel + 1, n =>
    if n % 10 = 0 then
      let (m, k) := narrow fuel (n / 10)
      (m, k + 1)
    else (n, 0)

/-- The quotient, cut after the eighteenth place. It is computed from the widest dividend and
the narrowest divisor, so it has no value if the two leave fewer than eighteen places, or so
many that the scale itself does not fit. -/
def div (a b : Decimal) : Option Decimal :=
  if b.units = 0 then none
  else
    let (left, up) := if a.units = 0 then (0, 0) else widen 39 a.units
    let (right, down) := narrow 39 b.units
    if up + down < 18 ∨ 38 < up + down - 18 then none
    else
      (ofUnits? (left.tdiv right)).bind fun q =>
        ofUnits? (q.units.tdiv (Nat.pow 10 (up + down - 18)))

def floor (a : Decimal) : Option Decimal := ofUnits? (a.units.fdiv one * one)

def ceil (a : Decimal) : Option Decimal := ofUnits? (-((-a.units).fdiv one) * one)

/-- The nearest whole number, the greater one of two. -/
def round (a : Decimal) : Option Decimal := ofUnits? ((a.units + one / 2).fdiv one * one)

/-- Reads the digits before and after a point, of which at least one must be there. Zeros at
the end of the fraction do not count towards its eighteen places. -/
def readMagnitude? (cs : List Char) : Option Nat :=
  let (whole, rest) := Digits.span cs
  match rest with
  | [] => if whole.isEmpty then none else some (Digits.toNat whole * Nat.pow 10 18)
  | '.' :: fraction =>
    if whole.isEmpty && fraction.isEmpty then none
    else
      let places := Positional.trimZeros fraction
      if places.all Char.isDigit && places.length ≤ 18 then
        some (Digits.toNat (whole ++ places) * Nat.pow 10 (18 - places.length))
      else none
  | _ => none

def read? (text : String) : Option Decimal :=
  match text.toList with
  | '+' :: cs => (readMagnitude? cs).bind (ofUnits? ·)
  | '-' :: cs => (readMagnitude? cs).bind fun n => ofUnits? (-n)
  | cs => (readMagnitude? cs).bind (ofUnits? ·)

def renderChars (a : Decimal) : List Char :=
  let magnitude := Positional.render a.units.natAbs (-18)
  if a.units < 0 then '-' :: magnitude else magnitude

def render (a : Decimal) : String := String.ofList a.renderChars

end Decimal

end GraphQuery
