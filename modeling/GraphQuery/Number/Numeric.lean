import GraphQuery.Number.Decimal
import GraphQuery.Number.Shortest

/-! The four types of numbers, in the order in which they are promoted: integer, decimal, float,
double. An operation on two numbers works in the later of their types. -/

namespace GraphQuery

/-- The decimal with as many factors of ten taken out as numerator and scale share. -/
def Decimal.reduced : Nat → Int → Nat → Int × Nat
  | 0, units, scale => (units, scale)
  | fuel + 1, units, scale =>
    if scale ≠ 1 ∧ units % 10 = 0 then Decimal.reduced fuel (units / 10) (scale / 10)
    else (units, scale)

/-- The quotient of the rounded numerator and the rounded scale. -/
def Decimal.toDouble (a : Decimal) : Double :=
  let (units, scale) := Decimal.reduced 18 a.units (Nat.pow 10 18)
  (Binary.ofInt .double units).div (Binary.ofInt .double scale)

/-- Goes through the double, and so rounds twice. -/
def Decimal.toSingle (a : Decimal) : Single := a.toDouble.convert .single

inductive Numeric where
  | integer (value : Int64)
  | decimal (value : Decimal)
  | float (value : Single)
  | double (value : Double)
deriving DecidableEq

namespace Numeric

/-- Two numbers of one type. -/
inductive Pair where
  | integers (a b : Int64)
  | decimals (a b : Decimal)
  | floats (a b : Single)
  | doubles (a b : Double)
deriving DecidableEq

def toDouble : Numeric → Double
  | integer a => Binary.ofInt .double a.toInt
  | decimal a => a.toDouble
  | float a => a.convert .double
  | double a => a

/-- Promotes two numbers to the later of their types. -/
def promote : Numeric → Numeric → Pair
  | integer a, integer b => .integers a b
  | integer a, decimal b => .decimals (.ofInteger a) b
  | decimal a, integer b => .decimals a (.ofInteger b)
  | decimal a, decimal b => .decimals a b
  | float a, integer b => .floats a (Binary.ofInt .single b.toInt)
  | integer a, float b => .floats (Binary.ofInt .single a.toInt) b
  | float a, decimal b => .floats a b.toSingle
  | decimal a, float b => .floats a.toSingle b
  | float a, float b => .floats a b
  | double a, b => .doubles a b.toDouble
  | a, double b => .doubles a.toDouble b

/-- The two numbers of a pair. -/
def Pair.members : Pair → Numeric × Numeric
  | .integers a b => (.integer a, .integer b)
  | .decimals a b => (.decimal a, .decimal b)
  | .floats a b => (.float a, .float b)
  | .doubles a b => (.double a, .double b)

def isZero : Numeric → Bool
  | integer a => a == 0
  | decimal a => a.units == 0
  | float a => a.isZero
  | double a => a.isZero

def isNaN : Numeric → Bool
  | float a => a.isNaN
  | double a => a.isNaN
  | _ => false

def add (a b : Numeric) : Option Numeric :=
  match promote a b with
  | .integers a b => (Integer.add a b).map integer
  | .decimals a b => (a.add b).map decimal
  | .floats a b => some (float (a.add b))
  | .doubles a b => some (double (a.add b))

def sub (a b : Numeric) : Option Numeric :=
  match promote a b with
  | .integers a b => (Integer.sub a b).map integer
  | .decimals a b => (a.sub b).map decimal
  | .floats a b => some (float (a.sub b))
  | .doubles a b => some (double (a.sub b))

def mul (a b : Numeric) : Option Numeric :=
  match promote a b with
  | .integers a b => (Integer.mul a b).map integer
  | .decimals a b => (a.mul b).map decimal
  | .floats a b => some (float (a.mul b))
  | .doubles a b => some (double (a.mul b))

/-- The quotient of two integers is a decimal. -/
def div (a b : Numeric) : Option Numeric :=
  match promote a b with
  | .integers a b => ((Decimal.ofInteger a).div (.ofInteger b)).map decimal
  | .decimals a b => (a.div b).map decimal
  | .floats a b => some (float (a.div b))
  | .doubles a b => some (double (a.div b))

def neg : Numeric → Option Numeric
  | integer a => (Integer.neg a).map integer
  | decimal a => a.neg.map decimal
  | float a => some (float a.neg)
  | double a => some (double a.neg)

def abs : Numeric → Option Numeric
  | integer a => (Integer.abs a).map integer
  | decimal a => a.abs.map decimal
  | float a => some (float a.abs)
  | double a => some (double a.abs)

def floor : Numeric → Option Numeric
  | integer a => some (integer a)
  | decimal a => a.floor.map decimal
  | float a => some (float a.floor)
  | double a => some (double a.floor)

def ceil : Numeric → Option Numeric
  | integer a => some (integer a)
  | decimal a => a.ceil.map decimal
  | float a => some (float a.ceil)
  | double a => some (double a.ceil)

def round : Numeric → Option Numeric
  | integer a => some (integer a)
  | decimal a => a.round.map decimal
  | float a => some (float a.round)
  | double a => some (double a.round)

/-- Compares two numbers by value; NaN is comparable with none. -/
def compare (a b : Numeric) : Option Ordering :=
  match promote a b with
  | .integers a b => some (Ord.compare a.toInt b.toInt)
  | .decimals a b => some (a.compare b)
  | .floats a b => a.compare b
  | .doubles a b => a.compare b

def render : Numeric → String
  | integer a => Integer.render a
  | decimal a => a.render
  | float a => a.render
  | double a => a.render

end Numeric

end GraphQuery
