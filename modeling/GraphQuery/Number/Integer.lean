import GraphQuery.Text.Digits

/-! Whole numbers of 64 bits. An operation whose result does not fit has no value. -/

namespace GraphQuery.Integer

/-- Two to the power of 63. -/
def bound : Int := 9223372036854775808

/-- The number of this value, if it fits. -/
def ofInt? (n : Int) : Option Int64 :=
  if -bound ≤ n ∧ n < bound then some (Int64.ofInt n) else none

def add (a b : Int64) : Option Int64 := ofInt? (a.toInt + b.toInt)

def sub (a b : Int64) : Option Int64 := ofInt? (a.toInt - b.toInt)

def mul (a b : Int64) : Option Int64 := ofInt? (a.toInt * b.toInt)

def neg (a : Int64) : Option Int64 := ofInt? (-a.toInt)

def abs (a : Int64) : Option Int64 := ofInt? a.toInt.natAbs

/-- Reads digits with an optional sign in front. -/
def readChars? : List Char → Option Int
  | '+' :: cs => (Digits.read? cs).map Int.ofNat
  | '-' :: cs => (Digits.read? cs).map fun n => -Int.ofNat n
  | cs => (Digits.read? cs).map Int.ofNat

def read? (text : String) : Option Int64 := (readChars? text.toList).bind ofInt?

def renderChars (n : Int) : List Char :=
  if n < 0 then '-' :: Digits.ofNat n.natAbs else Digits.ofNat n.natAbs

def render (n : Int64) : String := String.ofList (renderChars n.toInt)

end GraphQuery.Integer
