import GraphQuery.Number.Binary
import GraphQuery.Number.Positional

/-! The fewest decimal digits that read back as a floating point number. For each number of digits
only the two neighbours of the exact value can be the nearest, so these are tried in turn. -/

namespace GraphQuery.Binary

variable {f : Format}

/-- The decimal exponent of the first digit of `num / den`. -/
def decimalTop (num den : Nat) : Int :=
  if den ≤ num then (Digits.ofNat (num / den)).length - 1
  else -(Digits.ofNat ((den - 1) / num)).length

/-- The `count` leading digits of a value, rounded down, and the exponent of the last of them. -/
def leading (num den count : Nat) : Nat × Int :=
  let exponent := decimalTop num den + 1 - count
  ((num * Nat.pow 10 (-exponent).toNat) / (den * Nat.pow 10 exponent.toNat), exponent)

/-- Of the two neighbours with `count` digits, those that read back as `x`, the nearer one first,
and the greater one of two that are equally near. -/
def candidates (x : Binary f) (negative : Bool) (num den count : Nat) : List (Nat × Int) :=
  let (below, exponent) := leading num den count
  let twice := 2 * num * Nat.pow 10 (-exponent).toNat
  let middle := (2 * below + 1) * (den * Nat.pow 10 exponent.toNat)
  let both := if twice < middle then [below, below + 1] else [below + 1, below]
  (both.map fun digits => (digits, exponent)).filter fun (digits, exponent) =>
    ofDecimal f negative digits exponent == x

/-- Seventeen digits are enough for every number of up to 64 bits; a longer one is written out
exactly. -/
def shortest (x : Binary f) (negative : Bool) (mantissa : Nat) (exponent : Int) : Nat × Int :=
  let num := mantissa * Nat.pow 2 exponent.toNat
  let den := Nat.pow 2 (-exponent).toNat
  match (List.range' 1 17).findSome? fun count => (candidates x negative num den count).head? with
  | some found => found
  | none => (num * Nat.pow 5 (-exponent).toNat, min exponent 0)

def renderChars : Binary f → List Char
  | nan => "NaN".toList
  | infinite s => if s then "-INF".toList else "INF".toList
  | finite s m e h =>
    let digits :=
      if m = 0 then ['0']
      else
        let (digits, exponent) := shortest (.finite s m e h) s m e
        Positional.render digits exponent
    if s then '-' :: digits else digits

/-- Writes a number with the fewest digits that read back as it, never with an exponent. -/
def render (x : Binary f) : String := String.ofList x.renderChars

end GraphQuery.Binary
