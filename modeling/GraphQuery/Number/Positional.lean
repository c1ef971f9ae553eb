import GraphQuery.Text.Digits

/-! Decimal numbers `digits · 10 ^ exponent` written out in full: never an exponent, no trailing
zeros after the point, and no point without digits after it. -/

namespace GraphQuery.Positional

/-- Drops the zeros at the end of a text. -/
def trimZeros (cs : List Char) : List Char := (cs.reverse.dropWhile (· == '0')).reverse

/-- The digits before and after the point of `digits · 10 ^ (- places)`. -/
def split (digits places : Nat) : List Char × List Char :=
  let ds := Digits.padded (places + 1) digits
  ds.splitAt (ds.length - places)

def render (digits : Nat) (exponent : Int) : List Char :=
  if 0 ≤ exponent then Digits.ofNat (digits * Nat.pow 10 exponent.toNat)
  else
    let (whole, fraction) := split digits (-exponent).toNat
    let fraction := trimZeros fraction
    if fraction.isEmpty then whole else whole ++ '.' :: fraction

end GraphQuery.Positional
