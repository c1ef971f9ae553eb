/-! Decimal digits of natural numbers, most significant first, and reading them back. -/

namespace GraphQuery.Digits

/-- The character of a digit below ten. -/
def char (d : Nat) : Char := Char.ofNat (48 + d)

/-- The number that a digit stands for. -/
def value (c : Char) : Nat := c.toNat - 48

/-- Prepends the digits of `n` to `rest`; `n` has at most `n + 1` of them. -/
def prepend : Nat → Nat → List Char → List Char
  | 0, _, rest => rest
  | fuel + 1, n, rest =>
    if n < 10 then char n :: rest else prepend fuel (n / 10) (char (n % 10) :: rest)

/-- The digits of `n`, without leading zeros. -/
def ofNat (n : Nat) : List Char := prepend (n + 1) n []

/-- The number that a row of digits stands for. -/
def toNat (cs : List Char) : Nat := cs.foldl (fun n c => 10 * n + value c) 0

/-- The digits at the front of a text, and what follows them. -/
def span (cs : List Char) : List Char × List Char := cs.span Char.isDigit

/-- Reads a text of digits only; the empty text is refused. -/
def read? (cs : List Char) : Option Nat :=
  if !cs.isEmpty && cs.all Char.isDigit then some (toNat cs) else none

/-- The digits of `n` with zeros in front up to `width` characters. -/
def padded (width n : Nat) : List Char :=
  let ds := ofNat n
  List.replicate (width - ds.length) '0' ++ ds

end GraphQuery.Digits
