/-! Hexadecimal digits: the numbers they stand for, and code points written with four of them. -/

namespace GraphQuery.Hexadecimal

/-- The number that a digit stands for, in either case. -/
def value? (c : Char) : Option Nat :=
  if '0' ≤ c ∧ c ≤ '9' then some (c.toNat - 48)
  else if 'a' ≤ c ∧ c ≤ 'f' then some (c.toNat - 87)
  else if 'A' ≤ c ∧ c ≤ 'F' then some (c.toNat - 55)
  else none

def isDigit (c : Char) : Bool := (value? c).isSome

/-- The digit of a number below sixteen, in upper case. -/
def char (d : Nat) : Char := if d < 10 then Char.ofNat (48 + d) else Char.ofNat (55 + d)

/-- The last four digits of a number. -/
def four (n : Nat) : List Char :=
  [char (n / 4096 % 16), char (n / 256 % 16), char (n / 16 % 16), char (n % 16)]

/-- The number of a row of digits. -/
def toNat? (cs : List Char) : Option Nat :=
  cs.foldlM (fun n c => (value? c).map (16 * n + ·)) 0

/-- The character with this number in hexadecimal, if there is one. -/
def char? (cs : List Char) : Option Char :=
  (toNat? cs).bind fun n => if n.isValidChar then some (Char.ofNat n) else none

end GraphQuery.Hexadecimal
