import GraphQuery.Text.Digits

/-! Binary floating point of a given precision. A number is its exact value `± mantissa · 2 ^
exponent`, so every operation computes an exact ratio and rounds it once, to the nearest number of
the format and to the even one of two. -/

namespace GraphQuery

/-- The number of bits of a mantissa, and the exponent of the greatest power of two. -/
structure Format where
  precision : Nat
  maxExponent : Nat
deriving DecidableEq

namespace Format

def single : Format := ⟨24, 127⟩

def double : Format := ⟨53, 1023⟩

/-- The exponent of the least significant bit of the smallest numbers. -/
def lowest (f : Format) : Int := 2 - f.maxExponent - f.precision

/-- The exponent of the least significant bit of the greatest numbers. -/
def highest (f : Format) : Int := f.maxExponent + 1 - f.precision

/-- The mantissa and exponent of a number of the format: all bits of the precision are in use
unless the exponent is the lowest one. -/
def Holds (f : Format) (mantissa : Nat) (exponent : Int) : Prop :=
  mantissa < Nat.pow 2 f.precision ∧ f.lowest ≤ exponent ∧ exponent ≤ f.highest ∧
    (Nat.pow 2 f.precision ≤ 2 * mantissa ∨ exponent = f.lowest)

instance (f : Format) (mantissa : Nat) (exponent : Int) :
    Decidable (f.Holds mantissa exponent) := by
  unfold Holds; infer_instance

end Format

inductive Binary (f : Format) where
  | nan
  | infinite (negative : Bool)
  | finite (negative : Bool) (mantissa : Nat) (exponent : Int) (holds : f.Holds mantissa exponent)
deriving DecidableEq

/-- A floating point number of 32 bits. -/
abbrev Single := Binary .single

/-- A floating point number of 64 bits. -/
abbrev Double := Binary .double

namespace Binary

variable {f : Format}

/-- The number with these parts, or infinity if they are none of the format. -/
def ofParts (f : Format) (negative : Bool) (mantissa : Nat) (exponent : Int) : Binary f :=
  if h : f.Holds mantissa exponent then .finite negative mantissa exponent h else .infinite negative

/-- The greatest exponent of a power of two that is not above `num / den`. -/
def magnitude (num den : Nat) : Int :=
  let guess : Int := num.log2 - den.log2
  if den * Nat.pow 2 guess.toNat ≤ num * Nat.pow 2 (-guess).toNat then guess else guess - 1

/-- The natural number next to `num / den`, the even one of two. -/
def nearest (num den : Nat) : Nat :=
  let quotient := num / den
  let twice := 2 * (num % den)
  if den < twice ∨ (twice = den ∧ quotient % 2 = 1) then quotient + 1 else quotient

/-- The number of the format next to `± num / den`. -/
def ofRatio (f : Format) (negative : Bool) (num den : Nat) : Binary f :=
  if num = 0 then ofParts f negative 0 f.lowest
  else
    let exponent := max f.lowest (magnitude num den + 1 - f.precision)
    let mantissa := nearest (num * Nat.pow 2 (-exponent).toNat) (den * Nat.pow 2 exponent.toNat)
    if mantissa = Nat.pow 2 f.precision then ofParts f negative (mantissa / 2) (exponent + 1)
    else ofParts f negative mantissa exponent

/-- The number of the format next to `± mantissa · 2 ^ exponent`. -/
def ofScaled (f : Format) (negative : Bool) (mantissa : Nat) (exponent : Int) : Binary f :=
  ofRatio f negative (mantissa * Nat.pow 2 exponent.toNat) (Nat.pow 2 (-exponent).toNat)

def ofInt (f : Format) (n : Int) : Binary f := ofRatio f (n < 0) n.natAbs 1

/-- The number of the format next to `± digits · 10 ^ exponent`. Exponents far out of range are
settled without computing the power. -/
def ofDecimal (f : Format) (negative : Bool) (digits : Nat) (exponent : Int) : Binary f :=
  let top := (Digits.ofNat digits).length + exponent
  if digits = 0 ∨ top < -(f.maxExponent + f.precision) then ofParts f negative 0 f.lowest
  else if f.maxExponent + 1 < top then .infinite negative
  else ofRatio f negative (digits * Nat.pow 10 exponent.toNat) (Nat.pow 10 (-exponent).toNat)

/-- The number of another format next to this one. -/
def convert (g : Format) : Binary f → Binary g
  | nan => nan
  | infinite s => infinite s
  | finite s m e _ => ofScaled g s m e

def isNaN : Binary f → Bool
  | nan => true
  | _ => false

def isZero : Binary f → Bool
  | finite _ m _ _ => m == 0
  | _ => false

def neg : Binary f → Binary f
  | nan => nan
  | infinite s => infinite !s
  | finite s m e h => finite (!s) m e h

def abs : Binary f → Binary f
  | nan => nan
  | infinite _ => infinite false
  | finite _ m e h => finite false m e h

/-- A mantissa with its sign, in units of a lower exponent. -/
def signed (negative : Bool) (mantissa : Nat) (exponent unit : Int) : Int :=
  let n : Int := mantissa * Nat.pow 2 (exponent - unit).toNat
  if negative then -n else n

/-- The sum is negative zero only if both operands are negative. -/
def add : Binary f → Binary f → Binary f
  | nan, _ | _, nan => nan
  | infinite s, infinite t => if s = t then infinite s else nan
  | infinite s, _ | _, infinite s => infinite s
  | finite s m e _, finite t n e' _ =>
    let unit := min e e'
    let sum := signed s m e unit + signed t n e' unit
    ofScaled f (if sum = 0 then s && t else sum < 0) sum.natAbs unit

def sub (a b : Binary f) : Binary f := a.add b.neg

def mul : Binary f → Binary f → Binary f
  | nan, _ | _, nan => nan
  | infinite s, infinite t => infinite (s ^^ t)
  | infinite s, finite t m _ _ | finite t m _ _, infinite s =>
    if m = 0 then nan else infinite (s ^^ t)
  | finite s m e _, finite t n e' _ => ofScaled f (s ^^ t) (m * n) (e + e')

def div : Binary f → Binary f → Binary f
  | nan, _ | _, nan => nan
  | infinite _, infinite _ => nan
  | infinite s, finite t _ _ _ => infinite (s ^^ t)
  | finite s _ _ _, infinite t => ofParts f (s ^^ t) 0 f.lowest
  | finite s m e _, finite t n e' _ =>
    if n = 0 then if m = 0 then nan else infinite (s ^^ t)
    else ofRatio f (s ^^ t) (m * Nat.pow 2 (e - e').toNat) (n * Nat.pow 2 (e' - e).toNat)

/-- The order of values: no number is comparable with NaN, and the two zeros are equal. -/
def compare : Binary f → Binary f → Option Ordering
  | nan, _ | _, nan => none
  | infinite s, infinite t => some (if s = t then .eq else if s then .lt else .gt)
  | infinite s, _ => some (if s then .lt else .gt)
  | _, infinite s => some (if s then .gt else .lt)
  | finite s m e _, finite t n e' _ =>
    let unit := min e e'
    some (Ord.compare (signed s m e unit) (signed t n e' unit))

/-- Applies a rounding of the ratio of two whole numbers; the sign is kept, also on zero. -/
def toIntegral (rounding : Int → Int → Int) : Binary f → Binary f
  | finite s m e h =>
    if 0 ≤ e then finite s m e h
    else ofRatio f s (rounding (signed s m 0 0) (Nat.pow 2 (-e).toNat)).natAbs 1
  | x => x

def floor : Binary f → Binary f := toIntegral Int.fdiv

def ceil : Binary f → Binary f := toIntegral fun n d => -(-n).fdiv d

/-- The nearest whole number, the greater one of two. -/
def round : Binary f → Binary f := toIntegral fun n d => (2 * n + d).fdiv (2 * d)

/-- Reads an optional exponent at the end of a number. -/
def readExponent? : List Char → Option Int
  | [] => some 0
  | c :: cs =>
    if c.toLower != 'e' then none
    else match cs with
      | '+' :: ds => (Digits.read? ds).map Int.ofNat
      | '-' :: ds => (Digits.read? ds).map fun n => -Int.ofNat n
      | ds => (Digits.read? ds).map Int.ofNat

/-- Reads a number without sign: the names of infinity and NaN in any case, or digits with an
optional fraction and exponent. -/
def readMagnitude? (f : Format) (negative : Bool) (cs : List Char) : Option (Binary f) :=
  let word := String.ofList (cs.map Char.toLower)
  if word == "inf" || word == "infinity" then some (.infinite negative)
  else if word == "nan" then some .nan
  else
    let (whole, rest) := Digits.span cs
    let (fraction, rest) := match rest with
      | '.' :: ds => Digits.span ds
      | _ => ([], rest)
    if whole.isEmpty && fraction.isEmpty then none
    else (readExponent? rest).map fun e =>
      ofDecimal f negative (Digits.toNat (whole ++ fraction)) (e - fraction.length)

def read? (f : Format) (text : String) : Option (Binary f) :=
  match text.toList with
  | '+' :: cs => readMagnitude? f false cs
  | '-' :: cs => readMagnitude? f true cs
  | cs => readMagnitude? f false cs

end Binary

end GraphQuery
