import GraphQuery.Term.Canonical

/-! The values that operators see in terms. A literal whose datatype is not known, or whose
lexical form is not valid, has no value of its own. -/

namespace GraphQuery

inductive Value where
  | iri (name : Iri)
  | blank
  | boolean (b : Bool)
  | numeric (n : Numeric)
  | string (text : String) (language : Option String)
  | dateTime (t : DateTime)
  | other
  | object
deriving DecidableEq

namespace Value

def ofTyped (lexical : String) (datatype : Iri) : Value :=
  let value? : Option Value :=
    if datatype = Iri.xsdString then some (string lexical none)
    else if datatype = Iri.xsdBoolean then (readBoolean? lexical).map boolean
    else if Iri.integerTypes.contains datatype then
      (Integer.read? lexical).map fun n => numeric (.integer n)
    else if datatype = Iri.xsdDecimal then (Decimal.read? lexical).map fun d => numeric (.decimal d)
    else if datatype = Iri.xsdFloat then
      (Binary.read? .single lexical).map fun x => numeric (.float x)
    else if datatype = Iri.xsdDouble then
      (Binary.read? .double lexical).map fun x => numeric (.double x)
    else if datatype = Iri.xsdDateTime then (DateTime.read? lexical).map dateTime
    else none
  value?.getD other

def ofLiteral : Literal → Value
  | .typed lexical datatype => ofTyped lexical datatype
  | .tagged lexical language => string lexical (some language)

def ofTerm : Term → Value
  | .iri name => iri name
  | .blank _ => blank
  | .literal l => ofLiteral l
  | .object _ _ | .snapshot _ _ _ _ => object

def numeric? : Value → Option Numeric
  | numeric n => some n
  | _ => none

def string? : Value → Option (String × Option String)
  | string text language => some (text, language)
  | _ => none

def isLanguageString : Value → Bool
  | string _ (some _) => true
  | _ => false

/-- Whether the value is that of a literal. -/
def isLiteral : Value → Bool
  | iri _ | blank | object => false
  | _ => true

/-- The truth of a value in a condition, if it has one. -/
def truth? : Value → Option Bool
  | boolean b => some b
  | numeric n => some (!n.isZero && !n.isNaN)
  | string text none => some (text ≠ "")
  | _ => none

end Value

def Term.truth? (t : Term) : Option Bool := (Value.ofTerm t).truth?

def Term.numeric? (t : Term) : Option Numeric := (Value.ofTerm t).numeric?

def Term.string? (t : Term) : Option (String × Option String) := (Value.ofTerm t).string?

/-- The text of a string without language. -/
def Term.plain? (t : Term) : Option String :=
  match t.string? with
  | some (text, none) => some text
  | _ => none

def Numeric.datatype : Numeric → Iri
  | integer _ => Iri.xsdInteger
  | decimal _ => Iri.xsdDecimal
  | float _ => Iri.xsdFloat
  | double _ => Iri.xsdDouble

def Numeric.toLiteral (n : Numeric) : Literal := .typed n.render n.datatype

def Literal.ofInt64 (n : Int64) : Literal := .typed (Integer.render n) Iri.xsdInteger

end GraphQuery
