import GraphQuery.Number.Numeric
import GraphQuery.Time.DateTime
import GraphQuery.Term.Basic

/-! Canonical terms. Literals of six datatypes have one canonical lexical form for each value;
two terms are the same if they agree after both are brought into it. -/

namespace GraphQuery

/-- Reads a truth value: a word or a digit. -/
def readBoolean? : String → Option Bool
  | "true" | "1" => some true
  | "false" | "0" => some false
  | _ => none

/-- The canonical form of a lexical form, if the datatype has one and the form is valid. -/
def canonicalForm? (datatype : Iri) (lexical : String) : Option String :=
  if datatype = Iri.xsdInteger then (Integer.read? lexical).map Integer.render
  else if datatype = Iri.xsdDecimal then (Decimal.read? lexical).map Decimal.render
  else if datatype = Iri.xsdDouble then (Binary.read? .double lexical).map Binary.render
  else if datatype = Iri.xsdFloat then (Binary.read? .single lexical).map Binary.render
  else if datatype = Iri.xsdBoolean then
    (readBoolean? lexical).map fun b => if b then "true" else "false"
  else if datatype = Iri.xsdDateTime then (DateTime.read? lexical).map DateTime.render
  else none

def Literal.canonicalForm? (l : Literal) : Option String :=
  GraphQuery.canonicalForm? l.datatype l.lexical

/-- A literal without a canonical form is left as it is. -/
def Literal.canonical : Literal → Literal
  | .typed lexical datatype =>
    .typed ((GraphQuery.canonicalForm? datatype lexical).getD lexical) datatype
  | .tagged lexical language => .tagged lexical language

namespace Term

def canonical : Term → Term
  | literal l => literal l.canonical
  | t => t

/-- Literals are the same if they are equal, or have the same type and the same canonical form;
other terms if they are equal. -/
def same : Term → Term → Bool
  | literal a, literal b =>
    a == b || (a.datatype == b.datatype && a.language == b.language &&
      match a.canonicalForm?, b.canonicalForm? with
      | some x, some y => x == y
      | _, _ => false)
  | a, b => a == b

end Term

end GraphQuery
