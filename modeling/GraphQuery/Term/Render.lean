import GraphQuery.Text.Hexadecimal
import GraphQuery.Term.Basic

/-! The text of a term, as it is shown in messages and tables. -/

namespace GraphQuery

/-- Characters with a short escape have it, other control characters are written by number. -/
def escapeChar (c : Char) : List Char :=
  match c with
  | '\x08' => ['\\', 'b']
  | '\t' => ['\\', 't']
  | '\n' => ['\\', 'n']
  | '\x0c' => ['\\', 'f']
  | '\r' => ['\\', 'r']
  | '"' => ['\\', '"']
  | '\\' => ['\\', '\\']
  | c => if c.toNat < 32 ∨ c.toNat = 127 then '\\' :: 'u' :: Hexadecimal.four c.toNat else [c]

def quote (text : String) : String :=
  String.ofList ('"' :: (text.toList.flatMap escapeChar ++ ['"']))

def Iri.render (name : Iri) : String := "<" ++ name.text ++ ">"

def Variable.render (v : Variable) : String := "?" ++ v.name

/-- Strings are shown without their datatype. -/
def Literal.render : Literal → String
  | .typed lexical datatype =>
    if datatype = Iri.xsdString then quote lexical else quote lexical ++ "^^" ++ datatype.render
  | .tagged lexical language => quote lexical ++ "@" ++ language

def Term.render : Term → String
  | .iri name => name.render
  | .blank label => "_:" ++ label
  | .literal l => l.render
  | .object label _ | .snapshot label _ _ _ => "[" ++ label ++ "]"

end GraphQuery
