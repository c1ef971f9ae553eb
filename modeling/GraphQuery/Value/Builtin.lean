import GraphQuery.Iri.Syntax
import GraphQuery.Language.Tag
import GraphQuery.Regex.Reader
import GraphQuery.Value.Operators

/-! The built-in functions on terms. A call with a wrong number or kind of arguments has no
value. -/

namespace GraphQuery

inductive Builtin where
  | str
  | lang
  | langMatches
  | datatype
  | iri
  | strLen
  | subStr
  | upperCase
  | lowerCase
  | strStarts
  | strEnds
  | contains
  | concat
  | regex
  | abs
  | ceil
  | floor
  | round
  | isIri
  | isBlank
  | isLiteral
  | isNumeric
  | strDatatype
  | strLanguage
deriving DecidableEq

/-- The text of a name or a literal. -/
def Term.lexical? : Term → Option String
  | .iri name => some name.text
  | .literal l => some l.lexical
  | _ => none

/-- The integer that a literal stands for. -/
def Term.integer? (t : Term) : Option Int :=
  match t.numeric? with
  | some (.integer n) => some n.toInt
  | _ => none

namespace Builtin

def ofText (text : String) (language : Option String) : Term :=
  match language with
  | some l => .literal (.tagged text l)
  | none => .literal (.simple text)

/-- Applies a function to the characters of a string and keeps its language. -/
def mapText (f : List Char → List Char) (t : Term) : Option Term :=
  t.string?.map fun (text, language) => ofText (String.ofList (f text.toList)) language

/-- Two strings may be searched in one another if the second has no language or that of the
first. -/
def compatible? (a b : Term) : Option (List Char × List Char) := do
  let (s, l) ← a.string?
  let (t, m) ← b.string?
  if m.isNone ∨ l = m then some (s.toList, t.toList) else none

/-- Whether a list occurs in another one. -/
def occursIn (part : List Char) : List Char → Bool
  | [] => part.isEmpty
  | c :: cs => part.isPrefixOf (c :: cs) || occursIn part cs

/-- Takes characters from a position that counts from one. -/
def slice (source start : Term) (length : Option Term) : Option Term := do
  let (text, language) ← source.string?
  let start ← start.integer?
  let length ← match length with
    | none => some none
    | some t => t.integer?.map some
  if start < 1 ∨ length.any (· < 0) then none
  else
    let rest := text.toList.drop (start.toNat - 1)
    some (ofText (String.ofList ((length.map fun n => rest.take n.toNat).getD rest)) language)

/-- The language that all strings of a list share. -/
def commonLanguage : List (Option String) → Option String
  | [] => none
  | l :: ls => if ls.all (· == l) then l else none

def concatenate (args : List Term) : Option Term := do
  let strings ← args.mapM Term.string?
  some (ofText (String.join (strings.map Prod.fst)) (commonLanguage (strings.map Prod.snd)))

def search (text pattern : Term) (flags : Option Term) : Option Term := do
  let (text, _) ← text.string?
  let pattern ← pattern.plain?
  let flags ← match flags with
    | none => some ""
    | some t => t.plain?
  let r ← Regex.ofPattern? pattern flags
  some (.ofBool (r.isMatch text))

def onNumber (f : Numeric → Option Numeric) (t : Term) : Option Term := do
  some (.literal (← f (← t.numeric?)).toLiteral)

/-- A name is left as it is, a string must be the text of one. -/
def toIri (t : Term) : Option Term :=
  match t with
  | .iri _ => some t
  | t => t.plain?.bind fun text => if Iri.isAbsolute text then some (.iri ⟨text⟩) else none

def withLanguage (text language : Term) : Option Term := do
  let text ← text.plain?
  let language ← language.plain?
  let tag := String.ofList (language.toList.map Char.toLower)
  if Language.isTag tag then some (.literal (.tagged text tag)) else none

def withDatatype (text datatype : Term) : Option Term := do
  some (.literal (.typed (← text.plain?) (← datatype.iri?)))

def apply : Builtin → List Term → Option Term
  | str, [t] => t.lexical?.map fun s => .literal (.simple s)
  | lang, [t] => t.literal?.map fun l => .literal (.simple (l.language.getD ""))
  | langMatches, [tag, range] => do
    some (.ofBool (Language.matches (← tag.plain?) (← range.plain?)))
  | datatype, [t] => t.literal?.map fun l => .iri l.datatype
  | iri, [t] => toIri t
  | strLen, [t] => do
    let (text, _) ← t.string?
    some (.literal (.ofInt64 (← Integer.ofInt? text.toList.length)))
  | subStr, [source, start] => slice source start none
  | subStr, [source, start, length] => slice source start (some length)
  | upperCase, [t] => mapText Case.upper t
  | lowerCase, [t] => mapText Case.lower t
  | strStarts, [a, b] => (compatible? a b).map fun (s, t) => .ofBool (t.isPrefixOf s)
  | strEnds, [a, b] => (compatible? a b).map fun (s, t) => .ofBool (t.isSuffixOf s)
  | contains, [a, b] => (compatible? a b).map fun (s, t) => .ofBool (occursIn t s)
  | concat, args => concatenate args
  | regex, [text, pattern] => search text pattern none
  | regex, [text, pattern, flags] => search text pattern (some flags)
  | abs, [t] => onNumber Numeric.abs t
  | ceil, [t] => onNumber Numeric.ceil t
  | floor, [t] => onNumber Numeric.floor t
  | round, [t] => onNumber Numeric.round t
  | isIri, [t] => some (.ofBool t.isIri)
  | isBlank, [t] => some (.ofBool t.isBlank)
  | isLiteral, [t] => some (.ofBool t.isLiteral)
  | isNumeric, [t] => some (.ofBool t.numeric?.isSome)
  | strDatatype, [text, type] => withDatatype text type
  | strLanguage, [text, language] => withLanguage text language
  | _, _ => none

end Builtin

end GraphQuery
