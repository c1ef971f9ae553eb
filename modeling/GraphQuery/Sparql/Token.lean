import GraphQuery.Iri.Syntax
import GraphQuery.Language.Tag
import GraphQuery.Sparql.Rule

/-! The smallest parts of query texts: variables, names, labels, strings and numbers. -/

namespace GraphQuery.Sparql

open Rule

/-! ### Characters of names -/

def inRanges (ranges : List (Nat × Nat)) (c : Char) : Bool :=
  ranges.any fun (a, b) => a ≤ c.toNat && c.toNat ≤ b

/-- Letters, of which names may consist. -/
def isNameLetter (c : Char) : Bool :=
  c.isAlpha || inRanges [(0xC0, 0xD6), (0xD8, 0xF6), (0xF8, 0x2FF), (0x370, 0x37D),
    (0x37F, 0x1FFF), (0x200C, 0x200D), (0x2070, 0x218F), (0x2C00, 0x2FEF), (0x3001, 0xD7FF),
    (0xF900, 0xFDCF), (0xFDF0, 0xFFFD), (0x10000, 0xEFFFF)] c

def isNameStart (c : Char) : Bool := isNameLetter c || c == '_'

def isMark (c : Char) : Bool := inRanges [(0xB7, 0xB7), (0x300, 0x36F), (0x203F, 0x2040)] c

/-- Characters of variables behind the first one. -/
def isVariableChar (c : Char) : Bool := isNameStart c || c.isDigit || isMark c

def isNameChar (c : Char) : Bool := isVariableChar c || c == '-'

/-- Groups of items behind dots: a name does not end with a dot. -/
def dotted (p : Rule Unit) : Rule Unit := do
  let _ ← many1 (char '.')
  let _ ← many1 p

/-! ### Variables and labels -/

def variableName : Rule Variable := do
  (char '?').or (char '$')
  let name ← taken do
    satisfy fun c => isNameStart c || c.isDigit
    skipWhile isVariableChar
  pure ⟨String.ofList name⟩

/-- A label belongs to one group only. -/
def blankLabel : Rule String := do
  symbol "_:"
  let name ← taken do
    satisfy fun c => isNameStart c || c.isDigit
    skipWhile isNameChar
    let _ ← many (dotted (satisfy isNameChar))
  let label := String.ofList name
  if (← noted Reading.usedLabels).contains label then failure
  note fun s => { s with groupLabels := label :: s.groupLabels }
  pure label

def blankNode : Rule TermPattern :=
  (TermPattern.blank <$> blankLabel).or do
    emptyPair '[' ']'
    inventBlank

/-- Ends a group for the labels seen in it. -/
def closeLabels : Rule Unit :=
  note fun s => { s with usedLabels := s.groupLabels ++ s.usedLabels, groupLabels := [] }

/-! ### Escapes -/

def escapedChar? : Char → Option Char
  | 't' => some '\t'
  | 'b' => some '\x08'
  | 'n' => some '\n'
  | 'r' => some '\r'
  | 'f' => some '\x0c'
  | '"' => some '"'
  | '\'' => some '\''
  | '\\' => some '\\'
  | _ => none

/-- Resolves escapes: characters by their numbers, and others where `short` allows it. -/
def unescape (short : Bool) : List Char → Option (List Char)
  | '\\' :: 'u' :: a :: b :: c :: d :: cs => do
    some ((← Hexadecimal.char? [a, b, c, d]) :: (← unescape short cs))
  | '\\' :: 'U' :: a :: b :: c :: d :: e :: f :: g :: h :: cs => do
    some ((← Hexadecimal.char? [a, b, c, d, e, f, g, h]) :: (← unescape short cs))
  | '\\' :: c :: cs => do
    if short then some ((← escapedChar? c) :: (← unescape short cs)) else none
  | ['\\'] => none
  | c :: cs => (unescape short cs).map (c :: ·)
  | [] => some []

/-! ### Names of resources -/

/-- The text up to a character, which is left out. -/
def upToChar (stop : Char) (cs : List Char) : Option (List Char × List Char) :=
  match cs.span (· != stop) with
  | (text, _ :: rest) => some (text, rest)
  | (_, []) => none

def iriReference : Rule String := do
  char '<'
  let raw ← scan (upToChar '>')
  let text ← ofOption (unescape false raw)
  ofOption (Iri.parse? (← noted Reading.base) (String.ofList text))

/-- The name in front of a colon, which may be empty. -/
def namespaceName : Rule String := do
  let name ← taken do
    let _ ← attempt do
      satisfy isNameLetter
      skipWhile isNameChar
      let _ ← many (dotted (satisfy isNameChar))
  char ':'
  pure (String.ofList name)

/-- A character that stands for itself behind a percent sign or a backslash. -/
def quotedChar : Rule Unit :=
  (do
    char '%'
    satisfy Hexadecimal.isDigit
    satisfy Hexadecimal.isDigit).or do
  char '\\'
  satisfy "_~.-!$&'()*+,;=/?#@%".toList.contains

def localChar : Rule Unit := (satisfy fun c => isNameChar c || c == ':').or quotedChar

/-- The part behind the colon; its backslashes are left out. -/
def localName : Rule String := do
  let name ← taken do
    (satisfy fun c => isNameStart c || c.isDigit || c == ':').or quotedChar
    let _ ← many localChar
    let _ ← attempt (dotted localChar)
  pure (String.ofList (name.filter (· != '\\')))

def namespaceOf (name : String) : Rule String := do
  ofOption ((← noted Reading.namespaces).lookup name)

def absolute (text : String) : Rule String :=
  if Iri.isAbsolute text then pure text else failure

def shortName : Rule String :=
  (do
    let space ← namespaceName
    let name ← localName
    absolute ((← namespaceOf space) ++ name)).or do
  absolute (← namespaceOf (← namespaceName))

def iri : Rule Iri := Iri.mk <$> iriReference.or shortName

/-! ### Literals -/

/-- The text of a string up to its closing mark, which stands once and on the same line. -/
def shortText (mark : Char) : List Char → Option (List Char × List Char)
  | '\\' :: c :: cs => (shortText mark cs).map fun (text, rest) => ('\\' :: c :: text, rest)
  | c :: cs =>
    if c = mark then some ([], cs)
    else if c = '\n' ∨ c = '\r' then none
    else (shortText mark cs).map fun (text, rest) => (c :: text, rest)
  | [] => none

/-- The text of a string up to three closing marks. -/
def longText (mark : Char) : List Char → Option (List Char × List Char)
  | '\\' :: c :: cs => (longText mark cs).map fun (text, rest) => ('\\' :: c :: text, rest)
  | c :: cs =>
    if c = mark ∧ cs.take 2 = [mark, mark] then some ([], cs.drop 2)
    else (longText mark cs).map fun (text, rest) => (c :: text, rest)
  | [] => none

def stringWith (start : String) (text : List Char → Option (List Char × List Char)) :
    Rule String := do
  symbol start
  let raw ← scan text
  String.ofList <$> ofOption (unescape true raw)

def string : Rule String :=
  firstOf [stringWith "'''" (longText '\''), stringWith "\"\"\"" (longText '"'),
    stringWith "'" (shortText '\''), stringWith "\"" (shortText '"')]

/-- A language tag in lower case. -/
def languageTag : Rule String := do
  char '@'
  let tag ← taken do
    satisfy Char.isAlpha
    skipWhile Char.isAlpha
    let _ ← many do
      char '-'
      satisfy Char.isAlphanum
      skipWhile Char.isAlphanum
  let tag := String.ofList (tag.map Char.toLower)
  if Language.isTag tag then pure tag else failure

def stringLiteral : Rule Literal := do
  let text ← string
  firstOf [
    do
      space
      symbol "^^"
      space
      Literal.typed text <$> iri,
    do
      space
      Literal.tagged text <$> languageTag,
    pure (.simple text)]

def digits : Rule Unit := do
  satisfy Char.isDigit
  skipWhile Char.isDigit

def exponent : Rule Unit := do
  satisfy fun c => c == 'e' || c == 'E'
  let _ ← attempt (satisfy fun c => c == '+' || c == '-')
  digits

def double : Rule Unit := do
  firstOf [
    do
      digits
      char '.'
      skipWhile Char.isDigit
      exponent,
    do
      char '.'
      digits
      exponent,
    do
      digits
      exponent]

def decimal : Rule Unit := do
  skipWhile Char.isDigit
  char '.'
  digits

/-- A number behind an optional sign; the sign belongs to its text, and space may follow it. -/
def numberWith (sign : Rule Unit) : Rule Literal :=
  firstOf ([(double, Iri.xsdDouble), (decimal, Iri.xsdDecimal), (digits, Iri.xsdInteger)].map
    fun (number, type) => do
      let text ← taken do
        sign
        number
      pure (.typed (String.ofList text) type))

def numericLiteral : Rule Literal :=
  firstOf [numberWith (pure ()), numberWith (spaced (char '+')), numberWith (spaced (char '-'))]

def booleanLiteral : Rule Literal :=
  (do
    symbol "true"
    pure (Literal.ofBool true)).or do
  symbol "false"
  pure (Literal.ofBool false)

/-- A term without variables and blank nodes. -/
def groundTerm : Rule Term :=
  firstOf [Term.iri <$> iri, Term.literal <$> stringLiteral, Term.literal <$> numericLiteral,
    Term.literal <$> booleanLiteral]

def variableOrIri : Rule NodePattern :=
  (NodePattern.var <$> variableName).or ((NodePattern.const ∘ Term.iri) <$> iri)

/-- A number without sign. -/
def natural : Rule Nat := Digits.toNat <$> taken digits

end GraphQuery.Sparql
