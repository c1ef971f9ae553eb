import GraphQuery.Algebra.Sameness
import GraphQuery.Sparql.Token

/-! Reading of expressions. Expressions and groups of patterns hold one another; here the rules
of what is nested are arguments. -/

namespace GraphQuery.Sparql

open Rule

/-! ### Arguments -/

def openList : Rule Unit := spaced (symbol "(")

def comma : Rule Unit := spaced (symbol ",")

/-- A list of expressions in parentheses, which may be empty. -/
def arguments (expression : Rule AlgebraExpr) : Rule (List AlgebraExpr) :=
  (do
    openList
    let args ← separated comma (spaced expression)
    symbol ")"
    pure args).or do
  emptyPair '(' ')'
  pure []

/-- Expressions with commas between them. -/
def row (expression : Rule AlgebraExpr) : Nat → Rule (List AlgebraExpr)
  | 0 => pure []
  | 1 => return [← spaced expression]
  | n + 1 => do
    let a ← spaced expression
    comma
    (a :: ·) <$> row expression n

/-- A given number of expressions in parentheses. -/
def fixedArguments (expression : Rule AlgebraExpr) (count : Nat) : Rule (List AlgebraExpr) :=
  match count with
  | 0 => do
    emptyPair '(' ')'
    pure []
  | n => do
    openList
    let args ← row expression n
    symbol ")"
    pure args

/-! ### Aggregates -/

/-- The variable of an aggregate of the innermost select clause. Aggregates that are written alike
share one. -/
def aggregateVariable (a : AlgebraAggregate) : Rule Variable := do
  match ← noted Reading.aggregates with
  | [] => failure
  | frame :: frames =>
    match frame.find? (·.2.sameAs a) with
    | some (v, _) => pure v
    | none => do
      let v ← inventVariable
      note fun s => { s with aggregates := (frame ++ [(v, a)]) :: frames }
      pure v

def aggregateNames : List (String × AggregateName) :=
  [("COUNT", .count), ("SUM", .sum), ("MIN", .min), ("MAX", .max), ("AVG", .avg),
    ("SAMPLE", .sample)]

/-- Reads the word for distinct values, or nothing. -/
def distinctly (distinct : Bool) : Rule Unit :=
  if distinct then spaced (word "DISTINCT") else pure ()

def countSolutions (distinct : Bool) : Rule AlgebraAggregate := do
  spaced (word "COUNT")
  openList
  distinctly distinct
  spaced (symbol "*")
  symbol ")"
  pure (.solutions distinct)

/-- An aggregate of an expression, behind its name. -/
def applied (expression : Rule AlgebraExpr) (f : AggregateName) (distinct : Bool) :
    Rule AlgebraAggregate := do
  space
  openList
  distinctly distinct
  let e ← spaced expression
  symbol ")"
  pure (.apply f e distinct)

def concatenation (expression : Rule AlgebraExpr) (distinct : Bool) :
    Rule AlgebraAggregate := do
  spaced (word "GROUP_CONCAT")
  openList
  distinctly distinct
  let e ← spaced expression
  spaced (symbol ";")
  spaced (word "SEPARATOR")
  spaced (symbol "=")
  let separator ← spaced string
  symbol ")"
  pure (.apply (.groupConcat (some separator)) e distinct)

def aggregate (expression : Rule AlgebraExpr) : Rule AlgebraAggregate :=
  let named (name : String) (f : AggregateName) (distinct : Bool) : Rule AlgebraAggregate := do
    word name
    applied expression f distinct
  firstOf <|
    [countSolutions true, countSolutions false]
      ++ aggregateNames.flatMap (fun (name, f) => [named name f true, named name f false])
      ++ [concatenation expression true, named "GROUP_CONCAT" (.groupConcat none) true,
        concatenation expression false, named "GROUP_CONCAT" (.groupConcat none) false,
        do
          let name ← iri
          applied expression (.custom name) true]

/-! ### Functions of the language -/

/-- How a function is called: its word, whether space may follow it, and the number of its
arguments, if that is fixed. -/
structure CallForm where
  word : String
  function : FunctionName
  arity : Option Nat := some 1
  looseWord : Bool := true

/-- A function that the language has and this library has not. -/
def CallForm.missing (word : String) (arity : Nat) : CallForm :=
  { word, function := .missing word, arity := some arity }

/-- The forms of calls; of two forms with one word the first that fits counts. -/
def callForms : List CallForm := [
  ⟨"STR", .builtin .str, some 1, true⟩,
  ⟨"LANG", .builtin .lang, some 1, true⟩,
  ⟨"LANGMATCHES", .builtin .langMatches, some 2, true⟩,
  ⟨"DATATYPE", .builtin .datatype, some 1, true⟩,
  ⟨"IRI", .builtin .iri, some 1, true⟩,
  ⟨"URI", .builtin .iri, some 1, true⟩,
  ⟨"BNODE", .missing "BNODE", some 1, false⟩,
  ⟨"BNODE", .missing "BNODE", some 0, false⟩,
  .missing "RAND" 0,
  ⟨"ABS", .builtin .abs, some 1, true⟩,
  ⟨"CEIL", .builtin .ceil, some 1, true⟩,
  ⟨"FLOOR", .builtin .floor, some 1, true⟩,
  ⟨"ROUND", .builtin .round, some 1, true⟩,
  ⟨"CONCAT", .builtin .concat, none, false⟩,
  ⟨"STRLEN", .builtin .strLen, some 1, true⟩,
  ⟨"UCASE", .builtin .upperCase, some 1, true⟩,
  ⟨"LCASE", .builtin .lowerCase, some 1, true⟩,
  .missing "ENCODE_FOR_URI" 1,
  ⟨"CONTAINS", .builtin .contains, some 2, true⟩,
  ⟨"STRSTARTS", .builtin .strStarts, some 2, true⟩,
  ⟨"STRENDS", .builtin .strEnds, some 2, true⟩,
  .missing "STRBEFORE" 2, .missing "STRAFTER" 2, .missing "YEAR" 1, .missing "MONTH" 1,
  .missing "DAY" 1, .missing "HOURS" 1, .missing "MINUTES" 1, .missing "SECONDS" 1,
  .missing "TIMEZONE" 1, .missing "TZ" 1, .missing "NOW" 0, .missing "UUID" 0,
  .missing "STRUUID" 0, .missing "MD5" 1, .missing "SHA1" 1, .missing "SHA256" 1,
  .missing "SHA384" 1, .missing "SHA512" 1,
  ⟨"STRLANG", .builtin .strLanguage, some 2, true⟩,
  ⟨"STRDT", .builtin .strDatatype, some 2, true⟩,
  ⟨"isIRI", .builtin .isIri, some 1, true⟩,
  ⟨"isURI", .builtin .isIri, some 1, true⟩,
  ⟨"isBLANK", .builtin .isBlank, some 1, false⟩,
  ⟨"isLITERAL", .builtin .isLiteral, some 1, false⟩,
  ⟨"isNUMERIC", .builtin .isNumeric, some 1, false⟩,
  ⟨"REGEX", .builtin .regex, some 3, true⟩,
  ⟨"REGEX", .builtin .regex, some 2, true⟩,
  ⟨"SUBSTR", .builtin .subStr, some 3, true⟩,
  ⟨"SUBSTR", .builtin .subStr, some 2, true⟩,
  .missing "REPLACE" 4, .missing "REPLACE" 3]

def CallForm.read (expression : Rule AlgebraExpr) (f : CallForm) : Rule AlgebraExpr := do
  Rule.word f.word
  if f.looseWord then space
  let args ← match f.arity with
    | some n => fixedArguments expression n
    | none => arguments expression
  pure (.call f.function args)

def boundTest : Rule AlgebraExpr := do
  spaced (word "BOUND")
  AlgebraExpr.bound <$> between "(" ")" variableName

def coalescing (expression : Rule AlgebraExpr) : Rule AlgebraExpr := do
  word "COALESCE"
  AlgebraExpr.coalesce <$> arguments expression

def conditional (expression : Rule AlgebraExpr) : Rule AlgebraExpr := do
  spaced (word "IF")
  openList
  let test ← spaced expression
  comma
  let yes ← spaced expression
  comma
  let no ← spaced expression
  symbol ")"
  pure (.cond test yes no)

def sameTermTest (expression : Rule AlgebraExpr) : Rule AlgebraExpr := do
  word "sameTerm"
  openList
  let a ← spaced expression
  comma
  let b ← spaced expression
  symbol ")"
  pure (.binary .sameTerm a b)

def existenceTest (group : Rule Algebra) : Rule AlgebraExpr := do
  spaced (word "EXISTS")
  AlgebraExpr.existence <$> group

def languageCall (expression : Rule AlgebraExpr) (group : Rule Algebra) :
    Rule AlgebraExpr :=
  firstOf <|
    [do
      let a ← aggregate expression
      AlgebraExpr.var <$> aggregateVariable a,
    boundTest]
    ++ callForms.map (CallForm.read expression)
    ++ [coalescing expression, conditional expression, sameTermTest expression,
      existenceTest group,
      do
        spaced (word "NOT")
        AlgebraExpr.not <$> existenceTest group]

def customCall (expression : Rule AlgebraExpr) : Rule AlgebraExpr := do
  let name ← spaced iri
  AlgebraExpr.call (.custom name) <$> arguments expression

/-- A name alone is a constant, and a call with arguments. -/
def nameOrCall (expression : Rule AlgebraExpr) : Rule AlgebraExpr := do
  let name ← spaced iri
  match ← attempt (arguments expression) with
  | some args => pure (.call (.custom name) args)
  | none => pure (.const (.iri name))

/-! ### Operators -/

def primary (expression : Rule AlgebraExpr) (group : Rule Algebra) : Rule AlgebraExpr :=
  let literal (l : Literal) : AlgebraExpr := .const (.literal l)
  firstOf [between "(" ")" expression, nameOrCall expression, AlgebraExpr.var <$> variableName,
    literal <$> stringLiteral, literal <$> numericLiteral, literal <$> booleanLiteral,
    languageCall expression group]

def unarySign : Rule (AlgebraExpr → AlgebraExpr) :=
  firstOf [
    do
      symbol "!"
      pure .not,
    do
      symbol "+"
      pure (.unary .plus),
    do
      symbol "-"
      pure (.unary .minus)]

def signed (operand : Rule AlgebraExpr) : Rule AlgebraExpr := do
  let sign ← attempt unarySign
  space
  let e ← operand
  pure ((sign.getD id) e)

/-- Operands joined by operators of one rank; the last two are joined first. -/
def joinRight (a : AlgebraExpr) : List (BinaryOp × AlgebraExpr) → AlgebraExpr
  | [] => a
  | (op, b) :: rest => .binary op a (joinRight b rest)

def operators (ops : List (String × BinaryOp)) : Rule BinaryOp :=
  firstOf (ops.map fun (s, op) => do
    symbol s
    pure op)

/-- A chain of operands that ends with space. -/
def chain (ops : List (String × BinaryOp)) (operand : Rule AlgebraExpr) :
    Rule AlgebraExpr := do
  let a ← spaced operand
  let rest ← many do
    let op ← spaced (operators ops)
    let b ← spaced operand
    pure (op, b)
  pure (joinRight a rest)

def numeric (operand : Rule AlgebraExpr) : Rule AlgebraExpr :=
  chain [("+", .add), ("-", .subtract)] (chain [("*", .multiply), ("/", .divide)] (signed operand))

/-- What follows the left side of a comparison. -/
def comparison (expression operand : Rule AlgebraExpr) :
    Rule (AlgebraExpr → AlgebraExpr) :=
  firstOf [
    do
      let op ← spaced (operators [("=", .equal)])
      let b ← operand
      pure (.binary op · b),
    do
      spaced (symbol "!=")
      let b ← operand
      pure fun a => .not (.binary .equal a b),
    do
      let op ← spaced (operators [(">=", .greaterOrEqual), (">", .greater), ("<=", .lessOrEqual),
        ("<", .less)])
      let b ← operand
      pure (.binary op · b),
    do
      spaced (word "IN")
      let list ← arguments expression
      pure (.member · list),
    do
      spaced (word "NOT")
      spaced (word "IN")
      let list ← arguments expression
      pure fun a => .not (.member a list)]

def relation (expression operand : Rule AlgebraExpr) : Rule AlgebraExpr := do
  let a ← spaced (numeric operand)
  match ← attempt (comparison expression (numeric operand)) with
  | some f => pure (f a)
  | none => pure a

/-- An expression, where `expression` and `group` read what is nested in it. -/
def expressionWith (expression : Rule AlgebraExpr) (group : Rule Algebra) :
    Rule AlgebraExpr :=
  foldRow (spaced (symbol "||")) .or
    (spaced (foldRow (spaced (symbol "&&")) .and
      (spaced (relation expression (primary expression group)))))

/-- A condition that needs no parentheses if it is a call. -/
def constraint (expression : Rule AlgebraExpr) (group : Rule Algebra) : Rule AlgebraExpr :=
  firstOf [between "(" ")" expression, customCall expression, languageCall expression group]

end GraphQuery.Sparql
