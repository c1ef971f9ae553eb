import GraphQuery.Sparql.Token

/-! Reading of property paths. -/

namespace GraphQuery.Sparql

open Rule

/-- A name, or the letter that is short for the type predicate. -/
def predicateName : Rule Iri :=
  iri.or do
    symbol "a"
    pure Iri.rdfType

/-- An excluded predicate, and whether its edges are excluded backwards. -/
def excluded : Rule (Iri × Bool) :=
  (do
    symbol "^"
    space
    pure (← predicateName, true)).or do
  pure (← predicateName, false)

/-- Edges in one direction are excluded apart from those in the other. -/
def negatedPath (names : List (Iri × Bool)) : Path :=
  let (backward, forward) := names.partition (·.2)
  let backward := Path.negated (backward.map (·.1))
  let forward := Path.negated (forward.map (·.1))
  match backward, forward with
  | .negated [], _ => forward
  | _, .negated [] => .inverse backward
  | _, _ => .alt forward (.inverse backward)

def negatedSet : Rule Path :=
  (do
    symbol "("
    space
    let names ← separated (do symbol "|"; space) (spaced excluded)
    symbol ")"
    pure (negatedPath names)).or do
  pure (negatedPath [← excluded])

/-- A path of one part, where `path` reads what stands in parentheses. -/
def pathPrimary (path : Rule Path) : Rule Path :=
  firstOf [
    Path.predicate <$> predicateName,
    do
      symbol "!"
      space
      negatedSet,
    between "(" ")" path]

/-- A question mark before a name belongs to a variable. -/
def pathRepetition : Rule (Path → Path) :=
  firstOf [
    do
      symbol "*"
      pure .zeroOrMore,
    do
      symbol "+"
      pure .oneOrMore,
    do
      symbol "?"
      notAhead fun c => isNameStart c || c.isDigit
      pure .zeroOrOne]

def repeatedPath (path : Rule Path) : Rule Path := do
  let p ← pathPrimary path
  match ← attempt pathRepetition with
  | some f => pure (f p)
  | none => pure p

def directedPath (path : Rule Path) : Rule Path :=
  (do
    symbol "^"
    space
    Path.inverse <$> repeatedPath path).or (repeatedPath path)

def pathWith (path : Rule Path) : Rule Path :=
  foldRow (do symbol "|"; space) .alt
    (spaced (foldRow (do symbol "/"; space) .seq (spaced (directedPath path))))

/-- Reads paths that are nested less than `n` deep. -/
def path : Nat → Rule Path
  | 0 => failure
  | n + 1 => fun s => pathWith (path n) s

end GraphQuery.Sparql
