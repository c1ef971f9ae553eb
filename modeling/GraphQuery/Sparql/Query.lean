import GraphQuery.Sparql.Select

/-! Reading of whole query texts. -/

namespace GraphQuery.Sparql

open Rule

mutual

/-- Reads expressions that are nested less than `n` deep. -/
def expression : Nat → Rule AlgebraExpr
  | 0 => failure
  | n + 1 => fun s => expressionWith (expression n) (group n) s

/-- Reads groups that are nested less than `n` deep. -/
def group : Nat → Rule Algebra
  | 0 => failure
  | n + 1 => fun s =>
    groupWith (expression n) (group n) (subSelect (expression n) (group n)) n s

end

/-! ### Prologue -/

def baseDeclaration : Rule Unit := do
  spaced (word "BASE")
  let name ← iriReference
  note fun s => { s with base := some name }

def namespaceDeclaration : Rule Unit := do
  spaced (word "PREFIX")
  let space ← spaced namespaceName
  let name ← iriReference
  note fun s => { s with namespaces := (space, name) :: s.namespaces }

def prologue : Rule Unit := do
  let _ ← many (spaced (baseDeclaration.or namespaceDeclaration))

/-! ### Datasets -/

/-- A graph, and whether it is asked for by its name. -/
def graphClause : Rule (Iri × Bool) := do
  spaced (word "FROM")
  ((·, false) <$> iri).or do
    spaced (word "NAMED")
    (·, true) <$> iri

/-- The graphs of the default graph, and those that names range over. -/
def dataset : Rule (List Iri × List Iri) := do
  let clauses ← (separated space graphClause).or (pure [])
  let (named, default) := clauses.partition (·.2)
  pure (default.map (·.1), named.map (·.1))

/-! ### Forms of queries -/

section

variable (depth : Nat)

/-- Reads the modifiers of a query, and puts them and its select clause around a pattern. -/
def modified (s : SelectClause) (p : Algebra) : Rule Algebra :=
  around (expression depth) (group depth) s p

def selectQuery : Rule AlgebraQuery := do
  let s ← spaced (selectClause (expression depth))
  let (fromDefault, fromNamed) ← spaced dataset
  let p ← spaced (whereClause (group depth))
  return { form := .select, fromDefault, fromNamed, pattern := ← modified depth s p }

def askQuery : Rule AlgebraQuery := do
  spaced (word "ASK")
  let (fromDefault, fromNamed) ← spaced dataset
  let p ← spaced (whereClause (group depth))
  return { form := .ask, fromDefault, fromNamed, pattern := ← modified depth {} p }

def inBraces {α : Type} (p : Rule α) : Rule α := between "\x7b" "\x7d" p

def constructQuery : Rule AlgebraQuery := do
  spaced (word "CONSTRUCT")
  let _ ← spaced (inBraces (template depth))
  let (fromDefault, fromNamed) ← spaced dataset
  let p ← spaced (whereClause (group depth))
  return { form := .construct, fromDefault, fromNamed, pattern := ← modified depth {} p }

/-- A template may be left out if it is the pattern. -/
def shortConstructQuery : Rule AlgebraQuery := do
  spaced (word "CONSTRUCT")
  let (fromDefault, fromNamed) ← spaced dataset
  spaced (word "WHERE")
  let links ← spaced (inBraces (template depth))
  let pattern ← modified depth {} (linkedPattern links)
  return { form := .construct, fromDefault, fromNamed, pattern }

/-- A name that is described is a column of its own. -/
def describedColumn : NodePattern → Rule Column
  | .var v => pure (.plain v)
  | .const t => do
    let e : AlgebraExpr := .const t
    Column.computed e <$> inventVariable

def describedNodes : Rule Selection :=
  (do
    symbol "*"
    pure Selection.everything).or do
  let nodes ← many1 (spaced variableOrIri)
  Selection.columns <$> nodes.mapM describedColumn

def describeQuery : Rule AlgebraQuery := do
  spaced (word "DESCRIBE")
  let selection ← spaced describedNodes
  let (fromDefault, fromNamed) ← spaced dataset
  let p ← spaced (attempt (whereClause (group depth)))
  let pattern ← modified depth { selection } (p.getD .empty)
  return { form := .describe, fromDefault, fromNamed, pattern }

def query : Rule AlgebraQuery := do
  space
  prologue
  space
  let q ← spaced <| firstOf [selectQuery depth, constructQuery depth, shortConstructQuery depth,
    describeQuery depth, askQuery depth]
  atEnd
  pure q

end

end Sparql

/-- The query that a text stands for. No part of a text is nested deeper than the text is long. -/
def AlgebraQuery.ofText? (text : String) : Option AlgebraQuery :=
  let cs := text.toList
  (Sparql.query (cs.length + 1) { text := cs }).1

end GraphQuery
