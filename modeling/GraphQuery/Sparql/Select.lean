import GraphQuery.Sparql.Group

/-! Reading of select clauses and solution modifiers, and the algebra that they put around the
pattern of a query. -/

namespace GraphQuery.Sparql

open Rule

/-! ### Clauses -/

inductive Column where
  | plain (v : Variable)
  | computed (e : AlgebraExpr) (v : Variable)

def Column.variable : Column → Variable
  | plain v | computed _ v => v

inductive Selection where
  /-- All variables that are in scope. -/
  | star
  | columns (cs : List Column)
  /-- Nothing is left out and nothing is computed. -/
  | everything

inductive Repetition where
  | keep
  | reduced
  | distinct

structure SelectClause where
  selection : Selection := .everything
  repetition : Repetition := .keep

/-- The keys of groups, and the computed ones among them. -/
structure GroupClause where
  keys : List Variable := []
  computed : List (AlgebraExpr × Variable) := []

/-- What stands behind the pattern of a query. -/
structure Modifiers where
  group : Option GroupClause := none
  having : Option AlgebraExpr := none
  orderBy : Option (List AlgebraKey) := none
  slice : Option (Nat × Option Nat) := none
  values : Option Algebra := none

/-! ### Algebra -/

/-- A computed column is new, and in a grouped query the columns depend on keys and aggregates
only. -/
def Column.fits (grouped : Bool) (visible : List Variable) : Column → Bool
  | plain v => !grouped || visible.contains v
  | computed e v => !visible.contains v && (!grouped || e.readsOnly visible)

def Column.extend (p : Algebra) : Column → Algebra
  | plain _ => p
  | computed e v => .extend p v e

/-- The pattern with the computed columns, and the projected variables if there is a projection. -/
def Selection.apply? (grouped : Bool) (p : Algebra) :
    Selection → Option (Algebra × Option (List Variable))
  | everything => some (p, none)
  | star =>
    if grouped then none
    else some (p, some (p.scope.eraseDups.mergeSort fun v w => decide (v.name ≤ w.name)))
  | columns cs =>
    let vs := cs.map Column.variable
    if cs.all (Column.fits grouped p.scope) ∧ vs.Nodup then
      some (cs.foldl Column.extend p, some vs)
    else none

def Repetition.apply (p : Algebra) : Repetition → Algebra
  | keep => p
  | reduced => .reduced p
  | distinct => .distinct p

def GroupClause.apply (g : GroupClause) (aggregates : List (Variable × AlgebraAggregate))
    (p : Algebra) : Algebra :=
  .group (g.computed.foldl (fun p (e, v) => .extend p v e) p) g.keys aggregates

/-- The solutions are grouped if this is asked for or an aggregate occurs. -/
def Modifiers.groups (m : Modifiers) (aggregates : List (Variable × AlgebraAggregate)) :
    Option GroupClause :=
  m.group.or (if aggregates.isEmpty then none else some {})

/-- Puts clauses around a pattern: groups, conditions on them and trailing values inside, then
columns, order, projection, repetition, and the slice outside. -/
def SelectClause.around? (s : SelectClause) (m : Modifiers)
    (aggregates : List (Variable × AlgebraAggregate)) (p : Algebra) : Option Algebra := do
  let group := m.groups aggregates
  let p := (group.map fun g => g.apply aggregates p).getD p
  let p := (m.having.map fun e => .filter e p).getD p
  let p := (m.values.map (joined p)).getD p
  let (p, projection) ← s.selection.apply? group.isSome p
  let p := (m.orderBy.map p.orderBy).getD p
  let p := (projection.map p.project).getD p
  let p := s.repetition.apply p
  some ((m.slice.map fun (start, length) => p.slice start length).getD p)

/-! ### Reading -/

section

variable (expression : Rule AlgebraExpr) (group : Rule Algebra)

def columnName : Rule Variable := do
  spaced (word "AS")
  spaced variableName

def column : Rule Column :=
  (Column.plain <$> spaced variableName).or do
    openList
    let e ← spaced expression
    let v ← columnName
    spaced (symbol ")")
    pure (.computed e v)

def repetition : Rule Repetition :=
  firstOf [
    do
      word "DISTINCT"
      pure .distinct,
    do
      word "REDUCED"
      pure .reduced,
    pure .keep]

/-- A select clause opens a frame for the aggregates of its query. -/
def selectClause : Rule SelectClause := do
  spaced (word "SELECT")
  note fun s => { s with aggregates := [] :: s.aggregates }
  let repetition ← spaced repetition
  let selection ←
    (do
      symbol "*"
      pure Selection.star).or (Selection.columns <$> many1 (column expression))
  pure { selection, repetition }

/-- A key of groups; a name for it is optional. -/
def groupKey : Rule (AlgebraExpr × Option Variable) :=
  firstOf [
    (·, none) <$> languageCall expression group,
    (·, none) <$> customCall expression,
    do
      openList
      let e ← spaced expression
      let v ← attempt columnName
      symbol ")"
      pure (e, v),
    do
      let v ← variableName
      pure (.var v, none)]

/-- A key that is only a variable keeps its name. -/
def addKey (g : GroupClause) : AlgebraExpr × Option Variable → Rule GroupClause
  | (.var v, _) => pure { g with keys := g.keys ++ [v] }
  | (e, name) => do
    let v ← match name with
      | some v => pure v
      | none => inventVariable
    pure { keys := g.keys ++ [v], computed := g.computed ++ [(e, v)] }

def groupClause : Rule GroupClause := do
  spaced (word "GROUP")
  spaced (word "BY")
  let keys ← many1 (spaced (groupKey expression group))
  keys.foldlM addKey {}

def havingClause : Rule AlgebraExpr := do
  spaced (word "HAVING")
  foldRow (pure ()) .and (constraint expression group)

def orderKey : Rule AlgebraKey :=
  firstOf [
    do
      spaced (word "ASC")
      AlgebraKey.ascending <$> between "(" ")" expression,
    do
      spaced (word "DESC")
      AlgebraKey.descending <$> between "(" ")" expression,
    AlgebraKey.ascending <$> constraint expression group,
    (AlgebraKey.ascending ∘ AlgebraExpr.var) <$> variableName]

def orderClause : Rule (List AlgebraKey) := do
  spaced (word "ORDER")
  spaced (word "BY")
  many1 (spaced (orderKey expression group))

/-- A count that a machine word can hold. -/
def count (name : String) : Rule Nat := do
  spaced (word name)
  let n ← natural
  if n < 18446744073709551616 then pure n else failure

def sliceClause : Rule (Nat × Option Nat) :=
  (do
    let length ← spaced (count "LIMIT")
    let start ← attempt (count "OFFSET")
    pure (start.getD 0, some length)).or do
  let start ← spaced (count "OFFSET")
  let length ← attempt (count "LIMIT")
  pure (start, length)

def valuesClause : Rule (Option Algebra) :=
  (do
    spaced (word "VALUES")
    some <$> dataBlock).or (pure none)

def modifiers : Rule Modifiers := do
  let group' ← spaced (attempt (groupClause expression group))
  let having ← spaced (attempt (havingClause expression group))
  let orderBy ← spaced (attempt (orderClause expression group))
  let slice ← spaced (attempt sliceClause)
  let values ← valuesClause
  pure { group := group', having, orderBy, slice, values }

/-- Reads modifiers and puts them and the select clause around a pattern. The frame of aggregates
is closed. -/
def around (s : SelectClause) (p : Algebra) : Rule Algebra := do
  let m ← modifiers expression group
  let frames ← noted Reading.aggregates
  note fun s => { s with aggregates := frames.tail }
  ofOption (s.around? m (frames.head?.getD []) p)

def whereClause : Rule Algebra := do
  let _ ← attempt (word "WHERE")
  space
  group

def subSelect : Rule Algebra := do
  let s ← spaced (selectClause expression)
  let p ← spaced (whereClause group)
  around expression group s p

end

end GraphQuery.Sparql
