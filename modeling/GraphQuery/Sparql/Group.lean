import GraphQuery.Algebra.Scope
import GraphQuery.Sparql.Expression
import GraphQuery.Sparql.Triples

/-! Reading of groups of patterns. The parts of a group are joined from left to right, except for
filters, which apply to the whole group. -/

namespace GraphQuery.Sparql

open Rule

/-! ### Joining -/

/-- A join in which empty patterns, neighbouring triples and neighbouring patterns on one graph
are merged. -/
def joined : Algebra → Algebra → Algebra
  | .basic [], r => r
  | l, .basic [] => l
  | .basic ts, .basic us => .basic (ts ++ us)
  | .graph m l, .graph n r =>
    if m = n then .graph m (joined l r) else .join (.graph m l) (.graph n r)
  | l, r => .join l r

def Link.pattern : Link → Algebra
  | triple t => .basic [t]
  | path s p o => .path s p o

/-- The patterns of some links: a row of triples between two paths is one pattern. -/
def linkPatterns : List Link → List Algebra
  | [] => []
  | l :: ls =>
    match l, linkPatterns ls with
    | .triple t, .basic ts :: ps => .basic (t :: ts) :: ps
    | l, ps => l.pattern :: ps

def linkedPattern (ls : List Link) : Algebra :=
  match linkPatterns ls with
  | [] => .empty
  | p :: ps => ps.foldl joined p

/-! ### Parts of a group -/

inductive GroupPart where
  | optional (p : Algebra) (condition : Option AlgebraExpr)
  | minus (p : Algebra)
  | bind (e : AlgebraExpr) (v : Variable)
  | filter (e : AlgebraExpr)
  | other (p : Algebra)

/-- A group read so far, and the conditions that will apply to it. -/
structure OpenGroup where
  pattern : Algebra
  condition : Option AlgebraExpr := none

namespace OpenGroup

/-- A variable is bound to a value only where it is new. -/
def add? (g : OpenGroup) : GroupPart → Option OpenGroup
  | .optional p condition => some { g with pattern := .leftJoin g.pattern p condition }
  | .minus p => some { g with pattern := .minus g.pattern p }
  | .bind e v =>
    if g.pattern.scope.contains v then none else some { g with pattern := .extend g.pattern v e }
  | .filter e =>
    some { g with condition := some ((g.condition.map (AlgebraExpr.and · e)).getD e) }
  | .other p => some { g with pattern := joined g.pattern p }

def close (g : OpenGroup) : Algebra :=
  match g.condition with
  | some e => .filter e g.pattern
  | none => g.pattern

end OpenGroup

/-- The filter of an optional group decides what joins. -/
def optionalPart : Algebra → GroupPart
  | .filter e inner => .optional inner (some e)
  | p => .optional p none

/-! ### Data -/

def dataValue : Rule (Option Term) :=
  (some <$> groundTerm).or do
    word "UNDEF"
    pure none

def dataRow (width : Nat) : Rule (List (Option Term)) := do
  openList
  let row ← many (spaced dataValue)
  space
  spaced (symbol ")")
  if row.length = width then pure row else failure

/-- A table of values: for one variable without parentheses, for others with a row in each
pair. -/
def dataBlock : Rule Algebra :=
  (do
    let v ← spaced variableName
    spaced (symbol "\x7b")
    let values ← many (spaced dataValue)
    symbol "\x7d"
    pure (Algebra.values [v] (values.map fun t => [t]))).or do
  openList
  let vs ← many (spaced variableName)
  space
  spaced (symbol ")")
  spaced (symbol "\x7b")
  let rows ← many (dataRow vs.length)
  symbol "\x7d"
  pure (.values vs rows)

/-! ### Groups -/

section

variable (expression : Rule AlgebraExpr) (group : Rule Algebra)

def alternatives : Rule GroupPart :=
  GroupPart.other <$> foldRow (spaced (word "UNION")) .union (spaced group)

def namedPattern (build : NodePattern → Algebra → Algebra) : Rule GroupPart := do
  let name ← spaced variableOrIri
  let p ← group
  pure (.other (build name p))

def groupPart : Rule GroupPart :=
  firstOf [
    alternatives group,
    do
      spaced (word "OPTIONAL")
      optionalPart <$> group,
    do
      spaced (word "MINUS")
      GroupPart.minus <$> group,
    do
      spaced (word "GRAPH")
      namedPattern group .graph,
    do
      spaced (word "SERVICE")
      spaced (word "SILENT")
      namedPattern group (.service · · true),
    do
      spaced (word "SERVICE")
      namedPattern group (.service · · false),
    do
      spaced (word "FILTER")
      GroupPart.filter <$> constraint expression group,
    do
      spaced (word "BIND")
      openList
      let e ← spaced expression
      spaced (word "AS")
      let v ← spaced variableName
      symbol ")"
      pure (.bind e v),
    do
      spaced (word "VALUES")
      GroupPart.other <$> dataBlock]

/-- A part with the statements behind it. -/
def groupItem (depth : Nat) : Rule (List GroupPart) := do
  let part ← spaced (groupPart expression group)
  let _ ← attempt (spaced (symbol "."))
  let links ← attempt (statements depth)
  space
  pure (part :: (links.map fun ls => .other (linkedPattern ls)).toList)

def groupBody (depth : Nat) : Rule Algebra := do
  let links ← attempt (statements depth)
  space
  let items ← many (groupItem expression group depth)
  let start : OpenGroup := { pattern := linkedPattern (links.getD []) }
  OpenGroup.close <$> ofOption (items.flatten.foldlM OpenGroup.add? start)

/-- A group in braces, or a query in its place. -/
def groupWith (subQuery : Rule Algebra) (depth : Nat) : Rule Algebra :=
  let inBraces (p : Rule Algebra) : Rule Algebra := do
    spaced (symbol "\x7b")
    closeLabels
    let a ← p
    closeLabels
    space
    symbol "\x7d"
    pure a
  (inBraces (groupBody expression group depth)).or (inBraces subQuery)

end

end GraphQuery.Sparql
