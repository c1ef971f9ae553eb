import GraphQuery.Algebra.Basic

/-! The layers of solution modifiers on top of a pattern. They are taken off from the outside to
the inside, each at most once and in a fixed order; what remains is the body. -/

namespace GraphQuery

/-- An algebra with its modifiers set apart. -/
structure Layers where
  offset : Nat := 0
  limit : Option Nat := none
  distinct : Bool := false
  projection : Option (List Variable) := none
  orderBy : List AlgebraKey := []
  /-- Computed columns, the outermost one first. -/
  columns : List (Variable × AlgebraExpr) := []
  /-- The condition on groups. -/
  having : Option AlgebraExpr := none
  groupBy : List Variable := []
  aggregates : List (Variable × AlgebraAggregate) := []
  body : Algebra

namespace Algebra

def splitSlice : Algebra → (Nat × Option Nat) × Algebra
  | slice inner start length => ((start, length), inner)
  | a => ((0, none), a)

/-- Reduced solutions may keep their duplicates, and do. -/
def splitDistinct : Algebra → Bool × Algebra
  | distinct inner => (true, inner)
  | reduced inner => (false, inner)
  | a => (false, a)

def splitProjection : Algebra → Option (List Variable) × Algebra
  | project inner vs => (some vs, inner)
  | a => (none, a)

def splitOrder : Algebra → List AlgebraKey × Algebra
  | orderBy inner keys => (keys, inner)
  | a => ([], a)

/-- Takes off the extensions down to the first one by a variable that is not projected. -/
def splitColumns (projection : List Variable) : Algebra → List (Variable × AlgebraExpr) × Algebra
  | extend inner v e =>
    if v ∈ projection then
      let (columns, a) := splitColumns projection inner
      ((v, e) :: columns, a)
    else ([], extend inner v e)
  | a => ([], a)

/-- Only a filter right above the groups is a condition on them. -/
def splitHaving : Algebra → Option AlgebraExpr × Algebra
  | filter condition (group inner keys aggregates) => (some condition, group inner keys aggregates)
  | a => (none, a)

def splitGroup : Algebra → (List Variable × List (Variable × AlgebraAggregate)) × Algebra
  | group inner keys aggregates => ((keys, aggregates), inner)
  | a => (([], []), a)

def layers (a : Algebra) : Layers :=
  let ((offset, limit), a) := a.splitSlice
  let (unique, a) := a.splitDistinct
  let (projection, a) := a.splitProjection
  let (keys, a) := a.splitOrder
  let (columns, a) := a.splitColumns (projection.getD [])
  let (having, a) := a.splitHaving
  let ((groupBy, aggregates), body) := a.splitGroup
  { offset, limit, distinct := unique, projection, orderBy := keys, columns, having, groupBy,
    aggregates, body }

end Algebra

end GraphQuery
