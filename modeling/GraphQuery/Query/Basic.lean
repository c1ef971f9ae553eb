import GraphQuery.Query.Function
import GraphQuery.Query.Pattern

/-! Queries. All variables that occur in a query are declared in the order of their first
occurrence, and each owns the slot of solutions at its place in that order. -/

namespace GraphQuery

/-- A computed column. -/
structure SelectItem where
  target : Variable
  expr : Expr

def SelectItem.isAggregate (s : SelectItem) : Bool := s.expr.isAggregate

structure OrderKey where
  expr : Expr
  descending : Bool

/-- The variable, if the expression is nothing else. -/
def Expr.asVariable : Expr → Option Variable
  | var v => some v
  | _ => none

/-- What a query is built from. Without a projection, all variables are projected. -/
structure QueryParts where
  body : Pattern := .empty
  project : Option (List Variable) := none
  select : List SelectItem := []
  groupBy : List Expr := []
  having : List Expr := []
  orderBy : List OrderKey := []
  distinct : Bool := false
  offset : Nat := 0
  limit : Option Nat := none
  fromDefault : List Term := []
  fromNamed : List Term := []
  /-- The patterns whose existence expressions ask for. -/
  patterns : List Pattern := []
  functions : FunctionTable := {}

namespace QueryParts

/-- The variables of all parts, in order and with repetitions. -/
def occurrences (p : QueryParts) : List Variable :=
  p.body.vars ++ p.patterns.flatMap Pattern.vars
    ++ p.select.flatMap (fun s => s.expr.vars ++ [s.target])
    ++ p.groupBy.flatMap Expr.vars ++ p.having.flatMap Expr.vars
    ++ p.orderBy.flatMap (fun k => k.expr.vars) ++ p.project.getD []

/-- The first occurrence of each variable. -/
def declared (p : QueryParts) : List Variable := p.occurrences.eraseDups

end QueryParts

structure Query extends QueryParts where
  vars : List Variable
  vars_eq : vars = toQueryParts.declared

namespace Query

def ofParts (p : QueryParts) : Query := ⟨p, p.declared, rfl⟩

def slot? (q : Query) (v : Variable) : Option Nat := q.vars.idxOf? v

/-- The projected variables. -/
def projection (q : Query) : List Variable := q.project.getD q.vars

/-- The slots of the projected variables. -/
def projectedSlots (q : Query) : List Nat := q.projection.filterMap q.slot?

/-- Whether the solutions are grouped. -/
def isAggregate (q : Query) : Bool :=
  !q.groupBy.isEmpty || !q.having.isEmpty || q.select.any SelectItem.isAggregate
    || q.orderBy.any (·.expr.isAggregate)

def pattern? (q : Query) (id : Nat) : Option Pattern := q.patterns[id]?

end Query

end GraphQuery
