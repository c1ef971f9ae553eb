import GraphQuery.Evaluate.Grouping

/-! Answers to queries: the solutions of the body, completed, grouped, sorted and cut. -/

namespace GraphQuery

/-- Compares two keys; a missing key comes first. -/
def compareKey : Option Term → Option Term → Ordering
  | none, none => .eq
  | none, some _ => .lt
  | some _, none => .gt
  | some t, some u => t.sortOrder u

/-- Compares rows key by key; the first difference decides. -/
def compareKeys : List OrderKey → List (Option Term) → List (Option Term) → Ordering
  | k :: ks, a :: as, b :: bs =>
    let o := compareKey a b
    (if k.descending then o.swap else o).then (compareKeys ks as bs)
  | _, _, _ => .eq

def compareRows (keys : List OrderKey) (a b : Solution) : Ordering :=
  compareKeys keys a.orderKeys b.orderKeys

namespace Context

/-- The solutions of the query's body. -/
def rawSolutions (c : Context) : Run Solutions := do
  let start := { Environment.initial c.query with trail := [0] }
  let rows ← c.solutions c.query.body start c.source.options.limit
  pure { Solutions.ofQuery c.query with rows }

/-- Evaluates the query. -/
def answer (c : Context) : Run Solutions := do
  let rows ← c.complete (← c.rawSolutions)
  let rows ← if c.query.isAggregate then c.grouped rows else pure rows
  let rows := if c.query.orderBy.isEmpty then rows else rows.sortBy (compareRows c.query.orderBy)
  pure (rows.slice c.query.offset c.query.limit)

end Context

end GraphQuery
