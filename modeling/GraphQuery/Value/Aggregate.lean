import GraphQuery.Value.Builtin

/-! Functions from the values of a group to one term. Members without a value do not count. -/

namespace GraphQuery

inductive SetFunction where
  | count
  | sum
  | avg
  | min
  | max
  | sample
  | groupConcat (separator : String)
  | conjunction
deriving DecidableEq

namespace SetFunction

/-- Keeps the first of the terms that are the same. -/
def distinctTerms (ts : List Term) : List Term :=
  ts.foldl (fun seen t => if seen.any (·.same t) then seen else seen ++ [t]) []

/-- Adds from the first value on; there is no sum if some step has none. -/
def sumOf (ts : List Term) : Option Numeric :=
  ts.foldlM (fun sum t => t.numeric?.bind sum.add) (.integer 0)

def average (ts : List Term) : Option Numeric := do
  let count ← Integer.ofInt? ts.length
  (← sumOf ts).div (.integer count)

/-- The first of the least terms. -/
def least? : List Term → Option Term
  | [] => none
  | t :: ts => some (ts.foldl (fun a b => if a.sortOrder b = .gt then b else a) t)

/-- The last of the greatest terms. -/
def greatest? : List Term → Option Term
  | [] => none
  | t :: ts => some (ts.foldl (fun a b => if a.sortOrder b = .gt then a else b) t)

/-- Accumulates the values of a group. -/
def applyTo (f : SetFunction) (ts : List Term) : Option Term :=
  match f with
  | count => (Integer.ofInt? ts.length).map fun n => .literal (.ofInt64 n)
  | sum => (sumOf ts).map fun n => .literal n.toLiteral
  | avg =>
    if ts.isEmpty then some (.literal (.ofInt64 0))
    else (average ts).map fun n => .literal n.toLiteral
  | min => least? ts
  | max => greatest? ts
  | sample => ts.head?
  | groupConcat separator =>
    (ts.mapM Term.lexical?).map fun texts => .literal (.simple (separator.intercalate texts))
  | conjunction => (ts.mapM Term.truth?).map fun bs => .ofBool (bs.all id)

/-- Accumulates the members of a group that have a value, each once if only distinct values
count. -/
def apply (f : SetFunction) (distinct : Bool) (members : List (Option Term)) : Option Term :=
  let ts := members.filterMap id
  f.applyTo (if distinct then distinctTerms ts else ts)

end SetFunction

end GraphQuery
