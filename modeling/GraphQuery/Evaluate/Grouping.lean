import GraphQuery.Evaluate.Completion

/-! Grouping: one row for each group of solutions with the same keys. -/

namespace GraphQuery

/-- Adds a solution to the group of its keys, which is the last group if the keys are new. -/
def addToGroup (s : Solution) : List (List (Option Term) × List Solution) →
    List (List (Option Term) × List Solution)
  | [] => [(s.groupKeys, [s])]
  | (keys, members) :: rest =>
    if keys = s.groupKeys then (keys, members ++ [s]) :: rest
    else (keys, members) :: addToGroup s rest

/-- Forms groups in the order in which their keys are first seen. -/
def groupsOf (rows : List Solution) : List (List Solution) :=
  (rows.foldl (fun groups s => addToGroup s groups) []).map (·.2)

namespace Context

/-- Whether all conditions on a group hold; stops at the first that does not. -/
def admits (c : Context) (s : Solution) (group : List Solution) (row : Nat) :
    Nat → List Expr → Run Bool
  | _, [] => pure true
  | i, e :: rest => do
    if ← c.test e (rowEnvironment .groupCondition row i s (some group)) then
      admits c s group row (i + 1) rest
    else pure false

/-- The row of a group: its first solution, with the columns computed over the group. -/
def groupRow (c : Context) (row : Nat) (group : List Solution) : Run (Option Solution) := do
  let first := group.head?.getD (.unbound c.query.vars.length)
  match ← c.select first (some group) row with
  | none => pure none
  | some s =>
    if ← c.admits s group row 0 c.query.having then pure (some (← c.keys s (some group) row))
    else pure none

/-- Replaces completed solutions by the rows of their groups. Without keys, all solutions form one
group, even if there are none. -/
def grouped (c : Context) (rows : Solutions) : Run Solutions := do
  let groups := if c.query.groupBy.isEmpty then [rows.rows] else groupsOf rows.rows
  let kept ← Run.mapIdx (fun i g => c.groupRow i g) 0 groups
  pure (rows.clear.submitAll (kept.filterMap id))

end Context

end GraphQuery
