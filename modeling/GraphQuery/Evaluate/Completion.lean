import GraphQuery.Evaluate.Engine

/-! Completing the solutions of a body: computed columns, duplicates, and the keys for sorting and
grouping. -/

namespace GraphQuery.Context

/-- What an expression is completed for. Each use leaves a trail of its own. -/
inductive Stage where
  | column
  | orderKey
  | groupKey
  | groupColumn
  | groupCondition
  | groupOrderKey
  | groupGroupKey

def Stage.number : Stage → Nat
  | column => 1
  | orderKey => 2
  | groupKey => 3
  | groupColumn => 4
  | groupCondition => 5
  | groupOrderKey => 6
  | groupGroupKey => 7

/-- The environment in which the `item`-th expression of a stage is evaluated for a row. -/
def rowEnvironment (stage : Stage) (row item : Nat) (s : Solution)
    (group : Option (List Solution)) :
    Environment :=
  .ofSolution s group [item, row, stage.number]

/-- Binds the computed columns from one on. Without a group, aggregates are left out. There is no
solution if a column is bound already and computed to something else. -/
def selectFrom (c : Context) (group : Option (List Solution)) (row : Nat) :
    Nat → List SelectItem → Solution → Run (Option Solution)
  | _, [], s => pure (some s)
  | i, item :: rest, s =>
    if group.isNone && item.isAggregate then selectFrom c group row (i + 1) rest s
    else match c.query.slot? item.target with
      | none => Run.fail (.unknownVariable item.target)
      | some slot => do
        let stage := if group.isSome then Stage.groupColumn else .column
        match (← c.evaluate item.expr (rowEnvironment stage row i s group)).map Term.canonical with
        | none => selectFrom c group row (i + 1) rest s
        | some t =>
          match s.get? slot with
          | none => selectFrom c group row (i + 1) rest (s.set slot (some t))
          | some current =>
            if current = t then selectFrom c group row (i + 1) rest s else pure none

/-- Binds the computed columns of a row. -/
def select (c : Context) (s : Solution) (group : Option (List Solution)) (row : Nat) :
    Run (Option Solution) :=
  c.selectFrom group row 0 c.query.select s

/-- The key for an expression: the value of a bound variable, else of the expression. -/
def key (c : Context) (stage : Stage) (s : Solution) (group : Option (List Solution))
    (row item : Nat) (e : Expr) : Run (Option Term) :=
  match ((e.asVariable).bind c.query.slot?).bind s.get? with
  | some t => pure (some t)
  | none =>
    if group.isNone && e.isAggregate then pure none
    else do pure ((← c.evaluate e (rowEnvironment stage row item s group)).map Term.canonical)

/-- Adds the keys for sorting and grouping to a row. -/
def keys (c : Context) (s : Solution) (group : Option (List Solution)) (row : Nat) :
    Run Solution := do
  let (order, grouping) := if group.isSome then (Stage.groupOrderKey, Stage.groupGroupKey)
    else (.orderKey, .groupKey)
  let orderKeys ← Run.mapIdx (fun i k => c.key order s group row i k.expr) 0 c.query.orderBy
  let groupKeys ← Run.mapIdx (fun i e => c.key grouping s group row i e) 0 c.query.groupBy
  pure { s with orderKeys, groupKeys }

/-- Binds the computed columns of all rows, and drops the rows where one is bound already to
something else. -/
def selectRows (c : Context) (rows : Solutions) : Run Solutions :=
  if c.query.select.isEmpty then pure rows
  else do
    let kept ← Run.mapIdx (fun i s => c.select s none i) 0 rows.rows
    pure { rows.clear with rows := kept.filterMap id }

/-- Completes the rows of a sequence. Groups are formed of all rows, so a grouped query is not
made distinct before. -/
def complete (c : Context) (rows : Solutions) : Run Solutions := do
  let selected ← c.selectRows rows
  let unique := if c.query.distinct && !c.query.isAggregate then selected.resubmit else selected
  let keyed ← Run.mapIdx (fun i s => c.keys s none i) 0 unique.rows
  pure { unique with rows := keyed }

end GraphQuery.Context
