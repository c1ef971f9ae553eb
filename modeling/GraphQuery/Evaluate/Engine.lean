import GraphQuery.Evaluate.Search

/-! Expressions and patterns refer to each other: expressions ask for solutions, and call
functions whose bodies are expressions. Each such reference goes one level deeper. -/

namespace GraphQuery.Context

/-- Collects solutions up to a bound; `rows` holds them backwards. -/
def collect (limit : Option Nat) (env : Environment) (rows : List Solution) :
    Run (ForInStep (List Solution)) :=
  if limit.any (· ≤ rows.length) then pure (.done rows)
  else
    let rows := env.solution :: rows
    pure (if limit.any (· ≤ rows.length) then .done rows else .yield rows)

/-- Collects solutions and leaves the memory as it is. -/
def collecting (limit : Option Nat) : Continuation (List Solution) := fun m rows =>
  keeping m <$> collect limit m rows

/-- The evaluation of what expressions refer to, down to a number of levels. -/
def hooks (c : Context) : Nat → Hooks
  | 0 => { body := fun _ _ => Run.fail .tooDeep, hasSolution := fun _ _ => Run.fail .tooDeep }
  | depth + 1 =>
    { body := fun e env => e.eval c.toScope (c.hooks depth) env
      hasSolution := fun p env => do
        let found ← p.search c (c.hooks depth) env (collecting (some 1)) []
        pure !found.value.2.isEmpty }

/-- Definitions that refer to each other without a cycle, and patterns that refer to earlier ones,
need at most one level each; the rest is for recursive definitions. -/
def depth (c : Context) : Nat :=
  20000 + c.query.patterns.length + c.query.functions.definitions.length + c.registry.size
    + c.remembered.sites.length

/-- The value of an expression, if it has one. -/
def evaluate (c : Context) (e : Expr) (env : Environment) : Run (Option Term) :=
  e.eval c.toScope (c.hooks c.depth) env

/-- Whether an expression is true. -/
def test (c : Context) (e : Expr) (env : Environment) : Run Bool :=
  e.test c.toScope (c.hooks c.depth) env

/-- The solutions of a pattern from an environment, in order and up to a bound. -/
def solutions (c : Context) (p : Pattern) (env : Environment) (limit : Option Nat) :
    Run (List Solution) := do
  let found ← p.search c (c.hooks c.depth) env (collecting limit) []
  pure found.value.2.reverse

end GraphQuery.Context
