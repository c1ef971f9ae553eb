import GraphQuery.Evaluate.Environment
import GraphQuery.Evaluate.Run

/-! The values of expressions. There are three outcomes of a test: true, false, and none at all.
An expression without a value makes no error; only a query that refers to something undeclared
does. -/

namespace GraphQuery

/-- What expressions are evaluated against. -/
structure Scope where
  query : Query
  registry : Registry := {}
  /-- The definitions that call sites remember from before. -/
  remembered : Remembered := {}
  /-- Whether patterns can be evaluated inside of expressions. -/
  canSolve : Bool := true

/-- The evaluation of what is not part of an expression itself. -/
structure Hooks where
  /-- Evaluates the body of a function. -/
  body : Expr → Environment → Run (Option Term)
  /-- Tells whether a pattern has a solution. -/
  hasSolution : Pattern → Environment → Run Bool

namespace Scope

/-- The bindings that are asked for: the local ones, or those of the query's variables. -/
def snapshot (c : Scope) (env : Environment) (target : Option Term) : Term :=
  if target = some (.iri Iri.kgStack) then
    .snapshot "stack" env.trail (env.locals.map (·.1)) (env.locals.map (·.2))
  else
    let bound := (c.query.vars.zip env.bindings).filterMap fun (v, t) => t.map fun t => (v, t)
    .snapshot "memory" env.trail (bound.map (·.1)) (bound.map (·.2))

/-- The definition for a call: the remembered one, one of the query, or a registered one. -/
def resolve (c : Scope) (site : Nat) (name : Iri) (count : Nat) : Run (Option Definition) :=
  match c.remembered.get? site with
  | some d => pure (some d)
  | none =>
    match (c.query.functions.resolve? name count).or (c.registry.resolve? name count) with
    | none => pure none
    | some d => do
      Run.emit (.resolved site d)
      pure (some d)

/-- Calls a function on the values of its arguments. -/
def call (c : Scope) (h : Hooks) (site : Nat) (name : Iri) (args : List Term) (env : Environment) :
    Run (Option Term) := do
  match ← c.resolve site name args.length with
  | none => pure none
  | some d =>
    if d.arity ≠ args.length then pure none
    else
      let locals := (d.parameters.zip args).foldl (fun l (v, t) => l.push v t.canonical) env.locals
      h.body d.body { env with locals }

/-- Asks for a solution of a registered pattern. -/
def exists? (c : Scope) (h : Hooks) (id : Nat) (env : Environment) : Run (Option Term) := do
  match c.query.pattern? id with
  | none => Run.fail (.undeclaredPattern id)
  | some p =>
    if c.canSolve then
      let inner := Environment.restore c.query env.solution env.locals env.graph
      let holds ← h.hasSolution p { inner with trail := env.trail }
      Run.emit (.existence id holds)
      pure (some (.ofBool holds))
    else Run.fail .missingEvaluator

end Scope

namespace Expr

/-- Evaluates an expression. -/
def eval (c : Scope) (h : Hooks) : Expr → Environment → Run (Option Term)
  | const t, _ => pure (some t)
  | var v, env => pure (env.get? c.query v)
  | and args, env => evalAll args 0 env
  | or args, env => evalAny args 0 false env
  | not a, env => do pure (((← a.eval c h env).bind Term.truth?).map fun b => .ofBool !b)
  | binary op a b, env => do
    match ← a.eval c h (env.choose 0) with
    | none => pure none
    | some s =>
      match ← b.eval c h (env.choose 1) with
      | none => pure none
      | some t => pure (op.apply s t)
  | unary op a, env => do pure ((← a.eval c h env).bind op.apply)
  | member a list, env => do
    match ← a.eval c h (env.choose 0) with
    | none => pure none
    | some t => evalMember t list 1 false env
  | bound v, env => pure (some (.ofBool (env.get? c.query v).isSome))
  | coalesce args, env => evalFirst args 0 env
  | cond test yes no, env => do
    match (← test.eval c h (env.choose 0)).bind Term.truth? with
    | some true => yes.eval c h (env.choose 1)
    | some false => evalOption no (env.choose 2)
    | none => pure none
  | letIn v value body, env => do
    match ← value.eval c h (env.choose 0) with
    | none => pure none
    | some t => body.eval c h ((env.choose 1).setLocal v t.canonical)
  | existence id, env => c.exists? h id env
  | aggregate f argument distinct, env =>
    match env.group with
    | none => pure none
    | some group => evalAggregate f argument distinct group env.trail
  | call f args, env => do pure ((← evalArgs args 0 env).bind f.apply)
  | extension site name args, env => do
    match ← evalArgs args 1 env with
    | none => pure none
    | some ts => c.call h site name ts (env.choose 0)
  | system target, env => pure (some (c.snapshot env target))
where
  /-- Stops at the first operand that is not true. -/
  evalAll : List Expr → Nat → Environment → Run (Option Term)
    | [], _, _ => pure (some (.ofBool true))
    | a :: as, i, env => do
      match (← a.eval c h (env.choose i)).bind Term.truth? with
      | some true => evalAll as (i + 1) env
      | some false => pure (some (.ofBool false))
      | none => pure none
  /-- Stops at the first operand that is true; `failed` tells whether one had no value. -/
  evalAny : List Expr → Nat → (failed : Bool) → Environment → Run (Option Term)
    | [], _, failed, _ => pure (if failed then none else some (.ofBool false))
    | a :: as, i, failed, env => do
      match (← a.eval c h (env.choose i)).bind Term.truth? with
      | some true => pure (some (.ofBool true))
      | some false => evalAny as (i + 1) failed env
      | none => evalAny as (i + 1) true env
  /-- Stops at the first equal element; `failed` tells whether one could not be compared. -/
  evalMember (t : Term) : List Expr → Nat → (failed : Bool) → Environment → Run (Option Term)
    | [], _, failed, _ => pure (if failed then none else some (.ofBool false))
    | a :: as, i, failed, env => do
      match (← a.eval c h (env.choose i)).bind (t.equal? ·) with
      | some true => pure (some (.ofBool true))
      | some false => evalMember t as (i + 1) failed env
      | none => evalMember t as (i + 1) true env
  /-- The first value of a list. -/
  evalFirst : List Expr → Nat → Environment → Run (Option Term)
    | [], _, _ => pure none
    | a :: as, i, env => do
      match ← a.eval c h (env.choose i) with
      | some t => pure (some t)
      | none => evalFirst as (i + 1) env
  /-- The values of all arguments; stops at the first that has none. -/
  evalArgs : List Expr → Nat → Environment → Run (Option (List Term))
    | [], _, _ => pure (some [])
    | a :: as, i, env => do
      match ← a.eval c h (env.choose i) with
      | none => pure none
      | some t =>
        match ← evalArgs as (i + 1) env with
        | none => pure none
        | some ts => pure (some (t :: ts))
  evalOption : Option Expr → Environment → Run (Option Term)
    | none, _ => pure none
    | some a, env => a.eval c h env
  /-- The value of a set function over a group. Without argument each solution counts as one true
  value. -/
  evalAggregate (f : SetFunction) : Option Expr → (distinct : Bool) → List Solution → List Nat →
      Run (Option Term)
    | none, distinct, group, _ =>
      let members := if distinct then (group.map (·.slots)).eraseDups.length else group.length
      pure (f.apply false (List.replicate members (some (.ofBool true))))
    | some a, distinct, group, trail => do
      let members ← Run.mapIdx (fun i s => a.eval c h (.ofSolution s none (i :: trail))) 0 group
      pure (f.apply distinct members)

/-- Whether an expression is true; without a value it is not. -/
def test (c : Scope) (h : Hooks) (e : Expr) (env : Environment) : Run Bool := do
  pure (((← e.eval c h env).bind Term.truth?).getD false)

end Expr

end GraphQuery
