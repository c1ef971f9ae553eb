import GraphQuery.Evaluate.Engine

/-! Evaluation inside of one environment. An expression enters scopes in the environment that it is
given and leaves them again however its evaluation ends, so that something is left of the
environment after a failure, too. Whoever looks for the solutions of a pattern is given a copy. -/

namespace GraphQuery

/-- What is done in an environment, together with what it leaves behind on every outcome. -/
def Procedure (α : Type) : Type := Environment → Run α × Environment

namespace Procedure

variable {α β : Type}

/-- There is no second step after an error. -/
def andThen (p : Procedure α) (f : α → Procedure β) : Procedure β := fun env =>
  let (r, env) := p env
  match r.outcome with
  | .error e => (⟨r.events, .error e⟩, env)
  | .ok a =>
    let (r', env) := f a env
    (⟨r.events ++ r'.events, r'.outcome⟩, env)

instance : Monad Procedure where
  pure a := fun env => (pure a, env)
  bind := andThen

/-- Does something with a copy of the environment. -/
def aside (f : Environment → Run α) : Procedure α := fun env => (f env, env)

/-- Works inside of a scope, which is left on every outcome. -/
def within (scope : Locals) (p : Procedure α) : Procedure α := fun env =>
  let (r, env) := p (env.enter scope)
  (r, env.leave scope)

/-- Takes one of several ways on, and takes this back afterwards. -/
def along (choice : Nat) (p : Procedure α) : Procedure α := fun env =>
  let (r, env) := p (env.choose choice)
  (r, env.retract)

end Procedure

/-- The evaluation of what is not part of an expression itself. -/
structure Services where
  /-- Evaluates the body of a function. -/
  body : Expr → Procedure (Option Term)
  /-- Tells whether a pattern has a solution. -/
  hasSolution : Pattern → Environment → Run Bool

/-- What becomes known from services. -/
def Services.hooks (s : Services) : Hooks where
  body e env := (s.body e env).1
  hasSolution := s.hasSolution

/-- Calls a function on the values of its arguments; its parameters are local to its body. -/
def Scope.perform (c : Scope) (s : Services) (site : Nat) (name : Iri) (args : List Term) :
    Procedure (Option Term) := do
  match ← Procedure.aside fun _ => c.resolve site name args.length with
  | none => pure none
  | some d =>
    if d.arity ≠ args.length then pure none
    else .within (d.parameters.zip (args.map Term.canonical)) (s.body d.body)

namespace Expr

/-- Evaluates an expression. -/
def perform (c : Scope) (s : Services) : Expr → Procedure (Option Term)
  | const t => pure (some t)
  | var v => .aside fun env => pure (env.get? c.query v)
  | and args => performAll args 0
  | or args => performAny args 0 false
  | not a => do pure (((← a.perform c s).bind Term.truth?).map fun b => .ofBool !b)
  | binary op a b => do
    match ← (a.perform c s).along 0 with
    | none => pure none
    | some x =>
      match ← (b.perform c s).along 1 with
      | none => pure none
      | some y => pure (op.apply x y)
  | unary op a => do pure ((← a.perform c s).bind op.apply)
  | member a list => do
    match ← (a.perform c s).along 0 with
    | none => pure none
    | some t => performMember t list 1 false
  | bound v => .aside fun env => pure (some (.ofBool (env.get? c.query v).isSome))
  | coalesce args => performFirst args 0
  | cond test yes no => do
    match (← (test.perform c s).along 0).bind Term.truth? with
    | some true => (yes.perform c s).along 1
    | some false => (performOption no).along 2
    | none => pure none
  | letIn v value body => do
    match ← (value.perform c s).along 0 with
    | none => pure none
    | some t => ((body.perform c s).within [(v, t.canonical)]).along 1
  | existence id => .aside (c.exists? s.hooks id)
  | aggregate f argument distinct => .aside fun env =>
    match env.group with
    | none => pure none
    | some group => performAggregate f argument distinct group env.trail
  | call f args => do pure ((← performArgs args 0).bind f.apply)
  | extension site name args => do
    match ← performArgs args 1 with
    | none => pure none
    | some ts => (c.perform s site name ts).along 0
  | system target => .aside fun env => pure (some (c.snapshot env target))
where
  /-- Stops at the first operand that is not true. -/
  performAll : List Expr → Nat → Procedure (Option Term)
    | [], _ => pure (some (.ofBool true))
    | a :: as, i => do
      match (← (a.perform c s).along i).bind Term.truth? with
      | some true => performAll as (i + 1)
      | some false => pure (some (.ofBool false))
      | none => pure none
  /-- Stops at the first operand that is true; `failed` tells whether one had no value. -/
  performAny : List Expr → Nat → (failed : Bool) → Procedure (Option Term)
    | [], _, failed => pure (if failed then none else some (.ofBool false))
    | a :: as, i, failed => do
      match (← (a.perform c s).along i).bind Term.truth? with
      | some true => pure (some (.ofBool true))
      | some false => performAny as (i + 1) failed
      | none => performAny as (i + 1) true
  /-- Stops at the first equal element; `failed` tells whether one could not be compared. -/
  performMember (t : Term) : List Expr → Nat → (failed : Bool) → Procedure (Option Term)
    | [], _, failed => pure (if failed then none else some (.ofBool false))
    | a :: as, i, failed => do
      match (← (a.perform c s).along i).bind (t.equal? ·) with
      | some true => pure (some (.ofBool true))
      | some false => performMember t as (i + 1) failed
      | none => performMember t as (i + 1) true
  /-- The first value of a list. -/
  performFirst : List Expr → Nat → Procedure (Option Term)
    | [], _ => pure none
    | a :: as, i => do
      match ← (a.perform c s).along i with
      | some t => pure (some t)
      | none => performFirst as (i + 1)
  /-- The values of all arguments; stops at the first that has none. -/
  performArgs : List Expr → Nat → Procedure (Option (List Term))
    | [], _ => pure (some [])
    | a :: as, i => do
      match ← (a.perform c s).along i with
      | none => pure none
      | some t =>
        match ← performArgs as (i + 1) with
        | none => pure none
        | some ts => pure (some (t :: ts))
  performOption : Option Expr → Procedure (Option Term)
    | none => pure none
    | some a => a.perform c s
  /-- The value of a set function over a group. Each solution is an environment of its own. -/
  performAggregate (f : SetFunction) : Option Expr → (distinct : Bool) → List Solution → List Nat →
      Run (Option Term)
    | none, distinct, group, _ =>
      let members := if distinct then (group.map (·.slots)).eraseDups.length else group.length
      pure (f.apply false (List.replicate members (some (.ofBool true))))
    | some a, distinct, group, trail => do
      let members ← Run.mapIdx
        (fun i m => (a.perform c s (.ofSolution m none (i :: trail))).1) 0 group
      pure (f.apply distinct members)

/-- Whether an expression is true; without a value it is not. -/
def check (c : Scope) (s : Services) (e : Expr) : Procedure Bool := do
  pure (((← e.perform c s).bind Term.truth?).getD false)

end Expr

/-- The evaluation of what expressions refer to, down to a number of levels, by whatever looks for
solutions of patterns there. -/
def Scope.services (c : Scope) (solver : Nat → Pattern → Environment → Run Bool) : Nat → Services
  | 0 => { body := fun _ => .aside fun _ => Run.fail .tooDeep
           hasSolution := fun _ _ => Run.fail .tooDeep }
  | level + 1 => { body := fun e => e.perform c (c.services solver level)
                   hasSolution := solver level }

namespace Context

/-- The services of the engine, down to a number of levels. -/
def services (c : Context) (level : Nat) : Services :=
  c.toScope.services (fun level => (c.hooks (level + 1)).hasSolution) level

/-- Evaluates an expression in an environment. -/
def perform (c : Context) (e : Expr) : Procedure (Option Term) :=
  e.perform c.toScope (c.services c.depth)

/-- Tests an expression in an environment. -/
def check (c : Context) (e : Expr) : Procedure Bool := e.check c.toScope (c.services c.depth)

end Context

end GraphQuery
