import GraphQuery.Query.Error
import GraphQuery.Solution.Sequence

/-! What an expression or a pattern is evaluated in: the bindings of the query's variables, local
bindings that shadow them, and the graph in force. -/

namespace GraphQuery

/-- Local bindings, the oldest first. -/
abbrev Locals := List (Variable × Term)

namespace Locals

/-- The value of the latest binding of a variable. -/
def get? (l : Locals) (v : Variable) : Option Term := (l.reverse.find? (·.1 == v)).map (·.2)

/-- Removes the latest binding of a variable. -/
def pop (l : Locals) (v : Variable) : Locals := (l.reverse.eraseP (·.1 == v)).reverse

/-- Adds a binding. -/
def push (l : Locals) (v : Variable) (t : Term) : Locals := l ++ [(v, t)]

end Locals

structure Environment where
  /-- The terms bound to the slots of the query. -/
  bindings : List (Option Term)
  locals : Locals := []
  /-- What the graph has to be, inside of a graph clause. -/
  graph : Option NodePattern := none
  /-- The solutions that aggregates range over. -/
  group : Option (List Solution) := none
  /-- The choices on the way here, the latest first. -/
  trail : List Nat := []

/-- The outcome of binding a variable. -/
inductive Binding where
  | new (env : Environment)
  | existing
  | conflict

namespace Environment

/-- Nothing is bound yet. -/
def initial (q : Query) : Environment := { bindings := List.replicate q.vars.length none }

/-- The environment of a finished solution. -/
def ofSolution (s : Solution) (group : Option (List Solution)) (trail : List Nat) : Environment :=
  { bindings := s.slots, group, trail }

/-- The environment of a snapshot, with one slot for each variable of the query. -/
def restore (q : Query) (s : Solution) (locals : Locals) (graph : Option NodePattern) :
    Environment :=
  let n := q.vars.length
  { bindings := s.slots.take n ++ List.replicate (n - s.slots.length) none, locals, graph }

/-- The value that the query's variable itself has. -/
def binding? (env : Environment) (q : Query) (v : Variable) : Option Term :=
  (q.slot? v).bind fun slot => (env.bindings[slot]?).join

/-- The value of a variable; a local binding comes first. -/
def get? (env : Environment) (q : Query) (v : Variable) : Option Term :=
  (env.locals.get? v).or (env.binding? q v)

/-- Binds the query's variable itself, unless it has another value. -/
def bind (env : Environment) (q : Query) (v : Variable) (t : Term) : Except QueryError Binding :=
  match q.slot? v with
  | none => .error (.unknownVariable v)
  | some slot =>
    match (env.bindings[slot]?).join with
    | none => .ok (.new { env with bindings := env.bindings.set slot (some t) })
    | some current => .ok (if current = t then .existing else .conflict)

/-- Binds the query's variable, if it is free or has the same value. -/
def bind? (env : Environment) (q : Query) (v : Variable) (t : Term) :
    Except QueryError (Option Environment) := do
  match ← env.bind q v t with
  | .new env => pure (some env)
  | .existing => pure (some env)
  | .conflict => pure none

/-- Frees variables of the query. -/
def unbind (env : Environment) (q : Query) (vs : List Variable) : Environment :=
  let slots := vs.filterMap q.slot?
  { env with bindings := slots.foldl (fun bs slot => bs.set slot none) env.bindings }

def setLocal (env : Environment) (v : Variable) (t : Term) : Environment :=
  { env with locals := env.locals.push v t }

def unsetLocal (env : Environment) (v : Variable) : Environment :=
  { env with locals := env.locals.pop v }

/-- Enters a scope with local bindings. -/
def enter (env : Environment) (scope : Locals) : Environment :=
  scope.foldl (fun env (v, t) => env.setLocal v t) env

/-- Leaves a scope: its bindings are removed, the latest first. -/
def leave (env : Environment) (scope : Locals) : Environment :=
  scope.foldr (fun (v, _) env => env.unsetLocal v) env

/-- The bindings of the query's variables, without the local ones. -/
def solution (env : Environment) : Solution := { slots := env.bindings }

/-- Takes one of several ways on. -/
def choose (env : Environment) (choice : Nat) : Environment :=
  { env with trail := choice :: env.trail }

end Environment

end GraphQuery
