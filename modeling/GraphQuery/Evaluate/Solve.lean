import GraphQuery.Evaluate.Expression
import GraphQuery.Evaluate.Walk

/-! The solutions of patterns. A pattern hands the environments that solve it to a step, one after
the other, until the step asks to stop. -/

namespace GraphQuery

/-- All that an evaluation reads. -/
structure Context extends Scope where
  source : Source

namespace Context

variable {σ : Type}

/-- What to do with each solution. -/
abbrev Next (σ : Type) := Environment → σ → Run (ForInStep σ)

/-- Binds a variable, and goes on unless it has another value. -/
def binding (c : Context) (v : Variable) (t : Term) (env : Environment) (next : Next σ) (s : σ) :
    Run (ForInStep σ) := do
  match ← Run.ofExcept (env.bind? c.query v t) with
  | some env => next env s
  | none => pure (.yield s)

/-! ### Edges -/

/-- Fits a place of a pattern to an occurrence: what is bound must be accepted, what is free is
bound. -/
def bindPosition (c : Context) (o : Occurrence) (position : Position) (n : NodePattern)
    (env : Environment) : Except QueryError (Option Environment) :=
  match o.node position with
  | none => pure none
  | some actual =>
    match n with
    | .const t => pure (if c.source.accepts o position (.ofTerm t) then some env else none)
    | .var v =>
      match env.get? c.query v with
      | some t => pure (if c.source.accepts o position ⟨t, none⟩ then some env else none)
      | none => env.bind? c.query v actual.term

/-- Fits places of a pattern to an occurrence, one after the other. -/
def bindPositions (c : Context) (o : Occurrence) :
    List (Position × NodePattern) → Environment → Except QueryError (Option Environment)
  | [], env => pure (some env)
  | (position, n) :: rest, env => do
    match ← c.bindPosition o position n env with
    | some env => bindPositions c o rest env
    | none => pure none

/-- Fits an edge pattern to an occurrence. A free predicate takes that of the edge. -/
def bindEdge (c : Context) (e : EdgePattern) (graph : Option NodePattern) (o : Occurrence)
    (env : Environment) : Except QueryError (Option Environment) := do
  let start ← match e.predicate with
    | .var v => env.bind? c.query v o.edge.predicate.term
    | .const _ => pure (some env)
  match start with
  | none => pure none
  | some env =>
    c.bindPositions o ([(.subject, e.subject), (.object, e.object)]
      ++ (graph.map fun g => (Position.graph, g)).toList) env

def solveEdge (c : Context) (e : EdgePattern) (env : Environment) (next : Next σ) (s : σ) :
    Run (ForInStep σ) :=
  let candidates := c.source.matchEdge c.query env e env.graph (Source.restriction c.query env)
  Run.visit (fun i o s => do
    match ← Run.ofExcept (c.bindEdge e env.graph o env) with
    | some env => next (env.choose i) s
    | none => pure (.yield s)) 0 candidates s

/-! ### Paths -/

/-- Goes on from each end of a walk that fits the other end of the pattern. -/
def solveEnds (c : Context) (target : NodePattern) (reached : List Term) (env : Environment)
    (next : Next σ) (s : σ) : Run (ForInStep σ) :=
  Run.visit (fun i t s =>
    match target with
    | .const u => if t = u.canonical then next (env.choose i) s else pure (.yield s)
    | .var v => c.binding v t (env.choose i) next s) 0 reached s

/-- Where the walks of a path start, whether they go backwards, and the ends of the pattern in the
order of the walk: from its bound end, or from every node if both ends are free. -/
def walk (c : Context) (p : PathPattern) (env : Environment) :
    List Term × Bool × NodePattern × NodePattern :=
  let endOf (n : NodePattern) := (Source.valueOf? c.query env n).map Term.canonical
  match endOf p.subject, endOf p.object with
  | some t, _ => ([t], false, p.subject, p.object)
  | none, some t => ([t], true, p.object, p.subject)
  | none, none => (c.source.startNodes c.query env, false, p.subject, p.object)

/-- Binds the end that a walk starts from. -/
def bindStart (c : Context) (start : NodePattern) (t : Term) (env : Environment) :
    Except QueryError (Option Environment) :=
  match start with
  | .var v => env.bind? c.query v t
  | .const _ => pure (some env)

/-- Walks a path from each of its starts. -/
def solvePath (c : Context) (p : PathPattern) (env : Environment) (next : Next σ) (s : σ) :
    Run (ForInStep σ) :=
  let (starts, backwards, start, target) := c.walk p env
  Run.visit (fun i t s => do
    match ← Run.ofExcept (c.bindStart start t (env.choose i)) with
    | none => pure (.yield s)
    | some env =>
      let ends := c.source.reach ⟨c.query, env, p⟩ p.path backwards t
      c.solveEnds target ends env next s) 0 starts s

/-! ### Values -/

/-- Binds the variables of a row that have a value. -/
def bindRow (c : Context) : List (Variable × Option Term) → Environment →
    Except QueryError (Option Environment)
  | [], env => pure (some env)
  | (_, none) :: rest, env => bindRow c rest env
  | (v, some t) :: rest, env => do
    match ← env.bind? c.query v t.canonical with
    | some env => bindRow c rest env
    | none => pure none

def solveValues (c : Context) (vs : List Variable) (rows : List (List (Option Term)))
    (env : Environment) (next : Next σ) (s : σ) : Run (ForInStep σ) :=
  Run.visit (fun i row s => do
    match ← Run.ofExcept (c.bindRow (vs.zip row) env) with
    | some env => next (env.choose i) s
    | none => pure (.yield s)) 0 rows s

end Context

namespace Pattern

/-- Hands each solution of a pattern that extends an environment to a step. What follows a graph
clause is evaluated in the environment of its inner pattern. -/
def solve (c : Context) (h : Hooks) : Pattern → {σ : Type} → Environment →
    (Environment → σ → Run (ForInStep σ)) → σ → Run (ForInStep σ)
  | edge e, _, env, next, s => c.solveEdge e env next s
  | path p, _, env, next, s => c.solvePath p env next s
  | sequence items, _, env, next, s => solveAll items env next s
  | optional left right condition, _, env, next, s =>
    left.solve c h env (fun env s => do
      let matched ← right.solve c h (env.choose 0) (fun env (found, s) => do
        let holds ← match condition with
          | some e => e.test c.toScope h env
          | none => pure true
        if holds then
          match ← next env s with
          | .done s => pure (.done (true, s))
          | .yield s => pure (.yield (true, s))
        else pure (.yield (found, s))) (false, s)
      match matched with
      | .done (_, s) => pure (.done s)
      | .yield (true, s) => pure (.yield s)
      | .yield (false, s) => next (env.choose 1) s) s
  | union left right, _, env, next, s => do
    match ← left.solve c h (env.choose 0) next s with
    | .done s => pure (.done s)
    | .yield s => right.solve c h (env.choose 1) next s
  | minus left right, _, env, next, s => do
    let start := { Environment.initial c.query with graph := env.graph, trail := 0 :: env.trail }
    let excluded ← right.solve c h start (fun env found => pure (.yield (env.solution :: found))) []
    left.solve c h (env.choose 1) (fun env s =>
      let solution := env.solution
      if excluded.value.any fun other => solution.sharesSlot other && solution.compatible other
      then pure (.yield s) else next env s) s
  | filter e, _, env, next, s => do
    if ← e.test c.toScope h (env.choose 0) then next (env.choose 1) s else pure (.yield s)
  | bind v e, _, env, next, s => do
    match ← e.eval c.toScope h (env.choose 0) with
    | some t => c.binding v t.canonical (env.choose 1) next s
    | none => next (env.choose 1) s
  | graph name inner, _, env, next, s =>
    let inside := { env with graph := some name }
    match name with
    | .var v =>
      if (env.get? c.query v).isNone && inner.containsPath then
        Run.visit (fun i g s =>
          c.binding v g.term (inside.choose i) (fun env s => inner.solve c h env next s) s)
          0 (c.source.namedGraphs c.query.fromNamed) s
      else inner.solve c h inside next s
    | .const _ => inner.solve c h inside next s
  | values vs rows, _, env, next, s => c.solveValues vs rows env next s
where
  solveAll : List Pattern → {σ : Type} → Environment →
      (Environment → σ → Run (ForInStep σ)) → σ → Run (ForInStep σ)
    | [], _, env, next, s => next env s
    | [p], _, env, next, s => p.solve c h env next s
    | p :: rest, _, env, next, s => p.solve c h env (fun env s => solveAll rest env next s) s

end Pattern

end GraphQuery
