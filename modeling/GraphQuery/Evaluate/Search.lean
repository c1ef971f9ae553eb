import GraphQuery.Evaluate.Solve

/-! The search for solutions. There is one memory for all of it: a pattern binds variables and
enters graphs in the memory before it goes on, and takes this back afterwards. -/

namespace GraphQuery

variable {σ : Type}

/-- What follows a pattern. It is handed the memory with a solution, and gives a memory back. -/
abbrev Continuation (σ : Type) := Environment → σ → Run (ForInStep (Environment × σ))

/-- Changes the memory that is given back. -/
def leaving (f : Environment → Environment) :
    ForInStep (Environment × σ) → ForInStep (Environment × σ)
  | .done (m, s) => .done (f m, s)
  | .yield (m, s) => .yield (f m, s)

/-- Gives back a memory along with the answer of a step that has none. -/
def keeping (m : Environment) : ForInStep σ → ForInStep (Environment × σ)
  | .done s => .done (m, s)
  | .yield s => .yield (m, s)

namespace Environment

/-- Takes the latest choice back. -/
def retract (m : Environment) : Environment := { m with trail := m.trail.tail }

end Environment

namespace Continuation

/-- Takes one of several ways on, and takes this back afterwards. -/
def along (k : Continuation σ) (choice : Nat) : Continuation σ := fun m s =>
  leaving Environment.retract <$> k (m.choose choice) s

/-- Goes on with a match if it holds, and remembers that there was one. -/
def onMatch (k : Continuation σ) (holds : Environment → Run Bool) : Continuation (Bool × σ) :=
  fun m (found, s) => do
    if ← holds m then
      match ← k m s with
      | .done (m, s) => pure (.done (m, true, s))
      | .yield (m, s) => pure (.yield (m, true, s))
    else pure (.yield (m, found, s))

/-- Goes on after all matches, unless there was one. -/
def afterMatches (k : Continuation σ) :
    ForInStep (Environment × Bool × σ) → Run (ForInStep (Environment × σ))
  | .done (m, _, s) => pure (.done (m, s))
  | .yield (m, true, s) => pure (.yield (m, s))
  | .yield (m, false, s) => k m s

/-- Passes over what shares a variable with a solution that it is compatible with. -/
def excluding (k : Continuation σ) (excluded : List Solution) : Continuation σ := fun m s =>
  let solution := m.solution
  if excluded.any fun other => solution.sharesSlot other && solution.compatible other
  then pure (.yield (m, s)) else k m s

end Continuation

/-! ### Binding -/

/-- An attempt to fit a pattern to something: what it has made of the memory, and which variables
it has bound, the latest first. -/
structure Attempt where
  memory : Environment
  bound : List Variable := []
  fits : Bool := true

namespace Attempt

/-- Binds a variable of the query, which fits unless it has another value. -/
def bind (a : Attempt) (q : Query) (v : Variable) (t : Term) : Except QueryError Attempt := do
  match ← a.memory.bind q v t with
  | .new memory => pure { a with memory, bound := v :: a.bound }
  | .existing => pure a
  | .conflict => pure { a with fits := false }

/-- Goes on if all fits, and frees what has been bound. -/
def proceed (a : Attempt) (q : Query) (k : Continuation σ) (s : σ) :
    Run (ForInStep (Environment × σ)) :=
  leaving (·.unbind q a.bound) <$> if a.fits then k a.memory s else pure (.yield (a.memory, s))

end Attempt

namespace Context

/-- Binds a variable while going on. -/
def withBinding (c : Context) (v : Variable) (t : Term) (k : Continuation σ) : Continuation σ :=
  fun m s => do (← Run.ofExcept (Attempt.bind { memory := m } c.query v t)).proceed c.query k s

/-! ### Edges -/

/-- Fits a place of a pattern to an occurrence: what is bound must be accepted, what is free is
bound. -/
def fitPosition (c : Context) (o : Occurrence) (position : Position) (n : NodePattern)
    (a : Attempt) : Except QueryError Attempt :=
  match o.node position with
  | none => pure { a with fits := false }
  | some actual =>
    match n with
    | .const t => pure { a with fits := c.source.accepts o position (.ofTerm t) }
    | .var v =>
      match a.memory.get? c.query v with
      | some t => pure { a with fits := c.source.accepts o position ⟨t, none⟩ }
      | none => a.bind c.query v actual.term

/-- Fits places of a pattern to an occurrence, up to the first that does not fit. -/
def fitPositions (c : Context) (o : Occurrence) :
    List (Position × NodePattern) → Attempt → Except QueryError Attempt
  | [], a => pure a
  | (position, n) :: rest, a => do
    let a ← c.fitPosition o position n a
    if a.fits then fitPositions c o rest a else pure a

/-- Fits a place that is looked up if it is a constant. -/
def fitNode (c : Context) (n : NodePattern) (t : Term) (m : Environment) :
    Except QueryError Attempt :=
  match n with
  | .var v => Attempt.bind { memory := m } c.query v t
  | .const _ => pure { memory := m }

/-- Fits an edge pattern to an occurrence. A free predicate takes that of the edge. -/
def fitEdge (c : Context) (e : EdgePattern) (graph : Option NodePattern) (o : Occurrence)
    (m : Environment) : Except QueryError Attempt := do
  let a ← c.fitNode e.predicate o.edge.predicate.term m
  if a.fits then
    c.fitPositions o ([(.subject, e.subject), (.object, e.object)]
      ++ (graph.map fun g => (Position.graph, g)).toList) a
  else pure a

def searchEdge (c : Context) (e : EdgePattern) (m : Environment) (k : Continuation σ) (s : σ) :
    Run (ForInStep (Environment × σ)) :=
  let graph := m.graph
  let candidates := c.source.matchEdge c.query m e graph (Source.restriction c.query m)
  Run.visit (fun i o (m, s) => do
    (← Run.ofExcept (c.fitEdge e graph o m)).proceed c.query (k.along i) s) 0 candidates (m, s)

/-! ### Paths -/

/-- Goes on from each end of a walk that fits the other end of the pattern. -/
def searchEnds (c : Context) (target : NodePattern) (reached : List Term) (m : Environment)
    (k : Continuation σ) (s : σ) : Run (ForInStep (Environment × σ)) :=
  Run.visit (fun i t (m, s) =>
    match target with
    | .const u => if t = u.canonical then k.along i m s else pure (.yield (m, s))
    | .var v => (c.withBinding v t k).along i m s) 0 reached (m, s)

/-- Where the walks for a path pattern start, the path that they follow, and the ends of the pattern
in the order of the walk: from its bound end, or from every node if both ends are free. From the
object, the reversed path is followed. -/
def walks (c : Context) (p : PathPattern) (m : Environment) :
    List Term × Path × NodePattern × NodePattern :=
  let endOf (n : NodePattern) := (Source.valueOf? c.query m n).map Term.canonical
  match endOf p.subject, endOf p.object with
  | some t, _ => ([t], p.path, p.subject, p.object)
  | none, some t => ([t], p.path.reverse, p.object, p.subject)
  | none, none => (c.source.startNodes c.query m, p.path, p.subject, p.object)

/-- Follows a path from one of the starts. -/
def searchFrom (c : Context) (p : PathPattern) (path : Path) (start target : NodePattern)
    (t : Term) (k : Continuation σ) : Continuation σ := fun m s => do
  (← Run.ofExcept (c.fitNode start t m)).proceed c.query (fun m s =>
    let ends := c.source.follow ⟨c.query, m, p⟩ path t
    c.searchEnds target ends m k s) s

/-- Follows a path from each of the starts. -/
def searchPath (c : Context) (p : PathPattern) (m : Environment) (k : Continuation σ) (s : σ) :
    Run (ForInStep (Environment × σ)) :=
  let (starts, path, start, target) := c.walks p m
  Run.visit (fun i t (m, s) => (c.searchFrom p path start target t k).along i m s)
    0 starts (m, s)

/-! ### Values -/

/-- Fits the values of a row, up to the first that does not fit. -/
def fitRow (c : Context) : List (Variable × Option Term) → Attempt → Except QueryError Attempt
  | [], a => pure a
  | (_, none) :: rest, a => fitRow c rest a
  | (v, some t) :: rest, a => do
    let a ← a.bind c.query v t.canonical
    if a.fits then fitRow c rest a else pure a

def searchValues (c : Context) (vs : List Variable) (rows : List (List (Option Term)))
    (m : Environment) (k : Continuation σ) (s : σ) : Run (ForInStep (Environment × σ)) :=
  Run.visit (fun i row (m, s) => do
    (← Run.ofExcept (c.fitRow (vs.zip row) { memory := m })).proceed c.query (k.along i) s)
    0 rows (m, s)

end Context

namespace Pattern

/-- Goes on with each solution of a pattern that extends the memory, until it is asked to stop. A
graph is left when all that follows has been done. -/
def search (c : Context) (h : Hooks) : Pattern → {σ : Type} → Environment → Continuation σ → σ →
    Run (ForInStep (Environment × σ))
  | edge e, _, m, k, s => c.searchEdge e m k s
  | path p, _, m, k, s => c.searchPath p m k s
  | sequence items, _, m, k, s => searchAll items m k s
  | optional left right condition, _, m, k, s =>
    left.search c h m (fun m s => do
      let holds (m : Environment) : Run Bool := match condition with
        | some e => e.test c.toScope h m
        | none => pure true
      let matched ← Continuation.along (fun m state => right.search c h m (k.onMatch holds) state)
        0 m (false, s)
      (k.along 1).afterMatches matched) s
  | union left right, _, m, k, s => do
    match ← Continuation.along (fun m s => left.search c h m k s) 0 m s with
    | .done (m, s) => pure (.done (m, s))
    | .yield (m, s) => Continuation.along (fun m s => right.search c h m k s) 1 m s
  | minus left right, _, m, k, s => do
    let start := { Environment.initial c.query with graph := m.graph, trail := 0 :: m.trail }
    let excluded ← right.search c h start
      (fun m found => pure (.yield (m, m.solution :: found))) []
    Continuation.along (fun m s => left.search c h m (k.excluding excluded.value.2) s) 1 m s
  | filter e, _, m, k, s => do
    if ← e.test c.toScope h (m.choose 0) then k.along 1 m s else pure (.yield (m, s))
  | bind v e, _, m, k, s => do
    match ← e.eval c.toScope h (m.choose 0) with
    | some t => (c.withBinding v t.canonical k).along 1 m s
    | none => k.along 1 m s
  | graph name inner, _, m, k, s =>
    let previous := m.graph
    let entered := { m with graph := some name }
    leaving (fun m => { m with graph := previous }) <$>
      match name with
      | .var v =>
        if (m.get? c.query v).isNone && inner.containsPath then
          Run.visit (fun i g (m, s) =>
            (c.withBinding v g.term fun m s => inner.search c h m k s).along i m s)
            0 (c.source.namedGraphs c.query.fromNamed) (entered, s)
        else inner.search c h entered k s
      | .const _ => inner.search c h entered k s
  | values vs rows, _, m, k, s => c.searchValues vs rows m k s
where
  searchAll : List Pattern → {σ : Type} → Environment → Continuation σ → σ →
      Run (ForInStep (Environment × σ))
    | [], _, m, k, s => k m s
    | [p], _, m, k, s => p.search c h m k s
    | p :: rest, _, m, k, s => p.search c h m (fun m s => searchAll rest m k s) s

end Pattern

end GraphQuery
