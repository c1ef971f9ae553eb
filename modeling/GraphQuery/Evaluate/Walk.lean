import GraphQuery.Evaluate.Candidates

/-! Property paths as walks from node to node in the graph in force. -/

namespace GraphQuery

namespace Source

/-- What the places of a path pattern are looked up in. -/
structure Ground where
  query : Query
  env : Environment
  pattern : PathPattern

/-- The graphs that a query is restricted to, inside or outside of a graph clause. -/
def restriction (q : Query) (env : Environment) : List Term :=
  if env.graph.isSome then q.fromNamed else q.fromDefault

/-- The nodes at the other end of the edges of one step. -/
def stepFrom (s : Source) (g : Ground) (step : Path) (start : Term) : List Term :=
  let far := (effectiveIndex step .subject).reverse
  let os := s.matchStep g.query g.env g.pattern step (some ⟨start, none⟩) .subject g.env.graph
    (restriction g.query g.env)
  (os.filterMap fun o => (o.node far).map (·.term)).eraseDups

/-- Each round of a closure but the last finds a node of the store, or the start itself. -/
def rounds (s : Source) : Nat := s.store.dictionary.terms.length + 2

/-- The nodes that a path leads to from a start, each once and in the order of discovery. -/
def follow (s : Source) (g : Ground) : Path → Term → List Term
  | .predicate name, start => s.stepFrom g (.predicate name) start
  | .negated names, start => s.stepFrom g (.negated names) start
  | .inverse p, start =>
    if p.isStep then s.stepFrom g (.inverse p) start else follow s g p.reverse start
  | .seq p q, start => ((follow s g p start).flatMap (follow s g q)).eraseDups
  | .alt p q, start => (follow s g p start ++ follow s g q start).eraseDups
  | .zeroOrOne p, start => (start :: follow s g p start).eraseDups
  | .zeroOrMore p, start => closure (follow s g p) s.rounds [start] [start]
  | .oneOrMore p, start => closure (follow s g p) s.rounds [] [start]
termination_by p => p.size
decreasing_by
  all_goals simp only [Path.size]
  case _ h =>
    rw [if_neg h]
    exact Nat.lt_succ_of_le p.size_reverse_le
  all_goals omega

/-- The same nodes without reversing paths: walked backwards, a path is read from its end. -/
def reach (s : Source) (g : Ground) : Path → (backwards : Bool) → Term → List Term
  | .predicate name, backwards, start =>
    s.stepFrom g (if backwards then .inverse (.predicate name) else .predicate name) start
  | .negated names, backwards, start =>
    s.stepFrom g (if backwards then .inverse (.negated names) else .negated names) start
  | .inverse p, backwards, start => reach s g p (!backwards) start
  | .seq p q, backwards, start =>
    if backwards then ((reach s g q true start).flatMap (reach s g p true)).eraseDups
    else ((reach s g p false start).flatMap (reach s g q false)).eraseDups
  | .alt p q, backwards, start =>
    (reach s g p backwards start ++ reach s g q backwards start).eraseDups
  | .zeroOrOne p, backwards, start => (start :: reach s g p backwards start).eraseDups
  | .zeroOrMore p, backwards, start => closure (reach s g p backwards) s.rounds [start] [start]
  | .oneOrMore p, backwards, start => closure (reach s g p backwards) s.rounds [] [start]

/-- The nodes from which a path with two free ends is walked. -/
def startNodes (s : Source) (q : Query) (env : Environment) : List Term :=
  let nodes : List Node :=
    match env.graph with
    | none => s.store.nodes none
    | some (.var v) =>
      match env.get? q v with
      | some g => s.store.nodes (some ⟨g, none⟩)
      | none => s.store.nodes none
    | some (.const t) =>
      match s.store.graphNode? t with
      | some g => s.store.nodes (some g)
      | none => []
  nodes.map (·.term)

end Source

end GraphQuery
