import GraphQuery.Evaluate.Environment
import GraphQuery.Store.Hierarchy

/-! The occurrences in a store that can match a pattern. They are found through the index of the
first position that is bound; what else the pattern asks for is checked afterwards. -/

namespace GraphQuery

structure Options where
  /-- Keeps occurrences of one edge in several graphs apart. -/
  skipDuplicateTest : Bool := false
  /-- Matches instances of sub-classes if the store has entailment. -/
  typeMatching : Bool := false
  /-- The greatest number of solutions of a query's body. -/
  limit : Option Nat := none

/-- A store as it is seen by one evaluation. -/
structure Source where
  store : Store
  options : Options := {}
  /-- Whether a class also stands for those below it. -/
  hierarchical : Bool := options.typeMatching && store.entailment

/-- A place of a pattern as the store sees it: free, a node, or no node of the store. -/
inductive Lookup where
  | free
  | found (n : Node)
  | missing

def Lookup.node? : Lookup → Option Node
  | found n => some n
  | _ => none

namespace Source

/-- The node of a term, with its number if it is stored. -/
def node (s : Source) (t : Term) : Node := (s.store.node? t).getD (.ofTerm t)

/-- The named graphs of the store among some terms. -/
def graphNodes (s : Source) (names : List Term) : List Node := names.filterMap s.store.graphNode?

/-- The graphs that a variable graph ranges over. -/
def namedGraphs (s : Source) (names : List Term) : List Node :=
  if names.isEmpty then s.store.graphNodes else s.graphNodes names

/-- The term that a place of a pattern stands for. -/
def valueOf? (q : Query) (env : Environment) : NodePattern → Option Term
  | .const t => some t
  | .var v => env.get? q v

/-- Finds the node for a place of a pattern. -/
def lookup (s : Source) (q : Query) (env : Environment) (n : NodePattern) (position : Position) :
    Lookup :=
  match valueOf? q env n with
  | none => .free
  | some t =>
    let found := if position = .graph then s.store.graphNode? t else s.store.node? t
    (found.map Lookup.found).getD .missing

/-- Whether an occurrence may stand for a node at a position. -/
def accepts (s : Source) (o : Occurrence) (position : Position) (expected : Node) : Bool :=
  match o.node position with
  | none => false
  | some actual =>
    actual == expected ||
      (s.hierarchical && position == .object && o.edge.isType && s.store.subsumes expected actual)

/-- Restricts occurrences to the graph in force. -/
def inForce (s : Source) (q : Query) (env : Environment) (graph : Option NodePattern)
    (from_ : List Node) (os : List Occurrence) : List Occurrence :=
  match graph with
  | none => Occurrence.successiveDistinct from_ s.options.skipDuplicateTest os
  | some g =>
    match s.lookup q env g .graph with
    | .missing => []
    | .free => Occurrence.inGraphs none from_ os
    | .found n => Occurrence.inGraphs (some n) from_ os

/-- The predicates that a pattern can stand for. -/
def predicates (s : Source) (q : Query) (env : Environment) (n : NodePattern) : List Node :=
  match valueOf? q env n with
  | some t => (s.store.propertyNode? t).toList
  | none => s.store.predicateNodes

/-- The index for a pattern: the first bound position, unless a bound position is not stored. -/
inductive Selection where
  | nothing
  | all
  | at (position : Position) (n : Node)

/-- Instances of a class are not looked up by their class if the store has entailment. -/
def selectIndex (s : Source) (q : Query) (env : Environment) (e : EdgePattern)
    (graph : Option NodePattern) (isType : Bool) : Selection :=
  let candidates : List (Position × NodePattern) :=
    [(.subject, e.subject)] ++ (if isType && s.store.entailment then [] else [(.object, e.object)])
      ++ (graph.map fun g => (Position.graph, g)).toList
  let step (rest : Selection) (p : Position × NodePattern) : Selection :=
    match s.lookup q env p.2 p.1 with
    | .free => rest
    | .missing => .nothing
    | .found n => .at p.1 n
  candidates.foldr (fun p rest => step rest p) .all

/-- The candidates before the graph in force is taken into account. -/
def scan (s : Source) (q : Query) (env : Environment) (e : EdgePattern) (graph : Option NodePattern)
    (from_ : List Term) (predicates : List Node) (isType : Bool) : List Occurrence :=
  let listed := s.graphNodes from_
  match s.selectIndex q env e graph isType with
  | .nothing => []
  | .at .subject n =>
    match if isType then Lookup.free else s.lookup q env e.object .object with
    | .missing => []
    | object => predicates.flatMap fun p => s.store.edgesFor p (some n) object.node? .subject
  | .at position n => predicates.flatMap fun p => s.store.edgesFor p (some n) none position
  | .all =>
    match graph, from_ with
    | some _, _ :: _ =>
      predicates.flatMap fun p => listed.flatMap fun g => s.store.edgesFor p (some g) none .graph
    | none, _ :: _ =>
      if listed.isEmpty then []
      else predicates.flatMap fun p => s.store.edgesFor p none none .subject
    | _, [] => predicates.flatMap fun p => s.store.edgesFor p none none .subject

/-- The candidates for an edge pattern in the graph in force; `from_` lists the graphs that the
query is restricted to there. -/
def matchEdge (s : Source) (q : Query) (env : Environment) (e : EdgePattern)
    (graph : Option NodePattern) (from_ : List Term) : List Occurrence :=
  let predicates := s.predicates q env e.predicate
  let isType := match predicates with
    | [p] => p.term.isTypePredicate
    | _ => false
  let scanned := s.scan q env e graph from_ predicates isType
  let os := s.inForce q env graph (s.graphNodes from_) scanned
  if s.hierarchical && isType then
    Occurrence.matching s.store (s.lookup q env e.object .object).node? os
  else os

/-! ### Steps of paths -/

/-- The predicates that a step may follow, if the path is a single step. -/
def stepPredicates? (s : Source) : Path → Option (List Node)
  | .predicate name => some (s.store.propertyNode? (.iri name)).toList
  | .negated names => some (s.store.predicateNodes.filter fun p => !p.term.iri?.any names.contains)
  | .inverse p => s.stepPredicates? p
  | _ => none

/-- The position of the start of a step in the edges that it follows. -/
def effectiveIndex : Path → Position → Position
  | .inverse p, position => (effectiveIndex p position).reverse
  | _, position => position

/-- The occurrences that a step follows from a start, or from the end of a pattern. -/
def matchStep (s : Source) (q : Query) (env : Environment) (pattern : PathPattern) (step : Path)
    (start : Option Node) (position : Position) (graph : Option NodePattern) (from_ : List Term) :
    List Occurrence :=
  match s.stepPredicates? step with
  | none => []
  | some predicates =>
    let place := effectiveIndex step position
    let start : Lookup :=
      match start with
      | some n => ((s.store.node? n.term).map Lookup.found).getD .missing
      | none => ((pattern.node position).map fun n => s.lookup q env n place).getD .free
    match start with
    | .missing => []
    | start =>
      s.inForce q env graph (s.graphNodes from_) <|
        predicates.flatMap fun p => s.store.edgesFor p start.node? none place

end Source

end GraphQuery
