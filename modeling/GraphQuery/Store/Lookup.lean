import GraphQuery.Store.Basic

/-! Reading a store. Nodes of any origin may be asked for; what is not stored is not found. -/

namespace GraphQuery.Store

def node? (s : Store) (t : Term) : Option Node := (s.dictionary.id? t).bind s.dictionary.node?

/-- The node of a term that is a predicate in use. -/
def propertyNode? (s : Store) (t : Term) : Option Node :=
  ((s.dictionary.id? t).filter fun id => (s.index? id).isSome).bind s.dictionary.node?

/-- The node of a term that names a graph. -/
def graphNode? (s : Store) (t : Term) : Option Node :=
  ((s.dictionary.id? t).filter s.namedGraphs.contains).bind s.dictionary.node?

def isGraphNode (s : Store) (n : Node) : Bool :=
  (s.dictionary.resolve? n).any s.namedGraphs.contains

def graphNodes (s : Store) : List Node := s.namedGraphs.filterMap s.dictionary.node?

/-- The predicates in use, in the order of their numbers. -/
def predicateNodes (s : Store) : List Node :=
  s.predicates.filterMap fun (id, _) => s.dictionary.node? id

/-- An occurrence with the nodes that its numbers stand for. -/
def decode? (s : Store) (predicate : Node) (e : EncodedEdge) : Option Occurrence := do
  let subject ← s.dictionary.node? e.subject
  let object ← s.dictionary.node? e.object
  let graph ← match e.graph with
    | none => some none
    | some g => (s.dictionary.node? g).map some
  some ⟨⟨subject, predicate, object⟩, graph⟩

/-- The edges of an index that have a node at a position and another one at the opposite end. -/
def select (s : Store) (i : PredicateIndex) (bound second : Option Node) (position : Position) :
    List EncodedEdge :=
  match bound with
  | none => i.all
  | some bound =>
    match s.dictionary.resolve? bound, second.map s.dictionary.resolve? with
    | none, _ | _, some none => []
    | some key, second =>
      let second := second.join
      match position with
      | .subject => i.ofSubject key second
      | .object => i.ofObject key second
      | .graph => i.ofGraph key
      | .list => i.all

/-- The occurrences of a predicate with a node at a position, and with another one at the opposite
end. They are sorted by the node looked up, the other end, and the graph, so that occurrences of
one edge follow one another. -/
def edgesFor (s : Store) (predicate : Node) (bound second : Option Node) (position : Position) :
    List Occurrence :=
  match (s.dictionary.resolve? predicate).bind fun id => (s.index? id).map fun i => (id, i) with
  | none => []
  | some (id, i) =>
    match s.dictionary.node? id with
    | none => []
    | some p => (s.select i bound second position).filterMap (s.decode? p)

/-- The nodes at the ends of edges, in the order of their numbers, of all graphs or of one. -/
def nodes (s : Store) (graph : Option Node) : List Node :=
  let edges : List EncodedEdge :=
    match graph with
    | none => s.predicates.flatMap fun (_, i) => i.all
    | some g =>
      match s.dictionary.resolve? g with
      | none => []
      | some g => s.predicates.flatMap fun (_, i) => i.ofGraph g
  let ids := edges.foldl
    (fun ids e => Sorted.insert compare e.object (Sorted.insert compare e.subject ids)) []
  ids.filterMap s.dictionary.node?

end GraphQuery.Store
