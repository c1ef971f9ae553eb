import GraphQuery.Closure
import GraphQuery.Store.Lookup

/-! The hierarchy of classes in a store, and sequences of occurrences that are restricted by graph
or class. -/

namespace GraphQuery

namespace Store

/-- The direct super-classes of a class. -/
def superClasses (s : Store) (sub : Node) (c : Term) : List Term :=
  (s.edgesFor sub (some ⟨c, none⟩) none .subject).map (·.edge.object.term)

/-- Whether a class is another one or below it. -/
def subsumes (s : Store) (expected actual : Node) : Bool :=
  expected == actual ||
    match s.propertyNode? (.iri Iri.subClassOf) with
    | none => false
    | some sub =>
      (closure (s.superClasses sub) (s.dictionary.terms.length + 1) [] [actual.term]).contains
        expected.term

end Store

namespace Occurrence

/-- The graphs of a list, or all if the list is empty. -/
def inOneOf (graphs : List Node) (o : Occurrence) : Bool :=
  graphs.isEmpty || o.graph.any graphs.contains

/-- Leaves out an occurrence of the same edge as the one before it. -/
def dropRepeats : Option Edge → List Occurrence → List Occurrence
  | _, [] => []
  | previous, o :: os =>
    if previous == some o.edge then dropRepeats previous os else o :: dropRepeats (some o.edge) os

/-- The occurrences in some graphs, or in all, each edge once if its occurrences follow one
another. -/
def successiveDistinct (graphs : List Node) (skip : Bool) (os : List Occurrence) :
    List Occurrence :=
  let os := os.filter (inOneOf graphs)
  if skip then os else dropRepeats none os

/-- The occurrences in one named graph, or in some of them, or in all. -/
def inGraphs (graph : Option Node) (named : List Node) (os : List Occurrence) : List Occurrence :=
  os.filter fun o =>
    match o.graph, graph with
    | none, _ => false
    | some actual, some expected => actual == expected
    | some _, none => inOneOf named o

/-- Leaves out instances of classes that are not below the given one. -/
def «matching» (s : Store) (expected : Option Node) (os : List Occurrence) : List Occurrence :=
  match expected with
  | none => os
  | some c => os.filter fun o => !o.edge.isType || s.subsumes c o.edge.object

end Occurrence

end GraphQuery
