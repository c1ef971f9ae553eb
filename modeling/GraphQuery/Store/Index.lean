/-! The edges of one predicate, sorted for each way of looking them up. Nodes are given by their
numbers; among occurrences of one edge that of the default graph comes first. -/

namespace GraphQuery

/-- The places of an occurrence, by number. -/
structure EncodedEdge where
  subject : Nat
  object : Nat
  graph : Option Nat
deriving DecidableEq

namespace Sorted

/-- Inserts into a sorted list without repetitions. -/
def insert {α : Type} (order : α → α → Ordering) (a : α) : List α → List α
  | [] => [a]
  | b :: bs =>
    match order a b with
    | .lt => a :: b :: bs
    | .eq => b :: bs
    | .gt => b :: insert order a bs

end Sorted

/-- No graph comes before all graphs. -/
def compareGraph : Option Nat → Option Nat → Ordering
  | none, none => .eq
  | none, some _ => .lt
  | some _, none => .gt
  | some a, some b => compare a b

namespace EncodedEdge

def bySubject (a b : EncodedEdge) : Ordering :=
  (compare a.subject b.subject).then <|
    (compare a.object b.object).then (compareGraph a.graph b.graph)

def byObject (a b : EncodedEdge) : Ordering :=
  (compare a.object b.object).then <|
    (compare a.subject b.subject).then (compareGraph a.graph b.graph)

def byGraph (a b : EncodedEdge) : Ordering :=
  (compareGraph a.graph b.graph).then <|
    (compare a.subject b.subject).then (compare a.object b.object)

end EncodedEdge

structure PredicateIndex where
  bySubject : List EncodedEdge := []
  byObject : List EncodedEdge := []
  byGraph : List EncodedEdge := []

namespace PredicateIndex

/-- Only occurrences in named graphs are found by graph. -/
def insert (i : PredicateIndex) (e : EncodedEdge) : PredicateIndex where
  bySubject := Sorted.insert EncodedEdge.bySubject e i.bySubject
  byObject := Sorted.insert EncodedEdge.byObject e i.byObject
  byGraph := if e.graph.isSome then Sorted.insert EncodedEdge.byGraph e i.byGraph else i.byGraph

def contains (i : PredicateIndex) (e : EncodedEdge) : Bool := i.bySubject.contains e

def all (i : PredicateIndex) : List EncodedEdge := i.bySubject

/-- The edges of a subject, and of an object if one is given. -/
def ofSubject (i : PredicateIndex) (subject : Nat) (object : Option Nat) : List EncodedEdge :=
  i.bySubject.filter fun e => e.subject == subject && object.all (e.object == ·)

/-- The edges of an object, and of a subject if one is given. -/
def ofObject (i : PredicateIndex) (object : Nat) (subject : Option Nat) : List EncodedEdge :=
  i.byObject.filter fun e => e.object == object && subject.all (e.subject == ·)

def ofGraph (i : PredicateIndex) (graph : Nat) : List EncodedEdge :=
  i.byGraph.filter fun e => e.graph == some graph

end PredicateIndex

end GraphQuery
