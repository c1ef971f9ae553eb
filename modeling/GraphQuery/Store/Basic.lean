import GraphQuery.Store.Dictionary
import GraphQuery.Store.Index

/-! Stores of edges in a default graph and in named graphs, and how they grow. An insertion that
is refused changes nothing. -/

namespace GraphQuery

inductive StoreError where
  | invalidTerm (t : Term) (position : Position)
  | invalidPredicate (t : Term)
deriving DecidableEq

def StoreError.message : StoreError → String
  | invalidTerm t position =>
    "The term " ++ t.render ++ " cannot be stored in the " ++ position.name ++ " position."
  | invalidPredicate t => "The term " ++ t.render ++ " cannot be used as a predicate."

/-- The places of an occurrence before it is stored. -/
structure Quad where
  subject : Term
  predicate : Term
  object : Term
  graph : Option Term

structure Store where
  dictionary : Dictionary := {}
  /-- The edges of each predicate, in the order of the predicates' numbers. -/
  predicates : List (Nat × PredicateIndex) := []
  namedGraphs : List Nat := []
  /-- Whether instances belong to the super-classes of their classes. -/
  entailment : Bool := false
  /-- The number of occurrences. -/
  len : Nat := 0

namespace Store

/-- Whether a term can be the start of an edge or name a graph. -/
def isResource (t : Term) : Bool := !t.isLiteral && !t.isObject

/-- The first reason to refuse a quad. -/
def check (q : Quad) : Except StoreError Unit := do
  unless isResource q.subject do throw (.invalidTerm q.subject .subject)
  unless q.predicate.isIri do throw (.invalidPredicate q.predicate)
  if q.object.isObject then throw (.invalidTerm q.object .object)
  match q.graph with
  | some g => unless isResource g do throw (.invalidTerm g .graph)
  | none => pure ()

def encode (s : Store) (t : Term) : Store × Nat :=
  let (dictionary, id) := s.dictionary.encode t
  ({ s with dictionary }, id)

def declareGraph (s : Store) (id : Nat) : Store :=
  { s with namedGraphs := Sorted.insert compare id s.namedGraphs }

/-- Numbers the name of a graph and declares the graph. -/
def encodeGraph (s : Store) : Option Term → Store × Option Nat
  | none => (s, none)
  | some g =>
    let (s, id) := s.encode g
    (s.declareGraph id, some id)

def index? (s : Store) (predicate : Nat) : Option PredicateIndex := s.predicates.lookup predicate

/-- Inserts an edge into the index of a predicate, which is created if there is none. -/
def insertInto (predicate : Nat) (e : EncodedEdge) :
    List (Nat × PredicateIndex) → List (Nat × PredicateIndex)
  | [] => [(predicate, PredicateIndex.insert {} e)]
  | (p, i) :: rest =>
    if predicate < p then (predicate, PredicateIndex.insert {} e) :: (p, i) :: rest
    else if predicate = p then (p, i.insert e) :: rest
    else (p, i) :: insertInto predicate e rest

/-- Adds an edge of numbered nodes; the second component tells whether it is new. -/
def addEdge (s : Store) (predicate : Nat) (e : EncodedEdge) : Store × Bool :=
  if (s.index? predicate).any (·.contains e) then (s, false)
  else ({ s with predicates := insertInto predicate e s.predicates, len := s.len + 1 }, true)

/-- Inserts a quad that passed the check. -/
def insertChecked (s : Store) (q : Quad) : Store × Bool :=
  let (s, subject) := s.encode q.subject
  let (s, predicate) := s.encode q.predicate
  let (s, object) := s.encode q.object
  let (s, graph) := s.encodeGraph q.graph
  s.addEdge predicate ⟨subject, object, graph⟩

/-- Inserts a quad; the second component tells whether it is new. -/
def insert (s : Store) (q : Quad) : Except StoreError (Store × Bool) := do
  check q
  pure (s.insertChecked q)

/-- Inserts quads up to the first that is refused, and counts the new ones. What was inserted
before stays. -/
def insertAll (s : Store) : List Quad → Store × Except StoreError Nat
  | [] => (s, .ok 0)
  | q :: qs =>
    match s.insert q with
    | .error e => (s, .error e)
    | .ok (s, new) =>
      let (s, rest) := s.insertAll qs
      (s, rest.map (· + if new then 1 else 0))

/-- Declares a named graph, which may have no edges; the second component tells whether it is
new. -/
def insertNamedGraph (s : Store) (g : Term) : Except StoreError (Store × Bool) := do
  unless isResource g do throw (.invalidTerm g .graph)
  let (s, id) := s.encode g
  pure (s.declareGraph id, !s.namedGraphs.contains id)

def isEmpty (s : Store) : Bool := s.len == 0

end Store

end GraphQuery
