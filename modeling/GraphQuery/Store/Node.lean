import GraphQuery.Term.Canonical
import GraphQuery.Term.Render

/-! Nodes, edges and the places where edges occur. A node is a canonical term, with its number if
it comes from a store; it is equal to every other node of the same term. -/

namespace GraphQuery

/-- A place in an occurrence of an edge, or in a list of path steps. -/
inductive Position where
  | subject
  | object
  | graph
  | list
deriving DecidableEq

namespace Position

/-- Exchanges the two ends of an edge. -/
def reverse : Position → Position
  | subject => object
  | object => subject
  | p => p

def index : Position → Int
  | subject => 0
  | object => 1
  | graph => -1
  | list => -2

def name : Position → String
  | subject => "subject"
  | object => "object"
  | graph => "graph"
  | list => "list"

end Position

structure Node where
  term : Term
  id : Option Nat

namespace Node

/-- The node of a term that belongs to no store. -/
def ofTerm (t : Term) : Node := ⟨t.canonical, none⟩

/-- The node of a term with its number in a store. -/
def numbered (t : Term) (id : Nat) : Node := ⟨t.canonical, some id⟩

instance : BEq Node := ⟨fun a b => a.term == b.term⟩

def isExternal (n : Node) : Bool := n.id.isNone

def render (n : Node) : String := n.term.render

/-- The text of a node together with its number. -/
def renderNumbered (n : Node) : String :=
  match n.id with
  | some id => n.render ++ "#" ++ String.ofList (Digits.ofNat id)
  | none => n.render

end Node

structure Edge where
  subject : Node
  predicate : Node
  object : Node
deriving BEq

namespace Edge

/-- The node at an end of an edge. -/
def node : Edge → Position → Option Node
  | e, .subject => some e.subject
  | e, .object => some e.object
  | _, .graph | _, .list => none

def render (e : Edge) : String :=
  e.subject.render ++ " " ++ e.predicate.render ++ " " ++ e.object.render

/-- Whether the edge relates an instance to its class. -/
def isType (e : Edge) : Bool := e.predicate.term.isTypePredicate

end Edge

/-- An edge in one of the graphs of a store; the default graph has no name. -/
structure Occurrence where
  edge : Edge
  graph : Option Node
deriving BEq

namespace Occurrence

def node (o : Occurrence) : Position → Option Node
  | .graph => o.graph
  | p => o.edge.node p

def render (o : Occurrence) : String :=
  match o.graph with
  | some g => o.edge.render ++ " " ++ g.render
  | none => o.edge.render

end Occurrence

end GraphQuery
