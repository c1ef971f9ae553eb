import GraphQuery.Store.Node

/-! The numbering of terms. Each canonical term has one number, given out in the order of arrival
and never again. -/

namespace GraphQuery

/-- The term at each place has that place as its number. -/
structure Dictionary where
  terms : List Term := []

namespace Dictionary

def term? (d : Dictionary) (id : Nat) : Option Term := d.terms[id]?

/-- The number of a term in any of its forms. -/
def id? (d : Dictionary) (t : Term) : Option Nat := d.terms.idxOf? t.canonical

/-- Numbers a term that has no number yet. -/
def encode (d : Dictionary) (t : Term) : Dictionary × Nat :=
  match d.id? t with
  | some id => (d, id)
  | none => (⟨d.terms ++ [t.canonical]⟩, d.terms.length)

def node? (d : Dictionary) (id : Nat) : Option Node := (d.term? id).map fun t => ⟨t, some id⟩

/-- The number of a node of any origin: the one that it carries if it denotes the term here, else
the one of its term. -/
def resolve? (d : Dictionary) (n : Node) : Option Nat :=
  match n.id with
  | some id => if d.term? id = some n.term then some id else d.terms.idxOf? n.term
  | none => d.terms.idxOf? n.term

end Dictionary

end GraphQuery
