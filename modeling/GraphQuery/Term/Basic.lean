import GraphQuery.Iri.Basic

/-! Terms: the nodes of a graph and the values of expressions. -/

namespace GraphQuery

structure Variable where
  name : String
deriving DecidableEq, Repr

inductive Literal where
  | typed (lexical : String) (datatype : Iri)
  | tagged (lexical language : String)
deriving DecidableEq, Repr

namespace Literal

def simple (text : String) : Literal := typed text Iri.xsdString

def ofBool (b : Bool) : Literal := typed (if b then "true" else "false") Iri.xsdBoolean

def lexical : Literal → String
  | typed s _ | tagged s _ => s

def datatype : Literal → Iri
  | typed _ d => d
  | tagged _ _ => Iri.langString

def language : Literal → Option String
  | typed _ _ => none
  | tagged _ l => some l

end Literal

/-- Besides the nodes of a graph there are objects that no graph holds: those that a caller passes
in, told apart by their key, and snapshots of bindings, told apart by the trail of choices on
which they were taken. -/
inductive Term where
  | iri (name : Iri)
  | blank (label : String)
  | literal (value : Literal)
  | object (label : String) (key : Nat)
  | snapshot (label : String) (trail : List Nat) (names : List Variable) (values : List Term)
deriving Repr

namespace Term

mutual

/-- Terms are equal part by part. -/
def decEq : (a b : Term) → Decidable (a = b)
  | iri x, iri y => decidable_of_iff (x = y) (by simp)
  | blank x, blank y => decidable_of_iff (x = y) (by simp)
  | literal x, literal y => decidable_of_iff (x = y) (by simp)
  | object x k, object y l => decidable_of_iff (x = y ∧ k = l) (by simp)
  | snapshot x s ns ts, snapshot y t ms us =>
    have := listDecEq ts us
    decidable_of_iff (x = y ∧ s = t ∧ ns = ms ∧ ts = us) (by simp)
  | iri _, blank _ | iri _, literal _ | iri _, object _ _ | iri _, snapshot _ _ _ _
  | blank _, iri _ | blank _, literal _ | blank _, object _ _ | blank _, snapshot _ _ _ _
  | literal _, iri _ | literal _, blank _ | literal _, object _ _ | literal _, snapshot _ _ _ _
  | object _ _, iri _ | object _ _, blank _ | object _ _, literal _ | object _ _, snapshot _ _ _ _
  | snapshot _ _ _ _, iri _ | snapshot _ _ _ _, blank _ | snapshot _ _ _ _, literal _
  | snapshot _ _ _ _, object _ _ => isFalse (by simp)

def listDecEq : (as bs : List Term) → Decidable (as = bs)
  | [], [] => isTrue rfl
  | a :: as, b :: bs =>
    have := decEq a b
    have := listDecEq as bs
    decidable_of_iff (a = b ∧ as = bs) (by simp)
  | [], _ :: _ | _ :: _, [] => isFalse (by simp)

end

instance : DecidableEq Term := decEq

instance : Inhabited Term := ⟨blank ""⟩

instance : Coe Literal Term := ⟨literal⟩

def ofBool (b : Bool) : Term := literal (.ofBool b)

def isIri : Term → Bool
  | iri _ => true
  | _ => false

def isBlank : Term → Bool
  | blank _ => true
  | _ => false

def isLiteral : Term → Bool
  | literal _ => true
  | _ => false

def isObject : Term → Bool
  | object _ _ | snapshot _ _ _ _ => true
  | _ => false

def literal? : Term → Option Literal
  | literal l => some l
  | _ => none

def iri? : Term → Option Iri
  | iri name => some name
  | _ => none

/-- The label of an object, which is all that is known of it outside of this library. -/
def objectLabel? : Term → Option String
  | object label _ | snapshot label _ _ _ => some label
  | _ => none

/-- Whether the term is the predicate that relates an instance to its class. -/
def isTypePredicate (t : Term) : Bool := t == iri Iri.rdfType

end Term

end GraphQuery
