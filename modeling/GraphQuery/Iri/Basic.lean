/-! Names of resources, and the names that the query language itself gives a meaning to. -/

namespace GraphQuery

structure Iri where
  text : String
deriving DecidableEq, Repr

namespace Iri

/-! ### Datatypes -/

def schema : String := "http://www.w3.org/2001/XMLSchema#"

def xsdString : Iri := ⟨"http://www.w3.org/2001/XMLSchema#string"⟩

def xsdBoolean : Iri := ⟨"http://www.w3.org/2001/XMLSchema#boolean"⟩

def xsdInteger : Iri := ⟨"http://www.w3.org/2001/XMLSchema#integer"⟩

def xsdDecimal : Iri := ⟨"http://www.w3.org/2001/XMLSchema#decimal"⟩

def xsdFloat : Iri := ⟨"http://www.w3.org/2001/XMLSchema#float"⟩

def xsdDouble : Iri := ⟨"http://www.w3.org/2001/XMLSchema#double"⟩

def xsdDateTime : Iri := ⟨"http://www.w3.org/2001/XMLSchema#dateTime"⟩

/-- The datatype of strings with a language. -/
def langString : Iri := ⟨"http://www.w3.org/1999/02/22-rdf-syntax-ns#langString"⟩

/-- The local names of the datatypes whose values are integers of a smaller range. -/
def integerNames : List String :=
  ["byte", "short", "int", "long", "unsignedByte", "unsignedShort", "unsignedInt", "unsignedLong",
    "positiveInteger", "negativeInteger", "nonPositiveInteger", "nonNegativeInteger"]

/-- The datatypes whose values are read as integers. -/
def integerTypes : List Iri := xsdInteger :: integerNames.map fun name => ⟨schema ++ name⟩

/-! ### Predicates and functions -/

def rdfType : Iri := ⟨"http://www.w3.org/1999/02/22-rdf-syntax-ns#type"⟩

def rdfFirst : Iri := ⟨"http://www.w3.org/1999/02/22-rdf-syntax-ns#first"⟩

def rdfRest : Iri := ⟨"http://www.w3.org/1999/02/22-rdf-syntax-ns#rest"⟩

def rdfNil : Iri := ⟨"http://www.w3.org/1999/02/22-rdf-syntax-ns#nil"⟩

def subClassOf : Iri := ⟨"http://www.w3.org/2000/01/rdf-schema#subClassOf"⟩

/-- The function that returns the bindings in force. -/
def kgSystem : Iri := ⟨"http://ns.inria.fr/corese/kgram/system"⟩

/-- Asks for the local bindings instead of those of the solution. -/
def kgStack : Iri := ⟨"http://ns.inria.fr/corese/kgram/stack"⟩

end Iri

end GraphQuery
