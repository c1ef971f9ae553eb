import GraphQuery.Query.Expr

/-! Functions that a query or its surroundings define. A call finds a definition by name and
number of arguments. -/

namespace GraphQuery

structure Definition where
  name : Iri
  parameters : List Variable
  body : Expr

instance : Inhabited Definition := ⟨⟨⟨""⟩, [], default⟩⟩

namespace Definition

def arity (d : Definition) : Nat := d.parameters.length

/-- The definition, if it takes this number of arguments. -/
def accepts? (count : Nat) (d : Definition) : Option Definition :=
  if d.arity = count then some d else none

end Definition

/-- Definitions by name, the newest first; an older one of the same name is out of reach. -/
structure FunctionTable where
  definitions : List Definition := []

namespace FunctionTable

def define (t : FunctionTable) (d : Definition) : FunctionTable := ⟨d :: t.definitions⟩

def ofList (ds : List Definition) : FunctionTable := ds.foldl define {}

def get? (t : FunctionTable) (name : Iri) : Option Definition :=
  t.definitions.find? (·.name == name)

def isEmpty (t : FunctionTable) : Bool := t.definitions.isEmpty

def resolve? (t : FunctionTable) (name : Iri) (count : Nat) : Option Definition :=
  (t.get? name).bind (Definition.accepts? count)

end FunctionTable

/-- What is registered for a name. -/
inductive Provider where
  | definition (d : Definition)
  | table (t : FunctionTable)

def Provider.resolve? (name : Iri) (count : Nat) : Provider → Option Definition
  | definition d => if d.name = name then d.accepts? count else none
  | table t => t.resolve? name count

def Provider.size : Provider → Nat
  | definition _ => 1
  | table t => t.definitions.length

/-- Providers by name, the newest first. -/
structure Registry where
  providers : List (Iri × Provider) := []

namespace Registry

def register (r : Registry) (name : Iri) (p : Provider) : Registry := ⟨(name, p) :: r.providers⟩

/-- Registers a definition under its own name. -/
def define (r : Registry) (d : Definition) : Registry := r.register d.name (.definition d)

/-- The number of definitions of all providers. -/
def size (r : Registry) : Nat := r.providers.foldr (fun (_, p) n => p.size + n) 0

def contains (r : Registry) (name : Iri) : Bool := (r.providers.lookup name).isSome

def isEmpty (r : Registry) : Bool := r.providers.isEmpty

def resolve? (r : Registry) (name : Iri) (count : Nat) : Option Definition :=
  (r.providers.lookup name).bind (Provider.resolve? name count)

end Registry

/-- The definitions that call sites remember. -/
structure Remembered where
  sites : List (Nat × Definition) := []

namespace Remembered

def get? (r : Remembered) (site : Nat) : Option Definition := r.sites.lookup site

/-- A site that remembers a definition keeps it. -/
def remember (r : Remembered) (site : Nat) (d : Definition) : Remembered :=
  if (r.get? site).isSome then r else ⟨(site, d) :: r.sites⟩

end Remembered

end GraphQuery
