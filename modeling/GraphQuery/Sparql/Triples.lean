import GraphQuery.Sparql.Path

/-! Reading of triples: statements with several predicates and objects, lists, and nodes that are
described where they stand. -/

namespace GraphQuery.Sparql

open Rule

/-- What stands between a subject and an object. -/
inductive Verb where
  | var (v : Variable)
  | path (p : Path)

/-- A condition that relates two nodes. -/
inductive Link where
  | triple (t : TriplePattern)
  | path (subject : TermPattern) (p : Path) (object : TermPattern)

/-- Something with the links that its text states on the way. -/
structure Described (α : Type) where
  item : α
  links : List Link := []

/-! ### Links of a statement -/

/-- Steps forward and backward are triples, and a sequence has a node in its middle; other paths
stay. -/
def pathLinks (s : TermPattern) (p : Path) (o : TermPattern) : Rule (List Link) :=
  match p with
  | .predicate name => pure [.triple ⟨s, .const (.iri name), o⟩]
  | .inverse p => pathLinks o p s
  | .seq p q => do
    let middle ← inventBlank
    let first ← pathLinks s p middle
    let second ← pathLinks middle q o
    pure (first ++ second)
  | p => pure [.path s p o]

def verbLinks (s : TermPattern) (verb : Verb) (o : TermPattern) : Rule (List Link) :=
  match verb with
  | .var v => pure [.triple ⟨s, .var v, o⟩]
  | .path p => pathLinks s p o

abbrev Properties := List (Verb × List TermPattern)

def propertyLinks (s : TermPattern) (properties : Properties) : Rule (List Link) := do
  let links ← properties.mapM fun (verb, objects) => objects.mapM (verbLinks s verb)
  pure (links.map List.flatten).flatten

/-! ### Nodes -/

def term : Rule TermPattern :=
  firstOf [
    TermPattern.var <$> variableName,
    TermPattern.const <$> groundTerm,
    blankNode,
    do
      emptyPair '(' ')'
      pure (.const (.iri Iri.rdfNil))]

def objectList (node : Rule (Described TermPattern)) :
    Rule (Described (List TermPattern)) := do
  let nodes ← separated (do symbol ","; space) (spaced node)
  pure ⟨nodes.map (·.item), nodes.flatMap (·.links)⟩

def property (verb : Rule Verb) (node : Rule (Described TermPattern)) :
    Rule (Described (Verb × List TermPattern)) := do
  let verb ← verb
  space
  let objects ← objectList node
  pure ⟨(verb, objects.item), objects.links⟩

def propertyList (verb : Rule Verb) (node : Rule (Described TermPattern)) :
    Rule (Described Properties) := do
  let first ← property verb node
  space
  let rest ← many do
    symbol ";"
    space
    attempt (property verb node)
  let all := first :: rest.filterMap id
  pure ⟨all.map (·.item), all.flatMap (·.links)⟩

/-- A list node holds an item and the rest of the list; the last items come first. -/
def listLinks : List (Described TermPattern) → Rule (Described TermPattern)
  | [] => pure ⟨.const (.iri Iri.rdfNil), []⟩
  | d :: ds => do
    let rest ← listLinks ds
    let node ← inventBlank
    pure ⟨node, rest.links ++ [.triple ⟨node, .const (.iri Iri.rdfFirst), d.item⟩,
      .triple ⟨node, .const (.iri Iri.rdfRest), rest.item⟩] ++ d.links⟩

/-- A node that is described in brackets or as a list. -/
def describedNode (verb : Rule Verb) (node : Rule (Described TermPattern)) :
    Rule (Described TermPattern) :=
  (do
    symbol "("
    space
    let ds ← many1 (spaced node)
    symbol ")"
    listLinks ds).or do
  let properties ← between "[" "]" (propertyList verb node)
  let blank ← inventBlank
  let links ← propertyLinks blank properties.item
  pure ⟨blank, properties.links ++ links⟩

/-- Reads nodes whose descriptions are nested less than `n` deep. -/
def node (verb : Rule Verb) : Nat → Rule (Described TermPattern)
  | 0 => failure
  | n + 1 => fun s => ((Described.mk · []) <$> term).or (describedNode verb (node verb n)) s

/-! ### Statements -/

/-- The properties of a described node may be missing. -/
def statement (verb : Rule Verb) (depth : Nat) : Rule (List Link) :=
  (do
    let s ← term
    space
    let properties ← propertyList verb (node verb depth)
    let links ← propertyLinks s properties.item
    pure (properties.links ++ links)).or do
  let s ← describedNode verb (node verb depth)
  space
  let properties ← (propertyList verb (node verb depth)).or (pure ⟨[], []⟩)
  let links ← propertyLinks s.item properties.item
  pure (s.links ++ properties.links ++ links)

def pathVerb (depth : Nat) : Rule Verb :=
  (Verb.path <$> path depth).or (Verb.var <$> variableName)

/-- The predicates of templates, which hold no paths. -/
def plainVerb : Rule Verb :=
  (Verb.var <$> variableName).or ((Verb.path ∘ Path.predicate) <$> predicateName)

/-- Statements with dots between them; the last dot may be missing. -/
def statements (depth : Nat) : Rule (List Link) := do
  let items ← separated (symbol ".") do
    space
    spaced (statement (pathVerb depth) depth)
  let _ ← attempt (spaced (symbol "."))
  pure items.flatten

/-- The statements of a template. -/
def template (depth : Nat) : Rule (List Link) := do
  let items ← (separated (spaced (symbol ".")) (spaced (statement plainVerb depth))).or (pure [])
  let _ ← attempt (symbol ".")
  pure items.flatten

end GraphQuery.Sparql
