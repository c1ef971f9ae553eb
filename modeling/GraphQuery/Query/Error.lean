import GraphQuery.Store.Basic

/-! What can be wrong with a query itself. Expressions without a value are no errors. -/

namespace GraphQuery

/-- Parts of the query language that are read and then refused. -/
inductive Feature where
  | construct
  | describe
  | service
  /-- Solution modifiers below the top of a query. -/
  | subQuery
  /-- The bindings in force are asked for in a form that has no meaning. -/
  | systemArguments
  | function (name : String)
  | aggregate (name : Iri)
deriving DecidableEq

def Feature.text : Feature → String
  | construct => "CONSTRUCT"
  | describe => "DESCRIBE"
  | service => "SERVICE"
  | subQuery => "sub-query"
  | systemArguments => "kg:system with arguments"
  | function name => "function " ++ name
  | aggregate name => "custom aggregate " ++ (Term.iri name).render

inductive QueryError where
  | undeclaredPattern (id : Nat)
  | missingEvaluator
  | unknownVariable (v : Variable)
  | notImplemented (feature : Feature)
  | store (e : StoreError)
  | malformed
  /-- Definitions and patterns call each other without end. -/
  | tooDeep
deriving DecidableEq

def QueryError.message : QueryError → String
  | undeclaredPattern id =>
    "The pattern PatternId(" ++ String.ofList (Digits.ofNat id) ++ ") is not declared in the query"
  | missingEvaluator => "No sub-evaluator is available to evaluate EXISTS"
  | unknownVariable v => "The variable " ++ v.render ++ " is not declared in the query"
  | notImplemented feature => "A feature has not yet been implemented: " ++ feature.text
  | store e => e.message
  | malformed => "The text is not a query"
  | tooDeep => "The evaluation does not come to an end"

end GraphQuery
