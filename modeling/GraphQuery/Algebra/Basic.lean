import GraphQuery.Query.Pattern

/-! The algebra of queries, as it is written down: every solution modifier is an operation on a
pattern, and patterns stand inside of the expressions that ask for their existence. -/

namespace GraphQuery

/-- The subject or object of a triple. -/
inductive TermPattern where
  | var (v : Variable)
  /-- A blank node stands for any node, the same one wherever its label occurs. -/
  | blank (label : String)
  | const (t : Term)
deriving DecidableEq

instance : Inhabited TermPattern := ⟨.blank ""⟩

structure TriplePattern where
  subject : TermPattern
  predicate : NodePattern
  object : TermPattern
deriving DecidableEq

/-- What an expression calls. -/
inductive FunctionName where
  | builtin (f : Builtin)
  /-- A function of the language that this library does not have. -/
  | missing (name : String)
  | custom (name : Iri)
deriving DecidableEq

/-- What an aggregate does with the values of its argument. -/
inductive AggregateName where
  | count
  | sum
  | avg
  | min
  | max
  | sample
  | groupConcat (separator : Option String)
  | custom (name : Iri)
deriving DecidableEq

mutual

inductive AlgebraExpr where
  | const (t : Term)
  | var (v : Variable)
  | or (a b : AlgebraExpr)
  | and (a b : AlgebraExpr)
  | not (a : AlgebraExpr)
  | binary (op : BinaryOp) (a b : AlgebraExpr)
  | unary (op : UnaryOp) (a : AlgebraExpr)
  | member (a : AlgebraExpr) (list : List AlgebraExpr)
  | existence (p : Algebra)
  | bound (v : Variable)
  | cond (test yes no : AlgebraExpr)
  | coalesce (args : List AlgebraExpr)
  | call (f : FunctionName) (args : List AlgebraExpr)

inductive AlgebraAggregate where
  /-- The number of solutions. -/
  | solutions (distinct : Bool)
  | apply (f : AggregateName) (argument : AlgebraExpr) (distinct : Bool)

/-- A key of the order of solutions. -/
inductive AlgebraKey where
  | ascending (e : AlgebraExpr)
  | descending (e : AlgebraExpr)

inductive Algebra where
  /-- Triples that hold together. -/
  | basic (triples : List TriplePattern)
  | path (subject : TermPattern) (p : Path) (object : TermPattern)
  | join (left right : Algebra)
  | leftJoin (left right : Algebra) (condition : Option AlgebraExpr)
  | filter (condition : AlgebraExpr) (inner : Algebra)
  | union (left right : Algebra)
  | graph (name : NodePattern) (inner : Algebra)
  | extend (inner : Algebra) (v : Variable) (e : AlgebraExpr)
  | minus (left right : Algebra)
  | values (vars : List Variable) (rows : List (List (Option Term)))
  | orderBy (inner : Algebra) (keys : List AlgebraKey)
  | project (inner : Algebra) (vars : List Variable)
  | distinct (inner : Algebra)
  | reduced (inner : Algebra)
  | slice (inner : Algebra) (start : Nat) (length : Option Nat)
  | group (inner : Algebra) (keys : List Variable) (aggregates : List (Variable × AlgebraAggregate))
  /-- A pattern that another endpoint is asked for. -/
  | service (name : NodePattern) (inner : Algebra) (silent : Bool)

end

/-- The pattern with one solution that binds nothing. -/
def Algebra.empty : Algebra := basic []

instance : Inhabited Algebra := ⟨.empty⟩

instance : Inhabited AlgebraExpr := ⟨.const default⟩

instance : Inhabited AlgebraAggregate := ⟨.solutions false⟩

inductive QueryForm where
  | select
  | ask
  | construct
  | describe
deriving DecidableEq

/-- A query before it is lowered. -/
structure AlgebraQuery where
  form : QueryForm
  /-- The graphs that the default graph is made of. -/
  fromDefault : List Iri := []
  /-- The graphs that names range over. -/
  fromNamed : List Iri := []
  pattern : Algebra

end GraphQuery
