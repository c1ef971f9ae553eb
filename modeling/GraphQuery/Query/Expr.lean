import GraphQuery.Value.Aggregate

/-! Expressions of filters, computed values and aggregates. -/

namespace GraphQuery

inductive Expr where
  | const (t : Term)
  | var (v : Variable)
  | and (args : List Expr)
  | or (args : List Expr)
  | not (a : Expr)
  | binary (op : BinaryOp) (a b : Expr)
  | unary (op : UnaryOp) (a : Expr)
  | member (a : Expr) (list : List Expr)
  | bound (v : Variable)
  | coalesce (args : List Expr)
  | cond (test yes : Expr) (no : Option Expr)
  /-- Evaluates the body with a local value for the variable. -/
  | letIn (v : Variable) (value body : Expr)
  /-- Asks whether a pattern of the query has a solution; patterns are counted from zero. -/
  | existence (pattern : Nat)
  /-- Without argument, the solutions themselves count. -/
  | aggregate (f : SetFunction) (argument : Option Expr) (distinct : Bool)
  | call (f : Builtin) (args : List Expr)
  /-- A call of a defined function. The site tells calls apart that remember definitions. -/
  | extension (site : Nat) (name : Iri) (args : List Expr)
  /-- The bindings in force, or those that the target asks for. -/
  | system (target : Option Term)

instance : Inhabited Expr := ⟨.const default⟩

namespace Expr

/-! ### Traversals -/

/-- Whether the expression needs a group to be evaluated over. -/
def isAggregate : Expr → Bool
  | const _ | var _ | bound _ | existence _ | system _ => false
  | aggregate _ _ _ => true
  | and args | or args | coalesce args | call _ args | extension _ _ args => anyAggregate args
  | not a | unary _ a => a.isAggregate
  | binary _ a b | letIn _ a b => a.isAggregate || b.isAggregate
  | member a list => a.isAggregate || anyAggregate list
  | cond test yes no => test.isAggregate || yes.isAggregate || optionAggregate no
where
  anyAggregate : List Expr → Bool
    | [] => false
    | a :: as => a.isAggregate || anyAggregate as
  optionAggregate : Option Expr → Bool
    | none => false
    | some a => a.isAggregate

/-- The variables that an expression reads, in the order in which it reads them. -/
def vars : Expr → List Variable
  | const _ | existence _ | system _ => []
  | var v | bound v => [v]
  | and args | or args | coalesce args | call _ args | extension _ _ args => listVariables args
  | not a | unary _ a => a.vars
  | binary _ a b | letIn _ a b => a.vars ++ b.vars
  | member a list => a.vars ++ listVariables list
  | cond test yes no => test.vars ++ yes.vars ++ optionVariables no
  | aggregate _ argument _ => optionVariables argument
where
  listVariables : List Expr → List Variable
    | [] => []
    | a :: as => a.vars ++ listVariables as
  optionVariables : Option Expr → List Variable
    | none => []
    | some a => a.vars

/-- Whether two expressions are equal up to the sites of their calls. -/
def sameAs : Expr → Expr → Bool
  | const s, const t => s == t
  | var v, var w => v == w
  | and as, and bs | or as, or bs | coalesce as, coalesce bs => listSameAs as bs
  | not a, not b => a.sameAs b
  | binary f a b, binary g c d => f == g && a.sameAs c && b.sameAs d
  | unary f a, unary g b => f == g && a.sameAs b
  | member a as, member b bs => a.sameAs b && listSameAs as bs
  | bound v, bound w => v == w
  | cond a b c, cond a' b' c' => a.sameAs a' && b.sameAs b' && optionSameAs c c'
  | letIn v a b, letIn w c d => v == w && a.sameAs c && b.sameAs d
  | existence m, existence n => m == n
  | aggregate f a m, aggregate g b n => f == g && m == n && optionSameAs a b
  | call f as, call g bs => f == g && listSameAs as bs
  | extension _ f as, extension _ g bs => f == g && listSameAs as bs
  | system s, system t => s == t
  | _, _ => false
where
  listSameAs : List Expr → List Expr → Bool
    | [], [] => true
    | a :: as, b :: bs => a.sameAs b && listSameAs as bs
    | _, _ => false
  optionSameAs : Option Expr → Option Expr → Bool
    | none, none => true
    | some a, some b => a.sameAs b
    | _, _ => false

end Expr

end GraphQuery
