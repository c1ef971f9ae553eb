import GraphQuery.Query.Pattern

/-! Other names for the variables of expressions and patterns. -/

namespace GraphQuery

namespace Expr

def rename (f : Variable → Variable) : Expr → Expr
  | const t => const t
  | var v => var (f v)
  | and args => and (renameList f args)
  | or args => or (renameList f args)
  | not a => not (a.rename f)
  | binary op a b => binary op (a.rename f) (b.rename f)
  | unary op a => unary op (a.rename f)
  | member a list => member (a.rename f) (renameList f list)
  | bound v => bound (f v)
  | coalesce args => coalesce (renameList f args)
  | cond test yes no => cond (test.rename f) (yes.rename f) (renameOption f no)
  | letIn v value body => letIn (f v) (value.rename f) (body.rename f)
  | existence p => existence p
  | aggregate g argument distinct => aggregate g (renameOption f argument) distinct
  | call g args => call g (renameList f args)
  | extension site name args => extension site name (renameList f args)
  | system target => system target
where
  renameList (f : Variable → Variable) : List Expr → List Expr
    | [] => []
    | a :: as => a.rename f :: renameList f as
  renameOption (f : Variable → Variable) : Option Expr → Option Expr
    | none => none
    | some a => some (a.rename f)

end Expr

def NodePattern.rename (f : Variable → Variable) : NodePattern → NodePattern
  | var v => var (f v)
  | const t => const t

namespace Pattern

def rename (f : Variable → Variable) : Pattern → Pattern
  | edge e => edge ⟨e.subject.rename f, e.predicate.rename f, e.object.rename f⟩
  | path p => path ⟨p.subject.rename f, p.path, p.object.rename f⟩
  | sequence items => sequence (renameList f items)
  | optional left right condition =>
    optional (left.rename f) (right.rename f) (condition.map (Expr.rename f))
  | union left right => union (left.rename f) (right.rename f)
  | minus left right => minus (left.rename f) (right.rename f)
  | filter e => filter (e.rename f)
  | bind v e => bind (f v) (e.rename f)
  | graph name inner => graph (name.rename f) (inner.rename f)
  | values vs rows => values (vs.map f) rows
where
  renameList (f : Variable → Variable) : List Pattern → List Pattern
    | [] => []
    | p :: ps => p.rename f :: renameList f ps

end Pattern

end GraphQuery
