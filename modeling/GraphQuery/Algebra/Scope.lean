import GraphQuery.Algebra.Basic

/-! The variables that a pattern may bind, and whether an expression can do with given ones. -/

namespace GraphQuery

def TermPattern.vars : TermPattern → List Variable
  | var v => [v]
  | blank _ | const _ => []

def TriplePattern.vars (t : TriplePattern) : List Variable :=
  t.subject.vars ++ t.predicate.vars ++ t.object.vars

/-- The variables that the solutions of a pattern may bind, with repetitions. Those that only
stand in an expression or in what a pattern takes away are not among them. -/
def Algebra.scope : Algebra → List Variable
  | .basic triples => triples.flatMap TriplePattern.vars
  | .path s _ o => s.vars ++ o.vars
  | .join l r | .leftJoin l r _ | .union l r => l.scope ++ r.scope
  | .minus left _ => left.scope
  | .graph name inner => name.vars ++ inner.scope
  | .extend inner v _ => v :: inner.scope
  | .values vs _ | .project _ vs => vs
  | .group _ keys aggregates => keys ++ aggregates.map (·.1)
  | .filter _ inner | .orderBy inner _ | .distinct inner | .reduced inner | .slice inner _ _
  | .service _ inner _ => inner.scope

/-- Whether an expression reads given variables only. A variable may be missing where this is
asked for or a replacement is given, and patterns have variables of their own. -/
def AlgebraExpr.readsOnly (vs : List Variable) : AlgebraExpr → Bool
  | .const _ | .bound _ | .coalesce _ | .existence _ => true
  | .var v => vs.contains v
  | .not a | .unary _ a => a.readsOnly vs
  | .or a b | .and a b | .binary _ a b => a.readsOnly vs && b.readsOnly vs
  | .member a list => a.readsOnly vs && allReadOnly vs list
  | .cond test yes no => test.readsOnly vs && yes.readsOnly vs && no.readsOnly vs
  | .call _ args => allReadOnly vs args
where
  allReadOnly (vs : List Variable) : List AlgebraExpr → Bool
    | [] => true
    | a :: as => a.readsOnly vs && allReadOnly vs as

end GraphQuery
