import GraphQuery.Query.Expr
import GraphQuery.Query.Path
import GraphQuery.Store.Node

/-! Graph patterns: the bodies of queries. -/

namespace GraphQuery

/-- A place of a pattern that a node has to fit. -/
inductive NodePattern where
  | var (v : Variable)
  | const (t : Term)
deriving DecidableEq

namespace NodePattern

def asVariable : NodePattern → Option Variable
  | var v => some v
  | const _ => none

def asConstant : NodePattern → Option Term
  | var _ => none
  | const t => some t

def vars (n : NodePattern) : List Variable := n.asVariable.toList

def render : NodePattern → String
  | var v => v.render
  | const t => t.render

end NodePattern

structure EdgePattern where
  subject : NodePattern
  predicate : NodePattern
  object : NodePattern
deriving DecidableEq

namespace EdgePattern

def node (e : EdgePattern) : Position → Option NodePattern
  | .subject => some e.subject
  | .object => some e.object
  | .graph | .list => none

def vars (e : EdgePattern) : List Variable :=
  e.subject.vars ++ e.predicate.vars ++ e.object.vars

def render (e : EdgePattern) : String :=
  e.subject.render ++ " " ++ e.predicate.render ++ " " ++ e.object.render

end EdgePattern

structure PathPattern where
  subject : NodePattern
  path : Path
  object : NodePattern
deriving DecidableEq

namespace PathPattern

def node (p : PathPattern) : Position → Option NodePattern
  | .subject => some p.subject
  | .object => some p.object
  | .graph | .list => none

def vars (p : PathPattern) : List Variable := p.subject.vars ++ p.object.vars

end PathPattern

/-- A list of patterns is joined in its order; filters and bindings are evaluated where they
stand. -/
inductive Pattern where
  | edge (e : EdgePattern)
  | path (p : PathPattern)
  | sequence (items : List Pattern)
  | optional (left right : Pattern) (condition : Option Expr)
  | union (left right : Pattern)
  | minus (left right : Pattern)
  | filter (e : Expr)
  | bind (v : Variable) (e : Expr)
  | graph (name : NodePattern) (inner : Pattern)
  | values (vars : List Variable) (rows : List (List (Option Term)))

namespace Pattern

/-- The pattern with one solution that binds nothing. -/
def empty : Pattern := sequence []

instance : Inhabited Pattern := ⟨empty⟩

/-- The variables of a pattern in the order in which they occur; those of a pattern whose existence
is asked for are not among them. -/
def vars : Pattern → List Variable
  | edge e => e.vars
  | path p => p.vars
  | sequence items => listVariables items
  | optional left right condition =>
    left.vars ++ right.vars ++ ((condition.map Expr.vars).getD [])
  | union left right | minus left right => left.vars ++ right.vars
  | filter e => e.vars
  | bind v e => e.vars ++ [v]
  | graph name inner => name.vars ++ inner.vars
  | values vs _ => vs
where
  listVariables : List Pattern → List Variable
    | [] => []
    | p :: ps => p.vars ++ listVariables ps

/-- Whether a path stands in the pattern. -/
def containsPath : Pattern → Bool
  | path _ => true
  | edge _ | filter _ | bind _ _ | values _ _ => false
  | sequence items => listContainsPath items
  | optional left right _ | union left right | minus left right =>
    left.containsPath || right.containsPath
  | graph _ inner => inner.containsPath
where
  listContainsPath : List Pattern → Bool
    | [] => false
    | p :: ps => p.containsPath || listContainsPath ps

/-- Whether two filters are both absent, or equal up to the sites of calls. -/
def sameFilter : Option Expr → Option Expr → Bool
  | none, none => true
  | some a, some b => a.sameAs b
  | _, _ => false

/-- Whether two patterns are equal up to the sites of calls. -/
def sameAs : Pattern → Pattern → Bool
  | edge e, edge f => e == f
  | path p, path q => p == q
  | sequence ps, sequence qs => listSameAs ps qs
  | optional l r f, optional l' r' f' => l.sameAs l' && r.sameAs r' && sameFilter f f'
  | union l r, union l' r' | minus l r, minus l' r' => l.sameAs l' && r.sameAs r'
  | filter e, filter f => e.sameAs f
  | bind v e, bind w f => v == w && e.sameAs f
  | graph m p, graph n q => m == n && p.sameAs q
  | values vs rows, values ws rows' => vs == ws && rows == rows'
  | _, _ => false
where
  listSameAs : List Pattern → List Pattern → Bool
    | [], [] => true
    | p :: ps, q :: qs => p.sameAs q && listSameAs ps qs
    | _, _ => false

end Pattern

end GraphQuery
