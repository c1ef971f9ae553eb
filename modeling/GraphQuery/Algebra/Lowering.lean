import GraphQuery.Algebra.Layers
import GraphQuery.Query.Basic
import GraphQuery.Query.Error

/-! Lowering of the algebra to queries. Patterns whose existence is asked for move to a list of
their own, in which each one stands behind those that it asks for itself; nested conjunctions and
disjunctions become lists of operands, and nested joins become sequences. -/

namespace GraphQuery

/-- What lowering has met so far: patterns under their numbers, and calls of defined functions. -/
structure Lowering where
  patterns : List Pattern := []
  sites : Nat := 0

abbrev Lower := StateT Lowering (Except QueryError)

namespace Lower

def refuse {α : Type} (f : Feature) : Lower α := throw (.notImplemented f)

/-- Numbers a pattern. -/
def declare (p : Pattern) : Lower Nat := fun s =>
  .ok (s.patterns.length, { s with patterns := s.patterns ++ [p] })

def site : Lower Nat := fun s => .ok (s.sites, { s with sites := s.sites + 1 })

end Lower

/-- A blank node is a variable under a name of its own. -/
def Variable.ofBlank (label : String) : Variable := ⟨"_" ++ label⟩

def TermPattern.lower : TermPattern → NodePattern
  | var v => .var v
  | blank label => .var (.ofBlank label)
  | const t => .const t

def TriplePattern.lower (t : TriplePattern) : EdgePattern :=
  ⟨t.subject.lower, t.predicate, t.object.lower⟩

namespace Expr

/-- The operands of a conjunction; any other expression is its only one. -/
def conjuncts : Expr → List Expr
  | and args => args
  | e => [e]

/-- The operands of a disjunction; any other expression is its only one. -/
def disjuncts : Expr → List Expr
  | or args => args
  | e => [e]

end Expr

namespace Pattern

def steps : Pattern → List Pattern
  | sequence items => items
  | p => [p]

/-- One pattern after the other, without nesting. -/
def followedBy (p q : Pattern) : Pattern := sequence (p.steps ++ q.steps)

end Pattern

/-! ### Patterns and expressions -/

/-- The bindings in force, or what a name asks for instead. -/
def lowerSystem : List AlgebraExpr → Lower Expr
  | [] => pure (.system none)
  | [.const (.iri name)] => pure (.system (some (.iri name)))
  | _ => .refuse .systemArguments

mutual

def AlgebraExpr.lower : AlgebraExpr → Lower Expr
  | .const t => pure (.const t)
  | .var v => pure (.var v)
  | .or a b => do
    let l ← a.lower
    let r ← b.lower
    pure (.or (l.disjuncts ++ r.disjuncts))
  | .and a b => do
    let l ← a.lower
    let r ← b.lower
    pure (.and (l.conjuncts ++ r.conjuncts))
  | .not a => Expr.not <$> a.lower
  | .binary op a b => do
    let l ← a.lower
    let r ← b.lower
    pure (.binary op l r)
  | .unary op a => Expr.unary op <$> a.lower
  | .member a list => do
    let e ← a.lower
    let es ← lowerExprs list
    pure (.member e es)
  | .existence p => do
    let p ← p.lower
    Expr.existence <$> Lower.declare p
  | .bound v => pure (.bound v)
  | .cond test yes no => do
    let test ← test.lower
    let yes ← yes.lower
    let no ← no.lower
    pure (.cond test yes (some no))
  | .coalesce args => Expr.coalesce <$> lowerExprs args
  | .call (.builtin f) args => Expr.call f <$> lowerExprs args
  | .call (.missing name) _ => .refuse (.function name)
  | .call (.custom name) args =>
    if name = Iri.kgSystem then lowerSystem args
    else do
      let args ← lowerExprs args
      let site ← Lower.site
      pure (.extension site name args)

def lowerExprs : List AlgebraExpr → Lower (List Expr)
  | [] => pure []
  | a :: as => do
    let e ← a.lower
    let es ← lowerExprs as
    pure (e :: es)

def lowerCondition : Option AlgebraExpr → Lower (Option Expr)
  | none => pure none
  | some a => some <$> a.lower

def Algebra.lower : Algebra → Lower Pattern
  | .basic triples => pure (.sequence (triples.map fun t => .edge t.lower))
  | .path s p o => pure (.path ⟨s.lower, p, o.lower⟩)
  | .join left right => do
    let l ← left.lower
    let r ← right.lower
    pure (l.followedBy r)
  | .leftJoin left right condition => do
    let l ← left.lower
    let r ← right.lower
    let c ← lowerCondition condition
    pure (.optional l r c)
  | .filter condition inner => do
    let c ← condition.lower
    let p ← inner.lower
    pure (p.followedBy (.filter c))
  | .union left right => do
    let l ← left.lower
    let r ← right.lower
    pure (.union l r)
  | .graph name inner => Pattern.graph name <$> inner.lower
  | .extend inner v e => do
    let e ← e.lower
    let p ← inner.lower
    pure (p.followedBy (.bind v e))
  | .minus left right => do
    let l ← left.lower
    let r ← right.lower
    pure (.minus l r)
  | .values vs rows => pure (.values vs rows)
  | .service _ _ _ => .refuse .service
  | .orderBy _ _ | .project _ _ | .distinct _ | .reduced _ | .slice _ _ _ | .group _ _ _ =>
    .refuse .subQuery

end

/-! ### Modifiers -/

/-- Values are joined by a space, unless a separator is given. -/
def AggregateName.lower : AggregateName → Lower SetFunction
  | count => pure .count
  | sum => pure .sum
  | avg => pure .avg
  | min => pure .min
  | max => pure .max
  | sample => pure .sample
  | groupConcat separator => pure (.groupConcat (separator.getD " "))
  | custom name => .refuse (.aggregate name)

def AlgebraAggregate.lower : AlgebraAggregate → Lower Expr
  | solutions distinct => pure (.aggregate .count none distinct)
  | apply f argument distinct => do
    let f ← f.lower
    let e ← argument.lower
    pure (.aggregate f (some e) distinct)

def AlgebraKey.lower : AlgebraKey → Lower OrderKey
  | ascending e => (⟨·, false⟩) <$> e.lower
  | descending e => (⟨·, true⟩) <$> e.lower

/-- Aggregates come before the other columns, which may use them, and inner columns before outer
ones. -/
def Layers.lower (l : Layers) : Lower QueryParts := do
  let orderBy ← l.orderBy.mapM AlgebraKey.lower
  let columns ← l.columns.mapM fun (v, e) => SelectItem.mk v <$> e.lower
  let having ← lowerCondition l.having
  let aggregates ← l.aggregates.mapM fun (v, a) => SelectItem.mk v <$> a.lower
  let body ← l.body.lower
  pure {
    body, orderBy, select := aggregates ++ columns.reverse, having := having.toList,
    groupBy := l.groupBy.map .var, project := l.projection, distinct := l.distinct,
    offset := l.offset, limit := l.limit }

namespace AlgebraQuery

/-- The query whose solutions answer one way of asking: whether there are any needs one solution
and none of its values. -/
def parts (q : AlgebraQuery) : Lower QueryParts :=
  match q.form with
  | .construct => .refuse .construct
  | .describe => .refuse .describe
  | .select => q.pattern.layers.lower
  | .ask => do
    let p ← q.pattern.layers.lower
    pure { p with project := some [], limit := some 1 }

/-- The query, with calls numbered from `site` on. -/
def lower (q : AlgebraQuery) (site : Nat) : Except QueryError Query := do
  let (p, s) ← q.parts.run { sites := site }
  pure (.ofParts { p with
    patterns := s.patterns
    fromDefault := q.fromDefault.map .iri
    fromNamed := q.fromNamed.map .iri })

end AlgebraQuery

end GraphQuery
