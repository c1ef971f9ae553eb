import GraphQuery.Value.Basic

/-! The operators on terms. Equality and order go by value where both sides have one of the same
kind; an operator without a result has no value. -/

namespace GraphQuery

inductive BinaryOp where
  | equal
  | sameTerm
  | greater
  | greaterOrEqual
  | less
  | lessOrEqual
  | add
  | subtract
  | multiply
  | divide
deriving DecidableEq

inductive UnaryOp where
  | plus
  | minus
deriving DecidableEq

namespace Value

/-- Whether two values are equal. A literal without a value is comparable with no literal. -/
def equal? : Value → Value → Option Bool
  | numeric a, numeric b => some (a.compare b == some .eq)
  | string s l, string t m => some (s == t && l == m)
  | boolean a, boolean b => some (a == b)
  | dateTime a, dateTime b => some (a.equal b)
  | other, b => if b.isLiteral then none else some false
  | a, other => if a.isLiteral then none else some false
  | _, _ => some false

/-- The order of two values of one kind. -/
def compare? : Value → Value → Option Ordering
  | numeric a, numeric b => a.compare b
  | string s l, string t m => if l = m then some (compare s t) else none
  | boolean a, boolean b => some (compare a b)
  | dateTime a, dateTime b => a.compare b
  | _, _ => none

end Value

namespace Term

/-- The same terms are equal, others by value. -/
def equal? (a b : Term) : Option Bool :=
  if a.same b then some true else (Value.ofTerm a).equal? (Value.ofTerm b)

def compare? (a b : Term) : Option Ordering := (Value.ofTerm a).compare? (Value.ofTerm b)

/-- The kinds of terms in the order of sorting. -/
def rank : Term → Nat
  | blank _ => 0
  | iri _ => 1
  | literal _ => 2
  | object _ _ | snapshot _ _ _ _ => 3

/-- No language comes before all languages. -/
def compareLanguage : Option String → Option String → Ordering
  | none, none => .eq
  | none, some _ => .lt
  | some _, none => .gt
  | some l, some m => Ord.compare l m

/-- Compares literals part by part. -/
def compareParts (a b : Literal) : Ordering :=
  (Ord.compare a.datatype.text b.datatype.text).then <|
    (compareLanguage a.language b.language).then (Ord.compare a.lexical b.lexical)

/-- The order of sorting: by kind, then by name or value. Literals whose values are not comparable
are ordered by datatype, language and lexical form. -/
def sortOrder (a b : Term) : Ordering :=
  match a, b with
  | blank x, blank y => Ord.compare x y
  | iri x, iri y => Ord.compare x.text y.text
  | literal x, literal y => ((literal x).compare? (literal y)).getD (compareParts x y)
  | a, b =>
    match a.objectLabel?, b.objectLabel? with
    | some x, some y => Ord.compare x y
    | _, _ => Ord.compare a.rank b.rank

end Term

def BinaryOp.apply (op : BinaryOp) (a b : Term) : Option Term :=
  let compared (holds : Ordering → Bool) := (a.compare? b).map fun o => Term.ofBool (holds o)
  let computed (f : Numeric → Numeric → Option Numeric) := do
    some (Term.literal (← f (← a.numeric?) (← b.numeric?)).toLiteral)
  match op with
  | equal => (a.equal? b).map Term.ofBool
  | sameTerm => some (Term.ofBool (a.same b))
  | greater => compared Ordering.isGT
  | greaterOrEqual => compared Ordering.isGE
  | less => compared Ordering.isLT
  | lessOrEqual => compared Ordering.isLE
  | add => computed Numeric.add
  | subtract => computed Numeric.sub
  | multiply => computed Numeric.mul
  | divide => computed Numeric.div

def UnaryOp.apply (op : UnaryOp) (a : Term) : Option Term := do
  let n ← a.numeric?
  match op with
  | plus => some (.literal n.toLiteral)
  | minus => some (.literal (← n.neg).toLiteral)

end GraphQuery
