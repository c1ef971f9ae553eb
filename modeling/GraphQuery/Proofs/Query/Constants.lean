import GraphQuery.Query.Pattern
import Mathlib.Tactic

/-! The constants of expressions and patterns: what they take terms from besides variables. -/

namespace GraphQuery

namespace Expr

/-- The constants of an expression. -/
def constants : Expr → List Term
  | const t => [t]
  | var _ | bound _ | existence _ | system _ => []
  | and args | or args | coalesce args | call _ args | extension _ _ args => listConstants args
  | not a | unary _ a => a.constants
  | binary _ a b | letIn _ a b => a.constants ++ b.constants
  | member a list => a.constants ++ listConstants list
  | cond test yes no => test.constants ++ yes.constants ++ optionConstants no
  | aggregate _ argument _ => optionConstants argument
where
  listConstants : List Expr → List Term
    | [] => []
    | a :: as => a.constants ++ listConstants as
  optionConstants : Option Expr → List Term
    | none => []
    | some a => a.constants

theorem mem_listConstants {as : List Expr} {t : Term} :
    t ∈ constants.listConstants as ↔ ∃ a ∈ as, t ∈ a.constants := by
  induction as with
  | nil => simp [constants.listConstants]
  | cons a as ih => simp [constants.listConstants, ih]

end Expr

def NodePattern.constants (n : NodePattern) : List Term := n.asConstant.toList

namespace Pattern

/-- The constants at the places of a pattern, in its rows and in its expressions. -/
def constants : Pattern → List Term
  | edge e => e.subject.constants ++ e.predicate.constants ++ e.object.constants
  | path p => p.subject.constants ++ p.object.constants
  | sequence items => listConstants items
  | optional left right condition =>
    left.constants ++ right.constants ++ (condition.map Expr.constants).getD []
  | union left right | minus left right => left.constants ++ right.constants
  | filter e | bind _ e => e.constants
  | graph name inner => name.constants ++ inner.constants
  | values _ rows => rows.flatten.filterMap id
where
  listConstants : List Pattern → List Term
    | [] => []
    | p :: ps => p.constants ++ listConstants ps

theorem mem_listConstants {ps : List Pattern} {t : Term} :
    t ∈ constants.listConstants ps ↔ ∃ p ∈ ps, t ∈ p.constants := by
  induction ps with
  | nil => simp [constants.listConstants]
  | cons p ps ih => simp [constants.listConstants, ih]

end Pattern

end GraphQuery
