import GraphQuery.Query.Pattern
import Mathlib.Tactic

/-! What expressions ask for. Apart from values, the value of an expression depends on the patterns
and the functions behind it, on snapshots, and on the local values that are given to those. -/

namespace GraphQuery

inductive Request where
  /-- Whether a registered pattern has a solution. -/
  | existence (pattern : Nat)
  /-- The value of a function. -/
  | call (site : Nat) (name : Iri) (count : Nat)
  /-- The bindings in force. -/
  | snapshot (target : Option Term)
  /-- A local value for a variable, where something else is asked for. -/
  | scope (v : Variable)

/-! ### Expressions -/

namespace Expr

/-- What an expression asks for. -/
def requests : Expr → List Request
  | const _ | var _ | bound _ => []
  | and args | or args | coalesce args | call _ args => listRequests args
  | not a | unary _ a => a.requests
  | binary _ a b => a.requests ++ b.requests
  | member a list => a.requests ++ listRequests list
  | cond test yes no => test.requests ++ yes.requests ++ optionRequests no
  | letIn v value body =>
    value.requests ++ if body.requests.isEmpty then [] else .scope v :: body.requests
  | existence id => [.existence id]
  | aggregate _ argument _ => optionRequests argument
  | extension site name args => .call site name args.length :: listRequests args
  | system target => [.snapshot target]
where
  listRequests : List Expr → List Request
    | [] => []
    | a :: as => a.requests ++ listRequests as
  optionRequests : Option Expr → List Request
    | none => []
    | some a => a.requests

theorem mem_listRequests {as : List Expr} {r : Request} :
    r ∈ requests.listRequests as ↔ ∃ a ∈ as, r ∈ a.requests := by
  induction as with
  | nil => simp [requests.listRequests]
  | cons a as ih => simp [requests.listRequests, ih]

/-- Whether an expression is evaluated from values alone. -/
def isPure : Expr → Bool
  | const _ | var _ | bound _ => true
  | existence _ | extension _ _ _ | system _ => false
  | and args | or args | coalesce args | call _ args => allPure args
  | not a | unary _ a => a.isPure
  | binary _ a b | letIn _ a b => a.isPure && b.isPure
  | member a list => a.isPure && allPure list
  | cond test yes no => test.isPure && yes.isPure && optionPure no
  | aggregate _ argument _ => optionPure argument
where
  allPure : List Expr → Bool
    | [] => true
    | a :: as => a.isPure && allPure as
  optionPure : Option Expr → Bool
    | none => true
    | some a => a.isPure

theorem allPure_iff {as : List Expr} : isPure.allPure as = true ↔ ∀ a ∈ as, a.isPure = true := by
  induction as with
  | nil => simp [isPure.allPure]
  | cons a as ih => simp [isPure.allPure, ih]

/-- An expression that is evaluated from values alone asks for nothing else. -/
theorem requests_eq_nil (e : Expr) (he : e.isPure = true) : e.requests = [] := by
  have hlist : ∀ as : List Expr, sizeOf as < sizeOf e → isPure.allPure as = true →
      requests.listRequests as = [] := by
    intro as hsz has
    refine List.eq_nil_iff_forall_not_mem.mpr fun r hr => ?_
    obtain ⟨a, hm, hr⟩ := mem_listRequests.mp hr
    have := List.sizeOf_lt_of_mem hm
    rw [requests_eq_nil a (allPure_iff.mp has a hm)] at hr
    cases hr
  cases e with
  | const | var | bound => rfl
  | existence | extension | system => cases he
  | and args | or args | coalesce args | call f args => exact hlist args (by simp) he
  | not a | unary op a => exact requests_eq_nil a he
  | binary op a b =>
    obtain ⟨ha, hb⟩ := Bool.and_eq_true_iff.mp he
    rw [requests, requests_eq_nil a ha, requests_eq_nil b hb, List.append_nil]
  | letIn v value body =>
    obtain ⟨hv, hb⟩ := Bool.and_eq_true_iff.mp he
    rw [requests, requests_eq_nil value hv, requests_eq_nil body hb]
    rfl
  | member a list =>
    obtain ⟨ha, hl⟩ := Bool.and_eq_true_iff.mp he
    rw [requests, requests_eq_nil a ha, hlist list (by simp) hl, List.append_nil]
  | cond test yes no =>
    obtain ⟨hty, hn⟩ := Bool.and_eq_true_iff.mp he
    obtain ⟨ht, hy⟩ := Bool.and_eq_true_iff.mp hty
    rw [requests, requests_eq_nil test ht, requests_eq_nil yes hy]
    cases no with
    | none => rfl
    | some a => exact requests_eq_nil a hn
  | aggregate f argument distinct =>
    cases argument with
    | none => rfl
    | some a => exact requests_eq_nil a he
termination_by sizeOf e

end Expr

/-! ### Patterns -/

namespace Pattern

/-- What the expressions of a pattern ask for. -/
def requests : Pattern → List Request
  | edge _ | path _ | values _ _ => []
  | sequence items => listRequests items
  | optional left right condition =>
    left.requests ++ right.requests ++ (condition.map Expr.requests).getD []
  | union left right | minus left right => left.requests ++ right.requests
  | filter e | bind _ e => e.requests
  | graph _ inner => inner.requests
where
  listRequests : List Pattern → List Request
    | [] => []
    | p :: ps => p.requests ++ listRequests ps

theorem mem_listRequests {ps : List Pattern} {r : Request} :
    r ∈ requests.listRequests ps ↔ ∃ p ∈ ps, r ∈ p.requests := by
  induction ps with
  | nil => simp [requests.listRequests]
  | cons p ps ih => simp [requests.listRequests, ih]

end Pattern

end GraphQuery
