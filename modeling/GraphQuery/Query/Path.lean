import GraphQuery.Iri.Basic

/-! Property paths. -/

namespace GraphQuery

inductive Path where
  | predicate (name : Iri)
  | inverse (p : Path)
  | seq (p q : Path)
  | alt (p q : Path)
  | zeroOrMore (p : Path)
  | oneOrMore (p : Path)
  | zeroOrOne (p : Path)
  /-- Any predicate but the listed ones. -/
  | negated (names : List Iri)
deriving DecidableEq

instance : Inhabited Path := ⟨.negated []⟩

namespace Path

/-- Whether the path follows exactly one edge, in either direction. -/
def isStep : Path → Bool
  | predicate _ | negated _ => true
  | inverse p => p.isStep
  | _ => false

/-- The path that relates the same nodes the other way round. -/
def reverse : Path → Path
  | predicate name => inverse (predicate name)
  | negated names => inverse (negated names)
  | inverse p => p
  | seq p q => seq q.reverse p.reverse
  | alt p q => alt p.reverse q.reverse
  | zeroOrMore p => zeroOrMore p.reverse
  | oneOrMore p => oneOrMore p.reverse
  | zeroOrOne p => zeroOrOne p.reverse

/-- How much of a path is left to walk; a step counts as one, in either direction. -/
def size : Path → Nat
  | predicate _ | negated _ => 1
  | inverse p => if p.isStep then 1 else p.size + 1
  | seq p q | alt p q => p.size + q.size + 1
  | zeroOrMore p | oneOrMore p | zeroOrOne p => p.size + 1

theorem size_of_isStep {p : Path} (h : p.isStep = true) : p.size = 1 := by
  cases p with
  | predicate | negated => rfl
  | inverse p => exact if_pos h
  | _ => cases h

theorem size_reverse_le (p : Path) : p.reverse.size ≤ p.size := by
  induction p with
  | predicate | negated => exact Nat.le_refl 1
  | inverse p =>
    rw [reverse, size]
    split
    · next h => exact Nat.le_of_eq (size_of_isStep h)
    · exact Nat.le_succ _
  | seq p q ihp ihq =>
    rw [reverse, size, size]
    omega
  | alt p q ihp ihq =>
    rw [reverse, size, size]
    omega
  | zeroOrMore p ih | oneOrMore p ih | zeroOrOne p ih => exact Nat.succ_le_succ ih

end Path

end GraphQuery
