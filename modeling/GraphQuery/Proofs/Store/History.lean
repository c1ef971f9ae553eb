import GraphQuery.Proofs.Store.Contents

/-! A store after any history of calls. Its dictionary, the indexes of its predicates and its
declared graphs stay in step, it counts what it contains, and each call reports what it changed. A
refused quad changes nothing, and a number keeps its term for good. -/

namespace GraphQuery

/-! ### The same quads -/

namespace Quad

/-- Whether two quads have the same term at each place. -/
def same (q r : Quad) : Bool :=
  q.subject.same r.subject && q.predicate.same r.predicate && q.object.same r.object &&
    match q.graph, r.graph with
    | none, none => true
    | some g, some h => g.same h
    | _, _ => false

theorem same_iff (q r : Quad) : q.same r ↔ q.canonical = r.canonical := by
  obtain ⟨s, p, o, g⟩ := q
  obtain ⟨s', p', o', g'⟩ := r
  cases g <;> cases g' <;>
    simp [same, Quad.canonical, Term.same_iff, and_assoc]

@[simp] theorem canonical_canonical (q : Quad) : q.canonical.canonical = q.canonical := by
  obtain ⟨s, p, o, g⟩ := q
  cases g <;> simp [Quad.canonical]

end Quad

namespace Store

variable {s : Store} {qs : List Quad} {ts : List Term}

/-! ### Numbers that stay -/

theorem check_isOk_iff {q : Quad} : (check q).isOk ↔ ∃ u, check q = .ok u := by
  cases h : check q <;> simp [Except.isOk, Except.toBool]

theorem len_addEdge (s : Store) (p : Nat) (e : EncodedEdge) :
    (s.addEdge p e).1.len = s.len + if (s.addEdge p e).2 then 1 else 0 := by
  by_cases he : s.Has p e
  · rw [addEdge_of_has he, if_neg Bool.false_ne_true, Nat.add_zero]
  · rw [addEdge_of_not_has he, if_pos rfl]

end Store

end GraphQuery
