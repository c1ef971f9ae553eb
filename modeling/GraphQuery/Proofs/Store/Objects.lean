import GraphQuery.Proofs.Store.View

/-! Stores and objects. Objects are refused at every place, so however a store was filled, it holds
none, and none is found in it. -/

namespace GraphQuery

/-- No object becomes one by its form. -/
theorem Term.isObject_canonical (t : Term) : t.canonical.isObject = t.isObject := by
  cases t <;> rfl

namespace Store

/-! ### What is refused -/

theorem isObject_of_isResource {t : Term} (h : isResource t = true) : t.isObject = false :=
  Bool.not_eq_true' _ ▸ (Bool.and_eq_true_iff.mp h).2

/-- What is not refused has no object as its object, a predicate, and resources at its other
places. -/
theorem places_of_check {q : Quad} (h : (check q).isOk) : isResource q.subject = true ∧
    q.predicate.isIri = true ∧ q.object.isObject = false ∧
      ∀ g, q.graph = some g → isResource g = true := by
  obtain ⟨u, h⟩ := check_isOk_iff.mp h
  unfold check at h
  simp only [bind, Except.bind, throw, throwThe, MonadExceptOf.throw, pure, Except.pure] at h
  split_ifs at h with hs hp ho
  refine ⟨hs, hp, Bool.eq_false_iff.mpr ho, fun g hg => ?_⟩
  rw [hg] at h
  by_contra hr
  simp [hr] at h

theorem isObject_of_check {q : Quad} (h : (check q).isOk) : ∀ t ∈ q.terms, t.isObject = false := by
  obtain ⟨hs, hp, ho, hg⟩ := places_of_check h
  have hpredicate : q.predicate.isObject = false := by
    cases hq : q.predicate with
    | iri => rfl
    | blank | literal | object | snapshot =>
      rw [hq] at hp
      cases hp
  intro t ht
  simp only [Quad.terms, List.mem_cons, Option.mem_toList] at ht
  rcases ht with rfl | rfl | rfl | ht
  · exact isObject_of_isResource hs
  · exact hpredicate
  · exact ho
  · exact isObject_of_isResource (hg t ht)

theorem isObject_of_mem_quads {i : Insertion} {q : Quad} (hq : q ∈ i.quads) :
    ∀ t ∈ q.terms, t.isObject = false := by
  cases i with
  | extend new =>
    obtain ⟨r, hr, rfl⟩ := List.mem_map.mp hq
    intro t ht
    obtain ⟨u, hu, rfl⟩ : ∃ u ∈ r.terms, t = u.canonical := by
      obtain ⟨a, b, c, _ | g⟩ := r <;> simpa [Quad.terms, Quad.canonical] using ht
    rw [Term.isObject_canonical]
    exact isObject_of_check (List.mem_takeWhile_imp (p := fun q => (check q).isOk) hr) u hu
  | declare g => cases hq

/-! ### What is stored -/

/-- Whether nothing that is stored is an object. -/
def ObjectFree (s : Store) : Prop := ∀ t ∈ s.dictionary.terms, t.isObject = false

/-- A store that was filled by any calls holds no objects. -/
theorem objectFree_after (entailment : Bool) (history : List Insertion) :
    (after entailment history).ObjectFree := by
  intro t ht
  obtain ⟨i, -, ht⟩ := List.mem_flatMap.mp ((mem_terms_after entailment history).mp ht)
  rcases List.mem_append.mp ht with ht | ht
  · obtain ⟨q, hq, ht⟩ := List.mem_flatMap.mp ht
    exact isObject_of_mem_quads hq t ht
  · cases i with
    | extend new =>
      obtain ⟨q, hq, hg⟩ := List.mem_filterMap.mp ht
      exact isObject_of_mem_quads hq t (by simp [Quad.terms, hg])
    | declare g =>
      simp only [Insertion.names, List.mem_ite_nil_right, List.mem_singleton] at ht
      rw [ht.2, Term.isObject_canonical]
      exact isObject_of_isResource ht.1

namespace ObjectFree

variable {s : Store} {t : Term} (hs : s.ObjectFree) (ht : t.isObject = true)

include hs ht

theorem notMem : t ∉ s.dictionary.terms := fun hmem => by
  rw [hs t hmem] at ht
  cases ht

theorem id_eq_none : s.dictionary.id? t = none :=
  List.idxOf?_eq_none_iff.mpr (hs.notMem (t.isObject_canonical.trans ht))

theorem nodes_eq_nil : s.nodes (some ⟨t, none⟩) = [] := by
  have hnone : s.dictionary.resolve? ⟨t, none⟩ = none :=
    List.idxOf?_eq_none_iff.mpr (hs.notMem ht)
  unfold nodes
  simp only [hnone, List.foldl_nil, List.filterMap_nil]

end ObjectFree

end Store

end GraphQuery
