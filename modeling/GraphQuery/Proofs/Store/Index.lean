import GraphQuery.Store.Index
import Mathlib.Tactic

/-! The indexes of a predicate. Each is strictly sorted by its own order, and the three hold the
same occurrences, except that only those in named graphs are found by graph. -/

namespace GraphQuery

/-! ### Sorted lists -/

namespace Sorted

variable {α : Type} {order : α → α → Ordering}

theorem mem_insert [Std.LawfulEqCmp order] {a b : α} {l : List α} :
    b ∈ insert order a l ↔ b = a ∨ b ∈ l := by
  induction l with
  | nil => simp [insert]
  | cons c cs ih =>
    simp only [insert]
    cases h : order a c with
    | lt => simp
    | eq =>
      have := Std.LawfulEqCmp.eq_of_compare h
      simp [this]
    | gt =>
      simp only [List.mem_cons, ih]
      tauto

theorem pairwise_insert [Std.TransCmp order] [Std.LawfulEqCmp order] {a : α} {l : List α}
    (h : l.Pairwise fun a b => order a b = .lt) :
    (insert order a l).Pairwise fun a b => order a b = .lt := by
  induction l with
  | nil => simp [insert]
  | cons c cs ih =>
    obtain ⟨hc, hs⟩ := List.pairwise_cons.mp h
    simp only [insert]
    cases hac : order a c with
    | lt =>
      refine List.pairwise_cons.mpr ⟨fun b hb => ?_, h⟩
      rcases List.mem_cons.mp hb with rfl | hb
      · exact hac
      · exact Std.TransCmp.lt_trans hac (hc b hb)
    | eq => exact h
    | gt =>
      refine List.pairwise_cons.mpr ⟨fun b hb => ?_, ih hs⟩
      rcases mem_insert.mp hb with rfl | hb
      · exact Std.OrientedCmp.lt_of_gt hac
      · exact hc b hb

theorem nodup [Std.ReflCmp order] {l : List α} (h : l.Pairwise fun a b => order a b = .lt) :
    l.Nodup := by
  refine h.imp fun {a b} hab he => ?_
  have hs : order b b = .eq := Std.ReflCmp.compare_self
  rw [he, hs] at hab
  cases hab

end Sorted

/-! ### Orders of occurrences -/

instance : Std.TransCmp compareGraph where
  eq_swap {a b} := by
    cases a <;> cases b <;> simp only [compareGraph, Ordering.swap]
    exact Std.OrientedCmp.eq_swap
  isLE_trans {a b c} := by
    cases a <;> cases b <;> cases c <;> simp [compareGraph, Ordering.isLE]
    exact fun h₁ h₂ => Std.TransCmp.isLE_trans h₁ h₂

instance : Std.LawfulEqCmp compareGraph where
  compare_self {a} := by cases a <;> simp [compareGraph]
  eq_of_compare {a b} h := by cases a <;> cases b <;> simp_all [compareGraph]

namespace EncodedEdge

instance : Std.TransCmp fun a b : EncodedEdge => compareGraph a.graph b.graph where
  eq_swap {a b} := (Std.OrientedCmp.eq_swap : compareGraph a.graph b.graph = _)
  isLE_trans {a b _} :=
    (Std.TransCmp.isLE_trans : (compareGraph a.graph b.graph).isLE → _ → (compareGraph _ _).isLE)

instance : Std.TransCmp bySubject :=
  inferInstanceAs <| Std.TransCmp <| compareLex (compareOn subject) <|
    compareLex (compareOn object) fun a b => compareGraph a.graph b.graph

instance : Std.TransCmp byObject :=
  inferInstanceAs <| Std.TransCmp <| compareLex (compareOn object) <|
    compareLex (compareOn subject) fun a b => compareGraph a.graph b.graph

instance : Std.TransCmp byGraph :=
  inferInstanceAs <| Std.TransCmp <| compareLex (fun a b => compareGraph a.graph b.graph) <|
    compareLex (compareOn subject) (compareOn object)

instance : Std.LawfulEqCmp bySubject where
  eq_of_compare {a b} h := by
    simp only [bySubject, Ordering.then_eq_eq, Std.LawfulEqCmp.compare_eq_iff_eq] at h
    cases a
    cases b
    simp_all

instance : Std.LawfulEqCmp byObject where
  eq_of_compare {a b} h := by
    simp only [byObject, Ordering.then_eq_eq, Std.LawfulEqCmp.compare_eq_iff_eq] at h
    cases a
    cases b
    simp_all

instance : Std.LawfulEqCmp byGraph where
  eq_of_compare {a b} h := by
    simp only [byGraph, Ordering.then_eq_eq, Std.LawfulEqCmp.compare_eq_iff_eq] at h
    cases a
    cases b
    simp_all

theorem ends_of_bySubject_lt {a b : EncodedEdge} (h : bySubject a b = .lt) :
    a.subject < b.subject ∨ a.subject = b.subject ∧ a.object ≤ b.object := by
  simp only [bySubject, Ordering.then_eq_lt, Nat.compare_eq_lt, Nat.compare_eq_eq] at h
  omega

theorem ends_of_byObject_lt {a b : EncodedEdge} (h : byObject a b = .lt) :
    a.object < b.object ∨ a.object = b.object ∧ a.subject ≤ b.subject := by
  simp only [byObject, Ordering.then_eq_lt, Nat.compare_eq_lt, Nat.compare_eq_eq] at h
  omega

end EncodedEdge

/-! ### Indexes -/

namespace PredicateIndex

structure Valid (i : PredicateIndex) : Prop where
  sorted_bySubject : i.bySubject.Pairwise fun a b => EncodedEdge.bySubject a b = .lt
  sorted_byObject : i.byObject.Pairwise fun a b => EncodedEdge.byObject a b = .lt
  sorted_byGraph : i.byGraph.Pairwise fun a b => EncodedEdge.byGraph a b = .lt
  mem_byObject : ∀ e, e ∈ i.byObject ↔ e ∈ i.bySubject
  mem_byGraph : ∀ e, e ∈ i.byGraph ↔ e ∈ i.bySubject ∧ e.graph.isSome

theorem valid_empty : Valid {} where
  sorted_bySubject := .nil
  sorted_byObject := .nil
  sorted_byGraph := .nil
  mem_byObject := by simp
  mem_byGraph := by simp

@[simp] theorem mem_all_insert {i : PredicateIndex} {e f : EncodedEdge} :
    f ∈ (i.insert e).all ↔ f = e ∨ f ∈ i.all :=
  Sorted.mem_insert

theorem Valid.insert {i : PredicateIndex} (h : i.Valid) (e : EncodedEdge) : (i.insert e).Valid where
  sorted_bySubject := Sorted.pairwise_insert h.sorted_bySubject
  sorted_byObject := Sorted.pairwise_insert h.sorted_byObject
  sorted_byGraph := by
    simp only [PredicateIndex.insert]
    split
    · exact Sorted.pairwise_insert h.sorted_byGraph
    · exact h.sorted_byGraph
  mem_byObject f := by
    simp only [PredicateIndex.insert, Sorted.mem_insert, h.mem_byObject]
  mem_byGraph f := by
    simp only [PredicateIndex.insert, Sorted.mem_insert]
    split
    next he =>
      rw [Sorted.mem_insert, h.mem_byGraph]
      constructor
      · rintro (rfl | hf)
        · exact ⟨.inl rfl, he⟩
        · exact ⟨.inr hf.1, hf.2⟩
      · rintro ⟨rfl | hf, hg⟩
        · exact .inl rfl
        · exact .inr ⟨hf, hg⟩
    next he =>
      rw [h.mem_byGraph]
      constructor
      · exact fun hf => ⟨.inr hf.1, hf.2⟩
      · rintro ⟨rfl | hf, hg⟩
        · exact absurd hg he
        · exact ⟨hf, hg⟩

theorem mem_contains {i : PredicateIndex} {e : EncodedEdge} : i.contains e = true ↔ e ∈ i.all := by
  simp [contains, all]

end PredicateIndex

end GraphQuery
