import GraphQuery.Proofs.Store.Index
import GraphQuery.Proofs.Term.Canonical
import GraphQuery.Store.Basic

/-! What a store contains. A valid store numbers canonical terms without repetition, and keeps the
edges of each predicate under the predicate's number. Insertions keep stores valid, and a store
that was filled from nothing contains exactly the canonical forms of what was inserted. -/

namespace GraphQuery

deriving instance DecidableEq for Quad

/-! ### Numbers of terms -/

namespace Dictionary

structure Valid (d : Dictionary) : Prop where
  nodup : d.terms.Nodup
  canonical : ∀ t ∈ d.terms, t.IsCanonical

variable {d d' : Dictionary}

theorem Valid.term_injective (h : d.Valid) {i j : Nat} {t : Term} (hi : d.term? i = some t)
    (hj : d.term? j = some t) : i = j := by
  obtain ⟨hi', rfl⟩ := List.getElem?_eq_some_iff.mp hi
  obtain ⟨hj', hij⟩ := List.getElem?_eq_some_iff.mp hj
  exact (List.Nodup.getElem_inj_iff h.nodup).mp hij.symm

theorem Valid.idxOf_eq_some (h : d.Valid) {i : Nat} {t : Term} :
    d.terms.idxOf? t = some i ↔ d.term? i = some t := by
  constructor
  · intro hi
    obtain ⟨hl, hb, -⟩ := List.idxOf?_eq_some_iff.mp hi
    exact List.getElem?_eq_some_iff.mpr ⟨hl, by simpa using hb⟩
  · intro hi
    cases hj : d.terms.idxOf? t with
    | none =>
      rw [List.idxOf?_eq_none_iff] at hj
      exact absurd (List.mem_of_getElem? hi) hj
    | some j =>
      obtain ⟨hl, hb, -⟩ := List.idxOf?_eq_some_iff.mp hj
      have hj' : d.term? j = some t := List.getElem?_eq_some_iff.mpr ⟨hl, by simpa using hb⟩
      exact congrArg some (h.term_injective hj' hi)

theorem Valid.id_eq_some (h : d.Valid) {i : Nat} {t : Term} :
    d.id? t = some i ↔ d.term? i = some t.canonical :=
  h.idxOf_eq_some

/-- A node is found by its term, whatever number it carries. -/
theorem Valid.resolve_eq (h : d.Valid) (n : Node) : d.resolve? n = d.terms.idxOf? n.term := by
  unfold resolve?
  cases n.id with
  | none => rfl
  | some id =>
    simp only
    split
    next ht => exact (h.idxOf_eq_some.mpr ht).symm
    next => rfl

theorem Valid.resolve_eq_some (h : d.Valid) {n : Node} {i : Nat} :
    d.resolve? n = some i ↔ d.term? i = some n.term := by
  rw [h.resolve_eq, h.idxOf_eq_some]

theorem Valid.encode (h : d.Valid) (t : Term) : (d.encode t).1.Valid := by
  unfold Dictionary.encode
  cases ht : d.id? t with
  | some id => exact h
  | none =>
    rw [Dictionary.id?, List.idxOf?_eq_none_iff] at ht
    exact {
      nodup := by
        rw [List.nodup_append]
        refine ⟨h.nodup, List.nodup_singleton _, fun a ha b hb he => ht ?_⟩
        rwa [← List.mem_singleton.mp hb, ← he]
      canonical := fun u hu => by
        rcases List.mem_append.mp hu with hu | hu
        · exact h.canonical u hu
        · rw [List.mem_singleton.mp hu]
          exact t.isCanonical_canonical }

theorem prefix_encode (d : Dictionary) (t : Term) : d.terms <+: (d.encode t).1.terms := by
  unfold encode
  cases d.id? t with
  | some id => exact List.prefix_refl _
  | none => exact List.prefix_append _ _

theorem Valid.term_encode (h : d.Valid) (t : Term) :
    (d.encode t).1.term? (d.encode t).2 = some t.canonical := by
  unfold Dictionary.encode
  cases ht : d.id? t with
  | some id => exact h.id_eq_some.mp ht
  | none => simp [term?]

/-- Numbers that were given out keep their meaning. -/
theorem term_of_prefix (hp : d.terms <+: d'.terms) {i : Nat} {t : Term} (hi : d.term? i = some t) :
    d'.term? i = some t := by
  obtain ⟨hl, rfl⟩ := List.getElem?_eq_some_iff.mp hi
  exact List.prefix_iff_getElem?.mp hp i hl

/-- What an occurrence by number says. -/
structure Denotes (d : Dictionary) (p : Nat) (e : EncodedEdge) (q : Quad) : Prop where
  subject : d.term? e.subject = some q.subject
  predicate : d.term? p = some q.predicate
  object : d.term? e.object = some q.object
  graph : e.graph.map d.term? = q.graph.map some

theorem Denotes.of_prefix (hp : d.terms <+: d'.terms) {p : Nat} {e : EncodedEdge} {q : Quad}
    (h : d.Denotes p e q) : d'.Denotes p e q where
  subject := term_of_prefix hp h.subject
  predicate := term_of_prefix hp h.predicate
  object := term_of_prefix hp h.object
  graph := by
    have := h.graph
    cases hg : e.graph with
    | none => simpa [hg] using this
    | some g =>
      cases hq : q.graph with
      | none => simp [hg, hq] at this
      | some t =>
        simp only [hg, hq, Option.map_some, Option.some.injEq] at this ⊢
        exact term_of_prefix hp this

theorem Denotes.unique {p : Nat} {e : EncodedEdge} {q r : Quad} (hq : d.Denotes p e q)
    (hr : d.Denotes p e r) : q = r := by
  have hs := hq.subject.symm.trans hr.subject
  have hp := hq.predicate.symm.trans hr.predicate
  have ho := hq.object.symm.trans hr.object
  have hg := Option.map_injective (Option.some_injective _) (hq.graph.symm.trans hr.graph)
  cases q
  cases r
  simp_all

theorem Valid.denotes_injective (h : d.Valid) {p p' : Nat} {e e' : EncodedEdge} {q : Quad}
    (hq : d.Denotes p e q) (hq' : d.Denotes p' e' q) : p = p' ∧ e = e' := by
  have hs := h.term_injective hq.subject hq'.subject
  have ho := h.term_injective hq.object hq'.object
  have hg : e.graph = e'.graph := by
    have h₁ := hq.graph
    have h₂ := hq'.graph
    cases hg : e.graph <;> cases hg' : e'.graph <;> cases hq : q.graph <;>
      simp only [hg, hg', hq, Option.map_some, Option.map_none, reduceCtorEq, Option.some.injEq]
        at h₁ h₂ ⊢
    exact h.term_injective h₁ h₂
  refine ⟨h.term_injective hq.predicate hq'.predicate, ?_⟩
  cases e
  cases e'
  simp_all

end Dictionary

/-- The form in which a quad is stored. -/
def Quad.canonical (q : Quad) : Quad :=
  ⟨q.subject.canonical, q.predicate.canonical, q.object.canonical, q.graph.map Term.canonical⟩

namespace Store

/-! ### Edges by predicate -/

/-- Whether an occurrence is stored under the number of a predicate. -/
def Has (s : Store) (p : Nat) (e : EncodedEdge) : Prop := ∃ i, s.index? p = some i ∧ e ∈ i.all

section InsertInto

variable {p : Nat} {e : EncodedEdge} {l : List (Nat × PredicateIndex)}

theorem lookup_eq_none_of_lt (h : ∀ x ∈ l, p < x.1) : l.lookup p = none := by
  rw [List.lookup_eq_none_iff]
  intro x hx
  simpa using (h x hx).ne

/-- Under sorted keys, a member is what its key leads to. -/
theorem lookup_eq_some (hs : l.Pairwise fun x y => x.1 < y.1) {i : PredicateIndex} :
    l.lookup p = some i ↔ (p, i) ∈ l := by
  induction l with
  | nil => simp
  | cons y l ih =>
    obtain ⟨k, j⟩ := y
    obtain ⟨hk, hl⟩ := List.pairwise_cons.mp hs
    rw [List.lookup_cons]
    by_cases h : p = k
    · have hn : (p, i) ∉ l := fun hm => absurd (hk _ hm) (by simp [h])
      simp [h, eq_comm, h ▸ hn]
    · simp [h, ih hl, beq_false_of_ne h]

theorem key_of_mem_insertInto {x : Nat × PredicateIndex} (hx : x ∈ insertInto p e l) :
    x.1 = p ∨ ∃ y ∈ l, y.1 = x.1 := by
  induction l with
  | nil => simp_all [insertInto]
  | cons y l ih =>
    obtain ⟨k, i⟩ := y
    simp only [insertInto] at hx
    split_ifs at hx with h₁ h₂
    · rcases List.mem_cons.mp hx with rfl | hx
      · exact .inl rfl
      · exact .inr ⟨x, hx, rfl⟩
    · rcases List.mem_cons.mp hx with rfl | hx
      · exact .inl h₂.symm
      · exact .inr ⟨x, by simp [hx], rfl⟩
    · rcases List.mem_cons.mp hx with rfl | hx
      · exact .inr ⟨_, by simp, rfl⟩
      · refine (ih hx).imp id ?_
        rintro ⟨y, hy, hyx⟩
        exact ⟨y, by simp [hy], hyx⟩

theorem sorted_insertInto (hs : l.Pairwise fun x y => x.1 < y.1) :
    (insertInto p e l).Pairwise fun x y => x.1 < y.1 := by
  induction l with
  | nil => simp [insertInto]
  | cons y l ih =>
    obtain ⟨k, i⟩ := y
    obtain ⟨hk, hl⟩ := List.pairwise_cons.mp hs
    simp only [insertInto]
    split_ifs with h₁ h₂
    · refine List.pairwise_cons.mpr ⟨fun x hx => ?_, hs⟩
      rcases List.mem_cons.mp hx with rfl | hx
      · exact h₁
      · exact h₁.trans (hk x hx)
    · exact List.pairwise_cons.mpr ⟨hk, hl⟩
    · refine List.pairwise_cons.mpr ⟨fun x hx => ?_, ih hl⟩
      rcases key_of_mem_insertInto hx with hx | ⟨y, hy, hyx⟩
      · change k < x.1
        omega
      · exact hyx ▸ hk y hy

theorem lookup_insertInto (hs : l.Pairwise fun x y => x.1 < y.1) (k : Nat) :
    (insertInto p e l).lookup k =
      if k = p then some (((l.lookup p).getD {}).insert e) else l.lookup k := by
  induction l with
  | nil =>
    by_cases h : k = p
    · simp [insertInto, h]
    · simp [insertInto, h, List.lookup_cons, beq_false_of_ne h]
  | cons y l ih =>
    obtain ⟨j, i⟩ := y
    obtain ⟨hj, hl⟩ := List.pairwise_cons.mp hs
    simp only [insertInto]
    rcases lt_trichotomy p j with h | rfl | h
    · have hn : ((j, i) :: l).lookup p = none := lookup_eq_none_of_lt fun x hx => by
        rcases List.mem_cons.mp hx with rfl | hx
        · exact h
        · exact h.trans (hj x hx)
      rw [if_pos h, List.lookup_cons, hn]
      by_cases hk : k = p
      · simp [hk]
      · simp [hk, beq_false_of_ne hk]
    · rw [if_neg (lt_irrefl p), if_pos rfl]
      by_cases hk : k = p
      · simp [hk]
      · simp [hk, List.lookup_cons, beq_false_of_ne hk]
    · rw [if_neg h.not_gt, if_neg h.ne', List.lookup_cons, ih hl]
      by_cases hk : k = p
      · simp [hk, List.lookup_cons, beq_false_of_ne h.ne']
      · simp [hk, List.lookup_cons]

theorem all_ne_nil_insert (i : PredicateIndex) (e : EncodedEdge) : (i.insert e).all ≠ [] :=
  List.ne_nil_of_mem (PredicateIndex.mem_all_insert.mpr (.inl rfl))

theorem all_ne_nil_of_mem_insertInto {l : List (Nat × PredicateIndex)}
    (h : ∀ x ∈ l, x.2.all ≠ []) {x : Nat × PredicateIndex} (hx : x ∈ insertInto p e l) :
    x.2.all ≠ [] := by
  induction l with
  | nil =>
    rw [List.mem_singleton.mp hx]
    exact all_ne_nil_insert _ e
  | cons y l ih =>
    obtain ⟨hy, hl⟩ := List.forall_mem_cons.mp h
    simp only [insertInto] at hx
    split_ifs at hx
    · rcases List.mem_cons.mp hx with rfl | hx
      · exact all_ne_nil_insert _ e
      · exact h x hx
    · rcases List.mem_cons.mp hx with rfl | hx
      · exact all_ne_nil_insert _ e
      · exact hl x hx
    · rcases List.mem_cons.mp hx with rfl | hx
      · exact hy
      · exact ih hl hx

end InsertInto

/-! ### Valid stores -/

/-- The graphs are declared in the order of their numbers. -/
def SortedGraphs (s : Store) : Prop := s.namedGraphs.Pairwise fun a b => compare a b = .lt

structure Valid (s : Store) : Prop where
  dictionary : s.dictionary.Valid
  sorted : s.predicates.Pairwise fun x y => x.1 < y.1
  index : ∀ p i, s.index? p = some i → i.Valid
  denotes : ∀ p e, s.Has p e → ∃ q, s.dictionary.Denotes p e q
  declared : ∀ p e g, s.Has p e → e.graph = some g → g ∈ s.namedGraphs
  named : ∀ g ∈ s.namedGraphs, ∃ t, s.dictionary.term? g = some t
  graphs : s.SortedGraphs

/-- Whether a quad of canonical terms is stored. -/
def Holds (s : Store) (q : Quad) : Prop := ∃ p e, s.Has p e ∧ s.dictionary.Denotes p e q

/-- Whether a canonical term names a graph. -/
def Names (s : Store) (t : Term) : Prop := ∃ g ∈ s.namedGraphs, s.dictionary.term? g = some t

variable {s : Store}

theorem valid_empty (entailment : Bool) : Valid { entailment } where
  dictionary := ⟨.nil, by simp⟩
  sorted := .nil
  index := by simp [index?]
  denotes := by simp [Has, index?]
  declared := by simp [Has, index?]
  named := by simp
  graphs := .nil

theorem Valid.has_insertInto (hs : s.Valid) {p : Nat} {e : EncodedEdge} {k : Nat} {f : EncodedEdge} :
    Has { s with predicates := insertInto p e s.predicates, len := s.len + 1 } k f ↔
      s.Has k f ∨ k = p ∧ f = e := by
  simp only [Has, index?, lookup_insertInto hs.sorted]
  by_cases hk : k = p
  · subst hk
    cases h : s.predicates.lookup k <;> simp [PredicateIndex.all, PredicateIndex.insert,
      Sorted.mem_insert, or_comm]
  · simp [hk]

theorem addEdge_of_has {p : Nat} {e : EncodedEdge} (h : s.Has p e) : s.addEdge p e = (s, false) := by
  obtain ⟨i, hi, he⟩ := h
  simp [addEdge, hi, PredicateIndex.mem_contains.mpr he]

theorem addEdge_of_not_has {p : Nat} {e : EncodedEdge} (h : ¬ s.Has p e) :
    s.addEdge p e =
      ({ s with predicates := insertInto p e s.predicates, len := s.len + 1 }, true) := by
  rw [addEdge, if_neg]
  rw [Option.any_eq_true]
  rintro ⟨i, hi, he⟩
  exact h ⟨i, hi, PredicateIndex.mem_contains.mp he⟩

theorem Valid.has_addEdge (hs : s.Valid) {p : Nat} {e : EncodedEdge} {k : Nat} {f : EncodedEdge} :
    (s.addEdge p e).1.Has k f ↔ s.Has k f ∨ k = p ∧ f = e := by
  by_cases h : s.Has p e
  · rw [addEdge_of_has h, or_iff_left_of_imp]
    rintro ⟨rfl, rfl⟩
    exact h
  · rw [addEdge_of_not_has h]
    exact hs.has_insertInto

@[simp] theorem dictionary_addEdge (p : Nat) (e : EncodedEdge) :
    (s.addEdge p e).1.dictionary = s.dictionary := by
  unfold addEdge
  split <;> rfl

@[simp] theorem namedGraphs_addEdge (p : Nat) (e : EncodedEdge) :
    (s.addEdge p e).1.namedGraphs = s.namedGraphs := by
  unfold addEdge
  split <;> rfl

theorem Valid.addEdge (hs : s.Valid) {p : Nat} {e : EncodedEdge} {q : Quad}
    (hq : s.dictionary.Denotes p e q) (hg : ∀ g, e.graph = some g → g ∈ s.namedGraphs) :
    (s.addEdge p e).1.Valid where
  dictionary := by simpa using hs.dictionary
  sorted := by
    by_cases h : s.Has p e
    · rw [addEdge_of_has h]
      exact hs.sorted
    · rw [addEdge_of_not_has h]
      exact sorted_insertInto hs.sorted
  index := by
    by_cases h : s.Has p e
    · rw [addEdge_of_has h]
      exact hs.index
    · rw [addEdge_of_not_has h]
      intro k i hi
      simp only [index?, lookup_insertInto hs.sorted] at hi
      split_ifs at hi
      · obtain rfl := Option.some.inj hi
        refine PredicateIndex.Valid.insert ?_ e
        cases hl : s.predicates.lookup p with
        | none => exact PredicateIndex.valid_empty
        | some j => exact hs.index p j hl
      · exact hs.index k i hi
  denotes k f h := by
    rw [dictionary_addEdge]
    rcases hs.has_addEdge.mp h with h | ⟨rfl, rfl⟩
    · exact hs.denotes k f h
    · exact ⟨q, hq⟩
  declared k f g h hf := by
    rw [namedGraphs_addEdge]
    rcases hs.has_addEdge.mp h with h | ⟨rfl, rfl⟩
    · exact hs.declared k f g h hf
    · exact hg g hf
  named := by simpa using hs.named
  graphs := by
    rw [SortedGraphs, namedGraphs_addEdge]
    exact hs.graphs

theorem Valid.holds_addEdge (hs : s.Valid) {p : Nat} {e : EncodedEdge} {q : Quad}
    (hq : s.dictionary.Denotes p e q) (r : Quad) :
    (s.addEdge p e).1.Holds r ↔ s.Holds r ∨ r = q := by
  simp only [Holds, dictionary_addEdge, hs.has_addEdge]
  constructor
  · rintro ⟨k, f, h | ⟨rfl, rfl⟩, hr⟩
    · exact .inl ⟨k, f, h, hr⟩
    · exact .inr (hr.unique hq)
  · rintro (⟨k, f, h, hr⟩ | rfl)
    · exact ⟨k, f, .inl h, hr⟩
    · exact ⟨p, e, .inr ⟨rfl, rfl⟩, hq⟩

theorem Valid.has_iff_holds (hs : s.Valid) {p : Nat} {e : EncodedEdge} {q : Quad}
    (hq : s.dictionary.Denotes p e q) :
    s.Has p e ↔ s.Holds q := by
  constructor
  · exact fun h => ⟨p, e, h, hq⟩
  · rintro ⟨p', e', h, hq'⟩
    obtain ⟨rfl, rfl⟩ := hs.dictionary.denotes_injective hq hq'
    exact h

/-! ### Growing dictionaries -/

/-- A store after more terms were numbered and more graphs declared. -/
structure Grows (s s' : Store) : Prop where
  predicates : s'.predicates = s.predicates
  len : s'.len = s.len
  valid : s'.dictionary.Valid
  terms : s.dictionary.terms <+: s'.dictionary.terms
  declared : ∀ g ∈ s.namedGraphs, g ∈ s'.namedGraphs
  named : ∀ g ∈ s'.namedGraphs, ∃ t, s'.dictionary.term? g = some t
  graphs : s'.SortedGraphs

theorem Grows.has {s' : Store} (h : s.Grows s') {p : Nat} {e : EncodedEdge} :
    s'.Has p e ↔ s.Has p e := by
  simp only [Has, index?, h.predicates]

theorem Grows.holds {s' : Store} (h : s.Grows s') (hs : s.Valid) (q : Quad) :
    s'.Holds q ↔ s.Holds q := by
  simp only [Holds, h.has]
  constructor
  · rintro ⟨p, e, he, hq⟩
    obtain ⟨r, hr⟩ := hs.denotes p e he
    exact ⟨p, e, he, hq.unique (hr.of_prefix h.terms) ▸ hr⟩
  · rintro ⟨p, e, he, hq⟩
    exact ⟨p, e, he, hq.of_prefix h.terms⟩

theorem Grows.isValid {s' : Store} (h : s.Grows s') (hs : s.Valid) : s'.Valid where
  dictionary := h.valid
  sorted := h.predicates ▸ hs.sorted
  index p i hi := hs.index p i (by simpa only [index?, h.predicates] using hi)
  denotes p e he := by
    obtain ⟨q, hq⟩ := hs.denotes p e (h.has.mp he)
    exact ⟨q, hq.of_prefix h.terms⟩
  declared p e g he hg := h.declared g (hs.declared p e g (h.has.mp he) hg)
  named := h.named
  graphs := h.graphs

theorem Grows.refl (hs : s.Valid) : s.Grows s :=
  ⟨rfl, rfl, hs.dictionary, List.prefix_refl _, fun _ hg => hg, hs.named, hs.graphs⟩

theorem Grows.trans {s' s'' : Store} (h : s.Grows s') (h' : s'.Grows s'') : s.Grows s'' :=
  ⟨h'.predicates.trans h.predicates, h'.len.trans h.len, h'.valid, h.terms.trans h'.terms,
    fun g hg => h'.declared g (h.declared g hg), h'.named, h'.graphs⟩

theorem Valid.grows_encode (hs : s.Valid) (t : Term) : s.Grows (s.encode t).1 where
  predicates := rfl
  len := rfl
  valid := hs.dictionary.encode t
  terms := s.dictionary.prefix_encode t
  declared _ h := h
  named g hg := by
    obtain ⟨u, hu⟩ := hs.named g hg
    exact ⟨u, Dictionary.term_of_prefix (s.dictionary.prefix_encode t) hu⟩
  graphs := hs.graphs

theorem Valid.grows_declareGraph (hs : s.Valid) {g : Nat} {t : Term}
    (ht : s.dictionary.term? g = some t) : s.Grows (s.declareGraph g) where
  predicates := rfl
  len := rfl
  valid := hs.dictionary
  terms := List.prefix_refl _
  declared _ h := Sorted.mem_insert.mpr (.inr h)
  named k hk := by
    rcases Sorted.mem_insert.mp hk with rfl | hk
    · exact ⟨t, ht⟩
    · exact hs.named k hk
  graphs := Sorted.pairwise_insert hs.graphs

theorem Grows.names {s' : Store} (h : s.Grows s') (hs : s.Valid)
    (hn : s'.namedGraphs = s.namedGraphs) (t : Term) : s'.Names t ↔ s.Names t := by
  simp only [Names, hn]
  refine exists_congr fun g => and_congr_right fun hg => ?_
  obtain ⟨u, hu⟩ := hs.named g hg
  rw [Dictionary.term_of_prefix h.terms hu, hu]

theorem names_declareGraph {g : Nat} {t : Term}
    (ht : s.dictionary.term? g = some t) (u : Term) :
    (s.declareGraph g).Names u ↔ s.Names u ∨ u = t := by
  simp only [Names, declareGraph, Sorted.mem_insert]
  constructor
  · rintro ⟨k, rfl | hk, hu⟩
    · exact .inr (Option.some.inj (hu.symm.trans ht))
    · exact .inl ⟨k, hk, hu⟩
  · rintro (⟨k, hk, hu⟩ | rfl)
    · exact ⟨k, .inr hk, hu⟩
    · exact ⟨g, .inl rfl, ht⟩

/-! ### Insertions -/

/-- The store contains some quads and names some graphs, and no others. It keeps no index without
edges, and counts what it contains. -/
structure Contains (s : Store) (qs : List Quad) (ts : List Term) : Prop where
  valid : s.Valid
  holds : ∀ q, s.Holds q ↔ q ∈ qs
  names : ∀ t, s.Names t ↔ t ∈ ts
  nonempty : ∀ p i, (p, i) ∈ s.predicates → i.all ≠ []
  len : s.len = qs.toFinset.card

variable {qs : List Quad} {ts : List Term}

theorem contains_empty (entailment : Bool) : Contains { entailment } [] [] where
  valid := valid_empty entailment
  holds := by simp [Holds, Has, index?]
  names := by simp [Names]
  nonempty := by simp
  len := rfl

theorem Contains.of_grows {s' : Store} {ts' : List Term} (h : s.Contains qs ts) (hg : s.Grows s')
    (hn : ∀ t, s'.Names t ↔ t ∈ ts') : s'.Contains qs ts' where
  valid := hg.isValid h.valid
  holds q := (hg.holds h.valid q).trans (h.holds q)
  names := hn
  nonempty := hg.predicates ▸ h.nonempty
  len := hg.len.trans h.len

theorem Contains.encode (h : s.Contains qs ts) (t : Term) : (s.encode t).1.Contains qs ts :=
  have hg := h.valid.grows_encode t
  h.of_grows hg fun u => (hg.names h.valid rfl u).trans (h.names u)

theorem Contains.declareGraph (h : s.Contains qs ts) {g : Nat} {t : Term}
    (ht : s.dictionary.term? g = some t) : (s.declareGraph g).Contains qs (ts ++ [t]) :=
  h.of_grows (h.valid.grows_declareGraph ht) fun u => by
    rw [Store.names_declareGraph ht, h.names, List.mem_append, List.mem_singleton]

section Edges

variable {p : Nat} {e : EncodedEdge} {q : Quad}

theorem Contains.has_iff (h : s.Contains qs ts) (hq : s.dictionary.Denotes p e q) :
    s.Has p e ↔ q ∈ qs :=
  (h.valid.has_iff_holds hq).trans (h.holds q)

theorem Contains.nonempty_addEdge (h : s.Contains qs ts) :
    ∀ k i, (k, i) ∈ (s.addEdge p e).1.predicates → i.all ≠ [] := by
  by_cases he : s.Has p e
  · rw [addEdge_of_has he]
    exact h.nonempty
  · rw [addEdge_of_not_has he]
    exact fun k i hi => all_ne_nil_of_mem_insertInto (fun x hx => h.nonempty x.1 x.2 hx) hi

theorem Contains.len_addEdge (h : s.Contains qs ts) (hq : s.dictionary.Denotes p e q) :
    (s.addEdge p e).1.len = (qs ++ [q]).toFinset.card := by
  have hset : (qs ++ [q]).toFinset = Insert.insert q qs.toFinset := by
    rw [List.toFinset_append, List.toFinset_cons, List.toFinset_nil, insert_empty_eq,
      Finset.union_singleton]
  by_cases he : s.Has p e
  · have hm := List.mem_toFinset.mpr ((h.has_iff hq).mp he)
    rw [addEdge_of_has he, hset, Finset.card_insert_of_mem hm, h.len]
  · have hm := mt List.mem_toFinset.mp (mt (h.has_iff hq).mpr he)
    rw [addEdge_of_not_has he, hset, Finset.card_insert_of_notMem hm, ← h.len]

theorem Contains.addEdge (h : s.Contains qs ts) (hq : s.dictionary.Denotes p e q)
    (hg : ∀ g, e.graph = some g → g ∈ s.namedGraphs) :
    (s.addEdge p e).1.Contains (qs ++ [q]) ts where
  valid := h.valid.addEdge hq hg
  holds r := by
    rw [h.valid.holds_addEdge hq, h.holds, List.mem_append, List.mem_singleton]
  names t := by
    rw [← h.names]
    simp only [Names, namedGraphs_addEdge, dictionary_addEdge]
  nonempty := h.nonempty_addEdge
  len := h.len_addEdge hq

end Edges

theorem term_encode (hs : s.Valid) (t : Term) :
    (s.encode t).1.dictionary.term? (s.encode t).2 = some t.canonical :=
  hs.dictionary.term_encode t

theorem term_of_encode {i : Nat} {u : Term} (h : s.dictionary.term? i = some u) (t : Term) :
    (s.encode t).1.dictionary.term? i = some u :=
  Dictionary.term_of_prefix (s.dictionary.prefix_encode t) h

theorem Contains.grows_encodeGraph (h : s.Contains qs ts) (g : Option Term) :
    s.Grows (s.encodeGraph g).1 := by
  cases g with
  | none => exact Grows.refl h.valid
  | some g =>
    exact (h.valid.grows_encode g).trans
      ((h.encode g).valid.grows_declareGraph (term_encode h.valid g))

theorem Contains.encodeGraph (h : s.Contains qs ts) (g : Option Term) :
    (s.encodeGraph g).1.Contains qs (ts ++ (g.map Term.canonical).toList) := by
  cases g with
  | none => simpa [Store.encodeGraph] using h
  | some g => exact (h.encode g).declareGraph (term_encode h.valid g)

theorem term_encodeGraph (hs : s.Valid) (g : Option Term) :
    (s.encodeGraph g).2.map (s.encodeGraph g).1.dictionary.term? =
      (g.map Term.canonical).map some := by
  cases g with
  | none => rfl
  | some g => exact congrArg some (term_encode hs g)

theorem mem_namedGraphs_encodeGraph {g : Option Term} {k : Nat}
    (h : (s.encodeGraph g).2 = some k) : k ∈ (s.encodeGraph g).1.namedGraphs := by
  cases g with
  | none => cases h
  | some g => exact Sorted.mem_insert.mpr (.inl (Option.some.inj h).symm)

/-- Before the edge of a quad is added its terms are numbered and its graph is declared. -/
theorem Contains.prepare (h : s.Contains qs ts) (q : Quad) : ∃ (s' : Store) (p : Nat)
    (e : EncodedEdge), s.insertChecked q = s'.addEdge p e ∧ s.Grows s' ∧
      s'.Contains qs (ts ++ q.canonical.graph.toList) ∧ s'.dictionary.Denotes p e q.canonical ∧
        ∀ g, e.graph = some g → g ∈ s'.namedGraphs := by
  have h₁ := h.encode q.subject
  have h₂ := h₁.encode q.predicate
  have h₃ := h₂.encode q.object
  have hg := h₃.grows_encodeGraph q.graph
  refine ⟨_, _, ⟨_, _, _⟩, rfl, (h.valid.grows_encode q.subject).trans
    ((h₁.valid.grows_encode q.predicate).trans ((h₂.valid.grows_encode q.object).trans hg)),
    h₃.encodeGraph q.graph, ?_, fun k hk => mem_namedGraphs_encodeGraph hk⟩
  exact {
    subject := Dictionary.term_of_prefix hg.terms
      (term_of_encode (term_of_encode (term_encode h.valid q.subject) q.predicate) q.object)
    predicate := Dictionary.term_of_prefix hg.terms
      (term_of_encode (term_encode h₁.valid q.predicate) q.object)
    object := Dictionary.term_of_prefix hg.terms (term_encode h₂.valid q.object)
    graph := term_encodeGraph h₃.valid q.graph }

theorem Contains.insertChecked (h : s.Contains qs ts) (q : Quad) :
    (s.insertChecked q).1.Contains (qs ++ [q.canonical]) (ts ++ q.canonical.graph.toList) := by
  obtain ⟨s', p, e, he, -, hs, hq, hg⟩ := h.prepare q
  rw [he]
  exact hs.addEdge hq hg

end Store

/-! ### Histories -/

/-- A call that may change a store. -/
inductive Insertion where
  /-- Quads are inserted up to the first that is refused. -/
  | extend (qs : List Quad)
  /-- A named graph is declared. -/
  | declare (g : Term)

namespace Insertion

/-- The quads that a call stores. -/
def quads : Insertion → List Quad
  | extend qs => (qs.takeWhile fun q => (Store.check q).isOk).map Quad.canonical
  | declare _ => []

/-- The graphs that a call declares. -/
def names : Insertion → List Term
  | extend qs => (extend qs).quads.filterMap Quad.graph
  | declare g => if Store.isResource g then [g.canonical] else []

variable {q : Quad}

theorem quads_extend_of_error (new : List Quad) {e : StoreError} (h : Store.check q = .error e) :
    (extend (q :: new)).quads = [] := by
  simp [quads, h, Except.isOk, Except.toBool]

theorem quads_extend_of_ok (new : List Quad) {u : Unit} (h : Store.check q = .ok u) :
    (extend (q :: new)).quads = q.canonical :: (extend new).quads := by
  simp [quads, h, Except.isOk, Except.toBool]

theorem names_extend_of_ok (new : List Quad) {u : Unit} (h : Store.check q = .ok u) :
    (extend (q :: new)).names = q.canonical.graph.toList ++ (extend new).names := by
  rw [names, quads_extend_of_ok new h, List.filterMap_cons]
  cases q.canonical.graph <;> rfl

end Insertion

namespace Store

variable {s : Store} {qs : List Quad} {ts : List Term}

def apply (s : Store) : Insertion → Store
  | .extend qs => (s.insertAll qs).1
  | .declare g =>
    match s.insertNamedGraph g with
    | .ok (s, _) => s
    | .error _ => s

/-- The store after calls on an empty one. -/
def after (entailment : Bool) (history : List Insertion) : Store :=
  history.foldl apply { entailment }

section Calls

variable {q : Quad} {g : Term} {e : StoreError} {u : Unit}

theorem insert_of_ok (s : Store) (h : check q = .ok u) :
    s.insert q = .ok (s.insertChecked q) := by
  simp [Store.insert, h, bind, Except.bind, pure, Except.pure]

theorem insert_of_error (s : Store) (h : check q = .error e) : s.insert q = .error e := by
  simp [Store.insert, h, bind, Except.bind]

theorem insertAll_of_ok (s : Store) (new : List Quad) (h : check q = .ok u) :
    s.insertAll (q :: new) = (((s.insertChecked q).1.insertAll new).1,
      ((s.insertChecked q).1.insertAll new).2.map (· + if (s.insertChecked q).2 then 1 else 0)) := by
  simp only [Store.insertAll, insert_of_ok s h]

theorem insertAll_of_error (s : Store) (new : List Quad) (h : check q = .error e) :
    s.insertAll (q :: new) = (s, .error e) := by
  simp only [Store.insertAll, insert_of_error s h]

theorem insertNamedGraph_of_resource (s : Store) (h : isResource g) : s.insertNamedGraph g =
    .ok ((s.encode g).1.declareGraph (s.encode g).2,
      !(s.encode g).1.namedGraphs.contains (s.encode g).2) := by
  simp [Store.insertNamedGraph, h, pure, Except.pure]

theorem insertNamedGraph_of_not_resource (s : Store) (h : ¬ isResource g) :
    s.insertNamedGraph g = .error (.invalidTerm g .graph) := by
  simp [Store.insertNamedGraph, h, throw, throwThe, MonadExceptOf.throw, Functor.map, Except.map]

end Calls

theorem Contains.insertAll (h : s.Contains qs ts) (new : List Quad) :
    (s.insertAll new).1.Contains (qs ++ (Insertion.extend new).quads)
      (ts ++ (Insertion.extend new).names) := by
  induction new generalizing s qs ts with
  | nil => simpa [Store.insertAll, Insertion.quads, Insertion.names] using h
  | cons q new ih =>
    cases hq : check q with
    | error e =>
      rw [insertAll_of_error s new hq, Insertion.names, Insertion.quads_extend_of_error new hq]
      simpa using h
    | ok u =>
      rw [insertAll_of_ok s new hq, Insertion.quads_extend_of_ok new hq,
        Insertion.names_extend_of_ok new hq]
      simpa using ih (h.insertChecked q)

theorem Contains.apply (h : s.Contains qs ts) (i : Insertion) :
    (s.apply i).Contains (qs ++ i.quads) (ts ++ i.names) := by
  cases i with
  | extend new => exact h.insertAll new
  | declare g =>
    by_cases hg : isResource g
    · simp only [Store.apply, insertNamedGraph_of_resource s hg, Insertion.quads, Insertion.names,
        if_pos hg, List.append_nil]
      exact (h.encode g).declareGraph (term_encode h.valid g)
    · simp only [Store.apply, insertNamedGraph_of_not_resource s hg, Insertion.quads,
        Insertion.names, if_neg hg, List.append_nil]
      exact h

/-- A store contains what was inserted, in canonical form. -/
theorem contains_after (entailment : Bool) (history : List Insertion) :
    (after entailment history).Contains (history.flatMap Insertion.quads)
      (history.flatMap Insertion.names) := by
  suffices h : ∀ (s : Store) (qs : List Quad) (ts : List Term), s.Contains qs ts →
      (history.foldl apply s).Contains (qs ++ history.flatMap Insertion.quads)
        (ts ++ history.flatMap Insertion.names) from
    h _ _ _ (contains_empty entailment)
  induction history with
  | nil => simp
  | cons i history ih =>
    intro s qs ts h
    simpa [List.append_assoc] using ih _ _ _ (h.apply i)

end Store

end GraphQuery
