import GraphQuery.Proofs.Store.Contents
import GraphQuery.Store.Hierarchy

/-! Reading a valid store. What is found for a predicate and the nodes at some positions is exactly
what the store holds there, each quad once, and occurrences of one edge follow one another. -/

namespace GraphQuery

/-- What an occurrence says. -/
def Occurrence.quad (o : Occurrence) : Quad :=
  ⟨o.edge.subject.term, o.edge.predicate.term, o.edge.object.term, o.graph.map Node.term⟩

/-- The quad without its graph. -/
def Quad.triple (q : Quad) : Quad := { q with graph := none }

namespace Dictionary

variable {d : Dictionary}

theorem node_eq_some {i : Nat} {n : Node} :
    d.node? i = some n ↔ ∃ t, d.term? i = some t ∧ n = ⟨t, some i⟩ := by
  simp [node?, eq_comm]

/-- The nodes of different numbers have different terms. -/
theorem Valid.nodup_terms (h : d.Valid) {ids : List Nat} (hids : ids.Nodup) :
    ((ids.filterMap d.node?).map (·.term)).Nodup := by
  rw [List.map_filterMap]
  refine hids.filterMap fun i j t hi hj => ?_
  obtain ⟨n, hn, rfl⟩ := Option.map_eq_some_iff.mp hi
  obtain ⟨m, hm, hmn⟩ := Option.map_eq_some_iff.mp hj
  obtain ⟨t, ht, rfl⟩ := node_eq_some.mp hn
  obtain ⟨u, hu, rfl⟩ := node_eq_some.mp hm
  obtain rfl : u = t := hmn
  exact h.term_injective ht hu

/-! ### The order of terms -/

/-- The place of a term, which is its number if it has one. -/
def rank (d : Dictionary) (t : Term) : Nat := d.terms.idxOf t

theorem Valid.rank_eq (h : d.Valid) {i : Nat} {t : Term} (hi : d.term? i = some t) :
    d.rank t = i := by
  obtain ⟨hl, rfl⟩ := List.getElem?_eq_some_iff.mp hi
  exact h.nodup.idxOf_getElem i hl

/-- The node of a term, with its place. -/
def numbered (d : Dictionary) (t : Term) : Node := ⟨t, some (d.rank t)⟩

/-- The occurrence that says a quad. -/
def occurrence (d : Dictionary) (q : Quad) : Occurrence :=
  ⟨⟨d.numbered q.subject, d.numbered q.predicate, d.numbered q.object⟩, q.graph.map d.numbered⟩

@[simp] theorem quad_occurrence (d : Dictionary) (q : Quad) : (d.occurrence q).quad = q := by
  obtain ⟨_, _, _, g⟩ := q
  cases g <;> rfl

theorem Valid.node_eq_numbered (h : d.Valid) {i : Nat} {t : Term} (hi : d.term? i = some t) :
    d.node? i = some (d.numbered t) := by
  rw [numbered, h.rank_eq hi]
  exact node_eq_some.mpr ⟨t, hi, rfl⟩

/-- Predicates come first, then the ends of an edge. -/
def subjectRank (d : Dictionary) (q : Quad) : ℕ ×ₗ ℕ ×ₗ ℕ :=
  toLex (d.rank q.predicate, toLex (d.rank q.subject, d.rank q.object))

def objectRank (d : Dictionary) (q : Quad) : ℕ ×ₗ ℕ ×ₗ ℕ :=
  toLex (d.rank q.predicate, toLex (d.rank q.object, d.rank q.subject))

end Dictionary

/-- Occurrences that are sorted by a rank, up to those of one edge. -/
def Clustered (rank : Quad → ℕ ×ₗ ℕ ×ₗ ℕ) (os : List Occurrence) : Prop :=
  os.Pairwise fun a b => a.quad.triple = b.quad.triple ∨ rank a.quad < rank b.quad

namespace Store

variable {s : Store} {p : Node} {q : Quad}

/-! ### Occurrences by number -/

theorem denotes_of_decode {k : Nat} {t : Term} {e : EncodedEdge} {o : Occurrence}
    (ht : s.dictionary.term? k = some t) (h : s.decode? ⟨t, some k⟩ e = some o) :
    s.dictionary.Denotes k e o.quad := by
  cases he : e.graph with
  | none =>
    simp only [decode?, he, Option.bind_eq_bind, Option.bind_eq_some_iff, Dictionary.node_eq_some,
      Option.some.injEq] at h
    obtain ⟨a, ⟨ta, ha, rfl⟩, b, ⟨tb, hb, rfl⟩, g, rfl, rfl⟩ := h
    exact ⟨ha, ht, hb, by simp [he, Occurrence.quad]⟩
  | some g =>
    simp only [decode?, he, Option.bind_eq_bind, Option.bind_eq_some_iff, Dictionary.node_eq_some,
      Option.some.injEq, Option.map_eq_some_iff] at h
    obtain ⟨a, ⟨ta, ha, rfl⟩, b, ⟨tb, hb, rfl⟩, g', ⟨n, ⟨tn, hn, rfl⟩, rfl⟩, rfl⟩ := h
    exact ⟨ha, ht, hb, by simp [he, hn, Occurrence.quad]⟩

theorem decode_of_denotes (hd : s.dictionary.Valid) {k : Nat} {e : EncodedEdge}
    (h : s.dictionary.Denotes k e q) :
    s.decode? ⟨q.predicate, some k⟩ e = some (s.dictionary.occurrence q) := by
  have hp : (⟨q.predicate, some k⟩ : Node) = s.dictionary.numbered q.predicate := by
    rw [Dictionary.numbered, hd.rank_eq h.predicate]
  have hg := h.graph
  unfold decode?
  rw [hp, hd.node_eq_numbered h.subject, hd.node_eq_numbered h.object]
  cases he : e.graph with
  | none =>
    rw [he, Option.map_none, eq_comm, Option.map_eq_none_iff] at hg
    rw [Dictionary.occurrence, hg]
    rfl
  | some g =>
    rw [he, Option.map_some, eq_comm, Option.map_eq_some_iff] at hg
    obtain ⟨t, ht, htg⟩ := hg
    simp only [hd.node_eq_numbered htg.symm, Dictionary.occurrence, ht]
    rfl

/-- What is found carries its numbers. -/
theorem occurrence_of_decode (hd : s.dictionary.Valid) {k : Nat} {t : Term} {e : EncodedEdge}
    {o : Occurrence} (ht : s.dictionary.term? k = some t)
    (h : s.decode? ⟨t, some k⟩ e = some o) : o = s.dictionary.occurrence o.quad := by
  have hq := denotes_of_decode ht h
  have hp := Option.some.inj (ht.symm.trans hq.predicate)
  exact Option.some.inj ((hp ▸ h).symm.trans (decode_of_denotes hd hq))

/-- What is found is what the numbers that are found stand for. -/
theorem Valid.mem_edgesFor (hs : s.Valid) {bound second : Option Node} {position : Position} :
    q ∈ (s.edgesFor p bound second position).map Occurrence.quad ↔
      q.predicate = p.term ∧ ∃ k i e, s.index? k = some i ∧ e ∈ s.select i bound second position ∧
        s.dictionary.Denotes k e q := by
  rw [List.mem_map]
  unfold edgesFor
  constructor
  · rintro ⟨o, ho, rfl⟩
    split at ho
    next => simp at ho
    next k i hk =>
      simp only [Option.bind_eq_some_iff, Option.map_eq_some_iff, Prod.mk.injEq] at hk
      obtain ⟨k, hr, i, hi, rfl, rfl⟩ := hk
      have ht := hs.dictionary.resolve_eq_some.mp hr
      simp only [Dictionary.node_eq_some.mpr ⟨_, ht, rfl⟩, List.mem_filterMap] at ho
      obtain ⟨e, he, ho⟩ := ho
      have hd := denotes_of_decode ht ho
      exact ⟨Option.some.inj (hd.predicate.symm.trans ht), k, i, e, hi, he, hd⟩
  · rintro ⟨hp, k, i, e, hi, he, hd⟩
    have ht := hp ▸ hd.predicate
    have hn : s.dictionary.node? k = some ⟨p.term, some k⟩ :=
      Dictionary.node_eq_some.mpr ⟨_, ht, rfl⟩
    refine ⟨_, ?_, s.dictionary.quad_occurrence q⟩
    simp only [hs.dictionary.resolve_eq_some.mpr ht, hi, Option.map_some, Option.bind_some, hn,
      List.mem_filterMap]
    exact ⟨e, he, hp ▸ decode_of_denotes hs.dictionary hd⟩

theorem holds_iff : s.Holds q ↔ ∃ k i e, s.index? k = some i ∧ e ∈ i.all ∧
    s.dictionary.Denotes k e q := by
  constructor
  · rintro ⟨k, e, ⟨i, hi, he⟩, hd⟩
    exact ⟨k, i, e, hi, he, hd⟩
  · rintro ⟨k, i, e, hi, he, hd⟩
    exact ⟨k, e, ⟨i, hi, he⟩, hd⟩

/-! ### Looking up by position -/

section Select

variable {i : PredicateIndex} {e : EncodedEdge} {n : Node} {second : Option Node}

theorem mem_select_subject (hd : s.dictionary.Valid) :
    e ∈ s.select i (some n) second .subject ↔ e ∈ i.all ∧
      s.dictionary.term? e.subject = some n.term ∧
      ∀ m, second = some m → s.dictionary.term? e.object = some m.term := by
  simp only [← hd.resolve_eq_some]
  unfold select
  cases hn : s.dictionary.resolve? n with
  | none => simp [hn]
  | some a =>
    cases second with
    | none => simp [hn, PredicateIndex.ofSubject, PredicateIndex.all, @eq_comm _ a]
    | some m =>
      cases hm : s.dictionary.resolve? m with
      | none => simp [hn, hm]
      | some b => simp [hn, hm, PredicateIndex.ofSubject, PredicateIndex.all, @eq_comm _ a, @eq_comm _ b]

theorem mem_select_object (hd : s.dictionary.Valid) (hi : i.Valid) :
    e ∈ s.select i (some n) second .object ↔ e ∈ i.all ∧
      s.dictionary.term? e.object = some n.term ∧
      ∀ m, second = some m → s.dictionary.term? e.subject = some m.term := by
  simp only [← hd.resolve_eq_some]
  unfold select
  cases hn : s.dictionary.resolve? n with
  | none => simp [hn]
  | some a =>
    cases second with
    | none =>
      simp [hn, PredicateIndex.ofObject, PredicateIndex.all, hi.mem_byObject, @eq_comm _ a]
    | some m =>
      cases hm : s.dictionary.resolve? m with
      | none => simp [hn, hm]
      | some b =>
        simp [hn, hm, PredicateIndex.ofObject, PredicateIndex.all, hi.mem_byObject, @eq_comm _ a,
          @eq_comm _ b]

theorem mem_select_graph (hd : s.dictionary.Valid) (hi : i.Valid) :
    e ∈ s.select i (some n) none .graph ↔ e ∈ i.all ∧
      ∃ g, e.graph = some g ∧ s.dictionary.term? g = some n.term := by
  simp only [← hd.resolve_eq_some]
  unfold select
  cases hn : s.dictionary.resolve? n with
  | none => simp [hn]
  | some a =>
    simp only [hn, Option.map_none, Option.some.injEq, exists_eq_right', PredicateIndex.ofGraph,
      List.mem_filter, hi.mem_byGraph, PredicateIndex.all, beq_iff_eq]
    constructor
    · rintro ⟨⟨he, -⟩, hg⟩
      exact ⟨he, hg⟩
    · rintro ⟨he, hg⟩
      exact ⟨⟨he, by simp [hg]⟩, hg⟩

/-- The order of what is found. Without a bound node, that is the order by subject. -/
def lookupOrder : Option Node → Position → EncodedEdge → EncodedEdge → Ordering
  | some _, .object => EncodedEdge.byObject
  | some _, .graph => EncodedEdge.byGraph
  | _, _ => EncodedEdge.bySubject

theorem lookupOrder_self (bound : Option Node) (position : Position) (e : EncodedEdge) :
    lookupOrder bound position e e = .eq := by
  unfold lookupOrder
  split <;> exact Std.ReflCmp.compare_self

theorem sorted_select (hi : i.Valid) (bound : Option Node) (position : Position) :
    (s.select i bound second position).Pairwise fun a b => lookupOrder bound position a b = .lt := by
  cases bound with
  | none => exact hi.sorted_bySubject
  | some n =>
    simp only [select]
    split
    next => exact .nil
    next => exact .nil
    next =>
      cases position with
      | subject => exact hi.sorted_bySubject.filter _
      | object => exact hi.sorted_byObject.filter _
      | graph => exact hi.sorted_byGraph.filter _
      | list => exact hi.sorted_bySubject

end Select

theorem Valid.mem_edgesFor_all (hs : s.Valid) {second : Option Node} {position : Position} :
    q ∈ (s.edgesFor p none second position).map Occurrence.quad ↔
      s.Holds q ∧ q.predicate = p.term := by
  rw [hs.mem_edgesFor, holds_iff, and_comm]
  rfl

theorem Valid.mem_edgesFor_subject (hs : s.Valid) {n : Node} {second : Option Node} :
    q ∈ (s.edgesFor p (some n) second .subject).map Occurrence.quad ↔
      s.Holds q ∧ q.predicate = p.term ∧ q.subject = n.term ∧
        ∀ m, second = some m → q.object = m.term := by
  rw [hs.mem_edgesFor, holds_iff]
  simp only [mem_select_subject hs.dictionary]
  constructor
  · rintro ⟨hp, k, i, e, hi, ⟨he, hn, hm⟩, hd⟩
    exact ⟨⟨k, i, e, hi, he, hd⟩, hp, Option.some.inj (hd.subject.symm.trans hn),
      fun m h => Option.some.inj (hd.object.symm.trans (hm m h))⟩
  · rintro ⟨⟨k, i, e, hi, he, hd⟩, hp, hn, hm⟩
    exact ⟨hp, k, i, e, hi, ⟨he, hn ▸ hd.subject, fun m h => hm m h ▸ hd.object⟩, hd⟩

theorem Valid.mem_edgesFor_object (hs : s.Valid) {n : Node} {second : Option Node} :
    q ∈ (s.edgesFor p (some n) second .object).map Occurrence.quad ↔
      s.Holds q ∧ q.predicate = p.term ∧ q.object = n.term ∧
        ∀ m, second = some m → q.subject = m.term := by
  rw [hs.mem_edgesFor, holds_iff]
  constructor
  · rintro ⟨hp, k, i, e, hi, he, hd⟩
    obtain ⟨he, hn, hm⟩ := (mem_select_object hs.dictionary (hs.index k i hi)).mp he
    exact ⟨⟨k, i, e, hi, he, hd⟩, hp, Option.some.inj (hd.object.symm.trans hn),
      fun m h => Option.some.inj (hd.subject.symm.trans (hm m h))⟩
  · rintro ⟨⟨k, i, e, hi, he, hd⟩, hp, hn, hm⟩
    have he' := (mem_select_object hs.dictionary (hs.index k i hi)).mpr
      ⟨he, hn ▸ hd.object, fun m h => hm m h ▸ hd.subject⟩
    exact ⟨hp, k, i, e, hi, he', hd⟩

theorem graph_of_denotes {k : Nat} {e : EncodedEdge} {t : Term} (hd : s.dictionary.Denotes k e q) :
    (∃ g, e.graph = some g ∧ s.dictionary.term? g = some t) ↔ q.graph = some t := by
  have hgraph := hd.graph
  constructor
  · rintro ⟨g, hg, ht⟩
    rw [hg, Option.map_some, ht, eq_comm, Option.map_eq_some_iff] at hgraph
    obtain ⟨u, hu, hut⟩ := hgraph
    rw [hu, Option.some.inj hut]
  · intro ht
    rwa [ht, Option.map_some, Option.map_eq_some_iff] at hgraph

theorem Valid.mem_edgesFor_graph (hs : s.Valid) {n : Node} :
    q ∈ (s.edgesFor p (some n) none .graph).map Occurrence.quad ↔
      s.Holds q ∧ q.predicate = p.term ∧ q.graph = some n.term := by
  rw [hs.mem_edgesFor, holds_iff]
  constructor
  · rintro ⟨hp, k, i, e, hi, he, hd⟩
    obtain ⟨he, hg⟩ := (mem_select_graph hs.dictionary (hs.index k i hi)).mp he
    exact ⟨⟨k, i, e, hi, he, hd⟩, hp, (graph_of_denotes hd).mp hg⟩
  · rintro ⟨⟨k, i, e, hi, he, hd⟩, hp, hn⟩
    have he' := (mem_select_graph hs.dictionary (hs.index k i hi)).mpr
      ⟨he, (graph_of_denotes hd).mpr hn⟩
    exact ⟨hp, k, i, e, hi, he', hd⟩

/-! ### The ends of edges -/

section Ends

variable {edges : List EncodedEdge} {ids : List Nat} {i : Nat}

/-- Adds the ends of edges to a sorted list of numbers. -/
def addEnds (edges : List EncodedEdge) (ids : List Nat) : List Nat :=
  edges.foldl
    (fun ids e => Sorted.insert compare e.object (Sorted.insert compare e.subject ids)) ids

theorem mem_addEnds :
    i ∈ addEnds edges ids ↔ i ∈ ids ∨ ∃ e ∈ edges, e.subject = i ∨ e.object = i := by
  induction edges generalizing ids with
  | nil => simp [addEnds]
  | cons e edges ih =>
    have hnext : addEnds (e :: edges) ids =
        addEnds edges (Sorted.insert compare e.object (Sorted.insert compare e.subject ids)) := rfl
    rw [hnext, ih, Sorted.mem_insert, Sorted.mem_insert, List.exists_mem_cons_iff]
    grind

theorem nodup_addEnds (edges : List EncodedEdge) : (addEnds edges []).Nodup := by
  suffices h : ∀ ids : List Nat, (ids.Pairwise fun a b => compare a b = .lt) →
      (addEnds edges ids).Pairwise fun a b => compare a b = .lt from Sorted.nodup (h [] .nil)
  induction edges with
  | nil => exact fun ids h => h
  | cons e edges ih => exact fun ids h => ih _ (Sorted.pairwise_insert (Sorted.pairwise_insert h))

/-- The edges in a graph, or in all. -/
def edgesIn (s : Store) (graph : Option Node) : List EncodedEdge :=
  s.predicates.flatMap fun (_, i) => s.select i graph none .graph

theorem nodes_eq (graph : Option Node) :
    s.nodes graph = (addEnds (s.edgesIn graph) []).filterMap s.dictionary.node? := by
  cases graph with
  | none => rfl
  | some g =>
    unfold nodes edgesIn select
    cases hg : s.dictionary.resolve? g with
    | none =>
      have hnone : s.predicates.flatMap (fun _ => ([] : List EncodedEdge)) = [] :=
        List.flatMap_eq_nil_iff.mpr fun _ _ => rfl
      simp [addEnds, hg, hnone]
    | some k => simp [addEnds, hg]

theorem Valid.mem_edgesIn (hs : s.Valid) {graph : Option Node} {e : EncodedEdge} :
    e ∈ s.edgesIn graph ↔ ∃ k q, s.Has k e ∧ s.dictionary.Denotes k e q ∧
      ∀ g, graph = some g → q.graph = some g.term := by
  have hin : ∀ k i q, s.index? k = some i → s.dictionary.Denotes k e q →
      (e ∈ s.select i graph none .graph ↔
        e ∈ i.all ∧ ∀ g, graph = some g → q.graph = some g.term) := by
    intro k i q hi hd
    cases graph with
    | none => exact ⟨fun he => ⟨he, fun g hg => by cases hg⟩, fun he => he.1⟩
    | some g =>
      rw [mem_select_graph hs.dictionary (hs.index k i hi), graph_of_denotes hd]
      simp
  rw [edgesIn, List.mem_flatMap]
  constructor
  · rintro ⟨⟨k, i⟩, hki, he⟩
    have hi := (lookup_eq_some hs.sorted).mpr hki
    have hall : e ∈ i.all := by
      cases graph with
      | none => exact he
      | some g => exact ((mem_select_graph hs.dictionary (hs.index k i hi)).mp he).1
    obtain ⟨q, hd⟩ := hs.denotes k e ⟨i, hi, hall⟩
    exact ⟨k, q, ⟨i, hi, hall⟩, hd, ((hin k i q hi hd).mp he).2⟩
  · rintro ⟨k, q, ⟨i, hi, he⟩, hd, hg⟩
    exact ⟨(k, i), (lookup_eq_some hs.sorted).mp hi, (hin k i q hi hd).mpr ⟨he, hg⟩⟩

/-- The nodes of the store, or of a graph, are the ends of the edges there. -/
theorem Valid.mem_nodes (hs : s.Valid) {graph : Option Node} {t : Term} :
    t ∈ (s.nodes graph).map (·.term) ↔ ∃ q, s.Holds q ∧
      (∀ g, graph = some g → q.graph = some g.term) ∧ (q.subject = t ∨ q.object = t) := by
  have hends : ∀ k e q, s.dictionary.Denotes k e q →
      ((∃ i, (e.subject = i ∨ e.object = i) ∧ s.dictionary.term? i = some t) ↔
        q.subject = t ∨ q.object = t) := by
    intro k e q hd
    simp only [or_and_right, exists_or, exists_eq_left', hd.subject, hd.object, Option.some.injEq]
  have hmem : t ∈ (s.nodes graph).map (·.term) ↔ ∃ i, (∃ e ∈ s.edgesIn graph,
      e.subject = i ∨ e.object = i) ∧ s.dictionary.term? i = some t := by
    simp only [nodes_eq, List.map_filterMap, List.mem_filterMap, mem_addEnds, List.not_mem_nil,
      false_or, Option.map_eq_some_iff, Dictionary.node_eq_some]
    refine exists_congr fun i => and_congr_right fun _ => ?_
    simp
  rw [hmem]
  constructor
  · rintro ⟨i, ⟨e, he, hei⟩, ht⟩
    obtain ⟨k, q, hhas, hd, hg⟩ := hs.mem_edgesIn.mp he
    exact ⟨q, ⟨k, e, hhas, hd⟩, hg, (hends k e q hd).mp ⟨i, hei, ht⟩⟩
  · rintro ⟨q, ⟨k, e, hhas, hd⟩, hg, ht⟩
    obtain ⟨i, hei, hi⟩ := (hends k e q hd).mpr ht
    exact ⟨i, ⟨e, hs.mem_edgesIn.mpr ⟨k, q, hhas, hd, hg⟩, hei⟩, hi⟩

theorem Valid.nodup_nodes (hs : s.Valid) (graph : Option Node) :
    ((s.nodes graph).map (·.term)).Nodup := by
  rw [nodes_eq]
  exact hs.dictionary.nodup_terms (nodup_addEnds _)

/-- Each graph is listed once, by its name. -/
theorem mem_graphNodes {t : Term} : t ∈ s.graphNodes.map (·.term) ↔ s.Names t := by
  simp only [graphNodes, Names, List.map_filterMap, List.mem_filterMap, Option.map_eq_some_iff,
    Dictionary.node_eq_some]
  refine exists_congr fun g => and_congr_right fun _ => ?_
  simp

theorem Valid.nodup_graphNodes (hs : s.Valid) : (s.graphNodes.map (·.term)).Nodup :=
  hs.dictionary.nodup_terms (Sorted.nodup hs.graphs)

end Ends

/-! ### The order of what is found -/

theorem Valid.pairwise_edgesFor (hs : s.Valid) {bound second : Option Node} {position : Position}
    {R : Quad → Quad → Prop}
    (hR : ∀ k e f q r, lookupOrder bound position e f = .lt → s.dictionary.Denotes k e q →
      s.dictionary.Denotes k f r → R q r) :
    (s.edgesFor p bound second position).Pairwise fun a b => R a.quad b.quad := by
  unfold edgesFor
  split
  next => exact .nil
  next k i hk =>
    simp only [Option.bind_eq_some_iff, Option.map_eq_some_iff, Prod.mk.injEq] at hk
    obtain ⟨k, hr, i, hi, rfl, rfl⟩ := hk
    have ht := hs.dictionary.resolve_eq_some.mp hr
    simp only [Dictionary.node_eq_some.mpr ⟨_, ht, rfl⟩, List.pairwise_filterMap]
    exact (sorted_select (hs.index k i hi) bound position).imp fun {e f} hef a ha b hb =>
      hR k e f _ _ hef (denotes_of_decode ht ha) (denotes_of_decode ht hb)

theorem Valid.distinct_edgesFor (hs : s.Valid) {bound second : Option Node} {position : Position} :
    (s.edgesFor p bound second position).Pairwise fun a b => a.quad ≠ b.quad := by
  refine hs.pairwise_edgesFor (R := (· ≠ ·)) fun k e f q r hef hq hr h => ?_
  obtain ⟨-, rfl⟩ := hs.dictionary.denotes_injective hq (h ▸ hr)
  rw [lookupOrder_self] at hef
  cases hef

theorem triple_eq {k : Nat} {e f : EncodedEdge} {q r : Quad} (hq : s.dictionary.Denotes k e q)
    (hr : s.dictionary.Denotes k f r) (hs : e.subject = f.subject) (ho : e.object = f.object) :
    q.triple = r.triple := by
  have h₁ := hq.subject.symm.trans (hs ▸ hr.subject)
  have h₂ := hq.object.symm.trans (ho ▸ hr.object)
  have h₃ := hq.predicate.symm.trans hr.predicate
  simp_all [Quad.triple]

theorem Valid.clustered_subject (hs : s.Valid) {bound second : Option Node} :
    Clustered s.dictionary.subjectRank (s.edgesFor p bound second .subject) := by
  refine hs.pairwise_edgesFor (R := fun q r => q.triple = r.triple ∨
    s.dictionary.subjectRank q < s.dictionary.subjectRank r)
    fun k e f q r hef hq hr => ?_
  have hef : EncodedEdge.bySubject e f = .lt := by cases bound <;> exact hef
  have hd := hs.dictionary
  simp only [Dictionary.subjectRank, hd.rank_eq hq.subject, hd.rank_eq hr.subject,
    hd.rank_eq hq.object, hd.rank_eq hr.object, hd.rank_eq hq.predicate, hd.rank_eq hr.predicate,
    Prod.Lex.toLex_lt_toLex]
  rcases EncodedEdge.ends_of_bySubject_lt hef with h | ⟨h, h'⟩
  · exact .inr (.inr ⟨trivial, .inl h⟩)
  · rcases h'.lt_or_eq with h' | h'
    · exact .inr (.inr ⟨trivial, .inr ⟨h, h'⟩⟩)
    · exact .inl (triple_eq hq hr h h')

theorem Valid.clustered_object (hs : s.Valid) {n : Node} :
    Clustered s.dictionary.objectRank (s.edgesFor p (some n) none .object) := by
  refine hs.pairwise_edgesFor (R := fun q r => q.triple = r.triple ∨
    s.dictionary.objectRank q < s.dictionary.objectRank r)
    fun k e f q r hef hq hr => ?_
  have hd := hs.dictionary
  simp only [Dictionary.objectRank, hd.rank_eq hq.subject, hd.rank_eq hr.subject,
    hd.rank_eq hq.object, hd.rank_eq hr.object, hd.rank_eq hq.predicate, hd.rank_eq hr.predicate,
    Prod.Lex.toLex_lt_toLex]
  rcases EncodedEdge.ends_of_byObject_lt hef with h | ⟨h, h'⟩
  · exact .inr (.inr ⟨trivial, .inl h⟩)
  · rcases h'.lt_or_eq with h' | h'
    · exact .inr (.inr ⟨trivial, .inr ⟨h, h'⟩⟩)
    · exact .inl (triple_eq hq hr h' h)

end Store

/-! ### Several predicates -/

section FlatMap

variable {d : Dictionary} {ps : List Node} {f : Node → List Occurrence}

theorem clustered_flatMap {rank : Quad → ℕ ×ₗ ℕ ×ₗ ℕ}
    (hr : ∀ q r, d.rank q.predicate < d.rank r.predicate → rank q < rank r)
    (hps : ps.Pairwise fun a b => d.rank a.term < d.rank b.term)
    (hf : ∀ p ∈ ps, ∀ o ∈ f p, o.quad.predicate = p.term) (hc : ∀ p ∈ ps, Clustered rank (f p)) :
    Clustered rank (ps.flatMap f) := by
  refine List.pairwise_flatMap.mpr ⟨hc, hps.imp_of_mem fun {a b} ha hb hab x hx y hy => ?_⟩
  exact .inr (hr _ _ (by rwa [hf a ha x hx, hf b hb y hy]))

theorem distinct_flatMap (hps : ps.Pairwise fun a b => d.rank a.term < d.rank b.term)
    (hf : ∀ p ∈ ps, ∀ o ∈ f p, o.quad.predicate = p.term)
    (hd : ∀ p ∈ ps, (f p).Pairwise fun a b => a.quad ≠ b.quad) :
    (ps.flatMap f).Pairwise fun a b => a.quad ≠ b.quad := by
  refine List.pairwise_flatMap.mpr ⟨hd, hps.imp_of_mem fun {a b} ha hb hab x hx y hy h => ?_⟩
  rw [← hf a ha x hx, ← hf b hb y hy, h] at hab
  exact lt_irrefl _ hab

end FlatMap

namespace Dictionary

variable {d : Dictionary} {q r : Quad}

theorem subjectRank_lt (h : d.rank q.predicate < d.rank r.predicate) :
    d.subjectRank q < d.subjectRank r :=
  Prod.Lex.toLex_lt_toLex.mpr (.inl h)

theorem objectRank_lt (h : d.rank q.predicate < d.rank r.predicate) :
    d.objectRank q < d.objectRank r :=
  Prod.Lex.toLex_lt_toLex.mpr (.inl h)

end Dictionary

theorem Store.Valid.sorted_predicateNodes {s : Store} (hs : s.Valid) :
    s.predicateNodes.Pairwise fun a b => s.dictionary.rank a.term < s.dictionary.rank b.term := by
  unfold Store.predicateNodes
  refine List.pairwise_filterMap.mpr (hs.sorted.imp fun {x y} hxy a ha b hb => ?_)
  obtain ⟨t, ht, rfl⟩ := Dictionary.node_eq_some.mp ha
  obtain ⟨u, hu, rfl⟩ := Dictionary.node_eq_some.mp hb
  rwa [hs.dictionary.rank_eq ht, hs.dictionary.rank_eq hu]

/-! ### Repeated edges -/

namespace Occurrence

theorem triple_eq_iff {a b : Occurrence} : a.quad.triple = b.quad.triple ↔
    a.edge.subject.term = b.edge.subject.term ∧ a.edge.predicate.term = b.edge.predicate.term ∧
      a.edge.object.term = b.edge.object.term := by
  simp [Quad.triple, quad]

theorem beq_edge_iff {a b : Occurrence} :
    (a.edge == b.edge) = true ↔ a.quad.triple = b.quad.triple := by
  rw [triple_eq_iff, ← beq_iff_eq (a := a.edge.subject.term),
    ← beq_iff_eq (a := a.edge.predicate.term), ← beq_iff_eq (a := a.edge.object.term),
    ← Bool.and_eq_true, ← Bool.and_eq_true]
  rfl

theorem dropRepeats_sublist (previous : Option Edge) (os : List Occurrence) :
    (dropRepeats previous os).Sublist os := by
  induction os generalizing previous with
  | nil => exact .slnil
  | cons o os ih =>
    unfold dropRepeats
    split_ifs
    · exact (ih previous).cons o
    · exact (ih _).cons_cons o

theorem dropRepeats_cons_same {a b : Occurrence} (h : a.quad.triple = b.quad.triple)
    (os : List Occurrence) :
    dropRepeats (some a.edge) (b :: os) = dropRepeats (some a.edge) os := by
  rw [dropRepeats, if_pos]
  exact beq_edge_iff.mpr h

theorem dropRepeats_cons_new {previous : Option Occurrence} {b : Occurrence}
    (h : ∀ a, previous = some a → a.quad.triple ≠ b.quad.triple) (os : List Occurrence) :
    dropRepeats (previous.map edge) (b :: os) = b :: dropRepeats (some b.edge) os := by
  rw [dropRepeats, if_neg]
  cases previous with
  | none => exact Bool.false_ne_true
  | some a => exact fun he => h a rfl (beq_edge_iff.mp he)

/-- Of each edge some occurrence is kept. -/
theorem exists_mem_dropRepeats (previous : Option Occurrence) (os : List Occurrence) :
    ∀ o ∈ os, (∃ a, previous = some a ∧ a.quad.triple = o.quad.triple) ∨
      ∃ a ∈ dropRepeats (previous.map edge) os, a.quad.triple = o.quad.triple := by
  induction os generalizing previous with
  | nil => simp
  | cons b os ih =>
    intro o ho
    by_cases h : ∃ a, previous = some a ∧ a.quad.triple = b.quad.triple
    · obtain ⟨a, rfl, hab⟩ := h
      rw [Option.map_some, dropRepeats_cons_same hab]
      rcases List.mem_cons.mp ho with rfl | ho
      · exact .inl ⟨a, rfl, hab⟩
      · exact ih (some a) o ho
    · rw [dropRepeats_cons_new fun a ha hab => h ⟨a, ha, hab⟩]
      rcases List.mem_cons.mp ho with rfl | ho
      · exact .inr ⟨o, by simp, rfl⟩
      · rcases ih (some b) o ho with ⟨a, ha, hao⟩ | ⟨a, ha, hao⟩
        · exact .inr ⟨b, by simp, Option.some.inj ha ▸ hao⟩
        · exact .inr ⟨a, List.mem_cons_of_mem _ ha, hao⟩

theorem mem_dropRepeats_triple (os : List Occurrence) (t : Quad) :
    t ∈ (dropRepeats none os).map (·.quad.triple) ↔ t ∈ os.map (·.quad.triple) := by
  constructor
  · exact fun h => ((dropRepeats_sublist none os).map _).subset h
  · intro h
    obtain ⟨o, ho, rfl⟩ := List.mem_map.mp h
    rcases exists_mem_dropRepeats none os o ho with ⟨a, ha, -⟩ | ⟨a, ha, hao⟩
    · cases ha
    · exact List.mem_map.mpr ⟨a, ha, hao⟩

/-- If occurrences of one edge follow one another, one of them is kept. -/
theorem distinct_dropRepeats {rank : Quad → ℕ ×ₗ ℕ ×ₗ ℕ} (hr : ∀ q, rank q.triple = rank q)
    (previous : Option Occurrence) (os : List Occurrence) (h : Clustered rank (previous.toList ++ os)) :
    (previous.toList ++ dropRepeats (previous.map edge) os).Pairwise
      fun a b => a.quad.triple ≠ b.quad.triple := by
  induction os generalizing previous with
  | nil => cases previous <;> simp [dropRepeats]
  | cons b os ih =>
    cases previous with
    | none =>
      have := ih (some b) h
      rwa [dropRepeats_cons_new (by simp)]
    | some a =>
      by_cases hab : a.quad.triple = b.quad.triple
      · rw [Option.map_some, dropRepeats_cons_same hab]
        exact ih (some a) (h.sublist (by simp))
      · rw [dropRepeats_cons_new fun a' ha => Option.some.inj ha ▸ hab]
        obtain ⟨ha, hb⟩ := List.pairwise_cons.mp h
        refine List.pairwise_cons.mpr ⟨fun o ho hao => ?_, ih (some b) hb⟩
        rcases List.mem_cons.mp ho with rfl | ho
        · exact hab hao
        · have ho := (dropRepeats_sublist _ _).subset ho
          have h₁ := (ha b (by simp)).resolve_left hab
          have h₂ := (List.pairwise_cons.mp hb).1 o ho
          have h₂ := h₂.resolve_left fun hbo => hab (hao.trans hbo.symm)
          rw [← hr a.quad, hao, hr o.quad] at h₁
          exact lt_asymm h₁ h₂

end Occurrence

end GraphQuery
