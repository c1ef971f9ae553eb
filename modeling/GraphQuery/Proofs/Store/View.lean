import GraphQuery.Proofs.Store.History
import GraphQuery.Proofs.Store.Lookup

/-! Reading a store that was filled by any calls. Each way of looking up edges finds exactly the
quads that were inserted there, each once and in the order of the numbers of its terms, and the
lists of predicates, graphs and nodes are exact. -/

namespace GraphQuery

/-! ### Terms with numbers -/

/-- The terms at the places of a quad. -/
def Quad.terms (q : Quad) : List Term := q.subject :: q.predicate :: q.object :: q.graph.toList

/-- The terms that a call makes known. -/
def Insertion.terms (i : Insertion) : List Term := i.quads.flatMap Quad.terms ++ i.names

namespace Dictionary

variable {d : Dictionary} {t u : Term}

theorem mem_terms_encode : u ∈ (d.encode t).1.terms ↔ u ∈ d.terms ∨ u = t.canonical := by
  unfold encode
  cases ht : d.id? t with
  | some i =>
    obtain ⟨hi, hit, -⟩ := List.idxOf?_eq_some_iff.mp ht
    have hmem : t.canonical ∈ d.terms := hit ▸ List.getElem_mem hi
    exact (or_iff_left_of_imp fun h => h ▸ hmem).symm
  | none => rw [List.mem_append, List.mem_singleton]

theorem rank_injective (ht : t ∈ d.terms) (h : d.rank t = d.rank u) : t = u :=
  (List.idxOf_inj ht).mp h

theorem mem_terms_iff : t ∈ d.terms ↔ ∃ i, d.term? i = some t := List.mem_iff_getElem?

end Dictionary

namespace Store

variable {s : Store} {u : Term}

theorem mem_terms_insertChecked {q : Quad} : u ∈ (s.insertChecked q).1.dictionary.terms ↔
    u ∈ s.dictionary.terms ∨ u ∈ q.canonical.terms := by
  unfold insertChecked
  rw [dictionary_addEdge]
  obtain ⟨a, b, c, g⟩ := q
  cases g <;>
    simp [encodeGraph, declareGraph, encode, Dictionary.mem_terms_encode, Quad.terms,
      Quad.canonical, or_assoc]

theorem mem_terms_insertAll {new : List Quad} : u ∈ (s.insertAll new).1.dictionary.terms ↔
    u ∈ s.dictionary.terms ∨ u ∈ (Insertion.extend new).quads.flatMap Quad.terms := by
  induction new generalizing s with
  | nil => simp [insertAll, Insertion.quads]
  | cons q new ih =>
    cases hq : check q with
    | error e => simp [insertAll_of_error s new hq, Insertion.quads_extend_of_error new hq]
    | ok v =>
      rw [insertAll_of_ok s new hq, ih, mem_terms_insertChecked, Insertion.quads_extend_of_ok new hq,
        List.flatMap_cons, List.mem_append, or_assoc]

theorem mem_terms_apply {i : Insertion} :
    u ∈ (s.apply i).dictionary.terms ↔ u ∈ s.dictionary.terms ∨ u ∈ i.terms := by
  rw [Insertion.terms, List.mem_append]
  cases i with
  | extend new =>
    -- The graphs that quads declare are among the terms of the quads.
    have hnames : u ∈ (Insertion.extend new).names →
        u ∈ (Insertion.extend new).quads.flatMap Quad.terms := by
      intro hu
      obtain ⟨q, hq, hu⟩ := List.mem_filterMap.mp hu
      exact List.mem_flatMap.mpr ⟨q, hq, by simp [Quad.terms, hu]⟩
    rw [or_iff_left_of_imp hnames]
    exact mem_terms_insertAll
  | declare g =>
    by_cases hg : isResource g
    · simp only [Store.apply, insertNamedGraph_of_resource s hg, Insertion.quads, Insertion.names,
        if_pos hg, List.flatMap_nil, List.not_mem_nil, false_or, List.mem_singleton]
      exact Dictionary.mem_terms_encode
    · simp [Store.apply, insertNamedGraph_of_not_resource s hg, Insertion.quads, Insertion.names,
        if_neg hg]

/-- The terms with numbers are those of the quads and graphs that were inserted. -/
theorem mem_terms_after (entailment : Bool) (history : List Insertion) :
    u ∈ (after entailment history).dictionary.terms ↔
      u ∈ history.flatMap Insertion.terms := by
  suffices h : ∀ s : Store, u ∈ (history.foldl apply s).dictionary.terms ↔
      u ∈ s.dictionary.terms ∨ u ∈ history.flatMap Insertion.terms by
    exact (h { entailment }).trans (or_iff_right (List.not_mem_nil))
  induction history with
  | nil => simp
  | cons i history ih =>
    intro s
    rw [List.foldl_cons, ih, mem_terms_apply, List.flatMap_cons, List.mem_append, or_assoc]

end Store

/-! ### The order of occurrences -/

/-- The place of a graph; the default graph comes before all named ones. -/
def Dictionary.graphRank (d : Dictionary) (g : Option Term) : Nat := g.elim 0 (d.rank · + 1)

/-- The node that was looked up by subject or object, the other end, and the graph. -/
def Dictionary.lookupRank (d : Dictionary) (bound : Option Node) (position : Position) (q : Quad) :
    ℕ ×ₗ ℕ ×ₗ ℕ :=
  match bound, position with
  | some _, .object => toLex (d.rank q.object, toLex (d.rank q.subject, d.graphRank q.graph))
  | _, _ => toLex (d.rank q.subject, toLex (d.rank q.object, d.graphRank q.graph))

theorem compareGraph_eq_lt {g h : Option Nat} :
    compareGraph g h = .lt ↔ g.elim 0 (· + 1) < h.elim 0 (· + 1) := by
  cases g <;> cases h <;> simp [compareGraph, Nat.compare_eq_lt]

namespace Dictionary

variable {d : Dictionary}

theorem Valid.graphRank_eq (hd : d.Valid) {p : Nat} {e : EncodedEdge} {q : Quad}
    (h : d.Denotes p e q) : d.graphRank q.graph = e.graph.elim 0 (· + 1) := by
  have hg := h.graph
  cases he : e.graph with
  | none =>
    rw [he, Option.map_none, eq_comm, Option.map_eq_none_iff] at hg
    rw [hg]
    rfl
  | some g =>
    rw [he, Option.map_some, eq_comm, Option.map_eq_some_iff] at hg
    obtain ⟨t, ht, htg⟩ := hg
    rw [ht]
    exact congrArg (· + 1) (hd.rank_eq htg.symm)

theorem lookupRank_cases (d : Dictionary) (bound : Option Node) (position : Position) :
    (∀ q, d.lookupRank bound position q =
        toLex (d.rank q.subject, toLex (d.rank q.object, d.graphRank q.graph))) ∨
      ∀ q, d.lookupRank bound position q =
        toLex (d.rank q.object, toLex (d.rank q.subject, d.graphRank q.graph)) := by
  unfold lookupRank
  split
  · exact .inr fun _ => rfl
  · exact .inl fun _ => rfl

theorem lex_lt_iff {a b c x y z : Nat} :
    (toLex (a, toLex (b, c)) : ℕ ×ₗ ℕ ×ₗ ℕ) < toLex (x, toLex (y, z)) ↔
      a < x ∨ a = x ∧ (b < y ∨ b = y ∧ c < z) := by
  rw [Prod.Lex.toLex_lt_toLex]
  exact or_congr_right (and_congr_right fun _ => Prod.Lex.toLex_lt_toLex)

end Dictionary

namespace Store

variable {s : Store} {bound second : Option Node} {position : Position} {p : Node}

theorem Valid.lookupRank_lt (hs : s.Valid) (hg : position = .graph → bound = none) {k : Nat}
    {e f : EncodedEdge} {q r : Quad} (h : lookupOrder bound position e f = .lt)
    (hq : s.dictionary.Denotes k e q) (hr : s.dictionary.Denotes k f r) :
    s.dictionary.lookupRank bound position q < s.dictionary.lookupRank bound position r := by
  have hd := hs.dictionary
  have hsubject : EncodedEdge.bySubject e f = .lt →
      (toLex (s.dictionary.rank q.subject, toLex (s.dictionary.rank q.object,
        s.dictionary.graphRank q.graph)) : ℕ ×ₗ ℕ ×ₗ ℕ) < toLex (s.dictionary.rank r.subject,
          toLex (s.dictionary.rank r.object, s.dictionary.graphRank r.graph)) := by
    rw [hd.rank_eq hq.subject, hd.rank_eq hq.object, hd.graphRank_eq hq, hd.rank_eq hr.subject,
      hd.rank_eq hr.object, hd.graphRank_eq hr, Dictionary.lex_lt_iff]
    simp only [EncodedEdge.bySubject, Ordering.then_eq_lt, Nat.compare_eq_lt, Nat.compare_eq_eq,
      compareGraph_eq_lt, imp_self]
  cases bound with
  | none => exact hsubject h
  | some n =>
    cases position with
    | subject | list => exact hsubject h
    | graph => cases hg rfl
    | object =>
      simp only [Dictionary.lookupRank]
      rw [hd.rank_eq hq.subject, hd.rank_eq hq.object, hd.graphRank_eq hq, hd.rank_eq hr.subject,
        hd.rank_eq hr.object, hd.graphRank_eq hr, Dictionary.lex_lt_iff]
      simpa only [lookupOrder, EncodedEdge.byObject, Ordering.then_eq_lt, Nat.compare_eq_lt,
        Nat.compare_eq_eq, compareGraph_eq_lt] using h

theorem Valid.sorted_edgesFor (hs : s.Valid) (hg : position = .graph → bound = none) :
    (s.edgesFor p bound second position).Pairwise fun a b =>
      s.dictionary.lookupRank bound position a.quad <
        s.dictionary.lookupRank bound position b.quad :=
  hs.pairwise_edgesFor (R := fun q r => s.dictionary.lookupRank bound position q <
    s.dictionary.lookupRank bound position r) fun _ _ _ _ _ => hs.lookupRank_lt hg

theorem Valid.occurrence_of_mem_edgesFor (hs : s.Valid) {o : Occurrence}
    (ho : o ∈ s.edgesFor p bound second position) : o = s.dictionary.occurrence o.quad := by
  unfold edgesFor at ho
  split at ho
  next => simp at ho
  next k i hk =>
    simp only [Option.bind_eq_some_iff, Option.map_eq_some_iff, Prod.mk.injEq] at hk
    obtain ⟨k, hr, i, hi, rfl, rfl⟩ := hk
    have ht := hs.dictionary.resolve_eq_some.mp hr
    simp only [Dictionary.node_eq_some.mpr ⟨_, ht, rfl⟩, List.mem_filterMap] at ho
    obtain ⟨e, -, ho⟩ := ho
    exact occurrence_of_decode hs.dictionary ht ho

theorem Valid.terms_of_mem_edgesFor (hs : s.Valid) {o : Occurrence}
    (ho : o ∈ s.edgesFor p bound second position) : o.quad.predicate = p.term ∧
      o.quad.subject ∈ s.dictionary.terms ∧ o.quad.object ∈ s.dictionary.terms := by
  obtain ⟨hp, k, i, e, -, -, hd⟩ := hs.mem_edgesFor.mp (List.mem_map_of_mem ho)
  exact ⟨hp, Dictionary.mem_terms_iff.mpr ⟨_, hd.subject⟩, Dictionary.mem_terms_iff.mpr ⟨_, hd.object⟩⟩

theorem rank_between {d : Dictionary} {q r t : Quad}
    (hqr : d.lookupRank bound position q < d.lookupRank bound position r)
    (hrt : d.lookupRank bound position r < d.lookupRank bound position t)
    (hs : q.subject = t.subject) (ho : q.object = t.object) :
    d.rank q.subject = d.rank r.subject ∧ d.rank q.object = d.rank r.object := by
  rcases d.lookupRank_cases bound position with h | h <;>
    rw [h, h, Dictionary.lex_lt_iff] at hqr hrt <;> rw [← hs, ← ho] at hrt <;> omega

/-- What is found between two occurrences of an edge is an occurrence of the edge. -/
theorem Valid.consecutive_edgesFor (hs : s.Valid) (hg : position = .graph → bound = none)
    {a b c : Occurrence} (h : [a, b, c].Sublist (s.edgesFor p bound second position))
    (hac : a.quad.triple = c.quad.triple) : a.quad.triple = b.quad.triple := by
  have hsorted := (hs.sorted_edgesFor hg).sublist h
  simp only [List.pairwise_cons, List.forall_mem_cons, List.not_mem_nil] at hsorted
  obtain ⟨hsub, hpred, hobj⟩ := Occurrence.triple_eq_iff.mp hac
  obtain ⟨hpa, hsa, hoa⟩ := hs.terms_of_mem_edgesFor (h.subset (List.mem_cons_self))
  obtain ⟨hpb, -, -⟩ := hs.terms_of_mem_edgesFor (o := b) (h.subset (by simp))
  obtain ⟨hrs, hro⟩ := rank_between hsorted.1.1 hsorted.2.1.1 hsub hobj
  exact Occurrence.triple_eq_iff.mpr ⟨Dictionary.rank_injective hsa hrs, hpa.trans hpb.symm,
    Dictionary.rank_injective hoa hro⟩

end Store

/-! ### Lists of nodes -/

namespace Store

variable {s : Store} {qs : List Quad} {ts : List Term} {t : Term} {n : Node}

/-- A list of nodes by number is given by the terms in it. -/
theorem Valid.mem_nodes_of_ids (hs : s.Valid) {ids : List Nat} :
    n ∈ ids.filterMap s.dictionary.node? ↔ n = s.dictionary.numbered n.term ∧
      n.term ∈ (ids.filterMap s.dictionary.node?).map (·.term) := by
  have hn : ∀ m ∈ ids.filterMap s.dictionary.node?, m = s.dictionary.numbered m.term := by
    intro m hm
    obtain ⟨i, -, hi⟩ := List.mem_filterMap.mp hm
    obtain ⟨u, hu, rfl⟩ := Dictionary.node_eq_some.mp hi
    rw [Dictionary.numbered, hs.dictionary.rank_eq hu]
  constructor
  · exact fun h => ⟨hn n h, List.mem_map_of_mem h⟩
  · rintro ⟨he, h⟩
    obtain ⟨m, hm, hmn⟩ := List.mem_map.mp h
    rwa [he, ← hmn, ← hn m hm]

theorem predicateNodes_eq (s : Store) :
    s.predicateNodes = (s.predicates.map Prod.fst).filterMap s.dictionary.node? := by
  rw [predicateNodes, List.filterMap_map]
  rfl

theorem Contains.mem_predicates (h : s.Contains qs ts) {k : Nat} (ht : s.dictionary.term? k = some t) :
    k ∈ s.predicates.map Prod.fst ↔ ∃ q ∈ qs, q.predicate = t := by
  rw [List.mem_map]
  constructor
  · rintro ⟨⟨k, i⟩, hki, rfl⟩
    obtain ⟨e, he⟩ := List.exists_mem_of_ne_nil _ (h.nonempty k i hki)
    have hhas : s.Has k e := ⟨i, (lookup_eq_some h.valid.sorted).mpr hki, he⟩
    obtain ⟨q, hq⟩ := h.valid.denotes k e hhas
    exact ⟨q, (h.holds q).mp ⟨k, e, hhas, hq⟩, Option.some.inj (hq.predicate.symm.trans ht)⟩
  · rintro ⟨q, hq, rfl⟩
    obtain ⟨k', e, ⟨i, hi, -⟩, hd⟩ := (h.holds q).mpr hq
    obtain rfl := h.valid.dictionary.term_injective ht hd.predicate
    exact ⟨(k, i), (lookup_eq_some h.valid.sorted).mp hi, rfl⟩

theorem Contains.mem_predicateNodes (h : s.Contains qs ts) :
    t ∈ s.predicateNodes.map (·.term) ↔ ∃ q ∈ qs, q.predicate = t := by
  rw [predicateNodes_eq, List.mem_map]
  constructor
  · rintro ⟨m, hm, rfl⟩
    obtain ⟨k, hk, hkm⟩ := List.mem_filterMap.mp hm
    obtain ⟨u, hu, rfl⟩ := Dictionary.node_eq_some.mp hkm
    exact (h.mem_predicates hu).mp hk
  · rintro ⟨q, hq, rfl⟩
    obtain ⟨k, e, -, hd⟩ := (h.holds q).mpr hq
    exact ⟨_, List.mem_filterMap.mpr ⟨k, (h.mem_predicates hd.predicate).mpr ⟨q, hq, rfl⟩,
      h.valid.dictionary.node_eq_numbered hd.predicate⟩, rfl⟩

theorem Valid.nodup_predicateNodes (hs : s.Valid) : (s.predicateNodes.map (·.term)).Nodup :=
  List.pairwise_map.mpr <| hs.sorted_predicateNodes.imp fun h he => (he ▸ h).ne rfl

/-! ### Nodes of terms -/

theorem Valid.nodeOf_eq_some (hs : s.Valid) {P : Nat → Bool} :
    ((s.dictionary.id? t).filter P).bind s.dictionary.node? = some n ↔
      (∃ k, s.dictionary.term? k = some t.canonical ∧ P k) ∧
        n = s.dictionary.numbered t.canonical := by
  simp only [Option.bind_eq_some_iff, Option.filter_eq_some_iff, hs.dictionary.id_eq_some]
  constructor
  · rintro ⟨k, ⟨hk, hP⟩, hn⟩
    exact ⟨⟨k, hk, hP⟩, Option.some.inj (hn.symm.trans (hs.dictionary.node_eq_numbered hk))⟩
  · rintro ⟨⟨k, hk, hP⟩, rfl⟩
    exact ⟨k, ⟨hk, hP⟩, hs.dictionary.node_eq_numbered hk⟩

theorem Valid.node_eq_some (hs : s.Valid) : s.node? t = some n ↔
    t.canonical ∈ s.dictionary.terms ∧ n = s.dictionary.numbered t.canonical := by
  have hall : s.node? t = ((s.dictionary.id? t).filter fun _ => true).bind s.dictionary.node? := by
    unfold node?
    cases s.dictionary.id? t <;> rfl
  rw [hall, hs.nodeOf_eq_some, Dictionary.mem_terms_iff]
  simp

theorem Contains.propertyNode_eq_some (h : s.Contains qs ts) : s.propertyNode? t = some n ↔
    (∃ q ∈ qs, q.predicate = t.canonical) ∧ n = s.dictionary.numbered t.canonical := by
  rw [propertyNode?, h.valid.nodeOf_eq_some]
  refine and_congr_left fun _ => ?_
  have hused : ∀ k, (s.index? k).isSome ↔ k ∈ s.predicates.map Prod.fst := by
    intro k
    simp [Option.isSome_iff_exists, index?, lookup_eq_some h.valid.sorted]
  constructor
  · rintro ⟨k, hk, hP⟩
    exact (h.mem_predicates hk).mp ((hused k).mp hP)
  · rintro ⟨q, hq, hqt⟩
    obtain ⟨k, e, -, hd⟩ := (h.holds q).mpr hq
    exact ⟨k, hqt ▸ hd.predicate, (hused k).mpr ((h.mem_predicates hd.predicate).mpr ⟨q, hq, rfl⟩)⟩

theorem Contains.graphNode_eq_some (h : s.Contains qs ts) : s.graphNode? t = some n ↔
    t.canonical ∈ ts ∧ n = s.dictionary.numbered t.canonical := by
  rw [graphNode?, h.valid.nodeOf_eq_some, ← h.names]
  refine and_congr_left fun _ => ?_
  simp only [List.contains_eq_mem, decide_eq_true_eq, Names, and_comm]

theorem Contains.isGraphNode_iff (h : s.Contains qs ts) : s.isGraphNode n ↔ n.term ∈ ts := by
  rw [isGraphNode, Option.any_eq_true, ← h.names]
  simp only [h.valid.dictionary.resolve_eq_some, List.contains_eq_mem, decide_eq_true_eq, Names,
    and_comm]

/-! ### The view -/

/-- What reading a store finds, for a store with some quads and names of graphs whose dictionary
knows some terms. Nodes are asked for by their terms, whatever numbers they carry, and what is found
carries the numbers of this store. -/
structure Views (s : Store) (qs : List Quad) (ts known : List Term) : Prop where
  edgesFor_subject : ∀ p n second q, q ∈ (s.edgesFor p (some n) second .subject).map Occurrence.quad ↔
    q ∈ qs ∧ q.predicate = p.term ∧ q.subject = n.term ∧ ∀ m, second = some m → q.object = m.term
  edgesFor_object : ∀ p n second q, q ∈ (s.edgesFor p (some n) second .object).map Occurrence.quad ↔
    q ∈ qs ∧ q.predicate = p.term ∧ q.object = n.term ∧ ∀ m, second = some m → q.subject = m.term
  edgesFor_graph : ∀ p n q, q ∈ (s.edgesFor p (some n) none .graph).map Occurrence.quad ↔
    q ∈ qs ∧ q.predicate = p.term ∧ q.graph = some n.term
  edgesFor_all : ∀ p second position q,
    q ∈ (s.edgesFor p none second position).map Occurrence.quad ↔ q ∈ qs ∧ q.predicate = p.term
  numbered : ∀ p bound second position, ∀ o ∈ s.edgesFor p bound second position,
    o = s.dictionary.occurrence o.quad
  once : ∀ p bound second position, ((s.edgesFor p bound second position).map Occurrence.quad).Nodup
  /-- By the node looked up, the other end, and the graph. -/
  sorted : ∀ p bound second position, (position = .graph → bound = none) →
    (s.edgesFor p bound second position).Pairwise fun a b =>
      s.dictionary.lookupRank bound position a.quad < s.dictionary.lookupRank bound position b.quad
  consecutive : ∀ p bound second position, (position = .graph → bound = none) → ∀ a b c,
    [a, b, c].Sublist (s.edgesFor p bound second position) → a.edge == c.edge → a.edge == b.edge
  predicateNodes : (s.predicateNodes.map (·.term)).Nodup ∧
    ∀ n, n ∈ s.predicateNodes ↔ n = s.dictionary.numbered n.term ∧ ∃ q ∈ qs, q.predicate = n.term
  graphNodes : (s.graphNodes.map (·.term)).Nodup ∧
    ∀ n, n ∈ s.graphNodes ↔ n = s.dictionary.numbered n.term ∧ n.term ∈ ts
  nodes : ∀ graph, ((s.nodes graph).map (·.term)).Nodup ∧
    ∀ n, n ∈ s.nodes graph ↔ n = s.dictionary.numbered n.term ∧ ∃ q ∈ qs,
      (∀ g, graph = some g → q.graph = some g.term) ∧ (q.subject = n.term ∨ q.object = n.term)
  node : ∀ t n, s.node? t = some n ↔
    t.canonical ∈ known ∧ n = s.dictionary.numbered t.canonical
  propertyNode : ∀ t n, s.propertyNode? t = some n ↔
    (∃ q ∈ qs, q.predicate = t.canonical) ∧ n = s.dictionary.numbered t.canonical
  graphNode : ∀ t n, s.graphNode? t = some n ↔
    t.canonical ∈ ts ∧ n = s.dictionary.numbered t.canonical
  isGraphNode : ∀ n, s.isGraphNode n ↔ n.term ∈ ts

theorem Contains.views (h : s.Contains qs ts) {known : List Term}
    (hknown : ∀ t, t ∈ s.dictionary.terms ↔ t ∈ known) : s.Views qs ts known where
  edgesFor_subject p n second q := by rw [h.valid.mem_edgesFor_subject, h.holds]
  edgesFor_object p n second q := by rw [h.valid.mem_edgesFor_object, h.holds]
  edgesFor_graph p n q := by rw [h.valid.mem_edgesFor_graph, h.holds]
  edgesFor_all p second position q := by rw [h.valid.mem_edgesFor_all, h.holds]
  numbered _ _ _ _ _ ho := h.valid.occurrence_of_mem_edgesFor ho
  once _ _ _ _ := List.pairwise_map.mpr h.valid.distinct_edgesFor
  sorted _ _ _ _ hg := h.valid.sorted_edgesFor hg
  consecutive _ _ _ _ hg _ _ _ hsub hac :=
    Occurrence.beq_edge_iff.mpr (h.valid.consecutive_edgesFor hg hsub (Occurrence.beq_edge_iff.mp hac))
  predicateNodes := by
    refine ⟨h.valid.nodup_predicateNodes, fun n => ?_⟩
    rw [← h.mem_predicateNodes, predicateNodes_eq]
    exact h.valid.mem_nodes_of_ids
  graphNodes := by
    refine ⟨h.valid.nodup_graphNodes, fun n => ?_⟩
    rw [← h.names, ← mem_graphNodes]
    exact h.valid.mem_nodes_of_ids
  nodes graph := by
    refine ⟨h.valid.nodup_nodes graph, fun n => ?_⟩
    simp only [← h.holds]
    rw [← h.valid.mem_nodes, nodes_eq]
    exact h.valid.mem_nodes_of_ids
  node t n := by rw [h.valid.node_eq_some, hknown]
  propertyNode _ _ := h.propertyNode_eq_some
  graphNode _ _ := h.graphNode_eq_some
  isGraphNode _ := h.isGraphNode_iff

end Store

end GraphQuery
