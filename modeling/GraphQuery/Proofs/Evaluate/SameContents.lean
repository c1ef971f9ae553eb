import GraphQuery.Proofs.Evaluate.Dataset
import GraphQuery.Proofs.Evaluate.Instantiate
import GraphQuery.Proofs.Evaluate.Termination

/-! Reading two stores with the same contents. Their nodes have different numbers, so whatever is
listed stands in another order, but it is the same up to that: each list that one store gives is a
permutation of what the other one gives, by terms. -/

namespace GraphQuery

/-- Whether two stores contain the same quads, name the same graphs and know the same terms. -/
structure Store.Alike (s s' : Store) : Prop where
  contents : ∃ qs ts, s.Contains qs ts ∧ s'.Contains qs ts
  terms : ∀ t, t ∈ s.dictionary.terms ↔ t ∈ s'.dictionary.terms
  entailment : s'.entailment = s.entailment

namespace Store.Alike

variable {s s' : Store} {t : Term}

theorem symm (h : s.Alike s') : s'.Alike s where
  contents := by
    obtain ⟨qs, ts, hs, hs'⟩ := h.contents
    exact ⟨qs, ts, hs', hs⟩
  terms t := (h.terms t).symm
  entailment := h.entailment.symm

theorem valid (h : s.Alike s') : s.Valid := by
  obtain ⟨qs, ts, hs, -⟩ := h.contents
  exact hs.valid

theorem holds_iff (h : s.Alike s') (q : Quad) : s.Holds q ↔ s'.Holds q := by
  obtain ⟨qs, ts, hs, hs'⟩ := h.contents
  rw [hs.holds, hs'.holds]

/-! ### Nodes -/

/-- Two nodes of one term, if there are any. -/
theorem map_term_eq {x y : Option Node} {P : Prop} {d d' : Dictionary}
    (hx : ∀ n, x = some n ↔ P ∧ n = d.numbered t) (hy : ∀ n, y = some n ↔ P ∧ n = d'.numbered t) :
    x.map Node.term = y.map Node.term := by
  by_cases hP : P
  · rw [(hx _).mpr ⟨hP, rfl⟩, (hy _).mpr ⟨hP, rfl⟩]
    rfl
  · have hnone : ∀ {z : Option Node} {d : Dictionary},
        (∀ n, z = some n ↔ P ∧ n = d.numbered t) → z = none :=
      fun hz => Option.eq_none_iff_forall_ne_some.mpr fun n hn => hP ((hz n).mp hn).1
    rw [hnone hx, hnone hy]

theorem node_map_term (h : s.Alike s') (t : Term) :
    (s.node? t).map Node.term = (s'.node? t).map Node.term :=
  map_term_eq (fun _ => h.valid.node_eq_some) fun _ => by
    rw [h.symm.valid.node_eq_some, h.terms]

theorem propertyNode_map_term (h : s.Alike s') (t : Term) :
    (s.propertyNode? t).map Node.term = (s'.propertyNode? t).map Node.term := by
  obtain ⟨qs, ts, hs, hs'⟩ := h.contents
  exact map_term_eq (fun _ => hs.propertyNode_eq_some) fun _ => hs'.propertyNode_eq_some

theorem graphNode_map_term (h : s.Alike s') (t : Term) :
    (s.graphNode? t).map Node.term = (s'.graphNode? t).map Node.term := by
  obtain ⟨qs, ts, hs, hs'⟩ := h.contents
  exact map_term_eq (fun _ => hs.graphNode_eq_some) fun _ => hs'.graphNode_eq_some

/-! ### Lists -/

theorem predicateNodes_perm (h : s.Alike s') :
    (s.predicateNodes.map (·.term)).Perm (s'.predicateNodes.map (·.term)) := by
  obtain ⟨qs, ts, hs, hs'⟩ := h.contents
  refine (List.perm_ext_iff_of_nodup hs.valid.nodup_predicateNodes
    hs'.valid.nodup_predicateNodes).mpr fun t => ?_
  rw [hs.mem_predicateNodes, hs'.mem_predicateNodes]

theorem graphNodes_perm (h : s.Alike s') :
    (s.graphNodes.map (·.term)).Perm (s'.graphNodes.map (·.term)) := by
  obtain ⟨qs, ts, hs, hs'⟩ := h.contents
  refine (List.perm_ext_iff_of_nodup hs.valid.nodup_graphNodes hs'.valid.nodup_graphNodes).mpr
    fun t => ?_
  rw [mem_graphNodes, mem_graphNodes, hs.names, hs'.names]

theorem nodes_perm (h : s.Alike s') {graph graph' : Option Node}
    (hg : graph.map Node.term = graph'.map Node.term) :
    ((s.nodes graph).map (·.term)).Perm ((s'.nodes graph').map (·.term)) := by
  refine (List.perm_ext_iff_of_nodup (h.valid.nodup_nodes graph)
    (h.symm.valid.nodup_nodes graph')).mpr fun t => ?_
  have hin : ∀ q : Quad, (∀ g, graph = some g → q.graph = some g.term) ↔
      ∀ g, graph' = some g → q.graph = some g.term := by
    intro q
    cases graph <;> cases graph' <;> simp_all
  simp only [h.valid.mem_nodes, h.symm.valid.mem_nodes, h.holds_iff, hin]

/-- The quads that are found for a predicate and the nodes at some places. -/
theorem edgesFor_perm (h : s.Alike s') {p p' : Node} {bound bound' second second' : Option Node}
    {position : Position} (hp : p.term = p'.term) (hb : bound.map Node.term = bound'.map Node.term)
    (hs : second.map Node.term = second'.map Node.term)
    (hplace : position ≠ .list ∧ (position = .graph → second = none)) :
    ((s.edgesFor p bound second position).map Occurrence.quad).Perm
      ((s'.edgesFor p' bound' second' position).map Occurrence.quad) := by
  refine (List.perm_ext_iff_of_nodup (List.pairwise_map.mpr h.valid.distinct_edgesFor)
    (List.pairwise_map.mpr h.symm.valid.distinct_edgesFor)).mpr fun q => ?_
  have hsecond : ∀ t : Term, (∀ m, second = some m → t = m.term) ↔
      ∀ m, second' = some m → t = m.term := by
    intro t
    cases second <;> cases second' <;> simp_all
  cases bound with
  | none =>
    obtain rfl : bound' = none := Option.map_eq_none_iff.mp hb.symm
    rw [h.valid.mem_edgesFor_all, h.symm.valid.mem_edgesFor_all, h.holds_iff, hp]
  | some n =>
    obtain ⟨n', rfl, hn⟩ := Option.map_eq_some_iff.mp hb.symm
    cases position with
    | subject =>
      rw [h.valid.mem_edgesFor_subject, h.symm.valid.mem_edgesFor_subject, h.holds_iff, hp, hn,
        hsecond]
    | object =>
      rw [h.valid.mem_edgesFor_object, h.symm.valid.mem_edgesFor_object, h.holds_iff, hp, hn,
        hsecond]
    | graph =>
      obtain rfl := hplace.2 rfl
      obtain rfl : second' = none := Option.map_eq_none_iff.mp hs.symm
      rw [h.valid.mem_edgesFor_graph, h.symm.valid.mem_edgesFor_graph, h.holds_iff, hp, hn]
    | list => exact (hplace.1 rfl).elim

end Store.Alike

/-! ### Classes -/

/-- Whether a class is below another one, or the same, going by some quads. -/
def Below (qs : List Quad) : Term → Term → Prop :=
  Relation.ReflTransGen fun c d =>
    ∃ r ∈ qs, r.subject = c ∧ r.predicate = .iri Iri.subClassOf ∧ r.object = d

namespace Store

variable {s s' : Store} {qs : List Quad} {ts : List Term}

/-- What is above a class, whether it is stored or not. -/
theorem mem_superClasses (hs : s.Valid) (sub : Node) {c u : Term} :
    u ∈ closure (s.superClasses sub) (s.dictionary.terms.length + 1) [] [c] ↔
      Relation.TransGen (Steps (s.superClasses sub)) c u := by
  have hstep : ∀ a ∈ c :: s.dictionary.terms,
      s.superClasses sub a ⊆ c :: s.dictionary.terms := by
    intro a _ u hu
    obtain ⟨o, ho, rfl⟩ := List.mem_map.mp hu
    exact List.mem_cons_of_mem _ (hs.terms_of_mem_edgesFor ho).2.2
  rw [← Store.superClasses_end hs sub c 1]
  exact mem_closure_of_start hstep List.mem_cons_self (by simp)

theorem Contains.steps_superClasses (h : s.Contains qs ts) {sub : Node}
    (hsub : sub.term = .iri Iri.subClassOf) : Steps (s.superClasses sub) = fun c d =>
      ∃ r ∈ qs, r.subject = c ∧ r.predicate = .iri Iri.subClassOf ∧ r.object = d := by
  funext c d
  have hmap : s.superClasses sub c =
      ((s.edgesFor sub (some ⟨c, none⟩) none .subject).map Occurrence.quad).map Quad.object := by
    rw [superClasses, List.map_map]
    rfl
  refine propext ?_
  rw [Steps, hmap, List.mem_map]
  refine exists_congr fun r => ?_
  rw [h.valid.mem_edgesFor_subject, h.holds, hsub]
  simp [and_assoc, and_left_comm]

/-- The test for classes finds those below, going by the quads of the store. -/
theorem Contains.subsumes_iff (h : s.Contains qs ts) {n m : Node} :
    s.subsumes n m = true ↔ Below qs m.term n.term := by
  rw [subsumes, Bool.or_eq_true, Source.node_beq_iff, Below,
    Relation.reflTransGen_iff_eq_or_transGen]
  refine or_congr_right ?_
  cases hsub : s.propertyNode? (.iri Iri.subClassOf) with
  | none =>
    refine iff_of_false Bool.false_ne_true fun hbelow => ?_
    obtain ⟨-, -, r, hr, -, hp, -⟩ := Relation.TransGen.tail'_iff.mp hbelow
    have hnode := h.propertyNode_eq_some (t := .iri Iri.subClassOf).mpr ⟨⟨r, hr, hp⟩, rfl⟩
    rw [hsub] at hnode
    cases hnode
  | some sub =>
    rw [List.contains_iff_mem, mem_superClasses h.valid,
      h.steps_superClasses (h.valid.propertyNode_eq_some hsub)]

/-- The classes above a stored one are canonical as it is. -/
theorem Contains.isCanonical_of_below (h : s.Contains qs ts) {c d : Term} (hc : c.IsCanonical)
    (hd : Below qs c d) : d.IsCanonical := by
  cases hd with
  | refl => exact hc
  | tail _ hr =>
    obtain ⟨r, hr, -, -, rfl⟩ := hr
    exact (((h.holds r).mpr hr).isCanonical h.valid).2.2.1

theorem Alike.subsumes_eq (h : s.Alike s') {n n' m m' : Node} (hn : n.term = n'.term)
    (hm : m.term = m'.term) : s.subsumes n m = s'.subsumes n' m' := by
  obtain ⟨qs, ts, hs, hs'⟩ := h.contents
  rw [Bool.eq_iff_iff, hs.subsumes_iff, hs'.subsumes_iff, hn, hm]

end Store

/-! ### Histories -/

namespace Store

variable {s : Store}

theorem entailment_insertChecked (s : Store) (q : Quad) :
    (s.insertChecked q).1.entailment = s.entailment := by
  unfold insertChecked addEdge
  cases q.graph <;> dsimp only [encodeGraph, encode, declareGraph] <;> split_ifs <;> rfl

theorem entailment_insertAll (s : Store) (new : List Quad) :
    (s.insertAll new).1.entailment = s.entailment := by
  induction new generalizing s with
  | nil => rfl
  | cons q new ih =>
    cases hq : check q with
    | error e => rw [insertAll_of_error s new hq]
    | ok u =>
      rw [insertAll_of_ok s new hq]
      exact (ih _).trans (s.entailment_insertChecked q)

theorem entailment_apply (s : Store) (i : Insertion) : (s.apply i).entailment = s.entailment := by
  cases i with
  | extend new => exact s.entailment_insertAll new
  | declare g =>
    rw [apply]
    by_cases hg : isResource g
    · rw [insertNamedGraph_of_resource s hg]
      rfl
    · rw [insertNamedGraph_of_not_resource s hg]

theorem entailment_after (entailment : Bool) (history : List Insertion) :
    (after entailment history).entailment = entailment := by
  suffices H : ∀ s : Store, (history.foldl apply s).entailment = s.entailment from H _
  induction history with
  | nil => exact fun s => rfl
  | cons i history ih => exact fun s => (ih (s.apply i)).trans (s.entailment_apply i)

theorem Contains.congr {qs qs' : List Quad} {ts ts' : List Term} (h : s.Contains qs ts)
    (hq : ∀ q, q ∈ qs ↔ q ∈ qs') (ht : ∀ t, t ∈ ts ↔ t ∈ ts') : s.Contains qs' ts' where
  valid := h.valid
  holds q := (h.holds q).trans (hq q)
  names t := (h.names t).trans (ht t)
  nonempty := h.nonempty
  len := by
    rw [h.len, show qs.toFinset = qs'.toFinset by ext q; simp [hq]]

/-- Stores that were filled with the same quads and graphs in any order, and as often as it be. -/
theorem alike_after {entailment : Bool} {history history' : List Insertion}
    (hq : ∀ q, q ∈ history.flatMap Insertion.quads ↔ q ∈ history'.flatMap Insertion.quads)
    (ht : ∀ t, t ∈ history.flatMap Insertion.names ↔ t ∈ history'.flatMap Insertion.names) :
    (after entailment history).Alike (after entailment history') where
  contents := ⟨_, _, contains_after entailment history,
    (contains_after entailment history').congr (fun q => (hq q).symm) fun t => (ht t).symm⟩
  terms t := by
    have hterms : ∀ history : List Insertion, t ∈ history.flatMap Insertion.terms ↔
        (∃ q ∈ history.flatMap Insertion.quads, t ∈ q.terms) ∨
          t ∈ history.flatMap Insertion.names := by
      intro history
      simp only [Insertion.terms, List.mem_flatMap, List.mem_append]
      constructor
      · rintro ⟨i, hi, ⟨q, hq, ht⟩ | ht⟩
        · exact .inl ⟨q, ⟨i, hi, hq⟩, ht⟩
        · exact .inr ⟨i, hi, ht⟩
      · rintro (⟨q, ⟨i, hi, hq⟩, ht⟩ | ⟨i, hi, ht⟩)
        · exact ⟨i, hi, .inl ⟨q, hq, ht⟩⟩
        · exact ⟨i, hi, .inr ht⟩
    rw [mem_terms_after, mem_terms_after, hterms, hterms, ht]
    simp only [hq]
  entailment := by rw [entailment_after, entailment_after]

end Store

/-! ### Sequences of occurrences -/

section Lists

variable {α β : Type} {as bs : List α} {φ : α → β}

/-- What a test keeps of lists that correspond, if it tells members that correspond alike. -/
theorem perm_filter_of_map {P Q : α → Bool} (h : (as.map φ).Perm (bs.map φ))
    (hPQ : ∀ a ∈ as, ∀ b ∈ bs, φ a = φ b → P a = Q b) :
    ((as.filter P).map φ).Perm ((bs.filter Q).map φ) := by
  have hflat : ∀ (P : α → Bool) (as : List α),
      (as.filter P).map φ = as.flatMap fun a => if P a then [φ a] else [] := by
    intro P as
    induction as with
    | nil => rfl
    | cons a as ih => by_cases hP : P a <;> simp [hP, ih]
  rw [hflat, hflat]
  refine perm_flatMap_of_map h fun a ha b hb hab => ?_
  rw [hPQ a ha b hb hab, hab]

end Lists

namespace Occurrence

variable {os os' : List Occurrence}

/-- Whether occurrences of one edge follow one another. -/
def Clusters (os : List Occurrence) : Prop :=
  ∃ rank : Quad → ℕ ×ₗ ℕ ×ₗ ℕ, (∀ r, rank r.triple = rank r) ∧ Clustered rank os

theorem Clusters.filter (h : Clusters os) (P : Occurrence → Bool) : Clusters (os.filter P) := by
  obtain ⟨rank, hr, hc⟩ := h
  exact ⟨rank, hr, hc.sublist List.filter_sublist⟩

/-- If occurrences of one edge follow one another, one of each edge is left, whatever its graph. -/
theorem dropRepeats_perm (hc : Clusters os) (hc' : Clusters os')
    (h : (os.map Occurrence.quad).Perm (os'.map Occurrence.quad)) :
    ((dropRepeats none os).map (·.quad.triple)).Perm ((dropRepeats none os').map (·.quad.triple)) := by
  have hnodup : ∀ {os : List Occurrence}, Clusters os →
      ((dropRepeats none os).map (·.quad.triple)).Nodup := by
    rintro os ⟨rank, hr, hc⟩
    exact List.pairwise_map.mpr (distinct_dropRepeats hr none os hc)
  refine (List.perm_ext_iff_of_nodup (hnodup hc) (hnodup hc')).mpr fun t => ?_
  rw [mem_dropRepeats_triple, mem_dropRepeats_triple]
  have hmem := (h.map Quad.triple).mem_iff (a := t)
  simpa only [List.map_map, Function.comp_def] using hmem

/-- What a pattern sees of two quads alike has the same ends. -/
theorem ends_of_seen {graph : Option NodePattern} {o o' : Occurrence}
    (h : o.quad.seen graph = o'.quad.seen graph) :
    o.edge.subject.term = o'.edge.subject.term ∧ o.edge.predicate.term = o'.edge.predicate.term ∧
      o.edge.object.term = o'.edge.object.term := by
  unfold Quad.seen at h
  split_ifs at h
  · exact ⟨congrArg Quad.subject h, congrArg Quad.predicate h, congrArg Quad.object h⟩
  · exact ⟨congrArg Quad.subject h, congrArg Quad.predicate h, congrArg Quad.object h⟩

theorem node_of_seen {graph : Option NodePattern} {o o' : Occurrence} {position : Position}
    (h : o.quad.seen graph = o'.quad.seen graph) (hp : position = .graph → graph.isSome = true) :
    (o.node position).map Node.term = (o'.node position).map Node.term := by
  obtain ⟨hs, -, ho⟩ := ends_of_seen h
  cases position with
  | subject => exact congrArg some hs
  | object => exact congrArg some ho
  | list => rfl
  | graph =>
    obtain ⟨g, rfl⟩ := Option.isSome_iff_exists.mp (hp rfl)
    exact congrArg Quad.graph h

theorem inOneOf_congr {gs gs' : List Node} {o o' : Occurrence}
    (hg : gs.map (·.term) = gs'.map (·.term)) (ho : o.quad.graph = o'.quad.graph) :
    inOneOf gs o = inOneOf gs' o' := by
  have hin : ∀ (gs : List Node) (o : Occurrence), inOneOf gs o =
      ((gs.map (·.term)).isEmpty || o.quad.graph.any (gs.map (·.term)).contains) := by
    intro gs o
    have hcontains : ∀ n : Node, gs.contains n = (gs.map (·.term)).contains n.term := fun n => by
      rw [Bool.eq_iff_iff, Source.contains_iff, List.contains_iff_mem, List.mem_map]
    rw [inOneOf, List.isEmpty_map]
    cases hg : o.graph <;> simp [Occurrence.quad, hg, hcontains]
  rw [hin, hin, hg, ho]

theorem inGraphs_perm {n n' : Option Node} {gs gs' : List Node}
    (hn : n.map Node.term = n'.map Node.term) (hg : gs.map (·.term) = gs'.map (·.term))
    (h : (os.map Occurrence.quad).Perm (os'.map Occurrence.quad)) :
    ((inGraphs n gs os).map Occurrence.quad).Perm ((inGraphs n' gs' os').map Occurrence.quad) := by
  refine perm_filter_of_map h fun o _ o' _ hq => ?_
  have hgraph : o.graph.map Node.term = o'.graph.map Node.term := congrArg Quad.graph hq
  have hin := inOneOf_congr hg hgraph
  cases ho : o.graph with
  | none =>
    rw [ho, Option.map_none, eq_comm, Option.map_eq_none_iff] at hgraph
    rw [hgraph]
  | some a =>
    rw [ho, Option.map_some, eq_comm, Option.map_eq_some_iff] at hgraph
    obtain ⟨a', ho', ha⟩ := hgraph
    rw [ho']
    cases n with
    | none =>
      obtain rfl : n' = none := Option.map_eq_none_iff.mp hn.symm
      exact hin
    | some m =>
      obtain ⟨m', rfl, hm⟩ := Option.map_eq_some_iff.mp hn.symm
      change (a.term == m.term) = (a'.term == m'.term)
      rw [ha, hm]

end Occurrence

/-! ### Closures -/

/-- Whether a path leads from each node to itself, without following an edge. -/
def Path.isNullable : Path → Bool
  | predicate _ | negated _ => false
  | inverse p | oneOrMore p => p.isNullable
  | seq p q => p.isNullable && q.isNullable
  | alt p q => p.isNullable || q.isNullable
  | zeroOrMore _ | zeroOrOne _ => true

namespace Source

variable {s s' : Source} {g g' : Ground}

theorem mem_reach_self (hs : s.store.Valid) {g : Ground} {p : Path} {backwards : Bool} {t : Term}
    (hp : p.isNullable = true) : t ∈ s.reach g p backwards t := by
  induction p generalizing backwards with
  | predicate | negated => cases hp
  | inverse p ih => exact ih hp
  | seq p q ihp ihq =>
    rw [Path.isNullable, Bool.and_eq_true_iff] at hp
    rw [reach]
    split_ifs <;> rw [List.mem_eraseDups, List.mem_flatMap]
    · exact ⟨t, ihq hp.2, ihp hp.1⟩
    · exact ⟨t, ihp hp.1, ihq hp.2⟩
  | alt p q ihp ihq =>
    rw [Path.isNullable, Bool.or_eq_true] at hp
    rw [reach, List.mem_eraseDups, List.mem_append]
    exact hp.imp (ihp ·) (ihq ·)
  | zeroOrOne p =>
    rw [reach, List.mem_eraseDups]
    exact List.mem_cons_self
  | zeroOrMore p =>
    exact (mem_reach_zeroOrMore hs).mpr .refl
  | oneOrMore p ih =>
    exact (mem_reach_oneOrMore hs).mpr (.single (ih hp))

/-- Walks lead at least as far where each step does. -/
theorem reach_subset_of_steps (hs : s.store.Valid) (hs' : s'.store.Valid)
    (h : ∀ step t, s.stepFrom g step t ⊆ s'.stepFrom g' step t) (p : Path) (backwards : Bool)
    (t : Term) : s.reach g p backwards t ⊆ s'.reach g' p backwards t := by
  induction p generalizing backwards t with
  | predicate | negated =>
    rw [reach, reach]
    exact h _ t
  | inverse p ih =>
    rw [reach, reach]
    exact ih _ t
  | seq p q ihp ihq =>
    intro u hu
    rw [reach] at hu ⊢
    split_ifs at hu ⊢
    all_goals
      rw [List.mem_eraseDups, List.mem_flatMap] at hu ⊢
      obtain ⟨a, ha, hu⟩ := hu
    · exact ⟨a, ihq _ t ha, ihp _ a hu⟩
    · exact ⟨a, ihp _ t ha, ihq _ a hu⟩
  | alt p q ihp ihq =>
    intro u hu
    rw [reach, List.mem_eraseDups, List.mem_append] at hu ⊢
    exact hu.imp (ihp _ t ·) (ihq _ t ·)
  | zeroOrOne p ih =>
    intro u hu
    rw [reach, List.mem_eraseDups, List.mem_cons] at hu ⊢
    exact hu.imp id (ih _ t ·)
  | zeroOrMore p ih =>
    intro u hu
    rw [mem_reach_zeroOrMore hs] at hu
    rw [mem_reach_zeroOrMore hs']
    exact Relation.ReflTransGen.mono (fun a b hab => ih _ a hab) _ _ hu
  | oneOrMore p ih =>
    intro u hu
    rw [mem_reach_oneOrMore hs] at hu
    rw [mem_reach_oneOrMore hs']
    exact Relation.TransGen.mono (fun a b hab => ih _ a hab) _ _ hu

theorem reach_perm_of_steps (hs : s.store.Valid) (hs' : s'.store.Valid)
    (h : ∀ step t, s.stepFrom g step t ⊆ s'.stepFrom g' step t)
    (h' : ∀ step t, s'.stepFrom g' step t ⊆ s.stepFrom g step t) (p : Path) (backwards : Bool)
    (t : Term) : (s.reach g p backwards t).Perm (s'.reach g' p backwards t) :=
  (List.perm_ext_iff_of_nodup (nodup_reach s g p backwards t)
    (nodup_reach s' g' p backwards t)).mpr fun _ =>
      ⟨fun hu => reach_subset_of_steps hs hs' h p backwards t hu,
        fun hu => reach_subset_of_steps hs' hs h' p backwards t hu⟩

end Source

/-! ### Sources -/

/-- What is accepted at a position depends on the terms that are seen there only. -/
theorem Source.accepts_congr {s s' : Source} {graph : Option NodePattern} {o o' : Occurrence}
    (hh : s'.hierarchical = s.hierarchical)
    (hsubsumes : ∀ {n n' m m' : Node}, n.term = n'.term → m.term = m'.term →
      s.store.subsumes n m = s'.store.subsumes n' m')
    (ho : o.quad.seen graph = o'.quad.seen graph) {position : Position}
    (hposition : position = .graph → graph.isSome = true) {n n' : Node} (hn : n.term = n'.term) :
    s.accepts o position n = s'.accepts o' position n' := by
  have hnode := Occurrence.node_of_seen ho hposition
  obtain ⟨-, hp, hobject⟩ := Occurrence.ends_of_seen ho
  unfold accepts
  cases hm : o.node position with
  | none =>
    rw [hm, Option.map_none, eq_comm, Option.map_eq_none_iff] at hnode
    rw [hnode]
  | some m =>
    rw [hm, Option.map_some, eq_comm, Option.map_eq_some_iff] at hnode
    obtain ⟨m', hm', hterm⟩ := hnode
    have hsame : (m == n) = (m' == n') := by
      change (m.term == n.term) = (m'.term == n'.term)
      rw [hterm, hn]
    rw [hm']
    dsimp only
    rw [hsame, hh, Edge.isType, Edge.isType, hp, hsubsumes hn hterm.symm]

/-- Whether two sources read stores with the same contents under the same options. -/
structure Source.Alike (s s' : Source) : Prop where
  store : s.store.Alike s'.store
  options : s'.options = s.options
  hierarchical : s'.hierarchical = s.hierarchical

/-- Whether a place is free for both of two stores, or stands for one term, or is missing. -/
inductive Lookup.Alike : Lookup → Lookup → Prop
  | free : Alike free free
  | missing : Alike missing missing
  | found {n n' : Node} (h : n.term = n'.term) : Alike (found n) (found n')

/-- Whether two indexes are chosen by the same place and for the same term. -/
inductive Source.Selection.Alike : Selection → Selection → Prop
  | nothing : Alike nothing nothing
  | all : Alike all all
  | at (position : Position) {n n' : Node} (h : n.term = n'.term) :
    Alike (.at position n) (.at position n')

namespace Source.Alike

variable {s s' : Source} {q : Query} {env : Environment} {graph : Option NodePattern}

theorem symm (h : s.Alike s') : s'.Alike s := ⟨h.store.symm, h.options.symm, h.hierarchical.symm⟩

theorem graphNodes_map_term (h : s.Alike s') (names : List Term) :
    (s.graphNodes names).map (·.term) = (s'.graphNodes names).map (·.term) := by
  unfold graphNodes
  rw [List.map_filterMap, List.map_filterMap]
  exact List.filterMap_congr fun t _ => h.store.graphNode_map_term t

theorem namedGraphs_perm (h : s.Alike s') (names : List Term) :
    ((s.namedGraphs names).map (·.term)).Perm ((s'.namedGraphs names).map (·.term)) := by
  unfold namedGraphs
  split_ifs
  · exact h.store.graphNodes_perm
  · rw [h.graphNodes_map_term]

theorem lookup_alike (h : s.Alike s') (q : Query) (env : Environment) (n : NodePattern)
    (position : Position) : (s.lookup q env n position).Alike (s'.lookup q env n position) := by
  unfold lookup
  cases valueOf? q env n with
  | none => exact .free
  | some t =>
    have hfound : ∀ {x y : Option Node}, x.map Node.term = y.map Node.term →
        Lookup.Alike ((x.map Lookup.found).getD .missing) ((y.map Lookup.found).getD .missing) := by
      intro x y hxy
      cases x <;> cases y <;> simp only [Option.map_none, Option.map_some, reduceCtorEq,
        Option.some.injEq] at hxy
      · exact .missing
      · exact .found hxy
    dsimp only
    split_ifs
    · exact hfound (h.store.graphNode_map_term t)
    · exact hfound (h.store.node_map_term t)

theorem predicates_perm (h : s.Alike s') (q : Query) (env : Environment) (n : NodePattern) :
    ((s.predicates q env n).map (·.term)).Perm ((s'.predicates q env n).map (·.term)) := by
  unfold predicates
  cases valueOf? q env n with
  | none => exact h.store.predicateNodes_perm
  | some t =>
    rw [← Option.toList_map, ← Option.toList_map, h.store.propertyNode_map_term]

theorem selectIndex_alike (h : s.Alike s') (q : Query) (env : Environment) (e : EdgePattern)
    (graph : Option NodePattern) (isType : Bool) :
    (s.selectIndex q env e graph isType).Alike (s'.selectIndex q env e graph isType) := by
  unfold selectIndex
  rw [h.store.entailment]
  generalize [(Position.subject, e.subject)] ++ _ ++ _ = places
  induction places with
  | nil => exact .all
  | cons p ps ih =>
    simp only [List.foldr_cons]
    have hp := h.lookup_alike q env p.2 p.1
    generalize s.lookup q env p.2 p.1 = l at hp ⊢
    generalize s'.lookup q env p.2 p.1 = l' at hp ⊢
    cases hp with
    | free => exact ih
    | missing => exact .nothing
    | found hn => exact .at p.1 hn

theorem inForce_perm (h : s.Alike s') (q : Query) (env : Environment)
    (graph : Option NodePattern) (from_ : List Term) {os os' : List Occurrence}
    (hos : (os.map Occurrence.quad).Perm (os'.map Occurrence.quad))
    (hc : graph = none → Occurrence.Clusters os ∧ Occurrence.Clusters os') :
    ((s.inForce q env graph (s.graphNodes from_) os).map (·.quad.seen graph)).Perm
      ((s'.inForce q env graph (s'.graphNodes from_) os').map (·.quad.seen graph)) := by
  have hg := h.graphNodes_map_term from_
  cases graph with
  | none =>
    obtain ⟨hcos, hcos'⟩ := hc rfl
    have hfilter := perm_filter_of_map hos fun o _ o' _ hq =>
      Occurrence.inOneOf_congr hg (congrArg Quad.graph hq)
    simp only [inForce, Occurrence.successiveDistinct, h.options]
    split_ifs
    · have hseen := hfilter.map (Quad.seen none)
      rwa [List.map_map, List.map_map] at hseen
    · exact Occurrence.dropRepeats_perm (hcos.filter _) (hcos'.filter _) hfilter
  | some g =>
    have hin : ∀ {n n' : Option Node}, n.map Node.term = n'.map Node.term →
        ((Occurrence.inGraphs n (s.graphNodes from_) os).map (·.quad)).Perm
          ((Occurrence.inGraphs n' (s'.graphNodes from_) os').map (·.quad)) :=
      fun hn => Occurrence.inGraphs_perm hn hg hos
    simp only [inForce]
    have hl := h.lookup_alike q env g .graph
    generalize s.lookup q env g .graph = l at hl ⊢
    generalize s'.lookup q env g .graph = l' at hl ⊢
    cases hl with
    | free => exact hin rfl
    | missing => exact .refl _
    | found hn => exact hin (congrArg some hn)

/-- The quads that are found for some predicates. -/
theorem edges_perm (h : s.Alike s') {ps ps' : List Node}
    (hps : (ps.map (·.term)).Perm (ps'.map (·.term))) {bound bound' second second' : Option Node}
    {position : Position} (hb : bound.map Node.term = bound'.map Node.term)
    (hs : second.map Node.term = second'.map Node.term)
    (hplace : position ≠ .list ∧ (position = .graph → second = none)) :
    ((ps.flatMap fun p => s.store.edgesFor p bound second position).map Occurrence.quad).Perm
      ((ps'.flatMap fun p => s'.store.edgesFor p bound' second' position).map Occurrence.quad) := by
  rw [List.map_flatMap, List.map_flatMap]
  exact perm_flatMap_of_map hps fun p _ p' _ hp => h.store.edgesFor_perm hp hb hs hplace

theorem scan_perm (h : s.Alike s') (e : EdgePattern) (from_ : List Term) {ps ps' : List Node}
    (hps : (ps.map (·.term)).Perm (ps'.map (·.term))) (isType : Bool) :
    ((s.scan q env e graph from_ ps isType).map Occurrence.quad).Perm
      ((s'.scan q env e graph from_ ps' isType).map Occurrence.quad) := by
  have hg := h.graphNodes_map_term from_
  have hall : ((ps.flatMap fun p => s.store.edgesFor p none none .subject).map Occurrence.quad).Perm
      ((ps'.flatMap fun p => s'.store.edgesFor p none none .subject).map Occurrence.quad) :=
    h.edges_perm hps rfl rfl (by decide)
  unfold scan
  have hchosen : s.Chosen q env _ (s.selectIndex q env e graph isType) :=
    s.chosen_selectIndex e graph isType
  have hselect := h.selectIndex_alike q env e graph isType
  generalize s.selectIndex q env e graph isType = selection at hchosen hselect ⊢
  generalize s'.selectIndex q env e graph isType = selection' at hselect ⊢
  cases hselect with
  | nothing => exact .refl _
  | all =>
    cases graph with
    | none =>
      cases from_ with
      | nil => exact hall
      | cons t ts =>
        have hempty : (s.graphNodes (t :: ts)).isEmpty = (s'.graphNodes (t :: ts)).isEmpty := by
          rw [← List.isEmpty_map, hg, List.isEmpty_map]
        dsimp only
        rw [hempty]
        split_ifs
        · exact .refl _
        · exact hall
    | some g =>
      cases from_ with
      | nil => exact hall
      | cons t ts =>
        rw [List.map_flatMap, List.map_flatMap]
        refine perm_flatMap_of_map hps fun p _ p' _ hp => ?_
        rw [List.map_flatMap, List.map_flatMap]
        exact perm_flatMap_of_map (.of_eq hg) fun g _ g' _ hgraph =>
          h.store.edgesFor_perm hp (congrArg some hgraph) rfl (by decide)
  | @«at» position n n' hn =>
    have hbound : (some n).map Node.term = (some n').map Node.term := congrArg some hn
    cases position with
    | subject =>
      have hobject : Lookup.Alike (if isType then .free else s.lookup q env e.object .object)
          (if isType then .free else s'.lookup q env e.object .object) := by
        split_ifs
        · exact .free
        · exact h.lookup_alike q env e.object .object
      dsimp only
      generalize (if isType then Lookup.free else s.lookup q env e.object .object) = l at hobject ⊢
      generalize (if isType then Lookup.free else s'.lookup q env e.object .object) = l' at hobject ⊢
      cases hobject with
      | free => exact h.edges_perm hps hbound rfl (by decide)
      | missing => exact .refl _
      | found hm =>
        exact h.edges_perm hps hbound (congrArg some hm) ⟨by decide, fun hp => by cases hp⟩
    | object => exact h.edges_perm hps hbound rfl (by decide)
    | graph => exact h.edges_perm hps hbound rfl (by decide)
    | list =>
      obtain ⟨m, hm, -⟩ := hchosen
      rcases mem_indexed hm with ⟨hp, -⟩ | ⟨hp, -⟩ | ⟨hp, -⟩ <;> cases hp

/-- Outside of a graph clause, occurrences of one edge are scanned one after the other. -/
theorem clusters_scan (hs : s.store.Valid) (e : EdgePattern) (from_ : List Term) (isType : Bool) :
    Occurrence.Clusters (s.scan q env e none from_ (s.predicates q env e.predicate) isType) := by
  have hps : s.SortedNodes (s.predicates q env e.predicate) := sorted_predicates hs
  have hnil : Occurrence.Clusters [] :=
    ⟨s.store.dictionary.subjectRank, fun _ => rfl, .nil⟩
  have hall : Occurrence.Clusters ((s.predicates q env e.predicate).flatMap fun p =>
      s.store.edgesFor p none none .subject) :=
    (scanned_all (P := fun _ => False) hs hps).clustered rfl
  have hsubject : ∀ n second, Occurrence.Clusters ((s.predicates q env e.predicate).flatMap fun p =>
      s.store.edgesFor p (some n) second .subject) :=
    fun _ _ => (scanned_subject (P := fun _ => False) hs hps fun _ h => h.elim).clustered rfl
  have hchosen : s.Chosen q env _ (s.selectIndex q env e none isType) :=
    s.chosen_selectIndex e none isType
  unfold scan
  generalize s.selectIndex q env e none isType = selection at hchosen ⊢
  cases selection with
  | nothing => exact hnil
  | all =>
    cases from_ with
    | nil => exact hall
    | cons t ts =>
      dsimp only
      split_ifs
      · exact hnil
      · exact hall
  | «at» position n =>
    cases position with
    | subject =>
      dsimp only
      split
      · exact hnil
      · exact hsubject n _
    | object =>
      exact (scanned_object (P := fun _ => False) hs hps fun _ h => h.elim).clustered rfl
    | graph | list =>
      obtain ⟨m, hm, -⟩ := hchosen
      rcases mem_indexed hm with ⟨hp, -⟩ | ⟨hp, -⟩ | ⟨-, hg⟩
      · cases hp
      · cases hp
      · cases hg

theorem asksForType_eq (h : s.Alike s') (q : Query) (env : Environment) (e : EdgePattern) :
    s.asksForType q env e = s'.asksForType q env e := by
  have hps := h.predicates_perm q env e.predicate
  have hlength := hps.length_eq
  rw [List.length_map, List.length_map] at hlength
  unfold asksForType
  split
  next p hp =>
    rw [hp, List.length_singleton, eq_comm, List.length_eq_one_iff] at hlength
    obtain ⟨p', hp'⟩ := hlength
    rw [hp, hp', List.map_singleton, List.map_singleton, List.singleton_perm_singleton] at hps
    rw [hp', hps]
  next hne =>
    split
    next p' hp' =>
      rw [hp', List.length_singleton, List.length_eq_one_iff] at hlength
      exact (hne _ hlength.choose_spec).elim
    next => rfl

theorem scanInForce_perm (h : s.Alike s') (q : Query) (env : Environment) (e : EdgePattern)
    (graph : Option NodePattern) (from_ : List Term) :
    ((s.scanInForce q env e graph from_).map (·.quad.seen graph)).Perm
      ((s'.scanInForce q env e graph from_).map (·.quad.seen graph)) := by
  rw [scanInForce, scanInForce, h.asksForType_eq]
  refine h.inForce_perm q env graph from_ (h.scan_perm e from_ (h.predicates_perm q env e.predicate) _)
    fun hg => ?_
  subst hg
  exact ⟨clusters_scan h.store.valid e from_ _, clusters_scan h.symm.store.valid e from_ _⟩

/-- What an edge pattern is matched by is the same in both stores, as far as the pattern sees. -/
theorem matchEdge_perm (h : s.Alike s') (q : Query) (env : Environment) (e : EdgePattern)
    (graph : Option NodePattern) (from_ : List Term) :
    ((s.matchEdge q env e graph from_).map (·.quad.seen graph)).Perm
      ((s'.matchEdge q env e graph from_).map (·.quad.seen graph)) := by
  have hin := h.scanInForce_perm q env e graph from_
  rw [matchEdge_eq, matchEdge_eq, h.asksForType_eq, h.hierarchical]
  split_ifs
  · have hl := h.lookup_alike q env e.object .object
    generalize s.lookup q env e.object .object = l at hl ⊢
    generalize s'.lookup q env e.object .object = l' at hl ⊢
    cases hl with
    | free | missing => exact hin
    | found hn =>
      refine perm_filter_of_map hin fun o _ o' _ ho => ?_
      obtain ⟨-, hp, hobject⟩ := Occurrence.ends_of_seen ho
      rw [Edge.isType, Edge.isType, hp, h.store.subsumes_eq hn hobject]
  · exact hin

/-- What may stand for a node in one store may stand for it in the other one. -/
theorem accepts_eq (h : s.Alike s') {o o' : Occurrence} (ho : o.quad.seen graph = o'.quad.seen graph)
    {position : Position} (hposition : position = .graph → graph.isSome = true) {n n' : Node}
    (hn : n.term = n'.term) : s.accepts o position n = s'.accepts o' position n' :=
  accepts_congr h.hierarchical (fun hn hm => h.store.subsumes_eq hn hm) ho hposition hn

/-! ### Walks -/

/-- The same graphs are in force in both stores. -/
theorem shows_iff (h : s.Alike s') (from_ : List Term) (g : Option Term) :
    s.Shows q env graph (s.graphNodes from_) g ↔ s'.Shows q env graph (s'.graphNodes from_) g := by
  have hterms : ∀ ns : List Node, (ns = [] ∨ ∃ m ∈ ns, g = some m.term) ↔
      ns.map (·.term) = [] ∨ ∃ t ∈ ns.map (·.term), g = some t := fun ns => by simp
  have hlisted : (s.graphNodes from_ = [] ∨ ∃ m ∈ s.graphNodes from_, g = some m.term) ↔
      s'.graphNodes from_ = [] ∨ ∃ m ∈ s'.graphNodes from_, g = some m.term := by
    rw [hterms, hterms, h.graphNodes_map_term]
  cases graph with
  | none => exact hlisted
  | some n =>
    simp only [Shows]
    have hl := h.lookup_alike q env n .graph
    generalize s.lookup q env n .graph = l at hl ⊢
    generalize s'.lookup q env n .graph = l' at hl ⊢
    cases hl with
    | free => exact and_congr_right fun _ => hlisted
    | missing => exact Iff.rfl
    | found hn =>
      dsimp only
      rw [hn]

theorem stepFrom_subset (h : s.Alike s') (g : Ground) (step : Path) (t : Term) :
    s.stepFrom g step t ⊆ s'.stepFrom g step t := by
  intro u hu
  obtain ⟨r, hr, hshows, hrest⟩ := (mem_stepFrom h.store.valid).mp hu
  exact (mem_stepFrom h.symm.store.valid).mpr ⟨r, (h.store.holds_iff r).mp hr,
    (h.shows_iff _ _).mp hshows, hrest⟩

theorem reach_perm (h : s.Alike s') (g : Ground) (p : Path) (backwards : Bool) (t : Term) :
    (s.reach g p backwards t).Perm (s'.reach g p backwards t) :=
  reach_perm_of_steps h.store.valid h.symm.store.valid (h.stepFrom_subset g)
    (h.symm.stepFrom_subset g) p backwards t

theorem startNodes_perm (h : s.Alike s') (q : Query) (env : Environment) :
    (s.startNodes q env).Perm (s'.startNodes q env) := by
  unfold startNodes
  cases env.graph with
  | none => exact h.store.nodes_perm rfl
  | some n =>
    cases n with
    | var v =>
      dsimp only
      cases env.get? q v with
      | none => exact h.store.nodes_perm rfl
      | some g => exact h.store.nodes_perm rfl
    | const t =>
      have hg := h.store.graphNode_map_term t
      dsimp only
      cases hn : s.store.graphNode? t with
      | none =>
        rw [hn, Option.map_none, eq_comm, Option.map_eq_none_iff] at hg
        rw [hg]
      | some g =>
        rw [hn, Option.map_some, eq_comm, Option.map_eq_some_iff] at hg
        obtain ⟨g', hn', hterm⟩ := hg
        rw [hn']
        exact h.store.nodes_perm (congrArg some hterm.symm)

end Source.Alike

end GraphQuery
