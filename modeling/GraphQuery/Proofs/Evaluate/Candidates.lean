import GraphQuery.Evaluate.Candidates
import GraphQuery.Proofs.Evaluate.Environment
import GraphQuery.Proofs.Store.Lookup

/-! The candidates for an edge pattern. Whatever index is chosen, no quad that fits the pattern is
missed, and a pattern sees no quad twice: outside of a graph clause it sees edges only, inside it
sees them together with their graphs. -/

namespace GraphQuery

namespace Quad

/-- The term at a position. -/
def node (q : Quad) : Position → Option Term
  | .subject => some q.subject
  | .object => some q.object
  | .graph => q.graph
  | .list => none

/-- What a pattern sees of a quad, inside or outside of a graph clause. -/
def seen (graph : Option NodePattern) (q : Quad) : Quad := if graph.isNone then q.triple else q

end Quad

/-! ### Finding nodes -/

namespace Store

variable {s : Store} {t : Term} {n : Node} {q : Quad}

theorem Holds.names (h : s.Holds q) (hs : s.Valid) {g : Term} (hg : q.graph = some g) :
    s.Names g := by
  obtain ⟨p, e, he, hd⟩ := h
  have := hd.graph
  rw [hg, Option.map_some, Option.map_eq_some_iff] at this
  obtain ⟨i, hi, hig⟩ := this
  exact ⟨i, hs.declared p e i he hi, hig⟩

theorem Holds.exists_node (h : s.Holds q) {position : Position} (ht : q.node position = some t) :
    ∃ i, s.dictionary.term? i = some t := by
  obtain ⟨p, e, -, hd⟩ := h
  cases position with
  | subject => exact ⟨_, Option.some.inj ht ▸ hd.subject⟩
  | object => exact ⟨_, Option.some.inj ht ▸ hd.object⟩
  | graph =>
    have := hd.graph
    rw [show q.graph = some t from ht, Option.map_some, Option.map_eq_some_iff] at this
    obtain ⟨i, -, hi⟩ := this
    exact ⟨i, hi⟩
  | list => cases ht

theorem Valid.term_of_node (hs : s.Valid) (h : s.node? t = some n) : n.term = t.canonical := by
  simp only [node?, Option.bind_eq_some_iff, Dictionary.node_eq_some] at h
  obtain ⟨i, hi, u, hu, rfl⟩ := h
  exact Option.some.inj (hu.symm.trans (hs.dictionary.id_eq_some.mp hi))

theorem Valid.not_stored (hs : s.Valid) (h : s.node? t = none) (i : Nat) :
    s.dictionary.term? i ≠ some t.canonical := fun hi => by
  simp [node?, hs.dictionary.id_eq_some.mpr hi, Dictionary.node?, hi] at h

theorem Valid.graphNode_eq_some (hs : s.Valid) (h : s.graphNode? t = some n) :
    n.term = t.canonical ∧ s.Names t.canonical := by
  simp only [graphNode?, Option.bind_eq_some_iff, Option.filter_eq_some_iff,
    Dictionary.node_eq_some] at h
  obtain ⟨i, ⟨hi, hg⟩, u, hu, rfl⟩ := h
  have hi := hs.dictionary.id_eq_some.mp hi
  exact ⟨Option.some.inj (hu.symm.trans hi), i, by simpa using hg, hi⟩

theorem Valid.exists_graphNode (hs : s.Valid) (h : s.Names t.canonical) :
    ∃ n, s.graphNode? t = some n ∧ n.term = t.canonical := by
  obtain ⟨i, hi, ht⟩ := h
  refine ⟨⟨t.canonical, some i⟩, ?_, rfl⟩
  rw [graphNode?, hs.dictionary.id_eq_some.mpr ht, Option.filter_some,
    if_pos (List.contains_iff_mem.mpr hi), Option.bind_some]
  exact Dictionary.node_eq_some.mpr ⟨_, ht, rfl⟩

/-- Only named graphs have nodes. -/
theorem Valid.nodes_ofTerm (hs : s.Valid) (ht : t.IsCanonical) :
    s.nodes (some ⟨t, none⟩) = (s.graphNode? t).elim [] fun g => s.nodes (some g) := by
  cases hg : s.graphNode? t with
  | none =>
    refine List.eq_nil_iff_forall_not_mem.mpr fun n hn => ?_
    obtain ⟨r, hr, hrt, -⟩ := hs.mem_nodes.mp (List.mem_map_of_mem hn)
    have hnames : s.Names t.canonical := ht.symm ▸ hr.names hs (hrt _ rfl)
    obtain ⟨n, hn, -⟩ := hs.exists_graphNode hnames
    cases hg.symm.trans hn
  | some g =>
    have hresolve : s.dictionary.resolve? ⟨t, none⟩ = s.dictionary.resolve? g := by
      refine Option.ext fun i => ?_
      rw [hs.dictionary.resolve_eq_some, hs.dictionary.resolve_eq_some,
        (hs.graphNode_eq_some hg).1.trans ht]
    rw [Option.elim_some, nodes, nodes, hresolve]

theorem Valid.propertyNode_eq_some (hs : s.Valid) (h : s.propertyNode? t = some n) :
    n.term = t.canonical := by
  simp only [propertyNode?, Option.bind_eq_some_iff, Option.filter_eq_some_iff,
    Dictionary.node_eq_some] at h
  obtain ⟨i, ⟨hi, -⟩, u, hu, rfl⟩ := h
  exact Option.some.inj (hu.symm.trans (hs.dictionary.id_eq_some.mp hi))

theorem Valid.exists_propertyNode (hs : s.Valid) (h : s.Holds q) (hp : q.predicate = t.canonical) :
    ∃ n, s.propertyNode? t = some n := by
  obtain ⟨p, e, ⟨i, hi, -⟩, hd⟩ := h
  have ht := hp ▸ hd.predicate
  refine ⟨⟨t.canonical, some p⟩, ?_⟩
  rw [propertyNode?, hs.dictionary.id_eq_some.mpr ht, Option.filter_some, if_pos (by simp [hi]),
    Option.bind_some]
  exact Dictionary.node_eq_some.mpr ⟨_, ht, rfl⟩

theorem Valid.mem_predicateNodes (hs : s.Valid) (h : s.Holds q) :
    ∃ n ∈ s.predicateNodes, q.predicate = n.term := by
  obtain ⟨p, e, ⟨i, hi, -⟩, hd⟩ := h
  refine ⟨⟨q.predicate, some p⟩, List.mem_filterMap.mpr ⟨(p, i), ?_, ?_⟩, rfl⟩
  · exact (lookup_eq_some hs.sorted).mp hi
  · exact Dictionary.node_eq_some.mpr ⟨_, hd.predicate, rfl⟩

end Store

namespace Source

variable {s : Source} {q : Query} {env : Environment} {n : NodePattern} {position : Position}

/-! ### Bound places -/

/-- Whether a place of a pattern, as far as it is bound, allows a term. -/
def Allows (q : Query) (env : Environment) (n : NodePattern) (u : Option Term) : Prop :=
  ∀ t, valueOf? q env n = some t → u = some t.canonical

theorem lookup_of_some {t : Term} (ht : valueOf? q env n = some t) :
    s.lookup q env n position = match if position = .graph then s.store.graphNode? t
      else s.store.node? t with
      | some m => .found m
      | none => .missing := by
  simp only [lookup, ht]
  cases (if position = .graph then s.store.graphNode? t else s.store.node? t) <;> rfl

theorem allows_of_found {m : Node} (hs : s.store.Valid)
    (h : s.lookup q env n position = .found m) {u : Option Term} :
    Allows q env n u ↔ u = some m.term := by
  cases ht : valueOf? q env n with
  | none => simp [lookup, ht] at h
  | some t =>
    rw [lookup_of_some ht] at h
    have hm : m.term = t.canonical := by
      split at h
      next m' hm' =>
        obtain rfl := Lookup.found.inj h
        split_ifs at hm'
        · exact (hs.graphNode_eq_some hm').1
        · exact hs.term_of_node hm'
      next => cases h
    rw [hm]
    exact ⟨fun hu => hu t ht, fun hu t' ht' => Option.some.inj (ht.symm.trans ht') ▸ hu⟩

theorem not_allows_of_missing (hs : s.store.Valid)
    (h : s.lookup q env n position = .missing) {r : Quad} (hr : s.store.Holds r) (hl : position ≠ .list) :
    ¬ Allows q env n (r.node position) := by
  intro ha
  cases ht : valueOf? q env n with
  | none => simp [lookup, ht] at h
  | some t =>
    rw [lookup_of_some ht] at h
    have hn := ha t ht
    split at h
    next => cases h
    next hm =>
      split_ifs at hm with hg
      · subst hg
        obtain ⟨m, hm', -⟩ := hs.exists_graphNode (hr.names hs hn)
        simp [hm] at hm'
      · obtain ⟨i, hi⟩ := hr.exists_node hn
        exact hs.not_stored hm i hi

/-! ### Scanning an index -/

/-- What the subject, the object and the graph of a pattern allow. -/
def AllowsPlaces (q : Query) (env : Environment) (e : EdgePattern) (graph : Option NodePattern)
    (r : Quad) : Prop :=
  Allows q env e.subject (some r.subject) ∧ Allows q env e.object (some r.object) ∧
    ∀ g, graph = some g → Allows q env g r.graph

/-- Occurrences among which all quads of some predicates with a property are found. -/
structure Scanned (s : Source) (graph : Option NodePattern) (ps : List Node) (P : Quad → Prop)
    (os : List Occurrence) : Prop where
  sound : ∀ o ∈ os, s.store.Holds o.quad ∧ ∃ p ∈ ps, o.quad.predicate = p.term
  complete : ∀ r, s.store.Holds r → (∃ p ∈ ps, r.predicate = p.term) → P r → ∃ o ∈ os, o.quad = r
  distinct : os.Pairwise fun a b => a.quad ≠ b.quad
  clustered : graph = none →
    ∃ rank : Quad → ℕ ×ₗ ℕ ×ₗ ℕ, (∀ r, rank r.triple = rank r) ∧ Clustered rank os

variable {graph : Option NodePattern} {ps : List Node} {P : Quad → Prop}

theorem Scanned.mono {Q : Quad → Prop} {os : List Occurrence} (h : s.Scanned graph ps P os)
    (hQ : ∀ r, Q r → P r) : s.Scanned graph ps Q os :=
  { h with complete := fun r hr hp hq => h.complete r hr hp (hQ r hq) }

theorem scanned_nil (h : ∀ r, s.store.Holds r → ¬ P r) : Scanned s graph ps P [] where
  sound := by simp
  complete r hr _ hp := absurd hp (h r hr)
  distinct := .nil
  clustered _ := ⟨s.store.dictionary.subjectRank, fun _ => rfl, .nil⟩

/-- The predicates of a pattern, in the order of their numbers. -/
def SortedNodes (s : Source) (ps : List Node) : Prop :=
  ps.Pairwise fun a b => s.store.dictionary.rank a.term < s.store.dictionary.rank b.term

theorem scanned_flatMap (hs : s.store.Valid) (hps : s.SortedNodes ps) {bound second : Option Node}
    (position : Position) {Q : Quad → Prop}
    (hm : ∀ p r, r ∈ (s.store.edgesFor p bound second position).map Occurrence.quad ↔
      s.store.Holds r ∧ r.predicate = p.term ∧ Q r)
    (hQ : ∀ r, P r → Q r)
    (hc : graph = none → ∃ rank : Quad → ℕ ×ₗ ℕ ×ₗ ℕ, (∀ r, rank r.triple = rank r) ∧
      (∀ q r, s.store.dictionary.rank q.predicate < s.store.dictionary.rank r.predicate →
        rank q < rank r) ∧
      ∀ p, Clustered rank (s.store.edgesFor p bound second position)) :
    Scanned s graph ps P (ps.flatMap fun p => s.store.edgesFor p bound second position) := by
  have hp : ∀ p ∈ ps, ∀ o ∈ s.store.edgesFor p bound second position,
      s.store.Holds o.quad ∧ o.quad.predicate = p.term := fun p _ o ho => by
    have := (hm p o.quad).mp (List.mem_map_of_mem ho)
    exact ⟨this.1, this.2.1⟩
  exact {
    sound := fun o ho => by
      obtain ⟨p, hps, ho⟩ := List.mem_flatMap.mp ho
      exact ⟨(hp p hps o ho).1, p, hps, (hp p hps o ho).2⟩
    complete := fun r hr ⟨p, hps, hrp⟩ hP => by
      obtain ⟨o, ho, rfl⟩ := List.mem_map.mp ((hm p r).mpr ⟨hr, hrp, hQ r hP⟩)
      exact ⟨o, List.mem_flatMap.mpr ⟨p, hps, ho⟩, rfl⟩
    distinct := distinct_flatMap hps (fun p h o ho => (hp p h o ho).2)
      fun p _ => hs.distinct_edgesFor
    clustered := fun hg => by
      obtain ⟨rank, ht, hr, hc⟩ := hc hg
      exact ⟨rank, ht, clustered_flatMap hr hps (fun p h o ho => (hp p h o ho).2) fun p _ => hc p⟩ }

/-- The places by which an index is chosen. -/
def indexed (s : Source) (e : EdgePattern) (graph : Option NodePattern) (isType : Bool) :
    List (Position × NodePattern) :=
  [(.subject, e.subject)] ++ (if isType && s.store.entailment then [] else [(.object, e.object)])
    ++ (graph.map fun g => (Position.graph, g)).toList

/-- What the choice of an index tells about the places that it was made by. -/
def Chosen (s : Source) (q : Query) (env : Environment) (places : List (Position × NodePattern)) :
    Selection → Prop
  | .nothing => ∃ p ∈ places, s.lookup q env p.2 p.1 = .missing
  | .at position m => ∃ n, (position, n) ∈ places ∧ s.lookup q env n position = .found m
  | .all => True

theorem Chosen.cons {places : List (Position × NodePattern)} {selection : Selection}
    (h : s.Chosen q env places selection) (p : Position × NodePattern) :
    s.Chosen q env (p :: places) selection := by
  cases selection with
  | nothing =>
    obtain ⟨p', hp', hm⟩ := h
    exact ⟨p', by simp [hp'], hm⟩
  | all => trivial
  | «at» position m =>
    obtain ⟨n, hn, hm⟩ := h
    exact ⟨n, by simp [hn], hm⟩

theorem chosen_selectIndex (e : EdgePattern) (graph : Option NodePattern) (isType : Bool) :
    s.Chosen q env (s.indexed e graph isType) (s.selectIndex q env e graph isType) := by
  unfold selectIndex
  dsimp only
  rw [← indexed]
  induction s.indexed e graph isType with
  | nil => trivial
  | cons p ps ih =>
    rw [List.foldr_cons]
    cases hp : s.lookup q env p.2 p.1 with
    | free => exact ih.cons p
    | missing => exact ⟨p, by simp, hp⟩
    | found m => exact ⟨p.2, by simp, hp⟩

theorem mem_indexed {e : EdgePattern} {isType : Bool}
    (h : (position, n) ∈ s.indexed e graph isType) :
    position = .subject ∧ n = e.subject ∨ position = .object ∧ n = e.object ∨
      position = .graph ∧ graph = some n := by
  simp only [indexed, List.mem_append, List.mem_singleton, Prod.mk.injEq, Option.mem_toList,
    Option.map_eq_some_iff] at h
  rcases h with (⟨rfl, rfl⟩ | h) | ⟨g, rfl, rfl, rfl⟩
  · exact .inl ⟨rfl, rfl⟩
  · split_ifs at h
    · simp at h
    · simp only [List.mem_singleton, Prod.mk.injEq] at h
      exact .inr (.inl h)
  · exact .inr (.inr ⟨rfl, rfl⟩)

/-- What the places allow by which an index is chosen. -/
def AllowsIndexed (s : Source) (q : Query) (env : Environment) (e : EdgePattern)
    (graph : Option NodePattern) (isType : Bool) (r : Quad) : Prop :=
  ∀ p ∈ s.indexed e graph isType, Allows q env p.2 (r.node p.1)

theorem AllowsPlaces.allowsIndexed {e : EdgePattern} {r : Quad} (h : AllowsPlaces q env e graph r)
    (isType : Bool) : s.AllowsIndexed q env e graph isType r := by
  rintro ⟨position, n⟩ hn
  rcases mem_indexed hn with ⟨rfl, rfl⟩ | ⟨rfl, rfl⟩ | ⟨rfl, hg⟩
  · exact h.1
  · exact h.2.1
  · exact h.2.2 n hg

/-! ### Scans by position -/

section Positions

variable {e : EdgePattern}

theorem scanned_all (hs : s.store.Valid) (hps : s.SortedNodes ps) :
    s.Scanned graph ps P (ps.flatMap fun p => s.store.edgesFor p none none .subject) :=
  scanned_flatMap hs hps .subject (Q := fun _ => True)
    (fun _ _ => by rw [hs.mem_edgesFor_all, and_true]) (fun _ _ => trivial)
    fun _ => ⟨s.store.dictionary.subjectRank, fun _ => rfl, fun _ _ => Dictionary.subjectRank_lt,
      fun _ => hs.clustered_subject⟩

theorem scanned_subject (hs : s.store.Valid) (hps : s.SortedNodes ps) {m : Node}
    {second : Option Node}
    (hP : ∀ r, P r → r.subject = m.term ∧ ∀ m', second = some m' → r.object = m'.term) :
    s.Scanned graph ps P (ps.flatMap fun p => s.store.edgesFor p (some m) second .subject) :=
  scanned_flatMap hs hps .subject
    (Q := fun r => r.subject = m.term ∧ ∀ m', second = some m' → r.object = m'.term)
    (fun _ _ => hs.mem_edgesFor_subject) hP
    fun _ => ⟨s.store.dictionary.subjectRank, fun _ => rfl, fun _ _ => Dictionary.subjectRank_lt,
      fun _ => hs.clustered_subject⟩

theorem scanned_object (hs : s.store.Valid) (hps : s.SortedNodes ps) {m : Node}
    (hP : ∀ r, P r → r.object = m.term) :
    s.Scanned graph ps P (ps.flatMap fun p => s.store.edgesFor p (some m) none .object) :=
  scanned_flatMap hs hps .object (Q := fun r => r.object = m.term)
    (fun _ _ => (hs.mem_edgesFor_object).trans (by simp)) hP
    fun _ => ⟨s.store.dictionary.objectRank, fun _ => rfl, fun _ _ => Dictionary.objectRank_lt,
      fun _ => hs.clustered_object⟩

theorem scanned_graph (hs : s.store.Valid) (hps : s.SortedNodes ps) {m : Node}
    (hg : graph ≠ none) (hP : ∀ r, P r → r.graph = some m.term) :
    s.Scanned graph ps P (ps.flatMap fun p => s.store.edgesFor p (some m) none .graph) :=
  scanned_flatMap hs hps .graph (Q := fun r => r.graph = some m.term)
    (fun _ _ => hs.mem_edgesFor_graph) hP (fun h => absurd h hg)

/-- Every quad of the predicates that fits the places by which an index is chosen is scanned. -/
theorem scanned_indexed (hs : s.store.Valid) (hps : s.SortedNodes ps) (from_ : List Term)
    (isType : Bool) (hg : graph.isSome → from_ = [])
    (hf : from_ ≠ [] → s.graphNodes from_ ≠ []) :
    s.Scanned graph ps (s.AllowsIndexed q env e graph isType)
      (s.scan q env e graph from_ ps isType) := by
  have hc : s.Chosen q env _ _ := s.chosen_selectIndex e graph isType
  have hobject : ∀ {r : Quad}, isType = false → s.AllowsIndexed q env e graph isType r →
      Allows q env e.object (some r.object) :=
    fun ht ha => ha (.object, e.object) (by simp [indexed, ht])
  unfold scan
  cases hsel : s.selectIndex q env e graph isType with
  | nothing =>
    rw [hsel] at hc
    obtain ⟨⟨position, n⟩, hn, hm⟩ := hc
    refine scanned_nil fun r hr ha => not_allows_of_missing hs hm hr ?_ (ha _ hn)
    rcases mem_indexed hn with ⟨rfl, -⟩ | ⟨rfl, -⟩ | ⟨rfl, -⟩ <;> simp
  | all =>
    cases from_ with
    | nil => cases graph <;> exact scanned_all hs hps
    | cons t ts =>
      cases graph with
      | some g => simp at hg
      | none =>
        simp only [List.isEmpty_eq_false_iff.mpr (hf (by simp)), Bool.false_eq_true, if_false]
        exact scanned_all hs hps
  | «at» position m =>
    rw [hsel] at hc
    obtain ⟨n, hn, hm⟩ := hc
    have hfound : ∀ r : Quad, s.AllowsIndexed q env e graph isType r →
        r.node position = some m.term := fun r ha => (allows_of_found hs hm).mp (ha _ hn)
    rcases mem_indexed hn with ⟨rfl, rfl⟩ | ⟨rfl, rfl⟩ | ⟨rfl, hgn⟩
    · cases hobj : if isType then Lookup.free else s.lookup q env e.object .object with
      | missing =>
        simp only
        refine scanned_nil fun r hr ha => ?_
        split_ifs at hobj with ht
        exact not_allows_of_missing hs hobj hr (by simp) (hobject (Bool.eq_false_iff.mpr ht) ha)
      | free =>
        simp only [Lookup.node?]
        exact scanned_subject hs hps fun r ha => ⟨Option.some.inj (hfound r ha), by simp⟩
      | found m' =>
        simp only [Lookup.node?]
        refine scanned_subject hs hps fun r ha =>
          ⟨Option.some.inj (hfound r ha), fun m'' hm'' => ?_⟩
        obtain rfl := Option.some.inj hm''
        split_ifs at hobj with ht
        exact Option.some.inj
          ((allows_of_found hs hobj).mp (hobject (Bool.eq_false_iff.mpr ht) ha))
    · exact scanned_object hs hps fun r ha => Option.some.inj (hfound r ha)
    · exact scanned_graph hs hps (by simp [hgn]) hfound

/-- Every quad of the predicates that fits the places of a pattern is scanned. -/
theorem scanned_scan (hs : s.store.Valid) (hps : s.SortedNodes ps) (from_ : List Term)
    (isType : Bool) (hg : graph.isSome → from_ = [])
    (hf : from_ ≠ [] → s.graphNodes from_ ≠ []) :
    s.Scanned graph ps (AllowsPlaces q env e graph) (s.scan q env e graph from_ ps isType) :=
  (scanned_indexed hs hps from_ isType hg hf).mono fun _ h => h.allowsIndexed isType

end Positions

/-! ### Matching -/

/-- Whether a quad in some graph counts, given the graph in force and the graphs that a query is
restricted to. -/
def Admits (graph : Option NodePattern) (from_ : List Term) (g : Option Term) : Prop :=
  match graph with
  | none => from_ = [] ∨ ∃ t ∈ from_, g = some t.canonical
  | some _ => g.isSome

/-- The predicates of a pattern are the same for every quad that the pattern allows. -/
theorem sorted_predicates (hs : s.store.Valid) : s.SortedNodes (s.predicates q env n) := by
  unfold predicates
  cases valueOf? q env n with
  | none => exact hs.sorted_predicateNodes
  | some t => cases h : s.store.propertyNode? t <;> simp [SortedNodes, h]

theorem exists_predicate_iff (hs : s.store.Valid) {r : Quad} (hr : s.store.Holds r) :
    (∃ p ∈ s.predicates q env n, r.predicate = p.term) ↔ Allows q env n (some r.predicate) := by
  unfold predicates Allows
  cases valueOf? q env n with
  | none => simpa using hs.mem_predicateNodes hr
  | some t =>
    simp only [Option.mem_toList, Option.some.injEq, forall_eq']
    constructor
    · rintro ⟨p, hp, hrp⟩
      rw [hrp, hs.propertyNode_eq_some hp]
    · intro hrt
      obtain ⟨p, hp⟩ := hs.exists_propertyNode hr hrt
      exact ⟨p, hp, hrt.trans (hs.propertyNode_eq_some hp).symm⟩

theorem mem_graphNodes (hs : s.store.Valid) {from_ : List Term} {r : Quad} {g : Term}
    (hr : s.store.Holds r) (hg : r.graph = some g) :
    (∃ m ∈ s.graphNodes from_, m.term = g) ↔ ∃ t ∈ from_, g = t.canonical := by
  simp only [graphNodes, List.mem_filterMap]
  constructor
  · rintro ⟨m, ⟨t, ht, hm⟩, rfl⟩
    exact ⟨t, ht, (hs.graphNode_eq_some hm).1⟩
  · rintro ⟨t, ht, rfl⟩
    obtain ⟨m, hm, hmt⟩ := hs.exists_graphNode (hr.names hs hg)
    exact ⟨m, ⟨t, ht, hm⟩, hmt⟩

theorem node_beq_iff {m m' : Node} : (m == m') = true ↔ m.term = m'.term :=
  beq_iff_eq (a := m.term)

theorem contains_iff {ms : List Node} {m : Node} :
    ms.contains m = true ↔ ∃ m' ∈ ms, m'.term = m.term := by
  rw [List.contains_iff_exists_mem_beq]
  refine exists_congr fun m' => and_congr_right fun _ => ?_
  rw [node_beq_iff, eq_comm]

theorem inOneOf_iff_listed {listed : List Node} {o : Occurrence} :
    Occurrence.inOneOf listed o ↔ listed = [] ∨ ∃ m ∈ listed, o.quad.graph = some m.term := by
  rw [Occurrence.inOneOf, Bool.or_eq_true, List.isEmpty_iff]
  refine or_congr_right ?_
  cases hg : o.graph with
  | none => simp [Occurrence.quad, hg]
  | some m =>
    rw [Option.any_some, contains_iff]
    simp only [Occurrence.quad, hg, Option.map_some, Option.some.injEq, eq_comm]

theorem listed_iff_admits (hs : s.store.Valid) {from_ : List Term}
    (hf : from_ ≠ [] → s.graphNodes from_ ≠ []) {r : Quad} (hr : s.store.Holds r) :
    (s.graphNodes from_ = [] ∨ ∃ m ∈ s.graphNodes from_, r.graph = some m.term) ↔
      Admits none from_ r.graph := by
  by_cases h : from_ = []
  · simp [h, graphNodes, Admits]
  · rw [Admits, or_iff_right (hf h), or_iff_right h]
    cases hg : r.graph with
    | none => simp
    | some t => simpa [eq_comm] using mem_graphNodes hs hr hg

theorem inOneOf_iff (hs : s.store.Valid) {from_ : List Term}
    (hf : from_ ≠ [] → s.graphNodes from_ ≠ []) {o : Occurrence} (ho : s.store.Holds o.quad) :
    Occurrence.inOneOf (s.graphNodes from_) o = true ↔ Admits none from_ o.quad.graph :=
  inOneOf_iff_listed.trans (listed_iff_admits hs hf ho)

theorem mem_inGraphs_listed {n : Option Node} {listed : List Node} {os : List Occurrence}
    {o : Occurrence} :
    o ∈ Occurrence.inGraphs n listed os ↔ o ∈ os ∧ o.quad.graph.isSome ∧
      match n with
      | some m => o.quad.graph = some m.term
      | none => listed = [] ∨ ∃ m ∈ listed, o.quad.graph = some m.term := by
  rw [Occurrence.inGraphs, List.mem_filter]
  refine and_congr_right fun _ => ?_
  cases hg : o.graph with
  | none => simp [Occurrence.quad, hg]
  | some a =>
    cases n with
    | some m => simp [Occurrence.quad, hg, node_beq_iff]
    | none =>
      have hsome : o.quad.graph.isSome := by simp [Occurrence.quad, hg]
      simp only [inOneOf_iff_listed, hsome, true_and]

/-- Occurrences that stand for what a pattern sees of the stored quads that it allows. -/
structure Matched (s : Source) (q : Query) (env : Environment) (e : EdgePattern)
    (graph : Option NodePattern) (from_ : List Term) (os : List Occurrence) : Prop where
  sound : ∀ o ∈ os, s.store.Holds o.quad ∧ Allows q env e.predicate (some o.quad.predicate) ∧
    Admits graph from_ o.quad.graph
  complete : ∀ r, s.store.Holds r → Allows q env e.predicate (some r.predicate) →
    AllowsPlaces q env e graph r → Admits graph from_ r.graph →
    ∃ o ∈ os, o.quad.seen graph = r.seen graph
  distinct : os.Pairwise fun a b => a.quad.seen graph ≠ b.quad.seen graph

variable {e : EdgePattern} {from_ : List Term} {os : List Occurrence}

theorem matched_default (hs : s.store.Valid) (hskip : s.options.skipDuplicateTest = false)
    (hf : from_ ≠ [] → s.graphNodes from_ ≠ [])
    (h : s.Scanned none (s.predicates q env e.predicate) (AllowsPlaces q env e none) os) :
    s.Matched q env e none from_ (s.inForce q env none (s.graphNodes from_) os) := by
  obtain ⟨rank, hr, hc⟩ := h.clustered rfl
  simp only [inForce, Occurrence.successiveDistinct, hskip, Bool.false_eq_true, if_false]
  have hsub := Occurrence.dropRepeats_sublist none
    (os.filter (Occurrence.inOneOf (s.graphNodes from_)))
  exact {
    sound := fun o ho => by
      obtain ⟨ho, hin⟩ := List.mem_filter.mp (hsub.subset ho)
      obtain ⟨hh, hp⟩ := h.sound o ho
      exact ⟨hh, (exists_predicate_iff hs hh).mp hp, (inOneOf_iff hs hf hh).mp hin⟩
    complete := fun r hh hp ha hg => by
      obtain ⟨o, ho, rfl⟩ := h.complete r hh ((exists_predicate_iff hs hh).mpr hp) ha
      have hin := List.mem_filter.mpr ⟨ho, (inOneOf_iff hs hf hh).mpr hg⟩
      rcases Occurrence.exists_mem_dropRepeats none _ o hin with ⟨a, ha, -⟩ | h
      · cases ha
      · exact h
    distinct := Occurrence.distinct_dropRepeats hr none _ (hc.sublist List.filter_sublist) }

theorem mem_inGraphs {graph : Option Node} {o : Occurrence} :
    o ∈ Occurrence.inGraphs graph [] os ↔
      o ∈ os ∧ o.quad.graph.isSome ∧ ∀ m, graph = some m → o.quad.graph = some m.term := by
  rw [mem_inGraphs_listed]
  cases graph <;> simp

theorem matched_graph (hs : s.store.Valid) {g : NodePattern}
    (h : s.Scanned (some g) (s.predicates q env e.predicate) (AllowsPlaces q env e (some g)) os) :
    s.Matched q env e (some g) [] (s.inForce q env (some g) (s.graphNodes []) os) := by
  suffices hm : ∀ graph : Option Node,
      (∀ r, Allows q env g r → ∀ m, graph = some m → r = some m.term) →
      s.Matched q env e (some g) [] (Occurrence.inGraphs graph [] os) by
    simp only [inForce, graphNodes, List.filterMap_nil]
    cases hl : s.lookup q env g .graph with
    | free => exact hm none (by simp)
    | missing =>
      exact {
        sound := by simp
        complete := fun r hr _ ha _ =>
          absurd (ha.2.2 g rfl) (not_allows_of_missing hs hl hr (by simp))
        distinct := .nil }
    | found m =>
      refine hm (some m) fun r hr m' hm' => ?_
      obtain rfl := Option.some.inj hm'
      exact (allows_of_found hs hl).mp hr
  intro graph hgraph
  exact {
    sound := fun o ho => by
      obtain ⟨ho, hg, -⟩ := mem_inGraphs.mp ho
      obtain ⟨hh, hp⟩ := h.sound o ho
      exact ⟨hh, (exists_predicate_iff hs hh).mp hp, hg⟩
    complete := fun r hh hp ha hg => by
      obtain ⟨o, ho, rfl⟩ := h.complete r hh ((exists_predicate_iff hs hh).mpr hp) ha
      exact ⟨o, mem_inGraphs.mpr ⟨ho, hg, hgraph _ (ha.2.2 g rfl)⟩, rfl⟩
    distinct := h.distinct.filter _ }

/-- The candidates for an edge pattern are complete and without repetition. -/
theorem matched_matchEdge (hs : s.store.Valid)
    (hskip : graph = none → s.options.skipDuplicateTest = false)
    (hh : s.hierarchical = false) (hg : graph.isSome → from_ = [])
    (hf : from_ ≠ [] → s.graphNodes from_ ≠ []) :
    s.Matched q env e graph from_ (s.matchEdge q env e graph from_) := by
  simp only [matchEdge, hh, Bool.false_and, Bool.false_eq_true, if_false]
  have h : ∀ isType, s.Scanned graph (s.predicates q env e.predicate)
      (AllowsPlaces q env e graph) (s.scan q env e graph from_ _ isType) := fun isType =>
    s.scanned_scan hs (s.sorted_predicates hs) from_ isType hg hf
  cases graph with
  | none => exact matched_default hs (hskip rfl) hf (h _)
  | some g =>
    obtain rfl := hg rfl
    exact matched_graph hs (h _)

/-! ### The predicate of a candidate -/

theorem mem_of_mem_inForce {listed : List Node} {os : List Occurrence} {o : Occurrence}
    (ho : o ∈ s.inForce q env graph listed os) : o ∈ os := by
  unfold inForce at ho
  split at ho
  · unfold Occurrence.successiveDistinct at ho
    split_ifs at ho
    · exact (List.mem_filter.mp ho).1
    · exact (List.mem_filter.mp ((Occurrence.dropRepeats_sublist _ _).subset ho)).1
  · split at ho
    · cases ho
    · exact (List.mem_filter.mp ho).1
    · exact (List.mem_filter.mp ho).1

/-- Whatever index is chosen, only edges of the given predicates are scanned. -/
theorem exists_of_mem_scan {ps : List Node} {isType : Bool} {o : Occurrence}
    (ho : o ∈ s.scan q env e graph from_ ps isType) :
    ∃ p ∈ ps, ∃ bound second position, o ∈ s.store.edgesFor p bound second position := by
  have hflat : ∀ {bound second position},
      o ∈ (ps.flatMap fun p => s.store.edgesFor p bound second position) →
      ∃ p ∈ ps, ∃ bound second position, o ∈ s.store.edgesFor p bound second position :=
    fun ho => by
      obtain ⟨p, hp, ho⟩ := List.mem_flatMap.mp ho
      exact ⟨p, hp, _, _, _, ho⟩
  unfold scan at ho
  dsimp only at ho
  split at ho
  · cases ho
  · split at ho
    · cases ho
    · exact hflat ho
  · exact hflat ho
  · split at ho
    · obtain ⟨p, hp, ho⟩ := List.mem_flatMap.mp ho
      obtain ⟨g, -, ho⟩ := List.mem_flatMap.mp ho
      exact ⟨p, hp, _, _, _, ho⟩
    · split_ifs at ho
      · cases ho
      · exact hflat ho
    · exact hflat ho

/-- What is found is in force among what is scanned. -/
theorem mem_inForce_scan_of_mem_matchEdge {o : Occurrence}
    (ho : o ∈ s.matchEdge q env e graph from_) :
    ∃ isType, o ∈ s.inForce q env graph (s.graphNodes from_)
      (s.scan q env e graph from_ (s.predicates q env e.predicate) isType) := by
  unfold matchEdge at ho
  dsimp only at ho
  split_ifs at ho
  · unfold Occurrence.matching at ho
    split at ho
    · exact ⟨_, ho⟩
    · exact ⟨_, (List.mem_filter.mp ho).1⟩
  · exact ⟨_, ho⟩

/-- What is found for a predicate with a value has that predicate. -/
theorem predicate_of_mem_matchEdge (hs : s.store.Valid) {o : Occurrence} {t : Term}
    (ht : valueOf? q env e.predicate = some t) (ho : o ∈ s.matchEdge q env e graph from_) :
    o.edge.predicate.term = t.canonical := by
  obtain ⟨isType, ho⟩ := mem_inForce_scan_of_mem_matchEdge ho
  obtain ⟨p, hp, bound, second, position, ho⟩ := exists_of_mem_scan (mem_of_mem_inForce ho)
  rw [predicates, ht] at hp
  rw [← hs.propertyNode_eq_some (Option.mem_toList.mp hp)]
  exact (hs.mem_edgesFor.mp (List.mem_map_of_mem ho)).1

end Source

end GraphQuery
