import GraphQuery.Proofs.Evaluate.Candidates

/-! The dataset clause of a query and the graphs that edges come from. If a listed graph is a named
graph of the store, all that is found without a graph to look in is in a listed graph, whatever
index was chosen. If none is, the clause is ignored, unless an edge pattern has nothing bound to be
looked up by. -/

namespace GraphQuery

/-- Whether an occurrence is in a graph that is listed and named. -/
def Occurrence.ListedIn (named listed : List Term) (o : Occurrence) : Prop :=
  ∃ t ∈ listed, t.canonical ∈ named ∧ o.quad.graph = some t.canonical

instance (named listed : List Term) (o : Occurrence) : Decidable (o.ListedIn named listed) :=
  inferInstanceAs (Decidable (∃ t ∈ listed, t.canonical ∈ named ∧ o.quad.graph = some t.canonical))

namespace Source

variable {s : Source} {q : Query} {env : Environment} {n : NodePattern} {position : Position}
  {e : EdgePattern} {graph : Option NodePattern} {from_ : List Term} {ps : List Node}
  {isType : Bool} {o : Occurrence}

/-- Whether there is no graph to look in: no graph clause, or one with a free name. -/
def OpenGraph (q : Query) (env : Environment) (graph : Option NodePattern) : Prop :=
  ∀ g, graph = some g → valueOf? q env g = none

/-- Whether a pattern asks for the classes of instances and nothing else. -/
def asksForType (s : Source) (q : Query) (env : Environment) (e : EdgePattern) : Bool :=
  match s.predicates q env e.predicate with
  | [p] => p.term.isTypePredicate
  | _ => false

/-- What is scanned for a pattern in the graph in force. -/
def scanInForce (s : Source) (q : Query) (env : Environment) (e : EdgePattern)
    (graph : Option NodePattern) (from_ : List Term) : List Occurrence :=
  s.inForce q env graph (s.graphNodes from_)
    (s.scan q env e graph from_ (s.predicates q env e.predicate) (s.asksForType q env e))

theorem matchEdge_eq (s : Source) (q : Query) (env : Environment) (e : EdgePattern)
    (graph : Option NodePattern) (from_ : List Term) :
    s.matchEdge q env e graph from_ =
      if s.hierarchical && s.asksForType q env e then
        Occurrence.matching s.store (s.lookup q env e.object .object).node?
          (s.scanInForce q env e graph from_)
      else s.scanInForce q env e graph from_ :=
  rfl

/-- Whether nothing is bound by which an index could be chosen. -/
def Unindexed (s : Source) (q : Query) (env : Environment) (e : EdgePattern)
    (graph : Option NodePattern) : Prop :=
  ∀ p ∈ s.indexed e graph (s.asksForType q env e), valueOf? q env p.2 = none

/-! ### Some listed graph is named -/

theorem lookup_eq_free (s : Source) (position : Position) :
    s.lookup q env n position = .free ↔ valueOf? q env n = none := by
  cases h : valueOf? q env n with
  | none => simp [lookup, h]
  | some t =>
    rw [lookup_of_some h]
    cases (if position = .graph then s.store.graphNode? t else s.store.node? t) <;> simp

/-- What is kept for the graph in force is in a listed graph. -/
theorem exists_of_mem_inForce {listed : List Node} {os : List Occurrence}
    (hl : listed ≠ []) (hg : OpenGraph q env graph) (ho : o ∈ s.inForce q env graph listed os) :
    ∃ m ∈ listed, o.quad.graph = some m.term := by
  have hin : Occurrence.inOneOf listed o = true := by
    cases graph with
    | none =>
      simp only [inForce, Occurrence.successiveDistinct] at ho
      split_ifs at ho
      · exact (List.mem_filter.mp ho).2
      · exact (List.mem_filter.mp ((Occurrence.dropRepeats_sublist _ _).subset ho)).2
    | some g =>
      simp only [inForce, (lookup_eq_free s .graph).mpr (hg g rfl), Occurrence.inGraphs] at ho
      have hin := (List.mem_filter.mp ho).2
      cases hog : o.graph with
      | none => simp [hog] at hin
      | some m => simpa [hog] using hin
  rw [Occurrence.inOneOf, List.isEmpty_eq_false_iff.mpr hl, Bool.false_or,
    Option.any_eq_true] at hin
  obtain ⟨m, hm, hc⟩ := hin
  obtain ⟨m', hm', hmt⟩ := contains_iff.mp hc
  exact ⟨m', hm', by simp [Occurrence.quad, hm, hmt]⟩

theorem mem_inForce_of_mem_matchEdge (ho : o ∈ s.matchEdge q env e graph from_) :
    ∃ os, o ∈ s.inForce q env graph (s.graphNodes from_) os := by
  obtain ⟨_, ho⟩ := mem_inForce_scan_of_mem_matchEdge ho
  exact ⟨_, ho⟩

theorem mem_inForce_of_mem_matchStep {pattern : PathPattern} {step : Path} {start : Option Node}
    (ho : o ∈ s.matchStep q env pattern step start position graph from_) :
    ∃ os, o ∈ s.inForce q env graph (s.graphNodes from_) os := by
  unfold matchStep at ho
  split at ho
  · cases ho
  · dsimp only at ho
    split at ho
    · cases ho
    · exact ⟨_, ho⟩

/-! ### No listed graph is named -/

theorem selectIndex_eq_all : s.selectIndex q env e graph isType = .all ↔
    ∀ p ∈ s.indexed e graph isType, valueOf? q env p.2 = none := by
  unfold selectIndex
  dsimp only
  rw [← indexed]
  induction s.indexed e graph isType with
  | nil => simp
  | cons p ps ih =>
    rw [List.foldr_cons, List.forall_mem_cons, ← lookup_eq_free s p.1]
    cases s.lookup q env p.2 p.1 with
    | free => simpa using ih
    | missing => simp
    | found m => simp

theorem scan_of_all (hf : from_ ≠ []) (hl : s.graphNodes from_ = [])
    (hsel : s.selectIndex q env e graph isType = .all) :
    s.scan q env e graph from_ ps isType = [] := by
  obtain ⟨t, ts, rfl⟩ := List.exists_cons_of_ne_nil hf
  unfold scan
  rw [hsel]
  cases graph <;> simp [hl]

/-- A scan that looks something up does not see the clause. -/
theorem scan_of_ne_all (hsel : s.selectIndex q env e graph isType ≠ .all) :
    s.scan q env e graph from_ ps isType = s.scan q env e graph [] ps isType := by
  unfold scan
  cases h : s.selectIndex q env e graph isType with
  | nothing => rfl
  | all => exact absurd h hsel
  | «at» position m => cases position <;> rfl

theorem inForce_nil (s : Source) (listed : List Node) : s.inForce q env graph listed [] = [] := by
  cases graph with
  | none =>
    simp only [inForce, Occurrence.successiveDistinct, List.filter_nil, Occurrence.dropRepeats,
      ite_self]
  | some g =>
    simp only [inForce, Occurrence.inGraphs, List.filter_nil]
    cases s.lookup q env g .graph <;> rfl

/-- The clause is ignored by patterns that are looked up. -/
theorem matchEdge_of_unnamed (hl : s.graphNodes from_ = []) (hu : ¬ s.Unindexed q env e graph) :
    s.matchEdge q env e graph from_ = s.matchEdge q env e graph [] := by
  have hs : s.scanInForce q env e graph from_ = s.scanInForce q env e graph [] := by
    rw [scanInForce, scanInForce, hl, scan_of_ne_all fun h => hu (selectIndex_eq_all.mp h)]
    rfl
  rw [matchEdge_eq, matchEdge_eq, hs]

theorem matchEdge_of_unindexed (hf : from_ ≠ []) (hl : s.graphNodes from_ = [])
    (hu : s.Unindexed q env e graph) : s.matchEdge q env e graph from_ = [] := by
  rw [matchEdge_eq, scanInForce, scan_of_all hf hl (selectIndex_eq_all.mpr hu), inForce_nil]
  split_ifs
  · cases (s.lookup q env e.object .object).node? <;> rfl
  · rfl

/-- The clause is ignored by the steps of paths. -/
theorem matchStep_of_unnamed {pattern : PathPattern} {step : Path} {start : Option Node}
    (hl : s.graphNodes from_ = []) :
    s.matchStep q env pattern step start position graph from_ =
      s.matchStep q env pattern step start position graph [] := by
  simp only [matchStep, hl]
  rfl

/-! ### Graphs with a name -/

theorem inGraphs_some (n : Node) (listed : List Node) (os : List Occurrence) :
    Occurrence.inGraphs (some n) listed os = Occurrence.inGraphs (some n) [] os := by
  refine List.filter_congr fun o _ => ?_
  cases o.graph <;> rfl

/-- A graph clause with a name does not see the dataset clause. -/
theorem matchEdge_const (s : Source) (q : Query) (env : Environment) (e : EdgePattern) (t : Term)
    (from_ : List Term) :
    s.matchEdge q env e (some (.const t)) from_ = s.matchEdge q env e (some (.const t)) [] := by
  have hlookup : s.lookup q env (.const t) .graph ≠ .free := fun h => by
    have hvalue := (lookup_eq_free s .graph).mp h
    cases hvalue
  have hinForce : ∀ listed os, s.inForce q env (some (.const t)) listed os =
      s.inForce q env (some (.const t)) [] os := fun listed os => by
    simp only [inForce]
    cases hl : s.lookup q env (.const t) .graph with
    | free => exact (hlookup hl).elim
    | missing => rfl
    | found n => exact inGraphs_some n listed os
  have hscan : ∀ ps isType, s.scan q env e (some (.const t)) from_ ps isType =
      s.scan q env e (some (.const t)) [] ps isType := fun ps isType => by
    refine scan_of_ne_all fun hall => ?_
    have hnone := selectIndex_eq_all.mp hall (.graph, .const t) (by simp [indexed])
    cases hnone
  rw [matchEdge_eq, matchEdge_eq, scanInForce, scanInForce, hscan, hinForce]
  rfl

/-! ### Where edges come from -/

section History

variable {entailment : Bool} {history : List Insertion}

theorem graphNodes_eq_nil (hstore : s.store = .after entailment history) :
    s.graphNodes from_ = [] ↔
      ¬ ∃ t ∈ from_, t.canonical ∈ history.flatMap Insertion.names := by
  have hcont := Store.contains_after entailment history
  rw [← hstore] at hcont
  rw [graphNodes, List.filterMap_eq_nil_iff, not_exists]
  refine forall_congr' fun t => ?_
  rw [not_and, ← hcont.names]
  refine imp_congr_right fun _ => ⟨fun hn ht => ?_, fun hn => ?_⟩
  · obtain ⟨m, hm, -⟩ := hcont.valid.exists_graphNode ht
    simp [hn] at hm
  · exact Option.eq_none_iff_forall_ne_some.mpr fun m hm =>
      hn (hcont.valid.graphNode_eq_some hm).2

theorem listedIn_of_mem_graphNodes (hstore : s.store = .after entailment history) {m : Node}
    (hm : m ∈ s.graphNodes from_) (ho : o.quad.graph = some m.term) :
    o.ListedIn (history.flatMap Insertion.names) from_ := by
  have hcont := Store.contains_after entailment history
  rw [← hstore] at hcont
  obtain ⟨t, ht, hm⟩ := List.mem_filterMap.mp hm
  obtain ⟨hmt, hn⟩ := hcont.valid.graphNode_eq_some hm
  exact ⟨t, ht, (hcont.names _).mp hn, hmt ▸ ho⟩

/-- Without a graph to look in, everything found is in a listed graph exactly if a listed graph is
named, or nothing would be found without the clause. An edge pattern with nothing bound to be
looked up by is never found outside of the listed graphs. -/
theorem listedIn_iff (hstore : s.store = .after entailment history) (hf : from_ ≠ [])
    (hg : OpenGraph q env graph) (pattern : PathPattern) (step : Path) (start : Option Node)
    (position : Position) :
    ((∀ o ∈ s.matchEdge q env e graph from_, o.ListedIn (history.flatMap Insertion.names) from_) ↔
      (∃ t ∈ from_, t.canonical ∈ history.flatMap Insertion.names) ∨
        s.Unindexed q env e graph ∨ s.matchEdge q env e graph [] = []) ∧
    ((∀ o ∈ s.matchStep q env pattern step start position graph from_,
        o.ListedIn (history.flatMap Insertion.names) from_) ↔
      (∃ t ∈ from_, t.canonical ∈ history.flatMap Insertion.names) ∨
        s.matchStep q env pattern step start position graph [] = []) := by
  have hnil : s.graphNodes from_ = [] ↔ _ := graphNodes_eq_nil hstore
  by_cases hn : ∃ t ∈ from_, t.canonical ∈ history.flatMap Insertion.names
  · have hl : s.graphNodes from_ ≠ [] := fun h => hnil.mp h hn
    have hlisted : ∀ os, ∀ o ∈ s.inForce q env graph (s.graphNodes from_) os,
        o.ListedIn (history.flatMap Insertion.names) from_ := fun os o ho => by
      obtain ⟨m, hm, ho⟩ := exists_of_mem_inForce hl hg ho
      exact listedIn_of_mem_graphNodes hstore hm ho
    refine ⟨iff_of_true (fun o ho => ?_) (.inl hn), iff_of_true (fun o ho => ?_) (.inl hn)⟩
    · obtain ⟨os, ho⟩ := mem_inForce_of_mem_matchEdge ho
      exact hlisted os o ho
    · obtain ⟨os, ho⟩ := mem_inForce_of_mem_matchStep ho
      exact hlisted os o ho
  · have hl := hnil.mpr hn
    have hnot : ∀ os : List Occurrence,
        (∀ o ∈ os, o.ListedIn (history.flatMap Insertion.names) from_) ↔ os = [] := fun os => by
      refine ⟨fun h => List.eq_nil_iff_forall_not_mem.mpr fun o ho => ?_, by rintro rfl; simp⟩
      obtain ⟨t, ht, htn, -⟩ := h o ho
      exact hn ⟨t, ht, htn⟩
    rw [hnot, hnot, matchStep_of_unnamed hl, or_iff_right hn, or_iff_right hn]
    refine ⟨?_, Iff.rfl⟩
    by_cases hu : s.Unindexed q env e graph
    · exact iff_of_true (matchEdge_of_unindexed hf hl hu) (.inl hu)
    · rw [matchEdge_of_unnamed hl hu, or_iff_right hu]

/-- One of two edges of a subject is in the graph that is listed, and only that one is found. -/
theorem listedIn_iff_of_named :
    let edge (o : String) (g : Option Term) : Quad := ⟨.iri ⟨"a"⟩, .iri ⟨"p"⟩, .iri ⟨o⟩, g⟩
    let history : List Insertion := [.extend [edge "b" none, edge "c" (some (.iri ⟨"g"⟩))]]
    let s : Source := { store := .after false history }
    let e : EdgePattern := ⟨.const (.iri ⟨"a"⟩), .const (.iri ⟨"p"⟩), .var ⟨"y"⟩⟩
    let q : Query := .ofParts { body := .edge e, fromDefault := [.iri ⟨"g"⟩] }
    (∀ o ∈ s.matchEdge q (.initial q) e none q.fromDefault,
      o.ListedIn (history.flatMap Insertion.names) q.fromDefault) ∧
      (s.matchEdge q (.initial q) e none q.fromDefault).length = 1 := by
  intro edge history s e q
  have hstore : s.store = .after false history := rfl
  refine ⟨(listedIn_iff hstore (by simp [q, Query.ofParts]) (by simp [OpenGraph])
    ⟨e.subject, .predicate ⟨"p"⟩, e.object⟩ (.predicate ⟨"p"⟩) none .subject).1.mpr (.inl ?_), ?_⟩
  · decide +kernel
  · decide +kernel

/-- An edge of the default graph is found from its subject, and followed by a path, although the
only listed graph is not there. -/
theorem not_listedIn :
    let history : List Insertion := [.extend [⟨.iri ⟨"a"⟩, .iri ⟨"p"⟩, .iri ⟨"b"⟩, none⟩]]
    let s : Source := { store := .after false history }
    let e : EdgePattern := ⟨.const (.iri ⟨"a"⟩), .const (.iri ⟨"p"⟩), .var ⟨"y"⟩⟩
    let q : Query := .ofParts { body := .edge e, fromDefault := [.iri ⟨"g"⟩] }
    (¬ ∀ o ∈ s.matchEdge q (.initial q) e none q.fromDefault,
      o.ListedIn (history.flatMap Insertion.names) q.fromDefault) ∧
    ¬ ∀ o ∈ s.matchStep q (.initial q) ⟨e.subject, .predicate ⟨"p"⟩, e.object⟩ (.predicate ⟨"p"⟩)
        none .subject none q.fromDefault,
      o.ListedIn (history.flatMap Insertion.names) q.fromDefault := by
  decide +kernel

end History

end Source

end GraphQuery
