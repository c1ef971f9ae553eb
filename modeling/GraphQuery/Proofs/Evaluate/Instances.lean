import GraphQuery.Proofs.Evaluate.View

/-! Instances of classes. If a class also stands for those below it, an edge pattern fits their
instances. All of these are found if the pattern asks for classes and nothing else, because they are
not looked up by their class then. A pattern that leaves room for other predicates is looked up by
its object, so that only the instances of the class itself are found for it. -/

namespace GraphQuery

namespace Source

variable {s : Source} {q : Query} {env : Environment} {n : NodePattern} {e : EdgePattern}
  {graph : Option NodePattern} {qs : List Quad} {ts : List Term} {o : Occurrence} {r : Quad}

/-! ### Patterns that ask for classes -/

/-- Whether all that a predicate allows among some quads relates instances to their classes. -/
def OnlyClasses (qs : List Quad) (q : Query) (env : Environment) (n : NodePattern) : Prop :=
  ∀ r ∈ qs, Allows q env n (some r.predicate) → r.predicate = .iri Iri.rdfType

theorem exists_of_mem_predicates (hs : s.store.Contains qs ts) {p : Node}
    (hp : p ∈ s.predicates q env n) : ∃ r ∈ qs, r.predicate = p.term := by
  unfold predicates at hp
  split at hp
  next t ht =>
    obtain ⟨⟨r, hr, hrp⟩, rfl⟩ := hs.propertyNode_eq_some.mp (Option.mem_toList.mp hp)
    exact ⟨r, hr, hrp⟩
  next => exact hs.mem_predicateNodes.mp (List.mem_map_of_mem hp)

/-- Nodes of one term only, of which no two are alike, are one node. -/
theorem SortedNodes.eq_singleton {ps : List Node} (h : s.SortedNodes ps) {p : Node} (hp : p ∈ ps)
    (hone : ∀ m ∈ ps, m.term = p.term) : ps = [p] := by
  cases ps with
  | nil => cases hp
  | cons m ps =>
    have hnil : ps = [] := List.eq_nil_iff_forall_not_mem.mpr fun m' hm' => by
      have hlt := (List.pairwise_cons.mp h).1 m' hm'
      rw [hone m List.mem_cons_self, hone m' (List.mem_cons_of_mem _ hm')] at hlt
      exact lt_irrefl _ hlt
    subst hnil
    rw [List.mem_singleton.mp hp]

theorem asksForType_iff (hs : s.store.Contains qs ts) (hr : r ∈ qs)
    (ha : Allows q env e.predicate (some r.predicate)) :
    s.asksForType q env e = true ↔ OnlyClasses qs q env e.predicate := by
  have hallows : ∀ r ∈ qs, (∃ p ∈ s.predicates q env e.predicate, r.predicate = p.term) ↔
      Allows q env e.predicate (some r.predicate) :=
    fun r hr => exists_predicate_iff hs.valid ((hs.holds r).mpr hr)
  obtain ⟨p, hp, hrp⟩ := (hallows r hr).mpr ha
  rw [asksForType]
  constructor
  · intro h r' hr' ha'
    obtain ⟨p', hp', hrp'⟩ := (hallows r' hr').mpr ha'
    split at h
    next m hm =>
      rw [hm, List.mem_singleton] at hp'
      rw [hrp', hp']
      exact beq_iff_eq.mp h
    next => cases h
  · intro h
    have htype : ∀ m ∈ s.predicates q env e.predicate, m.term = .iri Iri.rdfType := fun m hm => by
      obtain ⟨r', hr', hrm⟩ := exists_of_mem_predicates hs hm
      exact hrm ▸ h r' hr' ((hallows r' hr').mp ⟨m, hm, hrm⟩)
    have hone : ∀ m ∈ s.predicates q env e.predicate, m.term = p.term :=
      fun m hm => (htype m hm).trans (htype p hp).symm
    rw [(sorted_predicates hs.valid).eq_singleton hp hone]
    exact beq_iff_eq.mpr (htype p hp)

/-! ### What is looked up -/

/-- What is in the graph in force is kept, up to what a pattern sees of it. -/
theorem exists_mem_inForce (hs : s.store.Valid) (ho : s.store.Holds o.quad)
    {os : List Occurrence} (hos : o ∈ os)
    (hgraph : ∀ g, graph = some g → o.quad.graph.isSome ∧ Allows q env g o.quad.graph) :
    ∃ o' ∈ s.inForce q env graph [] os, o'.quad.seen graph = o.quad.seen graph := by
  cases graph with
  | none =>
    have hin : o ∈ os.filter (Occurrence.inOneOf []) := List.mem_filter.mpr ⟨hos, rfl⟩
    simp only [inForce, Occurrence.successiveDistinct]
    split_ifs
    · exact ⟨o, hin, rfl⟩
    · rcases Occurrence.exists_mem_dropRepeats none _ o hin with ⟨_, h, -⟩ | h
      · cases h
      · exact h
  | some g =>
    obtain ⟨hsome, ha⟩ := hgraph g rfl
    simp only [inForce]
    cases hl : s.lookup q env g .graph with
    | missing => exact (not_allows_of_missing hs hl ho (by simp) ha).elim
    | free => exact ⟨o, mem_inGraphs.mpr ⟨hos, hsome, by simp⟩, rfl⟩
    | found m =>
      refine ⟨o, mem_inGraphs.mpr ⟨hos, hsome, fun m' hm' => ?_⟩, rfl⟩
      obtain rfl := Option.some.inj hm'
      exact (allows_of_found hs hl).mp ha

theorem scanned_of_valid (hs : s.store.Valid) : s.Scanned graph (s.predicates q env e.predicate)
    (s.AllowsIndexed q env e graph (s.asksForType q env e))
    (s.scan q env e graph [] (s.predicates q env e.predicate) (s.asksForType q env e)) :=
  scanned_indexed hs (sorted_predicates hs) [] _ (fun _ => rfl) fun h => (h rfl).elim

/-- What is allowed by its predicate and by the places that it is looked up by is found. -/
theorem exists_mem_scanInForce (hs : s.store.Valid) (hr : s.store.Holds r)
    (hp : Allows q env e.predicate (some r.predicate))
    (hplaces : s.AllowsIndexed q env e graph (s.asksForType q env e) r)
    (hgraph : ∀ g, graph = some g → r.graph.isSome ∧ Allows q env g r.graph) :
    ∃ o ∈ s.scanInForce q env e graph [], o.quad.seen graph = r.seen graph := by
  obtain ⟨o, ho, rfl⟩ :=
    (scanned_of_valid hs).complete r hr ((exists_predicate_iff hs hr).mpr hp) hplaces
  exact exists_mem_inForce hs hr ho hgraph

/-- An index by graph is chosen only if the object is free. -/
theorem lookup_object_of_graph {m : Node}
    (h : s.selectIndex q env e graph false = .at .graph m) :
    s.lookup q env e.object .object = .free := by
  simp only [selectIndex, Bool.false_and, Bool.false_eq_true, if_false, List.cons_append,
    List.nil_append, List.foldr_cons] at h
  cases hsubject : s.lookup q env e.subject .subject with
  | missing => simp [hsubject] at h
  | found m' => simp [hsubject] at h
  | free =>
    cases hobject : s.lookup q env e.object .object with
    | missing => simp [hsubject, hobject] at h
    | found m' => simp [hsubject, hobject] at h
    | free => rfl

/-- A pattern that leaves room for other predicates is looked up by its object. -/
theorem allows_object_of_mem_scan (hs : s.store.Valid) {ps : List Node}
    (ho : o ∈ s.scan q env e graph [] ps false) : Allows q env e.object (some o.quad.object) := by
  have hfree : s.lookup q env e.object .object = .free →
      Allows q env e.object (some o.quad.object) := fun h t ht => by
    rw [(lookup_eq_free s .object).mp h] at ht
    cases ht
  have hflat : ∀ {bound second position},
      o ∈ (ps.flatMap fun p => s.store.edgesFor p bound second position) →
      ∃ p, o.quad ∈ (s.store.edgesFor p bound second position).map Occurrence.quad := fun ho => by
    obtain ⟨p, -, ho⟩ := List.mem_flatMap.mp ho
    exact ⟨p, List.mem_map_of_mem ho⟩
  have hc : s.Chosen q env _ _ := s.chosen_selectIndex e graph false
  unfold scan at ho
  cases hsel : s.selectIndex q env e graph false with
  | nothing => simp [hsel] at ho
  | all =>
    refine hfree ((lookup_eq_free s .object).mpr ?_)
    exact selectIndex_eq_all.mp hsel (.object, e.object) (by simp [indexed])
  | «at» position m =>
    rw [hsel] at hc
    obtain ⟨n, hn, hm⟩ := hc
    rcases mem_indexed hn with ⟨rfl, rfl⟩ | ⟨rfl, rfl⟩ | ⟨rfl, -⟩
    · simp only [hsel, Bool.false_eq_true, if_false] at ho
      cases hobject : s.lookup q env e.object .object with
      | missing => simp [hobject] at ho
      | free => exact hfree hobject
      | found m' =>
        simp only [hobject] at ho
        obtain ⟨p, ho⟩ := hflat ho
        exact (allows_of_found hs hobject).mpr
          (congrArg some ((hs.mem_edgesFor_subject.mp ho).2.2.2 m' rfl))
    · simp only [hsel] at ho
      obtain ⟨p, ho⟩ := hflat ho
      exact (allows_of_found hs hm).mpr (congrArg some (hs.mem_edgesFor_object.mp ho).2.2.1)
    · exact hfree (lookup_object_of_graph hsel)

/-! ### What is found -/

theorem mem_scanInForce_of_mem_matchEdge {from_ : List Term}
    (ho : o ∈ s.matchEdge q env e graph from_) : o ∈ s.scanInForce q env e graph from_ := by
  rw [matchEdge_eq] at ho
  split_ifs at ho
  · unfold Occurrence.matching at ho
    split at ho
    · exact ho
    · exact (List.mem_filter.mp ho).1
  · exact ho

/-- What is found is looked up by its predicate, and by its object as well unless there is nothing
but classes to be found. -/
theorem allows_of_mem_matchEdge (hs : s.store.Valid) (ho : o ∈ s.matchEdge q env e graph []) :
    s.store.Holds o.quad ∧ Allows q env e.predicate (some o.quad.predicate) ∧
      (s.asksForType q env e = true ∨ Allows q env e.object (some o.quad.object)) := by
  have hscan := mem_of_mem_inForce (mem_scanInForce_of_mem_matchEdge ho)
  obtain ⟨hholds, hpredicate⟩ := (scanned_of_valid hs).sound o hscan
  refine ⟨hholds, (exists_predicate_iff hs hholds).mp hpredicate, ?_⟩
  cases htype : s.asksForType q env e with
  | true => exact .inl rfl
  | false =>
    rw [htype] at hscan
    exact .inr (allows_object_of_mem_scan hs hscan)

/-- Whether a quad fits the places of a pattern, where a class stands for those below it. -/
structure FitsPlaces (qs : List Quad) (q : Query) (env : Environment) (e : EdgePattern)
    (graph : Option NodePattern) (r : Quad) : Prop where
  subject : Allows q env e.subject (some r.subject)
  object : ∀ t, valueOf? q env e.object = some t → Below qs r.object t.canonical
  graph : ∀ g, graph = some g → r.graph.isSome ∧ Allows q env g r.graph

namespace FitsPlaces

/-- No instance is missed if there is nothing but classes to be found. -/
theorem exists_mem_of_asksForType (h : FitsPlaces qs q env e graph r)
    (hs : s.store.Contains qs ts) (hentailment : s.store.entailment = true) (hr : r ∈ qs)
    (hp : Allows q env e.predicate (some r.predicate)) (htype : s.asksForType q env e = true) :
    ∃ o ∈ s.matchEdge q env e graph [], o.quad.seen graph = r.seen graph := by
  have hindexed : s.AllowsIndexed q env e graph (s.asksForType q env e) r := by
    simpa [AllowsIndexed, indexed, htype, hentailment, Quad.node] using
      ⟨h.subject, fun g hg => (h.graph g hg).2⟩
  obtain ⟨o, ho, hseen⟩ :=
    exists_mem_scanInForce hs.valid ((hs.holds r).mpr hr) hp hindexed h.graph
  refine ⟨o, ?_, hseen⟩
  rw [matchEdge_eq]
  split_ifs
  · unfold Occurrence.matching
    cases hl : s.lookup q env e.object .object with
    | free => exact ho
    | missing => exact ho
    | found m =>
      obtain ⟨t, ht⟩ := Option.ne_none_iff_exists'.mp fun hn => by
        rw [(lookup_eq_free s .object).mpr hn] at hl
        cases hl
      have hm : m.term = t.canonical :=
        Option.some.inj ((allows_of_found hs.valid hl).mpr rfl t ht)
      have hobject : o.edge.object.term = r.object := by
        rw [← s.store.dictionary.quad_occurrence r] at hseen
        exact (Occurrence.ends_of_seen hseen).2.2
      have hsubsumes : s.store.subsumes m o.edge.object = true := by
        rw [hs.subsumes_iff, hobject, hm]
        exact h.object t ht
      exact List.mem_filter.mpr ⟨ho, by rw [hsubsumes, Bool.or_true]⟩
  · exact ho

/-- What is of the class itself is found in any case. -/
theorem exists_mem_of_allows (h : FitsPlaces qs q env e graph r)
    (hs : s.store.Contains qs ts) (hr : r ∈ qs)
    (hp : Allows q env e.predicate (some r.predicate))
    (hobject : Allows q env e.object (some r.object)) (htype : s.asksForType q env e = false) :
    ∃ o ∈ s.matchEdge q env e graph [], o.quad.seen graph = r.seen graph := by
  have hplaces : AllowsPlaces q env e graph r :=
    ⟨h.subject, hobject, fun g hg => (h.graph g hg).2⟩
  rw [matchEdge_eq, htype, Bool.and_false, if_neg Bool.false_ne_true]
  exact exists_mem_scanInForce hs.valid ((hs.holds r).mpr hr) hp (hplaces.allowsIndexed _) h.graph

/-- What fits is found if it has the predicate that it is looked up by, and it is of the class
itself or there is nothing but classes to be found. -/
theorem exists_mem_iff (h : FitsPlaces qs q env e graph r) (hs : s.store.Contains qs ts)
    (hentailment : s.store.entailment = true) (hr : r ∈ qs) :
    (∃ o ∈ s.matchEdge q env e graph [], o.quad.seen graph = r.seen graph) ↔
      Allows q env e.predicate (some r.predicate) ∧
        (Allows q env e.object (some r.object) ∨ OnlyClasses qs q env e.predicate) := by
  constructor
  · rintro ⟨o, ho, hseen⟩
    rw [← s.store.dictionary.quad_occurrence r] at hseen
    obtain ⟨-, hpredicate, hobject⟩ := Occurrence.ends_of_seen hseen
    obtain ⟨-, hp, htype⟩ := allows_of_mem_matchEdge hs.valid ho
    have hpredicate : o.quad.predicate = r.predicate := hpredicate
    have hobject : o.quad.object = r.object := hobject
    rw [hpredicate] at hp
    rw [asksForType_iff hs hr hp, hobject] at htype
    exact ⟨hp, htype.symm⟩
  · rintro ⟨hp, hobject⟩
    rw [← asksForType_iff hs hr hp] at hobject
    cases htype : s.asksForType q env e with
    | true => exact h.exists_mem_of_asksForType hs hentailment hr hp htype
    | false =>
      rw [htype] at hobject
      exact h.exists_mem_of_allows hs hr hp (hobject.resolve_right Bool.false_ne_true) htype

end FitsPlaces

end Source

namespace Context

variable {c : Context} {env env' : Environment} {e : EdgePattern} {graph : Option NodePattern}
  {n : NodePattern} {qs : List Quad} {ts : List Term} {o : Occurrence} {v w : Variable}
  {t u : Term}

open Source (Allows FitsPlaces OnlyClasses valueOf?)

/-! ### What fits -/

/-- What is accepted as an object is of the class that is asked for, or of one below it. -/
theorem below_of_accepts (hs : c.source.store.Contains qs ts) (ho : o.quad ∈ qs)
    (h : c.Accepts o env (.object, n)) (ht : valueOf? c.query env n = some t) :
    Below qs o.quad.object t.canonical := by
  obtain ⟨m, hm, haccepts⟩ := h.2 t ht
  have hbelow : Below qs o.quad.object m.term := by
    change (_ || (_ && _ && _ && _)) = true at haccepts
    simp only [Bool.or_eq_true, Bool.and_eq_true] at haccepts
    rcases haccepts with hsame | ⟨-, hsubsumes⟩
    · exact Source.node_beq_iff.mp hsame ▸ .refl
    · exact hs.subsumes_iff.mp hsubsumes
  have hobject := (((hs.holds _).mpr ho).isCanonical hs.valid).2.2.1
  have hcanonical : m.term.IsCanonical := hs.isCanonical_of_below hobject hbelow
  rcases hm with hm | hm
  · rwa [← hm, hcanonical]
  · rwa [← hm]

theorem fitsPlaces_of_bindEdge (hs : c.source.store.Contains qs ts) (ho : o.quad ∈ qs)
    (h : c.bindEdge e graph o env = .ok (some env')) :
    FitsPlaces qs c.query env e graph o.quad := by
  have haccepts := accepts_of_bindEdge h
  obtain ⟨-, hsubject, -, hgraph⟩ := ((hs.holds _).mpr ho).isCanonical hs.valid
  constructor
  case subject =>
    refine (haccepts (.subject, e.subject) (by simp)).allows (.inr (by simp)) fun m hm => ?_
    exact Option.some.inj hm ▸ hsubject
  case object =>
    exact fun t ht => below_of_accepts hs ho (haccepts (.object, e.object) (by simp)) ht
  case graph =>
    intro g hg
    have hg := haccepts (.graph, g) (by simp [hg])
    refine ⟨(Option.isSome_map ..).trans hg.1, hg.allows (.inr (by simp)) fun m hm => ?_⟩
    exact hgraph m.term (congrArg (Option.map Node.term) hm)

/-- What a pattern fits has the predicate that it is looked up by, unless that is the local value of
a variable. -/
theorem allows_predicate_iff (hcanonical : o.quad.predicate.IsCanonical)
    (hp : ∀ t, e.predicate = .const t → o.quad.predicate = t.canonical)
    (h : c.bindEdge e graph o env = .ok (some env')) :
    Allows c.query env e.predicate (some o.quad.predicate) ↔
      ∀ v t, e.predicate = .var v → env.locals.get? v = some t →
        o.quad.predicate = t.canonical := by
  constructor
  · intro ha v t hv hl
    refine Option.some.inj (ha t ?_)
    rw [hv, valueOf?, Environment.get?, hl, Option.some_or]
  · intro hlocal t ht
    refine congrArg some ?_
    cases hn : e.predicate with
    | const t' =>
      rw [hn] at ht
      cases ht
      exact hp t hn
    | var v =>
      rw [hn] at ht
      cases hl : env.locals.get? v with
      | some t' =>
        rw [valueOf?, Environment.get?, hl, Option.some_or] at ht
        cases ht
        exact hlocal v t hn hl
      | none =>
        rw [valueOf?, Environment.get?, hl, Option.none_or] at ht
        simp only [bindEdge, hn, Environment.bind_of_bound ht] at h
        split_ifs at h with hsame
        · rw [hsame]
          exact hcanonical.symm
        · cases h

/-! ### Solutions -/

/-- Whether an edge pattern outside of graph clauses leads from one environment to another. -/
def SolvesEdge (c : Context) (e : EdgePattern) (env env' : Environment) : Prop :=
  ∃ o ∈ c.source.matchEdge c.query env e none [], c.bindEdge e none o env = .ok (some env')

/-- The class that is asked for, or that and those below it, going by the predicate. -/
theorem accepts_object_iff (hs : c.source.store.Contains qs ts) (hh : c.source.hierarchical = true)
    (hp : o.quad.predicate = .iri Iri.rdfType) :
    c.source.accepts o .object (.ofTerm t) = true ↔ Below qs o.quad.object t.canonical := by
  have htype : o.edge.isType = true := beq_iff_eq.mpr hp
  change (_ || (_ && _ && _ && _)) = true ↔ _
  rw [hh, htype, Bool.or_eq_true, Source.node_beq_iff]
  change _ ∨ c.source.store.subsumes _ _ = true ↔ _
  rw [hs.subsumes_iff]
  refine or_iff_right_of_imp fun hsame => ?_
  exact hsame ▸ .refl

/-- The edges of a pattern for the instances of a class. -/
theorem exists_accepted_iff (hs : c.source.store.Contains qs ts)
    (hh : c.source.hierarchical = true) (hentailment : c.source.store.entailment = true)
    (hfree : env.get? c.query v = none) :
    (∃ o ∈ c.source.matchEdge c.query env ⟨.var v, n, .const t⟩ none [],
        c.source.accepts o .object (.ofTerm t) = true ∧ o.quad.subject = u ∧
          o.quad.predicate = .iri Iri.rdfType) ↔
      ∃ r ∈ qs, r.subject = u ∧ r.predicate = .iri Iri.rdfType ∧
        Below qs r.object t.canonical ∧ Allows c.query env n (some (.iri Iri.rdfType)) ∧
          (r.object = t.canonical ∨ OnlyClasses qs c.query env n) := by
  have hfits : ∀ r : Quad, Below qs r.object t.canonical →
      FitsPlaces qs c.query env ⟨.var v, n, .const t⟩ none r := fun r hbelow =>
    { subject := fun t' ht' => by cases hfree.symm.trans ht'
      object := fun t' ht' => Option.some.inj ht' ▸ hbelow
      graph := fun g hg => by cases hg }
  have hobject : ∀ r : Quad, Allows c.query env (.const t) (some r.object) ↔
      r.object = t.canonical :=
    fun r => ⟨fun h => Option.some.inj (h t rfl), fun h t' ht' => by cases ht'; rw [h]⟩
  constructor
  · rintro ⟨o, ho, haccepts, hsubject, hp⟩
    have hr := (hs.holds _).mp (Source.allows_of_mem_matchEdge hs.valid ho).1
    have hbelow := (accepts_object_iff hs hh hp).mp haccepts
    have hfound := ((hfits o.quad hbelow).exists_mem_iff hs hentailment hr).mp ⟨o, ho, rfl⟩
    rw [hobject, hp] at hfound
    exact ⟨o.quad, hr, hsubject, hp, hbelow, hfound⟩
  · rintro ⟨r, hr, hsubject, hp, hbelow, hfound⟩
    rw [← hobject, ← hp] at hfound
    obtain ⟨o, ho, hseen⟩ := ((hfits r hbelow).exists_mem_iff hs hentailment hr).mpr hfound
    rw [← c.source.store.dictionary.quad_occurrence r] at hseen
    obtain ⟨hs', hp', ho'⟩ := Occurrence.ends_of_seen hseen
    have hpredicate : o.quad.predicate = .iri Iri.rdfType := hp'.trans hp
    refine ⟨o, ho, (accepts_object_iff hs hh hpredicate).mpr ?_, hs'.trans hsubject, hpredicate⟩
    rwa [show o.quad.object = r.object from ho']

theorem bindPositions_of_free (hv : v ∈ c.query.vars) (hfree : env.get? c.query v = none) :
    c.bindPositions o [(.subject, .var v), (.object, .const t)] env =
      .ok (if c.source.accepts o .object (.ofTerm t) then
        some (env.assign c.query v o.quad.subject) else none) := by
  have hbind := Environment.bind_of_free hv (Option.or_eq_none_iff.mp hfree).2 o.quad.subject
  have hsubject : c.bindPosition o .subject (.var v) env =
      .ok (some (env.assign c.query v o.quad.subject)) := by
    rw [← hbind]
    simp only [bindPosition, hfree]
    rfl
  have hobject : ∀ a : Environment, c.bindPosition o .object (.const t) a =
      .ok (if c.source.accepts o .object (.ofTerm t) then some a else none) := fun _ => rfl
  simp only [bindPositions, hsubject, hobject, Bind.bind, Except.bind]
  split_ifs <;> rfl

section Free

variable (hs : c.source.store.Contains qs ts) (hh : c.source.hierarchical = true)
  (hentailment : c.source.store.entailment = true)
  (hl : env.bindings.length = c.query.vars.length) (hv : v ∈ c.query.vars)
  (hfree : env.get? c.query v = none)

include hs hh hentailment hl hv hfree

/-- A pattern for the instances of a class finds all that are of the class or of one below it. -/
theorem exists_solvesEdge_type_iff :
    (∃ a, c.SolvesEdge ⟨.var v, .const (.iri Iri.rdfType), .const t⟩ env a ∧
        a.get? c.query v = some u) ↔
      ∃ r ∈ qs, r.subject = u ∧ r.predicate = .iri Iri.rdfType ∧
        Below qs r.object t.canonical := by
  have hedges := exists_accepted_iff (n := .const (.iri Iri.rdfType)) (t := t) (u := u) hs hh
    hentailment hfree
  have hallows : Allows c.query env (.const (.iri Iri.rdfType)) (some (.iri Iri.rdfType)) :=
    fun t ht => by cases ht; rfl
  have honly : OnlyClasses qs c.query env (.const (.iri Iri.rdfType)) :=
    fun r _ ha => Option.some.inj (ha _ rfl)
  simp only [hallows, honly, or_true, and_true] at hedges
  rw [← hedges]
  have hbind : ∀ o : Occurrence,
      c.bindEdge ⟨.var v, .const (.iri Iri.rdfType), .const t⟩ none o env =
        .ok (if c.source.accepts o .object (.ofTerm t) then
          some (env.assign c.query v o.quad.subject) else none) :=
    fun _ => bindPositions_of_free hv hfree
  have hvalue : ∀ u, (env.assign c.query v u).get? c.query v = some u := fun u => by
    rw [Environment.get_assign hl hv hfree, if_pos rfl]
  constructor
  · rintro ⟨a, ⟨o, ho, ha⟩, hu⟩
    have hp := (Source.allows_of_mem_matchEdge hs.valid ho).2.1 _ rfl
    rw [hbind] at ha
    split_ifs at ha with haccepts
    · cases ha
      rw [hvalue] at hu
      exact ⟨o, ho, haccepts, Option.some.inj hu, Option.some.inj hp⟩
    · cases ha
  · rintro ⟨o, ho, haccepts, rfl, -⟩
    exact ⟨_, ⟨o, ho, by rw [hbind, if_pos haccepts]⟩, hvalue _⟩

/-- A pattern with a free predicate finds those only that are of the class itself. -/
theorem exists_solvesEdge_free_iff (hw : w ∈ c.query.vars) (hfree' : env.get? c.query w = none)
    (hvw : v ≠ w) :
    (∃ a, c.SolvesEdge ⟨.var v, .var w, .const t⟩ env a ∧ a.get? c.query v = some u ∧
        a.get? c.query w = some (.iri Iri.rdfType)) ↔
      ∃ r ∈ qs, r.subject = u ∧ r.predicate = .iri Iri.rdfType ∧ r.object = t.canonical := by
  have hedges := exists_accepted_iff (n := .var w) (t := t) (u := u) hs hh hentailment hfree
  have hallows : ∀ x : Option Term, Allows c.query env (.var w) x :=
    fun x t ht => by cases hfree'.symm.trans ht
  have hclass : ∀ r : Quad, (Below qs r.object t.canonical ∧
      Allows c.query env (.var w) (some (.iri Iri.rdfType)) ∧
      (r.object = t.canonical ∨ OnlyClasses qs c.query env (.var w))) ↔
        r.object = t.canonical := by
    intro r
    constructor
    · rintro ⟨hbelow, -, hsame | honly⟩
      · exact hsame
      · -- Without other predicates, no class is below another one.
        rcases hbelow.cases_tail with hsame | ⟨_, -, r', hr', -, hp, -⟩
        · exact hsame.symm
        · exact absurd (hp.symm.trans (honly r' hr' (hallows _))) (by decide)
    · intro hsame
      exact ⟨hsame ▸ .refl, hallows _, .inl hsame⟩
  simp only [hclass] at hedges
  rw [← hedges]
  have hbind : ∀ o : Occurrence, c.bindEdge ⟨.var v, .var w, .const t⟩ none o env =
      .ok (if c.source.accepts o .object (.ofTerm t) then
        some ((env.assign c.query w o.quad.predicate).assign c.query v o.quad.subject)
      else none) := by
    intro o
    rw [← bindPositions_of_free hv (by rw [Environment.get_assign hl hw hfree', if_neg hvw, hfree])]
    simp only [bindEdge, Environment.bind_of_free hw (Option.or_eq_none_iff.mp hfree').2]
    rfl
  have hvalue : ∀ p u, ((env.assign c.query w p).assign c.query v u).get? c.query v = some u ∧
      ((env.assign c.query w p).assign c.query v u).get? c.query w = some p := by
    intro p u
    have hfree₁ : (env.assign c.query w p).get? c.query v = none := by
      rw [Environment.get_assign hl hw hfree', if_neg hvw, hfree]
    have hl₁ : (env.assign c.query w p).bindings.length = c.query.vars.length := by
      rw [Environment.length_assign, hl]
    rw [Environment.get_assign hl₁ hv hfree₁, Environment.get_assign hl₁ hv hfree₁, if_pos rfl,
      if_neg hvw.symm, Environment.get_assign hl hw hfree', if_pos rfl]
    exact ⟨rfl, rfl⟩
  constructor
  · rintro ⟨a, ⟨o, ho, ha⟩, hu, hp⟩
    rw [hbind] at ha
    split_ifs at ha with haccepts
    · cases ha
      rw [(hvalue _ _).1] at hu
      rw [(hvalue _ _).2] at hp
      exact ⟨o, ho, haccepts, Option.some.inj hu, Option.some.inj hp⟩
    · cases ha
  · rintro ⟨o, ho, haccepts, rfl, hp⟩
    refine ⟨_, ⟨o, ho, by rw [hbind, if_pos haccepts]⟩, (hvalue _ _).1, ?_⟩
    rw [(hvalue _ _).2, hp]

end Free

/-- Where classes stand for those below them, a stored occurrence that an edge pattern fits is found
exactly if no local value of its predicate says otherwise, and it is of the class itself or there is
nothing but classes to be found. So what a free predicate finds of the instances of a class is what
the predicate for classes finds exactly if each instance of a class below is one of the class as
well. -/
theorem exists_mem_matchEdge_iff {history : List Insertion} {options : Options}
    (hsource : c.source = { store := .after true history, options })
    (htypes : options.typeMatching = true) :
    let qs := history.flatMap Insertion.quads
    (∀ (e : EdgePattern) (graph : Option NodePattern) (env env' : Environment) (o : Occurrence),
      o.quad ∈ qs → (∀ t, e.predicate = .const t → o.quad.predicate = t.canonical) →
      c.bindEdge e graph o env = .ok (some env') →
      ((∃ o' ∈ c.source.matchEdge c.query env e graph [],
          o'.quad.seen graph = o.quad.seen graph) ↔
        (∀ v t, e.predicate = .var v → env.locals.get? v = some t →
            o.quad.predicate = t.canonical) ∧
          (Allows c.query env e.object (some o.quad.object) ∨
            OnlyClasses qs c.query env e.predicate))) ∧
      ∀ (v w : Variable) (t : Term) (env : Environment), v ∈ c.query.vars → w ∈ c.query.vars →
        v ≠ w → env.bindings.length = c.query.vars.length → env.get? c.query v = none →
        env.get? c.query w = none →
        ((∀ u, (∃ a, c.SolvesEdge ⟨.var v, .var w, .const t⟩ env a ∧
              a.get? c.query v = some u ∧ a.get? c.query w = some (.iri Iri.rdfType)) ↔
            ∃ a, c.SolvesEdge ⟨.var v, .const (.iri Iri.rdfType), .const t⟩ env a ∧
              a.get? c.query v = some u) ↔
          ∀ r ∈ qs, r.predicate = .iri Iri.rdfType → Below qs r.object t.canonical →
            ∃ r' ∈ qs, r'.subject = r.subject ∧ r'.predicate = .iri Iri.rdfType ∧
              r'.object = t.canonical) := by
  intro qs
  have hs : c.source.store.Contains qs (history.flatMap Insertion.names) := by
    rw [hsource]
    exact Store.contains_after true history
  have hentailment : c.source.store.entailment = true := by
    rw [hsource]
    exact Store.entailment_after true history
  have hh : c.source.hierarchical = true := by
    rw [hsource]
    dsimp only
    rw [htypes, Store.entailment_after]
    rfl
  constructor
  · intro e graph env env' o ho hp hb
    have hcanonical := (((hs.holds _).mpr ho).isCanonical hs.valid).1
    rw [← allows_predicate_iff hcanonical hp hb]
    exact (fitsPlaces_of_bindEdge hs ho hb).exists_mem_iff hs hentailment ho
  · intro v w t env hv hw hvw hl hfree hfree'
    simp only [exists_solvesEdge_free_iff hs hh hentailment hl hv hfree hw hfree' hvw,
      exists_solvesEdge_type_iff hs hh hentailment hl hv hfree]
    constructor
    · intro h r hr hp hbelow
      exact (h r.subject).mpr ⟨r, hr, rfl, hp, hbelow⟩
    · intro h u
      constructor
      · rintro ⟨r, hr, hu, hp, ho⟩
        exact ⟨r, hr, hu, hp, ho ▸ .refl⟩
      · rintro ⟨r, hr, rfl, hp, hbelow⟩
        exact h r hr hp hbelow

/-- An instance of a class and of the one below it is found for both by the predicate for classes,
and it is a solution of a free predicate as well. -/
theorem exists_mem_matchEdge_iff_of_both :
    let x : Term := .iri ⟨"x"⟩
    let lower : Term := .iri ⟨"D"⟩
    let upper : Term := .iri ⟨"C"⟩
    let type : Term := .iri Iri.rdfType
    let history : List Insertion := [.extend [⟨lower, .iri Iri.subClassOf, upper, none⟩,
      ⟨x, type, lower, none⟩, ⟨x, type, upper, none⟩]]
    let v : Variable := ⟨"v"⟩
    let w : Variable := ⟨"w"⟩
    let c : Context :=
      { query := .ofParts { body := .edge ⟨.var v, .var w, .const upper⟩ }
        source := { store := .after true history, options := { typeMatching := true } } }
    let env := Environment.initial c.query
    (∃ o ∈ c.source.matchEdge c.query env ⟨.var v, .const type, .const upper⟩ none [],
        o.quad.seen none = ⟨x, type, lower, none⟩) ∧
      ∀ u, (∃ a, c.SolvesEdge ⟨.var v, .var w, .const upper⟩ env a ∧
            a.get? c.query v = some u ∧ a.get? c.query w = some type) ↔
          ∃ a, c.SolvesEdge ⟨.var v, .const type, .const upper⟩ env a ∧
            a.get? c.query v = some u := by
  intro x lower upper type history v w c env
  have hsource : c.source =
      { store := .after true history, options := { typeMatching := true } } := rfl
  obtain ⟨hfound, hsame⟩ := exists_mem_matchEdge_iff hsource rfl
  constructor
  · let e : EdgePattern := ⟨.var v, .const type, .const upper⟩
    let o : Occurrence := ⟨⟨⟨x, none⟩, ⟨type, none⟩, ⟨lower, none⟩⟩, none⟩
    have hfits : (c.bindEdge e none o env).toOption.map (·.map (·.bindings)) =
        some (some [some x, none]) := by decide +kernel
    obtain ⟨_ | env', hb, hnone⟩ := exists_of_toOption hfits
    · cases hnone
    refine (hfound e none env env' o (by decide +kernel) (fun t ht => ?_) hb).mpr
      ⟨fun v t hv => ?_, .inr fun r _ ha => Option.some.inj (ha _ rfl)⟩
    · cases ht
      rfl
    · cases hv
  · refine (hsame v w upper env (by decide +kernel) (by decide +kernel) (by decide) rfl rfl
      rfl).mpr fun r hr hp _ => ?_
    have hboth : ∀ r ∈ history.flatMap Insertion.quads, r.predicate = type →
        ∃ r' ∈ history.flatMap Insertion.quads, r'.subject = r.subject ∧ r'.predicate = type ∧
          r'.object = upper := by decide +kernel
    exact hboth r hr hp

/-- An instance of a class below fits a free predicate, but it is not found. -/
theorem not_exists_mem_matchEdge :
    let x : Term := .iri ⟨"x"⟩
    let lower : Term := .iri ⟨"D"⟩
    let upper : Term := .iri ⟨"C"⟩
    let history : List Insertion := [.extend [⟨lower, .iri Iri.subClassOf, upper, none⟩,
      ⟨x, .iri Iri.rdfType, lower, none⟩]]
    let c : Context :=
      { query := .ofParts { body := .edge ⟨.var ⟨"x"⟩, .var ⟨"p"⟩, .const upper⟩ }
        source := { store := .after true history, options := { typeMatching := true } } }
    ¬ ∀ (e : EdgePattern) (graph : Option NodePattern) (env env' : Environment) (o : Occurrence),
      o.quad ∈ history.flatMap Insertion.quads →
      (∀ t, e.predicate = .const t → o.quad.predicate = t.canonical) →
      c.bindEdge e graph o env = .ok (some env') →
      ∃ o' ∈ c.source.matchEdge c.query env e graph [],
        o'.quad.seen graph = o.quad.seen graph := by
  intro x lower upper history c h
  let e : EdgePattern := ⟨.var ⟨"x"⟩, .var ⟨"p"⟩, .const upper⟩
  let o : Occurrence := ⟨⟨⟨x, none⟩, ⟨.iri Iri.rdfType, none⟩, ⟨lower, none⟩⟩, none⟩
  have hfits : (c.bindEdge e none o (.initial c.query)).toOption.map (·.map (·.bindings)) =
      some (some [some x, some (.iri Iri.rdfType)]) := by decide +kernel
  obtain ⟨_ | env', hb, hnone⟩ := exists_of_toOption hfits
  · cases hnone
  have hlost : ¬ ∃ o' ∈ c.source.matchEdge c.query (.initial c.query) e none [],
      o'.quad.seen none = o.quad.seen none := by decide +kernel
  exact hlost (h e none _ env' o (by decide +kernel) (fun t ht => by cases ht) hb)

end Context

end GraphQuery
