import GraphQuery.Proofs.Evaluate.Candidates
import GraphQuery.Proofs.Evaluate.Solve

/-! Basic graph patterns. From an environment, a list of edge patterns is solved once by each
extension of the bindings that sends every pattern to a triple of the graph in force. -/

namespace GraphQuery

/-! ### Enumerating extensions -/

/-- Environments that enumerate the extensions of an environment to some variables that have a
property. -/
structure Enumerates (q : Query) (env : Environment) (vs : List Variable) (P : Mapping → Prop)
    (l : List Environment) : Prop where
  sound : ∀ e ∈ l, env.Onward q e ∧ (env.mapping q).Extends vs (e.mapping q) ∧ P (e.mapping q)
  complete : ∀ ν, (env.mapping q).IsPart ν → P ν → ∃ e ∈ l, (e.mapping q).IsPart ν
  distinct : l.Pairwise fun a b => ∀ ν, (a.mapping q).IsPart ν → ¬ (b.mapping q).IsPart ν

namespace Enumerates

variable {q : Query} {env : Environment} {vs ws : List Variable} {P Q : Mapping → Prop}
  {l : List Environment}

theorem nil (h : env.Fits q) (hP : ∀ ν, P ν) : Enumerates q env [] P [env] where
  sound e he := by
    rw [List.mem_singleton.mp he]
    exact ⟨h.onward, Mapping.extends_nil _, hP _⟩
  complete ν hν _ := ⟨env, by simp, hν⟩
  distinct := List.pairwise_singleton _ _

/-- Extending further enumerates what extends in both steps. -/
theorem flatMap {f : Environment → List Environment} (h : Enumerates q env vs P l)
    (hP : ∀ μ ν : Mapping, μ.IsPart ν → P μ → P ν)
    (hf : ∀ e ∈ l, Enumerates q e ws Q (f e)) :
    Enumerates q env (vs ++ ws) (fun ν => P ν ∧ Q ν) (l.flatMap f) where
  sound e he := by
    obtain ⟨a, ha, he⟩ := List.mem_flatMap.mp he
    obtain ⟨ho, hx, hp⟩ := h.sound a ha
    obtain ⟨ho', hx', hq⟩ := (hf a ha).sound e he
    exact ⟨ho.trans ho', hx.trans hx', hP _ _ hx'.isPart hp, hq⟩
  complete ν hν hPQ := by
    obtain ⟨a, ha, haν⟩ := h.complete ν hν hPQ.1
    obtain ⟨e, he, heν⟩ := (hf a ha).complete ν haν hPQ.2
    exact ⟨e, List.mem_flatMap.mpr ⟨a, ha, he⟩, heν⟩
  distinct := by
    refine List.pairwise_flatMap.mpr ⟨fun a ha => (hf a ha).distinct, ?_⟩
    refine h.distinct.imp_of_mem fun {a b} ha hb hab x hx y hy ν hxν hyν => ?_
    exact hab ν (((hf a ha).sound x hx).2.1.isPart.trans hxν)
      (((hf b hb).sound y hy).2.1.isPart.trans hyν)

theorem congr (h : Enumerates q env vs P l) (hv : ∀ v, v ∈ vs ↔ v ∈ ws)
    (hP : ∀ ν, P ν ↔ Q ν) : Enumerates q env ws Q l where
  sound e he := by
    obtain ⟨h₁, h₂, h₃⟩ := h.sound e he
    exact ⟨h₁, h₂.congr hv, (hP _).mp h₃⟩
  complete ν hν hQ := h.complete ν hν ((hP ν).mpr hQ)
  distinct := h.distinct

theorem nodup (h : Enumerates q env vs P l) : (l.map (·.mapping q)).Nodup := by
  refine List.pairwise_map.mpr (h.distinct.imp fun {a b} hab he => ?_)
  exact hab (b.mapping q) (he ▸ Mapping.isPart_refl _) (Mapping.isPart_refl _)

theorem mem_iff (h : Enumerates q env vs P l) (ν : Mapping) :
    ν ∈ l.map (·.mapping q) ↔ (env.mapping q).Extends vs ν ∧ P ν := by
  constructor
  · intro hν
    obtain ⟨e, he, rfl⟩ := List.mem_map.mp hν
    exact (h.sound e he).2
  · rintro ⟨hx, hp⟩
    obtain ⟨e, he, heν⟩ := h.complete ν hx.isPart hp
    exact List.mem_map.mpr ⟨e, he, (h.sound e he).2.1.eq_of_isPart hx heν⟩

end Enumerates

/-! ### One edge -/

namespace Context

variable {c : Context} {env : Environment} {o : Occurrence} {n : NodePattern} {position : Position}

theorem accepts_iff (hm : c.source.hierarchical = false) {actual expected : Node}
    (ho : o.node position = some actual) :
    c.source.accepts o position expected = decide (actual.term = expected.term) := by
  simp only [Source.accepts, ho, hm, Bool.false_and, Bool.or_false]
  exact Bool.eq_iff_iff.mpr (Source.node_beq_iff.trans decide_eq_true_iff.symm)

theorem bindPosition_eq (hm : c.source.hierarchical = false) (he : env.Fits c.query)
    (hn : ∀ v ∈ n.vars, v ∈ c.query.vars) {actual : Node} (ho : o.node position = some actual) :
    c.bindPosition o position n env = .ok (env.unify c.query n actual.term) := by
  simp only [bindPosition, ho]
  cases n with
  | const t =>
    simp [Environment.unify, accepts_iff hm ho, Node.ofTerm, eq_comm, pure, Except.pure]
  | var v =>
    have hv : v ∈ c.query.vars := hn v (by simp [NodePattern.vars, NodePattern.asVariable])
    simp only [Environment.get_eq_binding he.locals]
    cases hb : env.binding? c.query v with
    | none => exact Environment.bind_eq_unify hv _
    | some t => simp [Environment.unify, hb, accepts_iff hm ho, eq_comm, pure, Except.pure]

theorem bindPositions_eq (hm : c.source.hierarchical = false) (he : env.Fits c.query)
    (ps : List (Position × NodePattern × Node))
    (hps : ∀ p ∈ ps, (∀ v ∈ p.2.1.vars, v ∈ c.query.vars) ∧ p.2.2.term.IsCanonical ∧
      o.node p.1 = some p.2.2) :
    c.bindPositions o (ps.map fun p => (p.1, p.2.1)) env =
      .ok (Environment.unifyAll c.query (ps.map fun p => (p.2.1, p.2.2.term)) env) := by
  induction ps generalizing env with
  | nil => rfl
  | cons p ps ih =>
    obtain ⟨hp, hps⟩ := List.forall_mem_cons.mp hps
    simp only [List.map_cons, bindPositions, Environment.unifyAll,
      bindPosition_eq hm he hp.1 hp.2.2]
    cases hu : env.unify c.query p.2.1 p.2.2.term with
    | none => rfl
    | some env' => exact ih (he.unify_sound hp.1 hp.2.1 hu).1.fits hps

end Context

namespace EdgePattern

/-- What the places of a pattern are fitted to. -/
def places (e : EdgePattern) (graph : Option NodePattern) (r : Quad) : List (NodePattern × Term) :=
  [(e.predicate, r.predicate), (e.subject, r.subject), (e.object, r.object)] ++
    match graph, r.graph with
    | some g, some t => [(g, t)]
    | _, _ => []

/-- The variables that a pattern binds in the graph in force. -/
def domain (e : EdgePattern) (graph : Option NodePattern) : List Variable :=
  e.vars ++ (graph.map NodePattern.vars).getD []

theorem mem_places_vars {e : EdgePattern} {graph : Option NodePattern} {r : Quad}
    (hr : graph.isSome → r.graph.isSome) (v : Variable) :
    v ∈ (e.places graph r).flatMap (fun p => p.1.vars) ↔ v ∈ e.domain graph := by
  cases graph with
  | none => simp [places, domain, vars, or_left_comm]
  | some g =>
    obtain ⟨t, ht⟩ := Option.isSome_iff_exists.mp (hr rfl)
    simp [places, domain, vars, ht, or_left_comm]

theorem forall_places {e : EdgePattern} {graph : Option NodePattern} {r : Quad} {ν : Mapping} :
    (∀ p ∈ e.places graph r, ν.term? p.1 = some p.2) ↔
      (ν.term? e.predicate = some r.predicate ∧ ν.term? e.subject = some r.subject ∧
        ν.term? e.object = some r.object) ∧
      ∀ g t, graph = some g → r.graph = some t → ν.term? g = some t := by
  simp only [places, List.mem_append, List.mem_cons, List.not_mem_nil, or_false, or_imp,
    forall_and, forall_eq, and_congr_right_iff]
  intro _
  split
  next g t hr => simp [hr]
  next hn =>
    simp only [List.not_mem_nil, false_imp_iff, implies_true, true_iff]
    exact fun g t hg hr => absurd hr (hn g t hg)

theorem places_congr {e : EdgePattern} {graph : Option NodePattern} {r r' : Quad}
    (h : r.seen graph = r'.seen graph) : e.places graph r = e.places graph r' := by
  cases graph with
  | none =>
    simp only [Quad.seen, Option.isNone_none, if_true, Quad.triple, Quad.mk.injEq] at h
    simp [places, h]
  | some g =>
    rw [show r = r' from h]

theorem seen_eq {e : EdgePattern} {graph : Option NodePattern} {r r' : Quad} {ν : Mapping}
    (hr : graph.isSome → r.graph.isSome) (hr' : graph.isSome → r'.graph.isSome)
    (h : ∀ p ∈ e.places graph r, ν.term? p.1 = some p.2)
    (h' : ∀ p ∈ e.places graph r', ν.term? p.1 = some p.2) : r.seen graph = r'.seen graph := by
  obtain ⟨⟨hp, hs, ho⟩, hg⟩ := forall_places.mp h
  obtain ⟨⟨hp', hs', ho'⟩, hg'⟩ := forall_places.mp h'
  have hp := Option.some.inj (hp.symm.trans hp')
  have hs := Option.some.inj (hs.symm.trans hs')
  have ho := Option.some.inj (ho.symm.trans ho')
  cases graph with
  | none => simp [Quad.seen, Quad.triple, hp, hs, ho]
  | some g =>
    obtain ⟨t, ht⟩ := Option.isSome_iff_exists.mp (hr rfl)
    obtain ⟨t', ht'⟩ := Option.isSome_iff_exists.mp (hr' rfl)
    have hg := Option.some.inj ((hg g t rfl ht).symm.trans (hg' g t' rfl ht'))
    cases r
    cases r'
    simp_all [Quad.seen]

end EdgePattern

theorem Dictionary.Denotes.mem_terms {d : Dictionary} {k : Nat} {e : EncodedEdge} {r : Quad}
    (h : d.Denotes k e r) : r.predicate ∈ d.terms ∧ r.subject ∈ d.terms ∧ r.object ∈ d.terms ∧
      ∀ g, r.graph = some g → g ∈ d.terms := by
  have hm : ∀ {i t}, d.term? i = some t → t ∈ d.terms := List.mem_of_getElem?
  refine ⟨hm h.predicate, hm h.subject, hm h.object, fun g hg => ?_⟩
  have := h.graph
  rw [hg, Option.map_some, Option.map_eq_some_iff] at this
  obtain ⟨i, -, hi⟩ := this
  exact hm hi

theorem Dictionary.Denotes.isCanonical {d : Dictionary} {k : Nat} {e : EncodedEdge} {r : Quad}
    (h : d.Denotes k e r) (hd : d.Valid) :
    r.predicate.IsCanonical ∧ r.subject.IsCanonical ∧ r.object.IsCanonical ∧
      ∀ g, r.graph = some g → g.IsCanonical := by
  obtain ⟨hp, hs, ho, hg⟩ := h.mem_terms
  exact ⟨hd.canonical _ hp, hd.canonical _ hs, hd.canonical _ ho,
    fun g hgr => hd.canonical _ (hg g hgr)⟩

theorem Store.Holds.isCanonical {s : Store} {r : Quad} (h : s.Holds r) (hs : s.Valid) :
    r.predicate.IsCanonical ∧ r.subject.IsCanonical ∧ r.object.IsCanonical ∧
      ∀ g, r.graph = some g → g.IsCanonical := by
  obtain ⟨_, _, -, hd⟩ := h
  exact hd.isCanonical hs.dictionary

namespace Context

variable {c : Context} {env : Environment} {e : EdgePattern} {o : Occurrence}

/-- The variables of an edge pattern in the graph in force are those of the query. -/
def Declares (c : Context) (graph : Option NodePattern) (e : EdgePattern) : Prop :=
  ∀ v ∈ e.domain graph, v ∈ c.query.vars

instance (graph : Option NodePattern) : Decidable (c.Declares graph e) :=
  inferInstanceAs (Decidable (∀ v ∈ e.domain graph, v ∈ c.query.vars))

theorem declared_places {graph : Option NodePattern} {r : Quad} (hs : c.source.store.Valid)
    (hd : c.Declares graph e) (hr : c.source.store.Holds r)
    (hg : graph.isSome → r.graph.isSome) :
    Environment.Declared c.query (e.places graph r) := by
  obtain ⟨hp, hsub, ho, hgr⟩ := hr.isCanonical hs
  intro p hm
  refine ⟨fun v hv => hd v ((EdgePattern.mem_places_vars hg v).mp ?_), ?_⟩
  · exact List.mem_flatMap.mpr ⟨p, hm, hv⟩
  · simp only [EdgePattern.places, List.mem_append, List.mem_cons, List.not_mem_nil,
      or_false] at hm
    rcases hm with (rfl | rfl | rfl) | hm
    · exact hp
    · exact hsub
    · exact ho
    · split at hm
      next g t hrg =>
        rw [List.mem_singleton.mp hm]
        exact hgr t hrg
      next => simp at hm

/-- A constant predicate was looked up, and a free one takes that of the edge. -/
theorem bindEdge_start {graph : Option NodePattern} (hd : c.Declares graph e)
    (hp : Source.Allows c.query env e.predicate (some o.quad.predicate)) :
    c.bindEdge e graph o env = match env.unify c.query e.predicate o.quad.predicate with
      | none => .ok none
      | some env => c.bindPositions o ([(.subject, e.subject), (.object, e.object)]
          ++ (graph.map fun g => (Position.graph, g)).toList) env := by
  cases hpred : e.predicate with
  | const t =>
    have := hp t (by simp [hpred, Source.valueOf?])
    simp [bindEdge, hpred, Environment.unify, Option.some.inj this]
  | var v =>
    have hv : v ∈ c.query.vars := hd v (by
      simp [EdgePattern.domain, EdgePattern.vars, hpred, NodePattern.vars, NodePattern.asVariable])
    have hb : env.bind? c.query v o.edge.predicate.term =
        .ok (env.unify c.query (.var v) o.quad.predicate) := Environment.bind_eq_unify hv _
    simp only [bindEdge, hpred, hb]
    cases env.unify c.query (.var v) o.quad.predicate <;> rfl

theorem bindEdge_eq {graph : Option NodePattern} (hs : c.source.store.Valid)
    (hm : c.source.hierarchical = false) (he : env.Fits c.query) (hd : c.Declares graph e)
    (ho : c.source.store.Holds o.quad)
    (hp : Source.Allows c.query env e.predicate (some o.quad.predicate))
    (hg : graph.isSome → o.quad.graph.isSome) :
    c.bindEdge e graph o env =
      .ok (Environment.unifyAll c.query (e.places graph o.quad) env) := by
  have hplaces := c.declared_places hs hd ho hg
  let ends : List (Position × NodePattern × Node) :=
    [(.subject, e.subject, o.edge.subject), (.object, e.object, o.edge.object)] ++
      (graph.bind fun g => o.graph.map fun n => (Position.graph, g, n)).toList
  have hpos : ends.map (fun p => (p.1, p.2.1)) = [(.subject, e.subject), (.object, e.object)]
      ++ (graph.map fun g => (Position.graph, g)).toList := by
    cases graph with
    | none => rfl
    | some g =>
      cases hog : o.graph with
      | none => simp [Occurrence.quad, hog] at hg
      | some n => simp [ends, hog]
  have hterm : e.places graph o.quad =
      (e.predicate, o.quad.predicate) :: ends.map (fun p => (p.2.1, p.2.2.term)) := by
    cases graph with
    | none => rfl
    | some g =>
      cases hog : o.graph with
      | none => simp [Occurrence.quad, hog] at hg
      | some n => simp [ends, hog, EdgePattern.places, Occurrence.quad]
  rw [bindEdge_start hd hp, hterm, Environment.unifyAll, ← hpos]
  rw [hterm] at hplaces
  obtain ⟨h₁, h₂⟩ := List.forall_mem_cons.mp hplaces
  cases hu : env.unify c.query e.predicate o.quad.predicate with
  | none => rfl
  | some env' =>
    refine c.bindPositions_eq hm (he.unify_sound h₁.1 h₁.2 hu).1.fits ends fun p hp => ?_
    obtain ⟨hv, ht⟩ := h₂ (p.2.1, p.2.2.term) (List.mem_map_of_mem hp)
    refine ⟨hv, ht, ?_⟩
    simp only [ends, List.mem_append, List.mem_cons, List.not_mem_nil, or_false] at hp
    rcases hp with (rfl | rfl) | hp
    · rfl
    · rfl
    · obtain ⟨g, -, hgp⟩ := Option.bind_eq_some_iff.mp (Option.mem_toList.mp hp)
      obtain ⟨n, hon, rfl⟩ := Option.map_eq_some_iff.mp hgp
      exact hon

end Context

namespace Context

variable {c : Context} {h : Hooks} {env : Environment} {e : EdgePattern}
  {graph : Option NodePattern}

/-- What the matching of edges is sure of when every edge in the graph in force counts once. -/
structure MatchesEdges (c : Context) (graph : Option NodePattern) : Prop where
  valid : c.source.store.Valid
  duplicateTest : graph = none → c.source.options.skipDuplicateTest = false
  exactTypes : c.source.hierarchical = false
  anyName : graph.isSome → c.query.fromNamed = []
  someListed : graph = none → c.query.fromDefault ≠ [] →
    c.source.graphNodes c.query.fromDefault ≠ []

/-- Whether some stored quad that counts is what an edge pattern stands for. -/
def EdgeHolds (c : Context) (graph : Option NodePattern) (e : EdgePattern) (ν : Mapping) : Prop :=
  ∃ r, c.source.store.Holds r ∧ Source.Admits graph c.query.fromDefault r.graph ∧
    ∀ p ∈ e.places graph r, ν.term? p.1 = some p.2

theorem EdgeHolds.of_isPart {μ ν : Mapping} (hp : μ.IsPart ν) (he : c.EdgeHolds graph e μ) :
    c.EdgeHolds graph e ν := by
  obtain ⟨r, hr, hg, hμ⟩ := he
  exact ⟨r, hr, hg, fun p hm => hp.term (hμ p hm)⟩

theorem MatchesEdges.matched (hc : c.MatchesEdges env.graph) :
    c.source.Matched c.query env e env.graph c.query.fromDefault
      (c.source.matchEdge c.query env e env.graph (Source.restriction c.query env)) := by
  cases hg : env.graph with
  | none =>
    rw [hg] at hc
    simp only [Source.restriction, hg]
    exact Source.matched_matchEdge hc.valid hc.duplicateTest hc.exactTypes (by simp)
      (hc.someListed rfl)
  | some g =>
    rw [hg] at hc
    simp only [Source.restriction, hg, Option.isSome_some, if_true]
    have hm : c.source.Matched c.query env e (some g) c.query.fromNamed _ :=
      Source.matched_matchEdge hc.valid hc.duplicateTest hc.exactTypes hc.anyName
        (fun hf => absurd (hc.anyName rfl) hf)
    exact ⟨hm.sound, hm.complete, hm.distinct⟩

/-- What is bound already allows whatever the pattern stands for in an extension. -/
theorem allows_of_term {n : NodePattern} {ν : Mapping} {t : Term} (he : env.Fits c.query)
    (hp : (env.mapping c.query).IsPart ν) (ht : ν.term? n = some t) :
    Source.Allows c.query env n (some t) := by
  intro u hu
  cases n with
  | const t' =>
    obtain rfl := Option.some.inj hu
    exact ht.symm
  | var v =>
    have hl : (env.mapping c.query).lookup v = some u := by
      rw [← he.get_eq_lookup]
      exact hu
    have htu : t = u := Option.some.inj (ht.symm.trans (hp v u hl))
    rw [htu]
    exact congrArg some (he.isCanonical hl).symm

theorem admits_isSome {from_ : List Term} {g : Option Term} (ha : Source.Admits graph from_ g) :
    graph.isSome → g.isSome := by
  cases graph with
  | none => simp
  | some _ => exact fun _ => ha

/-- An edge pattern enumerates the extensions that send it to a stored quad that counts. -/
theorem enumerates_edge (hc : c.MatchesEdges env.graph) (he : env.Fits c.query)
    (hd : c.Declares env.graph e) :
    ∃ l, (Pattern.edge e).Yields c h env l ∧
      Enumerates c.query env (e.domain env.graph) (c.EdgeHolds env.graph e) l := by
  have hm := hc.matched (e := e)
  refine ⟨_, Pattern.yields_edge (r := fun o =>
    Environment.unifyAll c.query (e.places env.graph o.quad) env) fun o ho => ?_, ?_⟩
  · obtain ⟨hh, hp, hg⟩ := hm.sound o ho
    exact bindEdge_eq hc.valid hc.exactTypes he hd hh hp (admits_isSome hg)
  have hsound : ∀ o ∈ c.source.matchEdge c.query env e env.graph
      (Source.restriction c.query env), ∀ e',
      Environment.unifyAll c.query (e.places env.graph o.quad) env = some e' →
      env.Onward c.query e' ∧ (env.mapping c.query).Extends (e.domain env.graph)
        (e'.mapping c.query) ∧
        ∀ p ∈ e.places env.graph o.quad, (e'.mapping c.query).term? p.1 = some p.2 := by
    intro o ho e' he'
    obtain ⟨hh, hp, hg⟩ := hm.sound o ho
    have hg := admits_isSome hg
    obtain ⟨h₁, h₂, h₃⟩ := he.unifyAll_sound (c.declared_places hc.valid hd hh hg) he'
    exact ⟨h₁, h₂.congr (EdgePattern.mem_places_vars hg), h₃⟩
  constructor
  case sound =>
    intro e' he'
    obtain ⟨⟨o, i⟩, ho, he'⟩ := List.mem_filterMap.mp he'
    have ho := List.fst_mem_of_mem_zipIdx ho
    obtain ⟨e₁, he₁, rfl⟩ := Option.map_eq_some_iff.mp he'
    obtain ⟨h₁, h₂, h₃⟩ := hsound o ho e₁ he₁
    obtain ⟨hh, -, hg⟩ := hm.sound o ho
    exact ⟨h₁.choose i, h₂, o.quad, hh, hg, h₃⟩
  case complete =>
    rintro ν hν ⟨r, hr, hg, hp⟩
    obtain ⟨⟨hpred, hsub, hobj⟩, hgr⟩ := EdgePattern.forall_places.mp hp
    have hag : ∀ g, env.graph = some g → Source.Allows c.query env g r.graph := by
      intro g heg
      obtain ⟨t, ht⟩ := Option.isSome_iff_exists.mp (admits_isSome hg (by simp [heg]))
      exact ht ▸ allows_of_term he hν (hgr g t heg ht)
    obtain ⟨o, ho, hor⟩ := hm.complete r hr (allows_of_term he hν hpred)
      ⟨allows_of_term he hν hsub, allows_of_term he hν hobj, hag⟩ hg
    obtain ⟨hh, -, hgo⟩ := hm.sound o ho
    have hdecl := c.declared_places hc.valid hd hh (admits_isSome hgo)
    rw [← EdgePattern.places_congr hor] at hp
    obtain ⟨e', he', hpart⟩ := he.unifyAll_complete hdecl hν hp
    obtain ⟨i, hi⟩ := List.getElem?_of_mem ho
    exact ⟨e'.choose i, List.mem_filterMap.mpr ⟨(o, i), List.mem_zipIdx_iff_getElem?.mpr hi,
      by simp [he']⟩, hpart⟩
  case distinct =>
    have hz := hm.distinct
    rw [← List.zipIdx_map_fst 0 (c.source.matchEdge c.query env e env.graph
      (Source.restriction c.query env)), List.pairwise_map] at hz
    refine List.pairwise_filterMap.mpr (hz.imp_of_mem fun {a b} ha hb hab x hx y hy ν hxν hyν => ?_)
    obtain ⟨x₁, hx₁, rfl⟩ := Option.map_eq_some_iff.mp hx
    obtain ⟨y₁, hy₁, rfl⟩ := Option.map_eq_some_iff.mp hy
    have ha := List.fst_mem_of_mem_zipIdx ha
    have hb := List.fst_mem_of_mem_zipIdx hb
    refine hab (EdgePattern.seen_eq (e := e) (admits_isSome (hm.sound a.1 ha).2.2)
      (admits_isSome (hm.sound b.1 hb).2.2) (ν := ν) (fun p hp => ?_) fun p hp => ?_)
    · exact hxν.term ((hsound a.1 ha x₁ hx₁).2.2 p hp)
    · exact hyν.term ((hsound b.1 hb y₁ hy₁).2.2 p hp)

/-- Edge patterns that follow one another enumerate what extends all of them. -/
theorem enumerates_edges (es : List EdgePattern) (hc : c.MatchesEdges graph)
    (he : env.Fits c.query) (hg : env.graph = graph) (hd : ∀ e ∈ es, c.Declares graph e) :
    ∃ l, (Pattern.sequence (es.map .edge)).Yields c h env l ∧
      Enumerates c.query env (es.flatMap (·.domain graph))
        (fun ν => ∀ e ∈ es, c.EdgeHolds graph e ν) l := by
  induction es generalizing env with
  | nil => exact ⟨[env], Pattern.yields_nil env, .nil he (by simp)⟩
  | cons e es ih =>
    obtain ⟨hde, hdes⟩ := List.forall_mem_cons.mp hd
    subst hg
    obtain ⟨l, hl, hen⟩ := enumerates_edge (h := h) hc he hde
    have hrest : ∀ e' ∈ l, ∃ m, (Pattern.sequence (es.map .edge)).Yields c h e' m ∧
        Enumerates c.query e' (es.flatMap (·.domain env.graph))
          (fun ν => ∀ e ∈ es, c.EdgeHolds env.graph e ν) m := fun e' he' =>
      ih (hen.sound e' he').1.fits (hen.sound e' he').1.graph hdes
    choose! f hf using hrest
    refine ⟨l.flatMap f, hl.sequence_cons fun e' he' => (hf e' he').1, ?_⟩
    rw [List.flatMap_cons]
    refine (hen.flatMap (fun μ ν hp => EdgeHolds.of_isPart hp) fun e' he' => (hf e' he').2).congr
      (fun _ => Iff.rfl) fun ν => ?_
    rw [List.forall_mem_cons]

end Context

/-! ### Stores with a history -/

/-- Whether a triple in some graph, or in none, belongs to what a query asks under a mapping: to
the default graph as the query restricts it, or to the graph that the mapping assigns to the name
in force. -/
def InForce (q : Query) (graph : Option NodePattern) (ν : Mapping) (g : Option Term) : Prop :=
  match graph with
  | none => q.fromDefault = [] ∨ ∃ t ∈ q.fromDefault, g = some t.canonical
  | some n => ∃ t, ν.term? n = some t ∧ g = some t

/-- Whether a mapping sends an edge pattern to a triple that was inserted and is in force. -/
def EdgePattern.HoldsAfter (history : List Insertion) (q : Query) (graph : Option NodePattern)
    (e : EdgePattern) (ν : Mapping) : Prop :=
  ∃ s p o g, ν.term? e.subject = some s ∧ ν.term? e.predicate = some p ∧
    ν.term? e.object = some o ∧ ⟨s, p, o, g⟩ ∈ history.flatMap Insertion.quads ∧
    InForce q graph ν g

/-- What a query may ask of its dataset: a graph that is named, if it lists any to merge, and no
restriction of the graphs that names range over. -/
def DatasetNamed (history : List Insertion) (q : Query) : Option NodePattern → Prop
  | none => q.fromDefault = [] ∨
    ∃ t ∈ q.fromDefault, t.canonical ∈ history.flatMap Insertion.names
  | some _ => q.fromNamed = []

namespace Context

variable {c : Context} {h : Hooks} {env : Environment} {graph : Option NodePattern}
  {entailment : Bool} {history : List Insertion}

theorem matchesEdges_after (hstore : c.source.store = .after entailment history)
    (hdup : c.source.options.skipDuplicateTest = false) (htypes : c.source.hierarchical = false)
    (hdata : DatasetNamed history c.query graph) : c.MatchesEdges graph := by
  have hcont := Store.contains_after entailment history
  rw [← hstore] at hcont
  refine ⟨hcont.valid, fun _ => hdup, htypes, fun hg => ?_, fun hg hf => ?_⟩
  · obtain ⟨n, rfl⟩ := Option.isSome_iff_exists.mp hg
    exact hdata
  · subst hg
    obtain ⟨t, ht, hn⟩ := hdata.resolve_left hf
    obtain ⟨m, hm, -⟩ := hcont.valid.exists_graphNode ((hcont.names _).mpr hn)
    exact List.ne_nil_of_mem (List.mem_filterMap.mpr ⟨t, ht, hm⟩)

theorem edgeHolds_iff (hstore : c.source.store = .after entailment history) (e : EdgePattern)
    (ν : Mapping) : c.EdgeHolds graph e ν ↔ e.HoldsAfter history c.query graph ν := by
  have hcont := Store.contains_after entailment history
  rw [← hstore] at hcont
  simp only [EdgeHolds, EdgePattern.HoldsAfter, hcont.holds]
  constructor
  · rintro ⟨r, hr, hg, hp⟩
    obtain ⟨⟨hpred, hsub, hobj⟩, hgr⟩ := EdgePattern.forall_places.mp hp
    refine ⟨_, _, _, r.graph, hsub, hpred, hobj, hr, ?_⟩
    cases graph with
    | none => exact hg
    | some n =>
      obtain ⟨t, ht⟩ := Option.isSome_iff_exists.mp hg
      exact ⟨t, hgr n t rfl ht, ht⟩
  · rintro ⟨s, p, o, g, hs, hp, ho, hr, hg⟩
    refine ⟨_, hr, ?_, EdgePattern.forall_places.mpr ⟨⟨hp, hs, ho⟩, ?_⟩⟩
    · cases graph with
      | none => exact hg
      | some n =>
        obtain ⟨t, -, rfl⟩ := hg
        rfl
    · rintro n t rfl rfl
      obtain ⟨u, hu, ht⟩ := hg
      exact (Option.some.inj ht) ▸ hu

/-- A basic graph pattern is solved completely and without duplicates: it hands on one environment
for each extension of the bindings to its variables, and to the variable of the graph in force,
that sends all its edges to triples in force. -/
theorem basicPattern_solutions (es : List EdgePattern) (hes : es ≠ [])
    (hstore : c.source.store = .after entailment history)
    (hdup : c.source.options.skipDuplicateTest = false) (htypes : c.source.hierarchical = false)
    (henv : env.Fits c.query) (hvars : ∀ e ∈ es, c.Declares env.graph e)
    (hdata : DatasetNamed history c.query env.graph) :
    ∃ l, (Pattern.sequence (es.map .edge)).Yields c h env l ∧
      (∀ e ∈ l, env.Onward c.query e) ∧ (l.map (·.mapping c.query)).Nodup ∧
      ∀ ν, ν ∈ l.map (·.mapping c.query) ↔
        (env.mapping c.query).Extends
          (es.flatMap EdgePattern.vars ++ (env.graph.map NodePattern.vars).getD []) ν ∧
        ∀ e ∈ es, e.HoldsAfter history c.query env.graph ν := by
  obtain ⟨l, hl, hen⟩ := enumerates_edges (h := h) es
    (matchesEdges_after hstore hdup htypes hdata) henv rfl hvars
  have hen' : Enumerates c.query env
      (es.flatMap EdgePattern.vars ++ (env.graph.map NodePattern.vars).getD [])
      (fun ν => ∀ e ∈ es, e.HoldsAfter history c.query env.graph ν) l :=
    hen.congr (fun v => ?_) fun ν => ?_
  · exact ⟨l, hl, fun e he => (hen'.sound e he).1, hen'.nodup, hen'.mem_iff⟩
  · obtain ⟨e, he⟩ := List.exists_mem_of_ne_nil es hes
    simp only [List.mem_flatMap, List.mem_append, EdgePattern.domain]
    constructor
    · rintro ⟨a, ha, hv | hv⟩
      · exact .inl ⟨a, ha, hv⟩
      · exact .inr hv
    · rintro (⟨a, ha, hv⟩ | hv)
      · exact ⟨a, ha, .inl hv⟩
      · exact ⟨e, he, .inr hv⟩
  · exact forall₂_congr fun e _ => edgeHolds_iff hstore e ν

/-- One edge with two free ends finds the one triple of a store. -/
theorem basicPattern_solutions_of_triple :
    let e : EdgePattern := ⟨.var ⟨"x"⟩, .const (.iri ⟨"p"⟩), .var ⟨"y"⟩⟩
    let store := Store.after false [.extend [⟨.iri ⟨"a"⟩, .iri ⟨"p"⟩, .iri ⟨"b"⟩, none⟩]]
    let c : Context := { query := .ofParts { body := .sequence [.edge e] }, source := { store } }
    let h : Hooks := ⟨fun _ _ => pure none, fun _ _ => pure false⟩
    ∃ l, (Pattern.sequence [.edge e]).Yields c h (.initial c.query) l ∧
      (l.map (·.mapping c.query)).Nodup ∧
      (Finmap.singleton ⟨"x"⟩ (.iri ⟨"a"⟩)).insert ⟨"y"⟩ (.iri ⟨"b"⟩) ∈
        l.map (·.mapping c.query) := by
  intro e store c h
  obtain ⟨l, hl, -, hn, hm⟩ := basicPattern_solutions (c := c) (h := h) [e] (by simp) rfl rfl rfl
    (Environment.fits_initial c.query) (by decide) (.inl rfl)
  refine ⟨l, hl, hn, (hm _).mpr ⟨?_, ?_⟩⟩
  · rw [Environment.mapping_initial]
    exact ⟨Mapping.isPart_empty _, by decide, by decide⟩
  · intro e' he'
    rw [List.mem_singleton.mp he']
    exact ⟨_, _, _, none, rfl, rfl, rfl, .head _, .inl rfl⟩

end Context

end GraphQuery
