import GraphQuery.Proofs.Evaluate.BasicPattern
import GraphQuery.Proofs.Evaluate.Results
import GraphQuery.Proofs.Evaluate.Walk

/-! Path patterns. From an environment, a path pattern is solved once by each pair of nodes that its
path relates and that its ends can stand for, from whichever end the path is walked. -/

namespace GraphQuery

/-! ### Choices of a term -/

namespace Environment

variable {q : Query} {env : Environment} {n : NodePattern} {ts : List Term}

/-- Fits a place to each of some terms. -/
def fitEach (q : Query) (env : Environment) (n : NodePattern) (ts : List Term) : List Environment :=
  ts.zipIdx.filterMap fun (t, i) => (env.choose i).unify q n t

theorem mem_fitEach {e : Environment} :
    e ∈ env.fitEach q n ts ↔ ∃ t i, (t, i) ∈ ts.zipIdx ∧ (env.choose i).unify q n t = some e := by
  simp [fitEach, List.mem_filterMap]

/-- A place that is fitted to different terms takes each of them once. -/
theorem Fits.enumerates_fitEach (h : env.Fits q) (hn : ∀ v ∈ n.vars, v ∈ q.vars)
    (hts : ∀ t ∈ ts, t.IsCanonical) (hnd : ts.Nodup) :
    Enumerates q env n.vars (fun ν => ∃ t ∈ ts, ν.term? n = some t) (env.fitEach q n ts) := by
  have hsound : ∀ t i e, t ∈ ts → (env.choose i).unify q n t = some e →
      env.Onward q e ∧ (env.mapping q).Extends n.vars (e.mapping q) ∧
        (e.mapping q).term? n = some t := by
    intro t i e ht he
    obtain ⟨ho, hx, hterm⟩ := (h.onward.choose i).fits.unify_sound hn (hts t ht) he
    exact ⟨ho.of_choose, hx, hterm⟩
  constructor
  case sound =>
    intro e he
    obtain ⟨t, i, ht, he⟩ := mem_fitEach.mp he
    have ht := List.fst_mem_of_mem_zipIdx ht
    obtain ⟨ho, hx, hterm⟩ := hsound t i e ht he
    exact ⟨ho, hx, t, ht, hterm⟩
  case complete =>
    rintro ν hν ⟨t, ht, hterm⟩
    obtain ⟨i, hi⟩ := List.getElem?_of_mem ht
    obtain ⟨e, he, hpart⟩ := (h.onward.choose i).fits.unify_complete hn hν hterm
    exact ⟨e, mem_fitEach.mpr ⟨t, i, List.mem_zipIdx_iff_getElem?.mpr hi, he⟩, hpart⟩
  case distinct =>
    rw [← List.zipIdx_map_fst 0 ts, List.Nodup, List.pairwise_map] at hnd
    refine List.pairwise_filterMap.mpr (hnd.imp_of_mem fun {a b} ha hb hab x hx y hy ν hxν hyν => ?_)
    have hxa := (hsound a.1 a.2 x (List.fst_mem_of_mem_zipIdx ha) hx).2.2
    have hyb := (hsound b.1 b.2 y (List.fst_mem_of_mem_zipIdx hb) hy).2.2
    exact hab (Option.some.inj ((hxν.term hxa).symm.trans (hyν.term hyb)))

end Environment

theorem Enumerates.congr_on {q : Query} {env : Environment} {vs ws : List Variable}
    {P Q : Mapping → Prop} {l : List Environment} (h : Enumerates q env vs P l)
    (hv : ∀ v, v ∈ vs ↔ v ∈ ws) (hP : ∀ ν, (env.mapping q).IsPart ν → (P ν ↔ Q ν)) :
    Enumerates q env ws Q l where
  sound e he := by
    obtain ⟨ho, hx, hp⟩ := h.sound e he
    exact ⟨ho, hx.congr hv, (hP _ hx.isPart).mp hp⟩
  complete ν hν hQ := h.complete ν hν ((hP ν hν).mpr hQ)
  distinct := h.distinct

/-! ### Walks -/

namespace Context

variable {c : Context} {h : Hooks} {env : Environment} {p : PathPattern} {start target : NodePattern}
  {starts : List Term} {backwards : Bool}

/-- The environments at the ends of the walks that start in an environment. -/
def arrivals (c : Context) (p : PathPattern) (backwards : Bool) (start target : NodePattern)
    (e : Environment) : List Environment :=
  match (e.mapping c.query).term? start with
  | none => []
  | some t => e.fitEach c.query target (c.source.reach ⟨c.query, e, p⟩ p.path backwards t)

theorem solveEnds_eq {σ : Type} {next : Next σ} (hn : ∀ v ∈ target.vars, v ∈ c.query.vars)
    (ts : List Term) (s : σ) :
    c.solveEnds target ts env next s = Run.each next (env.fitEach c.query target ts) s := by
  refine Run.visit_eq_each_filterMap (fun i t => (env.choose i).unify c.query target t) ts
    (fun i t ht s => ?_) 0 s
  cases target with
  | const u =>
    simp only [Environment.unify]
    by_cases htu : t = u.canonical
    · simp [htu]
    · simp [htu, Ne.symm htu]
  | var v =>
    have hv : v ∈ c.query.vars := hn v (by simp [NodePattern.vars, NodePattern.asVariable])
    simp only [binding, Environment.bind_eq_unify hv, Run.ofExcept_ok, pure_bind]
    cases (env.choose i).unify c.query (.var v) t <;> simp

theorem bindStart_eq (hn : ∀ v ∈ start.vars, v ∈ c.query.vars) {t : Term}
    (ht : ∀ u, start = .const u → u.canonical = t) :
    c.bindStart start t env = .ok (env.unify c.query start t) := by
  cases start with
  | const u =>
    have hu := ht u rfl
    simp [bindStart, Environment.unify, hu, pure, Except.pure]
  | var v => exact Environment.bind_eq_unify (hn v (by simp [NodePattern.vars, NodePattern.asVariable])) t

/-- A path pattern hands on the ends of the walks from each of its starts. -/
theorem yields_path (hwalk : c.walk p env = (starts, backwards, start, target))
    (he : env.Fits c.query) (hstart : ∀ v ∈ start.vars, v ∈ c.query.vars)
    (htarget : ∀ v ∈ target.vars, v ∈ c.query.vars) (hts : ∀ t ∈ starts, t.IsCanonical)
    (hconst : ∀ t ∈ starts, ∀ u, start = .const u → u.canonical = t) :
    (Pattern.path p).Yields c h env
      ((env.fitEach c.query start starts).flatMap (c.arrivals p backwards start target)) := by
  intro σ next s
  rw [Pattern.solve, solvePath, hwalk, Run.each_flatMap]
  refine Run.visit_eq_each_filterMap (fun i t => (env.choose i).unify c.query start t) starts
    (fun i t ht s => ?_) 0 s
  rw [bindStart_eq hstart (hconst t ht), Run.ofExcept_ok, pure_bind]
  cases hu : (env.choose i).unify c.query start t with
  | none => rfl
  | some e =>
    have hterm := ((he.onward.choose i).fits.unify_sound hstart (hts t ht) hu).2.2
    simp only [Option.toList_some, Run.each_singleton, arrivals, hterm]
    exact solveEnds_eq htarget _ s

end Context

/-! ### Edges in force -/

/-- The edges that a path is walked along: those that were inserted into a graph in force. -/
def EdgeAfter (history : List Insertion) (q : Query) (env : Environment) (s p o : Term) : Prop :=
  ∃ g, ⟨s, p, o, g⟩ ∈ history.flatMap Insertion.quads ∧ InForce q env.graph (env.mapping q) g

/-- Whether a mapping sends the ends of a path pattern to nodes that the path relates. If both ends
are free, they are ends of edges in force. -/
def PathPattern.HoldsAfter (history : List Insertion) (q : Query) (env : Environment)
    (p : PathPattern) (ν : Mapping) : Prop :=
  ∃ s o, ν.term? p.subject = some s ∧ ν.term? p.object = some o ∧
    p.path.Relates (EdgeAfter history q env) s o ∧
    ((env.mapping q).term? p.subject = none → (env.mapping q).term? p.object = none →
      ∃ name t, EdgeAfter history q env s name t ∨ EdgeAfter history q env t name s)

namespace Environment

variable {q : Query} {env e : Environment} {n : NodePattern}

theorem Fits.term_eq (h : env.Fits q) :
    (env.mapping q).term? n = (Source.valueOf? q env n).map Term.canonical := by
  cases n with
  | const t => rfl
  | var v =>
    rw [Source.valueOf?, h.get_eq_lookup]
    change (env.mapping q).lookup v = _
    cases hl : (env.mapping q).lookup v with
    | none => rfl
    | some t => exact congrArg some (h.isCanonical hl).symm

theorem Fits.allows_iff (h : env.Fits q) {t : Term} (ht : (env.mapping q).term? n = some t)
    (g : Option Term) : Source.Allows q env n g ↔ g = some t := by
  rw [h.term_eq, Option.map_eq_some_iff] at ht
  obtain ⟨u, hu, rfl⟩ := ht
  exact ⟨fun ha => ha u hu, fun hg u' hu' => Option.some.inj (hu.symm.trans hu') ▸ hg⟩

end Environment

namespace Context

variable {c : Context} {h : Hooks} {env e : Environment} {p : PathPattern} {entailment : Bool}
  {history : List Insertion}

/-- What a path pattern is evaluated in: the whole dataset of a store with a history, with the
graph in force known. -/
structure Walks (c : Context) (entailment : Bool) (history : List Insertion)
    (env : Environment) : Prop where
  store : c.source.store = .after entailment history
  fromDefault : c.query.fromDefault = []
  fromNamed : c.query.fromNamed = []
  fits : env.Fits c.query
  graph : ∀ n, env.graph = some n → ∃ t, (env.mapping c.query).term? n = some t

theorem Walks.onward (hw : c.Walks entailment history env) (ho : env.Onward c.query e)
    (hp : (env.mapping c.query).IsPart (e.mapping c.query)) :
    c.Walks entailment history e where
  store := hw.store
  fromDefault := hw.fromDefault
  fromNamed := hw.fromNamed
  fits := ho.fits
  graph n hn := by
    obtain ⟨t, ht⟩ := hw.graph n (ho.graph ▸ hn)
    exact ⟨t, hp.term ht⟩

theorem Walks.contains (hw : c.Walks entailment history env) :
    c.source.store.Contains (history.flatMap Insertion.quads) (history.flatMap Insertion.names) :=
  hw.store ▸ Store.contains_after entailment history

theorem Walks.walkable (hw : c.Walks entailment history env) :
    c.source.Walkable c.query env where
  valid := hw.contains.valid
  unrestricted := by
    unfold Source.restriction
    split_ifs
    · exact hw.fromNamed
    · exact hw.fromDefault
  bound n hn := by
    obtain ⟨t, ht⟩ := hw.graph n hn
    rw [hw.fits.term_eq, Option.map_eq_some_iff] at ht
    obtain ⟨u, hu, -⟩ := ht
    exact ⟨u, hu⟩

/-- The stored edges in the graph in force are those that were inserted there. -/
theorem Walks.leads_eq (hw : c.Walks entailment history env) :
    c.source.Leads c.query env = EdgeAfter history c.query env := by
  funext s p o
  refine propext (exists_congr fun g => ?_)
  rw [hw.contains.holds]
  refine and_congr_right fun _ => ?_
  cases hg : env.graph with
  | none => exact ⟨fun _ => .inl hw.fromDefault, fun _ n hn => by cases hn⟩
  | some n =>
    obtain ⟨t, ht⟩ := hw.graph n hg
    have hallows := hw.fits.allows_iff ht g
    constructor
    · intro ha
      exact ⟨t, ht, hallows.mp (ha n rfl)⟩
    · rintro ⟨u, hu, rfl⟩ n' hn
      obtain rfl := Option.some.inj hn
      exact hallows.mpr (hu.symm.trans ht)

/-- On the way, the edges in force stay the same. -/
theorem Walks.edges_onward (hw : c.Walks entailment history env) (ho : env.Onward c.query e)
    (hp : (env.mapping c.query).IsPart (e.mapping c.query)) :
    EdgeAfter history c.query e = EdgeAfter history c.query env := by
  funext s p o
  refine propext (exists_congr fun g => and_congr_right fun _ => ?_)
  rw [ho.graph]
  cases hg : env.graph with
  | none => rfl
  | some n =>
    obtain ⟨t, ht⟩ := hw.graph n hg
    simp only [InForce, ht, hp.term ht]

/-! ### Solutions -/

variable {start target : NodePattern} {starts : List Term} {backwards : Bool}

/-- The ends of the walks that start in an environment are the nodes that the path leads to. -/
theorem Walks.enumerates_arrivals (hw : c.Walks entailment history env)
    (htarget : ∀ v ∈ target.vars, v ∈ c.query.vars) {t : Term}
    (ht : (env.mapping c.query).term? start = some t) :
    Enumerates c.query env target.vars (fun ν => ∃ u,
        p.path.RelatesTo (EdgeAfter history c.query env) backwards t u ∧ ν.term? target = some u)
      (c.arrivals p backwards start target env) := by
  have hcanonical : t.IsCanonical := by
    rw [hw.fits.term_eq, Option.map_eq_some_iff] at ht
    obtain ⟨u, -, rfl⟩ := ht
    exact u.isCanonical_canonical
  have hfinds : c.source.Finds ⟨c.query, env, p⟩ p.path backwards t :=
    Source.Walkable.finds hw.walkable p.path backwards hcanonical
  have hmem := hfinds.mem_iff
  simp only [hw.leads_eq] at hmem
  rw [arrivals, ht]
  refine (hw.fits.enumerates_fitEach htarget (fun u hu => ?_)
    (Source.nodup_reach _ _ _ _ _)).congr (fun _ => Iff.rfl) fun ν => ?_
  · exact Source.Walkable.canonical_of_mem (g := ⟨c.query, env, p⟩) hw.walkable hcanonical
      (hfinds.stored hu)
  · exact exists_congr fun u => and_congr_left fun _ => hmem u

/-- From some starts, a path pattern enumerates what the path relates the starts to. -/
theorem Walks.enumerates_walks (hw : c.Walks entailment history env)
    (hstart : ∀ v ∈ start.vars, v ∈ c.query.vars) (htarget : ∀ v ∈ target.vars, v ∈ c.query.vars)
    (hts : ∀ t ∈ starts, t.IsCanonical) (hnd : starts.Nodup) :
    Enumerates c.query env (start.vars ++ target.vars) (fun ν => ∃ t ∈ starts, ∃ u,
        ν.term? start = some t ∧ ν.term? target = some u ∧
        p.path.RelatesTo (EdgeAfter history c.query env) backwards t u)
      ((env.fitEach c.query start starts).flatMap (c.arrivals p backwards start target)) := by
  have hfit := hw.fits.enumerates_fitEach hstart hts hnd
  -- What the walks find depends on the start alone, which a mapping that extends knows.
  have harrive : ∀ e ∈ env.fitEach c.query start starts, Enumerates c.query e target.vars
      (fun ν => ∃ t u, ν.term? start = some t ∧
        p.path.RelatesTo (EdgeAfter history c.query env) backwards t u ∧ ν.term? target = some u)
      (c.arrivals p backwards start target e) := by
    intro e he
    obtain ⟨ho, hx, t, -, ht⟩ := hfit.sound e he
    have hwe := hw.onward ho hx.isPart
    have hedges := hw.edges_onward ho hx.isPart
    refine (hwe.enumerates_arrivals htarget ht).congr_on (fun _ => Iff.rfl) fun ν hν => ?_
    rw [hedges]
    constructor
    · rintro ⟨u, hr, hu⟩
      exact ⟨t, u, hν.term ht, hr, hu⟩
    · rintro ⟨t', u, ht', hr, hu⟩
      obtain rfl := Option.some.inj ((hν.term ht).symm.trans ht')
      exact ⟨u, hr, hu⟩
  refine (hfit.flatMap (fun μ ν hμν hμ => ?_) harrive).congr (fun _ => Iff.rfl) fun ν => ?_
  · obtain ⟨t, ht, hterm⟩ := hμ
    exact ⟨t, ht, hμν.term hterm⟩
  · constructor
    · rintro ⟨⟨t, ht, hterm⟩, t', u, ht', hr, hu⟩
      obtain rfl := Option.some.inj (hterm.symm.trans ht')
      exact ⟨t, ht, u, hterm, hu, hr⟩
    · rintro ⟨t, ht, u, hterm, hu, hr⟩
      exact ⟨⟨t, ht, hterm⟩, t, u, hterm, hr, hu⟩

/-- Where the walks of a path pattern start: at an end that is bound, or at all nodes. -/
theorem Walks.walk_eq (hw : c.Walks entailment history env) :
    c.walk p env =
      match (env.mapping c.query).term? p.subject, (env.mapping c.query).term? p.object with
      | some t, _ => ([t], false, p.subject, p.object)
      | none, some t => ([t], true, p.object, p.subject)
      | none, none => (c.source.startNodes c.query env, false, p.subject, p.object) := by
  have hwalk : c.walk p env =
      match (Source.valueOf? c.query env p.subject).map Term.canonical,
        (Source.valueOf? c.query env p.object).map Term.canonical with
      | some t, _ => ([t], false, p.subject, p.object)
      | none, some t => ([t], true, p.object, p.subject)
      | none, none => (c.source.startNodes c.query env, false, p.subject, p.object) := rfl
  rw [hwalk, hw.fits.term_eq, hw.fits.term_eq]

theorem Walks.isCanonical (hw : c.Walks entailment history env) {n : NodePattern} {t : Term}
    (ht : (env.mapping c.query).term? n = some t) : t.IsCanonical := by
  rw [hw.fits.term_eq, Option.map_eq_some_iff] at ht
  obtain ⟨u, -, rfl⟩ := ht
  exact u.isCanonical_canonical

theorem Walks.mem_startNodes (hw : c.Walks entailment history env) {t : Term} :
    t ∈ c.source.startNodes c.query env ↔ ∃ name u, EdgeAfter history c.query env t name u ∨
      EdgeAfter history c.query env u name t := by
  rw [hw.walkable.mem_startNodes, Source.Joins, hw.leads_eq]
  intro v t ht
  exact hw.isCanonical (n := .var v) (hw.fits.get_eq_lookup.symm.trans ht)

theorem Walks.canonical_startNodes (hw : c.Walks entailment history env) {t : Term}
    (ht : t ∈ c.source.startNodes c.query env) : t.IsCanonical := by
  obtain ⟨name, u, ⟨g, hr, -⟩ | ⟨g, hr, -⟩⟩ := hw.mem_startNodes.mp ht
  · exact (((hw.contains.holds _).mpr hr).isCanonical hw.contains.valid).2.1
  · exact (((hw.contains.holds _).mpr hr).isCanonical hw.contains.valid).2.2.1

/-- A path pattern is solved once by each extension of the bindings to its ends that sends them to
nodes that its path relates. -/
theorem Walks.enumerates_path (hw : c.Walks entailment history env)
    (hvars : ∀ v ∈ p.vars, v ∈ c.query.vars) :
    ∃ l, (Pattern.path p).Yields c h env l ∧
      Enumerates c.query env p.vars (p.HoldsAfter history c.query env) l := by
  have hsubject : ∀ v ∈ p.subject.vars, v ∈ c.query.vars := fun v hv =>
    hvars v (List.mem_append_left _ hv)
  have hobject : ∀ v ∈ p.object.vars, v ∈ c.query.vars := fun v hv =>
    hvars v (List.mem_append_right _ hv)
  have hconst : ∀ {n : NodePattern} {t : Term}, (env.mapping c.query).term? n = some t →
      ∀ a ∈ [t], ∀ u, n = .const u → u.canonical = a := by
    rintro n t ht a ha u rfl
    rw [List.mem_singleton.mp ha]
    exact Option.some.inj ht
  have hcanonical : ∀ {n : NodePattern} {t : Term}, (env.mapping c.query).term? n = some t →
      ∀ a ∈ [t], a.IsCanonical := fun ht a ha => List.mem_singleton.mp ha ▸ hw.isCanonical ht
  have hwalk := hw.walk_eq (p := p)
  cases hs : (env.mapping c.query).term? p.subject with
  | some t =>
    rw [hs] at hwalk
    refine ⟨_, yields_path hwalk hw.fits hsubject hobject (hcanonical hs) (hconst hs),
      (hw.enumerates_walks hsubject hobject (hcanonical hs) (List.nodup_singleton t)).congr_on
        (fun _ => Iff.rfl) fun ν hν => ?_⟩
    constructor
    · rintro ⟨a, -, u, ha, hu, hr⟩
      exact ⟨a, u, ha, hu, hr, fun hn => by simp [hs] at hn⟩
    · rintro ⟨a, u, ha, hu, hr, -⟩
      have hat := Option.some.inj (ha.symm.trans (hν.term hs))
      exact ⟨a, List.mem_singleton.mpr hat, u, ha, hu, hr⟩
  | none =>
    cases ho : (env.mapping c.query).term? p.object with
    | some t =>
      rw [hs, ho] at hwalk
      refine ⟨_, yields_path hwalk hw.fits hobject hsubject (hcanonical ho) (hconst ho),
        (hw.enumerates_walks hobject hsubject (hcanonical ho) (List.nodup_singleton t)).congr_on
          (fun v => ?_) fun ν hν => ?_⟩
      · rw [PathPattern.vars, List.mem_append, List.mem_append, or_comm]
      · constructor
        · rintro ⟨a, -, u, ha, hu, hr⟩
          exact ⟨u, a, hu, ha, hr, fun _ hn => by simp [ho] at hn⟩
        · rintro ⟨u, a, hu, ha, hr, -⟩
          have hat := Option.some.inj (ha.symm.trans (hν.term ho))
          exact ⟨a, List.mem_singleton.mpr hat, u, ha, hu, hr⟩
    | none =>
      rw [hs, ho] at hwalk
      have hnodes : ∀ t ∈ c.source.startNodes c.query env, t.IsCanonical := fun t ht =>
        hw.canonical_startNodes ht
      refine ⟨_, yields_path hwalk hw.fits hsubject hobject hnodes (fun _ _ u hu => ?_),
        (hw.enumerates_walks hsubject hobject hnodes hw.walkable.nodup_startNodes).congr_on
          (fun _ => Iff.rfl) fun ν hν => ?_⟩
      · rw [hu] at hs
        cases hs
      · simp only [hw.mem_startNodes]
        constructor
        · rintro ⟨a, ha, u, hta, hu, hr⟩
          exact ⟨a, u, hta, hu, hr, fun _ _ => ha⟩
        · rintro ⟨a, u, hta, hu, hr, ha⟩
          exact ⟨a, ha hs ho, u, hta, hu, hr⟩

/-- Paths mean their relation, from whichever end they are walked. In a store of any history, cyclic
or not, the search for a path pattern goes once to each extension of the bindings to the ends of the
pattern that sends them to nodes that the path relates along the edges in force. -/
theorem search_path (p : PathPattern) (hstore : c.source.store = .after entailment history)
    (hfrom : c.query.fromDefault = []) (hnamed : c.query.fromNamed = [])
    (henv : env.Fits c.query) (hvars : ∀ v ∈ p.vars, v ∈ c.query.vars)
    (hgraph : ∀ n, env.graph = some n → ∃ t, (env.mapping c.query).term? n = some t) :
    ∃ l, (Pattern.path p).GoesThrough c h env l ∧
      (∀ e ∈ l, env.Onward c.query e) ∧ (l.map (·.mapping c.query)).Nodup ∧
      ∀ ν, ν ∈ l.map (·.mapping c.query) ↔
        (env.mapping c.query).Extends p.vars ν ∧ p.HoldsAfter history c.query env ν := by
  have hw : c.Walks entailment history env := ⟨hstore, hfrom, hnamed, henv, hgraph⟩
  obtain ⟨l, hl, hen⟩ := hw.enumerates_path (h := h) hvars
  exact ⟨l, hl.goesThrough, fun e he => (hen.sound e he).1, hen.nodup, hen.mem_iff⟩

/-- Two edges that lead round in a circle lead from each of their ends back to it. -/
theorem search_path_of_circle :
    let p : PathPattern := ⟨.var ⟨"x"⟩, .oneOrMore (.predicate ⟨"p"⟩), .var ⟨"x"⟩⟩
    let history : List Insertion := [.extend [⟨.iri ⟨"a"⟩, .iri ⟨"p"⟩, .iri ⟨"b"⟩, none⟩,
      ⟨.iri ⟨"b"⟩, .iri ⟨"p"⟩, .iri ⟨"a"⟩, none⟩]]
    let c : Context :=
      { query := .ofParts { body := .path p }, source := { store := .after false history } }
    let h : Hooks := ⟨fun _ _ => pure none, fun _ _ => pure false⟩
    let m := Environment.initial c.query
    ∃ l, (Pattern.path p).GoesThrough c h m l ∧ (l.map (·.mapping c.query)).Nodup ∧
      Finmap.singleton ⟨"x"⟩ (.iri ⟨"a"⟩) ∈ l.map (·.mapping c.query) := by
  intro p history c h m
  obtain ⟨l, hl, -, hn, hm⟩ := search_path (c := c) (h := h) p rfl rfl rfl
    (Environment.fits_initial c.query) (by decide) fun n hn => by cases hn
  refine ⟨l, hl, hn, (hm _).mpr ⟨?_, .iri ⟨"a"⟩, .iri ⟨"a"⟩, rfl, rfl, ?_, ?_⟩⟩
  · rw [Environment.mapping_initial]
    exact ⟨Mapping.isPart_empty _, by decide, by decide⟩
  · have hab : (Path.predicate ⟨"p"⟩).Relates (EdgeAfter history c.query m) (.iri ⟨"a"⟩) (.iri ⟨"b"⟩) :=
      ⟨none, .head _, .inl rfl⟩
    have hba : (Path.predicate ⟨"p"⟩).Relates (EdgeAfter history c.query m) (.iri ⟨"b"⟩) (.iri ⟨"a"⟩) :=
      ⟨none, .tail _ (.head _), .inl rfl⟩
    exact .tail (.single hab) hba
  · intro _ _
    exact ⟨.iri ⟨"p"⟩, .iri ⟨"b"⟩, .inl ⟨none, .head _, .inl rfl⟩⟩

end Context

end GraphQuery
