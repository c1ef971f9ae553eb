import GraphQuery.Evaluate.Answer
import GraphQuery.Proofs.Evaluate.Columns
import GraphQuery.Proofs.Evaluate.Declared
import GraphQuery.Proofs.Evaluate.Translation
import GraphQuery.Proofs.Evaluate.Walk

/-! Translating the evaluation of patterns. -/

namespace GraphQuery

variable {T : Translation} {D E : Realm} {q q' : Query}

/-! ### Candidates -/

/-- Whether an occurrence keeps its terms, and is told apart from none of the other terms. -/
structure Source.Fixes (s : Source) (τ : Term → Term) (o : Occurrence) : Prop where
  terms : o.Carries fun t => τ t = t
  accepts : ∀ (position : Position) (t : Term),
    s.accepts o position ⟨τ t, none⟩ = s.accepts o position ⟨t, none⟩

/-- Whether a store does not tell terms from what they are exchanged for, and holds none that
changes. -/
structure Source.Overlooks (s : Source) (τ : Term → Term) : Prop where
  node : ∀ t, s.store.node? (τ t) = s.store.node? t
  graphNode : ∀ t, s.store.graphNode? (τ t) = s.store.graphNode? t
  propertyNode : ∀ t, s.store.propertyNode? (τ t) = s.store.propertyNode? t
  nodes : ∀ t, s.store.nodes (some ⟨τ t, none⟩) = s.store.nodes (some ⟨t, none⟩)
  edge : ∀ (q : Query) (env : Environment) (e : EdgePattern) (graph : Option NodePattern)
    (from_ : List Term), ∀ o ∈ s.matchEdge q env e graph from_, s.Fixes τ o
  start : ∀ (q : Query) (env : Environment), ∀ t ∈ s.startNodes q env, τ t = t
  step : ∀ (g : Ground) (step : Path) (t : Term), ∀ u ∈ s.stepFrom g step t, τ u = u
  graph : ∀ names, ∀ g ∈ s.namedGraphs names, τ g.term = g.term

theorem Source.overlooks_id (s : Source) : s.Overlooks id where
  node _ := rfl
  graphNode _ := rfl
  propertyNode _ := rfl
  nodes _ := rfl
  edge _ _ _ _ _ _ _ := ⟨⟨rfl, fun _ _ _ => rfl⟩, fun _ _ => rfl⟩
  start _ _ _ _ := rfl
  step _ _ _ _ _ := rfl
  graph _ _ _ := rfl

namespace Query.Translates

variable {env : Environment} {s : Source} (hq : q.Translates q' T D)

include hq

theorem restriction_translated (env : Environment) :
    Source.restriction q' (env.translated T) = Source.restriction q env := by
  unfold Source.restriction
  rw [hq.fromDefault, hq.fromNamed]
  rfl

variable (ho : s.Overlooks T.term) (hs : D.slots env.bindings)

include ho hs

theorem lookup_translated (n : NodePattern) (position : Position) :
    s.lookup q' (env.translated T) n position = s.lookup q env n position := by
  cases n with
  | const t => rfl
  | var v =>
    rw [Source.lookup, Source.lookup, Source.valueOf?, Source.valueOf?, hq.get_translated hs]
    cases env.get? q v with
    | none => rfl
    | some t => simp only [Option.map_some, ho.node, ho.graphNode]

theorem inForce_translated (graph : Option NodePattern) (from_ : List Node) (os : List Occurrence) :
    s.inForce q' (env.translated T) graph from_ os = s.inForce q env graph from_ os := by
  unfold Source.inForce
  simp only [hq.lookup_translated ho hs]

theorem predicates_translated (n : NodePattern) :
    s.predicates q' (env.translated T) n = s.predicates q env n := by
  cases n with
  | const t => rfl
  | var v =>
    rw [Source.predicates, Source.predicates, Source.valueOf?, Source.valueOf?,
      hq.get_translated hs]
    cases env.get? q v with
    | none => rfl
    | some t => simp only [Option.map_some, ho.propertyNode]

theorem matchEdge_translated (e : EdgePattern) (graph : Option NodePattern) (from_ : List Term) :
    s.matchEdge q' (env.translated T) e graph from_ = s.matchEdge q env e graph from_ := by
  have hselect : ∀ isType, s.selectIndex q' (env.translated T) e graph isType =
      s.selectIndex q env e graph isType := fun isType => by
    unfold Source.selectIndex
    simp only [hq.lookup_translated ho hs]
  have hscan : ∀ ps isType, s.scan q' (env.translated T) e graph from_ ps isType =
      s.scan q env e graph from_ ps isType := fun ps isType => by
    unfold Source.scan
    simp only [hselect, hq.lookup_translated ho hs]
  unfold Source.matchEdge
  simp only [hq.predicates_translated ho hs, hscan, hq.inForce_translated ho hs,
    hq.lookup_translated ho hs]

/-- Steps from a term that is exchanged lead to the same nodes, none of which is. -/
theorem stepFrom_translated (p : PathPattern) (step : Path) (t : Term) :
    s.stepFrom ⟨q', env.translated T, p⟩ step (T.term t) =
      (s.stepFrom ⟨q, env, p⟩ step t).map T.term := by
  have hmatch : ∀ graph from_, s.matchStep q' (env.translated T) p step (some ⟨T.term t, none⟩)
      .subject graph from_ = s.matchStep q env p step (some ⟨t, none⟩) .subject graph from_ :=
    fun _ _ => by
      unfold Source.matchStep
      simp only [ho.node, hq.inForce_translated ho hs]
  have hsame : s.stepFrom ⟨q', env.translated T, p⟩ step (T.term t) =
      s.stepFrom ⟨q, env, p⟩ step t := by
    unfold Source.stepFrom
    simp only [hmatch, hq.restriction_translated]
    rfl
  rw [hsame, List.map_congr_left (ho.step _ step t), List.map_id']

theorem startNodes_translated :
    s.startNodes q' (env.translated T) = (s.startNodes q env).map T.term := by
  have hgraph : (env.translated T).graph = env.graph := rfl
  have hsame : s.startNodes q' (env.translated T) = s.startNodes q env := by
    unfold Source.startNodes
    rw [hgraph]
    rcases env.graph with _ | v | t
    · rfl
    · dsimp only
      rw [hq.get_translated hs]
      cases env.get? q v with
      | none => rfl
      | some g => simp only [Option.map_some, ho.nodes]
    · rfl
  rw [hsame, List.map_congr_left (ho.start q env), List.map_id']

end Query.Translates

/-! ### Binding -/

namespace Context

/-- Evaluation of another query on the same store, with another bound on the number of solutions. -/
def withQuery (c : Context) (q : Query) (limit : Option Nat) : Context :=
  { c.toScope.withQuery q with
    source := { c.source with options := { c.source.options with limit } } }

variable {c : Context} {env : Environment} {o : Occurrence}
  (hq : c.query.Translates q' T D) (limit : Option Nat) (hn : env.Along T D)

include hq hn

theorem bindPosition_translated (ho : c.source.Fixes T.term o) (position : Position)
    {n : NodePattern} (hv : ∀ v ∈ n.vars, D.names v) :
    (c.withQuery q' limit).bindPosition o position n (env.translated T) =
      (c.bindPosition o position n env).map (Option.map (·.translated T)) := by
  have haccepts : (c.withQuery q' limit).source.accepts o position = c.source.accepts o position :=
    rfl
  unfold bindPosition
  cases hnode : o.node position with
  | none => rfl
  | some actual =>
    cases n with
    | const t =>
      simp only [haccepts]
      split_ifs <;> rfl
    | var v =>
      have hget : (env.translated T).get? (c.withQuery q' limit).query v =
          (env.get? c.query v).map T.term := hq.get_translated hn.slots v
      simp only [hget, haccepts]
      cases env.get? c.query v with
      | some t =>
        simp only [Option.map_some, ho.accepts]
        split_ifs <;> rfl
      | none =>
        have hbind := hq.bind_translated hn.slots (NodePattern.forall_mem_vars.mp hv) actual.term
        rwa [ho.terms.2 position actual hnode] at hbind

theorem bindPositions_translated (ho : c.source.Fixes T.term o) {ps : List (Position × NodePattern)}
    (hps : ∀ p ∈ ps, ∀ v ∈ p.2.vars, D.names v) :
    (c.withQuery q' limit).bindPositions o ps (env.translated T) =
      (c.bindPositions o ps env).map (Option.map (·.translated T)) := by
  induction ps generalizing env with
  | nil => rfl
  | cons p ps ih =>
    obtain ⟨hp, hps⟩ := List.forall_mem_cons.mp hps
    rw [bindPositions, bindPositions, bindPosition_translated hq limit hn ho p.1 hp]
    cases hb : c.bindPosition o p.1 p.2 env with
    | error e => rfl
    | ok r =>
      cases r with
      | none => rfl
      | some m => exact ih (kept_bindPosition hq.stable o.carries_any hp hn hb) hps

/-- An edge pattern is fitted alike to an occurrence. -/
theorem bindEdge_translated (ho : c.source.Fixes T.term o) {e : EdgePattern}
    (he : ∀ v ∈ e.vars, D.names v) :
    (c.withQuery q' limit).bindEdge e env.graph o (env.translated T) =
      (c.bindEdge e env.graph o env).map (Option.map (·.translated T)) := by
  simp only [EdgePattern.vars, List.mem_append] at he
  have hps : ∀ p ∈ [(Position.subject, e.subject), (.object, e.object)] ++
      (env.graph.map fun g => (Position.graph, g)).toList, ∀ v ∈ p.2.vars, D.names v := by
    intro p hp v hv
    simp only [List.mem_append, List.mem_cons, List.not_mem_nil, or_false, Option.mem_toList,
      Option.map_eq_some_iff] at hp
    rcases hp with (rfl | rfl) | ⟨m, hm, rfl⟩
    · exact he v (.inl (.inl hv))
    · exact he v (.inr hv)
    · exact hn.graph m hm v hv
  unfold bindEdge
  cases hpred : e.predicate with
  | const t => exact bindPositions_translated hq limit hn ho hps
  | var v =>
    have hv : D.names v :=
      he v (.inl (.inr (by simp [hpred, NodePattern.vars, NodePattern.asVariable])))
    have hbind := hq.bind_translated hn.slots hv o.edge.predicate.term
    rw [ho.terms.1] at hbind
    dsimp only
    refine Eq.trans (congrArg (· >>= _) hbind) ?_
    cases hb : env.bind? c.query v o.edge.predicate.term with
    | error e => rfl
    | ok r =>
      cases r with
      | none => rfl
      | some m =>
        exact bindPositions_translated hq limit (hq.stable.bind _ _ _ _ hv trivial hn hb) ho hps

theorem bindRow_translated {row : List (Variable × Option Term)}
    (hv : ∀ cell ∈ row, D.names cell.1) (hk : ∀ cell ∈ row, ∀ t, cell.2 = some t → T.term t = t) :
    (c.withQuery q' limit).bindRow row (env.translated T) =
      (c.bindRow row env).map (Option.map (·.translated T)) := by
  induction row generalizing env with
  | nil => rfl
  | cons cell row ih =>
    obtain ⟨hc, hrow⟩ := List.forall_mem_cons.mp hv
    obtain ⟨hkc, hkrow⟩ := List.forall_mem_cons.mp hk
    obtain ⟨v, _ | t⟩ := cell
    · exact ih hn hrow hkrow
    · have hbind := hq.bind_translated hn.slots hc t.canonical
      rw [← T.exchanges.canonical, hkc t rfl] at hbind
      rw [bindRow, bindRow]
      refine Eq.trans (congrArg (· >>= _) hbind) ?_
      cases hb : env.bind? c.query v t.canonical with
      | error e => rfl
      | ok r =>
        cases r with
        | none => rfl
        | some m => exact ih (hq.stable.bind _ _ _ _ hc trivial hn hb) hrow hkrow

/-! ### Paths -/

theorem bindStart_translated {start : NodePattern} (hv : ∀ v ∈ start.vars, D.names v) (t : Term) :
    (c.withQuery q' limit).bindStart start (T.term t) (env.translated T) =
      (c.bindStart start t env).map (Option.map (·.translated T)) := by
  cases start with
  | const u => rfl
  | var v => exact hq.bind_translated hn.slots (NodePattern.forall_mem_vars.mp hv) t

theorem reach_translated (ho : c.source.Overlooks T.term) (p : PathPattern) (backwards : Bool)
    (t : Term) : (c.withQuery q' limit).source.reach
        ⟨(c.withQuery q' limit).query, env.translated T, p⟩ p.path backwards (T.term t) =
      (c.source.reach ⟨c.query, env, p⟩ p.path backwards t).map T.term := by
  refine Source.reach_map T.exchanges.injective (fun step t => ?_) ?_ p.path backwards t
  swap
  · rfl
  have hpredicates : (c.withQuery q' limit).source.stepPredicates? step =
      c.source.stepPredicates? step := by
    induction step with
    | inverse p ih => rw [Source.stepPredicates?, Source.stepPredicates?, ih]
    | _ => rfl
  rw [← hq.stepFrom_translated ho hn.slots p step t]
  unfold Source.stepFrom Source.matchStep
  rw [hpredicates]
  rfl

/-- The walks of a path start from the same terms, up to their translation. -/
theorem walk_translated (ho : c.source.Overlooks T.term) {p : PathPattern}
    (hk : ∀ n, n = p.subject ∨ n = p.object → ∀ t ∈ n.constants, T.term t = t) :
    (c.withQuery q' limit).walk p (env.translated T) =
      ((c.walk p env).1.map T.term, (c.walk p env).2) := by
  have hend : ∀ n, n = p.subject ∨ n = p.object →
      (Source.valueOf? (c.withQuery q' limit).query (env.translated T) n).map Term.canonical =
        ((Source.valueOf? c.query env n).map Term.canonical).map T.term := fun n hn' => by
    have hvalue : Source.valueOf? (c.withQuery q' limit).query (env.translated T) n =
        (Source.valueOf? c.query env n).map T.term := by
      cases n with
      | const t => exact congrArg some (hk _ hn' t List.mem_cons_self).symm
      | var v => exact hq.get_translated hn.slots v
    rw [hvalue, Option.map_map, Option.map_map]
    exact congrArg (Option.map · _) (funext T.exchanges.canonical)
  have hstart : (c.withQuery q' limit).source.startNodes (c.withQuery q' limit).query
      (env.translated T) = (c.source.startNodes c.query env).map T.term :=
    have hsame : c.source.startNodes q' (env.translated T) =
      (c.source.startNodes c.query env).map T.term := hq.startNodes_translated ho hn.slots
    hsame
  unfold walk
  simp only [hend _ (.inl rfl), hend _ (.inr rfl), hstart]
  cases Source.valueOf? c.query env p.subject with
  | some t => rfl
  | none =>
    cases Source.valueOf? c.query env p.object with
    | some t => rfl
    | none => rfl

theorem traceEnds_translated {target : NodePattern} (hv : ∀ v ∈ target.vars, D.names v)
    (hk : ∀ t ∈ target.constants, T.term t = t) (reached : List Term) :
    (c.withQuery q' limit).traceEnds target (reached.map T.term) (env.translated T) =
      (c.traceEnds target reached env).map (·.translated T) := by
  unfold traceEnds
  rw [Trace.map_visit, Trace.visit_map]
  refine Trace.visit_congr (fun i t _ => ?_) 0
  rw [← hn.translated_choose]
  cases target with
  | const u =>
    have hu : T.term u.canonical = u.canonical := by
      rw [← T.exchanges.canonical, hk u List.mem_cons_self]
    have hiff : T.term t = u.canonical ↔ t = u.canonical := by
      rw [← hu, T.exchanges.injective.eq_iff, hu]
    simp only [hiff]
    split_ifs <;> rfl
  | var v =>
    rw [Trace.map_ofBinding]
    exact congrArg Trace.ofBinding
      (hq.bind_translated (hn.choose i).slots (NodePattern.forall_mem_vars.mp hv) t)

theorem tracePath_translated (ho : c.source.Overlooks T.term) {p : PathPattern}
    (hv : ∀ v ∈ p.vars, D.names v) (hk : ∀ t ∈ (Pattern.path p).constants, T.term t = t) :
    (c.withQuery q' limit).tracePath p (env.translated T) =
      (c.tracePath p env).map (·.translated T) := by
  obtain ⟨hvs, hvo⟩ := List.forall_mem_append.mp hv
  obtain ⟨hks, hko⟩ := List.forall_mem_append.mp hk
  have hends : ((∀ v ∈ (c.walk p env).2.2.1.vars, D.names v) ∧
      ∀ v ∈ (c.walk p env).2.2.2.vars, D.names v) ∧
        ∀ t ∈ (c.walk p env).2.2.2.constants, T.term t = t := by
    rcases c.walk_ends p env with ⟨h₁, h₂⟩ | ⟨h₁, h₂⟩
    · exact ⟨⟨h₁ ▸ hvs, h₂ ▸ hvo⟩, h₂ ▸ hko⟩
    · exact ⟨⟨h₁ ▸ hvo, h₂ ▸ hvs⟩, h₂ ▸ hks⟩
  unfold tracePath
  rw [walk_translated hq limit hn ho (by rintro n (rfl | rfl); exacts [hks, hko])]
  dsimp only
  rw [Trace.map_visit, Trace.visit_map]
  refine Trace.visit_congr (fun i t _ => ?_) 0
  rw [← hn.translated_choose, bindStart_translated hq limit (hn.choose i) hends.1.1,
    Trace.map_of_bind, ← Trace.map_ofBinding, Trace.bind_of_map]
  refine Trace.bind_congr_of_mem fun m hm => ?_
  have hm := kept_bindStart hq.stable trivial hends.1.1 (hn.choose i) (Trace.mem_of_ofBinding hm)
  rw [reach_translated hq limit hm ho]
  exact traceEnds_translated hq limit hm hends.1.2 hends.2 _

end Context

/-! ### Patterns -/

/-- What stands in a part of a pattern stands in the pattern. -/
theorem Translation.SparesPattern.of_subset {p part : Pattern} (hp : T.SparesPattern D p)
    (hv : part.vars ⊆ p.vars) (hr : part.requests ⊆ p.requests)
    (hk : part.constants ⊆ p.constants) : T.SparesPattern D part :=
  ⟨fun v hm => hp.vars v (hv hm), fun r hm => hp.requests r (hr hm),
    fun t hm => hp.constants t (hk hm)⟩

namespace Pattern

variable {c : Context} {h h' : Hooks}

/-- The solutions of a pattern stay within the realm. -/
theorem along_of_trace (hq : c.query.Translates q' T D) {p : Pattern}
    (hp : ∀ v ∈ p.vars, D.names v) {env m : Environment} (hn : env.Along T D)
    (hm : m ∈ (p.trace c h env).items) : m.Along T D :=
  kept hq.stable c.supplies_any p env hp (.inr fun _ _ hv hi => hi.under hv) hn m hm

/-- A sequence is translated if its items are. -/
theorem traceAll_translated (hq : c.query.Translates q' T D) (limit : Option Nat)
    {ps : List Pattern} (hp : ∀ p ∈ ps, ∀ v ∈ p.vars, D.names v)
    (htrace : ∀ p ∈ ps, ∀ {env : Environment}, env.Along T D →
      p.trace (c.withQuery q' limit) h' (env.translated T) =
        (p.trace c h env).map (·.translated T))
    {env : Environment} (hn : env.Along T D) :
    trace.traceAll (c.withQuery q' limit) h' ps (env.translated T) =
      (trace.traceAll c h ps env).map (·.translated T) := by
  induction ps generalizing env with
  | nil => rfl
  | cons p ps ih =>
    obtain ⟨hv, hp⟩ := List.forall_mem_cons.mp hp
    obtain ⟨hhead, htrace⟩ := List.forall_mem_cons.mp htrace
    rw [trace.traceAll, trace.traceAll, hhead hn, Trace.bind_of_map, Trace.map_of_bind]
    exact Trace.bind_congr_of_mem fun m hm => ih hp htrace (along_of_trace hq hv hn hm)

/-- What a solution shares with others and whether it agrees with them stay the same. -/
theorem excluded_translated (hq : c.query.Translates q' T D) {m : Environment}
    {others : List Environment} (hm : D.slots m.bindings)
    (ho : ∀ other ∈ others, D.slots other.bindings) :
    ((others.map (·.translated T)).any fun other =>
        (m.translated T).solution.sharesSlot other.solution &&
          (m.translated T).solution.compatible other.solution) =
      others.any fun other =>
        m.solution.sharesSlot other.solution && m.solution.compatible other.solution := by
  rw [List.any_map, Bool.eq_iff_iff, List.any_eq_true, List.any_eq_true]
  refine exists_congr fun other => and_congr_right fun hother => ?_
  rw [← hq.sharesSlot (a := m.solution) (b := other.solution) hm (ho other hother),
    ← hq.compatible (a := m.solution) (b := other.solution) hm (ho other hother)]
  rfl

/-- Bindings are handed on alike. -/
theorem bindings_translated {x : Except QueryError (Option Environment)}
    (hx : ∀ m, x = .ok (some m) → m.Along T D) (i : Nat) :
    Trace.ofBinding ((x.map (Option.map (·.translated T))).map (Option.map (·.choose i))) =
      (Trace.ofBinding (x.map (Option.map (·.choose i)))).map (·.translated T) := by
  rcases x with e | _ | m
  · rfl
  · rfl
  · exact congrArg Trace.single ((hx m rfl).translated_choose i).symm

theorem translated_apart (hq : c.query.Translates q' T D) (limit : Option Nat) {env : Environment}
    (hn : env.Along T D) :
    (apart c env).Along T D ∧
      (apart c env).translated T = apart (c.withQuery q' limit) (env.translated T) := by
  refine ⟨⟨⟨hq.initial.1, fun _ hg => (Option.some_ne_none _ hg.symm).elim, hn.graph⟩,
    hn.onWay.trans (List.suffix_cons _ _)⟩, ?_⟩
  have hway := T.way_cons 0 hn.onWay
  have hslots := hq.initial.2
  unfold apart Environment.translated
  dsimp only
  rw [hway, hslots]
  rfl

/-- Patterns hand on the same environments once they are translated, with the same events. -/
theorem trace_translated (hc : c.toScope.Translates q' T D E) (ho : c.source.Overlooks T.term)
    (limit : Option Nat) (hh : Hooks.Translate T D E h h') (p : Pattern)
    (hp : T.SparesPattern D p) {env : Environment} (hn : env.Along T D) :
    p.trace (c.withQuery q' limit) h' (env.translated T) =
      (p.trace c h env).map (·.translated T) := by
  have hq := hc.toTranslates
  have hchoose := hn.translated_choose
  have htest : ∀ {e : Expr}, T.Spares D e → ∀ {m : Environment}, m.Along T D →
      e.test (c.withQuery q' limit).toScope h' (m.translated T) = e.test c.toScope h m :=
    fun {e} he m hm => e.test_translated hc hh he hm
  cases p with
  | edge e =>
    have hcandidates : (c.withQuery q' limit).source.matchEdge q' (env.translated T) e env.graph
        (Source.restriction q' (env.translated T)) =
          c.source.matchEdge c.query env e env.graph (Source.restriction c.query env) := by
      rw [hq.restriction_translated]
      exact hq.matchEdge_translated ho hn.slots e env.graph _
    rw [trace, trace, Trace.map_visit]
    refine Eq.trans (congrArg (Trace.visit _ 0) hcandidates) ?_
    refine Trace.visit_congr (fun i o hm => ?_) 0
    have hbind : (c.withQuery q' limit).bindEdge e (env.translated T).graph o (env.translated T) =
        (c.bindEdge e env.graph o env).map (Option.map (·.translated T)) :=
      Context.bindEdge_translated hq limit hn (ho.edge _ _ _ _ _ o hm) hp.vars
    refine Eq.trans (congrArg (fun x => Trace.ofBinding (x.map (Option.map (·.choose i)))) hbind) ?_
    exact bindings_translated (fun m hb =>
      Context.kept_bindEdge hq.stable o.carries_any hp.vars hn.graph hn hb) i
  | path p =>
    rw [trace, trace]
    exact Context.tracePath_translated hq limit hn ho hp.vars hp.constants
  | sequence items =>
    have hitem : ∀ p ∈ items, T.SparesPattern D p := fun p hm => hp.of_subset
      (fun v hv => mem_listVariables.mpr ⟨p, hm, hv⟩) (fun r hr => mem_listRequests.mpr ⟨p, hm, hr⟩)
      (fun t ht => mem_listConstants.mpr ⟨p, hm, ht⟩)
    rw [trace, trace]
    exact traceAll_translated hq limit (fun p hm => (hitem p hm).vars) (fun p hm _ hn =>
      have := List.sizeOf_lt_of_mem hm
      trace_translated hc ho limit hh p (hitem p hm) hn) hn
  | optional left right condition =>
    have hl : T.SparesPattern D left := hp.of_subset
      (List.subset_append_of_subset_left _ (List.subset_append_left _ _))
      (List.subset_append_of_subset_left _ (List.subset_append_left _ _))
      (List.subset_append_of_subset_left _ (List.subset_append_left _ _))
    have hr : T.SparesPattern D right := hp.of_subset
      (List.subset_append_of_subset_left _ (List.subset_append_right _ _))
      (List.subset_append_of_subset_left _ (List.subset_append_right _ _))
      (List.subset_append_of_subset_left _ (List.subset_append_right _ _))
    have hholds : ∀ {m : Environment}, m.Along T D →
        conditionHolds (c.withQuery q' limit) h' condition (m.translated T) =
          conditionHolds c h condition m := fun hm => by
      cases condition with
      | none => rfl
      | some e =>
        exact htest ⟨fun r hr => hp.requests r (List.mem_append_right _ hr),
          fun t ht => hp.constants t (List.mem_append_right _ ht)⟩ hm
    rw [trace, trace, trace_translated hc ho limit hh left hl hn, Trace.bind_of_map,
      Trace.map_of_bind]
    refine Trace.bind_congr_of_mem fun m hm => ?_
    have hm := along_of_trace hq hl.vars hn hm
    rw [Trace.map_orElse, ← hm.translated_choose, ← hm.translated_choose,
      trace_translated hc ho limit hh right hr (hm.choose 0), Trace.bind_of_map, Trace.map_of_bind]
    refine congrArg (·.orElse ((m.choose 1).translated T)) (Trace.bind_congr_of_mem fun o ho => ?_)
    rw [Trace.map_ofRun, hholds (along_of_trace hq hr.vars (hm.choose 0) ho)]
    refine congrArg (fun f : Bool → Trace Environment => Trace.ofRun (f <$> _)) (funext fun b => ?_)
    cases b <;> rfl
  | union left right =>
    have hl : T.SparesPattern D left := hp.of_subset (List.subset_append_left _ _)
      (List.subset_append_left _ _) (List.subset_append_left _ _)
    have hr : T.SparesPattern D right := hp.of_subset (List.subset_append_right _ _)
      (List.subset_append_right _ _) (List.subset_append_right _ _)
    rw [trace, trace, Trace.map_append, ← hchoose, ← hchoose,
      trace_translated hc ho limit hh left hl (hn.choose 0),
      trace_translated hc ho limit hh right hr (hn.choose 1)]
  | minus left right =>
    have hl : T.SparesPattern D left := hp.of_subset (List.subset_append_left _ _)
      (List.subset_append_left _ _) (List.subset_append_left _ _)
    have hr : T.SparesPattern D right := hp.of_subset (List.subset_append_right _ _)
      (List.subset_append_right _ _) (List.subset_append_right _ _)
    obtain ⟨hapart, hstart⟩ := translated_apart hq limit hn
    rw [trace, trace, ← hstart, trace_translated hc ho limit hh right hr hapart, Trace.map_ofRun,
      Trace.drain_map, ← hchoose, trace_translated hc ho limit hh left hl (hn.choose 1),
      Trace.bind_of_map, Trace.map_of_bind, Trace.items_map]
    refine congrArg (fun t : Trace Environment => Trace.ofRun ((fun _ => t) <$> _))
      (Trace.bind_congr_of_mem fun m hm => ?_)
    rw [excluded_translated hq (along_of_trace hq hl.vars (hn.choose 1) hm).slots
      fun other hm => (along_of_trace hq hr.vars hapart hm).slots]
    cases (right.trace c h (apart c env)).items.any fun other =>
      m.solution.sharesSlot other.solution && m.solution.compatible other.solution <;> rfl
  | filter e =>
    rw [trace, trace, Trace.map_ofRun, ← hchoose, ← hchoose,
      htest ⟨hp.requests, hp.constants⟩ (hn.choose 0)]
    refine congrArg (fun f : Bool → Trace Environment => Trace.ofRun (f <$> _)) (funext fun b => ?_)
    cases b <;> rfl
  | bind v e =>
    have hv : D.names v := hp.vars v (List.mem_append_right _ List.mem_cons_self)
    have hvalue : e.eval (c.withQuery q' limit).toScope h' ((env.choose 0).translated T) =
        Option.map T.term <$> e.eval c.toScope h (env.choose 0) :=
      e.eval_translated hc hh ⟨hp.requests, hp.constants⟩ (hn.choose 0)
    rw [trace, trace, Trace.map_ofRun, ← hchoose, ← hchoose, hvalue, ← comp_map]
    refine congrArg (fun f : Option Term → Trace Environment => Trace.ofRun (f <$> _))
      (funext fun t => ?_)
    cases t with
    | none => rfl
    | some t =>
      have hbind := hq.bind_translated (hn.choose 1).slots hv t.canonical
      rw [← T.exchanges.canonical] at hbind
      exact (congrArg Trace.ofBinding hbind).trans (Trace.map_ofBinding _ _).symm
  | graph name inner =>
    have hi : T.SparesPattern D inner := hp.of_subset (List.subset_append_right _ _)
      (List.Subset.refl _) (List.subset_append_right _ _)
    have hname : ∀ v ∈ name.vars, D.names v := fun v hv => hp.vars v (List.mem_append_left _ hv)
    have hinner : ∀ {m : Environment}, m.Along T D →
        inner.trace (c.withQuery q' limit) h' (m.translated T) =
          (inner.trace c h m).map (·.translated T) :=
      fun hm => trace_translated hc ho limit hh inner hi hm
    have hinside : (env.under (some name)).Along T D := hn.under hname
    cases name with
    | const t =>
      rw [trace, trace]
      exact hinner hinside
    | var v =>
      have hv := NodePattern.forall_mem_vars.mp hname
      have hget : ((env.translated T).get? (c.withQuery q' limit).query v).isNone =
          (env.get? c.query v).isNone := by
        refine (congrArg Option.isNone (hq.get_translated hn.slots v)).trans ?_
        exact Option.isNone_map
      have hgraphs : (c.withQuery q' limit).source.namedGraphs
          (c.withQuery q' limit).query.fromNamed = c.source.namedGraphs c.query.fromNamed :=
        congrArg _ hq.fromNamed
      rw [trace, trace, hget, hgraphs]
      split_ifs
      · rw [Trace.map_visit]
        refine Trace.visit_congr (fun i n hm => ?_) 0
        have hbind := hq.bind_translated (hinside.choose i).slots hv n.term
        rw [ho.graph _ n hm, hinside.translated_choose] at hbind
        rw [Trace.map_of_bind]
        refine Eq.trans (congrArg (fun x => (Trace.ofBinding x).bind _) hbind) ?_
        rw [← Trace.map_ofBinding, Trace.bind_of_map]
        refine Trace.bind_congr_of_mem fun m hm => hinner ?_
        exact hq.stable.bind _ _ _ _ hv trivial (hinside.choose i) (Trace.mem_of_ofBinding hm)
      · exact hinner hinside
  | values vs rows =>
    rw [trace, trace, Trace.map_visit]
    refine Trace.visit_congr (fun i row hrow => ?_) 0
    have hcells : ∀ cell ∈ vs.zip row, D.names cell.1 := fun cell hc =>
      hp.vars cell.1 (List.of_mem_zip hc).1
    have hkept : ∀ cell ∈ vs.zip row, ∀ t, cell.2 = some t → T.term t = t := fun cell hc t ht =>
      hp.constants t (List.mem_filterMap.mpr
        ⟨_, List.mem_flatten.mpr ⟨row, hrow, (List.of_mem_zip hc).2⟩, ht⟩)
    rw [Context.bindRow_translated hq limit hn hcells hkept]
    exact bindings_translated (fun m hb =>
      Context.kept_bindRow hq.stable (fun _ => trivial) hcells hn hb) i
termination_by sizeOf p

end Pattern

/-! ### References -/

namespace Context

variable {c : Context} {env : Environment} (ho : c.source.Overlooks T.term)

include ho

/-- However deep the references go. -/
theorem hooks_translated (hE : c.toScope.Translates q' T E E) (hD : c.toScope.Translates q' T D E)
    (limit : Option Nat) (level : Nat) :
    Hooks.Translate T D E (c.hooks level) ((c.withQuery q' limit).hooks level) := by
  induction level generalizing D with
  | zero => exact ⟨fun _ _ _ _ => rfl, fun _ _ _ _ => rfl⟩
  | succ level ih =>
    refine ⟨fun e env he hn => e.eval_translated hD (ih hD) he hn, fun p env hp hn => ?_⟩
    rw [hasSolution_eq, hasSolution_eq, Pattern.solve_eq_run, Pattern.solve_eq_run,
      Pattern.trace_translated hE ho limit (ih hE) p hp hn]
    refine congrArg (fun r : Run (ForInStep Bool) => r >>= fun found => pure found.value) ?_
    have hrun : ((p.trace c (c.hooks level) env).map (·.translated T)).run
        (fun _ _ => pure (.done true)) false = Trace.stepMap (id : Bool → Bool) <$>
          (p.trace c (c.hooks level) env).run (fun _ _ => pure (.done true)) false :=
      Trace.run_map (Environment.translated · T) id (fun _ _ => rfl) _ false
    have hid : Trace.stepMap (id : Bool → Bool) = id := funext fun step => by cases step <;> rfl
    rwa [hid, id_map] at hrun

omit ho in
theorem depth_translated (hq : c.query.Translates q' T D) (limit : Option Nat) :
    (c.withQuery q' limit).depth = c.depth := by
  have hpatterns : (c.withQuery q' limit).query.patterns = c.query.patterns := hq.patterns
  have hfunctions : (c.withQuery q' limit).query.functions = c.query.functions := hq.functions
  rw [depth, depth, hpatterns, hfunctions]
  rfl

section

variable (hE : c.toScope.Translates q' T E E) (hD : c.toScope.Translates q' T D E)
  (limit : Option Nat)

include hE hD

theorem evaluate_translated (e : Expr) (he : T.Spares D e) (hn : env.Along T D) :
    (c.withQuery q' limit).evaluate e (env.translated T) =
      Option.map T.term <$> c.evaluate e env := by
  rw [evaluate, evaluate, depth_translated hD.toTranslates limit]
  exact e.eval_translated hD (hooks_translated ho hE hD limit c.depth) he hn

/-- What a pattern hands on in the end. -/
theorem traced_translated {p : Pattern} (hp : T.SparesPattern D p) (hn : env.Along T D) :
    p.trace (c.withQuery q' limit) ((c.withQuery q' limit).hooks (c.withQuery q' limit).depth)
        (env.translated T) = (p.trace c (c.hooks c.depth) env).map (·.translated T) := by
  rw [depth_translated hD.toTranslates limit]
  exact p.trace_translated hD ho limit (hooks_translated ho hE hD limit c.depth) hp hn

omit ho hE hD in
theorem collect_translated (bound : Option Nat) (m : Environment) (rows : List Solution) :
    collect bound (m.translated T) (rows.map (·.translated T)) =
      Trace.stepMap (List.map (·.translated T)) <$> collect bound m rows := by
  unfold collect
  rw [List.length_map]
  split_ifs
  · rfl
  · dsimp only
    rw [List.length_cons, List.length_map, List.length_cons]
    split_ifs <;> rfl

/-- A pattern has the same solutions once they are translated. -/
theorem solutions_translated {p : Pattern} (hp : T.SparesPattern D p) (hn : env.Along T D)
    (bound : Option Nat) : (c.withQuery q' limit).solutions p (env.translated T) bound =
      List.map (·.translated T) <$> c.solutions p env bound := by
  have hrun := Trace.run_map (Environment.translated · T) (List.map (Solution.translated · T))
    (collect_translated bound) (p.trace c (c.hooks c.depth) env) []
  rw [solutions_eq, solutions_eq, Pattern.solve_eq_run, Pattern.solve_eq_run,
    traced_translated ho hE hD limit hp hn]
  refine Eq.trans (congrArg (fun r : Run (ForInStep (List Solution)) =>
    r >>= fun found => pure found.value.reverse) hrun) ?_
  rw [bind_map_left, map_bind]
  refine bind_congr fun found => ?_
  rw [Trace.value_stepMap, map_pure, List.map_reverse]

end

end Context

end GraphQuery
