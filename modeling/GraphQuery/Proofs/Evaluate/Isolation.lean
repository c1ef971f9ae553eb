import GraphQuery.Proofs.Evaluate.View

/-! Isolation from the rest of a store. A pattern without graph clauses sees only what is in view:
in the graph of a clause around it, or in the graphs that a query is restricted to. So two stores
that hold the same quads there give the same answers, whatever else they hold, if no path leads from
a node to itself whose ends are both free. -/

namespace GraphQuery

/-! ### Ends of paths -/

/-- Whether a place is a constant or one of some variables. -/
def NodePattern.isKnown (vs : List Variable) : NodePattern → Bool
  | var v => vs.contains v
  | const _ => true

namespace Pattern

/-- Whether a graph clause stands in the pattern. -/
def containsGraph : Pattern → Bool
  | graph _ _ => true
  | edge _ | path _ | filter _ | bind _ _ | values _ _ => false
  | sequence items => listContainsGraph items
  | optional left right _ | union left right | minus left right =>
    left.containsGraph || right.containsGraph
where
  listContainsGraph : List Pattern → Bool
    | [] => false
    | p :: ps => p.containsGraph || listContainsGraph ps

/-- The variables that have a value in all solutions of a pattern. -/
def binds : Pattern → List Variable
  | edge e => e.vars
  | path p => p.vars
  | sequence items => listBinds items
  | optional left _ _ | minus left _ => left.binds
  | union left right => left.binds.filter right.binds.contains
  | filter _ | bind _ _ | values _ _ | graph _ _ => []
where
  listBinds : List Pattern → List Variable
    | [] => []
    | p :: ps => p.binds ++ listBinds ps

/-- Whether each path that leads from nodes to themselves has an end that is known when it is
walked, given the variables that have a value before. -/
def isAnchored : Pattern → List Variable → Bool
  | path p, vs => !p.path.isNullable || p.subject.isKnown vs || p.object.isKnown vs
  | edge _, _ | filter _, _ | bind _ _, _ | values _ _, _ => true
  | sequence items, vs => listAnchored items vs
  | optional left right _, vs => left.isAnchored vs && right.isAnchored (vs ++ left.binds)
  | union left right, vs => left.isAnchored vs && right.isAnchored vs
  | minus left right, vs => left.isAnchored vs && right.isAnchored []
  | graph _ inner, vs => inner.isAnchored vs
where
  listAnchored : List Pattern → List Variable → Bool
    | [], _ => true
    | p :: ps, vs => p.isAnchored vs && listAnchored ps (vs ++ p.binds)

theorem listContainsGraph_iff {ps : List Pattern} :
    containsGraph.listContainsGraph ps = false ↔ ∀ p ∈ ps, p.containsGraph = false := by
  induction ps with
  | nil => simp [containsGraph.listContainsGraph]
  | cons p ps ih => simp [containsGraph.listContainsGraph, ih]

/-- A pattern without a graph clause leaves the graph in force as it is. -/
theorem keepsGraph_of_plain (p : Pattern) (hp : p.containsGraph = false) : p.keepsGraph = true := by
  cases p with
  | graph => cases hp
  | sequence items =>
    refine listKeepGraph_iff.mpr fun p hm => ?_
    have := List.sizeOf_lt_of_mem hm
    exact keepsGraph_of_plain p (listContainsGraph_iff.mp hp p hm)
  | optional left right | union left right =>
    obtain ⟨hl, hr⟩ := Bool.or_eq_false_iff.mp hp
    exact Bool.and_eq_true_iff.mpr ⟨keepsGraph_of_plain left hl, keepsGraph_of_plain right hr⟩
  | minus left right => exact keepsGraph_of_plain left (Bool.or_eq_false_iff.mp hp).1
  | _ => rfl
termination_by sizeOf p

end Pattern

/-! ### What is known -/

/-- Where a pattern is solved: what graph is in force, and which variables have a value. -/
structure Environment.Knows (q : Query) (g : Option NodePattern) (vs : List Variable)
    (env : Environment) : Prop where
  graph : env.graph = g
  group : env.group = none
  length : env.bindings.length = q.vars.length
  bound : ∀ v ∈ vs, (env.get? q v).isSome = true

namespace Environment

variable {q : Query} {g : Option NodePattern} {vs ws : List Variable} {a b : Environment}
  {v : Variable} {t : Term}

theorem Knows.mono (h : a.Knows q g vs) (hsub : ws ⊆ vs) : a.Knows q g ws :=
  ⟨h.graph, h.group, h.length, fun v hv => h.bound v (hsub hv)⟩

theorem Knows.append (h : a.Knows q g vs) (hw : ∀ v ∈ ws, (a.get? q v).isSome = true) :
    a.Knows q g (vs ++ ws) :=
  ⟨h.graph, h.group, h.length, fun v hv => (List.mem_append.mp hv).elim (h.bound v) (hw v)⟩

theorem Knows.choose (h : a.Knows q g vs) (i : Nat) : (a.choose i).Knows q g vs :=
  ⟨h.graph, h.group, h.length, h.bound⟩

theorem knows_restored (a : Environment) (q : Query) (hg : a.graph = g) :
    (a.restored q).Knows q g [] :=
  ⟨hg, rfl, a.length_restored q, fun _ hv => by cases hv⟩

/-- What is known stays known. -/
theorem stable_knows (q : Query) (g : Option NodePattern) (vs : List Variable) :
    Stable q (fun _ => True) (fun _ => True) (Knows q g vs) where
  choose _ i h := h.choose i
  bind a v t b _ _ h hb := by
    refine ⟨(graph_of_bind hb).trans h.graph, (group_of_bind hb).trans h.group,
      (length_of_bind hb).trans h.length, fun w hw => ?_⟩
    obtain ⟨u, hu⟩ := Option.isSome_iff_exists.mp (h.bound w hw)
    rw [get_of_bind hb hu]
    rfl
  graph _ _ _ _ _ _ := trivial

/-- A variable that is bound has a value. -/
theorem Knows.isSome_of_bind (h : a.Knows q g vs) (hb : a.bind? q v t = .ok (some b)) :
    (b.get? q v).isSome = true := by
  rw [get?, binding_bound h.length hb]
  cases b.locals.get? v <;> rfl

end Environment

namespace Context

variable {c : Context} {g : Option NodePattern} {vs : List Variable} {a b : Environment}
  {o : Occurrence}

theorem knows_bindPosition {position : Position} {n : NodePattern} (h : a.Knows c.query g vs)
    (hb : c.bindPosition o position n a = .ok (some b)) : b.Knows c.query g (vs ++ n.vars) := by
  have hk : b.Knows c.query g vs :=
    kept_bindPosition (Environment.stable_knows c.query g vs) o.carries_any (fun _ _ => trivial) h hb
  refine hk.append fun v hv => ?_
  cases n with
  | const t => cases hv
  | var w =>
    obtain rfl : v = w := List.mem_singleton.mp hv
    unfold bindPosition at hb
    cases hn : o.node position with
    | none =>
      rw [hn] at hb
      cases hb
    | some actual =>
      simp only [hn] at hb
      cases hget : a.get? c.query v with
      | none =>
        rw [hget] at hb
        exact h.isSome_of_bind hb
      | some t =>
        simp only [hget, pure, Except.pure, Except.ok.injEq] at hb
        split_ifs at hb
        rw [← Option.some.inj hb, hget]
        rfl

theorem knows_bindPositions {places : List (Position × NodePattern)} (h : a.Knows c.query g vs)
    (hb : c.bindPositions o places a = .ok (some b)) :
    b.Knows c.query g (vs ++ places.flatMap fun p => p.2.vars) := by
  induction places generalizing a vs with
  | nil =>
    cases hb
    exact h.append fun v hv => by cases hv
  | cons p places ih =>
    rw [bindPositions] at hb
    cases hm : c.bindPosition o p.1 p.2 a with
    | error e => simp [hm, Bind.bind, Except.bind] at hb
    | ok r =>
      cases r with
      | none => simp [hm, Bind.bind, Except.bind, pure, Except.pure] at hb
      | some m =>
        simp only [hm, Bind.bind, Except.bind] at hb
        rw [List.flatMap_cons, ← List.append_assoc]
        exact ih (knows_bindPosition h hm) hb

theorem knows_bindEdge {e : EdgePattern} {graph : Option NodePattern} (h : a.Knows c.query g vs)
    (hb : c.bindEdge e graph o a = .ok (some b)) : b.Knows c.query g (vs ++ e.vars) := by
  have hrest : ∀ ws {m}, m.Knows c.query g (vs ++ ws) → (∀ v ∈ e.predicate.vars, v ∈ ws) →
      c.bindPositions o ([(Position.subject, e.subject), (.object, e.object)] ++
        (graph.map fun g => (Position.graph, g)).toList) m = .ok (some b) →
      b.Knows c.query g (vs ++ e.vars) := by
    intro ws m hm hws hb
    refine (knows_bindPositions hm hb).mono fun v hv => ?_
    simp only [EdgePattern.vars, List.mem_append, List.flatMap_append, List.flatMap_cons,
      List.flatMap_nil] at hv ⊢
    rcases hv with hv | (hv | hv) | hv
    · exact .inl (.inl hv)
    · exact .inr (.inl (.inl hv))
    · exact .inl (.inr (hws v hv))
    · exact .inr (.inl (.inr (.inl hv)))
  unfold bindEdge at hb
  cases hp : e.predicate with
  | const t =>
    rw [hp] at hb
    exact hrest [] (h.append fun v hv => by cases hv) (by rw [hp]; exact fun v hv => hv) hb
  | var v =>
    simp only [hp] at hb
    cases hm : a.bind? c.query v o.edge.predicate.term with
    | error e => simp [hm, Bind.bind, Except.bind] at hb
    | ok r =>
      cases r with
      | none => simp [hm, Bind.bind, Except.bind, pure, Except.pure] at hb
      | some m =>
        simp only [hm, Bind.bind, Except.bind] at hb
        have hk : m.Knows c.query g vs :=
          (Environment.stable_knows c.query g vs).bind a v _ m trivial trivial h hm
        refine hrest [v] (hk.append fun w hw => ?_) (by rw [hp]; exact fun v hv => hv) hb
        rw [List.mem_singleton.mp hw]
        exact h.isSome_of_bind hm

theorem knows_bindStart {start : NodePattern} {t : Term} (h : a.Knows c.query g vs)
    (hb : c.bindStart start t a = .ok (some b)) : b.Knows c.query g (vs ++ start.vars) := by
  have hk : b.Knows c.query g vs :=
    kept_bindStart (Environment.stable_knows c.query g vs) trivial (fun _ _ => trivial) h hb
  refine hk.append fun v hv => ?_
  cases start with
  | const u => cases hv
  | var w =>
    obtain rfl : v = w := List.mem_singleton.mp hv
    exact h.isSome_of_bind hb

theorem knows_traceEnds {target : NodePattern} {reached : List Term} (h : a.Knows c.query g vs)
    (hb : b ∈ (c.traceEnds target reached a).items) : b.Knows c.query g (vs ++ target.vars) := by
  have hk : b.Knows c.query g vs :=
    kept_traceEnds (Environment.stable_knows c.query g vs) (fun _ _ => trivial)
      (fun _ _ => trivial) h b hb
  refine hk.append fun v hv => ?_
  cases target with
  | const u => cases hv
  | var w =>
    obtain rfl : v = w := List.mem_singleton.mp hv
    obtain ⟨i, t, -, hb⟩ := Trace.mem_of_visit hb
    exact (h.choose i).isSome_of_bind (Trace.mem_of_ofBinding hb)

theorem knows_tracePath {p : PathPattern} (h : a.Knows c.query g vs)
    (hb : b ∈ (c.tracePath p a).items) : b.Knows c.query g (vs ++ p.vars) := by
  obtain ⟨i, t, -, hb⟩ := Trace.mem_of_visit hb
  obtain ⟨m, hm, hb⟩ := Trace.mem_of_bind hb
  have hk : b.Knows c.query g (vs ++ (c.walk p a).2.2.1.vars ++ (c.walk p a).2.2.2.vars) :=
    knows_traceEnds (knows_bindStart (h.choose i) (Trace.mem_of_ofBinding hm)) hb
  refine hk.mono ?_
  rw [PathPattern.vars, ← List.append_assoc]
  rcases c.walk_ends p a with ⟨hs, ht⟩ | ⟨hs, ht⟩ <;> rw [hs, ht]
  · exact List.Subset.refl _
  · rw [List.append_assoc, List.append_assoc]
    exact (List.perm_append_comm.append_left vs).subset

end Context

namespace Pattern

variable {c : Context} {k : Hooks} {g : Option NodePattern} {vs : List Variable}
  {a : Environment}

/-- Without graph clauses, a pattern keeps what is known. -/
theorem knows_kept (p : Pattern) (hp : p.containsGraph = false) (h : a.Knows c.query g vs) :
    ∀ m ∈ (p.trace c k a).items, m.Knows c.query g vs :=
  kept (Environment.stable_knows c.query g vs) c.supplies_any p a (fun _ _ => trivial)
    (.inl (p.keepsGraph_of_plain hp)) h

/-- Behind a pattern, its variables are known as well. -/
theorem knows_trace (p : Pattern) (hp : p.containsGraph = false) {vs : List Variable}
    {a : Environment} (h : a.Knows c.query g vs) :
    ∀ m ∈ (p.trace c k a).items, m.Knows c.query g (vs ++ p.binds) := by
  have hnone : p.binds = [] → ∀ m ∈ (p.trace c k a).items, m.Knows c.query g (vs ++ p.binds) := by
    intro hb m hm
    rw [hb, List.append_nil]
    exact p.knows_kept hp h m hm
  intro m hm
  cases p with
  | graph => cases hp
  | filter | bind | values => exact hnone rfl m hm
  | edge e =>
    rw [trace] at hm
    obtain ⟨i, o, -, hm⟩ := Trace.mem_of_visit hm
    exact Context.kept_bindings (Environment.stable_knows c.query g _)
      (fun b hb => Context.knows_bindEdge h hb) i m hm
  | path p =>
    rw [trace] at hm
    exact Context.knows_tracePath h hm
  | sequence items =>
    rw [trace] at hm
    have hall : ∀ ps : List Pattern, (∀ p ∈ ps, p ∈ items) → ∀ {vs : List Variable}
        {a : Environment}, a.Knows c.query g vs → ∀ m ∈ (trace.traceAll c k ps a).items,
          m.Knows c.query g (vs ++ binds.listBinds ps) := by
      intro ps
      induction ps with
      | nil =>
        intro _ vs a h m hm
        rw [trace.traceAll] at hm
        rw [List.mem_singleton.mp hm]
        exact h.append fun v hv => by cases hv
      | cons p ps ih =>
        intro hps vs a h m hm
        obtain ⟨hmem, hps⟩ := List.forall_mem_cons.mp hps
        have := List.sizeOf_lt_of_mem hmem
        rw [trace.traceAll] at hm
        obtain ⟨m₁, hm₁, hm⟩ := Trace.mem_of_bind hm
        rw [binds.listBinds, ← List.append_assoc]
        exact ih hps (knows_trace p (listContainsGraph_iff.mp hp p hmem) h m₁ hm₁) m hm
    exact hall items (fun _ hm => hm) h m hm
  | optional left right condition =>
    obtain ⟨hl, hr⟩ := Bool.or_eq_false_iff.mp hp
    rw [trace] at hm
    obtain ⟨m₁, hm₁, hm⟩ := Trace.mem_of_bind hm
    have h₁ := knows_trace left hl h m₁ hm₁
    rcases Trace.mem_of_orElse hm with hm | rfl
    · obtain ⟨m₂, hm₂, hm⟩ := Trace.mem_of_bind hm
      obtain ⟨holds, -, hm⟩ := mem_map_ofRun hm
      rw [mem_keepIf hm]
      exact right.knows_kept hr (h₁.choose 0) m₂ hm₂
    · exact h₁.choose 1
  | union left right =>
    obtain ⟨hl, hr⟩ := Bool.or_eq_false_iff.mp hp
    have hsub : ∀ {ws}, left.binds.filter right.binds.contains ⊆ ws →
        m.Knows c.query g (vs ++ ws) →
        m.Knows c.query g (vs ++ left.binds.filter right.binds.contains) := fun hws hk =>
      hk.mono fun v hv => List.mem_append.mpr ((List.mem_append.mp hv).imp id fun hv => hws hv)
    rw [trace] at hm
    rcases Trace.mem_of_append hm with hm | hm
    · exact hsub (fun v hv => (List.mem_filter.mp hv).1)
        (knows_trace left hl (h.choose 0) m hm)
    · exact hsub (fun v hv => List.contains_iff_mem.mp (List.mem_filter.mp hv).2)
        (knows_trace right hr (h.choose 1) m hm)
  | minus left right =>
    rw [trace] at hm
    obtain ⟨_, -, hm⟩ := mem_map_ofRun hm
    obtain ⟨m₁, hm₁, hm⟩ := Trace.mem_of_bind hm
    rw [mem_keepIf hm]
    exact knows_trace left (Bool.or_eq_false_iff.mp hp).1 (h.choose 1) m₁ hm₁
termination_by sizeOf p

end Pattern

/-! ### Evaluations that are isolated -/

/-- The graph in force is the one of a clause, or none. -/
def Setting.inside (g : Option NodePattern) : Setting :=
  ⟨fun graph group => graph = g ∧ group = none, fun h => by cases h.2⟩

/-- Whether a pattern sees only what is in view: it has no graph clauses, and its paths are anchored
by what is known, unless there is no need to. -/
def Pattern.Isolated (q : Query) (g : Option NodePattern) (N : Prop) (p : Pattern)
    (env : Environment) : Prop :=
  p.containsGraph = false ∧ ∃ vs, env.Knows q g vs ∧ (N ∨ p.isAnchored vs = true)

namespace Context

open Source (LooksAt Shares)

variable {c : Context} {s : Source} {name : Option Term} {a b : Environment}

theorem valueOf_of_isKnown {vs : List Variable} {g : Option NodePattern}
    (h : a.Knows c.query g vs) {n : NodePattern} (hn : n.isKnown vs = true) :
    Source.valueOf? c.query a n ≠ none := by
  cases n with
  | const t => exact Option.some_ne_none t
  | var v =>
    exact Option.isSome_iff_ne_none.mp (h.bound v (List.contains_iff_mem.mp hn))

theorem accord_of_shares (hs : c.source.Shares s name c.query.fromDefault) {N : Prop}
    (hN : N → ∀ a : Environment, a.graph = name.map .const →
      (c.source.startNodes c.query a).Perm (s.startNodes c.query a))
    (hname : name ≠ none → N) :
    c.Accord s c.query.fromDefault c.query.fromNamed (.inside (name.map .const))
      (Pattern.Isolated c.query (name.map .const) N) where
  edge {e a b} hi hab h h' := by
    obtain ⟨-, vs, hk, -⟩ := hi
    exact agree_edge_of_shares hs ⟨hk.graph, fun _ => rfl⟩ hab h h'
  path {p a b} hi hab := by
    obtain ⟨-, vs, hk, hanchored⟩ := hi
    refine agree_path_of_shares hs ⟨hk.graph, fun _ => rfl⟩ hab fun hsubject hobject => ?_
    by_cases hn : N
    · exact .inl (hN hn a hk.graph)
    · refine .inr ⟨not_imp_comm.mp hname hn, ?_⟩
      have hanchored := hanchored.resolve_left hn
      rw [Pattern.isAnchored, Bool.or_eq_true, Bool.or_eq_true, Bool.not_eq_true'] at hanchored
      rcases hanchored with (hnullable | hknown) | hknown
      · exact hnullable
      · exact (valueOf_of_isKnown hk hknown hsubject).elim
      · exact (valueOf_of_isKnown hk hknown hobject).elim
  graphs hi := by cases hi.1
  setting hi := by
    obtain ⟨-, vs, hk, -⟩ := hi
    exact ⟨hk.graph, hk.group⟩
  kept {p a} hi h m hm := by
    obtain ⟨hp, vs, hk, -⟩ := hi
    have hk := p.knows_kept hp hk m hm
    exact ⟨hk.graph, hk.group⟩
  choose hi i := by
    obtain ⟨hp, vs, hk, hanchored⟩ := hi
    exact ⟨hp, vs, hk.choose i, hanchored⟩
  head {p ps a} hi := by
    obtain ⟨hp, vs, hk, hanchored⟩ := hi
    exact ⟨(Bool.or_eq_false_iff.mp hp).1, vs, hk,
      hanchored.imp id fun ha => (Bool.and_eq_true_iff.mp ha).1⟩
  tail {p ps a} hi h m hm := by
    obtain ⟨hp, vs, hk, hanchored⟩ := hi
    obtain ⟨hhead, htail⟩ := Bool.or_eq_false_iff.mp hp
    exact ⟨htail, _, p.knows_trace hhead hk m hm,
      hanchored.imp id fun ha => (Bool.and_eq_true_iff.mp ha).2⟩
  left hi := by
    obtain ⟨hp, vs, hk, hanchored⟩ := hi
    exact ⟨(Bool.or_eq_false_iff.mp hp).1, vs, hk,
      hanchored.imp id fun ha => (Bool.and_eq_true_iff.mp ha).1⟩
  right {l r x a} hi h m hm := by
    obtain ⟨hp, vs, hk, hanchored⟩ := hi
    obtain ⟨hleft, hright⟩ := Bool.or_eq_false_iff.mp hp
    exact ⟨hright, _, l.knows_trace hleft hk m hm,
      hanchored.imp id fun ha => (Bool.and_eq_true_iff.mp ha).2⟩
  union hi := by
    obtain ⟨hp, vs, hk, hanchored⟩ := hi
    obtain ⟨hleft, hright⟩ := Bool.or_eq_false_iff.mp hp
    exact ⟨⟨hleft, vs, hk, hanchored.imp id fun ha => (Bool.and_eq_true_iff.mp ha).1⟩,
      hright, vs, hk, hanchored.imp id fun ha => (Bool.and_eq_true_iff.mp ha).2⟩
  minus {l r a} hi := by
    obtain ⟨hp, vs, hk, hanchored⟩ := hi
    obtain ⟨hleft, hright⟩ := Bool.or_eq_false_iff.mp hp
    have happart : (Pattern.apart c a).Knows c.query (name.map .const) [] :=
      ⟨hk.graph, rfl, List.length_replicate, fun _ hv => by cases hv⟩
    exact ⟨⟨hleft, vs, hk, hanchored.imp id fun ha => (Bool.and_eq_true_iff.mp ha).1⟩,
      hright, [], happart, hanchored.imp id fun ha => (Bool.and_eq_true_iff.mp ha).2⟩
  inside hi := by cases hi.1
  within hi := by cases hi.1

end Context

/-! ### Answers from inside of a graph clause -/

namespace Source

variable {entailment entailment' : Bool} {history history' : List Insertion} {options : Options}
  {name : Option Term} {listed : List Term}

theorem views_of_history (htypes : (options.typeMatching && entailment) = false)
    (hnonempty : name = none → listed ≠ [])
    (hnamed : name = none → ∃ t ∈ listed, t.canonical ∈ history.flatMap Insertion.names) :
    Views { store := .after entailment history, options } name listed where
  valid := (Store.contains_after entailment history).valid
  exactTypes := by
    dsimp only
    rw [Store.entailment_after, htypes]
  nonempty := hnonempty
  named hn hnil := by
    let s : Source := { store := .after entailment history, options }
    have hstore : s.store = .after entailment history := rfl
    exact (graphNodes_eq_nil hstore).mp hnil (hnamed hn)

theorem shares_of_history (htypes : (options.typeMatching && entailment) = false)
    (htypes' : (options.typeMatching && entailment') = false)
    (hnonempty : name = none → listed ≠ [])
    (hnamed : name = none → ∃ t ∈ listed, t.canonical ∈ history.flatMap Insertion.names)
    (hnamed' : name = none → ∃ t ∈ listed, t.canonical ∈ history'.flatMap Insertion.names)
    (hquads : ∀ r : Quad, InView name listed r.graph →
      (r ∈ history.flatMap Insertion.quads ↔ r ∈ history'.flatMap Insertion.quads)) :
    Shares { store := .after entailment history, options }
      { store := .after entailment' history', options } name listed where
  views := views_of_history htypes hnonempty hnamed
  views' := views_of_history htypes' hnonempty hnamed'
  duplicateTest := rfl
  holds_iff r hr := by
    rw [(Store.contains_after entailment history).holds,
      (Store.contains_after entailment' history').holds, hquads r hr]

end Source

namespace Processor

/-- A graph clause isolates what is inside from all other graphs, at least if there are no further
graph clauses. The quads are those that were accepted, in canonical form. -/
theorem evaluate_perm_in_graph (p : Processor) {q : Query} {g : Iri} {inner : Pattern}
    (hbody : q.body = .graph (.const (.iri g)) inner) (hinner : inner.containsGraph = false)
    (hpatterns : ∀ id pattern, (p.scope q).Reaches inner.requests (.existence id) →
      q.pattern? id = some pattern → pattern.containsGraph = false)
    (hsystem : ∀ target, ¬ (p.scope q).Reaches inner.requests (.snapshot target))
    {entailment entailment' : Bool} {history history' : List Insertion} {options : Options}
    (hquads : ∀ r : Quad, r.graph = some (.iri g) →
      (r ∈ history.flatMap Insertion.quads ↔ r ∈ history'.flatMap Insertion.quads))
    (htypes : (options.typeMatching && entailment) = false)
    (htypes' : (options.typeMatching && entailment') = false) (hcap : options.limit = none)
    (hagg : q.isAggregate = false) (hselect : q.select = []) (hoffset : q.offset = 0)
    (hlimit : q.limit = none) {ans ans' : Solutions}
    (h : ((p.filled entailment history options).evaluate q).outcome = .ok ans)
    (h' : ((p.filled entailment' history' options).evaluate q).outcome = .ok ans') :
    (ans.rows.map (·.restrict ans.projection)).Perm
      (ans'.rows.map (·.restrict ans'.projection)) := by
  let c : Context :=
    { query := q, source := (p.filled entailment history options).source, registry := p.registry,
      remembered := p.remembered }
  let s : Source := (p.filled entailment' history' options).source
  have hs : c.source.Shares s (some (.iri g)) q.fromDefault :=
    Source.shares_of_history htypes htypes' (fun hn => by cases hn) (fun hn => by cases hn)
      (fun hn => by cases hn) hquads
  have ha : c.Accord s q.fromDefault q.fromNamed (.inside (some (.const (.iri g))))
      (Pattern.Isolated q (some (.const (.iri g))) True) :=
    Context.accord_of_shares hs (fun _ a hg => hs.startNodes_perm hg) fun _ => trivial
  have hh := Context.hooks_agreeUpToTrail ha hsystem
    (fun {id pattern} hr hp {a} hk => ⟨hpatterns id pattern hr hp, [],
      a.knows_restored q hk.1, .inl trivial⟩) c.depth
  have hstart : (({ Environment.initial q with trail := [0] } : Environment).under
      (some (.const (.iri g)))).Knows q (some (.const (.iri g))) [] :=
    ⟨rfl, rfl, List.length_replicate, fun _ hv => by cases hv⟩
  refine Context.projected_perm_of_agree (c := c) (s := s) (d := q.fromDefault) (n := q.fromNamed)
    (fun item hm => ?_) ?_ hcap hcap hagg hoffset hlimit h h'
  · rw [show c.query.select = [] from hselect] at hm
    cases hm
  · have htrace : ∀ c : Context, c.query = q → c.bodyTrace = inner.trace c (c.hooks c.depth)
        (({ Environment.initial q with trail := [0] } : Environment).under
          (some (.const (.iri g)))) := by
      intro c hc
      rw [Context.bodyTrace, hc, hbody, Pattern.trace]
      rfl
    rw [htrace c rfl, htrace (c.alongside s q.fromDefault q.fromNamed) rfl]
    exact Pattern.agree_trace ha hh inner (fun r hr => .start hr) rfl
      ⟨hinner, [], hstart, .inl trivial⟩

/-- Two stores that share one edge in the graph of the clause, and hold all else outside of it. -/
theorem evaluate_perm_in_graph_of_edge :
    let a : Term := .iri ⟨"a"⟩
    let b : Term := .iri ⟨"b"⟩
    let d : Term := .iri ⟨"d"⟩
    let p : Term := .iri ⟨"p"⟩
    let g : Term := .iri ⟨"g"⟩
    let history : List Insertion := [.extend [⟨b, p, d, none⟩, ⟨a, p, b, some g⟩]]
    let history' : List Insertion :=
      [.extend [⟨a, p, b, some g⟩, ⟨d, p, a, some d⟩, ⟨b, p, b, none⟩]]
    let x : Variable := ⟨"x"⟩
    let y : Variable := ⟨"y"⟩
    let q := Query.ofParts
      { body := .graph (.const g) (.minus
          (.sequence [.path ⟨.var x, .zeroOrMore (.predicate ⟨"p"⟩), .var y⟩,
            .filter (.existence 0)])
          (.edge ⟨.var y, .const p, .var y⟩))
        patterns := [.edge ⟨.var x, .const p, .var ⟨"z"⟩⟩] }
    let run (history : List Insertion) :=
      (Processor.filled { source := { store := {} } } false history {}).evaluate q
    ∃ ans ans', (run history).outcome = .ok ans ∧ (run history').outcome = .ok ans' ∧
      ans.rows.map (·.slots) = [[some a, some a, none], [some a, some b, none]] ∧
      (ans.rows.map (·.restrict ans.projection)).Perm
        (ans'.rows.map (·.restrict ans'.projection)) := by
  intro a b d p g history history' x y q run
  have hrun : (run history).outcome.toOption.map (·.rows.map (·.slots)) =
      some [[some a, some a, none], [some a, some b, none]] := by decide +kernel
  have hrun' : (run history').outcome.toOption.map (fun _ => ()) = some () := by decide +kernel
  obtain ⟨ans, h, hrows⟩ := exists_of_toOption hrun
  obtain ⟨ans', h', -⟩ := exists_of_toOption hrun'
  have hquads : (∀ r ∈ history.flatMap Insertion.quads, r.graph = some g →
      r ∈ history'.flatMap Insertion.quads) ∧ ∀ r ∈ history'.flatMap Insertion.quads,
        r.graph = some g → r ∈ history.flatMap Insertion.quads := by decide +kernel
  have hrequests : ∀ r, (Processor.scope { source := { store := {} } } q).Reaches
      [.existence 0] r → r = .existence 0 := by
    intro r hr
    induction hr with
    | start hr => exact List.mem_singleton.mp hr
    | existence _ hp hr ih =>
      cases ih
      obtain rfl := Option.some.inj hp
      cases hr
    | call _ _ _ ih => cases ih
  refine ⟨ans, ans', h, h', hrows, ?_⟩
  refine evaluate_perm_in_graph _ (q := q) rfl rfl (fun id pattern hr hp => ?_)
    (fun target hr => by cases hrequests _ hr)
    (fun r hr => ⟨fun hm => hquads.1 r hm hr, fun hm => hquads.2 r hm hr⟩) rfl rfl rfl rfl rfl
    rfl rfl h h'
  cases hrequests _ hr
  obtain rfl := Option.some.inj hp
  rfl

end Processor

end GraphQuery
