import GraphQuery.Proofs.Evaluate.Solve
import GraphQuery.Proofs.Evaluate.Trace

/-! The traces of patterns. A pattern is solved by handing the items of its trace on, whatever is
done with them, so what the steps on the way keep is kept by all that a pattern hands on. -/

namespace GraphQuery

/-! ### Traces -/

namespace Context

def traceEnds (c : Context) (target : NodePattern) (reached : List Term) (env : Environment) :
    Trace Environment :=
  .visit (fun i t =>
    match target with
    | .const u => if t = u.canonical then .single (env.choose i) else .stop
    | .var v => .ofBinding ((env.choose i).bind? c.query v t)) 0 reached

def tracePath (c : Context) (p : PathPattern) (env : Environment) : Trace Environment :=
  let (starts, backwards, start, target) := c.walk p env
  .visit (fun i t => (Trace.ofBinding (c.bindStart start t (env.choose i))).bind fun env =>
    c.traceEnds target (c.source.reach ⟨c.query, env, p⟩ p.path backwards t) env) 0 starts

end Context

namespace Pattern

/-- An environment if a test holds, and nothing else. -/
def keepIf (env : Environment) (holds : Bool) : Trace Environment :=
  if holds then .single env else .stop

/-- What a pattern hands on. -/
def trace (c : Context) (h : Hooks) : Pattern → Environment → Trace Environment
  | edge e, env =>
    .visit (fun i o => .ofBinding ((c.bindEdge e env.graph o env).map (·.map (·.choose i)))) 0
      (c.source.matchEdge c.query env e env.graph (Source.restriction c.query env))
  | path p, env => c.tracePath p env
  | sequence items, env => traceAll items env
  | optional left right condition, env =>
    (left.trace c h env).bind fun env =>
      ((right.trace c h (env.choose 0)).bind fun env =>
        .ofRun (keepIf env <$> conditionHolds c h condition env)).orElse (env.choose 1)
  | union left right, env => (left.trace c h (env.choose 0)).append (right.trace c h (env.choose 1))
  | minus left right, env =>
    let excluded := right.trace c h (apart c env)
    .ofRun ((fun _ => (left.trace c h (env.choose 1)).bind fun env =>
      keepIf env !(excluded.items.any fun other =>
        env.solution.sharesSlot other.solution && env.solution.compatible other.solution))
      <$> excluded.drain)
  | filter e, env => .ofRun (keepIf (env.choose 1) <$> e.test c.toScope h (env.choose 0))
  | bind v e, env =>
    .ofRun ((fun t => t.elim (.single (env.choose 1)) fun t =>
      .ofBinding ((env.choose 1).bind? c.query v t.canonical)) <$> e.eval c.toScope h (env.choose 0))
  | graph name inner, env =>
    let inside := { env with graph := some name }
    match name with
    | .var v =>
      if (env.get? c.query v).isNone && inner.containsPath then
        .visit (fun i g => (Trace.ofBinding ((inside.choose i).bind? c.query v g.term)).bind
          (inner.trace c h)) 0 (c.source.namedGraphs c.query.fromNamed)
      else inner.trace c h inside
    | .const _ => inner.trace c h inside
  | values vs rows, env =>
    .visit (fun i row => .ofBinding ((c.bindRow (vs.zip row) env).map (·.map (·.choose i)))) 0 rows
where
  traceAll : List Pattern → Environment → Trace Environment
    | [], env => .single env
    | p :: ps, env => (p.trace c h env).bind (traceAll ps)

end Pattern

/-! ### Solving -/

namespace Context

variable {c : Context} {env : Environment} {σ : Type} {next : Next σ}

theorem binding_eq_run (v : Variable) (t : Term) (s : σ) :
    c.binding v t env next s = (Trace.ofBinding (env.bind? c.query v t)).run next s := by
  rw [binding, Trace.run_ofBinding]
  refine bind_congr fun r => ?_
  cases r with
  | none => rfl
  | some e => exact (Trace.run_single e s).symm

theorem solveEnds_eq_run (target : NodePattern) (reached : List Term) (s : σ) :
    c.solveEnds target reached env next s = (c.traceEnds target reached env).run next s := by
  refine Trace.visit_eq_run (fun i t _ s => ?_) 0 s
  cases target with
  | const u =>
    dsimp only
    split_ifs
    · exact (Trace.run_single _ s).symm
    · rfl
  | var v => exact c.binding_eq_run v t s

theorem solvePath_eq_run (p : PathPattern) (s : σ) :
    c.solvePath p env next s = (c.tracePath p env).run next s := by
  refine Trace.visit_eq_run (fun i t _ s => ?_) 0 s
  rw [Trace.run_bind, Trace.run_ofBinding]
  refine bind_congr fun r => ?_
  cases r with
  | none => rfl
  | some e =>
    rw [Option.elim_some, Trace.run_single]
    exact c.solveEnds_eq_run _ _ s

end Context

namespace Pattern

variable {c : Context} {h : Hooks}

theorem run_map_ofRun {α σ : Type} {next : Context.Next σ} (f : α → Trace Environment) (r : Run α)
    (s : σ) : (Trace.ofRun (f <$> r)).run next s = r >>= fun a => (f a).run next s := by
  rw [Trace.run_ofRun, map_eq_pure_bind, bind_assoc]
  exact bind_congr fun a => pure_bind _ _

theorem run_keepIf {σ : Type} {next : Context.Next σ} (env : Environment) (holds : Bool) (s : σ) :
    (keepIf env holds).run next s = if holds then next env s else pure (.yield s) := by
  cases holds
  · rfl
  · exact Trace.run_single env s

theorem run_bindings {σ : Type} {next : Context.Next σ} {x : Except QueryError (Option Environment)}
    (i : Nat) (s : σ) : (Trace.ofBinding (x.map (·.map (·.choose i)))).run next s =
      Run.ofExcept x >>= fun r => r.elim (pure (.yield s)) fun e => next (e.choose i) s := by
  rcases x with e | _ | e
  · rfl
  · rfl
  · exact Trace.run_single (e.choose i) s

theorem solveAll_eq_run {σ : Type} {next : Context.Next σ} {ps : List Pattern}
    (hps : ∀ p ∈ ps, ∀ (next : Context.Next σ) env s,
      p.solve c h env next s = (p.trace c h env).run next s) (env : Environment) (s : σ) :
    solve.solveAll c h ps env next s = (trace.traceAll c h ps env).run next s := by
  induction ps generalizing env s with
  | nil => rw [solveAll_nil, trace.traceAll, Trace.run_single]
  | cons p ps ih =>
    obtain ⟨hp, hps⟩ := List.forall_mem_cons.mp hps
    rw [solveAll_cons, trace.traceAll, Trace.run_bind, hp]
    exact Trace.run_congr (fun e _ s => ih hps e s) s

/-- Goes on when all matches of an optional pattern have been handed on. -/
def afterMatches {σ : Type} (next : Context.Next σ) (e : Environment) :
    ForInStep (Bool × σ) → Run (ForInStep σ)
  | .done state => pure (.done state.2)
  | .yield (true, s) => pure (.yield s)
  | .yield (false, s) => next e s

theorem run_orElse {σ : Type} {next : Context.Next σ} (t : Trace Environment) (e : Environment)
    (s : σ) : (t.orElse e).run next s =
      t.run (Trace.mark next) (false, s) >>= afterMatches next e := by
  rw [Trace.run_mark, bind_assoc, Trace.orElse, Bool.false_or]
  cases t.items.isEmpty with
  | true =>
    rw [if_pos rfl, Trace.run_append]
    refine bind_congr fun step => ?_
    cases step with
    | done s => exact (pure_bind _ _).symm
    | yield s => exact (Trace.run_single e s).trans (pure_bind _ _).symm
  | false =>
    rw [if_neg Bool.false_ne_true]
    conv_lhs => rw [← bind_pure (t.run next s)]
    refine bind_congr fun step => ?_
    cases step <;> exact (pure_bind _ _).symm

/-- A pattern is solved by a run of its trace. -/
theorem solve_eq_run (p : Pattern) {σ : Type} (next : Context.Next σ) (env : Environment) (s : σ) :
    p.solve c h env next s = (p.trace c h env).run next s := by
  cases p with
  | edge e =>
    rw [solve, trace, Context.solveEdge]
    refine Trace.visit_eq_run (fun i o _ s => ?_) 0 s
    rw [run_bindings]
    refine bind_congr fun r => ?_
    cases r <;> rfl
  | path p =>
    rw [solve, trace, Context.solvePath_eq_run]
  | sequence items =>
    rw [solve_sequence, trace]
    refine solveAll_eq_run (fun p hm next env s => ?_) env s
    have := List.sizeOf_lt_of_mem hm
    exact solve_eq_run p next env s
  | optional left right condition =>
    rw [solve, trace, Trace.run_bind, solve_eq_run left]
    refine Trace.run_congr (fun e _ s => ?_) s
    rw [run_orElse]
    refine Run.bind_eq_bind ?_ fun matched => ?_
    · rw [solve_eq_run right, Trace.run_bind]
      refine Trace.run_congr (fun e' _ state => ?_) (false, s)
      rw [run_map_ofRun]
      have hstep : ∀ holds : Bool, (keepIf e' holds).run (Trace.mark next) state =
          tryMatch next (fun _ => holds) e' state := fun holds => by
        rw [run_keepIf, tryMatch]
        split_ifs
        · refine bind_congr fun step => ?_
          cases step <;> rfl
        · rfl
      cases condition with
      | none => exact ((pure_bind true _).trans (hstep true)).symm
      | some x => exact bind_congr fun holds => (hstep holds).symm
    · rcases matched with ⟨_, s⟩ | ⟨_ | _, s⟩ <;> rfl
  | union left right =>
    rw [solve, trace, Trace.run_append, solve_eq_run left]
    refine bind_congr fun step => ?_
    cases step with
    | done s => rfl
    | yield s => exact solve_eq_run right next (env.choose 1) s
  | minus left right =>
    rw [solve, ← apart, trace, run_map_ofRun, solve_eq_run right, Trace.run_collect, bind_assoc]
    refine bind_congr fun _ => ?_
    rw [pure_bind, Trace.run_bind, solve_eq_run left]
    refine Trace.run_congr (fun e _ s => ?_) s
    rw [run_keepIf]
    simp only [ForInStep.value, List.append_nil, List.any_reverse, List.any_map, Function.comp_def]
    cases (right.trace c h (apart c env)).items.any fun other =>
      e.solution.sharesSlot other.solution && e.solution.compatible other.solution <;> rfl
  | filter e =>
    rw [solve, trace, run_map_ofRun]
    exact bind_congr fun b => (run_keepIf _ b s).symm
  | bind v e =>
    rw [solve, trace, run_map_ofRun]
    refine bind_congr fun t => ?_
    cases t with
    | none => exact (Trace.run_single _ s).symm
    | some t => exact c.binding_eq_run v t.canonical s
  | graph name inner =>
    cases name with
    | const t =>
      rw [solve, trace]
      exact solve_eq_run inner next _ s
    | var v =>
      rw [solve, trace]
      split_ifs
      · refine Trace.visit_eq_run (fun i n _ s => ?_) 0 s
        rw [Context.binding_eq_run, Trace.run_bind]
        exact Trace.run_congr (fun e _ s => solve_eq_run inner next e s) s
      · exact solve_eq_run inner next _ s
  | values vs rows =>
    rw [solve, trace, Context.solveValues]
    refine Trace.visit_eq_run (fun i row _ s => ?_) 0 s
    rw [run_bindings]
    refine bind_congr fun r => ?_
    cases r <;> rfl
termination_by sizeOf p

end Pattern

/-! ### What is kept -/

/-- The same environment with another graph in force. -/
def Environment.under (env : Environment) (g : Option NodePattern) : Environment :=
  { env with graph := g }

/-- Whether a property of environments survives the binding of some variables to some terms. The
graph in force may have no other variables. -/
structure Environment.Stable (q : Query) (V : Variable → Prop) (T : Term → Prop)
    (I : Environment → Prop) : Prop where
  choose : ∀ (e : Environment) i, I e → I (e.choose i)
  bind : ∀ (e : Environment) v t e', V v → T t → I e → e.bind? q v t = .ok (some e') → I e'
  graph : ∀ (e : Environment) n, I e → e.graph = some n → ∀ v ∈ n.vars, V v

/-- Whether all terms of an occurrence have a property. -/
def Occurrence.Carries (o : Occurrence) (T : Term → Prop) : Prop :=
  T o.edge.predicate.term ∧ ∀ position n, o.node position = some n → T n.term

/-- Whether all terms have a property that patterns may be bound to in some evaluation. -/
structure Context.Supplies (c : Context) (T : Term → Prop) : Prop where
  canonical : ∀ t : Term, T t.canonical
  edge : ∀ (env : Environment) (e : EdgePattern), ∀ o ∈ c.source.matchEdge c.query env e env.graph
    (Source.restriction c.query env), o.Carries T
  start : ∀ env : Environment, ∀ t ∈ c.source.startNodes c.query env, T t
  reach : ∀ (env : Environment) (p : PathPattern) (backwards : Bool) (t : Term), T t →
    ∀ u ∈ c.source.reach ⟨c.query, env, p⟩ p.path backwards t, T u
  graph : ∀ g ∈ c.source.namedGraphs c.query.fromNamed, T g.term

theorem Occurrence.carries_any (o : Occurrence) : o.Carries fun _ => True :=
  ⟨trivial, fun _ _ _ => trivial⟩

theorem Context.supplies_any (c : Context) : c.Supplies fun _ => True where
  canonical _ := trivial
  edge _ _ o _ := o.carries_any
  start _ _ _ := trivial
  reach _ _ _ _ _ _ _ := trivial
  graph _ _ := trivial

namespace Pattern

/-- Whether the solutions of a pattern leave the graph in force as it is. -/
def keepsGraph : Pattern → Bool
  | edge _ | path _ | filter _ | bind _ _ | values _ _ => true
  | sequence items => listKeepGraph items
  | optional left right _ | union left right => left.keepsGraph && right.keepsGraph
  | minus left _ => left.keepsGraph
  | graph _ _ => false
where
  listKeepGraph : List Pattern → Bool
    | [] => true
    | p :: ps => p.keepsGraph && listKeepGraph ps

theorem listKeepGraph_iff {ps : List Pattern} :
    keepsGraph.listKeepGraph ps = true ↔ ∀ p ∈ ps, p.keepsGraph = true := by
  induction ps with
  | nil => simp [keepsGraph.listKeepGraph]
  | cons p ps ih => simp [keepsGraph.listKeepGraph, ih]

/-- The names of the graphs that the solutions of a pattern may leave in force. -/
def graphNames : Pattern → List NodePattern
  | edge _ | path _ | filter _ | bind _ _ | values _ _ => []
  | sequence items => listGraphNames items
  | optional left right _ | union left right => left.graphNames ++ right.graphNames
  | minus left _ => left.graphNames
  | graph name inner => name :: inner.graphNames
where
  listGraphNames : List Pattern → List NodePattern
    | [] => []
    | p :: ps => p.graphNames ++ listGraphNames ps

theorem mem_listGraphNames {ps : List Pattern} {n : NodePattern} :
    n ∈ graphNames.listGraphNames ps ↔ ∃ p ∈ ps, n ∈ p.graphNames := by
  induction ps with
  | nil => simp [graphNames.listGraphNames]
  | cons p ps ih => simp [graphNames.listGraphNames, ih]

theorem graphNames_eq_nil (p : Pattern) (hp : p.keepsGraph = true) : p.graphNames = [] := by
  cases p with
  | edge | path | filter | bind | values => rfl
  | sequence items =>
    refine List.eq_nil_iff_forall_not_mem.mpr fun n hn => ?_
    obtain ⟨p, hm, hn⟩ := mem_listGraphNames.mp hn
    have := List.sizeOf_lt_of_mem hm
    rw [graphNames_eq_nil p (listKeepGraph_iff.mp hp p hm)] at hn
    cases hn
  | optional left right | union left right =>
    obtain ⟨hl, hr⟩ := Bool.and_eq_true_iff.mp hp
    rw [graphNames, graphNames_eq_nil left hl, graphNames_eq_nil right hr, List.append_nil]
  | minus left right => exact graphNames_eq_nil left hp
  | graph => cases hp
termination_by sizeOf p

/-- The variables that solving a pattern may bind, apart from those of a graph in force around it. -/
def mayBind : Pattern → List Variable
  | edge e => e.vars
  | path p => p.vars
  | sequence items => listMayBind items
  | optional left right _ | union left right | minus left right => left.mayBind ++ right.mayBind
  | filter _ => []
  | bind v _ => [v]
  | graph name inner => name.vars ++ inner.mayBind
  | values vs _ => vs
where
  listMayBind : List Pattern → List Variable
    | [] => []
    | p :: ps => p.mayBind ++ listMayBind ps

theorem mem_listMayBind {ps : List Pattern} {v : Variable} :
    v ∈ mayBind.listMayBind ps ↔ ∃ p ∈ ps, v ∈ p.mayBind := by
  induction ps with
  | nil => simp [mayBind.listMayBind]
  | cons p ps ih => simp [mayBind.listMayBind, ih]

/-- What a pattern binds occurs in it. -/
theorem mayBind_subset_vars (p : Pattern) : p.mayBind ⊆ p.vars := by
  intro v hv
  cases p with
  | edge | path | values => exact hv
  | sequence items =>
    obtain ⟨p, hm, hv⟩ := mem_listMayBind.mp hv
    have := List.sizeOf_lt_of_mem hm
    exact mem_listVariables.mpr ⟨p, hm, p.mayBind_subset_vars hv⟩
  | optional left right condition =>
    rw [vars, List.mem_append, List.mem_append]
    exact .inl ((List.mem_append.mp hv).imp (left.mayBind_subset_vars ·) (right.mayBind_subset_vars ·))
  | union left right | minus left right =>
    rw [vars, List.mem_append]
    exact (List.mem_append.mp hv).imp (left.mayBind_subset_vars ·) (right.mayBind_subset_vars ·)
  | filter => cases hv
  | bind w e => exact List.mem_append_right _ hv
  | graph name inner =>
    rw [vars, List.mem_append]
    exact (List.mem_append.mp hv).imp_right (inner.mayBind_subset_vars ·)
termination_by sizeOf p

theorem mayBind_of_mem_graphNames (p : Pattern) {n : NodePattern} (hn : n ∈ p.graphNames) :
    n.vars ⊆ p.mayBind := by
  intro v hv
  cases p with
  | edge | path | filter | bind | values => cases hn
  | sequence items =>
    obtain ⟨p, hm, hn⟩ := mem_listGraphNames.mp hn
    have := List.sizeOf_lt_of_mem hm
    exact mem_listMayBind.mpr ⟨p, hm, p.mayBind_of_mem_graphNames hn hv⟩
  | optional left right | union left right =>
    rw [mayBind, List.mem_append]
    exact (List.mem_append.mp hn).imp (left.mayBind_of_mem_graphNames · hv)
      (right.mayBind_of_mem_graphNames · hv)
  | minus left right =>
    rw [mayBind, List.mem_append]
    exact .inl (left.mayBind_of_mem_graphNames hn hv)
  | graph name inner =>
    rw [mayBind, List.mem_append]
    rcases List.mem_cons.mp hn with rfl | hn
    · exact .inl hv
    · exact .inr (inner.mayBind_of_mem_graphNames hn hv)
termination_by sizeOf p

theorem vars_of_mem_graphNames (p : Pattern) {n : NodePattern} (hn : n ∈ p.graphNames) :
    ∀ v ∈ n.vars, v ∈ p.vars := fun _ hv =>
  p.mayBind_subset_vars (p.mayBind_of_mem_graphNames hn hv)

end Pattern

namespace Context

variable {c : Context} {V : Variable → Prop} {T : Term → Prop} {I : Environment → Prop}
  {env env' : Environment} {o : Occurrence}

theorem kept_bindPosition (hI : Environment.Stable c.query V T I) {position : Position}
    {n : NodePattern} (ho : o.Carries T) (hn : ∀ v ∈ n.vars, V v) (hi : I env)
    (h : c.bindPosition o position n env = .ok (some env')) : I env' := by
  unfold bindPosition at h
  cases hnode : o.node position with
  | none => simp [hnode, pure, Except.pure] at h
  | some actual =>
    cases n with
    | const t =>
      simp only [hnode, pure, Except.pure, Except.ok.injEq] at h
      split_ifs at h
      rwa [← Option.some.inj h]
    | var v =>
      cases hv : env.get? c.query v with
      | some t =>
        simp only [hnode, hv, pure, Except.pure, Except.ok.injEq] at h
        split_ifs at h
        rwa [← Option.some.inj h]
      | none =>
        simp only [hnode, hv] at h
        exact hI.bind env v _ env' (hn v (by simp [NodePattern.vars, NodePattern.asVariable]))
          (ho.2 position actual hnode) hi h

theorem kept_bindPositions (hI : Environment.Stable c.query V T I)
    {ps : List (Position × NodePattern)} (ho : o.Carries T) (hps : ∀ p ∈ ps, ∀ v ∈ p.2.vars, V v)
    (hi : I env)
    (h : c.bindPositions o ps env = .ok (some env')) : I env' := by
  induction ps generalizing env with
  | nil =>
    cases h
    exact hi
  | cons p ps ih =>
    obtain ⟨position, n⟩ := p
    obtain ⟨hp, hps⟩ := List.forall_mem_cons.mp hps
    rw [bindPositions] at h
    cases hb : c.bindPosition o position n env with
    | error e => simp [hb, Bind.bind, Except.bind] at h
    | ok r =>
      cases r with
      | none => simp [hb, Bind.bind, Except.bind, pure, Except.pure] at h
      | some env₁ =>
        simp only [hb, Bind.bind, Except.bind] at h
        exact ih hps (kept_bindPosition hI ho hp hi hb) h

theorem kept_bindEdge (hI : Environment.Stable c.query V T I) {e : EdgePattern}
    {g : Option NodePattern} (ho : o.Carries T) (he : ∀ v ∈ e.vars, V v) (hg : ∀ n, g = some n → ∀ v ∈ n.vars, V v)
    (hi : I env) (h : c.bindEdge e g o env = .ok (some env')) : I env' := by
  simp only [EdgePattern.vars, List.mem_append] at he
  have hps : ∀ p ∈ [(Position.subject, e.subject), (.object, e.object)] ++
      (g.map fun g => (Position.graph, g)).toList, ∀ v ∈ p.2.vars, V v := by
    intro p hp v hv
    simp only [List.mem_append, List.mem_cons, List.not_mem_nil, or_false, Option.mem_toList,
      Option.map_eq_some_iff] at hp
    rcases hp with (rfl | rfl) | ⟨n, hn, rfl⟩
    · exact he v (.inl (.inl hv))
    · exact he v (.inr hv)
    · exact hg n hn v hv
  unfold bindEdge at h
  cases hpred : e.predicate with
  | const t =>
    simp only [hpred, Bind.bind, Except.bind, pure, Except.pure] at h
    exact kept_bindPositions hI ho hps hi h
  | var v =>
    have hv : V v := he v (by simp [hpred, NodePattern.vars, NodePattern.asVariable])
    cases hb : env.bind? c.query v o.edge.predicate.term with
    | error e => simp [hpred, hb, Bind.bind, Except.bind] at h
    | ok r =>
      cases r with
      | none => simp [hpred, hb, Bind.bind, Except.bind, pure, Except.pure] at h
      | some env₁ =>
        simp only [hpred, hb, Bind.bind, Except.bind] at h
        exact kept_bindPositions hI ho hps (hI.bind env v _ env₁ hv ho.1 hi hb) h

theorem kept_bindRow (hI : Environment.Stable c.query V T I) {cells : List (Variable × Option Term)}
    (hT : ∀ t : Term, T t.canonical) (hv : ∀ cell ∈ cells, V cell.1) (hi : I env)
    (h : c.bindRow cells env = .ok (some env')) : I env' := by
  induction cells generalizing env with
  | nil =>
    cases h
    exact hi
  | cons cell cells ih =>
    obtain ⟨hc, hcs⟩ := List.forall_mem_cons.mp hv
    obtain ⟨v, t⟩ := cell
    cases t with
    | none => exact ih hcs hi h
    | some t =>
      rw [bindRow] at h
      cases hb : env.bind? c.query v t.canonical with
      | error e => simp [hb, Bind.bind, Except.bind] at h
      | ok r =>
        cases r with
        | none => simp [hb, Bind.bind, Except.bind, pure, Except.pure] at h
        | some env₁ =>
          simp only [hb, Bind.bind, Except.bind] at h
          exact ih hcs (hI.bind env v _ env₁ hc (hT t) hi hb) h

theorem kept_bindings (hI : Environment.Stable c.query V T I)
    {x : Except QueryError (Option Environment)} (hx : ∀ e, x = .ok (some e) → I e) (i : Nat) :
    ∀ e ∈ (Trace.ofBinding (x.map (·.map (·.choose i)))).items, I e := by
  intro e he
  have := Trace.mem_of_ofBinding he
  rcases x with x | _ | e₁
  · cases this
  · cases this
  · obtain rfl := Option.some.inj (Except.ok.inj this)
    exact hI.choose e₁ i (hx e₁ rfl)

/-! ### Paths -/

theorem kept_traceEnds (hI : Environment.Stable c.query V T I) {target : NodePattern}
    {reached : List Term} (hr : ∀ t ∈ reached, T t) (ht : ∀ v ∈ target.vars, V v) (hi : I env) :
    ∀ e ∈ (c.traceEnds target reached env).items, I e := by
  intro e he
  obtain ⟨i, t, hreached, he⟩ := Trace.mem_of_visit he
  cases target with
  | const u =>
    dsimp only at he
    split_ifs at he
    · rw [List.mem_singleton.mp he]
      exact hI.choose env i hi
    · cases he
  | var v =>
    exact hI.bind _ v t e (ht v (by simp [NodePattern.vars, NodePattern.asVariable]))
      (hr t hreached) (hI.choose env i hi) (Trace.mem_of_ofBinding he)

theorem kept_bindStart (hI : Environment.Stable c.query V T I) {start : NodePattern} {t : Term}
    (ht : T t) (hs : ∀ v ∈ start.vars, V v) (hi : I env) (h : c.bindStart start t env = .ok (some env')) :
    I env' := by
  cases start with
  | const u =>
    cases h
    exact hi
  | var v =>
    exact hI.bind env v t env' (hs v (by simp [NodePattern.vars, NodePattern.asVariable])) ht hi h

theorem walk_ends (c : Context) (p : PathPattern) (env : Environment) :
    ((c.walk p env).2.2.1 = p.subject ∧ (c.walk p env).2.2.2 = p.object) ∨
      ((c.walk p env).2.2.1 = p.object ∧ (c.walk p env).2.2.2 = p.subject) := by
  unfold walk
  dsimp only
  split
  · exact .inl ⟨rfl, rfl⟩
  · exact .inr ⟨rfl, rfl⟩
  · exact .inl ⟨rfl, rfl⟩

theorem supplied_walk (hT : c.Supplies T) (p : PathPattern) (env : Environment) :
    ∀ t ∈ (c.walk p env).1, T t := by
  have hone : ∀ {n : NodePattern} {t u : Term},
      (Source.valueOf? c.query env n).map Term.canonical = some t → u ∈ [t] → T u :=
    fun hn hu => by
      obtain ⟨w, -, rfl⟩ := Option.map_eq_some_iff.mp hn
      rw [List.mem_singleton.mp hu]
      exact hT.canonical w
  intro t ht
  unfold walk at ht
  dsimp only at ht
  split at ht
  next hn => exact hone hn ht
  next hn => exact hone hn ht
  next => exact hT.start env t ht

theorem kept_tracePath (hI : Environment.Stable c.query V T I) (hT : c.Supplies T)
    {p : PathPattern} (hp : ∀ v ∈ p.vars, V v) (hi : I env) : ∀ e ∈ (c.tracePath p env).items, I e := by
  have hends : (∀ v ∈ (c.walk p env).2.2.1.vars, V v) ∧ ∀ v ∈ (c.walk p env).2.2.2.vars, V v := by
    have hs : ∀ v ∈ p.subject.vars, V v := fun v hv => hp v (List.mem_append_left _ hv)
    have ho : ∀ v ∈ p.object.vars, V v := fun v hv => hp v (List.mem_append_right _ hv)
    rcases c.walk_ends p env with ⟨h₁, h₂⟩ | ⟨h₁, h₂⟩
    · exact ⟨h₁ ▸ hs, h₂ ▸ ho⟩
    · exact ⟨h₁ ▸ ho, h₂ ▸ hs⟩
  intro e he
  obtain ⟨i, t, ht, he⟩ := Trace.mem_of_visit he
  obtain ⟨e₁, he₁, he⟩ := Trace.mem_of_bind he
  have ht := c.supplied_walk hT p env t ht
  have h₁ := kept_bindStart hI ht hends.1 (hI.choose env i hi) (Trace.mem_of_ofBinding he₁)
  exact kept_traceEnds hI (hT.reach e₁ p _ t ht) hends.2 h₁ e he

end Context

namespace Pattern

variable {c : Context} {h : Hooks} {V : Variable → Prop} {T : Term → Prop}
  {I : Environment → Prop}

theorem mem_keepIf {env e : Environment} {holds : Bool} (he : e ∈ (keepIf env holds).items) :
    e = env := by
  cases holds
  · cases he
  · exact List.mem_singleton.mp he

theorem mem_map_ofRun {α : Type} {f : α → Trace Environment} {r : Run α} {e : Environment}
    (he : e ∈ (Trace.ofRun (f <$> r)).items) : ∃ a, r.outcome = .ok a ∧ e ∈ (f a).items := by
  obtain ⟨t, ht, he⟩ := Trace.mem_of_ofRun he
  rw [map_eq_pure_bind] at ht
  obtain ⟨a, ha, hf⟩ := Run.outcome_bind_eq_ok ht
  cases hf
  exact ⟨a, ha, he⟩

theorem kept_traceAll {ps : List Pattern}
    (hps : ∀ p ∈ ps, ∀ env, I env → ∀ e ∈ (p.trace c h env).items, I e) {env : Environment}
    (hi : I env) : ∀ e ∈ (trace.traceAll c h ps env).items, I e := by
  induction ps generalizing env with
  | nil =>
    intro e he
    rw [trace.traceAll] at he
    rwa [List.mem_singleton.mp he]
  | cons p ps ih =>
    obtain ⟨hp, hps⟩ := List.forall_mem_cons.mp hps
    intro e he
    rw [trace.traceAll] at he
    obtain ⟨e₁, he₁, he⟩ := Trace.mem_of_bind he
    exact ih hps (hp env hi e₁ he₁) e he

/-- Whatever survives the bindings of a pattern and the graphs that it enters holds of all that the
pattern hands on. -/
theorem kept_of_names (hI : Environment.Stable c.query V T I) (hT : c.Supplies T) (p : Pattern) (env : Environment)
    (hv : ∀ v ∈ p.vars, V v)
    (hg : ∀ n ∈ p.graphNames, ∀ e : Environment, I e → I (e.under (some n)))
    (hi : I env) : ∀ e ∈ (p.trace c h env).items, I e := by
  intro e he
  cases p with
  | edge x =>
    rw [trace] at he
    obtain ⟨i, o, ho, he⟩ := Trace.mem_of_visit he
    exact Context.kept_bindings hI (fun e₁ he₁ =>
      Context.kept_bindEdge hI (hT.edge env x o ho) hv (hI.graph env · hi) hi he₁) i e he
  | path p =>
    rw [trace] at he
    exact Context.kept_tracePath hI hT hv hi e he
  | sequence items =>
    rw [trace] at he
    refine kept_traceAll (fun p hm env hi => ?_) hi e he
    have := List.sizeOf_lt_of_mem hm
    exact kept_of_names hI hT p env (fun v hvp => hv v (mem_listVariables.mpr ⟨p, hm, hvp⟩))
      (fun n hn => hg n (mem_listGraphNames.mpr ⟨p, hm, hn⟩)) hi
  | optional left right condition =>
    simp only [vars, List.mem_append] at hv
    rw [trace] at he
    obtain ⟨e₁, he₁, he⟩ := Trace.mem_of_bind he
    have h₁ := kept_of_names hI hT left env (fun v hvl => hv v (.inl (.inl hvl)))
      (fun n hn => hg n (List.mem_append_left _ hn)) hi e₁ he₁
    rcases Trace.mem_of_orElse he with he | rfl
    · obtain ⟨e₂, he₂, he⟩ := Trace.mem_of_bind he
      obtain ⟨b, -, he⟩ := mem_map_ofRun he
      rw [mem_keepIf he]
      exact kept_of_names hI hT right (e₁.choose 0) (fun v hvr => hv v (.inl (.inr hvr)))
        (fun n hn => hg n (List.mem_append_right _ hn)) (hI.choose e₁ 0 h₁) e₂ he₂
    · exact hI.choose e₁ 1 h₁
  | union left right =>
    simp only [vars, List.mem_append] at hv
    rw [trace] at he
    rcases Trace.mem_of_append he with he | he
    · exact kept_of_names hI hT left (env.choose 0) (fun v hvl => hv v (.inl hvl))
        (fun n hn => hg n (List.mem_append_left _ hn)) (hI.choose env 0 hi) e he
    · exact kept_of_names hI hT right (env.choose 1) (fun v hvr => hv v (.inr hvr))
        (fun n hn => hg n (List.mem_append_right _ hn)) (hI.choose env 1 hi) e he
  | minus left right =>
    simp only [vars, List.mem_append] at hv
    rw [trace] at he
    obtain ⟨_, -, he⟩ := mem_map_ofRun he
    obtain ⟨e₁, he₁, he⟩ := Trace.mem_of_bind he
    rw [mem_keepIf he]
    exact kept_of_names hI hT left (env.choose 1) (fun v hvl => hv v (.inl hvl)) hg (hI.choose env 1 hi) e₁ he₁
  | filter x =>
    rw [trace] at he
    obtain ⟨b, -, he⟩ := mem_map_ofRun he
    rw [mem_keepIf he]
    exact hI.choose env 1 hi
  | bind v x =>
    rw [trace] at he
    obtain ⟨t, -, he⟩ := mem_map_ofRun he
    cases t with
    | none =>
      rw [List.mem_singleton.mp he]
      exact hI.choose env 1 hi
    | some t =>
      exact hI.bind _ v _ e (hv v (List.mem_append_right _ List.mem_cons_self)) (hT.canonical t)
        (hI.choose env 1 hi) (Trace.mem_of_ofBinding he)
  | graph name inner =>
    simp only [vars, List.mem_append] at hv
    have hname : ∀ v ∈ name.vars, V v := fun v hvn => hv v (.inl hvn)
    have hu : ∀ e : Environment, I e → I (e.under (some name)) := hg name List.mem_cons_self
    have hin : ∀ e₁, I e₁ → ∀ e ∈ (inner.trace c h e₁).items, I e := fun e₁ h₁ =>
      kept_of_names hI hT inner e₁ (fun v hvi => hv v (.inr hvi))
        (fun n hn => hg n (List.mem_cons_of_mem _ hn)) h₁
    cases name with
    | const t =>
      rw [trace] at he
      exact hin _ (hu env hi) e he
    | var v =>
      rw [trace] at he
      split_ifs at he
      · obtain ⟨i, g, hg, he⟩ := Trace.mem_of_visit he
        obtain ⟨e₁, he₁, he⟩ := Trace.mem_of_bind he
        have hvv : V v := hname v (by simp [NodePattern.vars, NodePattern.asVariable])
        exact hin e₁ (hI.bind _ v _ e₁ hvv (hT.graph g hg) (hI.choose _ i (hu env hi))
          (Trace.mem_of_ofBinding he₁)) e he
      · exact hin _ (hu env hi) e he
  | values vs rows =>
    rw [trace] at he
    obtain ⟨i, row, -, he⟩ := Trace.mem_of_visit he
    exact Context.kept_bindings hI (fun e₁ he₁ => Context.kept_bindRow hI
      hT.canonical (fun cell hc => hv _ (List.of_mem_zip hc).1) hi he₁) i e he
termination_by sizeOf p

/-- Whatever survives the bindings of a pattern, and its graph clauses if it has any, holds of all
that the pattern hands on. -/
theorem kept (hI : Environment.Stable c.query V T I) (hT : c.Supplies T) (p : Pattern) (env : Environment)
    (hv : ∀ v ∈ p.vars, V v)
    (hg : p.keepsGraph = true ∨ ∀ (e : Environment) n, (∀ v ∈ n.vars, V v) → I e →
      I (e.under (some n)))
    (hi : I env) : ∀ e ∈ (p.trace c h env).items, I e := by
  refine kept_of_names hI hT p env hv (fun n hn e he => ?_) hi
  rcases hg with hk | hu
  · rw [p.graphNames_eq_nil hk] at hn
    cases hn
  · exact hu e n (fun v hvn => hv v (p.vars_of_mem_graphNames hn v hvn)) he

end Pattern

end GraphQuery
