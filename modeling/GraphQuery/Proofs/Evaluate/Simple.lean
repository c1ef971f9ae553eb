import GraphQuery.Proofs.Evaluate.BasicPattern
import GraphQuery.Proofs.Evaluate.Failures
import GraphQuery.Proofs.Evaluate.GraphClause
import GraphQuery.Proofs.Evaluate.Results

/-! Patterns of edges, paths and pure filters. Their search never fails and goes through all of
their results, and the results bind the same whatever way an environment was reached on. -/

namespace GraphQuery

/-! ### Traces without errors and events -/

namespace Trace

variable {α β σ : Type} {t u : Trace α}

/-- Whether there is nothing in a trace but items. -/
inductive Clean {α : Type} : Trace α → Prop
  | stop : Clean stop
  | item (a : α) {t : Trace α} : Clean t → Clean (item a t)

namespace Clean

theorem single (a : α) : Clean (single a) := .item a .stop

theorem append (ht : t.Clean) (hu : u.Clean) : (t.append u).Clean := by
  induction ht with
  | stop => exact hu
  | item a _ ih => exact .item a ih

theorem bind {f : α → Trace β} (ht : t.Clean) (hf : ∀ a ∈ t.items, (f a).Clean) :
    (t.bind f).Clean := by
  induction ht with
  | stop => exact .stop
  | item a _ ih =>
    obtain ⟨ha, hf⟩ := List.forall_mem_cons.mp hf
    exact ha.append (ih hf)

theorem visit {f : Nat → β → Trace α} {bs : List β} (hf : ∀ i, ∀ b ∈ bs, (f i b).Clean) (i : Nat) :
    (visit f i bs).Clean := by
  induction bs generalizing i with
  | nil => exact .stop
  | cons b bs ih =>
    exact (hf i b List.mem_cons_self).append
      (ih (fun j b hb => hf j b (List.mem_cons_of_mem _ hb)) (i + 1))

theorem ofBinding (r : Option α) : (ofBinding (.ok r)).Clean := by
  cases r with
  | none => exact .stop
  | some a => exact single a

theorem drain_eq (ht : t.Clean) : t.drain = pure () := by
  induction ht with
  | stop => rfl
  | item a _ ih => exact ih

theorem run_eq {next : α → σ → Run (ForInStep σ)} (ht : t.Clean) (s : σ) :
    t.run next s = Run.each next t.items s := by
  induction ht generalizing s with
  | stop => rfl
  | item a _ ih =>
    rw [run, items, Run.each_cons]
    exact congrArg _ (funext ih)

end Clean

end Trace

/-! ### Simple patterns -/

namespace Pattern

/-- Whether a pattern consists of edges, paths and pure filters that are put together in sequences,
alternatives and differences. -/
def isSimple : Pattern → Bool
  | edge _ | path _ => true
  | sequence items => allSimple items
  | union l r | minus l r => l.isSimple && r.isSimple
  | filter e => e.isPure
  | optional _ _ _ | bind _ _ | graph _ _ | values _ _ => false
where
  allSimple : List Pattern → Bool
    | [] => true
    | p :: ps => p.isSimple && allSimple ps

theorem allSimple_iff {ps : List Pattern} :
    isSimple.allSimple ps = true ↔ ∀ p ∈ ps, p.isSimple = true := by
  induction ps with
  | nil => simp [isSimple.allSimple]
  | cons p ps ih => simp [isSimple.allSimple, ih]

theorem keepsGraph_of_isSimple (p : Pattern) (hp : p.isSimple = true) : p.keepsGraph = true := by
  cases p with
  | edge | path | filter => rfl
  | sequence items =>
    refine listKeepGraph_iff.mpr fun p hm => ?_
    have := List.sizeOf_lt_of_mem hm
    exact keepsGraph_of_isSimple p (allSimple_iff.mp hp p hm)
  | union l r =>
    obtain ⟨hl, hr⟩ := Bool.and_eq_true_iff.mp hp
    exact Bool.and_eq_true_iff.mpr ⟨keepsGraph_of_isSimple l hl, keepsGraph_of_isSimple r hr⟩
  | minus l r => exact keepsGraph_of_isSimple l (Bool.and_eq_true_iff.mp hp).1
  | _ => cases hp
termination_by sizeOf p

end Pattern

/-! ### No errors -/

namespace Context

variable {c : Context} {env : Environment}

theorem exists_bind {q : Query} {v : Variable} (hv : v ∈ q.vars) (t : Term) :
    ∃ r, env.bind? q v t = .ok r := by
  cases hb : env.binding? q v with
  | none => exact ⟨_, Environment.bind_of_free hv hb t⟩
  | some u => exact ⟨_, Environment.bind_of_bound hb t⟩

/-- The variables of the graph in force are those of the query. -/
def DeclaresGraph (c : Context) (env : Environment) : Prop :=
  ∀ n, env.graph = some n → ∀ v ∈ n.vars, v ∈ c.query.vars

theorem clean_traceEnds {target : NodePattern} (ht : ∀ v ∈ target.vars, v ∈ c.query.vars)
    (reached : List Term) : (c.traceEnds target reached env).Clean := by
  refine .visit (fun i t _ => ?_) 0
  cases target with
  | const u =>
    dsimp only
    split_ifs
    · exact .single _
    · exact .stop
  | var v =>
    obtain ⟨r, hr⟩ : ∃ r, (env.choose i).bind? c.query v t = .ok r :=
      exists_bind (NodePattern.forall_mem_vars.mp ht) t
    dsimp only
    rw [hr]
    exact .ofBinding r

theorem clean_tracePath {p : PathPattern} (hp : ∀ v ∈ p.vars, v ∈ c.query.vars) :
    (c.tracePath p env).Clean := by
  have hs : ∀ v ∈ p.subject.vars, v ∈ c.query.vars := fun v hv => hp v (List.mem_append_left _ hv)
  have ho : ∀ v ∈ p.object.vars, v ∈ c.query.vars := fun v hv => hp v (List.mem_append_right _ hv)
  have hends : (∀ v ∈ (c.walk p env).2.2.1.vars, v ∈ c.query.vars) ∧
      ∀ v ∈ (c.walk p env).2.2.2.vars, v ∈ c.query.vars := by
    rcases c.walk_ends p env with ⟨h₁, h₂⟩ | ⟨h₁, h₂⟩
    · exact ⟨h₁ ▸ hs, h₂ ▸ ho⟩
    · exact ⟨h₁ ▸ ho, h₂ ▸ hs⟩
  rcases hwalk : c.walk p env with ⟨starts, backwards, start, target⟩
  rw [hwalk] at hends
  rw [tracePath, hwalk]
  refine .visit (fun i t _ => ?_) 0
  have hstart : Ends (fun _ => False) (fun _ => True) (c.bindStart start t (env.choose i)) :=
    ends_bindStart (fun v hv => .inl (hends.1 v hv)) t
  obtain ⟨r, hr, -⟩ := hstart.exists_ok
  rw [hr]
  exact (Trace.Clean.ofBinding r).bind fun e _ => clean_traceEnds hends.2 _

end Context

namespace Pattern

variable {c : Context} {h : Hooks} {env : Environment}

theorem clean_keepIf (env : Environment) (b : Bool) : (keepIf env b).Clean := by
  cases b
  · exact .stop
  · exact .single env

theorem exists_test_eq_pure {e : Expr} (he : e.isPure = true) (env : Environment) :
    ∃ b, e.test c.toScope h env = pure b := by
  obtain ⟨t, ht⟩ := Expr.exists_eval_eq_pure (c := c.toScope) (h := h) he env
  exact ⟨_, by rw [Expr.test, ht, pure_bind]⟩

/-- Nothing fails in a simple pattern if its variables are those of the query. -/
theorem clean_trace (p : Pattern) (env : Environment) (hp : p.isSimple = true)
    (hv : ∀ v ∈ p.vars, v ∈ c.query.vars) (hg : c.DeclaresGraph env) :
    (p.trace c h env).Clean := by
  cases p with
  | edge e =>
    rw [trace]
    refine .visit (fun i o _ => ?_) 0
    have hedge : Ends (fun _ => False) (fun _ => True) (c.bindEdge e env.graph o env) :=
      Context.ends_bindEdge (fun v hm => .inl (hv v hm)) fun n hn v hm => .inl (hg n hn v hm)
    obtain ⟨r, hr, -⟩ := hedge.exists_ok
    rw [hr]
    exact .ofBinding _
  | path p =>
    rw [trace]
    exact Context.clean_tracePath hv
  | sequence items =>
    rw [trace]
    have hall : ∀ ps : List Pattern, (∀ p ∈ ps, p ∈ items) → ∀ env, c.DeclaresGraph env →
        (trace.traceAll c h ps env).Clean := by
      intro ps
      induction ps with
      | nil => exact fun _ env _ => .single env
      | cons p ps ih =>
        intro hps env hg
        obtain ⟨hm, hps⟩ := List.forall_mem_cons.mp hps
        have := List.sizeOf_lt_of_mem hm
        have hsimple := allSimple_iff.mp hp p hm
        refine (clean_trace p env hsimple (fun v hvp => hv v (mem_listVariables.mpr ⟨p, hm, hvp⟩))
          hg).bind fun e he => ih hps e ?_
        rw [Context.DeclaresGraph, graph_of_trace (keepsGraph_of_isSimple p hsimple) he]
        exact hg
    exact hall items (fun _ hm => hm) env hg
  | union l r =>
    obtain ⟨hl, hr⟩ := Bool.and_eq_true_iff.mp hp
    rw [trace]
    exact (clean_trace l (env.choose 0) hl (fun v hm => hv v (List.mem_append_left _ hm)) hg).append
      (clean_trace r (env.choose 1) hr (fun v hm => hv v (List.mem_append_right _ hm)) hg)
  | minus l r =>
    obtain ⟨hl, hr⟩ := Bool.and_eq_true_iff.mp hp
    have hright : (r.trace c h (apart c env)).Clean :=
      clean_trace r _ hr (fun v hm => hv v (List.mem_append_right _ hm)) hg
    rw [trace, hright.drain_eq, map_pure]
    change (Trace.bind _ _).Clean
    exact (clean_trace l (env.choose 1) hl (fun v hm => hv v (List.mem_append_left _ hm)) hg).bind
      fun e _ => clean_keepIf e _
  | filter e =>
    obtain ⟨b, hb⟩ := exists_test_eq_pure (c := c) (h := h) hp (env.choose 0)
    rw [trace, hb, map_pure]
    exact clean_keepIf _ b
  | _ => cases hp
termination_by sizeOf p

/-- Without errors and events, the results of a pattern are all that it hands on. -/
theorem yields_results {p : Pattern} (hp : (p.trace c h env).Clean) :
    p.Yields c h env (p.results c h env) := fun σ next s => by
  have hdrain : (p.trace c h env).drain.outcome = .ok () := by
    rw [hp.drain_eq]
    rfl
  rw [solve_eq_run, hp.run_eq, (covers_results p env).items_eq hdrain]

theorem Yields.eq_results {p : Pattern} {l : List Environment} (hl : p.Yields c h env l) :
    l = p.results c h env := by
  have hcollect : (p.trace c h env).run (fun e found => pure (.yield (id e :: found))) [] =
      pure (.yield ((l.map id).reverse ++ [])) := by
    rw [← solve_eq_run, hl.solve_eq]
    exact each_collect id l []
  rw [Trace.run_collect] at hcollect
  obtain ⟨u, hdrain, hitems⟩ := Run.outcome_bind_eq_ok (congrArg Run.outcome hcollect)
  have hitems := ForInStep.yield.inj (Except.ok.inj hitems)
  rw [← (covers_results p env).items_eq hdrain]
  simpa using hitems.symm

end Pattern

/-! ### The way to an environment -/

/-- An environment without the way on which it was reached. -/
def Environment.withoutTrail (env : Environment) : Environment := { env with trail := [] }

/-- Memories in one place that bind the same are the same up to the ways to them. -/
theorem Environment.Fits.withoutTrail_eq {q : Query} {env env' : Environment} (hf : env.Fits q)
    (hf' : env'.Fits q) (hm : env.mapping q = env'.mapping q) (hg : env.graph = env'.graph)
    (hgroup : env.group = env'.group) : env.withoutTrail = env'.withoutTrail := by
  have hb : env.bindings = env'.bindings := by rw [hf.bindings_eq, hf'.bindings_eq, hm]
  have hl : env.locals = env'.locals := hf.locals.trans hf'.locals.symm
  rw [withoutTrail, withoutTrail, hb, hl, hg, hgroup]

namespace Context

variable {c : Context} {env : Environment}

theorem bind_withoutTrail (q : Query) (v : Variable) (t : Term) :
    env.withoutTrail.bind? q v t = (env.bind? q v t).map (Option.map Environment.withoutTrail) := by
  unfold Environment.bind? Environment.bind
  cases q.slot? v with
  | none => rfl
  | some slot =>
    simp only [Environment.withoutTrail]
    cases hb : (env.bindings[slot]?).join with
    | none => rfl
    | some u => by_cases hu : u = t <;> simp only [hu] <;> rfl

theorem bindStart_withoutTrail (n : NodePattern) (t : Term) :
    c.bindStart n t env.withoutTrail =
      (c.bindStart n t env).map (Option.map Environment.withoutTrail) := by
  cases n with
  | const u => rfl
  | var v => exact bind_withoutTrail c.query v t

theorem bindPosition_withoutTrail (o : Occurrence) (position : Position) (n : NodePattern) :
    c.bindPosition o position n env.withoutTrail =
      (c.bindPosition o position n env).map (Option.map Environment.withoutTrail) := by
  unfold bindPosition
  cases o.node position with
  | none => rfl
  | some actual =>
    cases n with
    | const t =>
      dsimp only
      split_ifs <;> rfl
    | var v =>
      have hget : env.withoutTrail.get? c.query v = env.get? c.query v := rfl
      dsimp only
      rw [hget]
      cases env.get? c.query v with
      | some t =>
        dsimp only
        split_ifs <;> rfl
      | none => exact bind_withoutTrail c.query v _

theorem bindPositions_withoutTrail (o : Occurrence) (ps : List (Position × NodePattern)) :
    c.bindPositions o ps env.withoutTrail =
      (c.bindPositions o ps env).map (Option.map Environment.withoutTrail) := by
  induction ps generalizing env with
  | nil => rfl
  | cons p ps ih =>
    rw [bindPositions, bindPositions, bindPosition_withoutTrail]
    rcases c.bindPosition o p.1 p.2 env with e | _ | e
    · rfl
    · rfl
    · exact ih

theorem bindEdge_withoutTrail (e : EdgePattern) (g : Option NodePattern) (o : Occurrence) :
    c.bindEdge e g o env.withoutTrail =
      (c.bindEdge e g o env).map (Option.map Environment.withoutTrail) := by
  rw [bindEdge_eq_bindStart, bindEdge_eq_bindStart, bindStart_withoutTrail]
  rcases c.bindStart e.predicate o.edge.predicate.term env with e | _ | e
  · rfl
  · rfl
  · exact bindPositions_withoutTrail o _

theorem reach_withoutTrail (p : PathPattern) (path : Path) (backwards : Bool) :
    c.source.reach ⟨c.query, env.withoutTrail, p⟩ path backwards =
      c.source.reach ⟨c.query, env, p⟩ path backwards := by
  have hstep : ∀ step, c.source.stepFrom ⟨c.query, env.withoutTrail, p⟩ step =
      c.source.stepFrom ⟨c.query, env, p⟩ step := fun _ => rfl
  exact Source.reach_congr hstep rfl path backwards

end Context

/-- Whether the environments that are made of an environment are the same, up to the ways on which
they are reached, whatever way that one was reached on. -/
def TrailFree (f : Environment → List Environment) : Prop :=
  ∀ e, (f e.withoutTrail).map Environment.withoutTrail = (f e).map Environment.withoutTrail

namespace TrailFree

variable {f g : Environment → List Environment} {e e' : Environment}

theorem eq (hf : TrailFree f) (he : e.withoutTrail = e'.withoutTrail) :
    (f e).map Environment.withoutTrail = (f e').map Environment.withoutTrail := by
  rw [← hf e, he, hf e']

theorem map_mapping (hf : TrailFree f) (he : e.withoutTrail = e'.withoutTrail) (q : Query) :
    (f e).map (·.mapping q) = (f e').map (·.mapping q) := by
  have hmap := congrArg (List.map (·.mapping q)) (hf.eq he)
  rwa [List.map_map, List.map_map] at hmap

theorem single (i : Nat) : TrailFree fun e => [e.choose i] := fun _ => rfl

theorem choose (hf : TrailFree f) (i : Nat) : TrailFree fun e => f (e.choose i) :=
  fun _ => hf.eq rfl

theorem map_choose (hf : TrailFree f) (i : Nat) : TrailFree fun e => (f e).map (·.choose i) := by
  intro e
  rw [List.map_map, List.map_map]
  exact hf e

theorem append (hf : TrailFree f) (hg : TrailFree g) : TrailFree fun e => f e ++ g e := by
  intro e
  rw [List.map_append, List.map_append, hf e, hg e]

theorem flatMap (hf : TrailFree f) (hg : TrailFree g) : TrailFree fun e => (f e).flatMap g := by
  have hmap : ∀ l : List Environment, (l.flatMap g).map Environment.withoutTrail =
      (l.map Environment.withoutTrail).flatMap fun e => (g e).map Environment.withoutTrail := by
    intro l
    rw [List.map_flatMap, List.flatMap_map]
    exact List.flatMap_congr fun e _ => (hg e).symm
  intro e
  rw [hmap, hmap, hf e]

theorem visit {α : Type} {as : Environment → List α} {f : α → Environment → List Environment}
    (has : ∀ e, as e.withoutTrail = as e) (hf : ∀ a, TrailFree (f a)) :
    TrailFree fun e => (as e).flatMap fun a => f a e := by
  intro e
  rw [List.map_flatMap, List.map_flatMap, has e]
  exact List.flatMap_congr fun a _ => hf a e

theorem filter {k : Environment → Environment → Bool} (hf : TrailFree f)
    (hk : ∀ e a, k e.withoutTrail a.withoutTrail = k e a) :
    TrailFree fun e => (f e).filter (k e) := by
  have hmap : ∀ (l : List Environment) e, (l.filter (k e)).map Environment.withoutTrail =
      (l.map Environment.withoutTrail).filter (k e.withoutTrail) := by
    intro l e
    rw [List.filter_map]
    exact congrArg _ (List.filter_congr fun a _ => (hk e a).symm)
  intro e
  rw [hmap, hmap, hf e]
  rfl

theorem found {x : Environment → Except QueryError (Option Environment)}
    (hx : ∀ e, x e.withoutTrail = (x e).map (Option.map Environment.withoutTrail)) :
    TrailFree fun e => found (x e) := by
  intro e
  dsimp only
  rw [hx e]
  rcases x e with _ | _ | a <;> rfl

end TrailFree

theorem Context.trailFree_ends {c : Context} (target : NodePattern) (reached : List Term) :
    TrailFree (c.resultsEnds target reached) := by
  refine .visit (fun _ => rfl) fun (t, i) => ?_
  cases target with
  | const u =>
    dsimp only
    split_ifs
    · exact .single i
    · exact fun _ => rfl
  | var v =>
    have hbind : TrailFree fun e => found (e.bind? c.query v t) :=
      .found fun e => bind_withoutTrail c.query v t
    exact hbind.choose i

namespace Pattern

variable {c : Context} {h : Hooks}

theorem trailFree_edge (e : EdgePattern) : TrailFree ((edge e).results c h) := by
  have hresults : (edge e).results c h = fun m =>
      (c.source.matchEdge c.query m e m.graph (Source.restriction c.query m)).zipIdx.flatMap
        fun a => (found (c.bindEdge e m.graph a.1 m)).map (·.choose a.2) := by
    funext m
    rw [results]
  rw [hresults]
  refine .visit (fun m => rfl) fun a => ?_
  have hedge : TrailFree fun m => found (c.bindEdge e m.graph a.1 m) :=
    .found fun m => Context.bindEdge_withoutTrail e m.graph a.1
  exact hedge.map_choose a.2

theorem trailFree_path (p : PathPattern) : TrailFree ((path p).results c h) := by
  have hends : ∀ backwards target t, TrailFree fun m =>
      c.resultsEnds target (c.source.reach ⟨c.query, m, p⟩ p.path backwards t) m := by
    intro backwards target t m
    dsimp only
    rw [Context.reach_withoutTrail]
    exact Context.trailFree_ends target _ m
  have hwalks : ∀ (starts : List Term) (backwards : Bool) (start target : NodePattern),
      TrailFree fun m => starts.zipIdx.flatMap fun a =>
        (found (c.bindStart start a.1 (m.choose a.2))).flatMap fun m =>
          c.resultsEnds target (c.source.reach ⟨c.query, m, p⟩ p.path backwards a.1) m := by
    intro starts backwards start target
    refine .visit (fun _ => rfl) fun a => TrailFree.flatMap ?_ (hends backwards target a.1)
    have hstart : TrailFree fun m => found (c.bindStart start a.1 m) :=
      .found fun m => Context.bindStart_withoutTrail start a.1
    exact hstart.choose a.2
  intro m
  rw [results, results]
  exact hwalks _ _ _ _ m

theorem trailFree_minus {l r : Pattern} (hl : TrailFree (l.results c h))
    (hr : TrailFree (r.results c h)) : TrailFree ((minus l r).results c h) := by
  have hresults : (minus l r).results c h = fun m => (l.results c h (m.choose 1)).filter fun a =>
      !((r.results c h (apart c m)).any fun other =>
        a.solution.sharesSlot other.solution && a.solution.compatible other.solution) := by
    funext m
    rw [results]
  rw [hresults]
  refine (hl.choose 1).filter fun m a => congrArg (!·) ?_
  have hexcluded : (r.results c h (apart c m.withoutTrail)).map Environment.withoutTrail =
      (r.results c h (apart c m)).map Environment.withoutTrail := hr.eq rfl
  have hany := congrArg (List.any · fun other =>
    a.solution.sharesSlot other.solution && a.solution.compatible other.solution) hexcluded
  rwa [List.any_map, List.any_map] at hany

theorem trailFree_filter {e : Expr} (he : e.isPure = true) :
    TrailFree ((filter e).results c h) := by
  have hresults : (filter e).results c h = fun m =>
      [m.choose 1].filter fun _ => (e.test c.toScope h (m.choose 0)).holds := by
    funext m
    rw [results]
  rw [hresults]
  refine (TrailFree.single 1).filter fun m _ => ?_
  have hsame : Run.Same (e.eval c.toScope h (m.withoutTrail.choose 0))
      (e.eval c.toScope h (m.choose 0)) := Expr.eval_same e _ _ he ⟨fun _ _ => rfl, fun _ => rfl⟩
  rw [Expr.test, hsame.eq, Expr.test]

/-- A simple pattern binds the same whatever way an environment was reached on. -/
theorem trailFree_results (p : Pattern) (hp : p.isSimple = true) : TrailFree (p.results c h) := by
  cases p with
  | edge e => exact trailFree_edge e
  | path p => exact trailFree_path p
  | sequence items =>
    have hall : ∀ ps : List Pattern, (∀ p ∈ ps, p ∈ items) →
        TrailFree (results.resultsAll c h ps) := by
      intro ps
      induction ps with
      | nil => exact fun _ m => rfl
      | cons p ps ih =>
        intro hps
        obtain ⟨hm, hps⟩ := List.forall_mem_cons.mp hps
        have := List.sizeOf_lt_of_mem hm
        exact (trailFree_results p (allSimple_iff.mp hp p hm)).flatMap (ih hps)
    exact hall items fun _ hm => hm
  | union l r =>
    obtain ⟨hl, hr⟩ := Bool.and_eq_true_iff.mp hp
    exact ((trailFree_results l hl).choose 0).append ((trailFree_results r hr).choose 1)
  | minus l r =>
    obtain ⟨hl, hr⟩ := Bool.and_eq_true_iff.mp hp
    exact trailFree_minus (trailFree_results l hl) (trailFree_results r hr)
  | filter e => exact trailFree_filter hp
  | _ => cases hp
termination_by sizeOf p

end Pattern

end GraphQuery
