import GraphQuery.Evaluate.Answer
import GraphQuery.Proofs.Algebra.Lowering
import GraphQuery.Proofs.Evaluate.BasicPattern
import GraphQuery.Proofs.Evaluate.Search

/-! Lowered patterns and the algebra agree. A lowered pattern is solved from the top down, by
extending one environment after the other; the mappings that it hands on are those of the bag that
the algebra builds from the bottom up. -/

namespace GraphQuery

/-! ### Values of expressions -/

/-- An environment outside of every graph clause and group. -/
structure Environment.Free (q : Query) (env : Environment) : Prop where
  fits : env.Fits q
  graph : env.graph = none
  group : env.group = none

theorem Environment.Free.onward {q : Query} {env env' : Environment} (h : env.Free q)
    (ho : env.Onward q env') : env'.Free q :=
  ⟨ho.fits, ho.graph.trans h.graph, ho.group.trans h.group⟩

theorem Environment.Free.choose {q : Query} {env : Environment} (h : env.Free q) (i : Nat) :
    (env.choose i).Free q :=
  h.onward (h.fits.onward.choose i)

theorem Mapping.get_environment (q : Query) (μ : Mapping) (v : Variable) :
    (μ.environment q).get? q v = if v ∈ q.vars then μ.lookup v else none := by
  rw [Environment.get_eq_binding rfl, Environment.binding?]
  split
  next hv =>
    obtain ⟨i, hi⟩ := Query.exists_slot hv
    simp [hi, environment, Query.slot_eq_some.mp hi]
  next hv => rw [Query.slot_eq_none.mpr hv, Option.bind_none]

namespace Expr

variable {c : Scope} {h : Hooks} {e : Expr} {env : Environment} {μ ν : Mapping}

theorem valueAt_congr (hp : e.isPure = true) (hv : ∀ v ∈ e.vars, μ.lookup v = ν.lookup v) :
    e.valueAt c μ = e.valueAt c ν := by
  have ha : Environment.Agree c.query e (μ.environment c.query) (ν.environment c.query) :=
    ⟨fun v hm => by rw [Mapping.get_environment, Mapping.get_environment, hv v hm], fun _ => rfl⟩
  rw [valueAt, (eval_same e _ _ hp ha).eq, valueAt]

/-- A pure expression has the value that it has under the mapping of the environment. -/
theorem eval_eq_valueAt (hp : e.isPure = true) (hf : env.Free c.query) :
    e.eval c h env = pure (e.valueAt c (env.mapping c.query)) := by
  have ha : Environment.Agree c.query e env
      ((env.mapping c.query).environment c.query) := by
    refine ⟨fun v _ => ?_, fun _ => hf.group⟩
    rw [Mapping.get_environment, hf.fits.get_eq_lookup]
    split
    next => rfl
    next hv =>
      rw [Environment.lookup_mapping, Environment.binding?, Query.slot_eq_none.mpr hv,
        Option.bind_none]
  have hs : Run.Same (e.eval c h env)
      (e.eval c .idle ((env.mapping c.query).environment c.query)) := eval_same e _ _ hp ha
  obtain ⟨t, ht, ht'⟩ := hs
  rw [ht, valueAt, ht']
  rfl

end Expr

namespace AlgebraExpr.Lowered

variable {c : Scope} {h : Hooks} {a : AlgebraExpr} {e : Expr} {env : Environment} {μ ν : Mapping}

theorem valueAt_eq (hl : a.Lowered e) (μ : Mapping) : a.valueAt c μ = e.valueAt c μ := by
  rw [AlgebraExpr.valueAt, hl.eq]
  rfl

theorem eval_eq (hl : a.Lowered e) (hf : env.Free c.query) :
    e.eval c h env = pure (a.valueAt c (env.mapping c.query)) := by
  rw [hl.valueAt_eq, Expr.eval_eq_valueAt hl.isPure hf]

theorem test_eq (hl : a.Lowered e) (hf : env.Free c.query) :
    e.test c h env = pure (a.holdsAt c (env.mapping c.query)) := by
  rw [Expr.test, hl.eval_eq hf, pure_bind, holdsAt]

theorem holdsAt_congr (hl : a.Lowered e) (hv : ∀ v ∈ a.vars, μ.lookup v = ν.lookup v) :
    a.holdsAt c μ = a.holdsAt c ν := by
  rw [holdsAt, holdsAt, hl.valueAt_eq, hl.valueAt_eq,
    Expr.valueAt_congr hl.isPure fun v hm => hv v (hl.vars v hm)]

end AlgebraExpr.Lowered

/-! ### Patterns and bags -/

namespace Pattern

variable {c : Context} {h : Hooks} {env : Environment} {p q : Pattern} {l : List Environment}
  {f : Environment → List Environment} {σ : Type}

theorem solveAll_steps (p : Pattern) (env : Environment) (next : Context.Next σ) (s : σ) :
    solve.solveAll c h p.steps env next s = p.solve c h env next s := by
  cases p <;> simp [steps, solve.solveAll]

/-- Patterns that follow one another are solved one inside of the other. -/
theorem solve_followedBy (p q : Pattern) (env : Environment) (next : Context.Next σ) (s : σ) :
    (p.followedBy q).solve c h env next s =
      p.solve c h env (fun env s => q.solve c h env next s) s := by
  rw [followedBy, solve_sequence, solveAll_append, solveAll_steps]
  congr 1
  funext env s
  exact solveAll_steps q env next s

theorem Yields.followedBy (hp : p.Yields c h env l) (hq : ∀ e ∈ l, q.Yields c h e (f e)) :
    (p.followedBy q).Yields c h env (l.flatMap f) := fun σ next s => by
  rw [solve_followedBy, hp.solve_eq, Run.each_flatMap]
  exact Run.each_congr (fun e he s => (hq e he).solve_eq) s

/-- Whether the mappings that a pattern hands on are those of a bag. -/
def Hands (c : Context) (h : Hooks) (p : Pattern) (env : Environment) (bag : List Mapping) : Prop :=
  ∃ l, p.Yields c h env l ∧ (∀ e ∈ l, env.Onward c.query e) ∧
    (l.map (·.mapping c.query)).Perm bag

variable {bag bag' : List Mapping} {μ : Mapping}

theorem Hands.perm (hp : p.Hands c h env bag) (hb : bag.Perm bag') : p.Hands c h env bag' := by
  obtain ⟨l, hl, ho, hm⟩ := hp
  exact ⟨l, hl, ho, hm.trans hb⟩

/-- Each member of a bag is replaced by a bag of its own. -/
theorem perm_flatMap {f : Environment → List Environment} {g : Mapping → List Mapping}
    (hl : (l.map (·.mapping c.query)).Perm bag)
    (hf : ∀ e ∈ l, ((f e).map (·.mapping c.query)).Perm (g (e.mapping c.query))) :
    ((l.flatMap f).map (·.mapping c.query)).Perm (bag.flatMap g) := by
  rw [List.map_flatMap]
  refine (List.Perm.flatMap_left l hf).trans ?_
  rw [← List.flatMap_map (·.mapping c.query) g l]
  exact hl.flatMap_right g

theorem Hands.followedBy {g : Mapping → List Mapping} (hp : p.Hands c h env bag)
    (hq : ∀ e, env.Onward c.query e → e.mapping c.query ∈ bag →
      q.Hands c h e (g (e.mapping c.query))) :
    (p.followedBy q).Hands c h env (bag.flatMap g) := by
  obtain ⟨l, hl, ho, hm⟩ := hp
  have hq' : ∀ e ∈ l, q.Hands c h e (g (e.mapping c.query)) := fun e he =>
    hq e (ho e he) (hm.mem_iff.mp (List.mem_map_of_mem he))
  choose! f hf using hq'
  refine ⟨l.flatMap f, hl.followedBy fun e he => (hf e he).1, fun e he => ?_,
    perm_flatMap hm fun e he => (hf e he).2.2⟩
  obtain ⟨a, ha, he⟩ := List.mem_flatMap.mp he
  exact (ho a ha).trans ((hf a ha).2.1 e he)

theorem hands_filter {a : AlgebraExpr} {e : Expr} (hl : a.Lowered e) (hf : env.Free c.query) :
    (filter e).Hands c h env ([env.mapping c.query].filter (a.holdsAt c.toScope)) := by
  refine ⟨_, yields_filter (hl.test_eq (hf.choose 0)), fun e he => ?_, ?_⟩
  · split_ifs at he
    · rw [List.mem_singleton.mp he]
      exact hf.fits.onward.choose 1
    · cases he
  · rw [List.filter_singleton, Environment.mapping_choose]
    cases a.holdsAt c.toScope (env.mapping c.query) <;> exact .refl _

theorem hands_bind {a : AlgebraExpr} {e : Expr} {v : Variable} (hl : a.Lowered e)
    (hf : env.Free c.query) (hv : v ∈ c.query.vars) (hn : v ∉ env.mapping c.query) :
    (bind v e).Hands c h env
      (Bag.extend v (a.valueAt c.toScope) [env.mapping c.query]) := by
  have hfree : (env.choose 1).binding? c.query v = none := by
    rw [← Environment.lookup_mapping]
    exact Finmap.lookup_eq_none.mpr hn
  refine ⟨_, yields_bind (r := fun u => some ((env.choose 1).assign c.query v u.canonical))
    (hl.eval_eq (hf.choose 0)) fun u _ => Environment.bind_of_free hv hfree _, fun e he => ?_, ?_⟩
  · have ho := hf.fits.onward.choose 1
    rw [Environment.mapping_choose] at he
    cases ht : a.valueAt c.toScope (env.mapping c.query) with
    | none =>
      rw [ht, Option.elim_none] at he
      rw [List.mem_singleton.mp he]
      exact ho
    | some t =>
      rw [ht, Option.elim_some] at he
      rw [List.mem_singleton.mp he]
      exact ho.trans (ho.fits.onward_assign (Term.isCanonical_canonical t))
  · rw [Environment.mapping_choose, Bag.extend]
    cases ht : a.valueAt c.toScope (env.mapping c.query) with
    | none => simp [ht]
    | some t => simp [ht, Environment.mapping_assign (hf.fits.onward.choose 1).fits hv]

theorem Hands.union (hp : p.Hands c h (env.choose 0) bag) (hq : q.Hands c h (env.choose 1) bag') :
    (union p q).Hands c h env (bag ++ bag') := by
  obtain ⟨l, hl, ho, hm⟩ := hp
  obtain ⟨l', hl', ho', hm'⟩ := hq
  refine ⟨l ++ l', hl.union hl', fun e he => ?_, ?_⟩
  · rcases List.mem_append.mp he with he | he
    · exact (ho e he).of_choose
    · exact (ho' e he).of_choose
  · rw [List.map_append]
    exact hm.append hm'

/-- Whether a pattern hands on the joins of a bag with whatever is bound. -/
def Joins (c : Context) (h : Hooks) (p : Pattern) (bag : List Mapping) : Prop :=
  ∀ env : Environment, env.Free c.query →
    p.Hands c h env (bag.filterMap ((env.mapping c.query).join? ·))

/-! ### Optional patterns -/

theorem Hands.optional {condition : Option Expr} {holds : Mapping → Bool}
    (hf : env.Free c.query) (hp : p.Hands c h env bag) (hq : q.Joins c h bag')
    (hc : ∀ e : Environment, e.Free c.query →
      conditionHolds c h condition e = pure (holds (e.mapping c.query))) :
    (optional p q condition).Hands c h env (Bag.leftJoin holds bag bag') := by
  obtain ⟨l, hl, ho, hm⟩ := hp
  have hq' : ∀ e ∈ l, q.Hands c h (e.choose 0)
      (bag'.filterMap ((e.mapping c.query).join? ·)) := fun e he =>
    hq _ ((hf.onward (ho e he)).choose 0)
  choose! m hmy hmo hmp using hq'
  have hy : (Pattern.optional p q condition).Yields c h env (l.flatMap fun e =>
      if (m e).any (fun e' => holds (e'.mapping c.query))
      then (m e).filter (fun e' => holds (e'.mapping c.query)) else [e.choose 1]) :=
    hl.optional hmy fun e he e' he' =>
      hc e' ((hf.onward (ho e he)).onward (hmo e he e' he').of_choose)
  refine Hands.perm ⟨_, hy, fun e' he' => ?_, perm_flatMap hm fun e he => ?_⟩
    (Bag.leftJoin_perm holds bag bag')
  · obtain ⟨e, he, he'⟩ := List.mem_flatMap.mp he'
    refine (ho e he).trans ?_
    split_ifs at he'
    · exact (hmo e he e' (List.mem_of_mem_filter he')).of_choose
    · rw [List.mem_singleton.mp he']
      exact (ho e he).fits.onward.choose 1
  · have hany : (m e).any (fun e => holds (e.mapping c.query)) =
        (bag'.filterMap ((e.mapping c.query).join? ·)).any holds := by
      rw [← (hmp e he).any_eq, List.any_map]
      rfl
    rw [hany]
    split_ifs
    · refine .trans ?_ ((hmp e he).filter holds)
      rw [List.filter_map]
      exact .refl _
    · exact .refl _

/-! ### Differences -/

theorem compatible_solution {env env' : Environment} {query : Query} (hf : env.Fits query) :
    env.solution.compatible env'.solution =
      decide ((env.mapping query).Compatible (env'.mapping query)) := by
  rw [Bool.eq_iff_iff, decide_eq_true_iff, Mapping.compatible_iff,
    Environment.compatible_solution_iff hf.length]
  simp only [Environment.lookup_mapping]

theorem sharesSlot_solution {env env' : Environment} {query : Query} (hf : env.Fits query) :
    env.solution.sharesSlot env'.solution =
      decide ((env.mapping query).SharesVariable (env'.mapping query)) := by
  rw [Bool.eq_iff_iff, decide_eq_true_iff, Mapping.sharesVariable_iff,
    Environment.sharesSlot_solution_iff hf.length]
  simp only [Environment.lookup_mapping]

theorem free_apart (hf : env.Free c.query) : (apart c env).Free c.query :=
  ⟨⟨(Environment.fits_initial c.query).length, rfl, (Environment.fits_initial c.query).canonical⟩,
    hf.graph, rfl⟩

theorem mapping_apart : (apart c env).mapping c.query = ∅ := Environment.mapping_initial c.query

theorem Hands.minus (hf : env.Free c.query) (hp : p.Hands c h (env.choose 1) bag)
    (hq : q.Joins c h bag') : (minus p q).Hands c h env (Bag.minus bag bag') := by
  obtain ⟨l, hl, ho, hm⟩ := hp
  obtain ⟨m, hmy, hmo, hmp⟩ := hq _ (free_apart hf)
  simp only [mapping_apart, Mapping.empty_join, List.filterMap_some] at hmp
  refine ⟨_, hl.minus hmy, fun e he => (ho e (List.mem_of_mem_filter he)).of_choose, ?_⟩
  have hany : ∀ e ∈ l, (!(m.any fun other => e.solution.sharesSlot other.solution &&
      e.solution.compatible other.solution)) =
      !bag'.any fun ν => decide ((e.mapping c.query).Compatible ν) &&
        decide ((e.mapping c.query).SharesVariable ν) := by
    intro e he
    rw [← hmp.any_eq, List.any_map]
    refine congrArg (!·) (List.any_congr rfl fun other => ?_)
    rw [sharesSlot_solution (ho e he).fits, compatible_solution (ho e he).fits, Bool.and_comm]
    rfl
  rw [List.filter_congr hany]
  refine .trans ?_ (hm.filter _)
  rw [List.filter_map]
  exact .refl _

/-! ### Rows -/

/-- Binding a variable to a term joins with the mapping of that variable alone. -/
theorem unify_mapping {query : Query} {v : Variable} (hf : env.Fits query) (hv : v ∈ query.vars)
    (u : Term) : (env.unify query (.var v) u).map (·.mapping query) =
      (env.mapping query).join? (Finmap.singleton v u) := by
  simp only [Environment.unify]
  cases hb : env.binding? query v with
  | some t =>
    rw [Mapping.join_singleton_of_bound (Environment.lookup_mapping.trans hb)]
    dsimp only
    split_ifs <;> rfl
  | none =>
    rw [Mapping.join_singleton_of_free (Environment.lookup_mapping.trans hb)]
    exact congrArg some (Environment.mapping_assign hf hv)

theorem bindRow_mapping (cells : List (Variable × Option Term)) (hf : env.Fits c.query)
    (hv : ∀ cell ∈ cells, cell.1 ∈ c.query.vars) :
    ∃ r, c.bindRow cells env = .ok r ∧ (∀ e, r = some e → env.Onward c.query e) ∧
      r.map (·.mapping c.query) = Bag.bindRow cells (env.mapping c.query) := by
  induction cells generalizing env with
  | nil => exact ⟨some env, rfl, fun e he => Option.some.inj he ▸ hf.onward, rfl⟩
  | cons cell cells ih =>
    obtain ⟨v, t⟩ := cell
    obtain ⟨hv, hvs⟩ := List.forall_mem_cons.mp hv
    cases t with
    | none => exact ih hf hvs
    | some t =>
      have hb : env.bind? c.query v t.canonical = _ := Environment.bind_eq_unify hv _
      have hm := unify_mapping hf hv t.canonical
      simp only [Context.bindRow, hb, Bag.bindRow, ← hm]
      cases hu : env.unify c.query (.var v) t.canonical with
      | none => exact ⟨none, rfl, by simp, rfl⟩
      | some env' =>
        have ho := (hf.unify_sound (n := .var v) (fun w hw => List.mem_singleton.mp hw ▸ hv)
          (Term.isCanonical_canonical t) hu).1
        obtain ⟨r, hr, hro, hrm⟩ := ih ho.fits hvs
        exact ⟨r, hr, fun e he => ho.trans (hro e he), hrm⟩

theorem joins_values {vs : List Variable} (hv : vs ⊆ c.query.vars)
    (rows : List (List (Option Term))) : (values vs rows).Joins c h (Bag.values vs rows) := by
  intro env hf
  choose r hr ho hm using fun row : List (Option Term) =>
    bindRow_mapping (c := c) (vs.zip row) hf.fits fun cell hc => hv (List.of_mem_zip hc).1
  refine ⟨_, yields_values fun row _ => hr row, fun e he => ?_, ?_⟩
  · obtain ⟨⟨row, i⟩, -, he⟩ := List.mem_filterMap.mp he
    obtain ⟨e', he', rfl⟩ := Option.map_eq_some_iff.mp he
    exact (ho row e' he').choose i
  · have hrows : (fun row => (r row).map (·.mapping c.query)) = fun row =>
        (Bag.bindRow (vs.zip row) ∅).bind ((env.mapping c.query).join? ·) :=
      funext fun row => (hm row).trans (Bag.bindRow_eq_join _ _)
    rw [Bag.values, List.filterMap_filterMap, ← hrows, List.map_filterMap]
    conv_rhs => rw [← List.zipIdx_map_fst 0 rows, List.filterMap_map]
    simp only [Option.map_map]
    exact .refl _

/-! ### Joins, alternatives and filters -/

theorem filterMap_join (μ : Mapping) (l r : List Mapping) :
    (Bag.join l r).filterMap (μ.join? ·) =
      (l.filterMap (μ.join? ·)).flatMap fun ν => r.filterMap (ν.join? ·) := by
  induction l with
  | nil => rfl
  | cons ν l ih =>
    have hν : (r.filterMap (ν.join? ·)).filterMap (μ.join? ·) =
        (μ.join? ν).toList.flatMap fun ν => r.filterMap (ν.join? ·) := by
      simp only [List.filterMap_filterMap, Mapping.join_assoc]
      cases μ.join? ν <;> simp
    rw [Bag.join] at ih ⊢
    rw [List.flatMap_cons, List.filterMap_append, ih, hν, List.filterMap_cons]
    cases μ.join? ν <;> simp

theorem Joins.followedBy (hp : p.Joins c h bag) (hq : q.Joins c h bag') :
    (p.followedBy q).Joins c h (Bag.join bag bag') := fun env hf => by
  rw [filterMap_join]
  exact (hp env hf).followedBy fun e ho _ => hq e (hf.onward ho)

theorem Joins.union (hp : p.Joins c h bag) (hq : q.Joins c h bag') :
    (union p q).Joins c h (bag ++ bag') := fun env hf => by
  rw [List.filterMap_append]
  exact (hp _ (hf.choose 0)).union (hq _ (hf.choose 1))

theorem flatMap_filter (holds : Mapping → Bool) (l : List Mapping) :
    (l.flatMap fun μ => [μ].filter holds) = l.filter holds := by
  induction l with
  | nil => rfl
  | cons μ l ih =>
    rw [List.flatMap_cons, ih, ← List.filter_append]
    rfl

theorem Hands.filter {a : AlgebraExpr} {e : Expr} (hl : a.Lowered e) (hf : env.Free c.query)
    (hp : p.Hands c h env bag) :
    (p.followedBy (.filter e)).Hands c h env (bag.filter (a.holdsAt c.toScope)) := by
  rw [← flatMap_filter]
  exact hp.followedBy fun e ho _ => hands_filter hl (hf.onward ho)

/-- A filter that reads only what its pattern binds filters the pattern wherever it is solved. -/
theorem Joins.filter {a : AlgebraExpr} {e : Expr} (hl : a.Lowered e) (hp : p.Joins c h bag)
    (hb : ∀ μ ∈ bag, ∀ v ∈ a.vars, v ∈ μ) :
    (p.followedBy (.filter e)).Joins c h (bag.filter (a.holdsAt c.toScope)) := fun env hf => by
  refine ((hp env hf).filter hl hf).perm (.of_eq ?_)
  rw [List.filter_filterMap, List.filterMap_filter]
  refine List.filterMap_congr fun ν hν => ?_
  cases hj : (env.mapping c.query).join? ν with
  | none => simp
  | some ρ =>
    obtain ⟨hc, rfl⟩ := Mapping.join_eq_some.mp hj
    have hsame : a.holdsAt c.toScope (env.mapping c.query ∪ ν) = a.holdsAt c.toScope ν :=
      hl.holdsAt_congr fun v hv => by
        obtain ⟨t, ht⟩ := Finmap.mem_iff.mp (hb ν hν v hv)
        rw [ht, hc.isPart_union v t ht]
    rw [Option.filter_some, hsame]

end Pattern

/-! ### Basic patterns -/

section Basic

variable {n : TermPattern} {t : TriplePattern}

theorem TermPattern.vars_lower (hn : ∀ label, n ≠ .blank label) : n.lower.vars = n.vars := by
  cases n with
  | blank label => exact absurd rfl (hn label)
  | var _ | const _ => rfl

theorem TermPattern.term_lower (hn : ∀ label, n ≠ .blank label) (μ : Mapping) :
    μ.term? n.lower = μ.place? n := by
  cases n with
  | blank label => exact absurd rfl (hn label)
  | var _ | const _ => rfl

theorem TriplePattern.domain_lower (hs : ∀ label, t.subject ≠ .blank label)
    (ho : ∀ label, t.object ≠ .blank label) : t.lower.domain none = t.vars := by
  simp [EdgePattern.domain, EdgePattern.vars, lower, vars, TermPattern.vars_lower hs,
    TermPattern.vars_lower ho]

/-- A triple holds if its edge holds in some graph or in none. -/
theorem TriplePattern.holdsIn_iff {history : List Insertion} {query : Query} {μ : Mapping}
    (hs : ∀ label, t.subject ≠ .blank label) (ho : ∀ label, t.object ≠ .blank label)
    (hq : query.fromDefault = []) :
    t.holdsIn (history.flatMap Insertion.quads) μ = true ↔ t.lower.HoldsAfter history query none μ := by
  simp only [holdsIn, List.any_eq_true, decide_eq_true_eq, EdgePattern.HoldsAfter, lower,
    TermPattern.term_lower hs, TermPattern.term_lower ho]
  constructor
  · rintro ⟨r, hr, hs, hp, ho⟩
    exact ⟨_, _, _, r.graph, hs, hp, ho, hr, .inl hq⟩
  · rintro ⟨s, p, o, g, hs, hp, ho, hr, -⟩
    exact ⟨_, hr, hs, hp, ho⟩

end Basic

/-! ### Lowered patterns -/

section Lowered

variable {c : Context} {h : Hooks} {entailment : Bool} {history : List Insertion} {a : Algebra}
  {p : Pattern} {s s' : Lowering}

theorem Pattern.joins_basic {triples : List TriplePattern}
    (hstore : c.source.store = .after entailment history)
    (hdup : c.source.options.skipDuplicateTest = false) (htypes : c.source.hierarchical = false)
    (hfrom : c.query.fromDefault = [])
    (hb : ∀ t ∈ triples, ∀ label, t.subject ≠ .blank label ∧ t.object ≠ .blank label)
    (hv : (sequence (triples.map fun t => .edge t.lower)).vars ⊆ c.query.vars) :
    (sequence (triples.map fun t => .edge t.lower)).Joins c h
      (Bag.basic (history.flatMap Insertion.quads) triples) := by
  intro env hf
  have hdom : ∀ t ∈ triples, t.lower.domain none = t.vars := fun t ht =>
    TriplePattern.domain_lower (fun label => (hb t ht label).1) fun label => (hb t ht label).2
  have hdecl : ∀ e ∈ triples.map TriplePattern.lower, c.Declares none e := by
    intro e he v hve
    obtain ⟨t, ht, rfl⟩ := List.mem_map.mp he
    refine hv (mem_listVariables.mpr ⟨_, List.mem_map_of_mem ht, ?_⟩)
    simpa [EdgePattern.domain, vars] using hve
  obtain ⟨l, hl, hen⟩ := Context.enumerates_edges (h := h) (triples.map TriplePattern.lower)
    (Context.matchesEdges_after hstore hdup htypes
      (show DatasetNamed history c.query none from .inl hfrom)) hf.fits hf.graph hdecl
  have hen : Enumerates c.query env (triples.flatMap TriplePattern.vars)
      (fun ν => ∀ t ∈ triples, t.holdsIn (history.flatMap Insertion.quads) ν = true) l :=
    hen.congr (fun v => ?_) fun ν => ?_
  · rw [List.map_map] at hl
    refine ⟨l, hl, fun e he => (hen.sound e he).1, ?_⟩
    refine (List.perm_ext_iff_of_nodup hen.nodup Bag.nodup_filterMap_basic).mpr fun ν => ?_
    rw [hen.mem_iff, Bag.mem_filterMap_basic]
  · rw [List.flatMap_map, List.mem_flatMap, List.mem_flatMap]
    exact exists_congr fun t => and_congr_right fun ht => by rw [hdom t ht]
  · rw [List.forall_mem_map]
    refine forall₂_congr fun t ht => ?_
    rw [Context.edgeHolds_iff hstore, TriplePattern.holdsIn_iff (fun label => (hb t ht label).1)
      (fun label => (hb t ht label).2) hfrom]

theorem Algebra.Positive.joins (ha : a.Positive c.toScope (history.flatMap Insertion.quads))
    (hstore : c.source.store = .after entailment history)
    (hdup : c.source.options.skipDuplicateTest = false) (htypes : c.source.hierarchical = false)
    (hfrom : c.query.fromDefault = []) (hl : a.lower s = .ok (p, s'))
    (hv : p.vars ⊆ c.query.vars) :
    p.Joins c h (a.bag c.toScope (history.flatMap Insertion.quads)) := by
  induction ha generalizing p s s' with
  | basic triples hb =>
    rw [lower] at hl
    obtain rfl := Lower.pure_eq_ok hl
    exact Pattern.joins_basic hstore hdup htypes hfrom hb hv
  | values vs rows =>
    rw [lower] at hl
    obtain rfl := Lower.pure_eq_ok hl
    exact Pattern.joins_values hv rows
  | join l r _ _ ihl ihr =>
    rw [lower] at hl
    obtain ⟨pl, t, hpl, hl⟩ := Lower.bind_eq_ok hl
    obtain ⟨pr, u, hpr, hl⟩ := Lower.bind_eq_ok hl
    obtain rfl := Lower.pure_eq_ok hl
    rw [Pattern.vars_followedBy, List.append_subset] at hv
    exact (ihl hpl hv.1).followedBy (ihr hpr hv.2)
  | union l r _ _ ihl ihr =>
    rw [lower] at hl
    obtain ⟨pl, t, hpl, hl⟩ := Lower.bind_eq_ok hl
    obtain ⟨pr, u, hpr, hl⟩ := Lower.bind_eq_ok hl
    obtain rfl := Lower.pure_eq_ok hl
    rw [Pattern.vars, List.append_subset] at hv
    exact (ihl hpl hv.1).union (ihr hpr hv.2)
  | filter e inner he hb _ ih =>
    rw [lower] at hl
    obtain ⟨e', t, he', hl⟩ := Lower.bind_eq_ok hl
    obtain ⟨pi, u, hpi, hl⟩ := Lower.bind_eq_ok hl
    obtain rfl := Lower.pure_eq_ok hl
    rw [Pattern.vars_followedBy, List.append_subset] at hv
    exact (ih hpi hv.1).filter (e.lowered_of_isPlain he he') hb

theorem Algebra.Spine.hands {env : Environment}
    (ha : a.Spine c.toScope (history.flatMap Insertion.quads))
    (hstore : c.source.store = .after entailment history)
    (hdup : c.source.options.skipDuplicateTest = false) (htypes : c.source.hierarchical = false)
    (hfrom : c.query.fromDefault = []) (hl : a.lower s = .ok (p, s'))
    (hv : p.vars ⊆ c.query.vars) (hf : env.Free c.query) (he : env.mapping c.query = ∅) :
    p.Hands c h env (a.bag c.toScope (history.flatMap Insertion.quads)) := by
  induction ha generalizing p s s' env with
  | positive a ha =>
    have := ha.joins (h := h) hstore hdup htypes hfrom hl hv env hf
    simpa only [he, Mapping.empty_join, List.filterMap_some] using this
  | join l r _ hr ihl =>
    rw [lower] at hl
    obtain ⟨pl, t, hpl, hl⟩ := Lower.bind_eq_ok hl
    obtain ⟨pr, u, hpr, hl⟩ := Lower.bind_eq_ok hl
    obtain rfl := Lower.pure_eq_ok hl
    rw [Pattern.vars_followedBy, List.append_subset] at hv
    exact (ihl hpl hv.1 hf he).followedBy fun e ho _ =>
      hr.joins hstore hdup htypes hfrom hpr hv.2 e (hf.onward ho)
  | leftJoin l r condition hc _ hr ihl =>
    rw [lower] at hl
    obtain ⟨pl, t, hpl, hl⟩ := Lower.bind_eq_ok hl
    obtain ⟨pr, u, hpr, hl⟩ := Lower.bind_eq_ok hl
    obtain ⟨cond, w, hcond, hl⟩ := Lower.bind_eq_ok hl
    obtain rfl := Lower.pure_eq_ok hl
    rw [Pattern.vars, List.append_subset, List.append_subset] at hv
    refine (ihl hpl hv.1.1 hf he).optional hf
      (hr.joins hstore hdup htypes hfrom hpr hv.1.2) fun e hf => ?_
    cases condition with
    | none =>
      rw [lowerCondition] at hcond
      obtain rfl := Lower.pure_eq_ok hcond
      rfl
    | some x =>
      rw [lowerCondition] at hcond
      obtain ⟨x', hx', rfl⟩ := Lower.map_eq_ok hcond
      exact (x.lowered_of_isPlain (hc x rfl) hx').test_eq hf
  | minus l r _ hr ihl =>
    rw [lower] at hl
    obtain ⟨pl, t, hpl, hl⟩ := Lower.bind_eq_ok hl
    obtain ⟨pr, u, hpr, hl⟩ := Lower.bind_eq_ok hl
    obtain rfl := Lower.pure_eq_ok hl
    rw [Pattern.vars, List.append_subset] at hv
    exact .minus hf (ihl hpl hv.1 (hf.choose 1) he) (hr.joins hstore hdup htypes hfrom hpr hv.2)
  | filter e inner hp _ ih =>
    rw [lower] at hl
    obtain ⟨e', t, he', hl⟩ := Lower.bind_eq_ok hl
    obtain ⟨pi, u, hpi, hl⟩ := Lower.bind_eq_ok hl
    obtain rfl := Lower.pure_eq_ok hl
    rw [Pattern.vars_followedBy, List.append_subset] at hv
    exact (ih hpi hv.1 hf he).filter (e.lowered_of_isPlain hp he') hf
  | extend inner v e hp hfresh hi ih =>
    rw [lower] at hl
    obtain ⟨e', t, he', hl⟩ := Lower.bind_eq_ok hl
    obtain ⟨pi, u, hpi, hl⟩ := Lower.bind_eq_ok hl
    obtain rfl := Lower.pure_eq_ok hl
    rw [Pattern.vars_followedBy, List.append_subset] at hv
    have hv' : v ∈ c.query.vars := hv.2 (List.mem_append_right _ List.mem_cons_self)
    rw [bag, Bag.extend, List.map_eq_flatMap]
    exact (ih hpi hv.1 hf he).followedBy fun e₁ ho hm =>
      Pattern.hands_bind (e.lowered_of_isPlain hp he') (hf.onward ho) hv'
        fun hn => hfresh (hi.mem_scope hm hn)

/-- Lowering and evaluation agree with the algebra: the solutions of a lowered pattern are, in some
order, the mappings of the bag that the pattern stands for, whichever graphs the stored triples are
in. -/
theorem Context.rawSolutions_lower (a : Algebra)
    (hstore : c.source.store = .after entailment history)
    (hdup : c.source.options.skipDuplicateTest = false) (htypes : c.source.hierarchical = false)
    (hlimit : c.source.options.limit = none) (hfrom : c.query.fromDefault = [])
    (ha : a.Spine c.toScope (history.flatMap Insertion.quads))
    (hl : a.lower.run s = .ok (c.query.body, s')) :
    ∃ rows, c.rawSolutions = pure { Solutions.ofQuery c.query with rows } ∧
      (rows.map fun r => Mapping.ofSlots c.query r.slots).Perm
        (a.bag c.toScope (history.flatMap Insertion.quads)) := by
  have hv : c.query.body.vars ⊆ c.query.vars := by
    intro v hv
    rw [c.query.vars_eq, QueryParts.declared, List.mem_eraseDups]
    simp [QueryParts.occurrences, hv]
  have hf : ({ Environment.initial c.query with trail := [0] } : Environment).Free c.query :=
    ⟨⟨List.length_replicate, rfl, (Environment.fits_initial c.query).canonical⟩, rfl, rfl⟩
  obtain ⟨l, hy, -, hp⟩ := ha.hands (h := c.hooks c.depth) hstore hdup htypes hfrom hl hv hf
    (Environment.mapping_initial c.query)
  refine ⟨l.map (·.solution), ?_, ?_⟩
  · have hcollect : Run.each (Context.collect none) l [] =
        pure (.yield (l.map (·.solution)).reverse) := by
      have := Pattern.each_collect Environment.solution l []
      rwa [List.append_nil] at this
    rw [rawSolutions, solutions_eq, hlimit, hy, hcollect]
    simp [ForInStep.value]
  · rw [List.map_map]
    exact hp

/-- An optional edge in another graph is found, and one of two solutions is taken away. -/
theorem Context.rawSolutions_lower_of_difference :
    let a : Algebra := .minus
      (.leftJoin (.basic [⟨.var ⟨"x"⟩, .const (.iri ⟨"p"⟩), .var ⟨"y"⟩⟩])
        (.basic [⟨.var ⟨"y"⟩, .const (.iri ⟨"q"⟩), .var ⟨"z"⟩⟩]) (some (.bound ⟨"x"⟩)))
      (.values [⟨"x"⟩] [[some (.iri ⟨"c"⟩)]])
    let body : Pattern := .minus
      (.optional
        (.sequence [.edge ⟨.var ⟨"x"⟩, .const (.iri ⟨"p"⟩), .var ⟨"y"⟩⟩])
        (.sequence [.edge ⟨.var ⟨"y"⟩, .const (.iri ⟨"q"⟩), .var ⟨"z"⟩⟩]) (some (.bound ⟨"x"⟩)))
      (.values [⟨"x"⟩] [[some (.iri ⟨"c"⟩)]])
    let history : List Insertion := [.extend [⟨.iri ⟨"a"⟩, .iri ⟨"p"⟩, .iri ⟨"b"⟩, none⟩,
      ⟨.iri ⟨"c"⟩, .iri ⟨"p"⟩, .iri ⟨"b"⟩, none⟩,
      ⟨.iri ⟨"b"⟩, .iri ⟨"q"⟩, .iri ⟨"d"⟩, some (.iri ⟨"g"⟩)⟩]]
    let c : Context :=
      { query := .ofParts { body }, source := { store := Store.after false history } }
    a.lower.run {} = .ok (c.query.body, {}) ∧
      ∃ rows, c.rawSolutions = pure { Solutions.ofQuery c.query with rows } ∧ rows.length = 1 := by
  intro a body history c
  have hl : a.lower.run {} = .ok (c.query.body, {}) := rfl
  have hbag : (a.bag c.toScope (history.flatMap Insertion.quads)).length = 1 := by decide +kernel
  obtain ⟨rows, hr, hp⟩ := rawSolutions_lower (c := c) a rfl rfl rfl rfl rfl
    (.minus _ _ (.leftJoin _ _ _ (fun e he => Option.some.inj he ▸ rfl)
      (.positive _ (.basic _ (by simp))) (.basic _ (by simp))) (.values _ _)) hl
  have hlen := hp.length_eq
  rw [hbag, List.length_map] at hlen
  exact ⟨hl, rows, hr, hlen⟩

end Lowered

end GraphQuery
