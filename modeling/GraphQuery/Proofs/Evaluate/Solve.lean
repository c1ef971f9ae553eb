import GraphQuery.Evaluate.Solve
import GraphQuery.Proofs.Evaluate.Environment
import GraphQuery.Proofs.Evaluate.Run
import GraphQuery.Proofs.Query.Variables

/-! What patterns hand on. A pattern that solves without an error hands a list of environments to
whatever follows, one after the other. Each way of combining patterns combines their lists. -/

namespace GraphQuery.Pattern

variable {c : Context} {h : Hooks} {σ : Type}

/-- Whether the environments that a pattern hands on are those of a list, in its order. -/
def Yields (c : Context) (h : Hooks) (p : Pattern) (env : Environment) (l : List Environment) :
    Prop :=
  ∀ (σ : Type) (next : Context.Next σ) (s : σ), p.solve c h env next s = Run.each next l s

/-! ### Sequences -/

theorem solveAll_nil (env : Environment) (next : Context.Next σ) (s : σ) :
    solve.solveAll c h [] env next s = next env s :=
  rfl

theorem solveAll_cons (p : Pattern) (ps : List Pattern) (env : Environment) (next : Context.Next σ)
    (s : σ) :
    solve.solveAll c h (p :: ps) env next s =
      p.solve c h env (fun env s => solve.solveAll c h ps env next s) s := by
  cases ps <;> rfl

theorem solveAll_append (ps qs : List Pattern) (env : Environment) (next : Context.Next σ)
    (s : σ) :
    solve.solveAll c h (ps ++ qs) env next s =
      solve.solveAll c h ps env (fun env s => solve.solveAll c h qs env next s) s := by
  induction ps generalizing env s with
  | nil => rw [List.nil_append, solveAll_nil]
  | cons p ps ih =>
    rw [List.cons_append, solveAll_cons, solveAll_cons]
    congr 1
    funext env s
    exact ih env s

@[simp] theorem solve_sequence (ps : List Pattern) (env : Environment) (next : Context.Next σ)
    (s : σ) : (sequence ps).solve c h env next s = solve.solveAll c h ps env next s :=
  rfl

variable {p q : Pattern} {env : Environment} {l : List Environment} {f : Environment → List Environment}

theorem Yields.solve_eq (hp : p.Yields c h env l) {next : Context.Next σ} {s : σ} :
    p.solve c h env next s = Run.each next l s :=
  hp σ next s

theorem yields_nil (env : Environment) : (sequence []).Yields c h env [env] := fun σ next s => by
  rw [solve_sequence, solveAll_nil, Run.each_singleton]

theorem Yields.sequence_cons {ps : List Pattern} (hp : p.Yields c h env l)
    (hps : ∀ e ∈ l, (sequence ps).Yields c h e (f e)) :
    (sequence (p :: ps)).Yields c h env (l.flatMap f) := fun σ next s => by
  rw [solve_sequence, solveAll_cons, hp.solve_eq, Run.each_flatMap]
  exact Run.each_congr (fun e he s => by rw [← solve_sequence, (hps e he).solve_eq]) s

/-! ### Lists of candidates -/

/-- A pattern that makes at most one environment of each candidate. -/
theorem visit_eq_each {α : Type} {f : Nat → α → σ → Run (ForInStep σ)} {next : Context.Next σ}
    {r : α → Option Environment} (as : List α)
    (hf : ∀ i, ∀ a ∈ as, ∀ s, f i a s = Run.each next ((r a).map (·.choose i)).toList s) (s : σ) :
    Run.visit f 0 as s =
      Run.each next (as.zipIdx.filterMap fun a => (r a.1).map (·.choose a.2)) s :=
  Run.visit_eq_each_filterMap (fun i a => (r a).map (·.choose i)) as hf 0 s

theorem yields_edge {e : EdgePattern} {r : Occurrence → Option Environment}
    (hr : ∀ o ∈ c.source.matchEdge c.query env e env.graph (Source.restriction c.query env),
      c.bindEdge e env.graph o env = .ok (r o)) :
    (edge e).Yields c h env
      ((c.source.matchEdge c.query env e env.graph (Source.restriction c.query env)).zipIdx.filterMap
        fun o => (r o.1).map (·.choose o.2)) := fun σ next s => by
  change c.solveEdge e env next s = _
  rw [Context.solveEdge]
  refine visit_eq_each _ (fun i o ho s => ?_) s
  rw [hr o ho, Run.ofExcept_ok, pure_bind]
  cases r o <;> simp

theorem yields_values {vs : List Variable} {rows : List (List (Option Term))}
    {r : List (Option Term) → Option Environment}
    (hr : ∀ row ∈ rows, c.bindRow (vs.zip row) env = .ok (r row)) :
    (values vs rows).Yields c h env
      (rows.zipIdx.filterMap fun row => (r row.1).map (·.choose row.2)) := fun σ next s => by
  change c.solveValues vs rows env next s = _
  rw [Context.solveValues]
  refine visit_eq_each _ (fun i row hrow s => ?_) s
  rw [hr row hrow, Run.ofExcept_ok, pure_bind]
  cases r row <;> simp

/-! ### Expressions -/

theorem yields_filter {e : Expr} {b : Bool}
    (he : e.test c.toScope h (env.choose 0) = pure b) :
    (filter e).Yields c h env (if b then [env.choose 1] else []) := fun σ next s => by
  change e.test c.toScope h (env.choose 0) >>= _ = _
  rw [he, pure_bind]
  cases b <;> simp

theorem yields_bind {v : Variable} {e : Expr} {t : Option Term} {r : Term → Option Environment}
    (he : e.eval c.toScope h (env.choose 0) = pure t)
    (hr : ∀ u, t = some u → (env.choose 1).bind? c.query v u.canonical = .ok (r u)) :
    (bind v e).Yields c h env
      (t.elim [env.choose 1] fun u => (r u).toList) := fun σ next s => by
  change e.eval c.toScope h (env.choose 0) >>= _ = _
  rw [he, pure_bind]
  cases t with
  | none => simp
  | some u =>
    simp only [Context.binding, hr u rfl, Run.ofExcept_ok, pure_bind, Option.elim_some]
    cases hu : r u <;> simp

/-! ### Alternatives -/

theorem Yields.union {m : List Environment} (hp : p.Yields c h (env.choose 0) l)
    (hq : q.Yields c h (env.choose 1) m) : (union p q).Yields c h env (l ++ m) := fun σ next s => by
  change p.solve c h (env.choose 0) next s >>= _ = _
  rw [Run.each_append, hp.solve_eq]
  refine bind_congr fun step => ?_
  cases step with
  | done s => rfl
  | yield s => exact hq.solve_eq

/-- What is handed on is collected in an accumulator. -/
theorem each_collect {α β : Type} (g : α → β) (l : List α) (found : List β) :
    Run.each (fun a found => pure (.yield (g a :: found))) l found =
      pure (.yield ((l.map g).reverse ++ found)) := by
  induction l generalizing found with
  | nil => rfl
  | cons a l ih => simp [Run.each_cons, ih]

/-- Where the right side of a difference is solved: nothing is bound, but the graph is in force. -/
def apart (c : Context) (env : Environment) : Environment :=
  { Environment.initial c.query with graph := env.graph, trail := 0 :: env.trail }

theorem Yields.minus {m : List Environment} (hp : p.Yields c h (env.choose 1) l)
    (hq : q.Yields c h (apart c env) m) :
    (minus p q).Yields c h env (l.filter fun e => !(m.any fun other =>
      e.solution.sharesSlot other.solution && e.solution.compatible other.solution)) :=
  fun σ next s => by
    change q.solve c h (apart c env) (fun e found => pure (.yield (e.solution :: found))) [] >>= _ = _
    rw [hq.solve_eq, each_collect, pure_bind, hp.solve_eq,
      ← List.filterMap_eq_filter, List.filterMap_eq_flatMap_toList, Run.each_flatMap]
    refine Run.each_congr (fun e _ s => ?_) s
    simp only [ForInStep.value, List.append_nil, List.any_reverse, List.any_map, Function.comp_def,
      Option.guard]
    by_cases hx : (m.any fun other => e.solution.sharesSlot other.solution &&
        e.solution.compatible other.solution) = true
    · simp [hx]
    · simp [Bool.eq_false_iff.mpr hx]

/-! ### Optional patterns -/

/-- Whether the condition of an optional pattern holds; without a condition it does. -/
def conditionHolds (c : Context) (h : Hooks) (condition : Option Expr) (env : Environment) :
    Run Bool :=
  match condition with
  | some e => e.test c.toScope h env
  | none => pure true

/-- Goes on with one match of the right side, and remembers that there was one. -/
def tryMatch (next : Context.Next σ) (holds : Environment → Bool) (env : Environment)
    (state : Bool × σ) : Run (ForInStep (Bool × σ)) :=
  if holds env then do
    match ← next env state.2 with
    | .done s => pure (.done (true, s))
    | .yield s => pure (.yield (true, s))
  else pure (.yield state)

theorem each_tryMatch (next : Context.Next σ) (holds : Environment → Bool) (m : List Environment)
    (found : Bool) (s : σ) :
    Run.each (tryMatch next holds) m (found, s) = (do
      match ← Run.each next (m.filter holds) s with
      | .done s => pure (.done (true, s))
      | .yield s => pure (.yield (found || m.any holds, s))) := by
  induction m generalizing found s with
  | nil => simp
  | cons e m ih =>
    rw [Run.each_cons, tryMatch]
    cases he : holds e with
    | false => simp [ih, he]
    | true =>
      simp only [if_true, List.filter_cons_of_pos he, Run.each_cons, Run.proceed, bind_assoc,
        List.any_cons, he, Bool.true_or, Bool.or_true]
      refine bind_congr fun step => ?_
      cases step with
      | done s => simp
      | yield s => simp [ih]

theorem Yields.optional {condition : Option Expr} {m : Environment → List Environment}
    {holds : Environment → Bool} (hp : p.Yields c h env l)
    (hq : ∀ e ∈ l, q.Yields c h (e.choose 0) (m e))
    (hc : ∀ e ∈ l, ∀ e' ∈ m e, conditionHolds c h condition e' = pure (holds e')) :
    (optional p q condition).Yields c h env
      (l.flatMap fun e => if (m e).any holds then (m e).filter holds else [e.choose 1]) :=
  fun σ next s => by
    change p.solve c h env _ s = _
    rw [hp.solve_eq, Run.each_flatMap]
    refine Run.each_congr (fun e he s => ?_) s
    rw [(hq e he).solve_eq]
    refine (congrArg (· >>= _) (Run.each_congr (g := tryMatch next holds) (fun e' he' x => ?_)
      (false, s))).trans ?_
    · have := hc e he e' he'
      cases condition with
      | none =>
        have hb : true = holds e' := Run.pure_injective this
        rw [tryMatch, ← hb]
        exact pure_bind true _
      | some f =>
        have ht : f.test c.toScope h e' = pure (holds e') := this
        dsimp only
        rw [tryMatch, ht]
        exact pure_bind (holds e') _
    · rw [each_tryMatch, bind_assoc]
      by_cases hany : (m e).any holds = true
      · rw [if_pos hany, hany]
        conv_rhs => rw [← bind_pure (Run.each _ _ _)]
        refine bind_congr fun step => ?_
        cases step <;> simp
      · have hnil : (m e).filter holds = [] := by
          rw [List.filter_eq_nil_iff]
          exact fun a ha hb => hany (List.any_eq_true.mpr ⟨a, ha, hb⟩)
        simp [hnil, Bool.eq_false_iff.mpr hany]

end GraphQuery.Pattern
