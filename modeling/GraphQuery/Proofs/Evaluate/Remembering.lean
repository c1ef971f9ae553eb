import GraphQuery.Evaluate.Answer
import GraphQuery.Proofs.Evaluate.Coincidence
import GraphQuery.Proofs.Evaluate.Search

/-! Answers under what call sites remember. Whatever way the runs of expressions are related in if
call sites remember definitions and if they do not, patterns are solved and queries are answered in
related ways as well. -/

namespace GraphQuery

/-- What the expressions of a query ask for. -/
def Query.requests (q : Query) : List Request :=
  q.body.requests ++ q.select.flatMap (·.expr.requests) ++ q.groupBy.flatMap Expr.requests
    ++ q.having.flatMap Expr.requests ++ q.orderBy.flatMap (·.expr.requests)

namespace Query

variable {q : Query} {r : Request}

theorem mem_requests_of_body (hr : r ∈ q.body.requests) : r ∈ q.requests := by
  simp [requests, hr]

theorem mem_requests_of_select {item : SelectItem} (hm : item ∈ q.select)
    (hr : r ∈ item.expr.requests) : r ∈ q.requests := by
  simp only [requests, List.mem_append]
  exact .inl (.inl (.inl (.inr (List.mem_flatMap.mpr ⟨item, hm, hr⟩))))

theorem mem_requests_of_groupBy {e : Expr} (hm : e ∈ q.groupBy) (hr : r ∈ e.requests) :
    r ∈ q.requests := by
  simp only [requests, List.mem_append]
  exact .inl (.inl (.inr (List.mem_flatMap.mpr ⟨e, hm, hr⟩)))

theorem mem_requests_of_having {e : Expr} (hm : e ∈ q.having) (hr : r ∈ e.requests) :
    r ∈ q.requests := by
  simp only [requests, List.mem_append]
  exact .inl (.inr (List.mem_flatMap.mpr ⟨e, hm, hr⟩))

theorem mem_requests_of_orderBy {k : OrderKey} (hm : k ∈ q.orderBy) (hr : r ∈ k.expr.requests) :
    r ∈ q.requests := by
  simp only [requests, List.mem_append]
  exact .inr (List.mem_flatMap.mpr ⟨k, hm, hr⟩)

end Query

namespace Context

/-- The same evaluation, where call sites remember definitions. -/
def remembering (c : Context) (r : Remembered) : Context := { c with remembered := r }

@[simp] theorem query_remembering (c : Context) (r : Remembered) :
    (c.remembering r).query = c.query :=
  rfl

/-- Whether expressions that keep to some requests are evaluated in related ways if call sites
remember definitions. -/
structure Follows (R : ∀ α : Type, Run α → Run α → Prop) (A : Request → Prop) (c : Context)
    (r : Remembered) (h h' : Hooks) : Prop where
  congruence : Run.Congruence R
  ofExcept : ∀ {α : Type} (x : Except QueryError α), R α (Run.ofExcept x) (Run.ofExcept x)
  eval : ∀ (e : Expr) (env : Environment), (∀ a ∈ e.requests, A a) →
    R (Option Term) (e.eval (c.remembering r).toScope h env) (e.eval c.toScope h' env)

variable {R : ∀ α : Type, Run α → Run α → Prop} {A : Request → Prop} {c : Context} {r : Remembered}
  {h h' : Hooks} {σ : Type} {next next' : Next σ}

theorem Follows.test (hF : Follows R A c r h h') (e : Expr) (env : Environment)
    (he : ∀ a ∈ e.requests, A a) :
    R Bool (e.test (c.remembering r).toScope h env) (e.test c.toScope h' env) :=
  hF.congruence.bind (hF.eval e env he) fun _ _ => hF.congruence.pure _

/-! ### Patterns -/

theorem bindPositions_remembering (o : Occurrence) (ps : List (Position × NodePattern))
    (env : Environment) :
    (c.remembering r).bindPositions o ps env = c.bindPositions o ps env := by
  induction ps generalizing env with
  | nil => rfl
  | cons p ps ih =>
    rw [bindPositions, bindPositions]
    simp only [ih]
    rfl

theorem bindEdge_remembering (e : EdgePattern) (graph : Option NodePattern) (o : Occurrence)
    (env : Environment) : (c.remembering r).bindEdge e graph o env = c.bindEdge e graph o env := by
  unfold bindEdge
  simp only [bindPositions_remembering]
  rfl

theorem bindRow_remembering (row : List (Variable × Option Term)) (env : Environment) :
    (c.remembering r).bindRow row env = c.bindRow row env := by
  induction row generalizing env with
  | nil => rfl
  | cons cell row ih =>
    obtain ⟨v, _ | t⟩ := cell
    · exact ih env
    · rw [bindRow, bindRow]
      simp only [ih]
      rfl

theorem Follows.binding (hF : Follows R A c r h h')
    (hn : ∀ env w, R (ForInStep σ) (next env w) (next' env w)) (v : Variable) (t : Term)
    (env : Environment) (w : σ) :
    R (ForInStep σ) ((c.remembering r).binding v t env next w) (c.binding v t env next' w) := by
  refine hF.congruence.bind (hF.ofExcept _) fun env _ => ?_
  cases env with
  | none => exact hF.congruence.pure _
  | some env => exact hn env w

theorem Follows.solveEdge (hF : Follows R A c r h h')
    (hn : ∀ env w, R (ForInStep σ) (next env w) (next' env w)) (e : EdgePattern)
    (env : Environment) (w : σ) :
    R (ForInStep σ) ((c.remembering r).solveEdge e env next w) (c.solveEdge e env next' w) := by
  unfold Context.solveEdge
  simp only [bindEdge_remembering]
  refine hF.congruence.visit (fun i o _ w => ?_) 0 w
  refine hF.congruence.bind (hF.ofExcept _) fun env _ => ?_
  cases env with
  | none => exact hF.congruence.pure _
  | some env => exact hn _ w

theorem Follows.solveEnds (hF : Follows R A c r h h')
    (hn : ∀ env w, R (ForInStep σ) (next env w) (next' env w)) (target : NodePattern)
    (reached : List Term) (env : Environment) (w : σ) :
    R (ForInStep σ) ((c.remembering r).solveEnds target reached env next w)
      (c.solveEnds target reached env next' w) := by
  refine hF.congruence.visit (fun i t _ w => ?_) 0 w
  cases target with
  | const u =>
    dsimp only
    split_ifs
    · exact hn _ w
    · exact hF.congruence.pure _
  | var v => exact hF.binding hn v t _ w

theorem Follows.solvePath (hF : Follows R A c r h h')
    (hn : ∀ env w, R (ForInStep σ) (next env w) (next' env w)) (p : PathPattern)
    (env : Environment) (w : σ) :
    R (ForInStep σ) ((c.remembering r).solvePath p env next w) (c.solvePath p env next' w) := by
  refine hF.congruence.visit (fun i t _ w => ?_) 0 w
  refine hF.congruence.bind (hF.ofExcept _) fun env _ => ?_
  cases env with
  | none => exact hF.congruence.pure _
  | some env => exact hF.solveEnds hn _ _ env w

theorem Follows.solveValues (hF : Follows R A c r h h')
    (hn : ∀ env w, R (ForInStep σ) (next env w) (next' env w)) (vs : List Variable)
    (rows : List (List (Option Term))) (env : Environment) (w : σ) :
    R (ForInStep σ) ((c.remembering r).solveValues vs rows env next w)
      (c.solveValues vs rows env next' w) := by
  unfold Context.solveValues
  simp only [bindRow_remembering]
  refine hF.congruence.visit (fun i row _ w => ?_) 0 w
  refine hF.congruence.bind (hF.ofExcept _) fun env _ => ?_
  cases env with
  | none => exact hF.congruence.pure _
  | some env => exact hn _ w

end Context

/-- Patterns are solved in related ways. -/
theorem Pattern.solve_related {R : ∀ α : Type, Run α → Run α → Prop} {A : Request → Prop}
    {c : Context} {r : Remembered} {h h' : Hooks} (hF : Context.Follows R A c r h h') (p : Pattern)
    (hp : ∀ a ∈ p.requests, A a) {σ : Type} {next next' : Context.Next σ}
    (hn : ∀ env w, R (ForInStep σ) (next env w) (next' env w)) (env : Environment) (w : σ) :
    R (ForInStep σ) (p.solve (c.remembering r) h env next w) (p.solve c h' env next' w) := by
  have hR := hF.congruence
  cases p with
  | edge e => exact hF.solveEdge hn e env w
  | path p => exact hF.solvePath hn p env w
  | values vs rows => exact hF.solveValues hn vs rows env w
  | sequence items =>
    rw [solve_sequence, solve_sequence]
    have hall : ∀ ps : List Pattern, (∀ p ∈ ps, p ∈ items) → ∀ env w, R (ForInStep σ)
        (solve.solveAll (c.remembering r) h ps env next w) (solve.solveAll c h' ps env next' w) := by
      intro ps
      induction ps with
      | nil => exact fun _ env w => hn env w
      | cons p ps ih =>
        intro hps env w
        obtain ⟨hm, hps⟩ := List.forall_mem_cons.mp hps
        have := List.sizeOf_lt_of_mem hm
        rw [solveAll_cons, solveAll_cons]
        exact solve_related hF p (fun a ha => hp a (mem_listRequests.mpr ⟨p, hm, ha⟩)) (ih hps) env w
    exact hall items (fun _ hm => hm) env w
  | optional left right condition =>
    simp only [requests, List.mem_append] at hp
    rw [solve, solve]
    refine solve_related hF left (fun a ha => hp a (.inl (.inl ha))) (fun env w => ?_) env w
    refine hR.bind (solve_related hF right (fun a ha => hp a (.inl (.inr ha)))
      (fun env state => ?_) (env.choose 0) (false, w)) fun matched _ => ?_
    · obtain ⟨found, w⟩ := state
      cases condition
      case' none => refine hR.bind (hR.pure true) fun holds _ => ?_
      case' some e => refine hR.bind (hF.test e env fun a ha => hp a (.inr ha)) fun holds _ => ?_
      all_goals
        dsimp only
        split_ifs
        · refine hR.bind (hn env w) fun step _ => ?_
          cases step <;> exact hR.pure _
        · exact hR.pure _
    · rcases matched with ⟨_, w⟩ | ⟨_ | _, w⟩
      · exact hR.pure _
      · exact hn _ w
      · exact hR.pure _
  | union left right =>
    simp only [requests, List.mem_append] at hp
    rw [solve, solve]
    refine hR.bind (solve_related hF left (fun a ha => hp a (.inl ha)) hn _ w) fun step _ => ?_
    cases step with
    | done w => exact hR.pure _
    | yield w => exact solve_related hF right (fun a ha => hp a (.inr ha)) hn _ w
  | minus left right =>
    simp only [requests, List.mem_append] at hp
    rw [solve, solve]
    refine hR.bind (solve_related hF right (fun a ha => hp a (.inr ha))
      (fun env w => hR.pure _) _ []) fun excluded _ => ?_
    refine solve_related hF left (fun a ha => hp a (.inl ha)) (fun env w => ?_) _ w
    dsimp only
    split_ifs
    · exact hR.pure _
    · exact hn env w
  | filter e =>
    rw [solve, solve]
    refine hR.bind (hF.test e _ hp) fun holds _ => ?_
    split_ifs
    · exact hn _ w
    · exact hR.pure _
  | bind v e =>
    rw [solve, solve]
    refine hR.bind (hF.eval e _ hp) fun t _ => ?_
    cases t with
    | none => exact hn _ w
    | some t => exact hF.binding hn v t.canonical _ w
  | graph name inner =>
    have hin : ∀ env w, R (ForInStep σ) (inner.solve (c.remembering r) h env next w)
        (inner.solve c h' env next' w) := solve_related hF inner hp hn
    cases name with
    | const t => exact hin _ w
    | var v =>
      rw [solve, solve]
      change R (ForInStep σ) (if ((env.get? c.query v).isNone && inner.containsPath) = true then _
        else _) _
      split_ifs
      · exact hR.visit (fun i g _ w => hF.binding hin v g.term _ w) 0 w
      · exact hin _ w
termination_by sizeOf p

namespace Context

variable {R : ∀ α : Type, Run α → Run α → Prop} {A : Request → Prop} {c : Context} {r : Remembered}
  {h h' : Hooks}

theorem collect_related (hR : Run.Congruence R) (limit : Option Nat) (env : Environment)
    (rows : List Solution) :
    R (ForInStep (List Solution)) (collect limit env rows) (collect limit env rows) := by
  unfold collect
  split_ifs <;> exact hR.pure _

/-- Whether there is a solution is found out in related ways, one level of references above. -/
theorem hasSolution_related {d d' : Nat}
    (hF : Follows R A c r ((c.remembering r).hooks d) (c.hooks d')) {p : Pattern}
    (hp : ∀ a ∈ p.requests, A a) (env : Environment) :
    R Bool (((c.remembering r).hooks (d + 1)).hasSolution p env)
      ((c.hooks (d' + 1)).hasSolution p env) := by
  have hR := hF.congruence
  rw [hasSolution_hooks, hasSolution_hooks]
  exact hR.bind (p.solve_related hF hp (collect_related hR (some 1)) env []) fun _ _ => hR.pure _

/-! ### Answers -/

/-- Whether expressions are evaluated in related ways, however deep the references in them go. -/
abbrev Follows.Whole (R : ∀ α : Type, Run α → Run α → Prop) (A : Request → Prop) (c : Context)
    (r : Remembered) : Prop :=
  Follows R A c r ((c.remembering r).hooks (c.remembering r).depth) (c.hooks c.depth)

theorem rawSolutions_related (hF : Follows.Whole R A c r) (hA : ∀ a ∈ c.query.requests, A a) :
    R Solutions (c.remembering r).rawSolutions c.rawSolutions := by
  have hR := hF.congruence
  have hsolutions : ∀ (m : Environment) (limit : Option Nat), R (List Solution)
      ((c.remembering r).solutions c.query.body m limit) (c.solutions c.query.body m limit) := by
    intro m limit
    rw [solutions_eq, solutions_eq]
    exact hR.bind (Pattern.solve_related hF _ (fun a ha => hA a (Query.mem_requests_of_body ha))
      (collect_related hR limit) m []) fun _ _ => hR.pure _
  exact hR.bind (hsolutions _ _) fun _ _ => hR.pure _

theorem selectFrom_related (hF : Follows.Whole R A c r) (group : Option (List Solution))
    (row i : Nat) {items : List SelectItem} (hA : ∀ item ∈ items, ∀ a ∈ item.expr.requests, A a)
    (s : Solution) :
    R (Option Solution) ((c.remembering r).selectFrom group row i items s)
      (c.selectFrom group row i items s) := by
  have hR := hF.congruence
  induction items generalizing i s with
  | nil => exact hR.pure _
  | cons item items ih =>
    obtain ⟨hitem, hitems⟩ := List.forall_mem_cons.mp hA
    rw [selectFrom, selectFrom]
    by_cases hskip : (group.isNone && item.isAggregate) = true
    · rw [if_pos hskip, if_pos hskip]
      exact ih (i + 1) hitems s
    · rw [if_neg hskip, if_neg hskip, query_remembering]
      cases c.query.slot? item.target with
      | none => exact hF.ofExcept (.error _)
      | some slot =>
        refine hR.bind (hF.eval item.expr _ hitem) fun t _ => ?_
        cases t.map Term.canonical with
        | none => exact ih (i + 1) hitems s
        | some t =>
          dsimp only
          cases s.get? slot with
          | none => exact ih (i + 1) hitems _
          | some current =>
            dsimp only
            split_ifs
            · exact ih (i + 1) hitems s
            · exact hR.pure _

theorem select_related (hF : Follows.Whole R A c r) (hA : ∀ a ∈ c.query.requests, A a)
    (s : Solution) (group : Option (List Solution)) (row : Nat) :
    R (Option Solution) ((c.remembering r).select s group row) (c.select s group row) := by
  exact selectFrom_related hF group row 0
    (fun item hm a ha => hA a (Query.mem_requests_of_select hm ha)) s

theorem key_related (hF : Follows.Whole R A c r) (stage : Stage) (s : Solution)
    (group : Option (List Solution)) (row i : Nat) {e : Expr} (he : ∀ a ∈ e.requests, A a) :
    R (Option Term) ((c.remembering r).key stage s group row i e) (c.key stage s group row i e) := by
  have hR := hF.congruence
  unfold key
  rw [query_remembering]
  cases ((e.asVariable).bind c.query.slot?).bind s.get? with
  | some t => exact hR.pure _
  | none =>
    dsimp only
    split_ifs
    · exact hR.pure _
    · exact hR.bind (hF.eval e _ he) fun _ _ => hR.pure _

theorem keys_related (hF : Follows.Whole R A c r) (hA : ∀ a ∈ c.query.requests, A a)
    (s : Solution) (group : Option (List Solution)) (row : Nat) :
    R Solution ((c.remembering r).keys s group row) (c.keys s group row) := by
  have hR := hF.congruence
  exact hR.bind (hR.mapIdx (fun i k hm => key_related hF _ s group row i
    fun a ha => hA a (Query.mem_requests_of_orderBy hm ha)) 0) fun _ _ =>
      hR.bind (hR.mapIdx (fun i e hm => key_related hF _ s group row i
        fun a ha => hA a (Query.mem_requests_of_groupBy hm ha)) 0) fun _ _ => hR.pure _

theorem complete_related (hF : Follows.Whole R A c r) (hA : ∀ a ∈ c.query.requests, A a)
    (rows : Solutions) : R Solutions ((c.remembering r).complete rows) (c.complete rows) := by
  have hR := hF.congruence
  refine hR.bind ?_ fun selected _ =>
    hR.bind (hR.mapIdx (fun i s _ => keys_related hF hA s none i) 0) fun _ _ => hR.pure _
  unfold selectRows
  change R Solutions (if c.query.select.isEmpty = true then _ else _) _
  split_ifs
  · exact hR.pure _
  · exact hR.bind (hR.mapIdx (fun i s _ => select_related hF hA s none i) 0) fun _ _ => hR.pure _

theorem admits_related (hF : Follows.Whole R A c r) (s : Solution) (group : List Solution)
    (row i : Nat) {es : List Expr} (hA : ∀ e ∈ es, ∀ a ∈ e.requests, A a) :
    R Bool ((c.remembering r).admits s group row i es) (c.admits s group row i es) := by
  have hR := hF.congruence
  induction es generalizing i with
  | nil => exact hR.pure _
  | cons e es ih =>
    obtain ⟨he, hes⟩ := List.forall_mem_cons.mp hA
    refine hR.bind (hF.test e _ he) fun holds _ => ?_
    split_ifs
    · exact ih (i + 1) hes
    · exact hR.pure _

theorem grouped_related (hF : Follows.Whole R A c r) (hA : ∀ a ∈ c.query.requests, A a)
    (rows : Solutions) : R Solutions ((c.remembering r).grouped rows) (c.grouped rows) := by
  have hR := hF.congruence
  refine hR.bind (hR.mapIdx (fun i group _ => ?_) 0) fun _ _ => hR.pure _
  refine hR.bind (select_related hF hA _ (some group) i) fun s _ => ?_
  cases s with
  | none => exact hR.pure _
  | some s =>
    refine hR.bind (admits_related hF s group i 0 fun e hm a ha =>
      hA a (Query.mem_requests_of_having hm ha)) fun holds _ => ?_
    split_ifs
    · exact hR.bind (keys_related hF hA s (some group) i) fun _ _ => hR.pure _
    · exact hR.pure _

/-- Queries are answered in related ways. -/
theorem answer_related (hF : Follows.Whole R A c r) (hA : ∀ a ∈ c.query.requests, A a) :
    R Solutions (c.remembering r).answer c.answer := by
  have hR := hF.congruence
  refine hR.bind (rawSolutions_related hF hA) fun raw _ =>
    hR.bind (complete_related hF hA raw) fun rows _ => ?_
  dsimp only
  change R Solutions (if c.query.isAggregate = true then _ else _) _
  by_cases hagg : c.query.isAggregate = true
  · rw [if_pos hagg, if_pos hagg]
    exact hR.bind (grouped_related hF hA rows) fun _ _ => hR.pure _
  · rw [if_neg hagg, if_neg hagg]
    exact hR.bind (hR.pure rows) fun _ _ => hR.pure _

end Context

end GraphQuery
