import GraphQuery.Proofs.Algebra.Extensions
import GraphQuery.Proofs.Algebra.Numbering
import GraphQuery.Proofs.Evaluate.FirstOccurrences
import GraphQuery.Proofs.Evaluate.Modifiers
import GraphQuery.Proofs.Evaluate.Rearrangement
import GraphQuery.Proofs.Evaluate.Regrouping

/-! Columns bound in the body. A column may as well be bound at the end of the body: a binding has
the value there that the column has in the finished row, and rows with another value are lost either
way. Slots are declared in another order then, and a group computes the columns that are left once
more. -/

namespace GraphQuery

/-! ### Bindings for columns -/

namespace Pattern

variable {c : Context} {h : Hooks} {env : Environment} {p : Pattern} {ps qs : List Pattern}

/-- What some patterns hand on goes on through the others. -/
theorem collected_traceAll_append : (trace.traceAll c h (ps ++ qs) env).collected =
    (trace.traceAll c h ps env).collected.bind
      (gather fun m => (trace.traceAll c h qs m).collected) := by
  induction ps generalizing env with
  | nil => exact (gather_singleton (fun m => (trace.traceAll c h qs m).collected) env).symm
  | cons p ps ih =>
    rw [List.cons_append, trace.traceAll, trace.traceAll, Trace.collected_bind,
      Trace.collected_bind, Option.bind_assoc]
    refine Option.bind_congr fun ms _ => ?_
    rw [gather_bind]
    exact gather_congr fun m _ => ih

/-- The steps of a pattern hand on what the pattern does. -/
theorem collected_steps {steps : List Pattern} (hsteps : steps = [p] ∨ steps = p.steps) :
    (trace.traceAll c h steps env).collected = (p.trace c h env).collected := by
  have hone : (trace.traceAll c h [p] env).collected = (p.trace c h env).collected := by
    have hsingle : ∀ m : Environment, (trace.traceAll c h [] m).collected = some [m] := fun _ => rfl
    rw [trace.traceAll, Trace.collected_bind]
    simp [hsingle, gather_some]
  rcases hsteps with rfl | rfl
  · exact hone
  · cases p with
    | sequence items => rw [Pattern.steps, trace]
    | _ => exact hone

end Pattern

/-- Nothing but slots, one for each variable. -/
structure Environment.Bare (q : Query) (env : Environment) : Prop where
  length : env.bindings.length = q.vars.length
  locals : env.locals = []
  graph : env.graph = none
  group : env.group = none

namespace Context

variable {c : Context} {m : Environment} {s : Solution} {items : List SelectItem} {row i : Nat}

theorem bare_stable (c : Context) :
    Environment.Stable c.query (fun _ => True) (fun _ => True) (Environment.Bare c.query) where
  choose _ _ h := ⟨h.length, h.locals, h.graph, h.group⟩
  bind env v t env' _ _ h hb := by
    obtain ⟨-, rfl | rfl⟩ := Environment.eq_assign_of_bind hb
    · exact h
    · exact ⟨Environment.length_assign.trans h.length, Environment.locals_assign.trans h.locals,
        Environment.graph_assign.trans h.graph, Environment.group_assign.trans h.group⟩
  graph _ _ h hn := (Option.some_ne_none _ (hn.symm.trans h.graph)).elim

/-- A body that enters no graph hands on nothing but slots. -/
theorem bare_of_bodyTrace (hbody : c.query.body.keepsGraph = true) (hm : m ∈ c.bodyTrace.items) :
    m.Bare c.query :=
  Pattern.kept c.bare_stable c.supplies_any c.query.body _ (fun _ _ => trivial) (.inl hbody)
    ⟨List.length_replicate, rfl, rfl, rfl⟩ m hm

theorem solution_assign {q : Query} (hl : m.bindings.length = q.vars.length) (v : Variable)
    (t : Term) : (m.assign q v t).solution = q.put v (some t) m.solution := by
  unfold Environment.assign Query.put
  cases hi : q.slot? v with
  | none => rfl
  | some i =>
    have hslots : (m.solution.set i (some t)).slots = m.bindings.set i (some t) :=
      Solution.slots_set (s := m.solution) (hl ▸ Query.slot_lt hi)
    have hset : m.solution.set i (some t) = { slots := (m.solution.set i (some t)).slots } := rfl
    exact (hset.trans (congrArg (fun slots => ({ slots } : Solution)) hslots)).symm

/-- A value is bound in an environment as it is in a row. -/
theorem bindColumn_solution {v : Variable} (hv : v ∈ c.query.vars) (hm : m.Bare c.query)
    (t : Option Term) : ∃ next : Option Environment,
      t.elim (.single m) (fun t => .ofBinding (m.bind? c.query v t.canonical)) =
          Trace.ofBinding (.ok next) ∧
        c.bindColumn v t m.solution = next.map (·.solution) ∧
        ∀ m' ∈ next, m'.Bare c.query := by
  cases t with
  | none => exact ⟨some m, rfl, rfl, fun m' h => Option.some.inj h ▸ hm⟩
  | some t =>
    have hread : c.query.read v m.solution = m.binding? c.query v := rfl
    obtain ⟨next, hnext, hbind⟩ : ∃ next, m.bind? c.query v t.canonical = .ok next ∧
        c.bindColumn v (some t) m.solution = next.map (·.solution) := by
      unfold bindColumn
      rw [hread]
      cases hb : m.binding? c.query v with
      | none =>
        exact ⟨_, Environment.bind_of_free hv hb _,
          congrArg some (solution_assign hm.length v t.canonical).symm⟩
      | some u =>
        refine ⟨_, Environment.bind_of_bound hb _, ?_⟩
        dsimp only [Option.map_some]
        split_ifs <;> rfl
    refine ⟨next, congrArg Trace.ofBinding hnext, hbind, fun m' hm' => ?_⟩
    exact c.bare_stable.bind m v _ m' trivial trivial hm (hnext.trans (congrArg Except.ok hm'))

/-- Bindings hand on the row with the columns. -/
theorem collected_bindings (hv : ∀ item ∈ items, item.target ∈ c.query.vars)
    (hplain : ∀ item ∈ items, item.isAggregate = false)
    (hsystem : ∀ item ∈ items, ∀ target, ¬ c.Reaches item.expr.requests (.snapshot target))
    (hm : m.Bare c.query) (row i : Nat) :
    (Pattern.trace.traceAll c (c.hooks c.depth) (items.map SelectItem.binding) m).collected.map
        (List.map (·.solution)) =
      (c.selectFrom none row i items m.solution).value?.map Option.toList := by
  induction items generalizing m i with
  | nil => rfl
  | cons item items ih =>
    obtain ⟨htarget, hv⟩ := List.forall_mem_cons.mp hv
    obtain ⟨hitem, hplain⟩ := List.forall_mem_cons.mp hplain
    obtain ⟨hnone, hsystem⟩ := List.forall_mem_cons.mp hsystem
    have hvalue : item.expr.eval c.toScope (c.hooks c.depth) (m.choose 0) =
        c.evaluate item.expr (rowEnvironment .column row i m.solution none) :=
      evaluate_of_reads hnone ⟨fun _ _ => rfl, hm.locals, hm.graph, hm.group, fun n hn =>
        (Option.some_ne_none _ (hn.symm.trans hm.graph)).elim⟩
    rw [List.map_cons, SelectItem.binding, Pattern.trace.traceAll, Pattern.trace,
      Trace.collected_bind, Trace.collected_ofRun, hvalue, selectFrom_eq htarget (by simp [hitem]),
      Run.value_bind, Option.bind_assoc, Option.map_bind, Option.map_bind]
    refine Option.bind_congr fun t _ => ?_
    have hm₁ : (m.choose 1).Bare c.query := c.bare_stable.choose m 1 hm
    obtain ⟨next, hnext, hcolumn, hbare⟩ := bindColumn_solution htarget hm₁ t
    have hsolution : (m.choose 1).solution = m.solution := rfl
    rw [hsolution] at hcolumn
    rw [Function.comp_apply, Function.comp_apply, hnext, hcolumn]
    cases next with
    | none => rfl
    | some m' =>
      refine Eq.trans ?_ (ih hv hplain hsystem (hbare m' rfl) (i + 1))
      exact congrArg (Option.map _) (gather_singleton
        (fun m => (Pattern.trace.traceAll c (c.hooks c.depth) (items.map SelectItem.binding)
          m).collected) m')

/-- Columns that come to no snapshot are computed in two turns, whatever the places in the second
one. -/
theorem selectFrom_append {items' : List SelectItem}
    (hv : ∀ item ∈ items, item.target ∈ c.query.vars)
    (hplain : ∀ item ∈ items, item.isAggregate = false)
    (hsystem : ∀ item ∈ items', ∀ target, ¬ c.Reaches item.expr.requests (.snapshot target))
    (row i i' : Nat) (s : Solution) : c.selectFrom none row i (items ++ items') s =
      c.selectFrom none row i items s >>= fun next =>
        next.elim (pure none) (c.selectFrom none row i' items') := by
  induction items generalizing i s with
  | nil => exact selectFrom_row hsystem row row i i' s
  | cons item items ih =>
    obtain ⟨htarget, hv⟩ := List.forall_mem_cons.mp hv
    obtain ⟨hitem, hplain⟩ := List.forall_mem_cons.mp hplain
    rw [List.cons_append, selectFrom_eq htarget (by simp [hitem]),
      selectFrom_eq htarget (by simp [hitem]), bind_assoc]
    refine bind_congr fun t => ?_
    cases c.bindColumn item.target t s with
    | none => rfl
    | some next => exact ih hv hplain (i + 1) next

theorem fits_of_selectFrom {s' : Solution} (hv : ∀ item ∈ items, item.target ∈ c.query.vars)
    (hplain : ∀ item ∈ items, item.isAggregate = false) (hs : s.Fits c.query)
    (h : (c.selectFrom none row i items s).outcome = .ok (some s')) : s'.Fits c.query := by
  induction items generalizing i s with
  | nil => rwa [← Option.some.inj (Except.ok.inj h)]
  | cons item items ih =>
    obtain ⟨htarget, hv⟩ := List.forall_mem_cons.mp hv
    obtain ⟨hitem, hplain⟩ := List.forall_mem_cons.mp hplain
    obtain ⟨t, next, -, hnext, h⟩ := exists_selectFrom hitem htarget h
    exact ih hv hplain (fits_bindColumn hs hnext) h

/-- Each row comes from a solution of the body. -/
theorem exists_of_selectedRows {rows : List Solution} (hrows : c.selectedRows = some rows)
    {s : Solution} (hs : s ∈ rows) : ∃ m ∈ c.bodyTrace.items,
      (c.selectFrom none 0 0 c.query.select m.solution).outcome = .ok (some s) := by
  obtain ⟨ms, hms, hrows⟩ := Option.bind_eq_some_iff.mp hrows
  obtain ⟨m, hm, xs, hxs, hs⟩ := exists_of_gather hrows hs
  obtain ⟨o, ho, rfl⟩ := Option.map_eq_some_iff.mp hxs
  rw [Option.mem_toList] at hs
  exact ⟨m, Trace.mem_items_of_collected hms hm, hs ▸ Run.value_eq_some.mp ho⟩

theorem fits_of_keyed {rows keyed : List Solution} (hrows : ∀ s ∈ rows, s.Fits c.query)
    (h : (Run.mapIdx (fun i s => c.keys s none i) 0 rows).outcome = .ok keyed) :
    ∀ d ∈ keyed, d.Fits c.query := by
  intro d hd
  obtain ⟨hlength, hget⟩ := Run.outcome_mapIdx h
  obtain ⟨j, hj, rfl⟩ := List.mem_iff_getElem.mp hd
  obtain ⟨d, hjd, hkeys⟩ := hget j _ (List.getElem?_eq_getElem (hlength ▸ hj))
  rw [List.getElem?_eq_getElem hj] at hjd
  rw [Option.some.inj hjd, Solution.Fits, slots_of_keys hkeys]
  exact hrows _ (List.getElem_mem _)

end Context

/-! ### Declarations -/

/-- What is first there where everything of a kind is does not depend on what follows. -/
theorem filter_eraseDups_append {α : Type} [BEq α] [LawfulBEq α] {W : α → Bool} {as : List α}
    (hW : ∀ a, W a = true → a ∈ as) (bs : List α) :
    (as ++ bs).eraseDups.filter W = (as.filter W).eraseDups := by
  have hsubset : bs.filter W ⊆ as.filter W := fun a ha =>
    have hw := (List.mem_filter.mp ha).2
    List.mem_filter.mpr ⟨hW a hw, hw⟩
  have hmore := eraseDups_append_of_subset hsubset []
  rwa [List.append_nil, List.append_nil, ← List.filter_append, eraseDups_filter] at hmore

namespace Query

variable {q : Query} {steps : List Pattern} {n : Nat}

theorem listVariables_bindings (items : List SelectItem) :
    Pattern.vars.listVariables (items.map SelectItem.binding) =
      items.flatMap fun i => i.expr.vars ++ [i.target] := by
  induction items with
  | nil => rfl
  | cons item items ih =>
    rw [List.map_cons, Pattern.vars.listVariables, ih, List.flatMap_cons]
    rfl

theorem mem_listRequests_bindings {items : List SelectItem} {r : Request}
    (hr : r ∈ Pattern.requests.listRequests (items.map SelectItem.binding)) :
    ∃ item ∈ items, r ∈ item.expr.requests := by
  obtain ⟨p, hp, hr⟩ := Pattern.mem_listRequests.mp hr
  obtain ⟨item, hitem, rfl⟩ := List.mem_map.mp hp
  exact ⟨item, hitem, hr⟩

section

variable (hsteps : steps = [q.body] ∨ steps = q.body.steps)

include hsteps

theorem vars_steps : (Pattern.sequence steps).vars = q.body.vars := by
  rcases hsteps with rfl | rfl
  · exact List.append_nil _
  · exact Pattern.listVariables_steps q.body

theorem requests_steps : (Pattern.sequence steps).requests = q.body.requests := by
  rcases hsteps with rfl | rfl
  · exact List.append_nil _
  · exact Pattern.listRequests_steps q.body

/-- The variables of the columns come earlier. -/
theorem vars_body_bindColumns : (q.bindColumns steps n).body.vars =
    q.body.vars ++ (q.select.take n).flatMap fun i => i.expr.vars ++ [i.target] := by
  rw [← vars_steps hsteps, ← listVariables_bindings]
  exact Pattern.listVariables_append _ _

theorem mem_occurrences_bindColumns {v : Variable} :
    v ∈ (q.bindColumns steps n).occurrences ↔ v ∈ q.occurrences := by
  have hselect : q.select.flatMap (fun i => i.expr.vars ++ [i.target]) =
      (q.select.take n).flatMap (fun i => i.expr.vars ++ [i.target]) ++
        (q.select.drop n).flatMap fun i => i.expr.vars ++ [i.target] := by
    rw [← List.flatMap_append, List.take_append_drop]
  rw [QueryParts.occurrences, QueryParts.occurrences, vars_body_bindColumns hsteps, hselect]
  simp only [bindColumns, QueryParts.bindColumns, ofParts, List.mem_append]
  tauto

theorem bindColumns_rearranges : (q.bindColumns steps n).Rearranges q where
  vars := by
    refine (List.perm_ext_iff_of_nodup (nodup_vars _) (nodup_vars _)).mpr fun v => ?_
    rw [vars_eq, q.vars_eq, QueryParts.declared, QueryParts.declared, List.mem_eraseDups,
      List.mem_eraseDups]
    exact mem_occurrences_bindColumns hsteps
  parts := rfl

/-- The variables of the body are declared in the same order. -/
theorem filter_vars_bindColumns {W : Variable → Bool} (hW : ∀ v, W v = true → v ∈ q.body.vars) :
    (q.bindColumns steps n).vars.filter W = q.vars.filter W := by
  rw [vars_eq, q.vars_eq, QueryParts.declared, QueryParts.declared, QueryParts.occurrences,
    QueryParts.occurrences, vars_body_bindColumns hsteps]
  simp only [List.append_assoc, filter_eraseDups_append hW]

end

end Query

/-! ### Queries with the same answers -/

theorem Scope.Reaches.of_append {c : Scope} {rs rs' : List Request} {r : Request}
    (h : c.Reaches (rs ++ rs') r) : c.Reaches rs r ∨ c.Reaches rs' r := by
  induction h with
  | start hr => exact (List.mem_append.mp hr).imp .start .start
  | existence _ hp hr ih => exact ih.imp (.existence · hp hr) (.existence · hp hr)
  | call _ hd hr ih => exact ih.imp (.call · hd hr) (.call · hd hr)

theorem Scope.Reaches.of_flatMap {α : Type} {c : Scope} {f : α → List Request} {as : List α}
    {r : Request} (h : c.Reaches (as.flatMap f) r) : ∃ a ∈ as, c.Reaches (f a) r := by
  induction h with
  | start hr =>
    obtain ⟨a, ha, hr⟩ := List.mem_flatMap.mp hr
    exact ⟨a, ha, .start hr⟩
  | existence _ hp hr ih => exact ih.imp fun _ ⟨ha, h⟩ => ⟨ha, .existence h hp hr⟩
  | call _ hd hr ih => exact ih.imp fun _ ⟨ha, h⟩ => ⟨ha, .call h hd hr⟩

/-- What a query asks for besides its body and its columns. -/
def Query.later (q : Query) : List Request :=
  q.patterns.flatMap Pattern.requests ++ q.orderBy.flatMap (·.expr.requests)

namespace Context

/-- Whether a group has the columns of its first solution: there is one, its columns are free before
they are computed, and they are the same over the group. -/
structure GroupsAlike (c : Context) : Prop where
  nodup : (c.query.select.map (·.target)).Nodup
  fresh : ∀ item ∈ c.query.select, item.target ∉ c.query.body.vars
  reads : c.LooksBack c.query.select {}
  called : ∀ item ∈ c.query.select, c.WithoutAggregates item.expr
  solved : ∀ raw, c.rawSolutions.outcome = .ok raw → raw.rows ≠ []

/-- Whether the first columns of a query may be bound in its body: the body leaves the graph in
force as it is, columns have no aggregates and come to no snapshot, snapshots that patterns or keys
come to list the variables in the same order, and if all rows form a group, it has the same
columns. -/
structure BindsAlike (c : Context) (steps : List Pattern) (n : Nat) : Prop where
  stepwise : steps = [c.query.body] ∨ steps = c.query.body.steps
  uncapped : c.source.options.limit = none
  groupBy : c.query.groupBy = []
  having : c.query.having = []
  body : c.query.body.keepsGraph = true
  plain : ∀ item ∈ c.query.select, item.isAggregate = false
  system : ∀ item ∈ c.query.select, ∀ target, ¬ c.Reaches item.expr.requests (.snapshot target)
  later : ∀ target, c.Reaches c.query.later (.snapshot target) →
    (c.query.bindColumns steps n).vars = c.query.vars
  groups : (∀ k ∈ c.query.orderBy, k.expr.isAggregate = false) ∨ c.GroupsAlike

/-- What may be asked for once the body has been solved. -/
abbrev Finishing (c : Context) : Request → Prop :=
  c.Reaches (c.query.later ++ c.query.select.flatMap (·.expr.requests))

theorem finishing_select {c : Context} {item : SelectItem} (hm : item ∈ c.query.select) :
    ∀ r ∈ item.expr.requests, c.Finishing r := fun _ hr =>
  .start (List.mem_append_right _ (List.mem_flatMap.mpr ⟨item, hm, hr⟩))

theorem finishing_orderBy {c : Context} {k : OrderKey} (hk : k ∈ c.query.orderBy) :
    ∀ r ∈ k.expr.requests, c.Finishing r := fun _ hr =>
  .start (List.mem_append_left _ (List.mem_append_right _ (List.mem_flatMap.mpr ⟨k, hk, hr⟩)))

/-- Evaluation with the first columns bound in the body. -/
abbrev bindColumns (c : Context) (steps : List Pattern) (n : Nat) : Context :=
  c.withQuery (c.query.bindColumns steps n) none

/-- Rows with their slots in the order of that evaluation. -/
abbrev moved (c : Context) (steps : List Pattern) (n : Nat) (s : Solution) : Solution :=
  c.arranged (c.query.bindColumns steps n) s

theorem reaches_bindColumns {c : Context} {steps : List Pattern} {n : Nat} {start : List Request}
    {r : Request} (hr : (c.bindColumns steps n).Reaches start r) : c.Reaches start r := by
  induction hr with
  | start hr => exact .start hr
  | existence _ hp hr ih => exact .existence ih hp hr
  | call _ hd hr ih => exact .call ih hd hr

namespace BindsAlike

variable {c : Context} {steps : List Pattern} {n : Nat} (h : c.BindsAlike steps n)

include h

theorem rearranges : (c.query.bindColumns steps n).Rearranges c.query :=
  Query.bindColumns_rearranges h.stepwise

theorem carries_finishing : c.toScope.Carries (c.query.bindColumns steps n)
    (c.query.rearranged (c.query.bindColumns steps n)) (c.query.filled (fun _ => True) c.Finishing)
    (c.query.filled (fun _ => True) c.Finishing) := by
  refine Scope.carries_of_rearranges h.rearranges (fun _ _ => trivial) (fun target ha W _ => ?_)
    (fun ha hd r hr => .call ha hd hr)
    (fun ha hp => ⟨fun _ _ => trivial, fun r hr => .existence ha hp hr⟩)
  rcases Scope.Reaches.of_append ha with ha | ha
  · rw [h.later target ha]
  · obtain ⟨item, hitem, ha⟩ := ha.of_flatMap
    exact (h.system item hitem target ha).elim

theorem carries_body : c.toScope.Carries (c.query.bindColumns steps n)
    (c.query.rearranged (c.query.bindColumns steps n))
    (c.query.filled (· ∈ c.query.body.vars) (c.Reaches c.query.body.requests))
    (c.query.filled (fun _ => True) c.Finishing) := by
  refine Scope.carries_of_rearranges h.rearranges (fun _ _ => trivial)
    (fun _ _ W hW => Query.filter_vars_bindColumns h.stepwise hW)
    (fun ha hd r hr => .call ha hd hr)
    (fun {id p} _ hp => ⟨fun _ _ => trivial, fun r hr => .start ?_⟩)
  exact List.mem_append_left _ (List.mem_append_left _
    (List.mem_flatMap.mpr ⟨p, List.mem_of_getElem? hp, hr⟩))

/-! ### Rows -/

/-- The body hands on the same. -/
theorem trace_steps : (Pattern.sequence steps).trace (c.bindColumns steps n)
    ((c.bindColumns steps n).hooks (c.bindColumns steps n).depth)
      { Environment.initial (c.query.bindColumns steps n) with trail := [0] } =
    ((Pattern.sequence steps).trace c (c.hooks c.depth)
      { Environment.initial c.query with trail := [0] }).map
        (·.carried (c.query.rearranged (c.query.bindColumns steps n))) := by
  have hstart : ({ Environment.initial c.query with trail := [0] } : Environment).Within
      (c.query.filled (· ∈ c.query.body.vars) (c.Reaches c.query.body.requests)) :=
    ⟨h.carries_body.initial.1, fun _ hg => (Option.some_ne_none _ hg.symm).elim,
      fun _ hn => (Option.some_ne_none _ hn.symm).elim⟩
  rw [h.carries_body.initial_carried]
  exact traced_carried h.carries_finishing h.carries_body none
    (fun v hv => Query.vars_steps h.stepwise ▸ hv)
    (fun r hr => .start (Query.requests_steps h.stepwise ▸ hr)) hstart

/-- So do the bindings behind it. -/
theorem trace_bindings {m : Environment} (hm : m.Bare c.query) :
    (Pattern.sequence ((c.query.select.take n).map SelectItem.binding)).trace
      (c.bindColumns steps n) ((c.bindColumns steps n).hooks (c.bindColumns steps n).depth)
        (m.carried (c.query.rearranged (c.query.bindColumns steps n))) =
      ((Pattern.sequence ((c.query.select.take n).map SelectItem.binding)).trace c
        (c.hooks c.depth) m).map
          (·.carried (c.query.rearranged (c.query.bindColumns steps n))) := by
  have hwithin : m.Within (c.query.filled (fun _ => True) c.Finishing) :=
    ⟨⟨hm.length, fun _ _ => trivial⟩,
      fun _ hg => (Option.some_ne_none _ (hg.symm.trans hm.group)).elim, fun _ _ _ _ => trivial⟩
  refine traced_carried h.carries_finishing h.carries_finishing none (fun _ _ => trivial)
    (fun r hr => ?_) hwithin
  obtain ⟨item, hitem, hr⟩ := Query.mem_listRequests_bindings hr
  exact finishing_select (List.mem_of_mem_take hitem) r hr

/-- What the body and the bindings behind it hand on. -/
theorem collected_bodyTrace : (c.bindColumns steps n).bodyTrace.collected =
    c.bodyTrace.collected.bind (gather fun m =>
      (Pattern.trace.traceAll c (c.hooks c.depth) ((c.query.select.take n).map SelectItem.binding)
        m).collected.map
          (List.map (·.carried (c.query.rearranged (c.query.bindColumns steps n))))) := by
  have hsteps := h.trace_steps
  rw [Pattern.trace, Pattern.trace] at hsteps
  have hbody : (c.bindColumns steps n).bodyTrace = Pattern.trace.traceAll (c.bindColumns steps n)
      ((c.bindColumns steps n).hooks (c.bindColumns steps n).depth)
        (steps ++ (c.query.select.take n).map SelectItem.binding)
          { Environment.initial (c.query.bindColumns steps n) with trail := [0] } := by
    rw [bodyTrace, ← Pattern.trace]
    rfl
  rw [hbody, Pattern.collected_traceAll_append, hsteps, Trace.collected_map,
    Pattern.collected_steps h.stepwise, Option.bind_map]
  refine Option.bind_congr fun ms hms => ?_
  rw [Function.comp_apply, gather_map]
  refine gather_congr fun m hm => ?_
  have hbare := bare_of_bodyTrace h.body (Trace.mem_items_of_collected hms hm)
  have hbindings := h.trace_bindings hbare
  rw [Pattern.trace, Pattern.trace] at hbindings
  rw [hbindings, Trace.collected_map]

/-- The columns that are left are computed alike. -/
theorem selectFrom_drop {s : Solution} {group : Option (List Solution)} (hs : s.Fits c.query)
    (hg : GroupFits c.query group) :
    (c.bindColumns steps n).selectFrom (group.map (·.map (c.moved steps n))) 0 0
        (c.query.select.drop n) (c.moved steps n s) =
      Option.map (c.moved steps n) <$>
        c.selectFrom group 0 0 (c.query.select.drop n) s :=
  selectFrom_arranged h.rearranges h.carries_finishing none
    (fun _ hm => Query.target_mem (List.mem_of_mem_drop hm))
    (fun _ hm => finishing_select (List.mem_of_mem_drop hm)) hs hg

theorem selected_arranged {s : Solution} (hs : s.Fits c.query) :
    (c.bindColumns steps n).selected? (c.moved steps n s) =
      ((c.selectFrom none 0 0 (c.query.select.drop n) s).value?.map Option.toList).map
        (List.map (c.moved steps n)) := by
  rw [selected?, Option.map_map]
  refine (congrArg (fun r : Run (Option Solution) => r.value?.map Option.toList)
    (h.selectFrom_drop hs (groupFits_none _))).trans ?_
  rw [Run.value_map, Option.map_map]
  refine congrArg (Option.map · _) (funext fun o => ?_)
  cases o <;> rfl

/-- What the body hands on gets its columns from the bindings and from the columns that are left. -/
theorem selected_bindColumns {m : Environment} (hm : m.Bare c.query) :
    ((Pattern.trace.traceAll c (c.hooks c.depth) ((c.query.select.take n).map SelectItem.binding)
        m).collected.map
          (List.map (·.carried (c.query.rearranged (c.query.bindColumns steps n))))).bind
        (gather fun m => (c.bindColumns steps n).selected? m.solution) =
      (c.selected? m.solution).map (List.map (c.moved steps n)) := by
  have htake := List.take_subset n c.query.select
  have hdrop := List.drop_subset n c.query.select
  have htargets : ∀ item ∈ c.query.select.take n, item.target ∈ c.query.vars := fun item hm =>
    Query.target_mem (htake hm)
  have hplain : ∀ item ∈ c.query.select.take n, item.isAggregate = false := fun item hm =>
    h.plain item (htake hm)
  have hbound := collected_bindings htargets hplain (fun item hm => h.system item (htake hm))
    hm 0 0
  have hselect := selectFrom_append htargets hplain (fun item hm => h.system item (hdrop hm)) 0 0 0
    m.solution
  rw [List.take_append_drop] at hselect
  have hsolutions : ∀ ms : List Environment,
      gather (fun m => (c.bindColumns steps n).selected? m.solution)
          (ms.map (·.carried (c.query.rearranged (c.query.bindColumns steps n)))) =
        gather (fun s => (c.bindColumns steps n).selected?
          (c.moved steps n s)) (ms.map (·.solution)) := fun ms => by
    rw [gather_map, gather_map]
    rfl
  rw [Option.bind_map, Function.comp_def, funext hsolutions, ← Function.comp_def, ← Option.bind_map,
    hbound, Option.bind_map, selected?, select, hselect, Run.value_bind, Option.map_bind,
    Option.map_bind]
  refine Option.bind_congr fun next hnext => ?_
  cases next with
  | none => rfl
  | some s =>
    have hs : s.Fits c.query :=
      fits_of_selectFrom htargets hplain (s := m.solution) hm.length (Run.value_eq_some.mp hnext)
    exact (gather_singleton _ s).trans (h.selected_arranged hs)

/-- The same rows get their columns. -/
theorem selectedRows_bindColumns : (c.bindColumns steps n).selectedRows =
    c.selectedRows.map (List.map (c.moved steps n)) := by
  rw [selectedRows, h.collected_bodyTrace, selectedRows, Option.bind_assoc, Option.map_bind]
  refine Option.bind_congr fun ms hms => ?_
  rw [gather_bind, Function.comp_apply, map_gather]
  exact gather_congr fun m hm =>
    h.selected_bindColumns (bare_of_bodyTrace h.body (Trace.mem_items_of_collected hms hm))

theorem fits_of_selectedRows {rows : List Solution} (hrows : c.selectedRows = some rows) :
    ∀ s ∈ rows, s.Fits c.query := fun s hs => by
  obtain ⟨m, hm, hselect⟩ := exists_of_selectedRows hrows hs
  exact fits_of_selectFrom (fun _ hm => Query.target_mem hm) h.plain (s := m.solution)
    (bare_of_bodyTrace h.body hm).length hselect

/-- A group of all rows has a first one, if its columns are fresh. -/
theorem ne_nil_of_selectedRows (hg : c.GroupsAlike) {rows : List Solution}
    (hrows : c.selectedRows = some rows) : rows ≠ [] := by
  obtain ⟨ms, hms, hrows⟩ := Option.bind_eq_some_iff.mp hrows
  have hraw := c.value_rawSolutions h.uncapped
  rw [hms, Option.map_some, Run.value_eq_some] at hraw
  cases ms with
  | nil => exact (hg.solved _ hraw rfl).elim
  | cons m ms =>
    obtain ⟨xs, hxs, hrows⟩ := Option.bind_eq_some_iff.mp hrows
    obtain ⟨ys, -, rfl⟩ := Option.map_eq_some_iff.mp hrows
    obtain ⟨o, ho, rfl⟩ := Option.map_eq_some_iff.mp hxs
    have hkept := keepsToBody_of_trace (Trace.mem_items_of_collected hms List.mem_cons_self)
    have hsome := selectFrom_of_free (s := m.solution) hkept.length
      ⟨hg.nodup, fun _ hm => Query.target_mem hm⟩
      (fun item hm => hkept.free item.target (hg.fresh item hm)) (Run.value_eq_some.mp ho)
    obtain ⟨s, rfl⟩ := Option.isSome_iff_exists.mp hsome
    exact List.cons_ne_nil _ _

/-- The first of the rows, and what it is with its keys. -/
theorem exists_first (hg : c.GroupsAlike) {rows keyed : List Solution}
    (hrows : c.selectedRows = some rows)
    (hkeyed : (Run.mapIdx (fun i s => c.keys s none i) 0 rows).value? = some keyed) :
    ∃ (m : Environment) (s d : Solution) (rest : List Solution), keyed = d :: rest ∧
      (c.select m.solution none 0).outcome = .ok (some s) ∧ (c.keys s none 0).outcome = .ok d := by
  obtain ⟨-, hget⟩ := Run.outcome_mapIdx (Run.value_eq_some.mp hkeyed)
  obtain ⟨s, rows, rfl⟩ := List.exists_cons_of_ne_nil (h.ne_nil_of_selectedRows hg hrows)
  obtain ⟨m, -, hselect⟩ := exists_of_selectedRows hrows List.mem_cons_self
  obtain ⟨d, hd, hkeys⟩ := hget 0 s rfl
  cases keyed with
  | nil => cases hd
  | cons d' rest =>
    cases hd
    exact ⟨m, s, d, rest, rfl, hselect, hkeys⟩

/-- The row of the group of all rows is the same. -/
theorem value_groupRow_bindColumns (hg : c.GroupsAlike) {rows keyed : List Solution}
    (hrows : c.selectedRows = some rows)
    (hkeyed : (Run.mapIdx (fun i s => c.keys s none i) 0 rows).value? = some keyed) :
    ((c.bindColumns steps n).groupRow 0
        (keyed.map (c.moved steps n))).value? =
      (c.groupRow 0 keyed).value?.map (Option.map (c.moved steps n)) := by
  have hfits : GroupFits c.query (some keyed) := fun members hm =>
    Option.some.inj hm ▸ fits_of_keyed (h.fits_of_selectedRows hrows) (Run.value_eq_some.mp hkeyed)
  obtain ⟨m, s, d, rest, rfl, hselect, hkeys⟩ := h.exists_first hg hrows hkeyed
  have hd := hfits _ rfl d List.mem_cons_self
  have hread : ∀ v, c.query.read v {} = none := fun v => by
    rw [Query.read]
    cases c.query.slot? v <;> rfl
  have hlooks : c.LooksBack c.query.select m.solution := hg.reads.mono fun v hv => by
    rw [hread] at hv
    cases hv
  -- The first row has its columns already, so they are left as they are, from wherever they start.
  have hagain := selectFrom_again (fun _ hm => Query.target_mem hm) hg.called h.system hlooks
    hselect (slots_of_keys hkeys) (d :: rest) 0
  have hagain' : ((c.bindColumns steps n).select (c.moved steps n d)
      (some ((d :: rest).map (c.moved steps n))) 0).outcome =
        .ok (some (c.moved steps n d)) := by
    refine (congrArg Run.outcome (h.selectFrom_drop hd hfits)).trans ?_
    rw [Run.outcome_map, hagain n 0]
    rfl
  have hkeyed' := keys_arranged h.rearranges h.carries_finishing none
    (fun k hk => finishing_orderBy hk)
    (fun e he => absurd he (h.groupBy ▸ List.not_mem_nil)) hd hfits 0
  have hhaving : (c.bindColumns steps n).query.having = [] := h.having
  rw [value_groupRow h.having rest (hagain 0 0)]
  refine (value_groupRow hhaving _ hagain').trans ?_
  refine (congrArg (fun r : Run Solution => r.value?.map some) hkeyed').trans ?_
  rw [Run.value_map, Option.map_map, Option.map_map]
  rfl

theorem isAggregate_eq : c.query.isAggregate = c.query.orderBy.any (·.expr.isAggregate) := by
  have hselect : c.query.select.any SelectItem.isAggregate = false := by
    simpa [List.any_eq_false] using h.plain
  rw [Query.isAggregate, h.groupBy, h.having, hselect]
  rfl

theorem isAggregate_bindColumns :
    (c.query.bindColumns steps n).isAggregate = c.query.isAggregate := by
  have hselect : (c.query.select.drop n).any SelectItem.isAggregate = false := by
    simpa [List.any_eq_false] using fun item hm => h.plain item (List.mem_of_mem_drop hm)
  have horder : (c.query.bindColumns steps n).isAggregate = (!c.query.groupBy.isEmpty ||
      !c.query.having.isEmpty || (c.query.select.drop n).any SelectItem.isAggregate ||
        c.query.orderBy.any (·.expr.isAggregate)) := rfl
  rw [horder, h.isAggregate_eq, h.groupBy, h.having, hselect]
  rfl

/-- The rows of the answer are the same. -/
theorem value_answer_bindColumns : (c.bindColumns steps n).answer.value?.map (·.rows) =
    (c.answer.value?.map (·.rows)).map
      (List.map (c.moved steps n)) := by
  have hsystem : ∀ item ∈ (c.bindColumns steps n).query.select, ∀ target,
      ¬ (c.bindColumns steps n).Reaches item.expr.requests (.snapshot target) :=
    fun item hm target hr => h.system item (List.mem_of_mem_drop hm) target (reaches_bindColumns hr)
  rw [value_answer (c := c.bindColumns steps n) rfl h.groupBy hsystem,
    value_answer h.uncapped h.groupBy h.system, h.selectedRows_bindColumns, Option.bind_map,
    Option.map_bind]
  refine Option.bind_congr fun rows hrows => ?_
  refine value_remainder_arranged h.rearranges h.carries_finishing none
    (fun k hk => finishing_orderBy hk)
    (fun e he => absurd he (h.groupBy ▸ List.not_mem_nil)) h.isAggregate_bindColumns
    (h.fits_of_selectedRows hrows) fun hagg keyed hkeyed => ?_
  rcases h.groups with hplain | hg
  · rw [h.isAggregate_eq, List.any_eq_true] at hagg
    obtain ⟨k, hk, hagg⟩ := hagg
    exact (Bool.false_ne_true ((hplain k hk).symm.trans hagg)).elim
  · exact h.value_groupRow_bindColumns hg hrows hkeyed

end BindsAlike

end Context

/-! ### Answers -/

namespace Context

variable {c : Context} {ans : Solutions}

/-- An answer is projected as the query says. -/
theorem projection_answer (h : c.answer.outcome = .ok ans) :
    ans.projection = c.query.projectedSlots := by
  rw [answer_eq_finish] at h
  obtain ⟨rows, hcompleted, rfl⟩ := Run.outcome_map_eq_ok h
  obtain ⟨raw, hraw, hcompleted⟩ := Run.outcome_bind_eq_ok hcompleted
  obtain ⟨done, hdone, hcompleted⟩ := Run.outcome_bind_eq_ok hcompleted
  obtain ⟨selected, hselected, hdone⟩ := Run.outcome_bind_eq_ok hdone
  obtain ⟨keyed, -, hdone⟩ := Run.outcome_bind_eq_ok hdone
  have hprojection : selected.projection = c.query.projectedSlots := by
    rw [selectRows_ofQuery (rawSolutions_ofQuery hraw) hselected]
    rfl
  have hdone : done.projection = c.query.projectedSlots := by
    rw [← Except.ok.inj hdone, ← hprojection]
    dsimp only
    split_ifs
    · exact selected.projection_resubmit
    · rfl
  have hrows : rows.projection = done.projection := by
    split_ifs at hcompleted
    · obtain ⟨kept, -, hgrouped⟩ := Run.outcome_bind_eq_ok hcompleted
      rw [← Except.ok.inj hgrouped]
      exact Solutions.projection_submitAll _ _
    · rw [← Except.ok.inj hcompleted]
  exact hrows.trans hdone

end Context

theorem Query.restrict_projectedSlots (q : Query) (s : Solution) :
    s.restrict q.projectedSlots = q.projection.map (q.read · s) := by
  have hslots := congrArg (List.map (Option.bind · s.get?)) q.closed.projected
  rw [List.map_map, List.map_map] at hslots
  exact hslots.symm

namespace Processor

/-- Binding the first columns of a query at the end of its body does not change its answer: the rows
bind the same in the same order, or there is no answer either way, and the same variables are
projected. This is what lowering comes to if columns of a layer are left in the body. -/
theorem evaluate_bindColumns (p : Processor) (q : Query) {steps : List Pattern} {n : Nat}
    (h : (p.context q).BindsAlike steps n) :
    let q' := q.bindColumns steps n
    (p.evaluate q').value?.map (fun ans => ans.rows.map fun s v => q'.read v s) =
        (p.evaluate q).value?.map (fun ans => ans.rows.map fun s v => q.read v s) ∧
      q'.projection.Perm q.projection ∧
      (q.project.isSome → q'.projection = q.projection) ∧
      (q'.projection = q.projection → (p.evaluate q').value?.map Solutions.projectedRows =
        (p.evaluate q).value?.map Solutions.projectedRows) ∧
      (∀ (l : Layers) (s s' : Lowering) (k : Nat), l.LowersTo s s' q → l.aggregates = [] →
        l.having = none → k < l.columns.length → steps = q.body.steps → n = l.columns.length - k →
          (l.leaving k).LowersTo s s' q') := by
  intro q'
  have hcontext : (p.context q).bindColumns steps n = p.context q' := by
    have huncapped : none = p.source.options.limit := h.uncapped.symm
    rw [Context.bindColumns, Context.withQuery, huncapped]
    rfl
  have hrows : (p.evaluate q').value?.map (·.rows) = ((p.evaluate q).value?.map (·.rows)).map
      (List.map ((p.context q).arranged q')) := by
    have hrows := h.value_answer_bindColumns
    rwa [hcontext] at hrows
  have hread : (p.evaluate q').value?.map (fun ans => ans.rows.map fun s v => q'.read v s) =
      (p.evaluate q).value?.map (fun ans => ans.rows.map fun s v => q.read v s) := by
    have hsame : ∀ v s, q'.read v ((p.context q).arranged q' s) = q.read v s :=
      Context.read_arranged h.rearranges
    have hmap := congrArg (Option.map (List.map fun s v => q'.read v s)) hrows
    simp only [Option.map_map, Function.comp_def, List.map_map, hsame] at hmap
    exact hmap
  have hprojected : ∀ q : Query, (p.evaluate q).value?.map Solutions.projectedRows =
      ((p.evaluate q).value?.map fun ans => ans.rows.map fun s v => q.read v s).map
        (List.map fun row => q.projection.map row) := fun q => by
    rw [Option.map_map]
    refine Option.map_congr fun ans hans => ?_
    have hans := Context.projection_answer (c := p.context q) (Run.value_eq_some.mp hans)
    rw [Solutions.projectedRows, hans, Function.comp_apply, List.map_map]
    exact List.map_congr_left fun s _ => q.restrict_projectedSlots s
  refine ⟨hread, ?_, fun hproject => ?_, fun hprojection => ?_, ?_⟩
  · have hproject : q'.project = q.project := rfl
    rw [Query.projection, Query.projection, hproject]
    cases q.project with
    | none => exact h.rearranges.vars
    | some vs => exact .refl vs
  · obtain ⟨vs, hvs⟩ := Option.isSome_iff_exists.mp hproject
    have hvs' : q'.project = some vs := hvs
    rw [Query.projection, Query.projection, hvs, hvs', Option.getD_some, Option.getD_some]
  · rw [hprojected, hprojected, hread, hprojection]
  · rintro l s s' k hl haggregates hhaving hk rfl rfl
    exact hl.leaving haggregates hhaving hk

/-- Two rows form one group because they are sorted by their number. The first of two columns, which
the second one reads, is bound in the body. -/
theorem evaluate_bindColumns_of_count :
    let term (name : String) : Term := .iri ⟨name⟩
    let x : Variable := ⟨"x"⟩
    let v : Variable := ⟨"v"⟩
    let q : Query := .ofParts
      { body := .values [x] [[some (term "b")], [some (term "a")]]
        select := [⟨v, .var x⟩, ⟨⟨"w"⟩, .coalesce [.var v, .const (term "c")]⟩]
        orderBy := [⟨.aggregate .count none false, false⟩] }
    let p : Processor := { source := { store := {} } }
    (p.context q).BindsAlike q.body.steps 1 ∧
      (p.evaluate (q.bindColumns q.body.steps 1)).value?.map Solutions.projectedRows =
        some [[some (term "b"), some (term "b"), some (term "b")]] := by
  intro term x v q p
  let c := p.context q
  have hplain : ∀ item ∈ q.select, item.isAggregate = false := by decide
  have hrequests : ∀ item ∈ q.select, item.expr.requests = [] := by decide
  have hnone : ∀ item ∈ q.select, ∀ r, ¬ c.Reaches item.expr.requests r := by
    intro item hm r ha
    induction ha with
    | start hr => cases hrequests item hm ▸ hr
    | existence _ _ _ ih | call _ _ _ ih => exact ih
  have hreads : ∀ item ∈ q.select, ∀ w, c.Reads item.expr w → w ∈ item.expr.vars := by
    intro item hm w hr
    cases hr with
    | mention hv => exact hv
    | pattern ha | body ha => exact (hnone item hm _ ha).elim
  have hlooks : c.LooksBack q.select {} := by
    refine ⟨fun later hm hr => ?_, fun later hm hr => ?_, trivial⟩
    · refine absurd (hreads _ List.mem_cons_self _ hr) ?_
      clear hr
      revert later
      decide
    · refine absurd (hreads _ (List.mem_cons_of_mem _ List.mem_cons_self) _ hr) ?_
      clear hr
      revert later
      decide
  have hsolved : ∀ raw, c.rawSolutions.outcome = .ok raw → raw.rows ≠ [] := by
    intro raw hraw hempty
    have hlength : c.rawSolutions.outcome.toOption.map (·.rows.length) = some 2 := by
      decide +kernel
    rw [hraw, Except.toOption, Option.map_some, hempty] at hlength
    cases hlength
  have h : c.BindsAlike q.body.steps 1 :=
    { stepwise := .inr rfl
      uncapped := rfl
      groupBy := rfl
      having := rfl
      body := rfl
      plain := hplain
      system := fun item hm target => hnone item hm _
      later := fun _ _ => by decide
      groups := .inr
        { nodup := by decide
          fresh := by decide
          reads := hlooks
          called := fun item hm => ⟨hplain item hm, fun ha => (hnone item hm _ ha).elim⟩
          solved := hsolved } }
  refine ⟨h, ?_⟩
  obtain ⟨-, -, -, hrows, -⟩ := p.evaluate_bindColumns q h
  rw [hrows (by decide)]
  decide +kernel

/-- In a group, columns are computed once more. So the row of a group without solutions has columns
that no solution is bound to, aggregates in functions that columns call range over the group, and
functions see the columns that were computed before. -/
theorem not_evaluate_bindColumns :
    let term (name : String) : Term := .iri ⟨name⟩
    let x : Variable := ⟨"x"⟩
    let v : Variable := ⟨"v"⟩
    let count : Expr := .aggregate .count none false
    let one : Term := .literal (.ofInt64 1)
    let p : Processor := { source := { store := {} } }
    let query (found : List (List (Option Term))) (value : Expr) (f : Expr) : Query := .ofParts
      { body := .values [x] found
        project := some [x, v]
        select := [⟨v, value⟩]
        orderBy := [⟨count, false⟩]
        functions := .ofList [⟨⟨"f"⟩, [], f⟩] }
    let rows (q : Query) := (p.evaluate q).value?.map Solutions.projectedRows
    let bound (q : Query) := rows (q.bindColumns [q.body] 1)
    let call : Expr := .extension 0 ⟨"f"⟩ []
    let empty := query [] (.const (term "a")) count
    let counting := query [[some (term "b")]] call count
    let looking := query [[some (term "b")]] call
      (.cond (.bound v) (.const (term "a")) (some (.const (term "b"))))
    (rows empty = some [[none, some (term "a")]] ∧ bound empty = some [[none, none]]) ∧
      (rows counting = some [[some (term "b"), some one]] ∧
        bound counting = some [[some (term "b"), none]]) ∧
      (rows looking = some [] ∧ bound looking = some [[some (term "b"), some (term "b")]]) := by
  decide +kernel

end Processor

end GraphQuery
