import GraphQuery.Proofs.Evaluate.Existence
import GraphQuery.Proofs.Evaluate.Failures
import GraphQuery.Proofs.Evaluate.Grouping
import GraphQuery.Proofs.Evaluate.Remembering
import GraphQuery.Proofs.Solution.Sorting
import GraphQuery.Proofs.Solution.Submission

/-! Queries declare all that their evaluation binds. Each declared variable owns a slot, the variables
that the body and the registered patterns may bind are declared, and so are computed columns and
projected variables. So no evaluation comes upon an undeclared variable, and all solutions have one
slot for each variable. -/

namespace GraphQuery

variable {E : QueryError → Prop} {A : Request → Prop} {c : Context} {h : Hooks} {env : Environment}

/-! ### Declarations -/

namespace Query

variable {q : Query} {v : Variable}

theorem mem_vars_of_body (hv : v ∈ q.body.vars) : v ∈ q.vars := by
  rw [q.vars_eq, QueryParts.declared, List.mem_eraseDups]
  simp [QueryParts.occurrences, hv]

theorem mem_vars_of_projection (hv : v ∈ q.projection) : v ∈ q.vars := by
  unfold projection at hv
  cases hp : q.project with
  | none => rwa [hp] at hv
  | some vs =>
    rw [hp, Option.getD_some] at hv
    rw [q.vars_eq, QueryParts.declared, List.mem_eraseDups]
    simp [QueryParts.occurrences, hp, hv]

/-- Whether all that an evaluation binds and all that is projected has a slot of its own. -/
structure Closed (q : Query) : Prop where
  slots : ∃ slot : {v // v ∈ q.vars} ≃ Fin q.vars.length,
    (∀ v : {v // v ∈ q.vars}, q.slot? v = some (slot v).val) ∧ ∀ v, v ∉ q.vars → q.slot? v = none
  bound : ∀ p ∈ q.body :: q.patterns, ∀ v ∈ p.mayBind, v ∈ q.vars
  computed : ∀ item ∈ q.select, item.target ∈ q.vars
  projected : q.projection.map q.slot? = q.projectedSlots.map some

theorem closed (q : Query) : q.Closed where
  slots := by
    refine ⟨(q.nodup_vars.getEquiv q.vars).symm, fun v => slot_eq_some.mpr ?_,
      fun v => slot_eq_none.mpr⟩
    have hget := congrArg Subtype.val ((q.nodup_vars.getEquiv q.vars).apply_symm_apply v)
    rw [List.getElem?_eq_getElem (Fin.isLt _)]
    exact congrArg some hget
  bound p hp v hv := by
    have hv := p.mayBind_subset_vars hv
    rcases List.mem_cons.mp hp with rfl | hp
    · exact mem_vars_of_body hv
    · obtain ⟨id, hid⟩ := List.getElem?_of_mem hp
      exact mem_vars_of_pattern hid hv
  computed _ hm := target_mem hm
  projected := by
    have hslots : ∀ vs : List Variable, (∀ v ∈ vs, v ∈ q.vars) →
        vs.map q.slot? = (vs.filterMap q.slot?).map some := by
      intro vs hvs
      induction vs with
      | nil => rfl
      | cons v vs ih =>
        obtain ⟨hv, hvs⟩ := List.forall_mem_cons.mp hvs
        obtain ⟨i, hi⟩ := exists_slot hv
        rw [List.map_cons, List.filterMap_cons_some hi, List.map_cons, ih hvs, hi]
    exact hslots _ fun v => mem_vars_of_projection

end Query

theorem Solutions.mem_of_mem_slice {s : Solutions} {offset : Nat} {limit : Option Nat}
    {row : Solution} (h : row ∈ (s.slice offset limit).rows) : row ∈ s.rows := by
  cases limit with
  | none => exact List.mem_of_mem_drop h
  | some n => exact List.mem_of_mem_drop (List.mem_of_mem_take h)

/-! ### References -/

theorem Scope.failsOnly_existence {id : Nat} (hE : ∀ e, (∀ v, e ≠ .unknownVariable v) → E e)
    (hh : ∀ p, c.query.pattern? id = some p → (h.hasSolution p (env.restored c.query)).FailsOnly E) :
    (c.exists? h id env).FailsOnly E := by
  unfold exists?
  cases hp : c.query.pattern? id with
  | none => exact hE _ fun v hv => by cases hv
  | some p =>
    dsimp only
    split_ifs
    · exact (hh p hp).bind fun _ _ => Run.Ends.bind (P := fun _ => True) trivial fun _ _ => trivial
    · exact hE _ fun v hv => by cases hv

namespace Context

theorem ends_collect (limit : Option Nat) {rows : List Solution} {I : Solution → Prop}
    (henv : I env.solution) (hrows : ∀ s ∈ rows, I s) :
    (collect limit env rows).Ends E fun step => ∀ s ∈ step.value, I s := by
  have hcons : ∀ s ∈ env.solution :: rows, I s := List.forall_mem_cons.mpr ⟨henv, hrows⟩
  unfold collect
  split_ifs
  · exact hrows
  · dsimp only
    split_ifs
    · exact hcons
    · exact hcons

/-- Whether a pattern has a solution is found out unless its search fails. -/
theorem failsOnly_hasSolution {n : Nat} {p : Pattern}
    (ht : (p.trace c (c.hooks n) env).FailsOnly E) :
    ((c.hooks (n + 1)).hasSolution p env).FailsOnly E := by
  rw [hasSolution_hooks, Pattern.solve_eq_run]
  exact (ht.run (I := fun rows => ∀ s ∈ rows, True) (fun e _ rows _ =>
    ends_collect _ trivial fun _ _ => trivial) fun _ _ => trivial).bind fun _ _ => trivial

/-- At no level is there another error on a variable than that a graph in force around has it. -/
theorem failOnly_hooks (hE : ∀ e, (∀ v, e ≠ .unknownVariable v) → E e) (n : Nat) :
    (c.hooks n).FailOnly c E fun _ => True := by
  induction n with
  | zero =>
    have hdeep : E .tooDeep := hE _ fun v hv => by cases hv
    exact ⟨fun _ env _ => Scope.failsOnly_existence hE fun _ _ => hdeep, fun _ _ env _ => hdeep⟩
  | succ n ih =>
    refine ⟨fun {id} _ env hg => Scope.failsOnly_existence hE fun p hp => ?_,
      fun _ _ env hg => Expr.failsOnly_eval ih (fun _ _ => trivial) hg⟩
    have hbound : ∀ v ∈ p.mayBind, c.query.Admits E v := fun v hv =>
      .inl (c.query.closed.bound p (List.mem_cons_of_mem _ (List.mem_of_getElem? hp)) v hv)
    exact failsOnly_hasSolution (Pattern.failsOnly_trace ih p (env.restored c.query)
      (fun _ _ => trivial) hbound fun n hn => hg n hn)

/-! ### Solutions of patterns -/

/-- What a pattern hands on has one slot for each variable. -/
theorem length_of_trace {p : Pattern} (hl : env.bindings.length = c.query.vars.length)
    {e : Environment} (he : e ∈ (p.trace c h env).items) :
    e.bindings.length = c.query.vars.length := by
  have hstable : Environment.Stable c.query (fun _ => True) (fun _ => True)
      fun e => e.bindings.length = c.query.vars.length :=
    ⟨fun _ _ h => h, fun e v t e' _ _ h hb => (Environment.length_of_bind hb).trans h,
      fun _ _ _ _ _ _ => trivial⟩
  exact Pattern.kept_of_names hstable c.supplies_any p env (fun _ _ => trivial) (fun _ _ _ h => h) hl
    e he

section Solutions

variable (hh : (c.hooks c.depth).FailOnly c E A)

include hh

theorem ends_solutions {p : Pattern} (hr : ∀ r ∈ p.requests, A r)
    (hv : ∀ v ∈ p.mayBind, c.query.Admits E v) (hg : c.AdmitsGraph E env) (limit : Option Nat) :
    (c.solutions p env limit).Ends E fun rows =>
      env.bindings.length = c.query.vars.length → ∀ s ∈ rows, s.Fits c.query := by
  have hfits : ∀ e ∈ (p.trace c (c.hooks c.depth) env).items,
      env.bindings.length = c.query.vars.length → e.solution.Fits c.query := fun e he hl =>
    length_of_trace hl he
  rw [solutions_eq, Pattern.solve_eq_run]
  refine ((Pattern.failsOnly_trace hh p env hr hv hg).run (I := fun rows => ∀ s ∈ rows,
    env.bindings.length = c.query.vars.length → s.Fits c.query) (fun e he rows hrows =>
      ends_collect limit (hfits e he) hrows) (List.forall_mem_nil _)).bind fun found hfound => ?_
  exact fun hl s hs => hfound s (List.mem_reverse.mp hs) hl

/-! ### Answers -/

theorem ends_rawSolutions (hA : ∀ r ∈ c.query.requests, A r) :
    c.rawSolutions.Ends E fun raw => ∀ s ∈ raw.rows, s.Fits c.query := by
  have hbound : ∀ v ∈ c.query.body.mayBind, c.query.Admits E v := fun v hv =>
    .inl (c.query.closed.bound _ List.mem_cons_self v hv)
  refine (ends_solutions hh (fun r hr => hA r (Query.mem_requests_of_body hr)) hbound
    (fun n hn => by cases hn) _).bind fun rows hrows => ?_
  exact hrows List.length_replicate

theorem failsOnly_evaluate {e : Expr} (he : ∀ r ∈ e.requests, A r) (stage : Stage) (row i : Nat)
    (s : Solution) (group : Option (List Solution)) :
    (c.evaluate e (rowEnvironment stage row i s group)).FailsOnly E :=
  e.failsOnly_eval hh he fun n hn => by cases hn

theorem ends_selectFrom (group : Option (List Solution)) (row i : Nat) {items : List SelectItem}
    (ht : ∀ item ∈ items, item.target ∈ c.query.vars)
    (hA : ∀ item ∈ items, ∀ r ∈ item.expr.requests, A r) {s : Solution} (hs : s.Fits c.query) :
    (c.selectFrom group row i items s).Ends E fun kept => ∀ s ∈ kept, s.Fits c.query := by
  induction items generalizing i s with
  | nil => exact fun _ h => Option.some.inj h ▸ hs
  | cons item items ih =>
    obtain ⟨hitem, hitems⟩ := List.forall_mem_cons.mp hA
    obtain ⟨htarget, htargets⟩ := List.forall_mem_cons.mp ht
    have ih {s : Solution} (hs : s.Fits c.query) := ih (i + 1) htargets hitems hs
    rw [selectFrom]
    by_cases hskip : (group.isNone && item.isAggregate) = true
    · rw [if_pos hskip]
      exact ih hs
    · obtain ⟨slot, hslot⟩ := Query.exists_slot htarget
      rw [if_neg hskip, hslot]
      refine (failsOnly_evaluate hh hitem _ row i s group).bind fun t _ => ?_
      cases t.map Term.canonical with
      | none => exact ih hs
      | some t =>
        dsimp only
        cases s.get? slot with
        | none =>
          have hset := Query.fits_put (v := item.target) (t := some t) hs
          rw [Query.put, hslot] at hset
          exact ih hset
        | some current =>
          dsimp only
          split_ifs
          · exact ih hs
          · exact fun _ h => by cases h

variable (hA : ∀ r ∈ c.query.requests, A r)

include hA

theorem ends_select {s : Solution} (hs : s.Fits c.query) (group : Option (List Solution))
    (row : Nat) : (c.select s group row).Ends E fun kept => ∀ s ∈ kept, s.Fits c.query := by
  exact ends_selectFrom hh group row 0 (fun item hm => Query.target_mem hm)
    (fun item hm r hr => hA r (Query.mem_requests_of_select hm hr)) hs

omit hA in
theorem failsOnly_key (stage : Stage) (s : Solution) (group : Option (List Solution)) (row i : Nat)
    {e : Expr} (he : ∀ r ∈ e.requests, A r) : (c.key stage s group row i e).FailsOnly E := by
  unfold key
  split
  · trivial
  · split_ifs
    · trivial
    · exact (failsOnly_evaluate hh he _ row i s group).bind fun _ _ => trivial

theorem ends_keys {s : Solution} (hs : s.Fits c.query) (group : Option (List Solution))
    (row : Nat) : (c.keys s group row).Ends E (·.Fits c.query) := by
  exact Run.Ends.bind (.mapIdx (fun i k hm => failsOnly_key hh _ s group row i
    fun r hr => hA r (Query.mem_requests_of_orderBy hm hr)) 0) fun _ _ =>
      Run.Ends.bind (.mapIdx (fun i e hm => failsOnly_key hh _ s group row i
        fun r hr => hA r (Query.mem_requests_of_groupBy hm hr)) 0) fun _ _ => hs

theorem ends_selectRows {rows : Solutions} (hrows : ∀ s ∈ rows.rows, s.Fits c.query) :
    (c.selectRows rows).Ends E fun selected => ∀ s ∈ selected.rows, s.Fits c.query := by
  unfold selectRows
  split_ifs
  · exact hrows
  · refine Run.Ends.bind (.mapIdx (fun i s hm => ends_select hh hA (hrows s hm) none i) 0)
      fun kept hkept s hs => ?_
    obtain ⟨o, ho, hs⟩ := List.mem_filterMap.mp hs
    exact hkept o ho s hs

theorem ends_complete {rows : Solutions} (hrows : ∀ s ∈ rows.rows, s.Fits c.query) :
    (c.complete rows).Ends E fun done => ∀ s ∈ done.rows, s.Fits c.query := by
  refine (ends_selectRows hh hA hrows).bind fun selected hselected => ?_
  refine Run.Ends.bind (.mapIdx (fun i s hm => ends_keys hh hA ?_ none i) 0) fun _ h => h
  split_ifs at hm
  · exact hselected s ((Solutions.mem_of_mem_submitAll hm).resolve_left List.not_mem_nil)
  · exact hselected s hm

omit hA in
theorem failsOnly_admits (s : Solution) (group : List Solution) (row i : Nat) {es : List Expr}
    (he : ∀ e ∈ es, ∀ r ∈ e.requests, A r) : (c.admits s group row i es).FailsOnly E := by
  induction es generalizing i with
  | nil => trivial
  | cons e es ih =>
    obtain ⟨he, hes⟩ := List.forall_mem_cons.mp he
    have htest : (c.test e (rowEnvironment .groupCondition row i s (some group))).FailsOnly E :=
      (failsOnly_evaluate hh he _ row i s (some group)).bind fun _ _ => trivial
    refine htest.bind fun holds _ => ?_
    split_ifs
    · exact ih (i + 1) hes
    · trivial

theorem ends_groupRow (row : Nat) {group : List Solution} (hgroup : ∀ s ∈ group, s.Fits c.query) :
    (c.groupRow row group).Ends E fun kept => ∀ s ∈ kept, s.Fits c.query := by
  refine (ends_select hh hA (fits_first hgroup) (some group) row).bind fun s hs => ?_
  cases s with
  | none => exact fun _ h => by cases h
  | some s =>
    refine (failsOnly_admits hh s group row 0 fun e hm r hr =>
      hA r (Query.mem_requests_of_having hm hr)).bind fun holds _ => ?_
    split_ifs
    · exact (ends_keys hh hA (hs s rfl) (some group) row).bind fun s hs _ h =>
        Option.some.inj h ▸ hs
    · exact fun _ h => by cases h

theorem ends_grouped {rows : Solutions} (hrows : ∀ s ∈ rows.rows, s.Fits c.query) :
    (c.grouped rows).Ends E fun done => ∀ s ∈ done.rows, s.Fits c.query := by
  unfold grouped
  rw [groups_eq]
  refine Run.Ends.bind (.mapIdx (fun i group hm => ends_groupRow hh hA i fun s hs =>
    hrows s (mem_of_mem_groups hm hs)) 0) fun kept hkept s hs => ?_
  have hs := (Solutions.mem_of_mem_submitAll hs).resolve_left List.not_mem_nil
  obtain ⟨o, ho, hs⟩ := List.mem_filterMap.mp hs
  exact hkept o ho s hs

/-- An answer fails as what its expressions ask for, and its rows have one slot for each variable. -/
theorem ends_answer : c.answer.Ends E fun ans => ∀ s ∈ ans.rows, s.Fits c.query := by
  have hsorted : ∀ {rows : Solutions}, (∀ s ∈ rows.rows, s.Fits c.query) →
      ∀ s ∈ (Solutions.slice (if c.query.orderBy.isEmpty then rows
        else rows.sortBy (compareRows c.query.orderBy)) c.query.offset c.query.limit).rows,
          s.Fits c.query := by
    intro rows hrows s hs
    have hs := Solutions.mem_of_mem_slice hs
    split_ifs at hs
    · exact hrows s hs
    · exact hrows s ((stableSort_perm _ rows.rows).mem_iff.mp hs)
  refine (ends_rawSolutions hh hA).bind fun raw hraw =>
    (ends_complete hh hA hraw).bind fun rows hrows => ?_
  by_cases hagg : c.query.isAggregate = true
  · rw [if_pos hagg]
    exact (ends_grouped hh hA hrows).bind fun _ hrows => hsorted hrows
  · rw [if_neg hagg]
    exact hsorted hrows

end Solutions

/-! ### Undeclared variables -/

/-- Whether an error names no variable, or an undeclared one with a property. -/
def Lacks (c : Context) (V : Variable → Prop) (e : QueryError) : Prop :=
  ∀ v, e = .unknownVariable v → v ∉ c.query.vars ∧ V v

theorem failOnly_lacks (V : Variable → Prop) :
    (c.hooks c.depth).FailOnly c (c.Lacks V) fun _ => True :=
  failOnly_hooks (fun _ he v hv => (he v hv).elim) _

theorem admits_lacks {V : Variable → Prop} {v : Variable} (hv : V v) :
    c.query.Admits (c.Lacks V) v := by
  by_cases hm : v ∈ c.query.vars
  · exact .inl hm
  · exact .inr fun w hw => QueryError.unknownVariable.inj hw ▸ ⟨hm, hv⟩

theorem admitsGraph_lacks {V : Variable → Prop} (hg : ∀ v, env.graph = some (.var v) → V v) :
    c.AdmitsGraph (c.Lacks V) env := by
  intro n hn v hv
  obtain rfl := NodePattern.eq_var_of_mem hv
  exact admits_lacks (hg v hn)

/-- Whatever a query is built from, its variables own the slots, and all that is bound or projected
is declared. Binding fails on undeclared variables only. The search for the solutions of any pattern
may come upon such a variable only where the pattern binds it or in a graph in force around it, and
the value of an expression only in such a graph. So neither the solutions of the body or of a
registered pattern nor an answer are missed because of an undeclared variable, and each solution has
one slot for each variable. -/
theorem answer_closed (c : Context) : c.query.Closed ∧
    (∀ (env : Environment) v t, (v ∈ c.query.vars → ∃ b, env.bind c.query v t = .ok b) ∧
      (v ∉ c.query.vars → env.bind c.query v t = .error (.unknownVariable v))) ∧
    (∀ p env limit, (c.solutions p env limit).Ends
      (c.Lacks fun v => v ∈ p.mayBind ∨ env.graph = some (.var v))
      fun rows => env.bindings.length = c.query.vars.length → ∀ s ∈ rows, s.Fits c.query) ∧
    (∀ e env, (c.evaluate e env).FailsOnly (c.Lacks fun v => env.graph = some (.var v))) ∧
    (∀ p ∈ c.query.body :: c.query.patterns, ∀ env limit,
      (∀ v, env.graph = some (.var v) → v ∈ c.query.vars) →
        ∀ v, (c.solutions p env limit).outcome ≠ .error (.unknownVariable v)) ∧
    (∀ v, c.answer.outcome ≠ .error (.unknownVariable v)) ∧
    ∀ ans, c.answer.outcome = .ok ans → ∀ s ∈ ans.rows, s.Fits c.query := by
  have hsolutions : ∀ p env limit, (c.solutions p env limit).Ends
      (c.Lacks fun v => v ∈ p.mayBind ∨ env.graph = some (.var v))
      fun rows => env.bindings.length = c.query.vars.length → ∀ s ∈ rows, s.Fits c.query := by
    intro p env limit
    exact ends_solutions (failOnly_lacks _) (fun _ _ => trivial)
      (fun v hv => admits_lacks (.inl hv)) (admitsGraph_lacks fun v hv => .inr hv) limit
  have hanswer : c.answer.Ends (c.Lacks fun _ => False) fun ans => ∀ s ∈ ans.rows, s.Fits c.query :=
    ends_answer (failOnly_lacks _) fun _ _ => trivial
  refine ⟨c.query.closed, fun env v t => ⟨fun hv => ?_, fun hv => ?_⟩, hsolutions, fun e env => ?_,
    ?_, ?_, ?_⟩
  · obtain ⟨b, hb, -⟩ := (Environment.ends_bind (E := fun _ => False) (.inl hv) env t).exists_ok
    exact ⟨b, hb⟩
  · simp [Environment.bind, Query.slot_eq_none.mpr hv]
  · exact e.failsOnly_eval (failOnly_lacks _) (fun _ _ => trivial) (admitsGraph_lacks fun _ hv => hv)
  · intro p hp env limit hg v hv
    have hlacks := hsolutions p env limit
    unfold Run.Ends at hlacks
    rw [hv] at hlacks
    obtain ⟨hm, hbind | hgraph⟩ := hlacks v rfl
    · exact hm (c.query.closed.bound p hp v hbind)
    · exact hm (hg v hgraph)
  · intro v hv
    unfold Run.Ends at hanswer
    rw [hv] at hanswer
    exact (hanswer v rfl).2
  · intro ans hans
    unfold Run.Ends at hanswer
    rwa [hans] at hanswer

/-- A pattern that is not part of the query comes upon the variable that it binds. -/
example : (Context.solutions { query := .ofParts {}, source := { store := {} } }
    (.bind ⟨"x"⟩ (.const (.iri ⟨"a"⟩))) (.initial (.ofParts {})) none).outcome =
      .error (.unknownVariable ⟨"x"⟩) := rfl

end Context

end GraphQuery
