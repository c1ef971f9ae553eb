import GraphQuery.Proofs.Evaluate.Reordering

/-! Plain queries, which have a body and a dataset clause and nothing else: without references there
is always an answer, and its rows are the results of the body. -/

namespace GraphQuery

namespace Query

/-- A query for all variables of a body, in some graphs. -/
def plain (body : Pattern) (fromDefault fromNamed : List Term) : Query :=
  .ofParts { body, fromDefault, fromNamed }

theorem requests_plain (body : Pattern) (d n : List Term) :
    (plain body d n).requests = body.requests := by
  simp [requests, plain, ofParts]

theorem mem_vars_plain {body : Pattern} {d n : List Term} {v : Variable} :
    v ∈ (plain body d n).vars ↔ v ∈ body.vars := by
  simp [plain, ofParts, QueryParts.declared, QueryParts.occurrences]

end Query

/-- A solution, projected to all variables of a query. -/
theorem Environment.restrict_solution {q : Query} (hproject : q.project = none) (m : Environment) :
    m.solution.restrict q.projectedSlots = q.vars.map (m.binding? q) := by
  have hslots : ∀ v ∈ q.vars,
      (q.slot? v).map m.solution.get? = some (m.binding? q v) := fun v hv => by
    obtain ⟨i, hi⟩ := Query.exists_slot hv
    rw [hi, binding?, hi]
    rfl
  rw [Query.projectedSlots, Query.projection, hproject, Option.getD_none, Solution.restrict,
    List.map_filterMap, List.filterMap_congr hslots]
  exact congrFun List.filterMap_eq_map _

namespace Context

variable {c : Context} {body : Pattern} {d n : List Term} {ans : Solutions}

/-- A plain query is answered if its body refers to nothing. -/
theorem succeeds_plain (hq : c.query = .plain body d n) (hr : body.requests = [])
    (hs : c.canSolve = true) : c.answer.Succeeds := by
  refine succeeds_answer (A := fun _ => False) ⟨hs, fun h => h.elim, fun h => h.elim⟩ fun r h => ?_
  rw [hq, Query.requests_plain, hr] at h
  cases h

/-- The rows of the answer to a plain query are the results of its body. -/
theorem rows_perm_of_plain (hq : c.query = .plain body d n) (hcap : c.source.options.limit = none)
    (h : c.answer.outcome = .ok ans) :
    (ans.rows.map (·.restrict ans.projection)).Perm
      ((body.results c (c.hooks c.depth) { Environment.initial c.query with trail := [0] }).map
        fun m => c.query.vars.map (m.binding? c.query)) := by
  have hbody : c.query.body = body := by rw [hq]; rfl
  have hselect : c.query.select = [] := by rw [hq]; rfl
  have hproject : c.query.project = none := by rw [hq]; rfl
  have hdistinct : c.query.distinct = false := by rw [hq]; rfl
  obtain ⟨raw, selected, keyed, hans⟩ := exists_completes (by rw [hq]; rfl) h
  obtain ⟨hends, hrows⟩ := rows_rawSolutions hcap hans.body
  obtain ⟨u, hdrain⟩ := Trace.succeeds_drain_iff.mpr hends
  have hselected : selected = raw := by
    have hs := hans.select
    rw [selectRows, hselect] at hs
    exact (Except.ok.inj hs).symm
  have hresults := (Pattern.covers_results (h := c.hooks c.depth) c.query.body
    { Environment.initial c.query with trail := [0] }).items_eq hdrain
  refine (hans.projected_perm (by rw [hq]; rfl) (by rw [hq]; rfl)).trans (.of_eq ?_)
  rw [hdistinct, hselected, hrows, bodyTrace, hresults, hbody, List.map_map]
  exact List.map_congr_left fun m _ => m.restrict_solution hproject

end Context

end GraphQuery
