import GraphQuery.Evaluate.Answer
import GraphQuery.Proofs.Evaluate.Columns
import GraphQuery.Proofs.Evaluate.PatternTrace
import GraphQuery.Proofs.Evaluate.Search
import GraphQuery.Proofs.Store.Contents
import Mathlib.Data.List.ReduceOption

/-! Rows of groups. The solutions of the body are completed, and those with the same keys form a
group. Each group comes to a row, unless a condition does not hold or a column that was computed
for its first solution comes out different for the group. -/

namespace GraphQuery

/-! ### Groups -/

theorem addToGroup_map (s : Solution) (keys : List (List (Option Term))) (hk : keys.Nodup)
    (f : List (Option Term) → List Solution) (hf : s.groupKeys ∉ keys → f s.groupKeys = []) :
    addToGroup s (keys.map fun k => (k, f k)) =
      (if s.groupKeys ∈ keys then keys else keys ++ [s.groupKeys]).map fun k =>
        (k, if s.groupKeys = k then f k ++ [s] else f k) := by
  induction keys with
  | nil => simp [addToGroup, hf]
  | cons k keys ih =>
    obtain ⟨hkn, hks⟩ := List.nodup_cons.mp hk
    rw [List.map_cons, addToGroup]
    by_cases h : k = s.groupKeys
    · have hrest : ∀ k' ∈ keys, (k', f k') = (k', if s.groupKeys = k' then f k' ++ [s] else f k') :=
        fun k' hm => by
          have hne : s.groupKeys ≠ k' := fun he => hkn (h ▸ he ▸ hm)
          rw [if_neg hne]
      rw [if_pos h, if_pos (by simp [h]), List.map_congr_left hrest, List.map_cons, if_pos h.symm]
    · rw [if_neg h, ih hks fun hn => hf fun hm => (List.mem_cons.mp hm).elim (h ·.symm) hn]
      by_cases hm : s.groupKeys ∈ keys
      · rw [if_pos hm, if_pos (List.mem_cons_of_mem _ hm), List.map_cons, if_neg (Ne.symm h)]
      · rw [if_neg hm, if_neg (by simp [hm, Ne.symm h]), List.cons_append, List.map_cons,
          if_neg (Ne.symm h)]

/-- Groups are formed by the distinct keys, in the order in which these are first seen. -/
theorem groupsOf_eq (rows : List Solution) :
    groupsOf rows =
      (rows.map (·.groupKeys)).eraseDups.map fun k => rows.filter (·.groupKeys = k) := by
  have hfold : rows.foldl (fun groups s => addToGroup s groups) [] =
      (rows.map (·.groupKeys)).eraseDups.map fun k => (k, rows.filter (·.groupKeys = k)) := by
    induction rows using List.reverseRecOn with
    | nil => rfl
    | append_singleton rows s ih =>
      have hkeys : (rows.map (·.groupKeys) ++ [s.groupKeys]).eraseDups =
          if s.groupKeys ∈ (rows.map (·.groupKeys)).eraseDups then (rows.map (·.groupKeys)).eraseDups
          else (rows.map (·.groupKeys)).eraseDups ++ [s.groupKeys] := by
        rw [List.eraseDups_append]
        by_cases h : s.groupKeys ∈ rows.map (·.groupKeys) <;>
          simp [List.removeAll, List.eraseDups_cons, -List.mem_map, h]
      have hnew : s.groupKeys ∉ (rows.map (·.groupKeys)).eraseDups →
          rows.filter (·.groupKeys = s.groupKeys) = [] := fun hn =>
        List.filter_eq_nil_iff.mpr fun r hr he => hn (List.mem_eraseDups.mpr
          (List.mem_map.mpr ⟨r, hr, of_decide_eq_true he⟩))
      rw [List.foldl_append, ih, List.foldl_cons, List.foldl_nil, addToGroup_map s _
        (nodup_eraseDups _) (fun k => rows.filter (·.groupKeys = k)) hnew, List.map_append,
        List.map_singleton, hkeys]
      refine List.map_congr_left fun k _ => ?_
      by_cases hk : s.groupKeys = k <;> simp [hk]
  rw [groupsOf, hfold, List.map_map]
  rfl

/-! ### Solutions of the body -/

theorem Query.target_mem {q : Query} {item : SelectItem} (h : item ∈ q.select) :
    item.target ∈ q.vars := by
  rw [q.vars_eq, QueryParts.declared, List.mem_eraseDups]
  simp only [QueryParts.occurrences, List.mem_append, List.mem_flatMap]
  exact .inl (.inl (.inl (.inl (.inr ⟨item, h, .inr List.mem_cons_self⟩))))

namespace Context

/-- A grouped query whose columns occur nowhere else, evaluated to its end and in its order. -/
structure GroupsFreshly (c : Context) : Prop where
  isAggregate : c.query.isAggregate = true
  nodup : (c.query.select.map (·.target)).Nodup
  body : ∀ item ∈ c.query.select, item.target ∉ c.query.body.vars
  patterns : ∀ item ∈ c.query.select, ∀ p ∈ c.query.patterns, item.target ∉ p.vars
  groupBy : ∀ item ∈ c.query.select, ∀ e ∈ c.query.groupBy, item.target ∉ e.vars
  distinct : c.query.distinct = false
  orderBy : c.query.orderBy = []
  offset : c.query.offset = 0
  limit : c.query.limit = none
  uncapped : c.source.options.limit = none

variable {c : Context} {raw done ans : Solutions} {s s' r : Solution}

theorem GroupsFreshly.columns (hc : c.GroupsFreshly) : Columns c.query c.query.select :=
  ⟨hc.nodup, fun _ hm => Query.target_mem hm⟩

/-- Whether an environment, in a graph that the body speaks of, leaves all other variables free. -/
structure KeepsToBody (c : Context) (env : Environment) : Prop where
  length : env.bindings.length = c.query.vars.length
  free : ∀ v, v ∉ c.query.body.vars → env.binding? c.query v = none
  graph : ∀ n, env.graph = some n → ∀ v ∈ n.vars, v ∈ c.query.body.vars

theorem keepsToBody_stable (c : Context) :
    Environment.Stable c.query (· ∈ c.query.body.vars) (fun _ => True) c.KeepsToBody where
  choose _ _ h := ⟨h.length, h.free, h.graph⟩
  graph _ n h hn := h.graph n hn
  bind env v t env' hv _ h hb := by
    obtain ⟨hd, rfl | rfl⟩ := Environment.eq_assign_of_bind hb
    · exact h
    · refine ⟨Environment.length_assign.trans h.length, fun w hw => ?_, ?_⟩
      · have hne : w ≠ v := fun he => hw (he ▸ hv)
        rw [Environment.binding_assign h.length hd, if_neg hne, h.free w hw]
      · rw [Environment.graph_assign]
        exact h.graph

/-- What the body hands on binds variables of the body only. -/
theorem keepsToBody_of_trace {env : Environment} (h : env ∈ (c.query.body.trace c (c.hooks c.depth)
    { Environment.initial c.query with trail := [0] }).items) : c.KeepsToBody env := by
  have hstart : c.KeepsToBody { Environment.initial c.query with trail := [0] } :=
    { length := List.length_replicate
      free := fun v _ => Environment.binding_initial c.query v
      graph := fun n hn => by cases hn }
  exact Pattern.kept c.keepsToBody_stable c.supplies_any c.query.body _ (fun _ hv => hv)
    (.inr fun e n hn he => ⟨he.length, he.free, fun m hm => Option.some.inj hm ▸ hn⟩) hstart env h

/-- The solutions of the body leave the columns free. -/
theorem rawSolutions_free (hc : c.GroupsFreshly) (h : c.rawSolutions.outcome = .ok raw) :
    raw.distinct = false ∧ ∀ r ∈ raw.rows, r.Fits c.query ∧
      ∀ item ∈ c.query.select, c.query.read item.target r = none := by
  obtain ⟨rows, hrows, h⟩ := Run.outcome_bind_eq_ok h
  obtain rfl := Except.ok.inj h
  refine ⟨hc.distinct, fun r hr => ?_⟩
  rw [solutions_eq] at hrows
  obtain ⟨found, hfound, h⟩ := Run.outcome_bind_eq_ok hrows
  obtain rfl := Except.ok.inj h
  have hcollect : collect none = fun env rows => pure (.yield (env.solution :: rows)) := rfl
  rw [hc.uncapped, Pattern.solve_eq_run, hcollect, Trace.run_collect] at hfound
  obtain ⟨_, -, h⟩ := Run.outcome_bind_eq_ok hfound
  obtain rfl := Except.ok.inj h
  simp only [ForInStep.value, List.append_nil, List.reverse_reverse] at hr
  obtain ⟨env, hm, rfl⟩ := List.mem_map.mp hr
  have hkept := keepsToBody_of_trace hm
  exact ⟨hkept.length, fun item hi => hkept.free item.target (hc.body item hi)⟩

/-! ### Completed solutions -/

theorem slots_of_keys {group : Option (List Solution)} {row : Nat}
    (h : (c.keys s group row).outcome = .ok s') : s'.slots = s.slots := by
  obtain ⟨orderKeys, -, h⟩ := Run.outcome_bind_eq_ok h
  obtain ⟨groupKeys, -, h⟩ := Run.outcome_bind_eq_ok h
  rw [← Except.ok.inj h]

/-- Completing a solution: its columns are computed without a group, then its keys. -/
def CompletesTo (c : Context) (i : Nat) (r d : Solution) : Prop :=
  ∃ s, (c.selectFrom none i 0 c.query.select r).outcome = .ok (some s) ∧
    (c.keys s none i).outcome = .ok d

theorem exists_map_some {α : Type} {l : List (Option α)} (h : ∀ o ∈ l, o.isSome) :
    ∃ as : List α, l = as.map some := by
  induction l with
  | nil => exact ⟨[], rfl⟩
  | cons o l ih =>
    obtain ⟨ho, hl⟩ := List.forall_mem_cons.mp h
    obtain ⟨a, rfl⟩ := Option.isSome_iff_exists.mp ho
    obtain ⟨as, rfl⟩ := ih hl
    exact ⟨a :: as, rfl⟩

theorem selectRows_of_free (hc : c.GroupsFreshly)
    (hfree : ∀ r ∈ raw.rows, r.Fits c.query ∧
      ∀ item ∈ c.query.select, c.query.read item.target r = none)
    (h : (c.selectRows raw).outcome = .ok done) :
    done.distinct = raw.distinct ∧ done.rows.length = raw.rows.length ∧
      ∀ i r, raw.rows[i]? = some r → ∃ s, done.rows[i]? = some s ∧
        (c.selectFrom none i 0 c.query.select r).outcome = .ok (some s) := by
  unfold selectRows at h
  split_ifs at h with hempty
  · obtain rfl := Except.ok.inj h
    rw [List.isEmpty_iff.mp hempty]
    exact ⟨rfl, rfl, fun i r hr => ⟨r, hr, rfl⟩⟩
  · obtain ⟨kept, hkept, h⟩ := Run.outcome_bind_eq_ok h
    obtain rfl := Except.ok.inj h
    obtain ⟨hlen, hget⟩ := Run.outcome_mapIdx hkept
    have hsome : ∀ o ∈ kept, o.isSome := fun o ho => by
      obtain ⟨i, hi⟩ := List.mem_iff_getElem?.mp ho
      obtain ⟨hilt, -⟩ := List.getElem?_eq_some_iff.mp hi
      have hr : raw.rows[i]? = some _ := List.getElem?_eq_getElem (hlen ▸ hilt)
      obtain ⟨o', ho', hselect⟩ := hget i _ hr
      obtain ⟨hfits, hfr⟩ := hfree _ (List.mem_of_getElem? hr)
      obtain rfl := Option.some.inj (hi.symm.trans ho')
      exact selectFrom_of_free hfits hc.columns hfr hselect
    obtain ⟨kept, rfl⟩ := exists_map_some hsome
    simp only [List.filterMap_map, Function.comp_def, id, List.filterMap_some]
    refine ⟨rfl, by simpa using hlen, fun i r hr => ?_⟩
    obtain ⟨o, ho, hselect⟩ := hget i r hr
    rw [List.getElem?_map] at ho
    obtain ⟨s, hs, rfl⟩ := Option.map_eq_some_iff.mp ho
    rw [Nat.zero_add] at hselect
    exact ⟨s, hs, hselect⟩

theorem complete_of_free (hc : c.GroupsFreshly)
    (hfree : ∀ r ∈ raw.rows, r.Fits c.query ∧
      ∀ item ∈ c.query.select, c.query.read item.target r = none)
    (h : (c.complete raw).outcome = .ok done) :
    done.distinct = raw.distinct ∧ done.rows.length = raw.rows.length ∧
      ∀ i r, raw.rows[i]? = some r → ∃ d, done.rows[i]? = some d ∧ c.CompletesTo i r d := by
  obtain ⟨selected, hsel, h⟩ := Run.outcome_bind_eq_ok h
  obtain ⟨keyed, hkeyed, h⟩ := Run.outcome_bind_eq_ok h
  obtain rfl := Except.ok.inj h
  rw [hc.distinct] at hkeyed ⊢
  obtain ⟨hklen, hkget⟩ := Run.outcome_mapIdx hkeyed
  obtain ⟨hd, hlen, hget⟩ := selectRows_of_free hc hfree hsel
  refine ⟨hd, hklen.trans hlen, fun i r hr => ?_⟩
  obtain ⟨s, hs, hselect⟩ := hget i r hr
  obtain ⟨d, hd, hkeys⟩ := hkget i s hs
  rw [Nat.zero_add] at hkeys
  exact ⟨d, hd, s, hselect, hkeys⟩

/-- A solution without its columns. -/
def bare (c : Context) (s : Solution) : Solution :=
  c.query.select.foldl (fun s item => c.query.put item.target none s) s

theorem read_bareFrom {items : List SelectItem} (hs : s.Fits c.query)
    (hv : ∀ item ∈ items, item.target ∈ c.query.vars) :
    let b := items.foldl (fun s item => c.query.put item.target none s) s
    b.Fits c.query ∧ ∀ v, c.query.read v b =
      if v ∈ items.map (·.target) then none else c.query.read v s := by
  induction items generalizing s with
  | nil => exact ⟨hs, fun v => by simp⟩
  | cons item rest ih =>
    obtain ⟨hi, hv⟩ := List.forall_mem_cons.mp hv
    obtain ⟨hf, hr⟩ := ih (Query.fits_put hs) hv
    refine ⟨hf, fun v => (hr v).trans ?_⟩
    rw [Query.read_put hi]
    by_cases hvi : v = item.target <;> simp [hvi]

theorem GroupsFreshly.fits_bare (hc : c.GroupsFreshly) (hs : s.Fits c.query) :
    (c.bare s).Fits c.query :=
  (read_bareFrom hs hc.columns.2).1

theorem GroupsFreshly.read_bare (hc : c.GroupsFreshly) (hs : s.Fits c.query) (v : Variable) :
    c.query.read v (c.bare s) =
      if v ∈ c.query.select.map (·.target) then none else c.query.read v s :=
  (read_bareFrom hs hc.columns.2).2 v

theorem GroupsFreshly.bare_of_completesTo (hc : c.GroupsFreshly) {i : Nat} {d : Solution}
    (hr : r.Fits c.query) (hfree : ∀ item ∈ c.query.select, c.query.read item.target r = none)
    (h : c.CompletesTo i r d) : d.Fits c.query ∧ (c.bare d).slots = r.slots := by
  obtain ⟨s, hselect, hkeys⟩ := h
  obtain ⟨hs, hread⟩ := selectFrom_frame hr hc.columns hselect
  have hslots := slots_of_keys hkeys
  have hd : d.Fits c.query := (congrArg List.length hslots).trans hs
  refine ⟨hd, Query.slots_eq_of_read (hc.fits_bare hd) hr fun v => ?_⟩
  rw [hc.read_bare hd]
  split_ifs with hv
  · obtain ⟨item, hm, rfl⟩ := List.mem_map.mp hv
    exact (hfree item hm).symm
  · rw [Query.read_congr hslots]
    exact hread v fun item hm he => hv (List.mem_map.mpr ⟨item, hm, he.symm⟩)

/-! ### Keys -/

theorem key_congr {stage : Stage} {row item : Nat} {e : Expr} (hp : e.isPure = true)
    (hv : ∀ v ∈ e.vars, c.query.read v s = c.query.read v s') :
    c.key stage s none row item e = c.key stage s' none row item e := by
  have hvar : ((e.asVariable).bind c.query.slot?).bind s.get? =
      ((e.asVariable).bind c.query.slot?).bind s'.get? := by
    cases e with
    | var v => exact hv v List.mem_cons_self
    | _ => rfl
  have ha : Environment.Agree c.query e (rowEnvironment stage row item s none)
      (rowEnvironment stage row item s' none) :=
    ⟨fun v hm => by rw [Query.get_rowEnvironment, Query.get_rowEnvironment, hv v hm], fun _ => rfl⟩
  rw [key, key, hvar, evaluate, evaluate, (Expr.eval_same e _ _ hp ha).eq]

/-- The values by which a solution is grouped. -/
def groupKeys (c : Context) (i : Nat) (s : Solution) : Run (List (Option Term)) :=
  Run.mapIdx (fun j e => c.key .groupKey s none i j e) 0 c.query.groupBy

/-- If the solutions are grouped by values alone, they are grouped by those that they have without
the columns. -/
theorem GroupsFreshly.groupKeys_of_completesTo (hc : c.GroupsFreshly)
    (hp : ∀ e ∈ c.query.groupBy, e.isPure = true) {i : Nat} {d : Solution}
    (hr : r.Fits c.query) (h : c.CompletesTo i r d) :
    (c.groupKeys i r).outcome = .ok d.groupKeys := by
  obtain ⟨s, hselect, hkeys⟩ := h
  obtain ⟨orderKeys, -, hkeys⟩ := Run.outcome_bind_eq_ok hkeys
  obtain ⟨groupKeys, hgroup, hkeys⟩ := Run.outcome_bind_eq_ok hkeys
  rw [← Except.ok.inj hkeys, ← hgroup]
  refine congrArg Run.outcome (Run.mapIdx_congr (fun j e he => key_congr (hp e he) fun v hv => ?_) 0)
  exact ((selectFrom_frame hr hc.columns hselect).2 v fun item hm hve =>
    hc.groupBy item hm e he (hve ▸ hv)).symm

/-! ### Rows of groups -/

/-- All solutions with the same keys, in the order in which the keys are first seen, or all
solutions if there are no keys. -/
def groups (c : Context) (rows : List Solution) : List (List Solution) :=
  if c.query.groupBy.isEmpty then [rows]
  else (rows.map (·.groupKeys)).eraseDups.map fun k => rows.filter (·.groupKeys = k)

/-- The solution that stands for a group. -/
def first (c : Context) (group : List Solution) : Solution :=
  group.head?.getD (.unbound c.query.vars.length)

/-- The row that a group should have: the columns are computed over the group, one after the
other, beside what the body binds. -/
def columns (c : Context) (row : Nat) (group : List Solution) : Solution :=
  c.columnsFrom group row 0 c.query.select (c.bare (c.first group))

/-- The row of a group if all conditions on the group are true. -/
def expectedRow (c : Context) (row : Nat) (group : List Solution) : Option (List (Option Term)) :=
  let s := c.columns row group
  if (c.admits s group row 0 c.query.having).outcome.toOption = some true then some s.slots else none

/-- Whether no column of a group is hindered by what was computed for its first solution. -/
def Settles (c : Context) (row : Nat) (group : List Solution) : Prop :=
  c.SettlesFrom group row 0 c.query.select (c.bare (c.first group)) (c.first group)

theorem admits_congr (hs : s.slots = s'.slots) (group : List Solution) (row i : Nat)
    (es : List Expr) : c.admits s group row i es = c.admits s' group row i es := by
  induction es generalizing i with
  | nil => rfl
  | cons e es ih =>
    have henv : rowEnvironment .groupCondition row i s (some group) =
        rowEnvironment .groupCondition row i s' (some group) := by
      rw [rowEnvironment, rowEnvironment, Environment.ofSolution, Environment.ofSolution, hs]
    rw [admits, admits, henv]
    refine bind_congr fun b => ?_
    split_ifs
    · exact ih (i + 1)
    · rfl

/-- A group has the row that it should have exactly if its columns settle, apart from a group that
should not have a row and has none. -/
theorem GroupsFreshly.groupRow_iff (hc : c.GroupsFreshly) {row : Nat} {group : List Solution}
    {r : Option Solution} (hf : (c.first group).Fits c.query)
    (h : (c.groupRow row group).outcome = .ok r) :
    r.map (·.slots) = c.expectedRow row group ↔
      c.Settles row group ∨ r = none ∧ c.expectedRow row group = none := by
  obtain ⟨selected, hselect, h⟩ := Run.outcome_bind_eq_ok h
  have hiff : selected.map (·.slots) = some (c.columns row group).slots ↔ c.Settles row group := by
    refine selectFrom_eq_iff (hc.fits_bare hf) hf hc.columns (fun v hv => ?_) hselect
    rw [hc.read_bare hf, if_neg fun hm => ?_]
    obtain ⟨item, hm, he⟩ := List.mem_map.mp hm
    exact hv item hm he.symm
  cases selected with
  | none =>
    obtain rfl := Except.ok.inj h
    rw [← hiff]
    simp [eq_comm]
  | some s =>
    obtain ⟨holds, hholds, h⟩ := Run.outcome_bind_eq_ok h
    have hr : r.map (·.slots) = if holds then some s.slots else none := by
      split_ifs at h with hb
      · obtain ⟨k, hk, h⟩ := Run.outcome_bind_eq_ok h
        rw [← Except.ok.inj h, hb, if_pos rfl, Option.map_some, slots_of_keys hk]
      · rw [← Except.ok.inj h, if_neg hb, Option.map_none]
    rw [← hiff, ← Option.map_eq_none_iff (f := fun s : Solution => s.slots) (x := r), hr]
    by_cases hs : s.slots = (c.columns row group).slots
    · have he : c.expectedRow row group = if holds then some s.slots else none := by
        rw [expectedRow, ← admits_congr hs, hholds, hs]
        cases holds <;> rfl
      rw [he]
      exact ⟨fun _ => .inl (congrArg some hs), fun _ => rfl⟩
    · have he : c.expectedRow row group = none ∨
          c.expectedRow row group = some (c.columns row group).slots := by
        rw [expectedRow]
        split_ifs <;> simp
      cases holds <;> rcases he with he | he <;> simp [he, hs]

/-! ### Answers -/

theorem submitAll_of_plain {s : Solutions} (h : s.distinct = false) (rows : List Solution) :
    s.submitAll rows = { s with rows := s.rows ++ rows } := by
  induction rows generalizing s with
  | nil => rw [List.append_nil]; rfl
  | cons r rows ih =>
    have hsubmit : (s.submit r).1 = s.add r := by simp [Solutions.submit, h]
    rw [Solutions.submitAll, List.foldl_cons, hsubmit]
    exact (ih (s := s.add r) h).trans (by simp [Solutions.add])

theorem rows_submitAll {s : Solutions} (h : s.distinct = false) (rows : List Solution) :
    (s.submitAll rows).rows = s.rows ++ rows := by rw [submitAll_of_plain h]

theorem groups_eq (rows : List Solution) :
    (if c.query.groupBy.isEmpty then [rows] else groupsOf rows) = c.groups rows := by
  rw [groups, groupsOf_eq]

theorem mem_of_mem_groups {rows group : List Solution} (hg : group ∈ c.groups rows)
    (hs : s ∈ group) : s ∈ rows := by
  unfold groups at hg
  split_ifs at hg
  · rwa [List.mem_singleton.mp hg] at hs
  · obtain ⟨k, -, rfl⟩ := List.mem_map.mp hg
    exact (List.mem_filter.mp hs).1

theorem fits_first {group : List Solution} (hg : ∀ s ∈ group, s.Fits c.query) :
    (c.first group).Fits c.query := by
  cases group with
  | nil => exact List.length_replicate
  | cons s group => exact hg s List.mem_cons_self

/-- What an answer is made of: the solutions of the body, the completed solutions, and what each
group comes to. -/
structure Made (c : Context) (raw done : Solutions) (rows : List (Option Solution))
    (ans : Solutions) : Prop where
  body : c.rawSolutions.outcome = .ok raw
  complete : (c.complete raw).outcome = .ok done
  length : done.rows.length = raw.rows.length
  completes : ∀ i r, raw.rows[i]? = some r → ∃ d, done.rows[i]? = some d ∧ c.CompletesTo i r d
  rows_length : rows.length = (c.groups done.rows).length
  row : ∀ i group, (c.groups done.rows)[i]? = some group →
    ∃ r, rows[i]? = some r ∧ (c.groupRow i group).outcome = .ok r
  answer : ans.rows = rows.reduceOption

theorem GroupsFreshly.exists_made (hc : c.GroupsFreshly) (h : c.answer.outcome = .ok ans) :
    ∃ raw done rows, c.Made raw done rows ans := by
  obtain ⟨raw, hraw, h⟩ := Run.outcome_bind_eq_ok h
  obtain ⟨done, hdone, h⟩ := Run.outcome_bind_eq_ok h
  simp only [hc.isAggregate, if_true, hc.orderBy, List.isEmpty_nil, hc.offset, hc.limit] at h
  obtain ⟨grouped, hgrouped, h⟩ := Run.outcome_bind_eq_ok h
  obtain ⟨rows, hrows, hgrouped⟩ := Run.outcome_bind_eq_ok hgrouped
  obtain ⟨hd, hfree⟩ := rawSolutions_free hc hraw
  obtain ⟨hdd, hlen, hcomplete⟩ := complete_of_free hc hfree hdone
  rw [groups_eq] at hrows
  obtain ⟨hrlen, hrget⟩ := Run.outcome_mapIdx hrows
  refine ⟨raw, done, rows, hraw, hdone, hlen, hcomplete, hrlen, fun i group hg => ?_, ?_⟩
  · obtain ⟨r, hr, hrow⟩ := hrget i group hg
    rw [Nat.zero_add] at hrow
    exact ⟨r, hr, hrow⟩
  · have hclear : done.clear.distinct = false := hdd.trans hd
    rw [← Except.ok.inj h, ← Except.ok.inj hgrouped, Solutions.slice]
    simpa [Solutions.clear, List.reduceOption] using rows_submitAll hclear (rows.filterMap id)

variable {raw done : Solutions} {rows : List (Option Solution)}

/-- Completed solutions are those of the body, with columns. -/
theorem Made.bare (h : c.Made raw done rows ans) (hc : c.GroupsFreshly) {i : Nat} {r d : Solution}
    (hr : raw.rows[i]? = some r) (hd : done.rows[i]? = some d) :
    d.Fits c.query ∧ (c.bare d).slots = r.slots ∧
      ((∀ e ∈ c.query.groupBy, e.isPure = true) → (c.groupKeys i r).outcome = .ok d.groupKeys) := by
  obtain ⟨hfits, hfree⟩ := (rawSolutions_free hc h.body).2 r (List.mem_of_getElem? hr)
  obtain ⟨d', hd', hcomplete⟩ := h.completes i r hr
  obtain rfl := Option.some.inj (hd.symm.trans hd')
  obtain ⟨hdfits, hbare⟩ := hc.bare_of_completesTo hfits hfree hcomplete
  exact ⟨hdfits, hbare, fun hp => hc.groupKeys_of_completesTo hp hfits hcomplete⟩

theorem Made.exists_raw (h : c.Made raw done rows ans) {d : Solution} (hd : d ∈ done.rows) :
    ∃ (i : ℕ) (r : Solution), raw.rows[i]? = some r ∧ done.rows[i]? = some d := by
  obtain ⟨i, hi⟩ := List.mem_iff_getElem?.mp hd
  obtain ⟨hlt, -⟩ := List.getElem?_eq_some_iff.mp hi
  have hr : raw.rows[i]? = some _ := List.getElem?_eq_getElem (h.length ▸ hlt)
  exact ⟨i, _, hr, hi⟩

theorem Made.fits_first (h : c.Made raw done rows ans) (hc : c.GroupsFreshly) {i : Nat}
    {group : List Solution} (hg : (c.groups done.rows)[i]? = some group) :
    (c.first group).Fits c.query := by
  refine Context.fits_first fun s hs => ?_
  obtain ⟨j, r, hr, hd⟩ := h.exists_raw (mem_of_mem_groups (List.mem_of_getElem? hg) hs)
  exact (h.bare hc hr hd).1

/-- The answer to a grouped query has a row for each group, in order, which is the row that the
group should have exactly if the columns of the group settle, apart from groups that should not
have a row and have none. The groups are those of the solutions of the body, with columns. -/
theorem answer_rows_iff_settles (hc : c.GroupsFreshly) (h : c.answer.outcome = .ok ans) :
    ∃ raw done rows, c.Made raw done rows ans ∧
      (∀ i r d, raw.rows[i]? = some r → done.rows[i]? = some d →
        (c.bare d).slots = r.slots ∧
          ((∀ e ∈ c.query.groupBy, e.isPure = true) →
            (c.groupKeys i r).outcome = .ok d.groupKeys)) ∧
      ∀ i group r, (c.groups done.rows)[i]? = some group → rows[i]? = some r →
        (r.map (·.slots) = c.expectedRow i group ↔
          c.Settles i group ∨ r = none ∧ c.expectedRow i group = none) := by
  obtain ⟨raw, done, rows, hmade⟩ := hc.exists_made h
  refine ⟨raw, done, rows, hmade, fun i r d hr hd => (hmade.bare hc hr hd).2,
    fun i group r hg hr => ?_⟩
  obtain ⟨r', hr', hrow⟩ := hmade.row i group hg
  obtain rfl := Option.some.inj (hr.symm.trans hr')
  exact hc.groupRow_iff (hmade.fits_first hc hg) hrow

theorem answer_rows_iff_settles_of_count :
    let store := Store.after false [.extend [
      ⟨.iri ⟨"a"⟩, .iri ⟨"p"⟩, .iri ⟨"b"⟩, none⟩, ⟨.iri ⟨"c"⟩, .iri ⟨"p"⟩, .iri ⟨"b"⟩, none⟩]]
    let body : Pattern := .edge ⟨.var ⟨"x"⟩, .const (.iri ⟨"p"⟩), .var ⟨"y"⟩⟩
    let count : SelectItem := ⟨⟨"n"⟩, .aggregate .count (some (.var ⟨"x"⟩)) false⟩
    let query := Query.ofParts { body, select := [count], groupBy := [.var ⟨"y"⟩] }
    let c : Context := { query, source := { store } }
    c.GroupsFreshly ∧ ∃ ans, c.answer.outcome = .ok ans ∧
      ∃ raw done rows, c.Made raw done rows ans ∧
        ∀ i group r, (c.groups done.rows)[i]? = some group → rows[i]? = some r →
          (r.map (·.slots) = c.expectedRow i group ↔
            c.Settles i group ∨ r = none ∧ c.expectedRow i group = none) := by
  intro store body count query c
  have hc : c.GroupsFreshly := by constructor <;> decide +kernel
  have hans : c.answer.outcome.isOk = true := by decide +kernel
  obtain ⟨ans, hans⟩ : ∃ ans, c.answer.outcome = .ok ans := by
    cases h : c.answer.outcome with
    | error e => simp [h, Except.isOk, Except.toBool] at hans
    | ok ans => exact ⟨ans, rfl⟩
  obtain ⟨raw, done, rows, hmade, -, hrows⟩ := answer_rows_iff_settles hc hans
  exact ⟨hc, ans, hans, raw, done, rows, hmade, hrows⟩

/-- A group has no row if a column tests the number of its solutions for being bound. -/
theorem answer_rows_ne_expected :
    let count : SelectItem := ⟨⟨"n"⟩, .aggregate .count none false⟩
    let bound : SelectItem := ⟨⟨"b"⟩, .bound ⟨"n"⟩⟩
    let query := Query.ofParts { select := [count, bound] }
    let c : Context := { query, source := { store := .after false [] } }
    c.GroupsFreshly ∧ c.answer.outcome.toOption.map (·.rows.length) = some 0 ∧
      (c.rawSolutions >>= c.complete).outcome.toOption.map
          (fun done => (c.groups done.rows).mapIdx c.expectedRow) =
        some [some [some (.literal (.typed "1" Iri.xsdInteger)), some (.ofBool true)]] := by
  intro count bound query c
  refine ⟨?_, ?_, ?_⟩
  · constructor <;> decide +kernel
  · decide +kernel
  · decide +kernel

/-! ### Queries that lose no group -/

/-- If all columns settle, the answer has the rows that the groups should have. -/
theorem Made.answer_of_settles (h : c.Made raw done rows ans) (hc : c.GroupsFreshly)
    (hs : ∀ i group, (c.groups done.rows)[i]? = some group → c.Settles i group) :
    ans.rows.map (·.slots) = ((c.groups done.rows).mapIdx c.expectedRow).reduceOption := by
  have hrows : rows.map (Option.map (·.slots)) = (c.groups done.rows).mapIdx c.expectedRow := by
    refine List.ext_getElem? fun i => ?_
    rw [List.getElem?_map, List.getElem?_mapIdx]
    cases hg : (c.groups done.rows)[i]? with
    | none =>
      rw [List.getElem?_eq_none_iff, ← h.rows_length, ← List.getElem?_eq_none_iff] at hg
      rw [hg]
      rfl
    | some group =>
      obtain ⟨r, hr, hrow⟩ := h.row i group hg
      rw [hr, Option.map_some, Option.map_some]
      exact congrArg some ((hc.groupRow_iff (h.fits_first hc hg) hrow).mpr (.inl (hs i group hg)))
  rw [h.answer, ← List.reduceOption_map, hrows]

/-- Whether the columns of a query do not depend on the order in which they are computed. -/
def IndependentColumns (c : Context) : Prop :=
  Independent (fun v => ∃ item ∈ c.query.select, item.isAggregate = true ∧ item.target = v)
    c.query.select

theorem bare_of_free (hs : s.Fits c.query)
    (hf : ∀ item ∈ c.query.select, c.query.read item.target s = none) : c.bare s = s := by
  unfold bare
  generalize c.query.select = items at hf ⊢
  induction items with
  | nil => rfl
  | cons item rest ih =>
    obtain ⟨hi, hf⟩ := List.forall_mem_cons.mp hf
    rw [List.foldl_cons, Query.put_read hs hi, ih hf]

theorem settles_of_free (hc : c.GroupsFreshly) {i : Nat} {group : List Solution}
    (hfit : (c.first group).Fits c.query)
    (hf : ∀ item ∈ c.query.select, c.query.read item.target (c.first group) = none) :
    c.Settles i group := by
  rw [Settles, bare_of_free hfit hf]
  exact settlesFrom_of_free hfit hc.columns hf

theorem Made.settles_of_independent (h : c.Made raw done rows ans) (hc : c.GroupsFreshly)
    (hi : c.IndependentColumns) {i : Nat} {group : List Solution}
    (hg : (c.groups done.rows)[i]? = some group) : c.Settles i group := by
  cases group with
  | nil =>
    refine settles_of_free hc List.length_replicate fun item _ => ?_
    exact Environment.binding_initial c.query item.target
  | cons d group =>
    have hd : d ∈ done.rows := mem_of_mem_groups (List.mem_of_getElem? hg) List.mem_cons_self
    obtain ⟨j, r, hr, hd⟩ := h.exists_raw hd
    obtain ⟨hfit, hbare, -⟩ := h.bare hc hr hd
    obtain ⟨hrfit, hfree⟩ := (rawSolutions_free hc h.body).2 r (List.mem_of_getElem? hr)
    obtain ⟨d', hd', s, hselect, hkeys⟩ := h.completes j r hr
    obtain rfl := Option.some.inj (hd.symm.trans hd')
    refine hi.settlesFrom hc.columns hrfit (hc.fits_bare hfit) hfit hfree
      (fun v _ _ => (Query.read_congr hbare).symm) (fun v hv => ?_) hselect
      fun item _ => Query.read_congr (slots_of_keys hkeys)
    have hfirst : c.first (d :: group) = d := rfl
    rw [hfirst, hc.read_bare hfit, if_neg fun hm => ?_]
    obtain ⟨item, hm, he⟩ := List.mem_map.mp hm
    exact hv item hm he.symm

/-- A query whose columns do not depend on the order in which they are computed has the row of
each group on which all conditions are true. -/
theorem answer_of_independent (hc : c.GroupsFreshly) (hi : c.IndependentColumns)
    (h : c.answer.outcome = .ok ans) :
    ∃ raw done rows, c.Made raw done rows ans ∧
      ans.rows.map (·.slots) = ((c.groups done.rows).mapIdx c.expectedRow).reduceOption := by
  obtain ⟨raw, done, rows, hmade⟩ := hc.exists_made h
  exact ⟨raw, done, rows, hmade,
    hmade.answer_of_settles hc fun i group hg => hmade.settles_of_independent hc hi hg⟩

end Context

end GraphQuery
