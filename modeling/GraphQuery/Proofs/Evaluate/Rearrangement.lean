import GraphQuery.Proofs.Evaluate.Carrying
import GraphQuery.Proofs.Evaluate.Gathering

/-! The same variables in another order. Slots that are arranged anew bind each variable to the same
term, so patterns, expressions, columns and keys come to the same, as long as snapshots, which list
what is bound in the order of the variables, are asked for only where that order is the same. -/

namespace GraphQuery

/-- Whether a query has the variables of another one, in whatever order, and differs from it only in
what its body and its columns are. -/
structure Query.Rearranges (q' q : Query) : Prop where
  vars : q'.vars.Perm q.vars
  parts : q'.toQueryParts = { q.toQueryParts with body := q'.body, select := q'.select }

/-- The slots of a query in the order of the variables of another one. -/
def Query.rearranged (q q' : Query) (slots : List (Option Term)) : List (Option Term) :=
  q'.vars.map fun v => q.read v { slots }

/-- The slots of a query that bind some variables only. -/
def Query.filled (q : Query) (bound : Variable → Prop) (asks : Request → Prop) : Realm where
  slots bs := bs.length = q.vars.length ∧ ∀ v, (q.read v { slots := bs }).isSome → bound v
  names := bound
  asks

namespace Query.Rearranges

variable {q q' : Query} {env : Environment} {v : Variable} {bound : Variable → Prop}
  {asks : Request → Prop} (h : q'.Rearranges q)

include h

theorem mem_vars_iff : v ∈ q'.vars ↔ v ∈ q.vars := h.vars.mem_iff

theorem read_rearranged (bs : List (Option Term)) (v : Variable) :
    q'.read v { slots := q.rearranged q' bs } = q.read v { slots := bs } := by
  by_cases hv : v ∈ q'.vars
  · obtain ⟨i, hi⟩ := exists_slot hv
    rw [read, hi, Option.bind_some, Solution.get?, rearranged, List.getElem?_map,
      slot_eq_some.mp hi, Option.map_some, Option.join_some]
  · rw [read, slot_eq_none.mpr hv, read, slot_eq_none.mpr fun hm => hv (h.mem_vars_iff.mpr hm)]
    rfl

theorem binding_rearranged (env : Environment) (v : Variable) :
    (env.carried (q.rearranged q')).binding? q' v = env.binding? q v :=
  h.read_rearranged env.bindings v

omit h in
theorem length_rearranged (bs : List (Option Term)) :
    (q.rearranged q' bs).length = q'.vars.length :=
  List.length_map _

theorem assign_rearranged (hl : env.bindings.length = q.vars.length) (hv : v ∈ q.vars) (t : Term) :
    (env.carried (q.rearranged q')).assign q' v t =
      (env.assign q v t).carried (q.rearranged q') := by
  have hassign : ∀ (env : Environment) (q : Query),
      env.assign q v t = { env with bindings := (env.assign q v t).bindings } := fun env q => by
    unfold Environment.assign
    cases q.slot? v <;> rfl
  have hl' : (env.carried (q.rearranged q')).bindings.length = q'.vars.length :=
    length_rearranged _
  have hslots : ((env.carried (q.rearranged q')).assign q' v t).bindings =
      q.rearranged q' (env.assign q v t).bindings := by
    have hfits : Solution.Fits q'
        { slots := ((env.carried (q.rearranged q')).assign q' v t).bindings } := by
      rw [Solution.Fits, Environment.length_assign, hl']
    have hfits' : Solution.Fits q' { slots := q.rearranged q' (env.assign q v t).bindings } :=
      length_rearranged _
    refine slots_eq_of_read hfits hfits' fun w => ?_
    have hread : (env.assign q v t).binding? q w = if w = v then some t else env.binding? q w :=
      Environment.binding_assign hl hv
    refine Eq.trans ?_ (hread.symm.trans (h.read_rearranged _ w).symm)
    rw [← h.binding_rearranged env w]
    exact Environment.binding_assign hl' (h.mem_vars_iff.mpr hv)
  rw [hassign, hslots, hassign env q]
  rfl

omit h in
theorem initial_rearranged :
    (Environment.initial q).carried (q.rearranged q') = .initial q' := by
  have hslots : q.rearranged q' (Environment.initial q).bindings =
      (Environment.initial q').bindings :=
    List.map_eq_replicate_iff.mpr fun v _ => Environment.binding_initial q v
  rw [Environment.carried, hslots]
  rfl

/-- Solutions are compared alike, variable by variable. -/
theorem compatible_rearranged {a b : Environment} (hl : a.bindings.length = q.vars.length) :
    (a.carried (q.rearranged q')).solution.compatible (b.carried (q.rearranged q')).solution =
      a.solution.compatible b.solution := by
  have hl' : (a.carried (q.rearranged q')).bindings.length = q'.vars.length := length_rearranged _
  rw [Bool.eq_iff_iff, Environment.compatible_solution_iff hl',
    Environment.compatible_solution_iff hl]
  simp only [h.binding_rearranged]

theorem sharesSlot_rearranged {a b : Environment} (hl : a.bindings.length = q.vars.length) :
    (a.carried (q.rearranged q')).solution.sharesSlot (b.carried (q.rearranged q')).solution =
      a.solution.sharesSlot b.solution := by
  have hl' : (a.carried (q.rearranged q')).bindings.length = q'.vars.length := length_rearranged _
  rw [Bool.eq_iff_iff, Environment.sharesSlot_solution_iff hl',
    Environment.sharesSlot_solution_iff hl]
  simp only [h.binding_rearranged]

/-- Another term for a variable. -/
theorem put_rearranged {s : Solution} (hv : v ∈ q.vars) (t : Option Term) :
    q'.put v t (s.carried (q.rearranged q')) = (q.put v t s).carried (q.rearranged q') := by
  have hput : ∀ (q : Query) (s : Solution), q.put v t s = { s with slots := (q.put v t s).slots } :=
    fun q s => by
      unfold put
      cases q.slot? v <;> rfl
  have hslots : (q'.put v t (s.carried (q.rearranged q'))).slots =
      q.rearranged q' (q.put v t s).slots := by
    have hfits : (s.carried (q.rearranged q')).Fits q' := length_rearranged _
    have hfits' : Solution.Fits q' { slots := q.rearranged q' (q.put v t s).slots } :=
      length_rearranged _
    refine slots_eq_of_read (fits_put hfits) hfits' fun w => ?_
    have hread : q'.read w (s.carried (q.rearranged q')) = q.read w s :=
      h.read_rearranged s.slots w
    rw [h.read_rearranged, read_put (h.mem_vars_iff.mpr hv), hread]
    exact (read_put hv).symm
  rw [hput, hslots, hput q s]
  rfl

theorem mem_projection_iff : v ∈ q'.projection ↔ v ∈ q.projection := by
  have hproject : q'.project = q.project := congrArg (·.project) h.parts
  rw [projection, projection, hproject]
  cases q.project with
  | none => exact h.mem_vars_iff
  | some vs => rfl

/-- Slots are carried over by arranging them anew. -/
theorem carries : q.Carries q' (q.rearranged q') (q.filled bound asks) where
  patterns := congrArg (·.patterns) h.parts
  functions := congrArg (·.functions) h.parts
  fromDefault := congrArg (·.fromDefault) h.parts
  fromNamed := congrArg (·.fromNamed) h.parts
  declared _ _ := h.mem_vars_iff
  binding _ := h.binding_rearranged _
  assign {env v} hs hn hv t := by
    refine ⟨⟨by rw [Environment.length_assign, hs.1], fun w hw => ?_⟩,
      h.assign_rearranged hs.1 hv t⟩
    have hread : q.read w { slots := (env.assign q v t).bindings } =
        if w = v then some t else q.read w { slots := env.bindings } :=
      Environment.binding_assign hs.1 hv
    rw [hread] at hw
    split_ifs at hw with hwv
    · exact hwv ▸ hn
    · exact hs.2 w hw
  initial := by
    refine ⟨⟨List.length_replicate, fun v hv => ?_⟩, initial_rearranged⟩
    have hnone : q.read v { slots := (Environment.initial q).bindings } = none :=
      Environment.binding_initial q v
    rw [hnone] at hv
    cases hv
  compatible {a b} ha _ :=
    h.compatible_rearranged (a := .ofSolution a none []) (b := .ofSolution b none []) ha.1
  sharesSlot {a b} ha _ :=
    h.sharesSlot_rearranged (a := .ofSolution a none []) (b := .ofSolution b none []) ha.1
  injective {bs bs'} hs hs' hg := by
    have hfits : ∀ bs, (q.filled bound asks).slots bs → Solution.Fits q { slots := bs } :=
      fun _ hs => hs.1
    refine slots_eq_of_read (hfits bs hs) (hfits bs' hs') fun v => ?_
    rw [← h.read_rearranged, hg, h.read_rearranged]

end Query.Rearranges

/-! ### What is asked for -/

/-- What is bound, in the order of the variables. -/
theorem Query.bound_eq {q : Query} {bs : List (Option Term)} (hl : bs.length = q.vars.length) :
    (q.vars.zip bs).filterMap (fun p => p.2.map fun t => (p.1, t)) =
      q.vars.filterMap fun v => (q.read v { slots := bs }).map fun t => (v, t) := by
  have hslots : (Environment.mk bs [] none none []).bindings =
      q.vars.map fun v => q.read v { slots := bs } := Environment.bindings_eq hl
  replace hslots : bs = q.vars.map fun v => q.read v { slots := bs } := hslots
  have hzip : q.vars.zip bs = q.vars.map fun v => (v, q.read v { slots := bs }) := by
    conv_lhs => rw [hslots, ← List.map_id q.vars, List.map_map]
    exact List.zip_map'
  rw [hzip, List.filterMap_map]
  rfl

/-- Snapshots list the same if the variables that may be bound are in the same order. -/
theorem Query.Rearranges.bound_rearranged {q q' : Query} {bound : Variable → Prop}
    (h : q'.Rearranges q) {bs : List (Option Term)} (hl : bs.length = q.vars.length)
    (hb : ∀ v, (q.read v { slots := bs }).isSome → bound v)
    (hvars : ∀ W : Variable → Bool, (∀ v, W v = true → bound v) →
      q'.vars.filter W = q.vars.filter W) :
    (q'.vars.zip (q.rearranged q' bs)).filterMap (fun p => p.2.map fun t => (p.1, t)) =
      (q.vars.zip bs).filterMap fun p => p.2.map fun t => (p.1, t) := by
  have hfilter : ∀ vs : List Variable,
      vs.filterMap (fun v => (q.read v { slots := bs }).map fun t => (v, t)) =
        (vs.filter fun v => (q.read v { slots := bs }).isSome).filterMap
          fun v => (q.read v { slots := bs }).map fun t => (v, t) := fun vs => by
    rw [List.filterMap_filter]
    refine List.filterMap_congr fun v _ => ?_
    cases q.read v { slots := bs } <;> rfl
  rw [bound_eq (length_rearranged bs), bound_eq hl]
  simp only [h.read_rearranged]
  rw [hfilter, hfilter q.vars, hvars _ hb]

/-- Also what is asked for is answered alike. Where patterns are asked for, more variables may be
bound. -/
theorem Scope.carries_of_rearranges {c : Scope} {q' : Query} {bound bound' : Variable → Prop}
    {asks asks' : Request → Prop} (hq : q'.Rearranges c.query) (hb : ∀ v, bound v → bound' v)
    (hsnapshot : ∀ target, asks (.snapshot target) → ∀ W : Variable → Bool,
      (∀ v, W v = true → bound v) → q'.vars.filter W = c.query.vars.filter W)
    (hcall : ∀ {site name count d}, asks (.call site name count) →
      c.finds site name count = some d → ∀ r ∈ d.body.requests, asks r)
    (hexistence : ∀ {id p}, asks (.existence id) → c.query.pattern? id = some p →
      (∀ v ∈ p.vars, bound' v) ∧ ∀ r ∈ p.requests, asks' r) :
    c.Carries q' (c.query.rearranged q') (c.query.filled bound asks)
      (c.query.filled bound' asks') where
  toCarries := hq.carries
  snapshot {target} ha env hs := by
    unfold snapshot
    split_ifs
    · rfl
    · exact congrArg (fun bound : List (Variable × Term) =>
        Term.snapshot "memory" env.trail (bound.map (·.1)) (bound.map (·.2)))
        (hq.bound_rearranged hs.1 hs.2 (hsnapshot target ha))
  call := hcall
  existence := hexistence
  restored {env} hn := by
    have hl := env.length_restored c.query
    have hsame : ∀ (e : Environment) (q : Query), e.bindings.length = q.vars.length →
        (e.restored q).bindings = e.bindings := fun e q hl => by
      rw [Environment.bindings_eq (e.length_restored q), Environment.bindings_eq hl]
      exact List.map_congr_left fun v _ => e.binding_restored q v
    have hslots := hsame env c.query hn.slots.1
    have hslots' : ((env.carried (c.query.rearranged q')).restored q').bindings =
        c.query.rearranged q' env.bindings :=
      hsame (env.carried (c.query.rearranged q')) q' (Query.Rearranges.length_rearranged _)
    refine ⟨⟨⟨hl, fun v hv => hb v (hn.slots.2 v ?_)⟩,
      fun _ hg => (Option.some_ne_none _ hg.symm).elim,
      fun n hg v hv => hb v (hn.graph n hg v hv)⟩, ?_⟩
    · rwa [hslots] at hv
    · have heq : (env.carried (c.query.rearranged q')).restored q' =
          { (env.carried (c.query.rearranged q')).restored q' with
            bindings := c.query.rearranged q' (env.restored c.query).bindings } := by
        rw [hslots, ← hslots']
      exact heq

/-! ### Rows -/

/-- Solutions project to the same if they bind the projected variables to the same. -/
theorem Solutions.projectAlike_iff {q : Query} {a b : Solution} :
    (Solutions.ofQuery q).projectAlike a b = true ↔
      ∀ v ∈ q.projection, q.read v a = q.read v b := by
  rw [projectAlike, beq_iff_eq, Solution.restrict, Solution.restrict, List.map_inj_left]
  constructor
  · intro h v hv
    rw [Query.read, Query.read]
    exact Option.bind_congr fun i hi => h i (List.mem_filterMap.mpr ⟨v, hv, hi⟩)
  · intro h i hi
    obtain ⟨v, hv, hslot⟩ := List.mem_filterMap.mp hi
    have hread := h v hv
    rwa [Query.read, Query.read, hslot] at hread

namespace Context

variable {c : Context} {q' : Query} {asks : Request → Prop} {group : Option (List Solution)}
  {s : Solution} {rows : List Solution} {row i : Nat}

/-- Whether rows, and those of a group, have a slot for each variable. -/
def GroupFits (q : Query) (group : Option (List Solution)) : Prop :=
  ∀ members, group = some members → ∀ s ∈ members, s.Fits q

theorem groupFits_none (q : Query) : GroupFits q none :=
  fun _ h => (Option.some_ne_none _ h.symm).elim

/-- Rows with their slots arranged anew. -/
abbrev arranged (c : Context) (q' : Query) (s : Solution) : Solution :=
  s.carried (c.query.rearranged q')

theorem within_rowEnvironment (hs : s.Fits c.query) (hg : GroupFits c.query group)
    (stage : Stage) (row i : Nat) :
    (rowEnvironment stage row i s group).Within (c.query.filled (fun _ => True) asks) :=
  ⟨⟨hs, fun _ _ => trivial⟩, fun members hm s hs => ⟨hg members hm s hs, fun _ _ => trivial⟩,
    fun _ hn => (Option.some_ne_none _ hn.symm).elim⟩

theorem fits_bindColumn {v : Variable} {t : Option Term} {s' : Solution} (hs : s.Fits c.query)
    (h : c.bindColumn v t s = some s') : s'.Fits c.query := by
  unfold bindColumn at h
  split at h
  · rwa [← Option.some.inj h]
  · rw [← Option.some.inj h]
    exact Query.fits_put hs
  · split_ifs at h
    rwa [← Option.some.inj h]

theorem mem_of_mem_uniqueRows {rows : Solutions} (h : s ∈ c.uniqueRows rows) : s ∈ rows.rows := by
  unfold uniqueRows at h
  split_ifs at h
  · exact (eraseDupsBy_sublist _ _).subset h
  · exact h

section

variable (hq : q'.Rearranges c.query)
  (hE : c.toScope.Carries q' (c.query.rearranged q') (c.query.filled (fun _ => True) asks)
    (c.query.filled (fun _ => True) asks))
  (limit : Option Nat)

include hq in
omit hE in
theorem read_arranged (v : Variable) (s : Solution) :
    q'.read v (c.arranged q' s) = c.query.read v s :=
  hq.read_rearranged s.slots v

include hE

theorem evaluate_arranged {e : Expr} (he : ∀ r ∈ e.requests, asks r) (hs : s.Fits c.query)
    (hg : GroupFits c.query group) (stage : Stage) (row i : Nat) :
    (c.withQuery q' limit).evaluate e (rowEnvironment stage row i (c.arranged q' s)
      (group.map (·.map (c.arranged q')))) = c.evaluate e (rowEnvironment stage row i s group) :=
  evaluate_carried hE hE limit e he (within_rowEnvironment hs hg stage row i)

include hq

theorem key_arranged {e : Expr} (he : ∀ r ∈ e.requests, asks r) (hs : s.Fits c.query)
    (hg : GroupFits c.query group) (stage : Stage) (row i : Nat) :
    (c.withQuery q' limit).key stage (c.arranged q' s) (group.map (·.map (c.arranged q'))) row i e =
      c.key stage s group row i e := by
  have hread : (e.asVariable.bind q'.slot?).bind (c.arranged q' s).get? =
      (e.asVariable.bind c.query.slot?).bind s.get? := by
    rw [Option.bind_assoc, Option.bind_assoc]
    exact Option.bind_congr fun v _ => read_arranged hq v s
  have hquery : (c.withQuery q' limit).query = q' := rfl
  unfold key
  rw [hquery, hread, evaluate_arranged hE limit he hs hg, Option.isNone_map]

theorem keys_arranged (horder : ∀ k ∈ c.query.orderBy, ∀ r ∈ k.expr.requests, asks r)
    (hgroup : ∀ e ∈ c.query.groupBy, ∀ r ∈ e.requests, asks r) (hs : s.Fits c.query)
    (hg : GroupFits c.query group) (row : Nat) :
    (c.withQuery q' limit).keys (c.arranged q' s) (group.map (·.map (c.arranged q'))) row =
      c.arranged q' <$> c.keys s group row := by
  have horderBy : (c.withQuery q' limit).query.orderBy = c.query.orderBy :=
    congrArg (·.orderBy) hq.parts
  have hgroupBy : (c.withQuery q' limit).query.groupBy = c.query.groupBy :=
    congrArg (·.groupBy) hq.parts
  have horders : ∀ stage, Run.mapIdx (fun i k => (c.withQuery q' limit).key stage (c.arranged q' s)
      (group.map (·.map (c.arranged q'))) row i k.expr) 0 c.query.orderBy =
        Run.mapIdx (fun i k => c.key stage s group row i k.expr) 0 c.query.orderBy := fun stage =>
    Run.mapIdx_congr (fun i k hk => key_arranged hq hE limit (horder k hk) hs hg stage row i) 0
  have hgroups : ∀ stage, Run.mapIdx (fun i e => (c.withQuery q' limit).key stage (c.arranged q' s)
      (group.map (·.map (c.arranged q'))) row i e) 0 c.query.groupBy =
        Run.mapIdx (fun i e => c.key stage s group row i e) 0 c.query.groupBy := fun stage =>
    Run.mapIdx_congr (fun i e he => key_arranged hq hE limit (hgroup e he) hs hg stage row i) 0
  unfold keys
  rw [horderBy, hgroupBy, Option.isSome_map]
  simp only [horders, hgroups, map_bind, map_pure]
  rfl

omit hE in
theorem bindColumn_arranged {v : Variable} (hv : v ∈ c.query.vars) (t : Option Term)
    (s : Solution) :
    (c.withQuery q' limit).bindColumn v t (c.arranged q' s) =
      (c.bindColumn v t s).map (c.arranged q') := by
  have hread : (c.withQuery q' limit).query.read v (c.arranged q' s) = c.query.read v s :=
    read_arranged hq v s
  unfold bindColumn
  rw [hread]
  cases t.map Term.canonical with
  | none => rfl
  | some u =>
    cases c.query.read v s with
    | none => exact congrArg some (hq.put_rearranged hv (some u))
    | some current =>
      dsimp only
      split_ifs <;> rfl

/-- Columns are computed alike. -/
theorem selectFrom_arranged {items : List SelectItem}
    (hv : ∀ item ∈ items, item.target ∈ c.query.vars)
    (he : ∀ item ∈ items, ∀ r ∈ item.expr.requests, asks r) (hs : s.Fits c.query)
    (hg : GroupFits c.query group) :
    (c.withQuery q' limit).selectFrom (group.map (·.map (c.arranged q'))) row i items
        (c.arranged q' s) = Option.map (c.arranged q') <$> c.selectFrom group row i items s := by
  induction items generalizing i s with
  | nil => rfl
  | cons item items ih =>
    obtain ⟨htarget, hv⟩ := List.forall_mem_cons.mp hv
    obtain ⟨hitem, he⟩ := List.forall_mem_cons.mp he
    by_cases hskip : (group.isNone && item.isAggregate) = true
    · rw [selectFrom, selectFrom, Option.isNone_map, if_pos hskip, if_pos hskip]
      exact ih hv he hs
    · have hkeep := Bool.eq_false_of_not_eq_true hskip
      have htarget' : item.target ∈ (c.withQuery q' limit).query.vars :=
        hq.mem_vars_iff.mpr htarget
      rw [selectFrom_eq htarget hkeep, selectFrom_eq htarget' (by rwa [Option.isNone_map]),
        Option.isSome_map, evaluate_arranged hE limit hitem hs hg, map_bind]
      refine bind_congr fun t => ?_
      rw [bindColumn_arranged hq limit htarget t s]
      cases hnext : c.bindColumn item.target t s with
      | none => rfl
      | some next => exact ih hv he (fits_bindColumn hs hnext)

omit hE in
/-- Repetitions are left out alike. -/
theorem uniqueRows_arranged (rows : List Solution) :
    (c.withQuery q' limit).uniqueRows
        { Solutions.ofQuery q' with rows := rows.map (c.arranged q') } =
      (c.uniqueRows { Solutions.ofQuery c.query with rows }).map (c.arranged q') := by
  have hdistinct : (c.withQuery q' limit).query.distinct = c.query.distinct :=
    congrArg (·.distinct) hq.parts
  have halike : ∀ a b, (Solutions.ofQuery q').projectAlike (c.arranged q' a) (c.arranged q' b) =
      (Solutions.ofQuery c.query).projectAlike a b := fun a b => by
    rw [Bool.eq_iff_iff, Solutions.projectAlike_iff, Solutions.projectAlike_iff]
    simp only [hq.mem_projection_iff, read_arranged hq]
  unfold uniqueRows
  rw [hdistinct]
  split_ifs
  · have hcomp := map_eraseDupsBy_comp (c.arranged q') (Solutions.ofQuery q').projectAlike rows
    simp only [halike] at hcomp
    exact hcomp.symm
  · rfl

omit hE in
theorem cut_sortedRows_arranged (rows : List Solution) :
    (c.withQuery q' limit).cut ((c.withQuery q' limit).sortedRows (rows.map (c.arranged q'))) =
      (c.cut (c.sortedRows rows)).map (c.arranged q') := by
  have horder : (c.withQuery q' limit).query.orderBy = c.query.orderBy :=
    congrArg (·.orderBy) hq.parts
  have hoffset : (c.withQuery q' limit).query.offset = c.query.offset :=
    congrArg (·.offset) hq.parts
  have hlimit : (c.withQuery q' limit).query.limit = c.query.limit :=
    congrArg (·.limit) hq.parts
  have hsorted : (c.withQuery q' limit).sortedRows (rows.map (c.arranged q')) =
      (c.sortedRows rows).map (c.arranged q') := by
    unfold sortedRows
    rw [horder]
    split_ifs
    · rfl
    · exact (map_stableSort (c.arranged q') rows).symm
  rw [hsorted, cut, cut, hoffset, hlimit]
  cases c.query.limit <;> simp [List.map_drop, List.map_take]

/-- What is left to do with rows is done alike, if it is so with the group that they form. -/
theorem value_remainder_arranged
    (horder : ∀ k ∈ c.query.orderBy, ∀ r ∈ k.expr.requests, asks r)
    (hgroup : ∀ e ∈ c.query.groupBy, ∀ r ∈ e.requests, asks r)
    (hagg : q'.isAggregate = c.query.isAggregate) (hrows : ∀ s ∈ rows, s.Fits c.query)
    (hmerged : c.query.isAggregate = true → ∀ keyed,
      (Run.mapIdx (fun i s => c.keys s none i) 0 rows).value? = some keyed →
        ((c.withQuery q' limit).groupRow 0 (keyed.map (c.arranged q'))).value? =
          (c.groupRow 0 keyed).value?.map (Option.map (c.arranged q'))) :
    ((c.withQuery q' limit).remainder (rows.map (c.arranged q'))).value? =
      (c.remainder rows).value?.map (List.map (c.arranged q')) := by
  have hagg' : (c.withQuery q' limit).query.isAggregate = c.query.isAggregate := hagg
  have hunique : (if c.query.isAggregate then rows.map (c.arranged q')
      else (c.withQuery q' limit).uniqueRows
        { Solutions.ofQuery q' with rows := rows.map (c.arranged q') }) =
      (if c.query.isAggregate then rows
        else c.uniqueRows { Solutions.ofQuery c.query with rows }).map (c.arranged q') := by
    split_ifs
    · rfl
    · exact uniqueRows_arranged hq limit rows
  have hfits : ∀ s ∈ (if c.query.isAggregate then rows
      else c.uniqueRows { Solutions.ofQuery c.query with rows }), s.Fits c.query := by
    intro s hs
    split_ifs at hs
    · exact hrows s hs
    · exact hrows s (mem_of_mem_uniqueRows hs)
  have hkeys : ∀ unique : List Solution, (∀ s ∈ unique, s.Fits c.query) →
      Run.mapIdx (fun i s => (c.withQuery q' limit).keys s none i) 0 (unique.map (c.arranged q')) =
        List.map (c.arranged q') <$> Run.mapIdx (fun i s => c.keys s none i) 0 unique := by
    intro unique hfits
    rw [Run.mapIdx_map, Run.map_mapIdx]
    refine Run.mapIdx_congr (fun i s hs => ?_) 0
    exact keys_arranged hq hE limit horder hgroup (hfits s hs) (groupFits_none _) i
  have hquery : (c.withQuery q' limit).query = q' := rfl
  rw [remainder, remainder, hagg', hquery, hunique, hkeys _ hfits, bind_map_left, Run.value_bind,
    Run.value_bind, Option.map_bind]
  refine Option.bind_congr fun keyed hkeyed => ?_
  have hmerge : ((c.withQuery q' limit).merged (keyed.map (c.arranged q'))).value? =
      (c.merged keyed).value?.map (List.map (c.arranged q')) := by
    rw [merged, merged, hagg']
    split_ifs with hc
    · rw [if_pos hc] at hkeyed
      rw [Run.value_map, Run.value_map, hmerged hc keyed hkeyed, Option.map_map, Option.map_map]
      refine congrArg (Option.map · _) (funext fun o => ?_)
      cases o <;> rfl
    · rfl
  rw [Function.comp_apply, Run.value_bind, Run.value_bind, hmerge, Option.bind_map, Option.map_bind]
  refine Option.bind_congr fun done _ => ?_
  exact congrArg some (cut_sortedRows_arranged hq limit done)

end

end Context

end GraphQuery
