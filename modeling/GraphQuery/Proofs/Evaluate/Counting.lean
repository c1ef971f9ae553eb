import GraphQuery.Proofs.Evaluate.Distinct
import GraphQuery.Proofs.Evaluate.Modifiers
import GraphQuery.Proofs.Evaluate.Partition

/-! Counting. How many solutions a body has, and how many values of a variable, can be asked for by
a count, by the rows of a distinct query, or by the groups of a query. Each of them has a notion of
its own of what is there twice: terms that are the same, equal projections, equal slots, or equal
keys. They agree, because solutions bind canonical terms, and no variable but those of the body. -/

namespace GraphQuery

/-! ### Distinct values -/

/-- Of canonical terms, those that are the same are equal. -/
theorem SetFunction.distinctTerms_eq_eraseDups {ts : List Term} (h : ∀ t ∈ ts, t.IsCanonical) :
    distinctTerms ts = ts.eraseDups := by
  induction ts using List.reverseRecOn with
  | nil => rfl
  | append_singleton ts t ih =>
    have ht := h t (List.mem_append_right ts (List.mem_singleton.mpr rfl))
    have h : ∀ u ∈ ts, u.IsCanonical := fun u hu => h u (List.mem_append_left [t] hu)
    have hany : ts.eraseDups.any (·.same t) = true ↔ t ∈ ts := by
      rw [List.any_eq_true]
      constructor
      · rintro ⟨u, hu, hsame⟩
        have hu := List.mem_eraseDups.mp hu
        rw [Term.same_iff, h u hu, ht] at hsame
        rwa [← hsame]
      · exact fun hm => ⟨t, List.mem_eraseDups.mpr hm, (Term.same_iff t t).mpr rfl⟩
    rw [distinctTerms_concat, ih h, List.eraseDups_append]
    by_cases hm : t ∈ ts
    · rw [if_pos (hany.mpr hm)]
      simp [List.removeAll, hm]
    · rw [if_neg fun he => hm (hany.mp he)]
      simp [List.removeAll, hm, List.eraseDups_cons]

/-- Values that are there twice may be left out before or after what is no value. -/
theorem countP_eraseDups (ts : List (Option Term)) :
    ts.eraseDups.countP (·.isSome) = (ts.filterMap id).eraseDups.length := by
  have hsome : ts.filter (·.isSome) = (ts.filterMap id).map some := by
    induction ts with
    | nil => rfl
    | cons t ts ih => cases t <;> simp [ih]
  have hfilter : ts.eraseDups.filter (·.isSome) = (ts.filter (·.isSome)).eraseDups :=
    filter_eraseDupsBy (f := id) fun t _ u _ h => congrArg Option.isSome h
  rw [List.countP_eq_length_filter, hfilter, hsome,
    eraseDups_map_of_injOn fun _ _ _ _ h => Option.some.inj h, List.length_map]

/-- What a count comes to, if the values are canonical: the number of values, or of those that are
left if each is taken once. -/
theorem SetFunction.apply_count_canonical {ts : List (Option Term)} (h : Canonical ts)
    (distinct : Bool) : count.apply distinct ts =
      (Integer.ofInt? ((if distinct then ts.eraseDups else ts).countP (·.isSome) : Nat)).map
        fun n => .literal (.ofInt64 n) := by
  have hcanonical : ∀ t ∈ ts.filterMap id, t.IsCanonical := fun t ht => by
    obtain ⟨u, hu, rfl⟩ := List.mem_filterMap.mp ht
    exact h t hu
  cases distinct with
  | false =>
    rw [apply_count, List.length_filterMap_eq_countP]
    rfl
  | true =>
    rw [apply, if_pos rfl, distinctTerms_eq_eraseDups hcanonical, if_pos rfl, countP_eraseDups]
    rfl

theorem Term.isCanonical_ofInt64 (n : Int64) : (Term.literal (.ofInt64 n)).IsCanonical := by
  have hform : canonicalForm? Iri.xsdInteger (Integer.render n) = some (Integer.render n) := by
    rw [canonicalForm?, if_pos rfl, Integer.read_render]
    rfl
  rw [IsCanonical, canonical, Literal.ofInt64, Literal.canonical, hform]
  rfl

/-! ### Queries over one body -/

/-- A body, with the patterns and functions that it refers to and the graphs that it is for. -/
structure Body where
  body : Pattern
  patterns : List Pattern := []
  functions : FunctionTable := {}
  fromDefault : List Term := []
  fromNamed : List Term := []

namespace Body

variable (b : Body)

/-- What is made of the solutions of a body is what the other parts of a query ask for. -/
def query (p : QueryParts) : Query :=
  .ofParts { p with
    body := b.body, patterns := b.patterns, functions := b.functions
    fromDefault := b.fromDefault, fromNamed := b.fromNamed }

/-- The variables of a body and of the patterns whose existence it asks for. -/
def vars : List Variable := b.body.vars ++ b.patterns.flatMap Pattern.vars

variable {b : Body}

/-- A query over a body declares the variables of the body first. -/
theorem exists_widens (b : Body) (p : QueryParts) :
    ∃ extra, (b.query p).Widens (b.query {}) extra := by
  have hvars : (b.query p).vars = (b.vars ++
      (p.select.flatMap (fun s => s.expr.vars ++ [s.target]) ++ p.groupBy.flatMap Expr.vars
        ++ p.having.flatMap Expr.vars ++ p.orderBy.flatMap (fun k => k.expr.vars)
        ++ p.project.getD [])).eraseDups := by
    simp only [← List.append_assoc]
    rfl
  have hbase : (b.query {}).vars = b.vars.eraseDups := by
    change List.eraseDups (b.vars ++ [] ++ [] ++ [] ++ [] ++ []) = _
    simp only [List.append_nil]
  exact ⟨_, by rw [hvars, hbase, List.eraseDups_append], rfl, rfl, rfl, rfl⟩

end Body

namespace Query.Widens

variable {q q' : Query} {extra : List Variable} {s : Solution}

/-- Free slots behind the others bind nothing. -/
theorem read_padded (h : q'.Widens q extra) (hs : s.Fits q) (v : Variable) :
    q'.read v (s.padded extra.length) = q.read v s :=
  h.carries.read_carried (fun _ => hs) v

end Query.Widens

/-! ### Solutions of a body -/

namespace Context

variable {c : Context} {raw : Solutions} {r : Solution} {x : Variable}

/-- Whether a solution is as a body makes it: it has no keys, one slot for each variable, canonical
terms, and no term for a variable that the body does not speak of. -/
structure Found (c : Context) (r : Solution) : Prop where
  bare : r = { slots := r.slots }
  fits : r.Fits c.query
  canonical : Canonical r.slots
  free : ∀ v, v ∉ c.query.body.vars → c.query.read v r = none

theorem found_of_mem_rawSolutions (hv : c.source.store.Valid) (h : c.rawSolutions.outcome = .ok raw)
    (hr : r ∈ raw.rows) : c.Found r := by
  have hcanonical := canonical_of_rawSolutions hv h hr
  obtain ⟨e, he, rfl⟩ := exists_of_mem_rawSolutions h hr
  have hkept := keepsToBody_of_trace he
  exact ⟨rfl, hkept.length, hcanonical, hkept.free⟩

namespace Found

variable {s : Solution}

theorem canonical_read (hr : c.Found r) {t : Term} (ht : c.query.read x r = some t) :
    t.IsCanonical := by
  obtain ⟨i, -, hi⟩ := Option.bind_eq_some_iff.mp ht
  exact hr.canonical t (List.mem_of_getElem? (Option.join_eq_some_iff.mp hi))

/-- Solutions are told apart by the variables of the body. -/
theorem slots_eq (hr : c.Found r) (hs : c.Found s)
    (h : ∀ v ∈ c.query.body.vars, c.query.read v r = c.query.read v s) : r.slots = s.slots := by
  refine Query.slots_eq_of_read hr.fits hs.fits fun v => ?_
  by_cases hv : v ∈ c.query.body.vars
  · exact h v hv
  · rw [hr.free v hv, hs.free v hv]

end Found

/-- The values of a variable, row by row. -/
def column (c : Context) (rows : List Solution) (x : Variable) : List (Option Term) :=
  rows.map (c.query.read x)

theorem canonical_column {rows : List Solution} (hrows : ∀ r ∈ rows, c.Found r) (x : Variable) :
    Canonical (c.column rows x) := fun t ht => by
  obtain ⟨r, hr, ht⟩ := List.mem_map.mp ht
  exact (hrows r hr).canonical_read ht


/-! ### Steps of an evaluation -/

theorem selectRows_of_nil (h : c.query.select = []) (rows : Solutions) :
    c.selectRows rows = pure rows := by
  rw [selectRows, h]
  rfl

/-- Completion adds keys to the rows that are left. -/
theorem complete_of_keys {selected : Solutions} (unique : Solutions) {f : Solution → Solution}
    (hselected : c.selectRows raw = pure selected)
    (hunique : (if c.query.distinct && !c.query.isAggregate then selected.resubmit else selected) =
      unique)
    (hkeys : ∀ i, ∀ r ∈ unique.rows, c.keys r none i = pure (f r)) :
    c.complete raw = pure { unique with rows := unique.rows.map f } := by
  rw [complete, hselected, pure_bind]
  dsimp only
  rw [hunique, Run.mapIdx_pure hkeys, pure_bind]

/-- Without anything to sort or group by, a solution is left as it is. -/
theorem keys_of_found (horder : c.query.orderBy = []) (hgroup : c.query.groupBy = [])
    (hr : c.Found r) (group : Option (List Solution)) (row : Nat) :
    c.keys r group row = pure (id r) := by
  rw [hr.bare]
  simp [keys, horder, hgroup, Run.mapIdx]

theorem evaluate_var (stage : Stage) (s : Solution) (group : Option (List Solution)) (row i : Nat)
    (x : Variable) :
    c.evaluate (.var x) (rowEnvironment stage row i s group) = pure (c.query.read x s) := by
  rw [evaluate, Expr.eval, Query.get_rowEnvironment]

/-- The key for a variable is its value. -/
theorem key_var (stage : Stage) (s : Solution) (group : Option (List Solution)) (row i : Nat) :
    c.key stage s group row i (.var x) = pure (c.query.read x s) := by
  have hread : ((Expr.var x).asVariable.bind c.query.slot?).bind s.get? = c.query.read x s := rfl
  unfold key
  rw [hread]
  cases hx : c.query.read x s with
  | some t => rfl
  | none =>
    dsimp only
    rw [Expr.isAggregate, Bool.and_false, if_neg Bool.false_ne_true, evaluate_var, hx, pure_bind]
    rfl

/-- Groups that all come to a row. -/
theorem grouped_of_groupRow (rows : Solutions) {f : List Solution → Solution}
    (hplain : rows.distinct = false)
    (hrow : ∀ i, ∀ group ∈ c.groups rows.rows, c.groupRow i group = pure (some (f group))) :
    c.grouped rows = pure { rows.clear with rows := (c.groups rows.rows).map f } := by
  have hclear : rows.clear.distinct = false := hplain
  have hkept : ((c.groups rows.rows).map fun group => some (f group)).filterMap id =
      (c.groups rows.rows).map f := by
    rw [List.filterMap_map]
    exact congrFun List.filterMap_eq_map' _
  unfold grouped
  dsimp only
  rw [groups_eq, Run.mapIdx_pure hrow, pure_bind, submitAll_of_plain hclear, hkept]
  rfl

/-! ### Rows and groups -/

section Answers

variable (horder : c.query.orderBy = []) (hoffset : c.query.offset = 0)
  (hlimit : c.query.limit = none) (h : c.rawSolutions.outcome = .ok raw)

include horder hoffset hlimit h

/-- Solutions of which nothing is made are the rows, each projection once in a distinct query. -/
theorem answer_of_rows (hraw : ∀ r ∈ raw.rows, c.Found r) (hselect : c.query.select = [])
    (hagg : c.query.isAggregate = false) :
    c.answer.outcome = .ok (if c.query.distinct then raw.resubmit else raw) := by
  have hgroup : c.query.groupBy = [] := by simp_all [Query.isAggregate]
  set unique := if c.query.distinct then raw.resubmit else raw with hunique
  have hfound : ∀ r ∈ unique.rows, c.Found r := by
    rw [hunique]
    split_ifs
    · exact fun r hr => hraw r ((Solutions.mem_of_mem_submitAll hr).resolve_left List.not_mem_nil)
    · exact hraw
  have hcomplete : c.complete raw = pure { unique with rows := unique.rows.map id } :=
    complete_of_keys unique (selectRows_of_nil hselect raw)
      (by rw [hagg, Bool.not_false, Bool.and_true]) fun i r hr =>
        keys_of_found horder hgroup (hfound r hr) none i
  rw [answer_of_uncut horder hoffset hlimit, Run.outcome_bind_of_ok h, hcomplete, pure_bind, hagg,
    if_neg Bool.false_ne_true, List.map_id]
  rfl

/-- Groups by a variable are as many as its distinct values. -/
theorem answer_of_groups (hselect : c.query.select = []) (hhaving : c.query.having = [])
    (hgroup : c.query.groupBy = [.var x]) (hdistinct : c.query.distinct = false)
    (hplain : raw.distinct = false) : ∃ ans, c.answer.outcome = .ok ans ∧
      ans.rows.length = (c.column raw.rows x).eraseDups.length := by
  let keyed (s : Solution) : Solution :=
    { s with orderKeys := [], groupKeys := [c.query.read x s] }
  have hkeys : ∀ s group row, c.keys s group row = pure (keyed s) := fun s group row => by
    unfold keys
    rw [horder, hgroup]
    simp only [Run.mapIdx, pure_bind, key_var]
    rfl
  have hcomplete : c.complete raw = pure { raw with rows := raw.rows.map keyed } :=
    complete_of_keys raw (selectRows_of_nil hselect raw)
      (by rw [hdistinct, Bool.false_and, if_neg Bool.false_ne_true]) fun i s _ => hkeys s none i
  have hrow : ∀ i group, c.groupRow i group =
      pure (some (keyed (group.head?.getD (.unbound c.query.vars.length)))) := fun i group => by
    unfold groupRow select
    rw [hselect, hhaving]
    simp only [selectFrom, admits, pure_bind, hkeys, if_true]
  have hgroups : (c.groups (raw.rows.map keyed)).length =
      (c.column raw.rows x).eraseDups.length := by
    have hkeyed : (raw.rows.map keyed).map (·.groupKeys) =
        (c.column raw.rows x).map fun t => [t] := by
      rw [column, List.map_map, List.map_map]
      rfl
    rw [← groups_eq, hgroup, groupsOf_eq, hkeyed,
      eraseDups_map_of_injOn fun _ _ _ _ h => List.head_eq_of_cons_eq h]
    simp
  have hagg : c.query.isAggregate = true := by simp [Query.isAggregate, hgroup]
  rw [answer_of_uncut horder hoffset hlimit, Run.outcome_bind_of_ok h, hcomplete, pure_bind, hagg,
    if_pos rfl, grouped_of_groupRow { raw with rows := raw.rows.map keyed } hplain
      fun i group _ => hrow i group]
  exact ⟨_, rfl, (List.length_map _).trans hgroups⟩

end Answers

/-! ### Counts -/

/-- The number of values of a variable, or of its distinct values. -/
theorem evaluate_count_var (env : Environment) {group : List Solution}
    (hg : env.group = some group) (x : Variable) (distinct : Bool) :
    c.evaluate (.aggregate .count (some (.var x)) distinct) env =
      pure (SetFunction.count.apply distinct (c.column group x)) := by
  have hmembers : ∀ h : Hooks, Run.mapIdx (fun i s => (Expr.var x).eval c.toScope h
      (.ofSolution s none (i :: env.trail))) 0 group = pure (c.column group x) := fun h =>
    Run.mapIdx_pure (fun i s _ => by rw [Expr.eval, Environment.get_eq_binding rfl]; rfl) 0
  rw [evaluate, Expr.eval, hg]
  dsimp only [Expr.eval.evalAggregate]
  rw [hmembers, pure_bind]

/-- Aggregates wait for a group. -/
theorem selectFrom_of_aggregate {row i : Nat} {item : SelectItem} {items : List SelectItem}
    {s : Solution} (h : item.isAggregate = true) :
    c.selectFrom none row i (item :: items) s = c.selectFrom none row (i + 1) items s := by
  rw [selectFrom, if_pos (by simp [h])]

/-- A free column gets its value. -/
theorem selectFrom_of_pure {group : Option (List Solution)} {row i : Nat} {item : SelectItem}
    {items : List SelectItem} {s : Solution} {t : Option Term}
    (hg : group = none → item.isAggregate = false) (hv : item.target ∈ c.query.vars)
    (he : ∀ stage, c.evaluate item.expr (rowEnvironment stage row i s group) = pure t)
    (hs : c.query.read item.target s = none) :
    c.selectFrom group row i (item :: items) s = c.selectFrom group row (i + 1) items
      (t.elim s fun t => c.query.put item.target (some t.canonical) s) := by
  have hskip : (group.isNone && item.isAggregate) = false := by
    cases group with
    | none => simp [hg rfl]
    | some group => rfl
  rw [selectFrom_eq hv hskip]
  simp only [he, pure_bind, bindColumn, hs]
  cases t <;> rfl

/-- What stands for the group of all solutions, even if there are none, is as a solution. -/
theorem found_first {rows : List Solution} (hrows : ∀ r ∈ rows, c.Found r) :
    c.Found (c.first rows) := by
  cases rows with
  | nil => exact ⟨rfl, List.length_replicate, .replicate_none _,
      fun v _ => Environment.binding_initial c.query v⟩
  | cons r rows => exact hrows r List.mem_cons_self

/-- Whether a query asks for a count. It is computed under a name of its own, and renamed; the body
speaks of neither name. -/
structure AsksForCount (c : Context) (g n : Variable) (argument : Option Expr) (distinct : Bool) :
    Prop where
  select : c.query.select = [⟨g, .aggregate .count argument distinct⟩, ⟨n, .var g⟩]
  groupBy : c.query.groupBy = []
  having : c.query.having = []
  orderBy : c.query.orderBy = []
  distinct : c.query.distinct = false
  offset : c.query.offset = 0
  limit : c.query.limit = none
  computed : g ∉ c.query.body.vars
  renamed : n ∉ c.query.body.vars
  ne : n ≠ g

namespace AsksForCount

variable {g n : Variable} {argument : Option Expr} {distinct : Bool} {t : Term}
  (hc : c.AsksForCount g n argument distinct) (hraw : ∀ r ∈ raw.rows, c.Found r)

include hc

theorem computed_mem : g ∈ c.query.vars := Query.target_mem (hc.select ▸ List.mem_cons_self)

theorem renamed_mem : n ∈ c.query.vars :=
  Query.target_mem (hc.select ▸ List.mem_cons_of_mem _ List.mem_cons_self)

theorem isAggregate : c.query.isAggregate = true := by
  simp [Query.isAggregate, hc.select, SelectItem.isAggregate, Expr.isAggregate]

include hraw

/-- Beside a solution the count is left out, so that there is nothing to rename. -/
theorem complete_eq : c.complete raw = pure { raw.clear with rows := raw.rows } := by
  have hrow : ∀ i, ∀ r ∈ raw.rows, c.select r none i = pure (some r) := fun i r hr => by
    have hfound := hraw r hr
    have hcount : SelectItem.isAggregate ⟨g, .aggregate .count argument distinct⟩ = true := rfl
    rw [Context.select, hc.select, selectFrom_of_aggregate hcount,
      selectFrom_of_pure (fun _ => rfl) hc.renamed_mem
        (fun stage => evaluate_var stage r none i 1 g) (hfound.free n hc.renamed),
      hfound.free g hc.computed]
    rfl
  have hkept : (raw.rows.map some).filterMap id = raw.rows := by
    rw [List.filterMap_map]
    exact List.filterMap_some
  have hselected : c.selectRows raw = pure { raw.clear with rows := raw.rows } := by
    rw [selectRows, hc.select, Run.mapIdx_pure hrow, pure_bind, hkept]
    rfl
  have hcomplete : c.complete raw = pure { raw.clear with rows := raw.rows.map id } :=
    complete_of_keys { raw.clear with rows := raw.rows } hselected
      (by rw [hc.distinct, Bool.false_and, if_neg Bool.false_ne_true]) fun i r hr =>
        keys_of_found hc.orderBy hc.groupBy (hraw r hr) none i
  rw [hcomplete, List.map_id]

/-- The row of all solutions has the count under both names. -/
theorem exists_groupRow (ht : t.IsCanonical)
    (hvalue : ∀ env : Environment, env.group = some raw.rows →
      c.evaluate (.aggregate .count argument distinct) env = pure (some t)) :
    ∃ row, (∀ i, c.groupRow i raw.rows = pure (some row)) ∧ c.query.read n row = some t := by
  have hfirst := found_first hraw
  have hgroup : ∀ item : SelectItem, some raw.rows = none → item.isAggregate = false :=
    fun _ h => nomatch h
  let counted : Solution := c.query.put g (some t) (c.first raw.rows)
  have hcounted : counted.Fits c.query := Query.fits_put hfirst.fits
  have hread : c.query.read g counted = some t := by
    rw [Query.read_put hc.computed_mem, if_pos rfl]
  have hfree : c.query.read n counted = none := by
    rw [Query.read_put hc.computed_mem, if_neg hc.ne, hfirst.free n hc.renamed]
  have hrenamed : c.query.read n (c.query.put n (some t) counted) = some t := by
    rw [Query.read_put hc.renamed_mem, if_pos rfl]
  refine ⟨{ c.query.put n (some t) counted with orderKeys := [], groupKeys := [] }, fun i => ?_,
    hrenamed⟩
  have hselect : c.select (c.first raw.rows) (some raw.rows) i =
      pure (some (c.query.put n (some t) counted)) := by
    rw [Context.select, hc.select, selectFrom_of_pure (hgroup _) hc.computed_mem
      (fun stage => hvalue _ rfl) (hfirst.free g hc.computed), Option.elim_some, ht,
      selectFrom_of_pure (hgroup _) hc.renamed_mem
        (fun stage => evaluate_var stage counted _ i 1 g) hfree, hread, Option.elim_some, ht]
    rfl
  unfold groupRow
  rw [← first, hc.having]
  simp only [hselect, admits, keys, hc.orderBy, hc.groupBy, Run.mapIdx, pure_bind, if_true]

/-- The count makes up the only row. -/
theorem exists_answer (h : c.rawSolutions.outcome = .ok raw) (hplain : raw.distinct = false)
    (ht : t.IsCanonical)
    (hvalue : ∀ env : Environment, env.group = some raw.rows →
      c.evaluate (.aggregate .count argument distinct) env = pure (some t)) :
    ∃ ans, c.answer.outcome = .ok ans ∧ ans.vars = raw.vars ∧ c.column ans.rows n = [some t] := by
  obtain ⟨row, hrow, hread⟩ := hc.exists_groupRow hraw ht hvalue
  have hgroups : c.groups raw.rows = [raw.rows] := by
    rw [← groups_eq, hc.groupBy]
    rfl
  have hgrouped : c.grouped { raw.clear with rows := raw.rows } =
      pure { raw.clear with rows := (c.groups raw.rows).map fun _ => row } :=
    grouped_of_groupRow { raw.clear with rows := raw.rows } hplain fun i group hm => by
      rw [hgroups, List.mem_singleton] at hm
      rw [hm, hrow]
  rw [answer_of_uncut hc.orderBy hc.offset hc.limit, Run.outcome_bind_of_ok h,
    hc.complete_eq hraw, pure_bind, hc.isAggregate, if_pos rfl, hgrouped, hgroups]
  exact ⟨_, rfl, rfl, congrArg (fun u => [u]) hread⟩

end AsksForCount

/-! ### Distinct rows -/

/-- The rows of a query that projects to one variable have its distinct values. -/
theorem column_resubmit (hdistinct : c.query.distinct = true) (hx : x ∈ c.query.vars)
    (hproject : c.query.projection = [x]) (rows : List Solution) :
    c.column (Solutions.resubmit { Solutions.ofQuery c.query with rows }).rows x =
      (c.column rows x).eraseDups := by
  obtain ⟨i, hi⟩ := Query.exists_slot hx
  have hslots : c.query.projectedSlots = [i] := by
    rw [Query.projectedSlots, hproject, List.filterMap_cons, hi]
    rfl
  have hread : c.query.read x = fun r => r.get? i := funext fun r => by rw [Query.read, hi]; rfl
  have halike : Solutions.projectAlike { Solutions.ofQuery c.query with rows } =
      fun a b => c.query.read x a == c.query.read x b := by
    funext a b
    have hprojection : Solutions.projectAlike { Solutions.ofQuery c.query with rows } a b =
        (a.restrict c.query.projectedSlots == b.restrict c.query.projectedSlots) := rfl
    rw [hprojection, hslots, hread]
    simp [Solution.restrict]
  rw [Solutions.rows_resubmit hdistinct, halike, column, map_eraseDupsBy]
  rfl

/-- The rows of a query that projects to all variables of the body are its distinct solutions. -/
theorem length_resubmit (hdistinct : c.query.distinct = true)
    (hproject : ∀ v ∈ c.query.body.vars, v ∈ c.query.projection) {rows : List Solution}
    (hrows : ∀ r ∈ rows, c.Found r) :
    (Solutions.resubmit { Solutions.ofQuery c.query with rows }).rows.length =
      (rows.map (·.slots)).eraseDups.length := by
  have halike : ∀ a ∈ rows, ∀ b ∈ rows,
      Solutions.projectAlike { Solutions.ofQuery c.query with rows } a b = (a.slots == b.slots) :=
    fun a ha b hb => by
      have hprojection : Solutions.projectAlike { Solutions.ofQuery c.query with rows } a b =
          (a.restrict c.query.projectedSlots == b.restrict c.query.projectedSlots) := rfl
      rw [hprojection, Bool.eq_iff_iff, beq_iff_eq, beq_iff_eq]
      refine ⟨fun h => (hrows a ha).slots_eq (hrows b hb) fun v hv => ?_,
        fun h => Solution.restrict_of_slots h _⟩
      obtain ⟨i, hi⟩ := Query.exists_slot (Query.mem_vars_of_body hv)
      rw [Query.read, Query.read, hi]
      exact List.map_inj_left.mp h i (List.mem_filterMap.mpr ⟨v, hproject v hv, hi⟩)
  rw [Solutions.rows_resubmit hdistinct, eraseDupsBy_congr_mem halike,
    ← List.length_map (fun r : Solution => r.slots), map_eraseDupsBy]

end Context

/-! ### Counting in several ways -/

/-- The values of a variable in a sequence of solutions. -/
def Solutions.column (s : Solutions) (v : Variable) : List (Option Term) :=
  s.rows.map fun r => (s.vars.idxOf? v).bind r.get?

theorem Solutions.length_column (s : Solutions) (v : Variable) :
    (s.column v).length = s.rows.length := List.length_map _

/-- A query for a count, which is computed for `g` and renamed to `n`. -/
def QueryParts.counting (g n : Variable) (argument : Option Expr) (distinct : Bool) : QueryParts :=
  { project := some [n], select := [⟨g, .aggregate .count argument distinct⟩, ⟨n, .var g⟩] }

section Lowering

variable {inner : Algebra} {body : Pattern} {s : Lowering} {site : Nat}

theorem AlgebraQuery.lower_of_layers {pattern : Algebra} {l : Layers} {p : QueryParts}
    (hlayers : pattern.layers = l) (h : l.lower { sites := site } = .ok (p, s))
    (fromDefault fromNamed : List Iri) :
    lower { form := .select, fromDefault, fromNamed, pattern } site = .ok (.ofParts { p with
      patterns := s.patterns, fromDefault := fromDefault.map .iri
      fromNamed := fromNamed.map .iri }) := by
  have hrun : StateT.run (parts { form := .select, fromDefault, fromNamed, pattern })
      { sites := site } = .ok (p, s) := by
    rw [parts, hlayers]
    exact h
  rw [lower, hrun]
  rfl

/-- Without any column on it, a pattern is a body as a whole. -/
theorem Algebra.splitColumns_of_nil {a : Algebra} {vs : List Variable}
    (h : (a.splitColumns vs).1 = []) : a.splitColumns vs = ([], a) := by
  cases a with
  | extend inner v e =>
    rw [splitColumns] at h ⊢
    split_ifs at h ⊢
    rfl
  | _ => rfl

variable (h : inner.lower { sites := site } = .ok (body, s))

include h

theorem Layers.lower_rows (vs : List Variable) (distinct : Bool) :
    lower { distinct, projection := some vs, body := inner } { sites := site } =
      .ok ({ body, project := some vs, distinct }, s) := by
  simp only [lower, List.mapM_nil, lowerCondition, pure_bind]
  change (inner.lower { sites := site }).bind _ = _
  rw [h]
  rfl

theorem Layers.lower_groups (x : Variable) :
    lower { projection := some [x], groupBy := [x], body := inner } { sites := site } =
      .ok ({ body, project := some [x], groupBy := [.var x] }, s) := by
  simp only [lower, List.mapM_nil, lowerCondition, pure_bind]
  change (inner.lower { sites := site }).bind _ = _
  rw [h]
  rfl

theorem Layers.lower_counting {a : AlgebraAggregate} {argument : Option Expr} {distinct : Bool}
    (ha : a.lower { sites := site } = .ok (.aggregate .count argument distinct, { sites := site }))
    (g n : Variable) :
    lower
      { projection := some [n], columns := [(n, .var g)], aggregates := [(g, a)], body := inner }
      { sites := site } = .ok ({ QueryParts.counting g n argument distinct with body }, s) := by
  simp only [lower, List.mapM_cons, List.mapM_nil, AlgebraExpr.lower, lowerCondition, pure_bind,
    bind_assoc, map_pure, bind_map_left]
  change (a.lower { sites := site }).bind _ = _
  rw [ha]
  change (inner.lower { sites := site }).bind _ = _
  rw [h]
  rfl

/-- Queries over one body, as they are written: for some of its variables, if none of them is a
column, for the groups by one of them, for the number of solutions, and for the number of values. -/
theorem Body.lower_queries (hbody : inner.isBody = true) (fromDefault fromNamed : List Iri) :
    let b : Body := { body, patterns := s.patterns, fromDefault := fromDefault.map .iri
                      fromNamed := fromNamed.map .iri }
    let lower (a : Algebra) :=
      AlgebraQuery.lower { form := .select, fromDefault, fromNamed, pattern := a } site
    let count (a : AlgebraAggregate) (g n : Variable) : Algebra :=
      .project (.extend (.group inner [] [(g, a)]) n (.var g)) [n]
    (∀ vs distinct, (inner.splitColumns vs).1 = [] →
      lower (Modifiers.around { vars := vs, distinct } inner) =
        .ok (b.query { project := some vs, distinct })) ∧
    (∀ x, lower (.project (.group inner [x] []) [x]) =
      .ok (b.query { project := some [x], groupBy := [.var x] })) ∧
    (∀ g n distinct, lower (count (.solutions distinct) g n) =
      .ok (b.query (.counting g n none distinct))) ∧
    ∀ g n x distinct, lower (count (.apply .count (.var x) distinct) g n) =
      .ok (b.query (.counting g n (some (.var x)) distinct)) := by
  intro b lower count
  have hcount : ∀ {a : AlgebraAggregate} {argument : Option Expr} {distinct : Bool}
      (g n : Variable), a.lower { sites := site } = .ok (.aggregate .count argument distinct, { sites := site }) →
        lower (count a g n) = .ok (b.query (.counting g n argument distinct)) := by
    intro a argument distinct g n ha
    have hlayers : (count a g n).layers = { projection := some [n], columns := [(n, .var g)],
                                            aggregates := [(g, a)], body := inner } := by
      simp [count, Algebra.layers, Algebra.splitSlice, Algebra.splitDistinct,
        Algebra.splitProjection, Algebra.splitOrder, Algebra.splitColumns, Algebra.splitHaving,
        Algebra.splitGroup]
    exact AlgebraQuery.lower_of_layers hlayers (Layers.lower_counting h ha g n) _ _
  refine ⟨fun vs distinct hvs => ?_, fun x => ?_, fun g n distinct => hcount g n rfl,
    fun g n x distinct => hcount g n rfl⟩
  · have hlayers : (Modifiers.around { vars := vs, distinct } inner).layers =
        { distinct, projection := some vs, body := inner } := by
      rw [Modifiers.layers_around _ hbody, Algebra.splitColumns_of_nil hvs]
      rfl
    exact AlgebraQuery.lower_of_layers hlayers (Layers.lower_rows h vs distinct) _ _
  · have hlayers : (Algebra.project (.group inner [x] []) [x]).layers =
        { projection := some [x], groupBy := [x], body := inner } := rfl
    exact AlgebraQuery.lower_of_layers hlayers (Layers.lower_groups h x) _ _

end Lowering

namespace Processor

/-- Whether the answer to a query is one row, with a number for a variable. -/
def Counts (p : Processor) (q : Query) (n : Variable) (k : Nat) : Prop :=
  ∃ ans, (p.evaluate q).outcome = .ok ans ∧
    ∃ i : Int64, i.toInt = k ∧ ans.column n = [some (.literal (.ofInt64 i))]

variable {p : Processor} {b : Body} {raw : Solutions}

theorem rawSolutions_query (p : Processor) (b : Body) (parts : QueryParts) :
    ∃ extra, (b.query parts).Widens (b.query {}) extra ∧
      (p.context (b.query parts)).rawSolutions =
        (fun raw => { Solutions.ofQuery (b.query parts) with
          rows := raw.rows.map (·.padded extra.length) }) <$>
            (p.context (b.query {})).rawSolutions := by
  obtain ⟨extra, hq⟩ := b.exists_widens parts
  exact ⟨extra, hq, Context.rawSolutions_padded (c := p.context (b.query {})) hq rfl⟩

/-- Whatever is asked for, the solutions are those of the body. -/
theorem exists_rawSolutions (hv : p.source.store.Valid)
    (h : (p.context (b.query {})).rawSolutions.outcome = .ok raw) (parts : QueryParts) :
    ∃ rows, (p.context (b.query parts)).rawSolutions.outcome =
        .ok { Solutions.ofQuery (b.query parts) with rows } ∧
      (∀ r ∈ rows, (p.context (b.query parts)).Found r) ∧
      (∀ v, (p.context (b.query parts)).column rows v =
        (p.context (b.query {})).column raw.rows v) ∧
      (rows.map (·.slots)).eraseDups.length = (raw.rows.map (·.slots)).eraseDups.length := by
  obtain ⟨extra, hq, hruns⟩ := p.rawSolutions_query b parts
  have hrun : (p.context (b.query parts)).rawSolutions.outcome = .ok
      { Solutions.ofQuery (b.query parts) with rows := raw.rows.map (·.padded extra.length) } := by
    rw [hruns, Run.outcome_map, h]
    rfl
  refine ⟨raw.rows.map (·.padded extra.length), hrun,
    fun r hr => Context.found_of_mem_rawSolutions hv hrun hr, fun v => ?_, ?_⟩
  · rw [Context.column, List.map_map]
    exact List.map_congr_left fun r hr =>
      hq.read_padded (Context.found_of_mem_rawSolutions hv h hr).fits v
  · have hslots : (raw.rows.map (·.padded extra.length)).map (·.slots) =
        (raw.rows.map (·.slots)).map (· ++ List.replicate extra.length none) := by
      rw [List.map_map, List.map_map]
      rfl
    rw [hslots, eraseDups_map_of_injOn fun _ _ _ _ h => List.append_left_injective _ h,
      List.length_map]

section Ways

variable (hv : p.source.store.Valid) (h : (p.context (b.query {})).rawSolutions.outcome = .ok raw)
  {x g n : Variable}

include hv h

theorem exists_rows (x : Variable) : ∃ rows,
    (p.evaluate (b.query { project := some [x] })).outcome = .ok rows ∧
      rows.column x = (p.context (b.query {})).column raw.rows x := by
  obtain ⟨rows, hrows, hfound, hcolumn, -⟩ := exists_rawSolutions hv h { project := some [x] }
  exact ⟨_, Context.answer_of_rows rfl rfl rfl hrows hfound rfl rfl, hcolumn x⟩

theorem exists_distinct_values (x : Variable) : ∃ unique,
    (p.evaluate (b.query { project := some [x], distinct := true })).outcome = .ok unique ∧
      unique.column x = ((p.context (b.query {})).column raw.rows x).eraseDups := by
  obtain ⟨rows, hrows, hfound, hcolumn, -⟩ :=
    exists_rawSolutions hv h { project := some [x], distinct := true }
  refine ⟨Solutions.resubmit _, Context.answer_of_rows rfl rfl rfl hrows hfound rfl rfl, ?_⟩
  have hdeclared : x ∈ (b.query { project := some [x], distinct := true }).vars :=
    Query.mem_vars_of_projection List.mem_cons_self
  rw [Solutions.column, Solutions.vars_resubmit, ← hcolumn]
  exact Context.column_resubmit (c := p.context (b.query { project := some [x], distinct := true }))
    rfl hdeclared rfl rows

theorem exists_distinct_rows {vs : List Variable} (hvs : ∀ v ∈ b.body.vars, v ∈ vs) : ∃ all,
    (p.evaluate (b.query { project := some vs, distinct := true })).outcome = .ok all ∧
      all.rows.length = (raw.rows.map (·.slots)).eraseDups.length := by
  obtain ⟨rows, hrows, hfound, -, hslots⟩ :=
    exists_rawSolutions hv h { project := some vs, distinct := true }
  refine ⟨_, Context.answer_of_rows rfl rfl rfl hrows hfound rfl rfl, ?_⟩
  rw [← hslots]
  exact Context.length_resubmit rfl hvs hfound

theorem exists_groups (x : Variable) : ∃ groups,
    (p.evaluate (b.query { project := some [x], groupBy := [.var x] })).outcome = .ok groups ∧
      groups.rows.length = ((p.context (b.query {})).column raw.rows x).eraseDups.length := by
  obtain ⟨rows, hrows, -, hcolumn, -⟩ :=
    exists_rawSolutions hv h { project := some [x], groupBy := [.var x] }
  rw [← hcolumn]
  exact Context.answer_of_groups rfl rfl rfl hrows rfl rfl rfl rfl rfl

/-- A count is answered, if it comes to a number that fits for all ways to write the solutions. -/
theorem counts_of_evaluate (hg : g ∉ b.body.vars) (hn : n ∉ b.body.vars) (hne : n ≠ g) {k : Nat}
    (hk : k < 2 ^ 63) {argument : Option Expr} {distinct : Bool}
    (hvalue : ∀ (c : Context) (rows : List Solution) (env : Environment),
      (∀ r ∈ rows, c.Found r) →
      (∀ v, c.column rows v = (p.context (b.query {})).column raw.rows v) →
      (rows.map (·.slots)).eraseDups.length = (raw.rows.map (·.slots)).eraseDups.length →
      env.group = some rows → c.evaluate (.aggregate .count argument distinct) env =
        pure ((Integer.ofInt? k).map fun i => .literal (.ofInt64 i))) :
    p.Counts (b.query (.counting g n argument distinct)) n k := by
  obtain ⟨rows, hrows, hfound, hcolumn, hslots⟩ :=
    exists_rawSolutions hv h (.counting g n argument distinct)
  obtain ⟨i, hi, hcount⟩ := Integer.ofInt_length hk
  have hc : (p.context (b.query (.counting g n argument distinct))).AsksForCount g n argument
      distinct :=
    { select := rfl, groupBy := rfl, having := rfl, orderBy := rfl, distinct := rfl, offset := rfl
      limit := rfl, computed := hg, renamed := hn, ne := hne }
  obtain ⟨ans, hans, hvars, hanswer⟩ := hc.exists_answer hfound hrows rfl
    (Term.isCanonical_ofInt64 i) fun env he => by
      rw [hvalue _ _ env hfound hcolumn hslots he, hi]
      rfl
  refine ⟨ans, hans, i, hcount, ?_⟩
  rw [Solutions.column, hvars]
  exact hanswer

end Ways

/-- All ways of counting over one body agree. The number of solutions is the number of rows; the
number of values of a variable is the number of rows that have one; and what is counted once is
what distinct rows have, be they projected to the variable or to all variables of the body. Groups
by a variable are as many as its distinct rows. If the rows have an answer and are not too many to
be counted, all these queries have an answer. -/
theorem counts_agree (p : Processor) {entailment : Bool} {history : List Insertion}
    (hstore : p.source.store = .after entailment history) (b : Body) {x g n : Variable}
    {vs : List Variable} (hvs : ∀ v, v ∈ vs ↔ v ∈ b.body.vars) (hg : g ∉ b.body.vars)
    (hn : n ∉ b.body.vars) (hne : n ≠ g) {rows : Solutions}
    (h : (p.evaluate (b.query { project := some [x] })).outcome = .ok rows)
    (hsize : rows.rows.length < 2 ^ 63) :
    ∃ unique all groups : Solutions,
      (p.evaluate (b.query { project := some [x], distinct := true })).outcome = .ok unique ∧
      (p.evaluate (b.query { project := some vs, distinct := true })).outcome = .ok all ∧
      (p.evaluate (b.query { project := some [x], groupBy := [.var x] })).outcome = .ok groups ∧
      p.Counts (b.query (.counting g n none false)) n rows.rows.length ∧
      p.Counts (b.query (.counting g n (some (.var x)) false)) n
        ((rows.column x).countP (·.isSome)) ∧
      p.Counts (b.query (.counting g n (some (.var x)) true)) n
        ((unique.column x).countP (·.isSome)) ∧
      p.Counts (b.query (.counting g n none true)) n all.rows.length ∧
      groups.rows.length = unique.rows.length := by
  have hv : p.source.store.Valid := hstore ▸ (Store.contains_after entailment history).valid
  obtain ⟨raw, hraw⟩ : ∃ raw, (p.context (b.query {})).rawSolutions.outcome = .ok raw := by
    obtain ⟨raw', hraw', -⟩ := Run.outcome_bind_eq_ok h
    obtain ⟨extra, -, hruns⟩ := p.rawSolutions_query b { project := some [x] }
    have hrun : (p.context (b.query { project := some [x] })).rawSolutions.outcome = .ok raw' :=
      hraw'
    rw [hruns] at hrun
    obtain ⟨raw, hraw, -⟩ := Run.outcome_map_eq_ok hrun
    exact ⟨raw, hraw⟩
  obtain ⟨rows', hrows, hcolumn⟩ := exists_rows hv hraw x
  obtain rfl : rows = rows' := Except.ok.inj (h.symm.trans hrows)
  obtain ⟨unique, hunique, hvalues⟩ := exists_distinct_values hv hraw x
  obtain ⟨all, hall, hlength⟩ := exists_distinct_rows hv hraw fun v => (hvs v).mpr
  obtain ⟨groups, hgroups, hkeys⟩ := exists_groups hv hraw x
  set col := (p.context (b.query {})).column raw.rows x
  have hcol : rows.rows.length = col.length := by rw [← hcolumn, rows.length_column]
  have hraw_length : raw.rows.length = col.length := (List.length_map _).symm
  have hvalue : ∀ distinct, p.Counts (b.query (.counting g n (some (.var x)) distinct)) n
      ((if distinct then col.eraseDups else col).countP (·.isSome)) := fun distinct => by
    have hsmall : (if distinct then col.eraseDups else col).length ≤ col.length := by
      split_ifs
      · exact (eraseDupsBy_sublist _ col).length_le
      · exact le_rfl
    refine counts_of_evaluate hv hraw hg hn hne (List.countP_le_length.trans_lt (by omega))
      fun c found env hfound hread _ he => ?_
    rw [Context.evaluate_count_var env he,
      SetFunction.apply_count_canonical (Context.canonical_column hfound x), hread]
  refine ⟨unique, all, groups, hunique, hall, hgroups, ?_, hcolumn ▸ hvalue false,
    hvalues ▸ hvalue true, ?_, ?_⟩
  · refine counts_of_evaluate hv hraw hg hn hne hsize fun c found env _ hread _ he => ?_
    have hfound : found.length = rows.rows.length := by
      rw [hcol, ← List.length_map (c.query.read x)]
      exact congrArg List.length (hread x)
    rw [Context.evaluate_count env he, if_neg Bool.false_ne_true, hfound]
  · have hsmall : (raw.rows.map (·.slots)).eraseDups.length ≤ raw.rows.length :=
      (eraseDupsBy_sublist _ _).length_le.trans (List.length_map _).le
    rw [hlength]
    refine counts_of_evaluate hv hraw hg hn hne (by omega) fun c found env _ _ hslots he => ?_
    rw [Context.evaluate_count env he, if_pos rfl, hslots]
  · rw [hkeys, ← hvalues, unique.length_column]

/-- Four solutions, one of them twice, and one of them without a value. The values are two ways to
write one number. -/
theorem counts_agree_of_four :
    let number (text : String) : Option Term := some (.literal (.typed text Iri.xsdInteger))
    let x : Variable := ⟨"x"⟩
    let y : Variable := ⟨"y"⟩
    let g : Variable := ⟨"#0"⟩
    let n : Variable := ⟨"n"⟩
    let found := [[number "1", number "2"], [none, number "2"], [number "01", number "2"],
      [number "1", number "3"]]
    let b : Body := { body := .values [x, y] found }
    let p : Processor := { source := { store := .after false [] } }
    (∀ v, v ∈ [x, y] ↔ v ∈ b.body.vars) ∧ g ∉ b.body.vars ∧ n ∉ b.body.vars ∧ n ≠ g ∧
    ∃ rows unique all groups : Solutions,
      (p.evaluate (b.query { project := some [x] })).outcome = .ok rows ∧
      rows.column x = [number "1", none, number "1", number "1"] ∧
      (p.evaluate (b.query { project := some [x], distinct := true })).outcome = .ok unique ∧
      unique.column x = [number "1", none] ∧
      (p.evaluate (b.query { project := some [x, y], distinct := true })).outcome = .ok all ∧
      all.rows.length = 3 ∧
      (p.evaluate (b.query { project := some [x], groupBy := [.var x] })).outcome = .ok groups ∧
      groups.rows.length = 2 ∧
      p.Counts (b.query (.counting g n none false)) n 4 ∧
      p.Counts (b.query (.counting g n (some (.var x)) false)) n 3 ∧
      p.Counts (b.query (.counting g n (some (.var x)) true)) n 1 ∧
      p.Counts (b.query (.counting g n none true)) n 3 := by
  intro number x y g n found b p
  have hvs : ∀ v, v ∈ [x, y] ↔ v ∈ b.body.vars := fun v => by
    rw [Pattern.vars]
  have hg : g ∉ b.body.vars := by decide +kernel
  have hn : n ∉ b.body.vars := by decide +kernel
  have hne : n ≠ g := by decide
  have hrows : (p.evaluate (b.query { project := some [x] })).outcome.toOption.map
      (fun rows => (rows.rows.length, rows.column x)) =
        some (4, [number "1", none, number "1", number "1"]) := by decide +kernel
  have hunique : (p.evaluate (b.query
      { project := some [x], distinct := true })).outcome.toOption.map (·.column x) =
        some [number "1", none] := by decide +kernel
  have hall : (p.evaluate (b.query
      { project := some [x, y], distinct := true })).outcome.toOption.map (·.rows.length) =
        some 3 := by decide +kernel
  obtain ⟨rows, hans, hrows⟩ := exists_of_toOption hrows
  obtain ⟨hlength, hcolumn⟩ := Prod.mk.inj hrows
  obtain ⟨unique, all, groups, hunique', hall', hgroups, hsolutions, hvalues, hdistinct, hdifferent,
    hcount⟩ := counts_agree p rfl b hvs hg hn hne hans (by rw [hlength]; norm_num)
  rw [hunique'] at hunique
  rw [hall'] at hall
  have hunique : unique.column x = _ := Option.some.inj hunique
  have hall : all.rows.length = _ := Option.some.inj hall
  have htwo : unique.rows.length = 2 := by
    rw [← unique.length_column x, hunique]
    rfl
  rw [hlength] at hsolutions
  rw [hcolumn] at hvalues
  rw [hunique] at hdistinct
  rw [hall] at hdifferent
  exact ⟨hvs, hg, hn, hne, rows, unique, all, groups, hans, hcolumn, hunique', hunique, hall', hall,
    hgroups, hcount.trans htwo, hsolutions, hvalues, hdistinct, hdifferent⟩

end Processor

end GraphQuery
