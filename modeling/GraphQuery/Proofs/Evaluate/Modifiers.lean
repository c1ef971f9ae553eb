import GraphQuery.Processor
import GraphQuery.Proofs.Algebra.Modifiers
import GraphQuery.Proofs.Evaluate.Answer
import GraphQuery.Proofs.Evaluate.Trail
import GraphQuery.Proofs.Value.Order

/-! Solution modifiers. They are nested in the algebra, but evaluation applies them in an order of its
own: repetitions are left out before the rows are sorted, and not after it. This makes a difference
where rows that project to the same do not tie. -/

namespace GraphQuery

namespace Context

variable {c : Context} {vars : List Variable} {a : Algebra} {items : List SelectItem}
  {rows : List Solution} {s s' : Solution} {r : Option Solution} {e : Expr} {i row : Nat}

/-! ### Columns -/

/-- The value of an expression at a solution. -/
def valueAt (c : Context) (e : Expr) (s : Solution) : Option Term :=
  (c.evaluate e (.ofSolution s none [])).outcome.toOption.join.map Term.canonical

/-- A solution with one more column, unless it has another value there. -/
def extended (c : Context) (s : Solution) (item : SelectItem) : Option Solution :=
  match c.valueAt item.expr s, c.query.read item.target s with
  | none, _ => some s
  | some t, none => some (c.query.put item.target (some t) s)
  | some t, some u => if u = t then some s else none

/-- Whether some rows are the solutions of a pattern, in the order in which they are found. Outermost
extensions by projected variables are columns: the solutions of what they extend, each with the value
of an expression at it. What they are on is lowered and solved as a whole. -/
inductive SolutionsOf (c : Context) (vars : List Variable) :
    Algebra → List SelectItem → List Solution → Prop
  | body {a : Algebra} {rows : List Solution}
    (ha : ∀ inner v e, a = .extend inner v e → v ∉ vars)
    (hp : a.lower.Makes c.query.patterns c.query.body)
    (h : (c.solutions c.query.body (.initial c.query) none).outcome = .ok rows) :
    SolutionsOf c vars a [] rows
  | column {inner : Algebra} {v : Variable} {e : AlgebraExpr} {items : List SelectItem}
    {item : SelectItem} {rows : List Solution} (hv : v ∈ vars) (ht : item.target = v)
    (he : e.lower.Makes c.query.patterns item.expr) (h : SolutionsOf c vars inner items rows) :
    SolutionsOf c vars (.extend inner v e) (items ++ [item])
      (rows.filterMap (c.extended · item))

/-- The columns of a lowered pattern are computed one after the other. -/
theorem solutionsOf_of_splitColumns
    (hbody : (a.splitColumns vars).2.lower.Makes c.query.patterns c.query.body)
    (hcolumns : List.Forall₂
      (fun column item => item.target = column.1 ∧ column.2.lower.Makes c.query.patterns item.expr)
      (a.splitColumns vars).1 items)
    (h : (c.solutions c.query.body (.initial c.query) none).outcome = .ok rows) :
    c.SolutionsOf vars a items.reverse (rows.filterMap (items.reverse.foldlM c.extended)) := by
  induction a using Algebra.splitColumns.induct vars generalizing items with
  | case1 inner v e hv columns b hsplit ih =>
    rw [Algebra.splitColumns, if_pos hv] at hbody hcolumns
    cases hcolumns with
    | cons hitem hcolumns =>
      have hinner := ih hbody hcolumns
      rw [List.reverse_cons]
      simp only [List.foldlM_append, List.foldlM_cons, List.foldlM_nil, bind_pure]
      have hcolumn := SolutionsOf.column hv hitem.1 hitem.2 hinner
      rwa [List.filterMap_filterMap] at hcolumn
  | case2 inner v e hv =>
    rw [Algebra.splitColumns, if_neg hv] at hbody hcolumns
    cases hcolumns
    have hfold : [].reverse.foldlM c.extended = some := rfl
    rw [hfold, List.filterMap_some]
    exact .body (fun _ _ _ ha => by cases ha; exact hv) hbody h
  | case3 a ha =>
    rw [Algebra.splitColumns.eq_2 _ _ ha] at hbody hcolumns
    cases hcolumns
    have hfold : [].reverse.foldlM c.extended = some := rfl
    rw [hfold, List.filterMap_some]
    exact .body (fun inner v e he => (ha inner v e he).elim) hbody h

/-- The solutions of a pattern are those of the body, with the columns one after the other. -/
theorem SolutionsOf.eq {rows' : List Solution} (h : c.SolutionsOf vars a items rows)
    (h' : (c.solutions c.query.body (.initial c.query) none).outcome = .ok rows') :
    rows = rows'.filterMap (items.foldlM c.extended) := by
  induction h with
  | body _ _ h =>
    rw [← Except.ok.inj (h.symm.trans h')]
    exact List.filterMap_some.symm
  | column _ _ _ _ ih =>
    simp only [List.foldlM_append, List.foldlM_cons, List.foldlM_nil, bind_pure]
    rw [ih, List.filterMap_filterMap]
    rfl

/-! ### Keys -/

/-- What a solution is ordered by: the value of a bound variable, or of an expression. -/
def orderKey (c : Context) (e : Expr) (s : Solution) : Option Term :=
  (e.asVariable.bind (c.query.read · s)).or (c.valueAt e s)

/-- What a solution is ordered by, key by key. -/
def orderKeys (c : Context) (s : Solution) : List (Option Term) :=
  c.query.orderBy.map (c.orderKey ·.expr s)

def compareByKeys (c : Context) (s s' : Solution) : Ordering :=
  compareKeys c.query.orderBy (c.orderKeys s) (c.orderKeys s')

/-- The terms that a solution shows. -/
def project (c : Context) (s : Solution) : List (Option Term) := s.restrict c.query.projectedSlots

/-- Solutions are ordered by their keys if the terms of each key are ordered. -/
theorem totalOn_compareByKeys (h : ∀ k ∈ c.query.orderBy,
    TotalOn Term.sortOrder {t | ∃ s ∈ rows, c.orderKey k.expr s = some t}) :
    TotalOn c.compareByKeys {s | s ∈ rows} := by
  refine (totalOn_compareKeys c.query.orderBy (K := {ts | ∃ s ∈ rows, c.orderKeys s = ts}) ?_
    fun i => ?_).comap fun s hs => ⟨s, hs, rfl⟩
  · rintro _ ⟨s, -, rfl⟩
    exact List.length_map _
  · have hkey : ∀ s t, (c.orderKeys s)[i]? = some (some t) →
        ∃ k, c.query.orderBy[i]? = some k ∧ c.orderKey k.expr s = some t := fun s t hs => by
      rw [orderKeys, List.getElem?_map] at hs
      exact Option.map_eq_some_iff.mp hs
    rintro l m n ⟨_, ⟨s, hs, rfl⟩, hl⟩ ⟨_, ⟨s', hs', rfl⟩, hm⟩ ⟨_, ⟨s'', hs'', rfl⟩, hn⟩
    obtain ⟨k, hk, hl⟩ := hkey s _ hl
    obtain ⟨k', hk', hm⟩ := hkey s' _ hm
    obtain ⟨k'', hk'', hn⟩ := hkey s'' _ hn
    obtain rfl := Option.some.inj (hk.symm.trans hk')
    obtain rfl := Option.some.inj (hk.symm.trans hk'')
    exact Term.totalOn_iff_circleFree.mp (h k (List.mem_of_getElem? hk)) l m n ⟨s, hs, hl⟩
      ⟨s', hs', hm⟩ ⟨s'', hs'', hn⟩

/-- Keys that are no literals are ordered. -/
theorem totalOn_orderKey_of_rank
    (h : ∀ k ∈ c.query.orderBy, ∀ s ∈ rows, ∀ t ∈ c.orderKey k.expr s, t.rank ≠ 2) :
    ∀ k ∈ c.query.orderBy, TotalOn Term.sortOrder {t | ∃ s ∈ rows, c.orderKey k.expr s = some t} :=
  fun k hk => Term.totalOn_of_rank fun t ⟨s, hs, ht⟩ => h k hk s hs t ht

/-! ### What evaluation computes -/

section

variable (hsystem : ∀ target, ¬ c.ComesTo (.snapshot target))

include hsystem

theorem value_eq {stage : Stage} {t : Option Term} (he : ∀ r ∈ e.requests, c.ComesTo r)
    (h : (c.evaluate e (rowEnvironment stage row i s none)).outcome = .ok t) :
    c.valueAt e s = t.map Term.canonical := by
  have hrun : c.evaluate e (rowEnvironment stage row i s none) =
      c.evaluate e (.ofSolution s none []) :=
    evaluate_upToTrail c.closed_comesTo hsystem he rfl
  rw [valueAt, ← hrun, h]
  rfl

theorem outcome_selectFrom (hplain : ∀ item ∈ items, item.isAggregate = false)
    (hi : ∀ item ∈ items, ∀ r ∈ item.expr.requests, c.ComesTo r)
    (h : (c.selectFrom none row i items s).outcome = .ok r) : r = items.foldlM c.extended s := by
  induction items generalizing i s with
  | nil => exact (Except.ok.inj h).symm
  | cons item items ih =>
    obtain ⟨hitem, hplain⟩ := List.forall_mem_cons.mp hplain
    obtain ⟨he, hi⟩ := List.forall_mem_cons.mp hi
    rw [selectFrom, hitem, Bool.and_false, if_neg Bool.false_ne_true] at h
    cases hslot : c.query.slot? item.target with
    | none =>
      rw [hslot] at h
      cases h
    | some slot =>
      simp only [hslot] at h
      obtain ⟨t, ht, h⟩ := Run.outcome_bind_eq_ok h
      have hvalue := value_eq hsystem he ht
      have hread : c.query.read item.target s = s.get? slot := by rw [Query.read, hslot]; rfl
      rw [← hvalue] at h
      rw [List.foldlM_cons, extended, hread]
      cases hv : c.valueAt item.expr s with
      | none =>
        rw [hv] at h
        exact ih hplain hi h
      | some u =>
        rw [hv] at h
        dsimp only at h
        cases hs : s.get? slot with
        | none =>
          rw [hs] at h
          have hput : c.query.put item.target (some u) s = s.set slot (some u) := by
            rw [Query.put, hslot]
            rfl
          dsimp only [Option.bind_eq_bind]
          rw [hput]
          exact ih hplain hi h
        | some current =>
          rw [hs] at h
          dsimp only at h ⊢
          split_ifs at h ⊢
          · exact ih hplain hi h
          · exact (Except.ok.inj h).symm

theorem outcome_key {stage : Stage} {t : Option Term} (hplain : e.isAggregate = false)
    (he : ∀ r ∈ e.requests, c.ComesTo r) (h : (c.key stage s none row i e).outcome = .ok t) :
    t = c.orderKey e s := by
  have hread : e.asVariable.bind (c.query.read · s) =
      (e.asVariable.bind c.query.slot?).bind s.get? := (Option.bind_assoc ..).symm
  rw [orderKey, hread]
  unfold key at h
  cases hbound : (e.asVariable.bind c.query.slot?).bind s.get? with
  | some u =>
    rw [hbound] at h
    exact (Except.ok.inj h).symm
  | none =>
    rw [hbound] at h
    dsimp only at h
    rw [hplain, Bool.and_false, if_neg Bool.false_ne_true] at h
    obtain ⟨u, hu, h⟩ := Run.outcome_bind_eq_ok h
    rw [Option.none_or, value_eq hsystem he hu]
    exact (Except.ok.inj h).symm

theorem outcome_keys (hgroup : c.query.groupBy = [])
    (hplain : ∀ k ∈ c.query.orderBy, k.expr.isAggregate = false)
    (h : (c.keys s none row).outcome = .ok s') :
    s' = { s with orderKeys := c.orderKeys s, groupKeys := [] } := by
  obtain ⟨orderKeys, horder, h⟩ := Run.outcome_bind_eq_ok h
  obtain ⟨groupKeys, hgroups, h⟩ := Run.outcome_bind_eq_ok h
  rw [hgroup] at hgroups
  have hkeys : orderKeys = c.orderKeys s := Run.eq_map_of_mapIdx horder fun i k hk t ht =>
    outcome_key hsystem (hplain k hk)
      (fun r hr => .query (Query.mem_requests_of_orderBy hk hr)) ht
  rw [← Except.ok.inj h, hkeys, ← Except.ok.inj hgroups]

/-- What the steps of an evaluation compute. -/
theorem Completes.computes {raw selected ans : Solutions} {keyed : List Solution}
    (h : c.Completes raw selected keyed ans) (hplain : c.query.isAggregate = false) :
    selected.rows = raw.rows.filterMap (c.query.select.foldlM c.extended) ∧
      keyed = (c.uniqueRows selected).map fun s =>
        { s with orderKeys := c.orderKeys s, groupKeys := [] } := by
  simp only [Query.isAggregate, Bool.or_eq_false_iff, Bool.not_eq_false', List.isEmpty_iff,
    List.any_eq_false, Bool.not_eq_true] at hplain
  obtain ⟨⟨⟨hgroup, -⟩, hselect⟩, horder⟩ := hplain
  refine ⟨?_, Run.eq_map_of_mapIdx h.keys fun i s _ s' hs => outcome_keys hsystem hgroup horder hs⟩
  have hrows := h.select
  unfold selectRows at hrows
  split_ifs at hrows with hempty
  · rw [← Except.ok.inj hrows, List.isEmpty_iff.mp hempty]
    exact List.filterMap_some.symm
  · obtain ⟨kept, hkept, hrows⟩ := Run.outcome_bind_eq_ok hrows
    have hmap : kept = raw.rows.map (c.query.select.foldlM c.extended) :=
      Run.eq_map_of_mapIdx hkept fun i s _ r hr => outcome_selectFrom hsystem hselect
        (fun item hm r hr => .query (Query.mem_requests_of_select hm hr)) hr
    rw [← Except.ok.inj hrows, hmap]
    exact List.filterMap_map ..

theorem solutions_withTrail (trail : List Nat) (limit : Option Nat) :
    c.solutions c.query.body { Environment.initial c.query with trail } limit =
      c.solutions c.query.body (.initial c.query) limit := by
  have hcollect : ∀ a b : Environment, a.withoutTrail = b.withoutTrail → ∀ found,
      collect limit a found = collect limit b found := fun a b hab found => by
    unfold collect
    rw [Environment.eq_of_withoutTrail (·.solution) (fun _ => rfl) hab]
  have hrequests : ∀ r ∈ c.query.body.requests, c.ComesTo r := fun r hr =>
    .query (Query.mem_requests_of_body hr)
  have htrail : Environment.withoutTrail { Environment.initial c.query with trail } =
      (Environment.initial c.query).withoutTrail := rfl
  rw [solutions_eq, solutions_eq, c.query.body.solve_upToTrail
    (fun e he _ _ hab => evaluate_upToTrail c.closed_comesTo hsystem he hab) hrequests htrail
    hcollect []]

theorem Completes.solutionsOf {m : Modifiers} {raw selected ans : Solutions} {keyed : List Solution}
    (h : c.Completes raw selected keyed ans) (hm : m.Lowered a c.query)
    (hcap : c.source.options.limit = none) :
    c.SolutionsOf m.vars a c.query.select selected.rows := by
  obtain ⟨rows, hrows, hraw⟩ := Run.outcome_bind_eq_ok h.body
  rw [hcap, solutions_withTrail hsystem] at hrows
  have hselect := List.rel_reverse hm.select
  rw [List.reverse_reverse] at hselect
  have hsolutions := solutionsOf_of_splitColumns hm.body hselect hrows
  have hraw : rows = raw.rows := congrArg Solutions.rows (Except.ok.inj hraw)
  rwa [List.reverse_reverse, hraw, ← (h.computes hsystem hm.plain).1] at hsolutions

end

/-- Sorted rows with their keys. -/
theorem sortedRows_map (rows : List Solution) :
    c.sortedRows (rows.map fun s => { s with orderKeys := c.orderKeys s, groupKeys := [] }) =
      (stableSort c.compareByKeys rows).map fun s =>
        { s with orderKeys := c.orderKeys s, groupKeys := [] } := by
  unfold sortedRows
  split_ifs with hempty
  · have htie : ∀ s s' : Solution, c.compareByKeys s s' = .eq := fun s s' => by
      rw [compareByKeys, List.isEmpty_iff.mp hempty]
      rfl
    rw [stableSort_of_tie htie]
  · exact (map_stableSort _ rows).symm

end Context

/-! ### Answers -/

namespace Processor

/-- What a query is evaluated in. -/
def context (p : Processor) (q : Query) : Context :=
  { query := q, source := p.source, registry := p.registry, remembered := p.remembered }

/-- The answer to a query with modifiers. Of the solutions that project to the same, the first one that
is found is kept, if the query is distinct; what is left is sorted stably by the keys, which may read
what is not projected, and then projected and cut. So if solutions that project to the same tie, the
projections are those of all solutions in the order of their keys, without repetitions. Only a
snapshot would tell the places of solutions. -/
theorem evaluate_modified (p : Processor) {m : Modifiers} {b : Algebra} {a : AlgebraQuery}
    {site : Nat} {q : Query} {ans : Solutions} (hform : a.form = .select)
    (ha : a.pattern = m.around b) (hb : b.isBody = true) (hq : a.lower site = .ok q)
    (hcap : p.source.options.limit = none)
    (hsystem : ∀ target, ¬ (p.context q).ComesTo (.snapshot target))
    (h : (p.evaluate q).outcome = .ok ans) :
    let c := p.context q
    q.projection = m.vars ∧ ans.projection = q.projectedSlots ∧
    List.Forall₂ (fun k key => k.lower.Makes q.patterns key) m.keys q.orderBy ∧
    ∃ rows, c.SolutionsOf m.vars b q.select rows ∧
      ((∀ k ∈ q.orderBy, TotalOn Term.sortOrder {t | ∃ s ∈ rows, c.orderKey k.expr s = some t}) →
        (∃ sorted, StablySorted c.compareByKeys
            (if m.distinct then rows.eraseDupsBy fun s s' => c.project s == c.project s' else rows)
            sorted ∧
          ans.rows.map c.project = m.cut (sorted.map c.project)) ∧
        ((m.distinct = true → ∀ s ∈ rows, ∀ s' ∈ rows, c.project s = c.project s' →
            c.compareByKeys s s' = .eq) →
          ∃ sorted, StablySorted c.compareByKeys rows sorted ∧
            ans.rows.map c.project = m.cut
              (if m.distinct then (sorted.map c.project).eraseDups else sorted.map c.project))) := by
  intro c
  have hm : m.Lowered b c.query := Modifiers.lowered hform ha hb hq
  obtain ⟨raw, selected, keyed, hc⟩ := Context.exists_completes (c := c) hm.plain h
  have hkeyed := (hc.computes hsystem hm.plain).2
  have hunique : c.uniqueRows selected = if m.distinct then
      selected.rows.eraseDupsBy fun s s' => c.project s == c.project s' else selected.rows := by
    unfold Context.uniqueRows Solutions.projectAlike
    rw [hm.distinct, hc.selected_projection]
    rfl
  have hrows : ans.rows.map c.project =
      m.cut ((stableSort c.compareByKeys (c.uniqueRows selected)).map c.project) := by
    have hcut : ans.rows = m.cut (c.sortedRows keyed) := by
      rw [hc.rows, hm.limit, hm.offset]
      unfold Modifiers.cut
      rcases m.slice with _ | ⟨start, _ | length⟩ <;> rfl
    rw [hcut, hkeyed, Context.sortedRows_map, m.map_cut, List.map_map]
    rfl
  refine ⟨hm.projection, hc.projection, hm.orderBy, selected.rows, hc.solutionsOf hsystem hm hcap,
    fun htotal => ?_⟩
  have htotal := Context.totalOn_compareByKeys (c := c) htotal
  rw [hunique] at hrows
  have hsorted := stablySorted_stableSort htotal
  cases hd : m.distinct with
  | false =>
    rw [hd] at hrows
    exact ⟨⟨_, hsorted, hrows⟩, fun _ => ⟨_, hsorted, hrows⟩⟩
  | true =>
    rw [hd, if_pos rfl] at hrows
    have hsub : ∀ s, s ∈ (selected.rows.eraseDupsBy fun s s' => c.project s == c.project s') →
        s ∈ selected.rows := fun s hs => (eraseDupsBy_sublist _ _).subset hs
    refine ⟨⟨_, stablySorted_stableSort (htotal.mono hsub), hrows⟩, fun htie => ⟨_, hsorted, ?_⟩⟩
    have hlast := hsorted.eraseDupsBy htotal (htie rfl)
    rw [hrows, if_pos rfl, ← map_eraseDupsBy, hlast.eq_stableSort (htotal.mono hsub)]

local instance : DecidableEq Solution := fun s s' =>
  decidable_of_iff (s.slots = s'.slots ∧ s.orderKeys = s'.orderKeys ∧ s.groupKeys = s'.groupKeys)
    (by cases s; cases s'; simp)

/-- With a column, a key that is not projected, and two solutions that project to the same and tie. -/
theorem evaluate_modified_of_tie :
    let a : Term := .iri ⟨"a"⟩
    let b : Term := .iri ⟨"b"⟩
    let p : Term := .iri ⟨"p"⟩
    let r : Term := .iri ⟨"r"⟩
    let x : Variable := ⟨"x"⟩
    let y : Variable := ⟨"y"⟩
    let z : Variable := ⟨"z"⟩
    let k : Variable := ⟨"k"⟩
    let edges : List Quad :=
      [⟨a, p, b, none⟩, ⟨b, p, a, none⟩, ⟨a, r, a, none⟩, ⟨a, r, b, none⟩, ⟨b, r, a, none⟩]
    let m : Modifiers :=
      { orderBy := some [.ascending (.var k)], vars := [x, y], distinct := true
        slice := some (1, some 1) }
    let body : Algebra :=
      .extend (.basic [⟨.var x, .const p, .var k⟩, ⟨.var x, .const r, .var z⟩]) y (.var x)
    let q : Query := .ofParts
      { body := .sequence [.edge ⟨.var x, .const p, .var k⟩, .edge ⟨.var x, .const r, .var z⟩]
        select := [⟨y, .var x⟩], project := some [x, y], orderBy := [⟨.var k, false⟩]
        distinct := true, offset := 1, limit := some 1 }
    let processor : Processor := { source := { store := .after false [.extend edges] } }
    let c := processor.context q
    AlgebraQuery.lower { form := .select, pattern := m.around body } 0 = .ok q ∧
    ∃ ans rows sorted, (processor.evaluate q).outcome = .ok ans ∧
      c.SolutionsOf m.vars body q.select rows ∧ StablySorted c.compareByKeys rows sorted ∧
      sorted.map c.project = [[some b, some b], [some a, some a], [some a, some a]] ∧
      ans.rows.map c.project = m.cut (sorted.map c.project).eraseDups ∧
      ans.rows.map c.project = [[some a, some a]] := by
  intro a b p r x y z k edges m body q processor c
  have hq : AlgebraQuery.lower { form := .select, pattern := m.around body } 0 = .ok q := rfl
  let found : List Solution :=
    [{ slots := [some a, some b, some a, some a] }, { slots := [some a, some b, some b, some a] },
      { slots := [some b, some a, some a, some b] }]
  have hsolutions : (c.solutions q.body (.initial q) none).outcome.toOption.map
      (·.filterMap (q.select.foldlM c.extended)) = some found := by decide +kernel
  have hanswer : (processor.evaluate q).outcome.toOption.map (·.rows.map c.project) =
      some [[some a, some a]] := by decide +kernel
  have hsystem : ∀ target, ¬ c.ComesTo (.snapshot target) := fun target h => by
    have hnone : ∀ r, ¬ c.ComesTo r := fun r hr => by
      induction hr with
      | query hr => cases hr
      | existence _ _ _ ih | call _ _ _ ih => exact ih
    exact hnone _ h
  cases hs : (c.solutions q.body (.initial q) none).outcome with
  | error e =>
    rw [hs] at hsolutions
    cases hsolutions
  | ok all =>
    cases ha : (processor.evaluate q).outcome with
    | error e =>
      rw [ha] at hanswer
      cases hanswer
    | ok ans =>
      rw [hs] at hsolutions
      rw [ha] at hanswer
      obtain ⟨-, -, -, rows, hrows, h⟩ :=
        evaluate_modified processor (m := m) (b := body) rfl rfl rfl hq rfl hsystem ha
      have hfound : rows = found := (hrows.eq hs).trans (Option.some.inj hsolutions)
      have htie : ∀ s ∈ found, ∀ s' ∈ found, c.project s = c.project s' →
          c.compareByKeys s s' = .eq := by decide +kernel
      have hkeys : ∀ k ∈ q.orderBy, ∀ s ∈ found, ∀ t ∈ c.orderKey k.expr s, t.rank ≠ 2 := by
        decide +kernel
      have htotal := Context.totalOn_orderKey_of_rank (c := c) hkeys
      subst hfound
      obtain ⟨-, h⟩ := h htotal
      obtain ⟨sorted, hsorted, hrows'⟩ := h fun _ => htie
      refine ⟨hq, ans, found, sorted, rfl, hrows, hsorted, ?_, hrows', Option.some.inj hanswer⟩
      rw [hsorted.eq_stableSort (Context.totalOn_compareByKeys (c := c) htotal)]
      decide +kernel

/-- An order by a key that is not projected: of two solutions that project to the same, the first one
is kept, although the second one comes first in the order. -/
theorem not_sorted_first :
    let a : Term := .iri ⟨"a"⟩
    let b : Term := .iri ⟨"b"⟩
    let one : Term := .iri ⟨"1"⟩
    let two : Term := .iri ⟨"2"⟩
    let three : Term := .iri ⟨"3"⟩
    let p : Term := .iri ⟨"p"⟩
    let x : Variable := ⟨"x"⟩
    let k : Variable := ⟨"k"⟩
    let edges : List Quad := [⟨a, p, three, none⟩, ⟨b, p, two, none⟩, ⟨a, p, one, none⟩]
    let m : Modifiers := { orderBy := some [.ascending (.var k)], vars := [x], distinct := true }
    let body : Algebra := .basic [⟨.var x, .const p, .var k⟩]
    let q : Query := .ofParts
      { body := .sequence [.edge ⟨.var x, .const p, .var k⟩], project := some [x]
        orderBy := [⟨.var k, false⟩], distinct := true }
    let processor : Processor := { source := { store := .after false [.extend edges] } }
    let c := processor.context q
    AlgebraQuery.lower { form := .select, pattern := m.around body } 0 = .ok q ∧
    ∃ ans rows, (processor.evaluate q).outcome = .ok ans ∧
      c.SolutionsOf m.vars body q.select rows ∧
      (∀ k ∈ q.orderBy, TotalOn Term.sortOrder {t | ∃ s ∈ rows, c.orderKey k.expr s = some t}) ∧
      ans.rows.map c.project = [[some b], [some a]] ∧
      ∀ sorted, StablySorted c.compareByKeys rows sorted →
        m.cut (sorted.map c.project).eraseDups = [[some a], [some b]] := by
  intro a b one two three p x k edges m body q processor c
  have hq : AlgebraQuery.lower { form := .select, pattern := m.around body } 0 = .ok q := rfl
  let rows : List Solution :=
    [{ slots := [some a, some three] }, { slots := [some a, some one] },
      { slots := [some b, some two] }]
  have hrows : (c.solutions q.body (.initial q) none).outcome.toOption = some rows := by
    decide +kernel
  have hanswer : (processor.evaluate q).outcome.toOption.map (·.rows.map c.project) =
      some [[some b], [some a]] := by decide +kernel
  have hkeys : ∀ k ∈ q.orderBy, ∀ s ∈ rows, ∀ t ∈ c.orderKey k.expr s, t.rank ≠ 2 := by
    decide +kernel
  have htotal := Context.totalOn_orderKey_of_rank (c := c) hkeys
  have hlowered : m.Lowered body q := Modifiers.lowered rfl rfl rfl hq
  cases hs : (c.solutions q.body (.initial q) none).outcome with
  | error e =>
    rw [hs] at hrows
    cases hrows
  | ok all =>
    obtain rfl : all = rows := by
      rw [hs] at hrows
      exact Option.some.inj hrows
    cases ha : (processor.evaluate q).outcome with
    | error e =>
      rw [ha] at hanswer
      cases hanswer
    | ok ans =>
      rw [ha] at hanswer
      refine ⟨hq, ans, rows, rfl, .body (fun _ _ _ h => Algebra.noConfusion h) hlowered.body hs, htotal,
        Option.some.inj hanswer, fun sorted hsorted => ?_⟩
      rw [hsorted.eq_stableSort (Context.totalOn_compareByKeys (c := c) htotal)]
      decide +kernel

end Processor

end GraphQuery
