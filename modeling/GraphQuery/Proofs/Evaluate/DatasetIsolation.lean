import GraphQuery.Proofs.Evaluate.Isolation
import GraphQuery.Proofs.Evaluate.Plain

/-! Isolation by a dataset clause. A query without graph clauses that is restricted to some graphs
sees only the quads in them, but walks with two free ends start from every node of the store. So two
stores that share these graphs give the same answers if no such walk can end where it starts without
following an edge, or if the stores have the same nodes. They differ in the ends of a path with such
walks otherwise. -/

namespace GraphQuery

/-- Whether each path of a query that leads from nodes to themselves has an end that is known when
it is walked. -/
def Query.isAnchored (q : Query) : Bool := q.body.isAnchored [] && q.patterns.all (·.isAnchored [])

namespace Context

variable {c : Context} {s : Source} {ans ans' : Solutions}

/-- Two stores that share the graphs of the dataset clause. -/
theorem projected_perm_of_shares (hs : c.source.Shares s none c.query.fromDefault)
    (hbody : c.query.body.containsGraph = false)
    (hpatterns : ∀ p ∈ c.query.patterns, p.containsGraph = false)
    (hsystem : ∀ target, ¬ c.ComesTo (.snapshot target))
    (hnodes : c.query.isAnchored = true ∨
      ((c.source.store.nodes none).map (·.term)).Perm ((s.store.nodes none).map (·.term)))
    (hcap : c.source.options.limit = none) (hcap' : s.options.limit = none)
    (hagg : c.query.isAggregate = false) (hoffset : c.query.offset = 0)
    (hlimit : c.query.limit = none) (h : c.answer.outcome = .ok ans)
    (h' : (c.alongside s c.query.fromDefault c.query.fromNamed).answer.outcome = .ok ans') :
    (ans.rows.map (·.restrict ans.projection)).Perm
      (ans'.rows.map (·.restrict ans'.projection)) := by
  have ha := accord_of_shares hs (N := ((c.source.store.nodes none).map (·.term)).Perm
      ((s.store.nodes none).map (·.term))) (fun hn a hg => ?_) fun hn => (hn rfl).elim
  · have hanchored : ∀ p, p = c.query.body ∨ p ∈ c.query.patterns →
        ((c.source.store.nodes none).map (·.term)).Perm ((s.store.nodes none).map (·.term)) ∨
          p.isAnchored [] = true := by
      intro p hp
      refine hnodes.symm.imp id fun hq => ?_
      rw [Query.isAnchored, Bool.and_eq_true, List.all_eq_true] at hq
      rcases hp with rfl | hp
      · exact hq.1
      · exact hq.2 p hp
    refine projected_perm_of_accord ha hsystem (fun {id p} hp {a} hk => ?_) (fun trail => ?_)
      (fun _ _ => ⟨rfl, rfl⟩) hcap hcap' hagg hoffset hlimit h h'
    · have hmem : p ∈ c.query.patterns := List.mem_of_getElem? hp
      exact ⟨hpatterns p hmem, [], a.knows_restored c.query hk.1, hanchored p (.inr hmem)⟩
    · exact ⟨hbody, [], ⟨rfl, rfl, List.length_replicate, fun _ hv => by cases hv⟩,
        hanchored _ (.inl rfl)⟩
  · have hg : a.graph = none := hg
    simp only [Source.startNodes, hg]
    exact hn

/-! ### The ends of a path -/

section

variable {x y : Variable} {path : Path} {d : List Term}

theorem vars_of_ends (hq : c.query = .plain (.path ⟨.var x, path, .var y⟩) d []) :
    ∃ vs, c.query.vars = x :: vs := by
  rw [hq]
  exact ⟨_, List.eraseDups_cons⟩

/-- Walks from a free end start at every node, and one that leads nowhere is a result as well. -/
theorem mem_starts_of_ends (hq : c.query = .plain (.path ⟨.var x, path, .var y⟩) d [])
    (hs : c.source.store.Valid) (hpath : path.isNullable = true) (h : Hooks) (trail : List Nat)
    (t : Term) :
    (∃ m ∈ (Pattern.path ⟨.var x, path, .var y⟩).results c h
        { Environment.initial c.query with trail }, m.binding? c.query x = some t) ↔
      t ∈ (c.source.store.nodes none).map (·.term) := by
  have hvars : x ∈ c.query.vars ∧ y ∈ c.query.vars := by
    rw [hq]
    simp [Query.mem_vars_plain, Pattern.vars, PathPattern.vars, NodePattern.vars,
      NodePattern.asVariable]
  let start : Environment := { Environment.initial c.query with trail }
  have hlength : ∀ i, (start.choose i).bindings.length = c.query.vars.length := fun _ =>
    List.length_replicate
  have hfree : ∀ i v, (start.choose i).binding? c.query v = none := fun _ v =>
    Environment.binding_initial c.query v
  have hwalk : c.walk ⟨.var x, path, .var y⟩ start =
      ((c.source.store.nodes none).map (·.term), false, .var x, .var y) := by
    have hget : ∀ v, start.get? c.query v = none := fun v =>
      (Environment.get_eq_binding rfl).trans (hfree 0 v)
    simp only [walk, Source.valueOf?, hget]
    rfl
  have hfound : ∀ {r : Except QueryError (Option Environment)} {m},
      m ∈ found r ↔ r = .ok (some m) := by
    intro r m
    rcases r with e | _ | a <;> simp [found, eq_comm]
  have hstart : ∀ {i j u v e m}, (start.choose i).bind? c.query x u = .ok (some e) →
      (e.choose j).bind? c.query y v = .ok (some m) → m.binding? c.query x = some u := by
    intro i j u v e m he hm
    have hu : e.binding? c.query x = some u := Environment.binding_bound (hlength i) he
    have hu : (e.choose j).binding? c.query x = some u := hu
    exact Environment.binding_of_bind hm hu
  rw [Pattern.results, resultsPath, hwalk]
  simp only [List.mem_flatMap, resultsEnds, Prod.exists, bindStart, hfound]
  constructor
  · rintro ⟨m, ⟨u, i, hu, e, he, v, j, hv, hm⟩, ht⟩
    rw [← Option.some.inj ((hstart he hm).symm.trans ht)]
    exact List.fst_mem_of_mem_zipIdx hu
  · intro ht
    obtain ⟨i, hi⟩ := List.mem_iff_getElem?.mp ht
    let e : Environment := (start.choose i).assign c.query x t
    have he : (start.choose i).bind? c.query x t = .ok (some e) :=
      Environment.bind_of_free hvars.1 (hfree i x) t
    have hreach : t ∈ c.source.reach ⟨c.query, e, ⟨.var x, path, .var y⟩⟩ path false t :=
      Source.mem_reach_self hs hpath
    obtain ⟨j, hj⟩ := List.mem_iff_getElem?.mp hreach
    obtain ⟨m, hm⟩ : ∃ m, (e.choose j).bind? c.query y t = .ok (some m) := by
      cases hy : (e.choose j).binding? c.query y with
      | none => exact ⟨_, Environment.bind_of_free hvars.2 hy t⟩
      | some u =>
        have hu : (if y = x then some t else none) = some u :=
          hfree i y ▸ (Environment.binding_assign (hlength i) hvars.1).symm.trans hy
        split_ifs at hu
        exact ⟨_, by rw [Environment.bind_of_bound hy, if_pos (Option.some.inj hu).symm]⟩
    exact ⟨m, ⟨t, i, List.mem_zipIdx_iff_getElem?.mpr hi, e, he, t, j,
      List.mem_zipIdx_iff_getElem?.mpr hj, hm⟩, hstart he hm⟩

/-- The first column of the ends of a path. -/
theorem mem_heads_of_ends (hq : c.query = .plain (.path ⟨.var x, path, .var y⟩) d [])
    (hs : c.source.store.Valid) (hpath : path.isNullable = true)
    (hcap : c.source.options.limit = none) (h : c.answer.outcome = .ok ans) (t : Term) :
    (∃ row ∈ ans.rows.map (·.restrict ans.projection), row.head? = some (some t)) ↔
      t ∈ (c.source.store.nodes none).map (·.term) := by
  obtain ⟨vs, hvs⟩ := vars_of_ends hq
  rw [← mem_starts_of_ends hq hs hpath (c.hooks c.depth) [0]]
  simp only [(rows_perm_of_plain hq hcap h).mem_iff, List.mem_map, exists_exists_and_eq_and, hvs,
    List.map_cons, List.head?_cons, Option.some.injEq]

/-- The ends of a path that leads from nodes to themselves are the same in two stores that share the
graphs of the dataset clause if and only if the stores have the same nodes. -/
theorem ends_perm_iff (hq : c.query = .plain (.path ⟨.var x, path, .var y⟩) d [])
    (hs : c.source.Shares s none c.query.fromDefault) (hpath : path.isNullable = true)
    (hcap : c.source.options.limit = none) (hcap' : s.options.limit = none)
    (h : c.answer.outcome = .ok ans)
    (h' : (c.alongside s c.query.fromDefault c.query.fromNamed).answer.outcome = .ok ans') :
    (ans.rows.map (·.restrict ans.projection)).Perm (ans'.rows.map (·.restrict ans'.projection)) ↔
      ((c.source.store.nodes none).map (·.term)).Perm ((s.store.nodes none).map (·.term)) := by
  have hq' : (c.alongside s c.query.fromDefault c.query.fromNamed).query =
      .plain (.path ⟨.var x, path, .var y⟩) d [] := hq
  constructor
  · intro hperm
    refine (List.perm_ext_iff_of_nodup (hs.views.valid.nodup_nodes none)
      (hs.views'.valid.nodup_nodes none)).mpr fun t => ?_
    rw [← mem_heads_of_ends hq hs.views.valid hpath hcap h]
    exact (exists_congr fun row => and_congr_left fun _ => hperm.mem_iff).trans
      (mem_heads_of_ends hq' hs.views'.valid hpath hcap' h' t)
  · intro hnodes
    have hrequests : c.query.requests = [] := by
      rw [hq, Query.requests_plain]
      rfl
    have hquery : c.query.body.containsGraph = false ∧ c.query.patterns = [] ∧
        c.query.isAggregate = false ∧ c.query.offset = 0 ∧ c.query.limit = none := by
      rw [hq]
      exact ⟨rfl, rfl, rfl, rfl, rfl⟩
    obtain ⟨hbody, hpatterns, hagg, hoffset, hlimit⟩ := hquery
    exact projected_perm_of_shares hs hbody (by rw [hpatterns]; exact fun p hp => by cases hp)
      (fun _ => Scope.not_comesTo hrequests _) (.inr hnodes) hcap hcap' hagg hoffset hlimit h h'

end

end Context

/-! ### Answers from some graphs -/

/-- The subjects and objects of the quads that are accepted, in canonical form. -/
def Insertion.ends (i : Insertion) : List Term := i.quads.flatMap fun r => [r.subject, r.object]

theorem Insertion.mem_ends {history : List Insertion} {t : Term} :
    t ∈ history.flatMap ends ↔
      ∃ r ∈ history.flatMap quads, r.subject = t ∨ r.object = t := by
  simp only [ends, List.mem_flatMap, List.mem_cons, List.not_mem_nil, or_false, eq_comm (a := t)]
  constructor
  · rintro ⟨i, hi, r, hr, ht⟩
    exact ⟨r, ⟨i, hi, hr⟩, ht⟩
  · rintro ⟨r, ⟨i, hi, hr⟩, ht⟩
    exact ⟨i, hi, r, hr, ht⟩

/-- Two stores have the same nodes if the quads in them have the same ends. -/
theorem Store.nodes_after_perm {entailment entailment' : Bool} {history history' : List Insertion} :
    (((after entailment history).nodes none).map (·.term)).Perm
        (((after entailment' history').nodes none).map (·.term)) ↔
      ∀ t, t ∈ history.flatMap Insertion.ends ↔ t ∈ history'.flatMap Insertion.ends := by
  have hmem : ∀ (entailment : Bool) (history : List Insertion) (t : Term),
      t ∈ ((after entailment history).nodes none).map (·.term) ↔
        t ∈ history.flatMap Insertion.ends := by
    intro entailment history t
    have hcont := contains_after entailment history
    rw [hcont.valid.mem_nodes, Insertion.mem_ends]
    refine exists_congr fun r => ?_
    rw [hcont.holds]
    simp
  rw [List.perm_ext_iff_of_nodup ((contains_after entailment history).valid.nodup_nodes none)
    ((contains_after entailment' history').valid.nodup_nodes none)]
  simp only [hmem]

namespace Processor

/-- A dataset clause isolates a query without graph clauses from all other graphs, if each path in
it that leads from nodes to themselves has an end that is known when it is walked, or if the quads
of both stores have the same ends. For the ends of such a path it does so in this case only. -/
theorem evaluate_perm_in_dataset (p : Processor) {q : Query}
    (hbody : q.body.containsGraph = false)
    (hpatterns : ∀ pattern ∈ q.patterns, pattern.containsGraph = false)
    (hsystem : ∀ target, ¬ (p.scope q).ComesTo (.snapshot target))
    {entailment entailment' : Bool} {history history' : List Insertion} {options : Options}
    (hsome : ∃ t ∈ q.fromDefault, t.canonical ∈ history.flatMap Insertion.names)
    (hnames : ∀ t ∈ q.fromDefault, t.canonical ∈ history.flatMap Insertion.names ↔
      t.canonical ∈ history'.flatMap Insertion.names)
    (hquads : ∀ t ∈ q.fromDefault, ∀ r : Quad, r.graph = some t.canonical →
      (r ∈ history.flatMap Insertion.quads ↔ r ∈ history'.flatMap Insertion.quads))
    (htypes : (options.typeMatching && entailment) = false)
    (htypes' : (options.typeMatching && entailment') = false) (hcap : options.limit = none)
    (hagg : q.isAggregate = false) (hoffset : q.offset = 0) (hlimit : q.limit = none) :
    ((q.isAnchored = true ∨
        ∀ t, t ∈ history.flatMap Insertion.ends ↔ t ∈ history'.flatMap Insertion.ends) → ∀ ans ans',
      ((p.filled entailment history options).evaluate q).outcome = .ok ans →
      ((p.filled entailment' history' options).evaluate q).outcome = .ok ans' →
        (ans.rows.map (·.restrict ans.projection)).Perm
          (ans'.rows.map (·.restrict ans'.projection))) ∧
    ∀ (x y : Variable) (path : Path), path.isNullable = true →
      let ends := Query.plain (.path ⟨.var x, path, .var y⟩) q.fromDefault []
      ∃ ans ans', ((p.filled entailment history options).evaluate ends).outcome = .ok ans ∧
        ((p.filled entailment' history' options).evaluate ends).outcome = .ok ans' ∧
          ((ans.rows.map (·.restrict ans.projection)).Perm
            (ans'.rows.map (·.restrict ans'.projection)) ↔
              ∀ t, t ∈ history.flatMap Insertion.ends ↔ t ∈ history'.flatMap Insertion.ends) := by
  obtain ⟨name, hname, hdeclared⟩ := hsome
  have hs : (p.filled entailment history options).source.Shares
      (p.filled entailment' history' options).source none q.fromDefault :=
    Source.shares_of_history htypes htypes' (fun _ => List.ne_nil_of_mem hname)
      (fun _ => ⟨name, hname, hdeclared⟩) (fun _ => ⟨name, hname, (hnames name hname).mp hdeclared⟩)
      fun r ⟨t, ht, hr⟩ => hquads t ht r hr
  refine ⟨fun hends ans ans' h h' => ?_, ?_⟩
  · let c : Context :=
      { query := q, source := (p.filled entailment history options).source, registry := p.registry,
        remembered := p.remembered }
    exact Context.projected_perm_of_shares (c := c) hs hbody hpatterns hsystem
      (hends.imp id Store.nodes_after_perm.mpr) hcap hcap hagg hoffset hlimit h h'
  · intro x y path hpath ends
    let c : Context :=
      { query := ends, source := (p.filled entailment history options).source
        registry := p.registry, remembered := p.remembered }
    obtain ⟨ans, h⟩ : c.answer.Succeeds := Context.succeeds_plain (c := c) rfl rfl rfl
    obtain ⟨ans', h'⟩ : (c.alongside (p.filled entailment' history' options).source
        ends.fromDefault ends.fromNamed).answer.Succeeds := Context.succeeds_plain rfl rfl rfl
    exact ⟨ans, ans', h, h', (Context.ends_perm_iff (c := c) rfl hs hpath hcap hcap h h').trans
      Store.nodes_after_perm⟩

/-- Two stores that share one edge in the listed graph and hold another one each. The query is for
edges whose ends are related, without those from where an edge exists. -/
theorem evaluate_perm_in_dataset_of_edge :
    let a : Term := .iri ⟨"a"⟩
    let b : Term := .iri ⟨"b"⟩
    let p : Term := .iri ⟨"p"⟩
    let g : Term := .iri ⟨"g"⟩
    let h : Term := .iri ⟨"h"⟩
    let history : List Insertion := [.extend [⟨a, p, b, some g⟩, ⟨b, p, a, none⟩]]
    let history' : List Insertion := [.extend [⟨b, p, b, some h⟩, ⟨a, p, b, some g⟩]]
    let x : NodePattern := .var ⟨"x"⟩
    let y : NodePattern := .var ⟨"y"⟩
    let path : Path := .zeroOrOne (.predicate ⟨"p"⟩)
    let q := Query.ofParts
      { body := .minus
          (.sequence [.edge ⟨x, .const p, y⟩, .path ⟨x, path, y⟩, .filter (.existence 0)])
          (.edge ⟨y, .const p, x⟩)
        patterns := [.edge ⟨x, .const p, y⟩]
        fromDefault := [g] }
    let run (history : List Insertion) (q : Query) :=
      (Processor.filled { source := { store := {} } } false history {}).evaluate q
    (∃ ans ans', (run history q).outcome = .ok ans ∧ (run history' q).outcome = .ok ans' ∧
      ans.rows.map (·.slots) = [[some a, some b]] ∧
      (ans.rows.map (·.restrict ans.projection)).Perm
        (ans'.rows.map (·.restrict ans'.projection))) ∧
    ∃ ans ans', (run history (.plain (.path ⟨x, path, y⟩) [g] [])).outcome = .ok ans ∧
      (run history' (.plain (.path ⟨x, path, y⟩) [g] [])).outcome = .ok ans' ∧
      (ans.rows.map (·.restrict ans.projection)).Perm
        (ans'.rows.map (·.restrict ans'.projection)) := by
  intro a b p g h history history' x y path q run
  have hrun : (run history q).outcome.toOption.map (·.rows.map (·.slots)) =
      some [[some a, some b]] := by decide +kernel
  have hrun' : (run history' q).outcome.toOption.map (fun _ => ()) = some () := by decide +kernel
  have hquads : (∀ r ∈ history.flatMap Insertion.quads, r.graph = some g →
      r ∈ history'.flatMap Insertion.quads) ∧ ∀ r ∈ history'.flatMap Insertion.quads,
        r.graph = some g → r ∈ history.flatMap Insertion.quads := by decide +kernel
  have hg : g ∈ history.flatMap Insertion.names := by decide +kernel
  have hg' : g ∈ history'.flatMap Insertion.names := by decide +kernel
  have hends : (∀ t ∈ history.flatMap Insertion.ends, t ∈ history'.flatMap Insertion.ends) ∧
      ∀ t ∈ history'.flatMap Insertion.ends, t ∈ history.flatMap Insertion.ends := by
    decide +kernel
  have hrequests : ∀ r, (Processor.scope { source := { store := {} } } q).ComesTo r →
      r = .existence 0 := by
    intro r hr
    induction hr with
    | query hr => exact List.mem_singleton.mp hr
    | existence _ hp hr ih =>
      cases ih
      obtain rfl := Option.some.inj hp
      cases hr
    | call _ _ _ ih => cases ih
  have hlisted : ∀ t ∈ q.fromDefault, t = g := fun t ht => List.mem_singleton.mp ht
  have hnames : ∀ t ∈ q.fromDefault, t.canonical ∈ history.flatMap Insertion.names ↔
      t.canonical ∈ history'.flatMap Insertion.names := fun t ht => by
    rw [hlisted t ht]
    exact iff_of_true hg hg'
  have hshared : ∀ t ∈ q.fromDefault, ∀ r : Quad, r.graph = some t.canonical →
      (r ∈ history.flatMap Insertion.quads ↔ r ∈ history'.flatMap Insertion.quads) := by
    intro t ht r hr
    rw [hlisted t ht] at hr
    exact ⟨fun hm => hquads.1 r hm hr, fun hm => hquads.2 r hm hr⟩
  have htypes : (({} : Options).typeMatching && false) = false := rfl
  obtain ⟨ans, h, hrows⟩ := exists_of_toOption hrun
  obtain ⟨ans', h', -⟩ := exists_of_toOption hrun'
  obtain ⟨hanswers, hpaths⟩ := evaluate_perm_in_dataset { source := { store := {} } } (q := q)
    rfl (List.forall_mem_singleton.mpr rfl)
    (fun target hr => by cases hrequests _ hr) ⟨g, List.mem_singleton_self g, hg⟩ hnames hshared
    htypes htypes rfl rfl rfl rfl
  obtain ⟨ends, ends', he, he', hperm⟩ := hpaths ⟨"x"⟩ ⟨"y"⟩ path rfl
  exact ⟨⟨ans, ans', h, h', hrows, hanswers (.inl rfl) ans ans' h h'⟩, ends, ends', he, he',
    hperm.mpr fun t => ⟨hends.1 t, hends.2 t⟩⟩

/-- The ends of an optional step from a listed graph, where another graph has an edge as well: its
nodes are among the answers. -/
theorem not_evaluate_perm_in_dataset :
    let a : Term := .iri ⟨"a"⟩
    let b : Term := .iri ⟨"b"⟩
    let c : Term := .iri ⟨"c"⟩
    let d : Term := .iri ⟨"d"⟩
    let p : Term := .iri ⟨"p"⟩
    let g : Term := .iri ⟨"g"⟩
    let history : List Insertion := [.extend [⟨a, p, b, some g⟩]]
    let history' : List Insertion := [.extend [⟨a, p, b, some g⟩, ⟨c, .iri ⟨"q"⟩, d, none⟩]]
    let q := Query.plain (.path ⟨.var ⟨"x"⟩, .zeroOrOne (.predicate ⟨"p"⟩), .var ⟨"y"⟩⟩) [g] []
    let run (history : List Insertion) :=
      (Processor.filled { source := { store := {} } } false history {}).evaluate q
    (g ∈ history.flatMap Insertion.names ∧ g ∈ history'.flatMap Insertion.names ∧
      (history.flatMap Insertion.quads).filter (·.graph = some g) =
        (history'.flatMap Insertion.quads).filter (·.graph = some g)) ∧
    ∃ ans ans', (run history).outcome = .ok ans ∧ (run history').outcome = .ok ans' ∧
      ans.rows.map (·.slots) = [[some a, some a], [some a, some b], [some b, some b]] ∧
      ans'.rows.map (·.slots) = [[some a, some a], [some a, some b], [some b, some b],
        [some c, some c], [some d, some d]] ∧
      ¬ (ans.rows.map (·.restrict ans.projection)).Perm
        (ans'.rows.map (·.restrict ans'.projection)) := by
  intro a b c d p g history history' q run
  refine ⟨by decide +kernel, ?_⟩
  have hrun : (run history).outcome.toOption.map (·.rows.map (·.slots)) =
      some [[some a, some a], [some a, some b], [some b, some b]] := by decide +kernel
  have hrun' : (run history').outcome.toOption.map (·.rows.map (·.slots)) =
      some [[some a, some a], [some a, some b], [some b, some b], [some c, some c],
        [some d, some d]] := by decide +kernel
  obtain ⟨ans, h, hrows⟩ := exists_of_toOption hrun
  obtain ⟨ans', h', hrows'⟩ := exists_of_toOption hrun'
  refine ⟨ans, ans', h, h', hrows, hrows', fun hperm => ?_⟩
  have hlength := congrArg List.length hrows
  have hlength' := congrArg List.length hrows'
  have := hperm.length_eq
  simp only [List.length_map, List.length_cons, List.length_nil] at hlength hlength' this
  omega

end Processor

end GraphQuery
