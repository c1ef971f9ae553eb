import GraphQuery.Proofs.Evaluate.Accord
import GraphQuery.Proofs.Evaluate.Plain

/-! Dataset clauses as lists. Outside of graph clauses and inside of those with a name, only the set
of the listed graphs counts. Graph clauses with a variable go through the list, so what they find
there is found once for each time that a graph is listed. -/

namespace GraphQuery

/-! ### Lists of the same graphs -/

/-- Whether two lists have the same graphs, in whatever order and however often. -/
def SameGraphs (l l' : List Term) : Prop :=
  ∀ t, t ∈ l.map Term.canonical ↔ t ∈ l'.map Term.canonical

instance (l l' : List Term) : Decidable (SameGraphs l l') :=
  decidable_of_iff ((∀ t ∈ l.map Term.canonical, t ∈ l'.map Term.canonical) ∧
      ∀ t ∈ l'.map Term.canonical, t ∈ l.map Term.canonical)
    ⟨fun h t => ⟨h.1 t, h.2 t⟩, fun h => ⟨fun t => (h t).mp, fun t => (h t).mpr⟩⟩

namespace Source

variable {s : Source} {l l' : List Term} {q : Query} {env : Environment}

theorem graphNodes_eq_canonical (s : Source) (l : List Term) :
    s.graphNodes l = (l.map Term.canonical).filterMap s.store.graphNode? := by
  rw [graphNodes, List.filterMap_map]
  refine List.filterMap_congr fun t _ => ?_
  rw [Function.comp_apply, Store.graphNode?, Store.graphNode?, Dictionary.id?, Dictionary.id?,
    t.canonical_canonical]

/-- The listed graphs that a store has, each as often as it is listed. -/
theorem graphNodes_map_term_eq (hs : s.store.Valid) [DecidablePred s.store.Names] (l : List Term) :
    (s.graphNodes l).map (·.term) = (l.map Term.canonical).filter fun t => s.store.Names t := by
  rw [graphNodes]
  induction l with
  | nil => rfl
  | cons t l ih =>
    rw [List.map_cons, List.filterMap_cons, List.filter_cons]
    cases hg : s.store.graphNode? t with
    | none =>
      have hn : ¬ s.store.Names t.canonical := fun hn => by
        obtain ⟨m, hm, -⟩ := hs.exists_graphNode hn
        rw [hg] at hm
        cases hm
      rw [if_neg (by simpa using hn)]
      exact ih
    | some m =>
      obtain ⟨hm, hn⟩ := hs.graphNode_eq_some hg
      rw [if_pos (by simpa using hn), List.map_cons, hm, ih]

end Source

namespace SameGraphs

open Source

variable {s : Source} {l l' : List Term} {q : Query} {env : Environment} {e : EdgePattern}
  {graph : Option NodePattern} (h : SameGraphs l l')

include h

theorem eq_nil_iff : l = [] ↔ l' = [] := by
  have hnil : ∀ l : List Term, l = [] ↔ ∀ t, t ∉ l.map Term.canonical := fun l => by
    rw [← List.eq_nil_iff_forall_not_mem, List.map_eq_nil_iff]
  rw [hnil, hnil]
  exact forall_congr' fun t => not_congr (h t)

theorem mem_graphNodes (m : Node) : m ∈ s.graphNodes l ↔ m ∈ s.graphNodes l' := by
  simp only [graphNodes_eq_canonical, List.mem_filterMap, h _]

theorem isEmpty_graphNodes : (s.graphNodes l).isEmpty = (s.graphNodes l').isEmpty := by
  rw [Bool.eq_iff_iff, List.isEmpty_iff, List.isEmpty_iff, List.eq_nil_iff_forall_not_mem,
    List.eq_nil_iff_forall_not_mem]
  exact forall_congr' fun m => not_congr (h.mem_graphNodes m)

theorem inOneOf_eq :
    Occurrence.inOneOf (s.graphNodes l) = Occurrence.inOneOf (s.graphNodes l') := by
  have hcontains : (s.graphNodes l).contains = (s.graphNodes l').contains := by
    funext m
    rw [Bool.eq_iff_iff, contains_iff, contains_iff]
    exact exists_congr fun m' => and_congr_left fun _ => h.mem_graphNodes m'
  funext o
  rw [Occurrence.inOneOf, Occurrence.inOneOf, h.isEmpty_graphNodes, hcontains]

theorem inForce_eq (os : List Occurrence) : s.inForce q env graph (s.graphNodes l) os =
    s.inForce q env graph (s.graphNodes l') os := by
  cases graph with
  | none => simp only [inForce, Occurrence.successiveDistinct, h.inOneOf_eq]
  | some g =>
    simp only [inForce]
    cases s.lookup q env g .graph with
    | free => simp only [Occurrence.inGraphs, h.inOneOf_eq]
    | missing => rfl
    | found n => exact (inGraphs_some n _ os).trans (inGraphs_some n _ os).symm

/-- Without a graph clause, a scan asks only whether some listed graph is there. -/
theorem scan_eq (ps : List Node) (isType : Bool) :
    s.scan q env e none l ps isType = s.scan q env e none l' ps isType := by
  by_cases hall : s.selectIndex q env e none isType = .all
  · unfold scan
    rw [hall]
    cases l with
    | nil => rw [h.eq_nil_iff.mp rfl]
    | cons t ts =>
      obtain ⟨t', ts', rfl⟩ := List.exists_cons_of_ne_nil fun hl' =>
        List.cons_ne_nil t ts (h.eq_nil_iff.mpr hl')
      dsimp only
      rw [h.isEmpty_graphNodes]
  · exact (scan_of_ne_all hall).trans (scan_of_ne_all hall).symm

/-- In a graph clause, a scan goes through the list. -/
theorem scan_perm (hw : (s.graphNodes l).Perm (s.graphNodes l')) {g : NodePattern} (ps : List Node)
    (isType : Bool) :
    (s.scan q env e (some g) l ps isType).Perm (s.scan q env e (some g) l' ps isType) := by
  by_cases hall : s.selectIndex q env e (some g) isType = .all
  · unfold scan
    rw [hall]
    cases l with
    | nil => rw [h.eq_nil_iff.mp rfl]
    | cons t ts =>
      obtain ⟨t', ts', rfl⟩ := List.exists_cons_of_ne_nil fun hl' =>
        List.cons_ne_nil t ts (h.eq_nil_iff.mpr hl')
      exact .flatMap_left ps fun p _ => hw.flatMap_right _
  · exact .of_eq ((scan_of_ne_all hall).trans (scan_of_ne_all hall).symm)

/-- Edges are found alike, up to the order, unless a graph clause has a variable and the lists do
not have each graph equally often. -/
theorem matchEdge_perm
    (hw : ∀ v, graph = some (.var v) → (s.graphNodes l).Perm (s.graphNodes l')) :
    (s.matchEdge q env e graph l).Perm (s.matchEdge q env e graph l') := by
  cases graph with
  | none => rw [matchEdge_eq, matchEdge_eq, scanInForce, scanInForce, h.scan_eq, h.inForce_eq]
  | some g =>
    cases g with
    | const t => rw [matchEdge_const, matchEdge_const s q env e t l']
    | var v =>
      have hscan : (s.scanInForce q env e (some (.var v)) l).Perm
          (s.scanInForce q env e (some (.var v)) l') := by
        rw [scanInForce, scanInForce, ← h.inForce_eq]
        have hperm : (s.scan q env e (some (.var v)) l _ _).Perm
            (s.scan q env e (some (.var v)) l' _ _) :=
          h.scan_perm (hw v rfl) (s.predicates q env e.predicate) (s.asksForType q env e)
        simp only [inForce]
        cases s.lookup q env (.var v) .graph with
        | free => exact hperm.filter _
        | missing => exact .refl _
        | found n => exact hperm.filter _
      rw [matchEdge_eq, matchEdge_eq]
      split_ifs
      · cases (s.lookup q env e.object .object).node? with
        | none => exact hscan
        | some n => exact hscan.filter _
      · exact hscan

theorem matchStep_congr (pattern : PathPattern) (step : Path) (start : Option Node)
    (position : Position) : s.matchStep q env pattern step start position graph l =
      s.matchStep q env pattern step start position graph l' := by
  simp only [matchStep, h.inForce_eq]

/-- The graphs that a graph clause with a variable goes through. -/
theorem namedGraphs_perm (hw : (s.graphNodes l).Perm (s.graphNodes l')) :
    (s.namedGraphs l).Perm (s.namedGraphs l') := by
  simp only [namedGraphs, List.isEmpty_iff, h.eq_nil_iff]
  split_ifs
  · exact .refl _
  · exact hw

end SameGraphs

/-! ### Names of graph clauses -/

namespace Pattern

/-- Whether all graph clauses in a pattern name their graphs. -/
def namesGraphs : Pattern → Bool
  | edge _ | path _ | filter _ | bind _ _ | values _ _ => true
  | sequence items => listNameGraphs items
  | optional left right _ | union left right | minus left right =>
    left.namesGraphs && right.namesGraphs
  | graph (.const _) inner => inner.namesGraphs
  | graph (.var _) _ => false
where
  listNameGraphs : List Pattern → Bool
    | [] => true
    | p :: ps => p.namesGraphs && listNameGraphs ps

theorem listNameGraphs_iff {ps : List Pattern} :
    namesGraphs.listNameGraphs ps = true ↔ ∀ p ∈ ps, p.namesGraphs = true := by
  induction ps with
  | nil => simp [namesGraphs.listNameGraphs]
  | cons p ps ih => simp [namesGraphs.listNameGraphs, ih]

theorem exists_const_of_namesGraphs (p : Pattern) (hp : p.namesGraphs = true) {n : NodePattern}
    (hn : n ∈ p.graphNames) : ∃ t, n = .const t := by
  cases p with
  | edge | path | filter | bind | values => cases hn
  | sequence items =>
    obtain ⟨p, hm, hn⟩ := mem_listGraphNames.mp hn
    have := List.sizeOf_lt_of_mem hm
    exact exists_const_of_namesGraphs p (listNameGraphs_iff.mp hp p hm) hn
  | optional left right | union left right =>
    obtain ⟨hl, hr⟩ := Bool.and_eq_true_iff.mp hp
    exact (List.mem_append.mp hn).elim (exists_const_of_namesGraphs left hl)
      (exists_const_of_namesGraphs right hr)
  | minus left right =>
    exact exists_const_of_namesGraphs left (Bool.and_eq_true_iff.mp hp).1 hn
  | graph name inner =>
    cases name with
    | var v => cases hp
    | const t =>
      rcases List.mem_cons.mp hn with rfl | hn
      · exact ⟨t, rfl⟩
      · exact exists_const_of_namesGraphs inner hp hn
termination_by sizeOf p

end Pattern

/-- Whether no variable stands for the graph in force. -/
def Environment.InNamedGraph (env : Environment) : Prop := ∀ v, env.graph ≠ some (.var v)

theorem Environment.stable_inNamedGraph (q : Query) :
    Stable q (fun _ => True) (fun _ => True) InNamedGraph where
  choose _ _ h := h
  bind _ _ _ _ _ _ h hb v hg := h v ((graph_of_bind hb).symm.trans hg)
  graph _ _ _ _ _ _ := trivial

/-- Graph clauses with a name leave no variable in force. -/
theorem Pattern.inNamedGraph_of_trace {c : Context} {k : Hooks} {env : Environment} (p : Pattern)
    (hp : p.namesGraphs = true) (h : env.InNamedGraph) :
    ∀ m ∈ (p.trace c k env).items, m.InNamedGraph :=
  kept_of_names (Environment.stable_inNamedGraph c.query) c.supplies_any p env (fun _ _ => trivial)
    (fun n hn _ _ v hg => by
      obtain ⟨t, rfl⟩ := p.exists_const_of_namesGraphs hp hn
      cases hg) h

/-! ### Evaluation over other lists -/

namespace Context

variable {c : Context} {d n : List Term} {a b : Environment}

/-- Whether a pattern does not depend on how often graphs are listed: either they are listed equally
often, or no variable stands for a graph. -/
def IgnoresRepetition (c : Context) (n : List Term) (p : Pattern) (env : Environment) : Prop :=
  (c.source.graphNodes c.query.fromNamed).Perm (c.source.graphNodes n) ∨
    p.namesGraphs = true ∧ env.InNamedGraph

section

variable (hd : SameGraphs c.query.fromDefault d) (hn : SameGraphs c.query.fromNamed n)

include hd hn

theorem restriction_sameGraphs (env : Environment) : SameGraphs (Source.restriction c.query env)
    (Source.restriction (c.query.restrictedTo d n) env) := by
  unfold Source.restriction
  split_ifs
  · exact hn
  · exact hd

theorem agree_edge_of_lists {e : EdgePattern} (hi : c.IgnoresRepetition n (.edge e) a)
    (hab : a.withoutTrail = b.withoutTrail) (h h' : Hooks) :
    AgreeUpToTrail ((Pattern.edge e).trace c h a)
      ((Pattern.edge e).trace (c.alongside c.source d n) h' b) := by
  refine agree_edge (χ := id) (P := fun _ => true) (Q := fun _ => true) hab rfl rfl
    (((List.Perm.filter _ ?_)).map id) (fun _ _ _ _ => rfl) (fun _ _ _ _ => rfl)
    (fun o _ o' _ ho => ?_) h h'
  · refine (restriction_sameGraphs hd hn a).matchEdge_perm fun v hg => ?_
    have hsome : a.graph.isSome = true := by rw [hg]; rfl
    rw [Source.restriction, Source.restriction, if_pos hsome, if_pos hsome]
    exact hi.resolve_right fun hnamed => hnamed.2 v hg
  · obtain rfl : o = o' := ho
    exact bindEdge_alongside rfl (fun _ _ _ => rfl) e a

theorem agree_path_of_lists (hs : c.source.store.Valid) {p : PathPattern}
    (hab : a.withoutTrail = b.withoutTrail) :
    AgreeUpToTrail (c.tracePath p a) ((c.alongside c.source d n).tracePath p b) := by
  obtain ⟨hdirection, hstarts⟩ := c.walk_alongside p a
  have hsteps : ∀ (m : Environment) (step : Path) (t : Term),
      c.source.stepFrom ⟨c.query, m, p⟩ step t =
        c.source.stepFrom ⟨c.query.restrictedTo d n, m, p⟩ step t := fun m step t => by
    rw [Source.stepFrom, Source.stepFrom]
    dsimp only
    rw [(restriction_sameGraphs hd hn m).matchStep_congr]
    rfl
  refine agree_path hab (P := fun _ => true) (Q := fun _ => true) hdirection (.filter _ ?_)
    (fun _ _ _ _ _ => rfl) (fun _ _ _ _ _ => rfl) fun m _ t =>
      Source.reach_perm_of_steps hs hs (fun step t _ hu => hsteps m step t ▸ hu)
        (fun step t _ hu => (hsteps m step t).symm ▸ hu) p.path _ t
  rcases hstarts with h | ⟨h, h', -⟩
  · rw [h]
  · rw [h, h']
    rfl

theorem accord_of_lists (hs : c.source.store.Valid) :
    c.Accord c.source d n
      ⟨fun graph _ => (c.source.graphNodes c.query.fromNamed).Perm (c.source.graphNodes n) ∨
        ∀ v, graph ≠ some (.var v), fun _ => .inr fun _ h => by cases h⟩
      (c.IgnoresRepetition n) where
  edge hi hab h h' := agree_edge_of_lists hd hn hi hab h h'
  path _ hab := agree_path_of_lists hd hn hs hab
  graphs hi := (hn.namedGraphs_perm (hi.resolve_right fun h => by cases h.1)).map _
  setting hi := hi.imp id And.right
  kept {p _} hi h m hm := hi.imp id fun hi => p.inNamedGraph_of_trace hi.1 hi.2 m hm
  choose hi _ := hi
  head hi := hi.imp id fun hi => ⟨(Bool.and_eq_true_iff.mp hi.1).1, hi.2⟩
  tail {p _ _} hi h m hm := hi.imp id fun hi =>
    have hnames := Bool.and_eq_true_iff.mp hi.1
    ⟨hnames.2, p.inNamedGraph_of_trace hnames.1 hi.2 m hm⟩
  left hi := hi.imp id fun hi => ⟨(Bool.and_eq_true_iff.mp hi.1).1, hi.2⟩
  right {l _ _ _} hi h m hm := hi.imp id fun hi =>
    have hnames := Bool.and_eq_true_iff.mp hi.1
    ⟨hnames.2, l.inNamedGraph_of_trace hnames.1 hi.2 m hm⟩
  union hi := ⟨hi.imp id fun hi => ⟨(Bool.and_eq_true_iff.mp hi.1).1, hi.2⟩,
    hi.imp id fun hi => ⟨(Bool.and_eq_true_iff.mp hi.1).2, hi.2⟩⟩
  minus hi := ⟨hi.imp id fun hi => ⟨(Bool.and_eq_true_iff.mp hi.1).1, hi.2⟩,
    hi.imp id fun hi => ⟨(Bool.and_eq_true_iff.mp hi.1).2, hi.2⟩⟩
  inside {g p a} hi := hi.imp id fun ⟨hnames, _⟩ => by
    cases g with
    | var v => cases hnames
    | const t => exact ⟨hnames, fun v h => by cases h⟩
  within hi _ _ _ _ := .inl (hi.resolve_right fun h => by cases h.1)

end

/-! ### The graphs that a clause goes through -/

section

variable {v : Variable} {t : Term} {path : Path} {l l' : List Term} {ans ans' : Solutions}

/-- A path that leads from a node to itself has one result for a constant as both ends. -/
theorem results_loop (hs : c.source.store.Valid) (hpath : path.isNullable = true) (h : Hooks)
    (m : Environment) {α : Type} (f : Environment → α)
    (hf : ∀ m i, f (Environment.choose m i) = f m) :
    ((Pattern.path ⟨.const t, path, .const t⟩).results c h m).map f = [f m] := by
  let reached (m : Environment) : List Term :=
    c.source.reach ⟨c.query, m, ⟨.const t, path, .const t⟩⟩ path false t.canonical
  have hends : ∀ m, (c.resultsEnds (.const t) (reached m) m).map f = [f m] := by
    intro m
    have hnodup : (reached m).Nodup := Source.nodup_reach _ _ _ _ _
    have hmem : t.canonical ∈ reached m := Source.mem_reach_self hs hpath
    have hsingle : ∀ (ts : List Term) (i : Nat), ((ts.zipIdx i).flatMap fun p =>
        if p.1 = t.canonical then [m.choose p.2] else []).map f =
          List.replicate (ts.count t.canonical) (f m) := by
      intro ts
      induction ts with
      | nil => exact fun _ => rfl
      | cons u ts ih =>
        intro i
        rw [List.zipIdx_cons, List.flatMap_cons, List.map_append, ih (i + 1), List.count_cons]
        by_cases hu : u = t.canonical
        · simp [hu, hf, List.replicate_succ]
        · simp [hu]
    exact (hsingle (reached m) 0).trans (by rw [List.count_eq_one_of_mem hnodup hmem]; rfl)
  have hwalk : c.walk ⟨.const t, path, .const t⟩ m =
      ([t.canonical], false, .const t, .const t) := rfl
  rw [Pattern.results, resultsPath, hwalk]
  simp only [bindStart, found, pure, Except.pure, List.zipIdx_singleton, List.flatMap_cons,
    List.flatMap_nil, List.append_nil]
  exact (hends (m.choose 0)).trans (congrArg (fun a => [a]) (hf m 0))

/-- Inside of a graph clause, such a path has one result for each graph that the clause goes
through. -/
theorem results_graphs {d n : List Term}
    (hq : c.query = .plain (.graph (.var v) (.path ⟨.const t, path, .const t⟩)) d n)
    (hs : c.source.store.Valid) (hpath : path.isNullable = true) (h : Hooks) (trail : List Nat) :
    ((Pattern.graph (.var v) (.path ⟨.const t, path, .const t⟩)).results c h
        { Environment.initial c.query with trail }).map
      (fun m => c.query.vars.map (m.binding? c.query)) =
      (c.source.namedGraphs c.query.fromNamed).map fun g => [some g.term] := by
  have hvars : c.query.vars = [v] := by rw [hq]; rfl
  have hv : v ∈ c.query.vars := by rw [hvars]; exact List.mem_singleton_self v
  let start : Environment := { Environment.initial c.query with trail }
  let inside (i : Nat) : Environment := (start.under (some (.var v))).choose i
  have hlength : ∀ i, (inside i).bindings.length = c.query.vars.length := fun _ =>
    List.length_replicate
  have hfree : ∀ i, (inside i).binding? c.query v = none := fun _ =>
    Environment.binding_initial c.query v
  have hget : start.get? c.query v = none := (Environment.get_eq_binding rfl).trans (hfree 0)
  have henter : ((start.get? c.query v).isNone &&
      (Pattern.path ⟨.const t, path, .const t⟩).containsPath) = true := by
    rw [hget]
    rfl
  have hbind : ∀ i u, (inside i).bind? c.query v u = .ok (some ((inside i).assign c.query v u)) :=
    fun i u => Environment.bind_of_free hv (hfree i) u
  have hvalue : ∀ i u, ((inside i).assign c.query v u).binding? c.query v = some u := fun i u =>
    Environment.binding_bound (hlength i) (hbind i u)
  rw [Pattern.results]
  dsimp only
  rw [if_pos henter, List.map_flatMap]
  have hgraph : ∀ p : Node × Nat, ((found ((inside p.2).bind? c.query v p.1.term)).flatMap
      ((Pattern.path ⟨.const t, path, .const t⟩).results c h)).map
        (fun m => c.query.vars.map (m.binding? c.query)) = [[some p.1.term]] := by
    intro p
    rw [hbind, found, List.flatMap_cons, List.flatMap_nil, List.append_nil,
      results_loop hs hpath h _ _ fun _ _ => rfl, hvars, List.map_singleton, hvalue]
  refine (List.flatMap_congr fun p _ => hgraph p).trans ?_
  rw [← List.map_eq_flatMap]
  conv_rhs => rw [← List.zipIdx_map_fst 0 (c.source.namedGraphs c.query.fromNamed), List.map_map]
  rfl

end

end Context

/-! ### How often graphs are listed -/

namespace Source

variable {s : Source} {l l' : List Term}

/-- Graphs are told apart by their names. -/
theorem graphNodes_perm_iff_terms (hs : s.store.Valid) : (s.graphNodes l).Perm (s.graphNodes l') ↔
    ((s.graphNodes l).map (·.term)).Perm ((s.graphNodes l').map (·.term)) := by
  have hterms : ∀ l, s.graphNodes l =
      ((s.graphNodes l).map (·.term)).filterMap s.store.graphNode? := by
    intro l
    have hself : ∀ m ∈ s.graphNodes l, s.store.graphNode? m.term = some m := by
      intro m hm
      rw [graphNodes_eq_canonical] at hm
      obtain ⟨t, ht, hm⟩ := List.mem_filterMap.mp hm
      obtain ⟨t', -, rfl⟩ := List.mem_map.mp ht
      rw [(hs.graphNode_eq_some hm).1, t'.canonical_canonical, hm]
    rw [List.filterMap_map]
    exact ((List.filterMap_congr hself).trans List.filterMap_some).symm
  refine ⟨fun h => h.map _, fun h => ?_⟩
  rw [hterms l, hterms l']
  exact h.filterMap _

/-- The graphs that are found in two lists are the same, as often, if and only if each graph of the
store is listed equally often. -/
theorem graphNodes_perm_iff (hs : s.store.Valid) :
    (s.graphNodes l).Perm (s.graphNodes l') ↔
      ∀ t, s.store.Names t → (l.map Term.canonical).count t = (l'.map Term.canonical).count t := by
  classical
  rw [graphNodes_perm_iff_terms hs, graphNodes_map_term_eq hs, graphNodes_map_term_eq hs,
    List.perm_iff_count]
  refine forall_congr' fun t => ?_
  by_cases ht : s.store.Names t
  · rw [List.count_filter (by simpa using ht), List.count_filter (by simpa using ht)]
    exact ⟨fun h _ => h, fun h => h ht⟩
  · have hzero : ∀ l : List Term, (l.filter fun t => s.store.Names t).count t = 0 := fun l =>
      List.count_eq_zero.mpr fun hm => ht (by simpa using (List.mem_filter.mp hm).2)
    rw [hzero, hzero]
    exact iff_of_true rfl fun h => (ht h).elim

theorem namedGraphs_perm_iff (hs : s.store.Valid) (h : SameGraphs l l') :
    ((s.namedGraphs l).map fun g => [some g.term]).Perm
        ((s.namedGraphs l').map fun g => [some g.term]) ↔
      (s.graphNodes l).Perm (s.graphNodes l') := by
  have hinjective : Function.Injective fun t : Term => [some t] := fun t u htu => by simpa using htu
  have hrows : ∀ gs : List Node, (gs.map fun g => [some g.term]) =
      (gs.map (·.term)).map fun t => [some t] := fun gs => by
    rw [List.map_map]
    rfl
  rw [hrows, hrows, List.map_perm_map_iff hinjective]
  by_cases hl : l = []
  · subst hl
    rw [h.eq_nil_iff.mp rfl]
    exact iff_of_true (.refl _) (.refl _)
  · have hl' : l' ≠ [] := fun hl' => hl (h.eq_nil_iff.mpr hl')
    rw [namedGraphs, namedGraphs, if_neg (by simpa using hl), if_neg (by simpa using hl')]
    exact (graphNodes_perm_iff_terms hs).symm

end Source

/-- Whether all graph clauses of a query name their graphs. -/
def Query.namesGraphs (q : Query) : Bool := q.body.namesGraphs && q.patterns.all (·.namesGraphs)

namespace Context

variable {c : Context} {d n : List Term} {ans ans' : Solutions}

/-- A query over two lists that have the same graphs. -/
theorem projected_perm_of_lists (hs : c.source.store.Valid)
    (hd : SameGraphs c.query.fromDefault d) (hn : SameGraphs c.query.fromNamed n)
    (hlists : c.query.namesGraphs = true ∨
      (c.source.graphNodes c.query.fromNamed).Perm (c.source.graphNodes n))
    (hsystem : ∀ target, ¬ c.ComesTo (.snapshot target)) (hcap : c.source.options.limit = none)
    (hagg : c.query.isAggregate = false) (hoffset : c.query.offset = 0)
    (hlimit : c.query.limit = none) (h : c.answer.outcome = .ok ans)
    (h' : (c.alongside c.source d n).answer.outcome = .ok ans') :
    (ans.rows.map (·.restrict ans.projection)).Perm
      (ans'.rows.map (·.restrict ans'.projection)) := by
  have hpattern : ∀ p, p = c.query.body ∨ p ∈ c.query.patterns → ∀ a : Environment,
      ((c.source.graphNodes c.query.fromNamed).Perm (c.source.graphNodes n) ∨ a.InNamedGraph) →
        c.IgnoresRepetition n p a := by
    intro p hp a ha
    rcases hlists with hnames | hlists
    · rw [Query.namesGraphs, Bool.and_eq_true, List.all_eq_true] at hnames
      refine ha.imp id fun ha => ⟨?_, ha⟩
      rcases hp with rfl | hp
      · exact hnames.1
      · exact hnames.2 p hp
    · exact .inl hlists
  exact projected_perm_of_accord (accord_of_lists hd hn hs) hsystem
    (fun hp _ hk => hpattern _ (.inr (List.mem_of_getElem? hp)) _ hk)
    (fun trail => hpattern _ (.inl rfl) _ (.inr fun _ hg => by cases hg))
    (fun _ _ => .inr fun _ hg => by cases hg) hcap hcap hagg hoffset hlimit h h'

/-- A clause that goes through the listed graphs has the same rows for two lists with the same
graphs if and only if they list the graphs of the store equally often. -/
theorem graphs_perm_iff {v : Variable} {t : Term} {path : Path}
    (hq : c.query = .plain (.graph (.var v) (.path ⟨.const t, path, .const t⟩)) c.query.fromDefault
      c.query.fromNamed)
    (hs : c.source.store.Valid) (hn : SameGraphs c.query.fromNamed n)
    (hpath : path.isNullable = true) (hcap : c.source.options.limit = none)
    (h : c.answer.outcome = .ok ans) (h' : (c.alongside c.source d n).answer.outcome = .ok ans') :
    (ans.rows.map (·.restrict ans.projection)).Perm (ans'.rows.map (·.restrict ans'.projection)) ↔
      (c.source.graphNodes c.query.fromNamed).Perm (c.source.graphNodes n) := by
  have hq' : (c.alongside c.source d n).query =
      .plain (.graph (.var v) (.path ⟨.const t, path, .const t⟩)) d n := by
    change c.query.restrictedTo d n = _
    rw [hq]
    rfl
  have hrows := rows_perm_of_plain hq hcap h
  have hrows' := rows_perm_of_plain hq' hcap h'
  rw [results_graphs hq hs hpath] at hrows
  rw [results_graphs hq' hs hpath] at hrows'
  rw [← Source.namedGraphs_perm_iff hs hn]
  exact ⟨fun hperm => hrows.symm.trans (hperm.trans hrows'),
    fun hperm => hrows.trans (hperm.trans hrows'.symm)⟩

end Context

namespace Processor

/-- The lists of a dataset clause may be replaced by others with the same graphs, if no graph clause
has a variable, or if each graph of the store is named equally often by the lists for graph clauses.
For a clause that goes through the graphs they may be replaced in this case only. -/
theorem evaluate_perm_of_lists (p : Processor) {q : Query} {d n : List Term}
    (hd : SameGraphs q.fromDefault d) (hn : SameGraphs q.fromNamed n)
    (hsystem : ∀ target, ¬ (p.scope q).ComesTo (.snapshot target)) {entailment : Bool}
    {history : List Insertion} {options : Options} (hcap : options.limit = none)
    (hagg : q.isAggregate = false) (hoffset : q.offset = 0) (hlimit : q.limit = none) :
    ((q.namesGraphs = true ∨ ∀ t ∈ history.flatMap Insertion.names,
        (q.fromNamed.map Term.canonical).count t = (n.map Term.canonical).count t) → ∀ ans ans',
      ((p.filled entailment history options).evaluate q).outcome = .ok ans →
      ((p.filled entailment history options).evaluate (q.restrictedTo d n)).outcome = .ok ans' →
        (ans.rows.map (·.restrict ans.projection)).Perm
          (ans'.rows.map (·.restrict ans'.projection))) ∧
    ∀ (v : Variable) (t : Term) (path : Path), path.isNullable = true →
      let graphs := Query.plain (.graph (.var v) (.path ⟨.const t, path, .const t⟩)) q.fromDefault
        q.fromNamed
      ∃ ans ans', ((p.filled entailment history options).evaluate graphs).outcome = .ok ans ∧
        ((p.filled entailment history options).evaluate (graphs.restrictedTo d n)).outcome =
          .ok ans' ∧
        ((ans.rows.map (·.restrict ans.projection)).Perm
          (ans'.rows.map (·.restrict ans'.projection)) ↔
            ∀ t ∈ history.flatMap Insertion.names,
              (q.fromNamed.map Term.canonical).count t = (n.map Term.canonical).count t) := by
  have hcont := Store.contains_after entailment history
  have hlisted : ((p.filled entailment history options).source.graphNodes q.fromNamed).Perm
      ((p.filled entailment history options).source.graphNodes n) ↔
        ∀ t ∈ history.flatMap Insertion.names,
          (q.fromNamed.map Term.canonical).count t = (n.map Term.canonical).count t :=
    (Source.graphNodes_perm_iff hcont.valid).trans
      (forall_congr' fun t => imp_congr_left (hcont.names t))
  refine ⟨fun hlists ans ans' h h' => ?_, ?_⟩
  · let c : Context :=
      { query := q, source := (p.filled entailment history options).source, registry := p.registry,
        remembered := p.remembered }
    exact Context.projected_perm_of_lists (c := c) hcont.valid hd hn (hlists.imp id hlisted.mpr)
      hsystem hcap hagg hoffset hlimit h h'
  · intro v t path hpath graphs
    let c : Context :=
      { query := graphs, source := (p.filled entailment history options).source
        registry := p.registry, remembered := p.remembered }
    obtain ⟨ans, h⟩ : c.answer.Succeeds := Context.succeeds_plain (c := c) rfl rfl rfl
    obtain ⟨ans', h'⟩ : (c.alongside c.source d n).answer.Succeeds :=
      Context.succeeds_plain (d := d) (n := n) rfl rfl rfl
    exact ⟨ans, ans', h, h',
      (Context.graphs_perm_iff (c := c) rfl hcont.valid hn hpath hcap h h').trans hlisted⟩

/-- Two graphs, of which one is listed twice in both lists, at other places. -/
theorem evaluate_perm_of_lists_of_two :
    let a : Term := .iri ⟨"a"⟩
    let b : Term := .iri ⟨"b"⟩
    let p : Term := .iri ⟨"p"⟩
    let g : Term := .iri ⟨"g"⟩
    let h : Term := .iri ⟨"h"⟩
    let history : List Insertion := [.extend [⟨a, p, a, some g⟩, ⟨a, p, b, some h⟩]]
    let v : Variable := ⟨"g"⟩
    let body : Pattern := .graph (.var v) (.edge ⟨.var ⟨"x"⟩, .const p, .var ⟨"y"⟩⟩)
    let path : Path := .zeroOrOne (.predicate ⟨"p"⟩)
    let graphs : Pattern := .graph (.var v) (.path ⟨.const b, path, .const b⟩)
    let run (body : Pattern) (fromDefault fromNamed : List Term) :=
      (Processor.filled { source := { store := {} } } false history {}).evaluate
        ((Query.plain body [g] [g, h, g]).restrictedTo fromDefault fromNamed)
    (∃ ans ans', (run body [g] [g, h, g]).outcome = .ok ans ∧
      (run body [g, g] [h, g, g]).outcome = .ok ans' ∧
      ans.rows.map (·.slots) =
        [[some g, some a, some a], [some h, some a, some b], [some g, some a, some a]] ∧
      (ans.rows.map (·.restrict ans.projection)).Perm
        (ans'.rows.map (·.restrict ans'.projection))) ∧
    ∃ ans ans', (run graphs [g] [g, h, g]).outcome = .ok ans ∧
      (run graphs [g, g] [h, g, g]).outcome = .ok ans' ∧
      (ans.rows.map (·.restrict ans.projection)).Perm
        (ans'.rows.map (·.restrict ans'.projection)) := by
  intro a b p g h history v body path graphs run
  have hrun : (run body [g] [g, h, g]).outcome.toOption.map (·.rows.map (·.slots)) =
      some [[some g, some a, some a], [some h, some a, some b], [some g, some a, some a]] := by
    decide +kernel
  have hrun' : (run body [g, g] [h, g, g]).outcome.toOption.map (fun _ => ()) = some () := by
    decide +kernel
  obtain ⟨ans, hans, hrows⟩ := exists_of_toOption hrun
  obtain ⟨ans', hans', -⟩ := exists_of_toOption hrun'
  have hd : SameGraphs [g] [g, g] := by decide +kernel
  have hn : SameGraphs [g, h, g] [h, g, g] := by decide +kernel
  have hcount : ∀ t ∈ history.flatMap Insertion.names,
      ([g, h, g].map Term.canonical).count t = ([h, g, g].map Term.canonical).count t := by
    decide +kernel
  have hsystem : ∀ target, ¬ (Processor.scope { source := { store := {} } }
      (.plain body [g] [g, h, g])).ComesTo (.snapshot target) :=
    fun _ => Scope.not_comesTo rfl _
  have hcap : ({} : Options).limit = none := rfl
  obtain ⟨hanswers, hgraphs⟩ := evaluate_perm_of_lists { source := { store := {} } }
    (q := .plain body [g] [g, h, g]) hd hn hsystem hcap rfl rfl rfl
  obtain ⟨found, found', hfound, hfound', hperm⟩ := hgraphs v b path rfl
  exact ⟨⟨ans, ans', hans, hans', hrows, hanswers (.inr hcount) ans ans' hans hans'⟩, found, found',
    hfound, hfound', hperm.mpr hcount⟩

/-- What an edge pattern finds in a graph that is listed twice is found twice, unless its subject is
known: then the graphs of what is found are only looked up in the list. -/
theorem not_evaluate_perm_of_lists :
    let a : Term := .iri ⟨"a"⟩
    let b : Term := .iri ⟨"b"⟩
    let p : Term := .iri ⟨"p"⟩
    let g : Term := .iri ⟨"g"⟩
    let history : List Insertion := [.extend [⟨a, p, b, some g⟩]]
    let edges (subject : NodePattern) : Pattern :=
      .graph (.var ⟨"g"⟩) (.edge ⟨subject, .const p, .var ⟨"y"⟩⟩)
    let run (body : Pattern) (fromNamed : List Term) :=
      (Processor.filled { source := { store := {} } } false history {}).evaluate
        (.plain body [] fromNamed)
    SameGraphs [g, g] [g] ∧
    (run (edges (.const a)) [g, g]).outcome.toOption.map (·.rows.map (·.slots)) =
      some [[some g, some b]] ∧
    ∃ ans ans', (run (edges (.var ⟨"x"⟩)) [g, g]).outcome = .ok ans ∧
      (run (edges (.var ⟨"x"⟩)) [g]).outcome = .ok ans' ∧
      ans.rows.map (·.slots) = [[some g, some a, some b], [some g, some a, some b]] ∧
      ans'.rows.map (·.slots) = [[some g, some a, some b]] ∧
      ¬ (ans.rows.map (·.restrict ans.projection)).Perm
        (ans'.rows.map (·.restrict ans'.projection)) := by
  intro a b p g history edges run
  have hrun : (run (edges (.var ⟨"x"⟩)) [g, g]).outcome.toOption.map (·.rows.map (·.slots)) =
      some [[some g, some a, some b], [some g, some a, some b]] := by decide +kernel
  have hrun' : (run (edges (.var ⟨"x"⟩)) [g]).outcome.toOption.map (·.rows.map (·.slots)) =
      some [[some g, some a, some b]] := by decide +kernel
  obtain ⟨ans, h, hrows⟩ := exists_of_toOption hrun
  obtain ⟨ans', h', hrows'⟩ := exists_of_toOption hrun'
  refine ⟨by decide +kernel, by decide +kernel, ans, ans', h, h', hrows, hrows', fun hperm => ?_⟩
  have hlength := congrArg List.length hrows
  have hlength' := congrArg List.length hrows'
  have := hperm.length_eq
  simp only [List.length_map, List.length_cons, List.length_nil] at hlength hlength' this
  omega

end Processor

end GraphQuery
