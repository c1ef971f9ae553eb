import GraphQuery.Proofs.Evaluate.Instantiate

/-! Graph clauses with a free variable. Such a clause is solved in one graph after the other, each
with its name in the place of the variable, exactly if what is on the right of a difference removes
the same by itself in one graph and in whatever graph the variable stands for. -/

namespace GraphQuery

/-! ### Plain patterns -/

namespace Pattern

/-- Whether a pattern is a filter by values alone. -/
def isPureFilter : Pattern → Bool
  | filter e => e.isPure
  | _ => false

/-- Whether a pattern consists of edges and paths that are put together in sequences, alternatives
and differences, and of pure filters that stand behind something in a sequence. -/
def isPlain : Pattern → Bool
  | edge _ | path _ => true
  | sequence items => startsPlain items
  | union l r | minus l r => l.isPlain && r.isPlain
  | optional _ _ _ | filter _ | bind _ _ | graph _ _ | values _ _ => false
where
  startsPlain : List Pattern → Bool
    | [] => false
    | p :: ps => p.isPlain && followsPlain ps
  followsPlain : List Pattern → Bool
    | [] => true
    | p :: ps => (p.isPlain || p.isPureFilter) && followsPlain ps

theorem followsPlain_iff {ps : List Pattern} : isPlain.followsPlain ps = true ↔
    ∀ p ∈ ps, p.isPlain = true ∨ p.isPureFilter = true := by
  induction ps with
  | nil => simp [isPlain.followsPlain]
  | cons p ps ih => simp [isPlain.followsPlain, ih]

theorem isSimple_of_isPureFilter {p : Pattern} (hp : p.isPureFilter = true) : p.isSimple = true := by
  cases p with
  | filter e => exact hp
  | _ => cases hp

theorem differences_of_isPureFilter {p : Pattern} (hp : p.isPureFilter = true) :
    p.differences = [] := by
  cases p with
  | filter e => rfl
  | _ => cases hp

/-- A sequence that is plain begins with a plain pattern. -/
theorem exists_of_isPlain_sequence {items : List Pattern}
    (hp : (sequence items).isPlain = true) : ∃ p ps, items = p :: ps ∧ p.isPlain = true ∧
      ∀ q ∈ ps, q.isPlain = true ∨ q.isPureFilter = true := by
  cases items with
  | nil => cases hp
  | cons p ps =>
    obtain ⟨hp, hps⟩ := Bool.and_eq_true_iff.mp hp
    exact ⟨p, ps, rfl, hp, followsPlain_iff.mp hps⟩

theorem isPlain_of_mem {items : List Pattern} (hp : (sequence items).isPlain = true) :
    ∀ q ∈ items, q.isPlain = true ∨ q.isPureFilter = true := by
  obtain ⟨p, ps, rfl, hp, hps⟩ := exists_of_isPlain_sequence hp
  exact List.forall_mem_cons.mpr ⟨.inl hp, hps⟩

theorem isSimple_of_isPlain (p : Pattern) (hp : p.isPlain = true) : p.isSimple = true := by
  cases p with
  | edge | path => rfl
  | sequence items =>
    refine allSimple_iff.mpr fun q hm => ?_
    have := List.sizeOf_lt_of_mem hm
    exact (isPlain_of_mem hp q hm).elim (isSimple_of_isPlain q) isSimple_of_isPureFilter
  | union l r | minus l r =>
    obtain ⟨hl, hr⟩ := Bool.and_eq_true_iff.mp hp
    exact Bool.and_eq_true_iff.mpr ⟨isSimple_of_isPlain l hl, isSimple_of_isPlain r hr⟩
  | _ => cases hp
termination_by sizeOf p

/-- The sides of a difference in a plain pattern are plain patterns of its variables, and the
differences on the left are among its own. -/
theorem of_mem_differences (p : Pattern) (hp : p.isPlain = true) {d : Pattern × Pattern}
    (hd : d ∈ p.differences) : d.1.isPlain = true ∧ d.2.isPlain = true ∧ d.1.vars ⊆ p.vars ∧
      d.2.vars ⊆ p.vars ∧ d.1.differences ⊆ p.differences := by
  cases p with
  | edge | path => cases hd
  | sequence items =>
    obtain ⟨q, hm, hd⟩ := mem_listDifferences.mp hd
    have := List.sizeOf_lt_of_mem hm
    have hv : q.vars ⊆ (sequence items).vars := fun w hw => mem_listVariables.mpr ⟨q, hm, hw⟩
    rcases isPlain_of_mem hp q hm with hq | hq
    · obtain ⟨h₁, h₂, hv₁, hv₂, hs⟩ := of_mem_differences q hq hd
      exact ⟨h₁, h₂, List.Subset.trans hv₁ hv, List.Subset.trans hv₂ hv,
        fun d' hd' => mem_listDifferences.mpr ⟨q, hm, hs hd'⟩⟩
    · rw [differences_of_isPureFilter hq] at hd
      cases hd
  | union l r =>
    obtain ⟨hl, hr⟩ := Bool.and_eq_true_iff.mp hp
    rcases List.mem_append.mp hd with hd | hd
    · obtain ⟨h₁, h₂, hv₁, hv₂, hs⟩ := of_mem_differences l hl hd
      exact ⟨h₁, h₂, List.subset_append_of_subset_left _ hv₁,
        List.subset_append_of_subset_left _ hv₂, List.subset_append_of_subset_left _ hs⟩
    · obtain ⟨h₁, h₂, hv₁, hv₂, hs⟩ := of_mem_differences r hr hd
      exact ⟨h₁, h₂, List.subset_append_of_subset_right _ hv₁,
        List.subset_append_of_subset_right _ hv₂, List.subset_append_of_subset_right _ hs⟩
  | minus l r =>
    obtain ⟨hl, hr⟩ := Bool.and_eq_true_iff.mp hp
    rcases List.mem_cons.mp hd with rfl | hd
    · exact ⟨hl, hr, List.subset_append_left _ _, List.subset_append_right _ _,
        List.subset_cons_self _ _⟩
    · obtain ⟨h₁, h₂, hv₁, hv₂, hs⟩ := of_mem_differences l hl hd
      exact ⟨h₁, h₂, List.subset_append_of_subset_left _ hv₁,
        List.subset_append_of_subset_left _ hv₂, List.subset_cons_of_subset _ hs⟩
  | _ => cases hp
termination_by sizeOf p

end Pattern

/-! ### One graph after the other -/

section Graphs

variable {α : Type} {ns : List Node} {f : Node → List Mapping} {v : Variable}

/-- Lists that bind a variable to different names have no common members. -/
theorem nodup_flatMap_of_names (hns : (ns.map (·.term)).Nodup) (hf : ∀ n ∈ ns, (f n).Nodup)
    (hv : ∀ n ∈ ns, ∀ μ ∈ f n, μ.lookup v = some n.term) : (ns.flatMap f).Nodup := by
  refine List.nodup_flatMap.mpr ⟨hf, ?_⟩
  rw [List.Nodup, List.pairwise_map] at hns
  refine hns.imp_of_mem fun {a b} ha hb hab μ hμ hμ' => ?_
  exact hab (Option.some.inj ((hv a ha μ hμ).symm.trans (hv b hb μ hμ')))

/-- Of lists that bind a variable to different names, the name picks one. -/
theorem filter_flatMap_of_names (hns : (ns.map (·.term)).Nodup)
    (hv : ∀ n ∈ ns, ∀ μ ∈ f n, μ.lookup v = some n.term) {n : Node} (hn : n ∈ ns) :
    (ns.flatMap f).filter (fun μ => μ.lookup v = some n.term) = f n := by
  have hother : ∀ {ms : List Node}, (∀ m ∈ ms, m ∈ ns) → n.term ∉ ms.map (·.term) →
      (ms.flatMap f).filter (fun μ => μ.lookup v = some n.term) = [] := by
    intro ms hms hnot
    refine List.filter_eq_nil_iff.mpr fun μ hμ => ?_
    obtain ⟨m, hm, hμ⟩ := List.mem_flatMap.mp hμ
    rw [hv m (hms m hm) μ hμ, decide_eq_true_iff]
    exact fun h => hnot (List.mem_map.mpr ⟨m, hm, Option.some.inj h⟩)
  obtain ⟨s, t, rfl⟩ := List.append_of_mem hn
  rw [List.map_append, List.map_cons, List.nodup_middle, List.nodup_cons, List.mem_append,
    not_or] at hns
  obtain ⟨⟨hs, ht⟩, -⟩ := hns
  rw [List.flatMap_append, List.flatMap_cons, List.filter_append, List.filter_append,
    hother (fun m hm => List.mem_append_left _ hm) hs,
    hother (fun m hm => List.mem_append_right _ (List.mem_cons_of_mem _ hm)) ht,
    List.nil_append, List.append_nil, List.filter_eq_self]
  exact fun μ hμ => decide_eq_true (hv n hn μ hμ)

end Graphs

namespace Pattern

variable {c : Context} {h : Hooks} {v : Variable} {entailment : Bool} {history : List Insertion}

/-- The name of a graph has its canonical form. -/
theorem canonical_graphNode (hc : c.WholeDataset entailment history) {n : Node}
    (hn : n ∈ c.source.store.graphNodes) : n.term.IsCanonical := by
  obtain ⟨g, -, hg⟩ := Store.mem_graphNodes.mp (List.mem_map_of_mem (f := (·.term)) hn)
  exact hc.contains.valid.dictionary.canonical _ (List.mem_of_getElem? hg)

/-- An edge pattern binds a free graph variable to the name of each graph in which it is found. -/
theorem mappings_edge_union (hc : c.WholeDataset entailment history) (hv : v ∈ c.query.vars)
    {e : EdgePattern} (he : ∀ w ∈ e.vars, w ∈ c.query.vars) {m : Environment}
    (hf : m.Fits c.query) (hfree : v ∉ m.mapping c.query) (hg : m.graph = some (.var v)) :
    ((edge e).mappings c h m).Perm (c.source.store.graphNodes.flatMap fun n =>
      (edge e).mappings c h (m.assign c.query v n.term)) := by
  have hname : ∀ w ∈ (NodePattern.var v).vars, w ∈ c.query.vars := NodePattern.forall_mem_vars.mpr hv
  have hunbound := hc.enumerates_edge (h := h) hf hg hname he
  have hbound : ∀ n ∈ c.source.store.graphNodes, Enumerates c.query (m.assign c.query v n.term)
      (e.vars ++ [v]) (e.HoldsAfter history c.query (some (.var v)))
      ((edge e).results c h (m.assign c.query v n.term)) := fun n hn =>
    hc.enumerates_edge (hf.assign (canonical_graphNode hc hn)) (Environment.graph_assign.trans hg)
      hname he
  have hmem : ∀ n ∈ c.source.store.graphNodes, ∀ ν,
      ν ∈ (edge e).mappings c h (m.assign c.query v n.term) ↔
        ((m.mapping c.query).Extends (e.vars ++ [v]) ν ∧ ν.lookup v = some n.term) ∧
          e.HoldsAfter history c.query (some (.var v)) ν := by
    intro n hn ν
    rw [mappings, (hbound n hn).mem_iff, Environment.mapping_assign hf hv,
      Mapping.extends_insert_of_mem hfree (List.mem_append_right _ List.mem_cons_self)]
  refine (List.perm_ext_iff_of_nodup hunbound.nodup (nodup_flatMap_of_names
    hc.contains.valid.nodup_graphNodes (fun n hn => (hbound n hn).nodup)
    fun n hn μ hμ => ((hmem n hn μ).mp hμ).1.2)).mpr fun ν => ?_
  rw [hunbound.mem_iff, List.mem_flatMap]
  constructor
  · rintro ⟨hx, hp⟩
    obtain ⟨s, p, o, g, -, -, -, hr, t, ht, rfl⟩ := id hp
    have hnames := ((hc.contains.holds _).mpr hr).names hc.contains.valid rfl
    obtain ⟨n, hn, rfl⟩ := List.mem_map.mp (Store.mem_graphNodes.mpr hnames)
    exact ⟨n, hn, (hmem n hn ν).mpr ⟨⟨hx, ht⟩, hp⟩⟩
  · rintro ⟨n, hn, hν⟩
    obtain ⟨⟨hx, -⟩, hp⟩ := (hmem n hn ν).mp hν
    exact ⟨hx, hp⟩

/-- Without a path, a plain pattern binds a free graph variable first, so it binds what it binds
with the variable bound to the name of one graph after the other. -/
theorem mappings_union_of_edges (hc : c.WholeDataset entailment history) (hv : v ∈ c.query.vars)
    (p : Pattern) (hp : p.isPlain = true) (hpath : p.containsPath = false)
    (hvars : ∀ w ∈ p.vars, w ∈ c.query.vars) {m : Environment} (hf : m.Fits c.query)
    (hfree : v ∉ m.mapping c.query) (hg : m.graph = some (.var v)) :
    (p.mappings c h m).Perm (c.source.store.graphNodes.flatMap fun n =>
      p.mappings c h (m.assign c.query v n.term)) := by
  have hname : ∀ w ∈ (NodePattern.var v).vars, w ∈ c.query.vars := NodePattern.forall_mem_vars.mpr hv
  have hassign : ∀ n ∈ c.source.store.graphNodes,
      m.Onward c.query (m.assign c.query v n.term) := fun n hn =>
    hf.onward_assign (canonical_graphNode hc hn)
  have honward : ∀ p : Pattern, p.isPlain = true → p.containsPath = false →
      (∀ w ∈ p.vars, w ∈ c.query.vars) → ∀ a : Environment, m.Onward c.query a →
      ∀ e ∈ p.results c h a, m.Onward c.query e := by
    intro p hp hpath hvars a ha e he
    refine ha.trans (onward_results hc hname p a (isSimple_of_isPlain p hp) hvars ha.fits
      (ha.graph.trans hg) (fun h => ?_) e he).1
    rw [hpath] at h
    cases h
  cases p with
  | edge e => exact mappings_edge_union hc hv hvars hf hfree hg
  | path p => cases hpath
  | sequence items =>
    obtain ⟨p, ps, rfl, hp, hps⟩ := exists_of_isPlain_sequence hp
    obtain ⟨hpath, -⟩ := Bool.or_eq_false_iff.mp hpath
    have hvp : ∀ w ∈ p.vars, w ∈ c.query.vars := fun w hw => hvars w (List.mem_append_left _ hw)
    have hrest : TrailFree (results.resultsAll c h ps) :=
      trailFree_results (sequence ps) (allSimple_iff.mpr fun q hm =>
        (hps q hm).elim (isSimple_of_isPlain q) isSimple_of_isPureFilter)
    have hfirst := mappings_union_of_edges hc hv p hp hpath hvp hf hfree hg
    simp only [mappings, results, results.resultsAll, List.map_flatMap] at hfirst ⊢
    rw [← List.flatMap_assoc]
    rw [← List.map_flatMap] at hfirst
    -- The rest depends on what the first pattern has bound.
    refine perm_flatMap_of_map hfirst fun a ha b hb hab => .of_eq (hrest.map_mapping ?_ c.query)
    obtain ⟨n, hn, hb⟩ := List.mem_flatMap.mp hb
    have hoa := honward p hp hpath hvp m hf.onward a ha
    have hob := honward p hp hpath hvp _ (hassign n hn) b hb
    exact hoa.fits.withoutTrail_eq hob.fits hab (hoa.graph.trans hob.graph.symm)
      (hoa.group.trans hob.group.symm)
  | union l r =>
    obtain ⟨hl, hr⟩ := Bool.and_eq_true_iff.mp hp
    obtain ⟨hpl, hpr⟩ := Bool.or_eq_false_iff.mp hpath
    simp only [mappings_union (isSimple_of_isPlain l hl) (isSimple_of_isPlain r hr)]
    exact ((mappings_union_of_edges hc hv l hl hpl (fun w hw => hvars w (List.mem_append_left _ hw))
      hf hfree hg).append (mappings_union_of_edges hc hv r hr hpr
        (fun w hw => hvars w (List.mem_append_right _ hw)) hf hfree hg)).trans
      (List.flatMap_append_perm _ _ _)
  | minus l r =>
    obtain ⟨hl, hr⟩ := Bool.and_eq_true_iff.mp hp
    obtain ⟨hpl, -⟩ := Bool.or_eq_false_iff.mp hpath
    have hvl : ∀ w ∈ l.vars, w ∈ c.query.vars := fun w hw => hvars w (List.mem_append_left _ hw)
    have hminus : ∀ a : Environment, m.Onward c.query a → (minus l r).mappings c h a =
        (l.mappings c h a).filter fun μ => !decide (μ.RemovedBy (r.alone c h (.var v))) :=
      fun a ha => mappings_minus (isSimple_of_isPlain l hl) (isSimple_of_isPlain r hr)
        (ha.graph.trans hg) fun e he =>
          (honward l hl hpl hvl _ (ha.trans (ha.fits.onward.choose 1)) e he).fits
    rw [hminus m hf.onward, List.flatMap_congr fun n hn => hminus _ (hassign n hn),
      ← List.filter_flatMap]
    exact (mappings_union_of_edges hc hv l hl hpl hvl hf hfree hg).filter _
  | _ => cases hp
termination_by sizeOf p

/-- In either way of solving it, a graph clause with a free variable binds what its inner pattern
binds with the variable bound to the name of one graph after the other. -/
theorem mappings_graph_var (hc : c.WholeDataset entailment history) (hv : v ∈ c.query.vars)
    {p : Pattern} (hp : p.isPlain = true) (hvars : ∀ w ∈ p.vars, w ∈ c.query.vars)
    {m : Environment} (hf : m.Fits c.query) (hfree : v ∉ m.mapping c.query) :
    ((graph (.var v) p).mappings c h m).Perm (c.source.store.graphNodes.flatMap fun n =>
      p.mappings c h ((m.under (some (.var v))).assign c.query v n.term)) := by
  have hget : m.get? c.query v = none := by
    rw [hf.get_eq_lookup]
    exact Finmap.lookup_eq_none.mpr hfree
  rw [mappings, results, hget]
  cases hpath : p.containsPath with
  | false => exact mappings_union_of_edges hc hv p hp hpath hvars (hf.under _) hfree rfl
  | true =>
    have hnodes : c.source.namedGraphs c.query.fromNamed = c.source.store.graphNodes := by
      rw [hc.fromNamed]
      rfl
    have hbinding : ∀ i, ((m.under (some (.var v))).choose i).binding? c.query v = none := by
      intro i
      rw [← Environment.lookup_mapping]
      exact Finmap.lookup_eq_none.mpr hfree
    have hgraph : ∀ a : Node × Nat,
        ((found (((m.under (some (.var v))).choose a.2).bind? c.query v a.1.term)).flatMap
          (p.results c h)).map (·.mapping c.query) =
        p.mappings c h ((m.under (some (.var v))).assign c.query v a.1.term) := by
      intro a
      rw [Environment.bind_of_free hv (hbinding a.2), found, List.flatMap_singleton]
      refine mappings_congr (isSimple_of_isPlain p hp) ?_
      unfold Environment.assign
      cases c.query.slot? v <;> rfl
    rw [hnodes, Option.isNone_none, Bool.true_and, if_pos rfl, List.map_flatMap]
    refine .of_eq ((List.flatMap_congr fun a _ => hgraph a).trans ?_)
    conv_rhs => rw [← List.zipIdx_map_fst 0 c.source.store.graphNodes, List.flatMap_map]

/-- What is found in the graph of a node binds the variable to the name of the node. -/
theorem lookup_of_mappings (hc : c.WholeDataset entailment history) (hv : v ∈ c.query.vars)
    {p : Pattern} (hp : p.isSimple = true) (hvars : ∀ w ∈ p.vars, w ∈ c.query.vars)
    {m : Environment} (hf : m.Fits c.query) {n : Node} (hn : n ∈ c.source.store.graphNodes) :
    ∀ μ ∈ p.mappings c h ((m.under (some (.var v))).assign c.query v n.term),
      μ.lookup v = some n.term := by
  have hlookup : (((m.under (some (.var v))).assign c.query v n.term).mapping c.query).lookup v =
      some n.term := by
    rw [Environment.mapping_assign (hf.under _) hv]
    exact Finmap.lookup_insert _
  intro μ hμ
  obtain ⟨e, he, rfl⟩ := List.mem_map.mp hμ
  exact (onward_results hc (NodePattern.forall_mem_vars.mpr hv) p _ hp hvars
    ((hf.under _).assign (canonical_graphNode hc hn)) Environment.graph_assign
    (fun _ => ⟨_, hlookup⟩) e he).2 v _ hlookup

/-! ### Unions -/

theorem clean_trace_graph {name : NodePattern} {p : Pattern} (hp : p.isSimple = true)
    (hname : ∀ w ∈ name.vars, w ∈ c.query.vars) (hvars : ∀ w ∈ p.vars, w ∈ c.query.vars)
    (m : Environment) : ((graph name p).trace c h m).Clean := by
  have hinner : ∀ e : Environment, e.graph = some name → (p.trace c h e).Clean := by
    refine fun e he => clean_trace p e hp hvars fun n hn => ?_
    obtain rfl := Option.some.inj (he.symm.trans hn)
    exact hname
  cases name with
  | const t =>
    rw [trace]
    exact hinner _ rfl
  | var v =>
    have hv : v ∈ c.query.vars := hname v (by simp [NodePattern.vars, NodePattern.asVariable])
    rw [trace]
    split_ifs
    · refine .visit (fun i n _ => ?_) 0
      obtain ⟨r, hr⟩ : ∃ r, ((m.under (some (.var v))).choose i).bind? c.query v n.term = .ok r :=
        Context.exists_bind hv n.term
      change ((Trace.ofBinding (((m.under (some (.var v))).choose i).bind? c.query v n.term)).bind
        (p.trace c h)).Clean
      rw [hr]
      refine (Trace.Clean.ofBinding r).bind fun e he => hinner e ?_
      exact Environment.graph_of_bind (hr.trans (Trace.mem_of_ofBinding he))
    · exact hinner _ rfl

/-- Whether a graph clause with a free variable is solved, as often, by what solves its inner
pattern in one graph after the other, with the name of the graph in the place of the variable and
with the variable bound to it. -/
structure Unites (c : Context) (h : Hooks) (v : Variable) (p : Pattern) (m : Environment) :
    Prop where
  search : (graph (.var v) p).GoesThrough c h m ((graph (.var v) p).results c h m)
  searchIn : ∀ n ∈ c.source.store.graphNodes,
    (graph (.const n.term) (p.instantiate v n.term)).GoesThrough c h m
      ((graph (.const n.term) (p.instantiate v n.term)).results c h m)
  perm : ((graph (.var v) p).mappings c h m).Perm (c.source.store.graphNodes.flatMap fun n =>
    ((graph (.const n.term) (p.instantiate v n.term)).mappings c h m).map (·.insert v n.term))

theorem mappings_graph_const (t : Term) (p : Pattern) (m : Environment) :
    (graph (.const t) p).mappings c h m = p.mappings c h (m.under (some (.const t))) := by
  rw [mappings, results]
  rfl

section Union

variable (hc : c.WholeDataset entailment history) (hv : v ∈ c.query.vars)

include hc hv

/-- In the graph of a node, a plain pattern binds beside the variable what it binds with the name of
the node in the place of the variable. -/
theorem binds_in_graph {p : Pattern} (hp : p.isSimple = true)
    (hvars : ∀ w ∈ p.vars, w ∈ c.query.vars) {m : Environment} (hf : m.Fits c.query)
    (hfree : v ∉ m.mapping c.query) {n : Node} (hn : n ∈ c.source.store.graphNodes)
    (hd : ∀ d ∈ p.differences, RemovesAlike c h v n.term d.1 d.2) :
    Binds v n.term (p.mappings c h ((m.under (some (.var v))).assign c.query v n.term))
      ((p.instantiate v n.term).mappings c h (m.under (some (.const n.term)))) :=
  binds_mappings hc hv (canonical_graphNode hc hn) p hp hvars
    (hf.replaces hv hfree (canonical_graphNode hc hn)) hd

theorem unites_of_removesAlike {p : Pattern} (hp : p.isPlain = true)
    (hvars : ∀ w ∈ p.vars, w ∈ c.query.vars)
    (hd : ∀ d ∈ p.differences, ∀ n ∈ c.source.store.graphNodes, RemovesAlike c h v n.term d.1 d.2)
    {m : Environment} (hf : m.Fits c.query) (hfree : v ∉ m.mapping c.query) :
    p.Unites c h v m := by
  have hsimple := isSimple_of_isPlain p hp
  refine ⟨?_, fun n hn => ?_, ?_⟩
  · exact (yields_results
      (clean_trace_graph hsimple (NodePattern.forall_mem_vars.mpr hv) hvars m)).goesThrough
  · exact (yields_results (clean_trace_graph (isSimple_instantiate p hsimple)
      NodePattern.forall_vars_const
      (fun w hw => hvars w (vars_instantiate_subset p hsimple hw)) m)).goesThrough
  · refine (mappings_graph_var hc hv hp hvars hf hfree).trans (.flatMap_left _ fun n hn => ?_)
    rw [mappings_graph_const]
    exact (binds_in_graph hc hv hsimple hvars hf hfree hn fun d hdp => hd d hdp n hn).perm

/-- A difference that is the union over the graphs removes the same in each of them, if the
differences on its left do. -/
theorem removesAlike_of_unites {l r : Pattern} (hp : (minus l r).isPlain = true)
    (hvars : ∀ w ∈ (minus l r).vars, w ∈ c.query.vars) {n : Node}
    (hn : n ∈ c.source.store.graphNodes)
    (hd : ∀ d ∈ l.differences, ∀ n ∈ c.source.store.graphNodes, RemovesAlike c h v n.term d.1 d.2)
    (hu : ∀ m : Environment, m.Fits c.query → v ∉ m.mapping c.query →
      (minus l r).Unites c h v m) : RemovesAlike c h v n.term l r := by
  intro m hf hfree
  have hsimple := isSimple_of_isPlain _ hp
  obtain ⟨hl, hr⟩ := Bool.and_eq_true_iff.mp hsimple
  have hvl : ∀ w ∈ l.vars, w ∈ c.query.vars := fun w hw => hvars w (List.mem_append_left _ hw)
  have hbinds := binds_in_graph (h := h) hc hv hl hvl hf hfree hn fun d hdl => hd d hdl n hn
  obtain ⟨hkept, hkept'⟩ := mappings_minus_of_replaces (h := h) hc hv hl hr hvl
    (hf.replaces hv hfree (canonical_graphNode hc hn))
  -- The name of the graph tells the solutions in one graph from those in the others.
  have hperm := ((mappings_graph_var hc hv hp hvars hf hfree).symm.trans (hu m hf hfree).perm).filter
    fun μ => μ.lookup v = some n.term
  have hnames : ∀ n ∈ c.source.store.graphNodes, ∀ μ ∈ ((graph (.const n.term)
      ((minus l r).instantiate v n.term)).mappings c h m).map (·.insert v n.term),
      μ.lookup v = some n.term := by
    rintro n - μ hμ
    obtain ⟨ν, -, rfl⟩ := List.mem_map.mp hμ
    exact Finmap.lookup_insert ν
  rw [filter_flatMap_of_names hc.contains.valid.nodup_graphNodes
      (fun n hn => lookup_of_mappings hc hv hsimple hvars hf hn) hn,
    filter_flatMap_of_names hc.contains.valid.nodup_graphNodes hnames hn,
    mappings_graph_const, hkept, hkept'] at hperm
  replace hperm := (hbinds.perm.filter _).symm.trans hperm
  rw [List.filter_map] at hperm
  intro μ hμ
  have hmem : ∀ k : Mapping → Bool, μ.insert v n.term ∈ ((List.filter k
      ((l.instantiate v n.term).mappings c h (m.under (some (.const n.term))))).map
        (·.insert v n.term)) ↔ k μ = true := by
    intro k
    rw [List.mem_map]
    constructor
    · rintro ⟨ν, hν, he⟩
      obtain ⟨hν, hk⟩ := List.mem_filter.mp hν
      rwa [← Mapping.erase_insert (hbinds.free μ hμ), ← he, Mapping.erase_insert (hbinds.free ν hν)]
    · exact fun hk => ⟨μ, List.mem_filter.mpr ⟨hμ, hk⟩, rfl⟩
  have hkeep := hperm.mem_iff (a := μ.insert v n.term)
  rw [hmem, hmem] at hkeep
  simpa [not_iff_not] using hkeep

/-- The differences in a pattern remove the same, if each of them is the union over the graphs. -/
theorem removesAlike_of_forall_unites (p : Pattern) (hp : p.isPlain = true)
    (hvars : ∀ w ∈ p.vars, w ∈ c.query.vars)
    (hu : ∀ d ∈ p.differences, ∀ m : Environment, m.Fits c.query → v ∉ m.mapping c.query →
      (minus d.1 d.2).Unites c h v m) :
    ∀ d ∈ p.differences, ∀ n ∈ c.source.store.graphNodes, RemovesAlike c h v n.term d.1 d.2 := by
  intro d hd
  cases p with
  | edge | path => cases hd
  | sequence items =>
    obtain ⟨q, hm, hd⟩ := mem_listDifferences.mp hd
    have := List.sizeOf_lt_of_mem hm
    rcases isPlain_of_mem hp q hm with hq | hq
    · exact removesAlike_of_forall_unites q hq
        (fun w hw => hvars w (mem_listVariables.mpr ⟨q, hm, hw⟩))
        (fun d hd => hu d (mem_listDifferences.mpr ⟨q, hm, hd⟩)) d hd
    · rw [differences_of_isPureFilter hq] at hd
      cases hd
  | union l r =>
    obtain ⟨hl, hr⟩ := Bool.and_eq_true_iff.mp hp
    rcases List.mem_append.mp hd with hd | hd
    · exact removesAlike_of_forall_unites l hl (fun w hw => hvars w (List.mem_append_left _ hw))
        (fun d hd => hu d (List.mem_append_left _ hd)) d hd
    · exact removesAlike_of_forall_unites r hr (fun w hw => hvars w (List.mem_append_right _ hw))
        (fun d hd => hu d (List.mem_append_right _ hd)) d hd
  | minus l r =>
    have hleft := removesAlike_of_forall_unites l (Bool.and_eq_true_iff.mp hp).1
      (fun w hw => hvars w (List.mem_append_left _ hw))
      fun d hd => hu d (List.mem_cons_of_mem _ hd)
    rcases List.mem_cons.mp hd with rfl | hd
    · exact fun n hn => removesAlike_of_unites hc hv hp hvars hn hleft
        (hu (l, r) List.mem_cons_self)
    · exact hleft d hd
  | _ => cases hp
termination_by sizeOf p

/-- What a pattern binds by itself in a graph. -/
theorem binds_alone {r : Pattern} (hr : r.isSimple = true) (hvars : ∀ w ∈ r.vars, w ∈ c.query.vars)
    {n : Node} (hn : n ∈ c.source.store.graphNodes)
    (hd : ∀ d ∈ r.differences, RemovesAlike c h v n.term d.1 d.2) :
    Binds v n.term (r.mappings c h
        (((Environment.initial c.query).under (some (.var v))).assign c.query v n.term))
      ((r.instantiate v n.term).alone c h (.const n.term)) := by
  refine binds_in_graph hc hv hr hvars (Environment.fits_initial c.query) ?_ hn hd
  rw [Environment.mapping_initial]
  exact Finmap.notMem_empty

/-- Without a path on the right, a difference removes what is compatible with something that the
right side binds in the same graph, whether or not there is a variable in common. -/
theorem removedBy_alone_iff {r : Pattern} (hr : r.isPlain = true) (hpath : r.containsPath = false)
    (hvars : ∀ w ∈ r.vars, w ∈ c.query.vars)
    (hd : ∀ d ∈ r.differences, ∀ n ∈ c.source.store.graphNodes, RemovesAlike c h v n.term d.1 d.2)
    {n : Node} (hn : n ∈ c.source.store.graphNodes) {μ : Mapping} (hμ : v ∉ μ) :
    Mapping.RemovedBy (r.alone c h (.var v)) (μ.insert v n.term) ↔
      ∃ ν ∈ (r.instantiate v n.term).alone c h (.const n.term), μ.Compatible ν := by
  have hf := Environment.fits_initial c.query
  have hfree : v ∉ (Environment.initial c.query).mapping c.query := by
    rw [Environment.mapping_initial]
    exact Finmap.notMem_empty
  have hunion := mappings_union_of_edges (h := h) hc hv r hr hpath hvars
    (hf.under (some (.var v))) hfree rfl
  have hbinds := fun n hn => binds_alone (h := h) (n := n) hc hv (isSimple_of_isPlain r hr) hvars hn
    fun d hdr => hd d hdr n hn
  constructor
  · rintro ⟨ρ, hρ, hcompatible, -⟩
    obtain ⟨n', hn', hρ⟩ := List.mem_flatMap.mp (hunion.mem_iff.mp hρ)
    obtain ⟨ν, hν, rfl⟩ := List.mem_map.mp ((hbinds n' hn').perm.mem_iff.mp hρ)
    obtain ⟨ht, hcompatible⟩ :=
      (Mapping.compatible_insert_iff hμ ((hbinds n' hn').free ν hν)).mp hcompatible
    exact ⟨ν, ht ▸ hν, hcompatible⟩
  · rintro ⟨ν, hν, hcompatible⟩
    refine ⟨ν.insert v n.term, hunion.mem_iff.mpr (List.mem_flatMap.mpr ⟨n, hn, ?_⟩), ?_, ?_⟩
    · exact (hbinds n hn).perm.mem_iff.mpr (List.mem_map_of_mem hν)
    · exact (Mapping.compatible_insert_iff hμ ((hbinds n hn).free ν hν)).mpr ⟨rfl, hcompatible⟩
    · exact Mapping.sharesVariable_iff.mpr
        ⟨v, _, _, Finmap.lookup_insert μ, Finmap.lookup_insert ν⟩

/-- Without a path on the right, a difference removes alike if both sides always bind some variable
other than that of the graph clause. -/
theorem removesAlike_of_shared {l r : Pattern} (hr : r.isPlain = true)
    (hpath : r.containsPath = false) (hvars : ∀ w ∈ r.vars, w ∈ c.query.vars)
    (hd : ∀ d ∈ r.differences, ∀ n ∈ c.source.store.graphNodes, RemovesAlike c h v n.term d.1 d.2)
    {n : Node} (hn : n ∈ c.source.store.graphNodes) {w : Variable}
    (hleft : ∀ m : Environment, m.Fits c.query → v ∉ m.mapping c.query →
      ∀ μ ∈ (l.instantiate v n.term).mappings c h (m.under (some (.const n.term))),
        v ∉ μ ∧ w ∈ μ)
    (hright : ∀ ν ∈ (r.instantiate v n.term).alone c h (.const n.term), w ∈ ν) :
    RemovesAlike c h v n.term l r := by
  intro m hf hvm μ hμ
  obtain ⟨hfree, hw⟩ := hleft m hf hvm μ hμ
  rw [removedBy_alone_iff hc hv hr hpath hvars hd hn hfree]
  refine exists_congr fun ν => and_congr_right fun hν => ⟨fun hcompatible => ?_, And.left⟩
  exact ⟨hcompatible, w, Finmap.mem_keys.mpr hw, hright ν hν⟩

/-- Edges with a common variable other than that of the graph clause remove alike. -/
theorem removesAlike_edges {e e' : EdgePattern} (he : ∀ w ∈ e.vars, w ∈ c.query.vars)
    (he' : ∀ w ∈ e'.vars, w ∈ c.query.vars) {w : Variable} (hw : w ∈ e.vars) (hw' : w ∈ e'.vars)
    (hne : w ≠ v) {n : Node} (hn : n ∈ c.source.store.graphNodes) :
    RemovesAlike c h v n.term (edge e) (edge e') := by
  have hbound : ∀ {e : EdgePattern}, (∀ w ∈ e.vars, w ∈ c.query.vars) → w ∈ e.vars →
      ∀ {m : Environment}, m.Fits c.query →
        ∀ μ ∈ ((edge e).instantiate v n.term).mappings c h (m.under (some (.const n.term))),
          w ∈ μ := by
    intro e he hw m hf μ hμ
    have hen := hc.enumerates_edge (h := h) (e := e.instantiate v n.term)
      (hf.under (some (.const n.term))) rfl NodePattern.forall_vars_const
      fun w hw => he w (EdgePattern.mem_vars_instantiate.mp hw).1
    exact ((hen.mem_iff μ).mp hμ).1.bound w
      (List.mem_append_left _ (EdgePattern.mem_vars_instantiate.mpr ⟨hw, hne⟩))
  exact removesAlike_of_shared (r := edge e') hc hv rfl rfl he' (List.forall_mem_nil _) hn
    (fun m hf hfree μ hμ =>
      ⟨(binds_in_graph (p := edge e) hc hv rfl he hf hfree hn (List.forall_mem_nil _)).free μ hμ,
        hbound he hw hf μ hμ⟩)
    (hbound he' hw' (Environment.fits_initial c.query))

end Union

/-- A graph clause with a free variable is the union over the graphs of a store, and so is that of
each difference in it, exactly if the differences remove alike: from what the left side binds in a
graph, the right side by itself removes the same in that graph and in whatever graph the variable
stands for, where it binds the variable as well or, along paths, leaves it free. -/
theorem unites_iff (p : Pattern) (hstore : c.source.store = .after entailment history)
    (hfrom : c.query.fromDefault = []) (hnamed : c.query.fromNamed = [])
    (htypes : c.source.hierarchical = false) (hv : v ∈ c.query.vars) (hp : p.isPlain = true)
    (hvars : ∀ w ∈ p.vars, w ∈ c.query.vars) :
    ((∀ m : Environment, m.Fits c.query → v ∉ m.mapping c.query → p.Unites c h v m) ∧
      ∀ d ∈ p.differences, ∀ m : Environment, m.Fits c.query → v ∉ m.mapping c.query →
        (minus d.1 d.2).Unites c h v m) ↔
    ∀ d ∈ p.differences, ∀ n ∈ c.source.store.graphNodes, RemovesAlike c h v n.term d.1 d.2 := by
  have hc : c.WholeDataset entailment history := ⟨hstore, hfrom, hnamed, htypes⟩
  constructor
  · exact fun hu => removesAlike_of_forall_unites hc hv p hp hvars hu.2
  · intro hd
    refine ⟨fun m => unites_of_removesAlike hc hv hp hvars hd, fun d hdp m => ?_⟩
    obtain ⟨hl, hr, hvl, hvr, hsub⟩ := of_mem_differences p hp hdp
    have hplain : (minus d.1 d.2).isPlain = true := Bool.and_eq_true_iff.mpr ⟨hl, hr⟩
    refine unites_of_removesAlike hc hv hplain (fun w hw => ?_) fun d' hd' => ?_
    · exact hvars w ((List.mem_append.mp hw).elim (fun hw => hvl hw) fun hw => hvr hw)
    · rcases List.mem_cons.mp hd' with rfl | hd'
      · exact hd d hdp
      · exact hd d' (hsub hd')

/-- Two edges with a common subject: of what is related by one property, a difference removes in each
graph what is related there by the other. -/
theorem unites_iff_of_edges :
    let name (s : String) : NodePattern := .const (.iri ⟨s⟩)
    let var (s : String) : NodePattern := .var ⟨s⟩
    let quad (s p o g : String) : Quad := ⟨.iri ⟨s⟩, .iri ⟨p⟩, .iri ⟨o⟩, some (.iri ⟨g⟩)⟩
    let p : Pattern := .minus (.edge ⟨var "x", name "p", var "y"⟩) (.edge ⟨var "x", name "q", var "z"⟩)
    let history : List Insertion :=
      [.extend [quad "a" "p" "b" "g", quad "a" "q" "c" "h", quad "b" "p" "c" "h", quad "b" "q" "d" "h"]]
    let c : Context := { query := .ofParts { body := .graph (var "g") p },
                         source := { store := .after false history } }
    let h : Hooks := ⟨fun _ _ => pure none, fun _ _ => pure false⟩
    (∀ m : Environment, m.Fits c.query → ⟨"g"⟩ ∉ m.mapping c.query → p.Unites c h ⟨"g"⟩ m) ∧
      ((graph (var "g") p).mappings c h (.initial c.query)).length = 1 := by
  intro name var quad p history c h
  have hc : c.WholeDataset false history := ⟨rfl, rfl, rfl, rfl⟩
  refine ⟨((unites_iff p rfl rfl rfl rfl (by decide) rfl (by decide)).mpr ?_).1, by decide +kernel⟩
  intro d hd n hn
  obtain rfl := List.mem_singleton.mp hd
  exact removesAlike_edges (w := ⟨"x"⟩) hc (by decide) (by decide) (by decide) (by decide) (by decide)
    (by decide) hn

/-- A difference with a path on the right: in one graph there is a triple with a property, in
another one a triple with another property and the same ends. The path finds the second triple when
the first one is compared with what it leads to, and the clause has no solution, while the path in
the graph of the first triple leads nowhere. -/
theorem not_unites :
    let name (s : String) : NodePattern := .const (.iri ⟨s⟩)
    let var (s : String) : NodePattern := .var ⟨s⟩
    let quad (s p o g : String) : Quad := ⟨.iri ⟨s⟩, .iri ⟨p⟩, .iri ⟨o⟩, some (.iri ⟨g⟩)⟩
    let p : Pattern := .minus (.edge ⟨var "x", name "p", var "y"⟩)
      (.path ⟨var "x", .predicate ⟨"q"⟩, var "y"⟩)
    let history : List Insertion := [.extend [quad "a" "p" "b" "g1", quad "a" "q" "b" "g2"]]
    let c : Context := { query := .ofParts { body := .graph (var "g") p },
                         source := { store := .after false history } }
    let h : Hooks := ⟨fun _ _ => pure none, fun _ _ => pure false⟩
    ¬ p.Unites c h ⟨"g"⟩ (.initial c.query) := by
  intro name var quad p history c h hu
  have hlen := hu.perm.length_eq
  have hnone : ((graph (.var ⟨"g"⟩) p).mappings c h (.initial c.query)).length = 0 := by
    decide +kernel
  have hone : (c.source.store.graphNodes.flatMap fun n =>
      ((graph (.const n.term) (p.instantiate ⟨"g"⟩ n.term)).mappings c h (.initial c.query)).map
        (·.insert ⟨"g"⟩ n.term)).length = 1 := by
    decide +kernel
  rw [hnone, hone] at hlen
  cases hlen

end Pattern

end GraphQuery
