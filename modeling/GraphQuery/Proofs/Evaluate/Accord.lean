import GraphQuery.Proofs.Evaluate.Comparison
import GraphQuery.Proofs.Evaluate.Reordering
import GraphQuery.Proofs.Evaluate.SameContents

/-! Two evaluations of a query side by side, on two stores and over two lists of graphs. If edges,
paths and graphs agree wherever they are come to, then patterns hand on the same environments up to
the order and the ways to them, what is asked for on the way is answered alike, and answers that
are neither grouped nor cut have the same projected rows. -/

namespace GraphQuery

namespace Context

variable {c : Context} {s : Source} {d n : List Term} {a b : Environment}

/-- Whether two traces have the same environments in some order, up to the ways on which they are
reached, if both come to their ends. -/
abbrev AgreeUpToTrail (t t' : Trace Environment) : Prop := t.Agrees Environment.withoutTrail t'

theorem comparison_agrees : Trace.Comparison (fun _ => Run.Agrees) AgreeUpToTrail where
  runs := Run.congruence_agrees
  refl := Run.Agrees.refl
  stop := .stop
  fail e := .ofBinding (x := .error e) rfl
  single := .single
  append := .append
  bind := .bind
  orElse := .orElse
  ofMap h hf := .ofMap fun x x' hx hx' => by
    obtain rfl := h x x' hx hx'
    exact hf x hx hx'
  drain _ := fun _ _ _ _ => rfl
  any h hdrain hdrain' P hP := by
    have hperm := h.perm (Trace.succeeds_drain_iff.mp ⟨_, hdrain⟩)
      (Trace.succeeds_drain_iff.mp ⟨_, hdrain'⟩)
    have hsame : ∀ l : List Environment, l.any P = (l.map Environment.withoutTrail).any P := by
      intro l
      simp only [List.any_map, Function.comp_def, hP]
    rw [hsame, hperm.any_eq, ← hsame]
  first h := Trace.Agrees.run_first h

/-! ### Bindings -/

theorem agree_bindStart (start : NodePattern) (t : Term) (hab : a.withoutTrail = b.withoutTrail) :
    AgreeUpToTrail (.ofBinding (c.bindStart start t a))
      (.ofBinding ((c.alongside s d n).bindStart start t b)) := by
  refine .ofBinding (Eq.trans ?_ (congrArg _ (rfl : c.bindStart start t b = _)))
  rw [← bindStart_withoutTrail, ← bindStart_withoutTrail, hab]

/-! ### Edges -/

section Edges

variable {o o' : Occurrence} {graph : Option NodePattern}
  (ho : o.quad.seen graph = o'.quad.seen graph)
  (haccepts : ∀ position expected, (position = .graph → graph.isSome = true) →
    s.accepts o' position expected = c.source.accepts o position expected)

include ho haccepts

theorem bindPosition_alongside {position : Position}
    (hp : position = .graph → graph.isSome = true) (place : NodePattern) (env : Environment) :
    (c.alongside s d n).bindPosition o' position place env =
      c.bindPosition o position place env := by
  have hnode := Occurrence.node_of_seen ho hp
  have haccepts : ∀ m : Node, (c.alongside s d n).source.accepts o' position m =
      c.source.accepts o position m := fun m => haccepts position m hp
  unfold bindPosition
  cases hm : o.node position with
  | none =>
    rw [hm, Option.map_none, eq_comm, Option.map_eq_none_iff] at hnode
    rw [hnode]
  | some m =>
    rw [hm, Option.map_some, eq_comm, Option.map_eq_some_iff] at hnode
    obtain ⟨m', hm', hterm⟩ := hnode
    rw [hm']
    cases place with
    | const t => simp only [haccepts]
    | var v =>
      simp only [haccepts, hterm]
      rfl

theorem bindPositions_alongside {places : List (Position × NodePattern)}
    (hp : ∀ p ∈ places, p.1 = .graph → graph.isSome = true) (env : Environment) :
    (c.alongside s d n).bindPositions o' places env = c.bindPositions o places env := by
  induction places generalizing env with
  | nil => rfl
  | cons p places ih =>
    obtain ⟨hhead, htail⟩ := List.forall_mem_cons.mp hp
    rw [bindPositions, bindPositions, bindPosition_alongside ho haccepts hhead]
    refine bind_congr fun r => ?_
    cases r with
    | none => rfl
    | some env => exact ih htail env

/-- An edge pattern is fitted alike to what it sees alike. -/
theorem bindEdge_alongside (e : EdgePattern) (env : Environment) :
    (c.alongside s d n).bindEdge e graph o' env = c.bindEdge e graph o env := by
  have hp : ∀ p ∈ [(Position.subject, e.subject), (.object, e.object)]
      ++ (graph.map fun g => (Position.graph, g)).toList, p.1 = .graph → graph.isSome = true := by
    intro p hp hg
    cases graph with
    | some g => rfl
    | none =>
      simp only [List.mem_append, List.mem_cons, List.not_mem_nil, or_false, Option.map_none,
        Option.toList_none] at hp
      rcases hp with rfl | rfl <;> cases hg
  unfold bindEdge
  rw [(Occurrence.ends_of_seen ho).2.1]
  simp only [bindPositions_alongside ho haccepts hp]
  rfl

end Edges

/-- Edges agree if what is found corresponds, apart from what does not fit. -/
theorem agree_edge {ε : Type} {e : EdgePattern} {χ : Occurrence → ε} {P Q : Occurrence → Bool}
    {os os' : List Occurrence} (hab : a.withoutTrail = b.withoutTrail)
    (hos : c.source.matchEdge c.query a e a.graph (Source.restriction c.query a) = os)
    (hos' : s.matchEdge (c.query.restrictedTo d n) a e a.graph
      (Source.restriction (c.query.restrictedTo d n) a) = os')
    (h : ((os.filter P).map χ).Perm ((os'.filter Q).map χ))
    (hP : ∀ o ∈ os, ∀ m, c.bindEdge e a.graph o a = .ok (some m) → P o = true)
    (hQ : ∀ o ∈ os', ∀ m, (c.alongside s d n).bindEdge e a.graph o a = .ok (some m) → Q o = true)
    (hbind : ∀ o ∈ os, ∀ o' ∈ os', χ o = χ o' →
      (c.alongside s d n).bindEdge e a.graph o' a = c.bindEdge e a.graph o a) (k k' : Hooks) :
    AgreeUpToTrail ((Pattern.edge e).trace c k a)
      ((Pattern.edge e).trace (c.alongside s d n) k' b) := by
  obtain ⟨trail, rfl⟩ := Environment.exists_trail hab
  have htrail : ∀ (c : Context) (o : Occurrence),
      (c.bindEdge e a.graph o { a with trail }).map (Option.map Environment.withoutTrail) =
        (c.bindEdge e a.graph o a).map (Option.map Environment.withoutTrail) := fun c o => by
    rw [← bindEdge_withoutTrail, ← bindEdge_withoutTrail]
    rfl
  -- Only what fits hands something on.
  have hfits : ∀ {x : Except QueryError (Option Environment)} {i : Nat},
      (Trace.ofBinding (x.map (·.map (·.choose i)))).items ≠ [] → ∃ m, x = .ok (some m) := by
    intro x i hne
    rcases x with e | _ | m
    · exact (hne rfl).elim
    · exact (hne rfl).elim
    · exact ⟨m, rfl⟩
  rw [Pattern.trace, Pattern.trace]
  change AgreeUpToTrail (.visit _ 0 (c.source.matchEdge _ _ _ _ _))
    (.visit _ 0 (s.matchEdge (c.query.restrictedTo d n) a e a.graph
      (Source.restriction (c.query.restrictedTo d n) a)))
  rw [hos, hos']
  refine .visit_of_filter h (fun i o ho hne => ?_) (fun i o ho hne => ?_)
    (fun i i' o ho o' ho' hoo' => comparison_agrees.bindings ?_ i i') 0 0
  · obtain ⟨m, hm⟩ := hfits hne
    exact hP o ho m hm
  · obtain ⟨m, hm⟩ := hfits hne
    have hm' := htrail (c.alongside s d n) o
    rw [hm] at hm'
    cases hx : (c.alongside s d n).bindEdge e a.graph o a with
    | error e => simp [hx, Except.map] at hm'
    | ok r =>
      cases r with
      | none => simp [hx, Except.map] at hm'
      | some m' => exact hQ o ho m' hx
  · rw [htrail, hbind o ho o' ho' hoo']

/-! ### Paths -/

theorem agree_ends (target : NodePattern) {reached reached' : List Term}
    (hr : reached.Perm reached') (hab : a.withoutTrail = b.withoutTrail) :
    AgreeUpToTrail (c.traceEnds target reached a)
      ((c.alongside s d n).traceEnds target reached' b) := by
  refine .visit (hr.map id) (fun i i' t _ t' _ ht => ?_) 0 0
  obtain rfl : t = t' := ht
  cases target with
  | const u =>
    dsimp only
    split_ifs
    · exact .single hab
    · exact .stop
  | var v => exact comparison_agrees.bind? c.query v t hab

theorem graph_bindStart {start : NodePattern} {t : Term}
    (h : c.bindStart start t a = .ok (some b)) : b.graph = a.graph := by
  cases start with
  | var v => exact Environment.graph_of_bind h
  | const u =>
    cases h
    rfl

/-- Both evaluations walk a path in one direction, and from other starts only if both ends are
free. -/
theorem walk_alongside (p : PathPattern) (env : Environment) :
    (c.walk p env).2 = ((c.alongside s d n).walk p env).2 ∧
      ((c.walk p env).1 = ((c.alongside s d n).walk p env).1 ∨
        (c.walk p env).1 = c.source.startNodes c.query env ∧
          ((c.alongside s d n).walk p env).1 = s.startNodes (c.query.restrictedTo d n) env ∧
          Source.valueOf? c.query env p.subject = none ∧
          Source.valueOf? c.query env p.object = none) := by
  have hvalue : ∀ m, Source.valueOf? (c.alongside s d n).query env m =
      Source.valueOf? c.query env m := fun m => by
    cases m <;> rfl
  unfold walk
  simp only [hvalue]
  split
  · exact ⟨rfl, .inl rfl⟩
  · exact ⟨rfl, .inl rfl⟩
  · next hsubject hobject =>
    exact ⟨rfl, .inr ⟨rfl, rfl, Option.map_eq_none_iff.mp hsubject,
      Option.map_eq_none_iff.mp hobject⟩⟩

/-- Paths agree if they are walked in one direction and, as far as they lead anywhere, from the same
starts to the same ends. -/
theorem agree_path {p : PathPattern} (hab : a.withoutTrail = b.withoutTrail) {P Q : Term → Bool}
    (hdirection : (c.walk p a).2 = ((c.alongside s d n).walk p a).2)
    (hstarts : ((c.walk p a).1.filter P).Perm (((c.alongside s d n).walk p a).1.filter Q))
    (hP : ∀ t ∈ (c.walk p a).1, ∀ m : Environment, m.graph = a.graph →
      c.source.reach ⟨c.query, m, p⟩ p.path (c.walk p a).2.1 t ≠ [] → P t = true)
    (hQ : ∀ t ∈ ((c.alongside s d n).walk p a).1, ∀ m : Environment, m.graph = a.graph →
      s.reach ⟨c.query.restrictedTo d n, m, p⟩ p.path (c.walk p a).2.1 t ≠ [] → Q t = true)
    (hreach : ∀ m : Environment, m.graph = a.graph → ∀ t,
      (c.source.reach ⟨c.query, m, p⟩ p.path (c.walk p a).2.1 t).Perm
        (s.reach ⟨c.query.restrictedTo d n, m, p⟩ p.path (c.walk p a).2.1 t)) :
    AgreeUpToTrail (c.tracePath p a) ((c.alongside s d n).tracePath p b) := by
  obtain ⟨trail, rfl⟩ := Environment.exists_trail hab
  have htrail : (c.alongside s d n).walk p { a with trail } = (c.alongside s d n).walk p a := rfl
  unfold tracePath
  rw [htrail]
  generalize c.walk p a = w at *
  generalize (c.alongside s d n).walk p a = w' at *
  obtain ⟨starts, backwards, start, target⟩ := w
  obtain ⟨starts', backwards', start', target'⟩ := w'
  obtain ⟨rfl, rfl, rfl⟩ : backwards = backwards' ∧ start = start' ∧ target = target' := by
    simpa using hdirection
  -- Nothing is handed on from a start that leads nowhere.
  have hleads : ∀ {c : Context} {a : Environment} {i : Nat} {t : Term},
      ((Trace.ofBinding (c.bindStart start t (a.choose i))).bind fun m => c.traceEnds target
        (c.source.reach ⟨c.query, m, p⟩ p.path backwards t) m).items ≠ [] →
      ∃ m : Environment, m.graph = a.graph ∧
        c.source.reach ⟨c.query, m, p⟩ p.path backwards t ≠ [] := by
    intro c a i t hne
    obtain ⟨e, he⟩ := List.exists_mem_of_ne_nil _ hne
    obtain ⟨m, hm, he⟩ := Trace.mem_of_bind he
    obtain ⟨-, u, hu, -⟩ := Trace.mem_of_visit he
    exact ⟨m, graph_bindStart (a := a.choose i) (Trace.mem_of_ofBinding hm), List.ne_nil_of_mem hu⟩
  refine .visit_of_filter (hstarts.map id) (fun i t ht hne => ?_) (fun i t ht hne => ?_)
    (fun i i' t _ t' _ ht => ?_) 0 0
  · obtain ⟨m, hm, hne⟩ := hleads hne
    exact hP t ht m hm hne
  · obtain ⟨m, hm, hne⟩ := hleads hne
    exact hQ t ht m hm hne
  · obtain rfl : t = t' := ht
    have hstart : AgreeUpToTrail (.ofBinding (c.bindStart start t (a.choose i)))
        (.ofBinding ((c.alongside s d n).bindStart start t ({ a with trail }.choose i'))) :=
      agree_bindStart start t hab
    refine hstart.bind fun m hm m' _ hmm' => ?_
    have hgraph : m.graph = a.graph :=
      graph_bindStart (a := a.choose i) (Trace.mem_of_ofBinding hm)
    refine agree_ends target ?_ hmm'
    rw [← reach_withoutTrail, ← (c.alongside s d n).reach_withoutTrail, ← hmm',
      reach_withoutTrail, reach_withoutTrail]
    exact hreach m hgraph t

/-! ### Patterns -/

/-- Whether edges, paths and graphs agree wherever a property of patterns and environments holds,
which passes on to the parts of a pattern in the environments that they are solved in. -/
structure Accord (c : Context) (s : Source) (d n : List Term) (K : Setting)
    (I : Pattern → Environment → Prop) : Prop extends c.PassesOn K I where
  edge : ∀ {e a b}, I (.edge e) a → a.withoutTrail = b.withoutTrail → ∀ h h',
    AgreeUpToTrail ((Pattern.edge e).trace c h a) ((Pattern.edge e).trace (c.alongside s d n) h' b)
  path : ∀ {p a b}, I (.path p) a → a.withoutTrail = b.withoutTrail →
    AgreeUpToTrail (c.tracePath p a) ((c.alongside s d n).tracePath p b)
  graphs : ∀ {v p a}, I (.graph (.var v) p) a →
    ((c.source.namedGraphs c.query.fromNamed).map (·.term)).Perm ((s.namedGraphs n).map (·.term))

theorem Accord.compares {K : Setting} {I : Pattern → Environment → Prop}
    (ha : c.Accord s d n K I) : c.Compares AgreeUpToTrail s d n K I :=
  { ha with
    graphs := fun hi hf =>
      .visit (ha.graphs hi) (fun i i' g _ g' _ hg => hf i i' g g' hg) 0 0 }

end Context

/-- Whether what is asked for among some requests in some setting is answered alike on whatever
way. -/
abbrev Hooks.AgreeUpToTrail (K : Setting) (c : Scope) (A : Request → Prop) (h h' : Hooks) : Prop :=
  Hooks.RelatedUpToTrail (fun _ => Run.Agrees) K c A h h'

section

variable {c : Context} {s : Source} {d n : List Term} {K : Setting} {A : Request → Prop}
  {h h' : Hooks} {I : Pattern → Environment → Prop} {a b : Environment}

theorem Expr.agrees_eval (hh : Hooks.AgreeUpToTrail K c.toScope A h h') {e : Expr}
    (he : ∀ r ∈ e.requests, A r) (hab : a.withoutTrail = b.withoutTrail) (hk : K.At a) :
    (e.eval c.toScope h a).Agrees (e.eval (c.alongside s d n).toScope h' b) :=
  hh.eval Run.congruence_agrees Run.Agrees.refl he hab hk

/-- A pattern hands the same on in both evaluations, wherever its parts agree. -/
theorem Pattern.agree_trace (ha : c.Accord s d n K I)
    (hh : Hooks.AgreeUpToTrail K c.toScope A h h') (p : Pattern) (hp : ∀ r ∈ p.requests, A r)
    (hab : a.withoutTrail = b.withoutTrail) (hi : I p a) :
    Context.AgreeUpToTrail (p.trace c h a) (p.trace (c.alongside s d n) h' b) :=
  compare_trace Context.comparison_agrees ha.compares hh p hp hab hi

end

namespace Context

variable {c : Context} {s : Source} {d n : List Term} {K : Setting} {start : List Request}
  {I : Pattern → Environment → Prop}

/-- However deep the references go. -/
theorem hooks_agreeUpToTrail (ha : c.Accord s d n K I)
    (hsystem : ∀ target, ¬ c.Reaches start (.snapshot target))
    (hpatterns : ∀ {id p}, c.Reaches start (.existence id) → c.query.pattern? id = some p →
      ∀ {a}, K.At a → I p (a.restored c.query)) (depth : Nat) :
    Hooks.AgreeUpToTrail K c.toScope (c.Reaches start) (c.hooks depth)
      ((c.alongside s d n).hooks depth) :=
  hooks_compare comparison_agrees ha.compares hsystem hpatterns depth

end Context

/-! ### Answers -/

namespace Context

variable {c : Context} {s : Source} {d n : List Term}

/-- Whether the computed columns of a row agree. -/
def ColumnsAgree (c c' : Context) : Prop :=
  ∀ item ∈ c.query.select, ∀ (stage : Stage) (row row' i : Nat) (r : Solution),
    (c.evaluate item.expr (rowEnvironment stage row i r none)).Agrees
      (c'.evaluate item.expr (rowEnvironment stage row' i r none))

section

variable (hcolumns : c.ColumnsAgree (c.alongside s d n))

include hcolumns

theorem rows_selectRows_perm {raw raw' selected selected' : Solutions}
    (hraw : raw.rows.Perm raw'.rows) (h : (c.selectRows raw).outcome = .ok selected)
    (h' : ((c.alongside s d n).selectRows raw').outcome = .ok selected') :
    selected.rows.Perm selected'.rows := by
  have hselect : (c.alongside s d n).query.select = c.query.select := rfl
  unfold selectRows at h h'
  rw [hselect] at h'
  split_ifs at h h'
  · rwa [← Except.ok.inj h, ← Except.ok.inj h']
  · obtain ⟨kept, hkept, h⟩ := Run.outcome_bind_eq_ok h
    obtain ⟨kept', hkept', h'⟩ := Run.outcome_bind_eq_ok h'
    rw [← Except.ok.inj h, ← Except.ok.inj h']
    refine List.Perm.filterMap _ ?_
    exact Run.perm_of_mapIdx hraw (fun i i' r _ =>
      related_selectFrom Run.congruence_agrees Run.Agrees.refl i i' 0 hcolumns r) hkept hkept'

/-- The projected rows of an answer that is neither grouped nor cut. -/
theorem projected_perm_of_agree (hbody : AgreeUpToTrail c.bodyTrace (c.alongside s d n).bodyTrace)
    (hcap : c.source.options.limit = none) (hcap' : s.options.limit = none)
    (hagg : c.query.isAggregate = false) (hoffset : c.query.offset = 0)
    (hlimit : c.query.limit = none) {ans ans' : Solutions} (h : c.answer.outcome = .ok ans)
    (h' : (c.alongside s d n).answer.outcome = .ok ans') :
    (ans.rows.map (·.restrict ans.projection)).Perm
      (ans'.rows.map (·.restrict ans'.projection)) := by
  obtain ⟨raw, selected, keyed, hans⟩ := exists_completes hagg h
  obtain ⟨raw', selected', keyed', hans'⟩ := exists_completes (c := c.alongside s d n) hagg h'
  obtain ⟨hends, hrows⟩ := rows_rawSolutions hcap hans.body
  obtain ⟨hends', hrows'⟩ := rows_rawSolutions (c := c.alongside s d n) hcap' hans'.body
  have hraw : raw.rows.Perm raw'.rows := by
    have hperm := (hbody.perm hends hends').map Environment.solution
    rw [List.map_map, List.map_map] at hperm
    rw [hrows, hrows']
    exact hperm
  have hselected := (rows_selectRows_perm hcolumns hraw hans.select hans'.select).map
    (·.restrict c.query.projectedSlots)
  have hdistinct : (c.alongside s d n).query.distinct = c.query.distinct := rfl
  have hslots : (c.alongside s d n).query.projectedSlots = c.query.projectedSlots := rfl
  refine (hans.projected_perm hoffset hlimit).trans
    (.trans ?_ (hans'.projected_perm hoffset hlimit).symm)
  rw [hdistinct, hslots]
  split_ifs
  · refine (List.perm_ext_iff_of_nodup (nodup_eraseDups _) (nodup_eraseDups _)).mpr fun row => ?_
    rw [List.mem_eraseDups, List.mem_eraseDups, hselected.mem_iff]
  · exact hselected

end

/-- Where the body and all columns are in the property from the start, the answers agree. -/
theorem projected_perm_of_accord {K : Setting} {I : Pattern → Environment → Prop}
    (ha : c.Accord s d n K I) (hsystem : ∀ target, ¬ c.ComesTo (.snapshot target))
    (hpatterns : ∀ {id p}, c.query.pattern? id = some p → ∀ {a}, K.At a →
      I p (a.restored c.query))
    (hbody : ∀ trail, I c.query.body { Environment.initial c.query with trail })
    (hrow : ∀ r trail, K.At (.ofSolution r none trail))
    (hcap : c.source.options.limit = none) (hcap' : s.options.limit = none)
    (hagg : c.query.isAggregate = false) (hoffset : c.query.offset = 0)
    (hlimit : c.query.limit = none) {ans ans' : Solutions} (h : c.answer.outcome = .ok ans)
    (h' : (c.alongside s d n).answer.outcome = .ok ans') :
    (ans.rows.map (·.restrict ans.projection)).Perm
      (ans'.rows.map (·.restrict ans'.projection)) := by
  have hh : Hooks.AgreeUpToTrail K c.toScope (c.Reaches c.query.requests) (c.hooks c.depth)
      ((c.alongside s d n).hooks c.depth) :=
    hooks_agreeUpToTrail ha (fun target hr => hsystem target (.of_reaches (fun _ hr => hr) hr))
      (fun _ hp => hpatterns hp) c.depth
  refine projected_perm_of_agree (fun item hm stage row row' i r => ?_) ?_ hcap hcap' hagg hoffset
    hlimit h h'
  · exact item.expr.agrees_eval hh (fun r hr => .start (Query.mem_requests_of_select hm hr)) rfl
      (hrow r _)
  · exact Pattern.agree_trace ha hh c.query.body
      (fun r hr => .start (Query.mem_requests_of_body hr)) rfl (hbody _)

end Context

/-- There is a result if something of it is known. -/
theorem exists_of_toOption {ε α β : Type} {x : Except ε α} {f : α → β} {b : β}
    (h : x.toOption.map f = some b) : ∃ a, x = .ok a ∧ f a = b := by
  cases x with
  | error e => cases h
  | ok a => exact ⟨a, rfl, Option.some.inj h⟩

namespace Processor

/-- The same processor on a store that was filled by some calls. -/
def filled (p : Processor) (entailment : Bool) (history : List Insertion) (options : Options) :
    Processor :=
  { p with source := { store := .after entailment history, options } }

/-- What the expressions of a query are evaluated against. -/
def scope (p : Processor) (q : Query) : Scope :=
  { query := q, registry := p.registry, remembered := p.remembered }

end Processor

end GraphQuery
