import GraphQuery.Proofs.Evaluate.Distinct
import GraphQuery.Proofs.Evaluate.FirstOccurrences
import GraphQuery.Proofs.Evaluate.Modifiers

/-! Leaving the test for duplicates out. Outside of a graph clause an edge is then found once for each
graph that it is in, and solutions are repeated. Their first occurrences stay in their order, so the
answers to distinct queries are the same. -/

namespace GraphQuery

namespace Occurrence

/-- Only repetitions of an edge are left out. -/
theorem eraseDups_dropRepeats (os : List Occurrence) :
    ((dropRepeats none os).map (·.quad.triple)).eraseDups =
      (os.map (·.quad.triple)).eraseDups := by
  suffices H : ∀ previous : Option Occurrence,
      ((previous.toList ++ dropRepeats (previous.map edge) os).map (·.quad.triple)).eraseDups =
        ((previous.toList ++ os).map (·.quad.triple)).eraseDups from H none
  induction os with
  | nil => exact fun _ => rfl
  | cons b os ih =>
    intro previous
    cases previous with
    | none =>
      rw [dropRepeats_cons_new (by simp)]
      exact ih (some b)
    | some a =>
      by_cases hab : a.quad.triple = b.quad.triple
      · have hsame := eraseDups_append_of_subset (List.Subset.refl [a.quad.triple])
          (os.map (·.quad.triple))
        rw [Option.map_some, dropRepeats_cons_same hab]
        refine (ih (some a)).trans ?_
        simpa [hab] using hsame.symm
      · rw [dropRepeats_cons_new fun a' ha => Option.some.inj ha ▸ hab]
        exact eraseDups_append_congr (ih (some b)) [a.quad.triple]

/-- Instances are left out by what is seen of their edges. -/
theorem eraseDups_matching (store : Store) (expected : Option Node) {os os' : List Occurrence}
    (h : (os.map (·.quad.triple)).eraseDups = (os'.map (·.quad.triple)).eraseDups) :
    ((«matching» store expected os).map (·.quad.triple)).eraseDups =
      ((«matching» store expected os').map (·.quad.triple)).eraseDups := by
  cases expected with
  | none => exact h
  | some c =>
    have hkept : ∀ os : List Occurrence, («matching» store (some c) os).map (·.quad.triple) =
        (os.map (·.quad.triple)).filter fun q =>
          !q.predicate.isTypePredicate || store.subsumes c ⟨q.object, none⟩ := fun os => by
      rw [List.filter_map]
      rfl
    rw [hkept, hkept, eraseDups_filter, h, eraseDups_filter]

end Occurrence

namespace Source

variable (s : Source) (skip : Bool)

/-- The same store, read without the test for duplicates or with it. -/
def skipping : Source := { s with options := { s.options with skipDuplicateTest := skip } }

theorem inForce_skipping (q : Query) (env : Environment) (graph : Option NodePattern)
    (from_ : List Node) (os : List Occurrence) :
    (((s.skipping skip).inForce q env graph from_ os).map (·.quad.seen graph)).eraseDups =
      ((s.inForce q env graph from_ os).map (·.quad.seen graph)).eraseDups := by
  cases graph with
  | some g => rfl
  | none =>
    have hseen : ∀ s : Source, ((s.inForce q env none from_ os).map
        (·.quad.triple)).eraseDups =
          ((os.filter (Occurrence.inOneOf from_)).map (·.quad.triple)).eraseDups := fun s => by
      rw [inForce, Occurrence.successiveDistinct]
      split_ifs
      · rfl
      · exact Occurrence.eraseDups_dropRepeats _
    exact (hseen _).trans (hseen s).symm

/-- An edge pattern is matched by the same edges, as far as it sees them. -/
theorem matchEdge_skipping (q : Query) (env : Environment) (e : EdgePattern)
    (graph : Option NodePattern) (from_ : List Term) :
    (((s.skipping skip).matchEdge q env e graph from_).map (·.quad.seen graph)).eraseDups =
      ((s.matchEdge q env e graph from_).map (·.quad.seen graph)).eraseDups := by
  cases graph with
  | some g => rfl
  | none =>
    have hin := s.inForce_skipping skip q env none (s.graphNodes from_)
      (s.scan q env e none from_ (s.predicates q env e.predicate) (s.asksForType q env e))
    rw [matchEdge_eq, matchEdge_eq]
    change (((if s.hierarchical && s.asksForType q env e then _ else _) : List Occurrence).map
      (·.quad.triple)).eraseDups = _
    split_ifs
    · exact Occurrence.eraseDups_matching _ _ hin
    · exact hin

theorem matchStep_skipping (q : Query) (env : Environment) (p : PathPattern) (step : Path)
    (t : Term) (graph : Option NodePattern) (from_ : List Term) :
    (((s.skipping skip).matchStep q env p step (some ⟨t, none⟩) .subject graph from_).map
        (·.quad.seen graph)).eraseDups =
      ((s.matchStep q env p step (some ⟨t, none⟩) .subject graph from_).map
        (·.quad.seen graph)).eraseDups := by
  have hpredicates : (s.skipping skip).stepPredicates? step = s.stepPredicates? step := by
    induction step with
    | inverse p ih => rw [stepPredicates?, stepPredicates?, ih]
    | _ => rfl
  cases hps : s.stepPredicates? step with
  | none => rw [matchStep, matchStep, hpredicates, hps]
  | some ps =>
    have hnode : (s.skipping skip).store.node? t = s.store.node? t := rfl
    rw [matchStep_eq (hpredicates.trans hps), matchStep_eq hps, hnode]
    cases s.store.node? t with
    | none => rfl
    | some m => exact s.inForce_skipping skip q env graph _ _

/-- A step leads to the same nodes, since it leads to ends of edges whatever their graphs. -/
theorem stepFrom_skipping (g : Ground) (step : Path) :
    (s.skipping skip).stepFrom g step = s.stepFrom g step := by
  obtain ⟨far, hfar, hseen⟩ : ∃ far : Quad → Term,
      (∀ o : Occurrence, (o.node (effectiveIndex step .subject).reverse).map (·.term) =
        some (far o.quad)) ∧ ∀ q, far (q.seen g.env.graph) = far q := by
    rcases isEnd_effectiveIndex step with h | h
    · refine ⟨Quad.object, fun o => by rw [h]; rfl, fun q => ?_⟩
      unfold Quad.seen
      split_ifs <;> rfl
    · refine ⟨Quad.subject, fun o => by rw [h]; rfl, fun q => ?_⟩
      unfold Quad.seen
      split_ifs <;> rfl
  have hends : ∀ os : List Occurrence,
      (os.filterMap fun o => (o.node (effectiveIndex step .subject).reverse).map (·.term)) =
        (os.map (·.quad.seen g.env.graph)).map far := fun os => by
    simp only [hfar, List.map_map, Function.comp_def, hseen, List.filterMap_eq_map']
  funext t
  rw [stepFrom, stepFrom, hends, hends]
  exact eraseDups_map_congr (s.matchStep_skipping skip _ _ _ _ _ _ _) far

theorem reach_skipping (g : Ground) (p : Path) : (s.skipping skip).reach g p = s.reach g p :=
  funext (reach_congr (s.stepFrom_skipping skip g) rfl p)

end Source

/-- All that makes up a solution. -/
def Solution.parts (s : Solution) :
    List (Option Term) × List (Option Term) × List (Option Term) :=
  (s.slots, s.orderKeys, s.groupKeys)

theorem Solution.parts_injective : Function.Injective Solution.parts := by
  rintro ⟨slots, orderKeys, groupKeys⟩ ⟨slots', orderKeys', groupKeys'⟩ h
  simp only [parts, Prod.mk.injEq] at h
  obtain ⟨rfl, rfl, rfl⟩ := h
  rfl

/-- Sequences for the solutions of a query whose rows have the same first occurrences. -/
structure Solutions.SameFirsts (q : Query) (s s' : Solutions) : Prop where
  left : s = { Solutions.ofQuery q with rows := s.rows }
  right : s' = { Solutions.ofQuery q with rows := s'.rows }
  rows : (s.rows.map Solution.parts).eraseDups = (s'.rows.map Solution.parts).eraseDups

/-- What projects to the same is left out of both in the same way. -/
theorem Solutions.SameFirsts.resubmit {q : Query} {s s' : Solutions} (h : SameFirsts q s s')
    (hd : q.distinct = true) :
    s.resubmit.rows = s'.resubmit.rows ∧ s.resubmit.projection = s'.resubmit.projection := by
  have hdistinct : s.distinct = true ∧ s'.distinct = true := by
    rw [h.left, h.right]
    exact ⟨hd, hd⟩
  have hprojection : s.projection = s'.projection := by rw [h.left, h.right]
  refine ⟨?_, by rw [projection_resubmit, projection_resubmit, hprojection]⟩
  rw [rows_resubmit hdistinct.1, rows_resubmit hdistinct.2]
  refine List.map_injective_iff.mpr Solution.parts_injective ?_
  let project (p : List (Option Term) × List (Option Term) × List (Option Term)) :=
    Solution.restrict { slots := p.1 } s'.projection
  have hkept : ∀ rows : List Solution, (rows.eraseDupsBy s'.projectAlike).map Solution.parts =
      (rows.map Solution.parts).eraseDupsBy fun a b => project a == project b :=
    map_eraseDupsBy_comp Solution.parts fun a b => project a == project b
  have halike : s.projectAlike = s'.projectAlike := by
    unfold projectAlike
    rw [hprojection]
  rw [halike, hkept, hkept]
  exact eraseDupsBy_congr h.rows project

namespace Context

variable {c : Context} {a b : Environment}

/-- The same evaluation without the test for duplicates, or with it. -/
def skipping (c : Context) (skip : Bool) : Context := { c with source := c.source.skipping skip }

theorem bindEdge_skipping (c : Context) (skip : Bool) {o o' : Occurrence} {graph : Option NodePattern}
    (ho : o.quad.seen graph = o'.quad.seen graph) (e : EdgePattern) (env : Environment) :
    (c.skipping skip).bindEdge e graph o' env = c.bindEdge e graph o env := by
  have hsubsumes : ∀ {n n' m m' : Node}, n.term = n'.term → m.term = m'.term →
      c.source.store.subsumes n m = c.source.store.subsumes n' m' := fun {n n' m m'} hn hm => by
    change c.source.store.subsumes ⟨n.term, none⟩ ⟨m.term, none⟩ =
      c.source.store.subsumes ⟨n'.term, none⟩ ⟨m'.term, none⟩
    rw [hn, hm]
  exact bindEdge_alongside (s := c.source.skipping skip) (d := c.query.fromDefault)
    (n := c.query.fromNamed) ho (fun position expected hp =>
      Source.accepts_congr rfl hsubsumes ho.symm hp rfl) e env

theorem compares_skipping (c : Context) (skip : Bool) : c.Compares FirstsUpToTrail (c.source.skipping skip)
    c.query.fromDefault c.query.fromNamed .any fun _ _ => True where
  toPassesOn := c.passesOn_any
  edge {e a b} _ hab h h' := by
    classical
    obtain ⟨trail, rfl⟩ := Environment.exists_trail hab
    rw [Pattern.trace, Pattern.trace]
    refine Trace.firsts_visit_congr (ψ := fun o => o.quad.seen a.graph)
      (χ := fun o => o.quad.seen a.graph) (c.source.matchEdge_skipping skip _ a e a.graph _).symm
      (fun i i' o _ o' _ ho => comparison_firsts.bindings ?_ i i') 0 0
    have hbind := c.bindEdge_skipping skip ho e ({ a with trail }.withoutTrail)
    rw [bindEdge_withoutTrail] at hbind
    refine Eq.trans ?_ hbind.symm
    rw [← bindEdge_withoutTrail]
    rfl
  path {p _ _} _ hab := compare_path comparison_firsts rfl (fun m =>
    c.source.reach_skipping skip ⟨c.query, m, p⟩ p.path) hab
  graphs _ hf := comparison_firsts.visit (fun i i' g _ => hf i i' g g rfl) 0 0

/-! ### Rows -/

section Rows

variable (hsystem : ∀ target, ¬ c.ComesTo (.snapshot target)) (skip : Bool)

include hsystem

theorem hooks_skipping : Hooks.RelatedUpToTrail (fun _ => Run.EndsAlike) .any c.toScope
    (c.Reaches c.query.requests) (c.hooks c.depth) ((c.skipping skip).hooks c.depth) :=
  hooks_compare comparison_firsts (c.compares_skipping skip)
    (fun target hr => hsystem target (.of_reaches (fun _ hr => hr) hr))
    (fun _ _ _ _ => trivial) c.depth

theorem eval_skipping {e : Expr} (he : ∀ r ∈ e.requests, r ∈ c.query.requests)
    (hab : a.withoutTrail = b.withoutTrail) :
    (c.evaluate e a).EndsAlike ((c.skipping skip).evaluate e b) :=
  (hooks_skipping hsystem skip).eval Run.congruence_endsAlike (fun _ => rfl)
    (fun r hr => .start (he r hr)) hab trivial

theorem bodyTrace_skipping : FirstsUpToTrail c.bodyTrace (c.skipping skip).bodyTrace :=
  Pattern.compare_trace comparison_firsts (c.compares_skipping skip) (hooks_skipping hsystem skip)
    c.query.body (fun _ hr => .start (Query.mem_requests_of_body hr)) rfl trivial

/-- The solutions of the body have the same first occurrences. -/
theorem rawSolutions_skipping (hcap : c.source.options.limit = none) :
    c.rawSolutions.Corresponds (Solutions.SameFirsts c.query) (c.skipping skip).rawSolutions := by
  classical
  have hbody := bodyTrace_skipping hsystem skip
  have hitems := congrArg Firsts.items hbody
  have hcap' : (c.skipping skip).source.options.limit = none := hcap
  unfold Run.Corresponds
  rw [outcome_rawSolutions hcap, outcome_rawSolutions hcap', hbody.drain]
  cases (c.skipping skip).bodyTrace.drain.outcome with
  | error e => rfl
  | ok _ =>
    refine ⟨rfl, rfl, ?_⟩
    have hparts := eraseDups_map_congr hitems fun e => e.solution.parts
    rw [List.map_map, List.map_map] at hparts ⊢
    exact hparts

theorem selectRows_skipping {s s' : Solutions} (h : Solutions.SameFirsts c.query s s') :
    (c.selectRows s).Corresponds (Solutions.SameFirsts c.query)
      ((c.skipping skip).selectRows s') := by
  have hselect : (c.skipping skip).query.select = c.query.select := rfl
  unfold selectRows
  rw [hselect]
  split_ifs
  · exact .pure h
  · refine (Run.corresponds_mapIdx (φ := Solution.parts) h.rows (fun i i' r r' hr => ?_) 0 0).bind
      fun kept kept' hkept => .pure ⟨by rw [h.left]; rfl, by rw [h.right]; rfl, hkept⟩
    obtain rfl := Solution.parts_injective hr
    refine related_selectFrom Run.congruence_endsAlike (fun _ => rfl) i i' 0
      (fun item hm stage row row' j r => ?_) r
    exact eval_skipping hsystem skip (fun r hr => Query.mem_requests_of_select hm hr) rfl

theorem keys_skipping (r : Solution) (i : Nat) :
    (c.keys r none i).EndsAlike ((c.skipping skip).keys r none i) := by
  have hkey : ∀ (stage : Stage) (j : Nat) (e : Expr), (∀ r ∈ e.requests, r ∈ c.query.requests) →
      (c.key stage r none i j e).EndsAlike ((c.skipping skip).key stage r none i j e) := by
    intro stage j e he
    have hslot : (c.skipping skip).query.slot? = c.query.slot? := rfl
    unfold key
    rw [hslot]
    cases ((e.asVariable).bind c.query.slot?).bind r.get? with
    | some t => rfl
    | none =>
      dsimp only
      split_ifs
      · rfl
      · exact Run.congruence_endsAlike.bind (eval_skipping hsystem skip he rfl) fun _ _ => rfl
  unfold keys
  exact Run.congruence_endsAlike.bind (Run.congruence_endsAlike.mapIdx
    (fun j k hk => hkey _ j k.expr fun r hr => Query.mem_requests_of_orderBy hk hr) 0) fun _ _ =>
      Run.congruence_endsAlike.bind (Run.congruence_endsAlike.mapIdx
        (fun j e he => hkey _ j e fun r hr => Query.mem_requests_of_groupBy he hr) 0) fun _ _ => rfl

/-- The rows of a distinct query without groups are the same with their keys. -/
theorem complete_skipping (hd : c.query.distinct = true) (hagg : c.query.isAggregate = false)
    {s s' : Solutions} (h : Solutions.SameFirsts c.query s s') :
    (c.complete s).Corresponds (fun s s' => s.rows = s'.rows ∧ s.projection = s'.projection)
      ((c.skipping skip).complete s') := by
  have hunique : ∀ s : Solutions,
      (if c.query.distinct && !c.query.isAggregate then s.resubmit else s) = s.resubmit := by
    simp [hd, hagg]
  have hquery : (c.skipping skip).query = c.query := rfl
  refine (selectRows_skipping hsystem skip h).bind fun s s' h => ?_
  obtain ⟨hrows, hprojection⟩ := h.resubmit hd
  simp only [hquery, hunique, hrows]
  refine (Run.Corresponds.of_eq (Run.congruence_endsAlike.mapIdx
    (fun i r _ => keys_skipping hsystem skip r i) 0)).bind fun keyed keyed' hkeyed => .pure ?_
  exact ⟨hkeyed, hprojection⟩

/-- A distinct query without groups has the same answer. -/
theorem answer_skipping (hcap : c.source.options.limit = none) (hd : c.query.distinct = true)
    (hagg : c.query.isAggregate = false) :
    c.answer.Corresponds (fun s s' => s.projectedRows = s'.projectedRows)
      (c.skipping skip).answer := by
  have hquery : (c.skipping skip).query = c.query := rfl
  unfold answer
  rw [hquery, hagg]
  refine (rawSolutions_skipping hsystem skip hcap).bind fun s s' h =>
    (complete_skipping hsystem skip hd hagg h).bind fun s s' hs => .pure ?_
  obtain ⟨hrows, hprojection⟩ := hs
  unfold Solutions.projectedRows Solutions.slice
  split_ifs
  · simp only [hrows, hprojection]
  · simp only [Solutions.sortBy, hrows, hprojection]

end Rows

end Context

namespace Processor

/-- The same processor without the test for duplicates, or with it. -/
def skipping (p : Processor) (skip : Bool) : Processor :=
  { p with source := p.source.skipping skip }

/-- The answer to a distinct query without groups is the same with and without the test for
duplicates, row by row and up to the error, if there is one. Whatever the query, the solutions of its
body have the same first occurrences in the same order. Only a snapshot would tell how often a
solution is found. -/
theorem evaluate_skipping (p : Processor) (q : Query) (hcap : p.source.options.limit = none)
    (hsystem : ∀ target, ¬ (p.scope q).ComesTo (.snapshot target)) :
    (q.distinct = true → q.isAggregate = false →
      ((p.skipping true).evaluate q).outcome.map Solutions.projectedRows =
        ((p.skipping false).evaluate q).outcome.map Solutions.projectedRows) ∧
    (((p.skipping true).context q).rawSolutions.outcome.map fun raw =>
        (raw.rows.map (·.slots)).eraseDups) =
      ((p.skipping false).context q).rawSolutions.outcome.map fun raw =>
        (raw.rows.map (·.slots)).eraseDups := by
  have hs : ∀ target, ¬ ((p.skipping true).context q).ComesTo (.snapshot target) := hsystem
  have hcap' : ((p.skipping true).context q).source.options.limit = none := hcap
  refine ⟨fun hd hagg => (Context.answer_skipping hs false hcap' hd hagg).map_outcome, ?_⟩
  refine ((Context.rawSolutions_skipping hs false hcap').mono fun raw raw' h => ?_).map_outcome
  have hslots := eraseDups_map_congr h.rows Prod.fst
  rw [List.map_map, List.map_map] at hslots
  exact hslots

/-- An edge in two graphs is found twice without the test. The second row of the answer is that of
the other edge all the same. -/
theorem evaluate_skipping_of_two :
    let term (name : String) : Term := .iri ⟨name⟩
    let x : Variable := ⟨"x"⟩
    let store := Store.after false [.extend [⟨term "a", term "p", term "b", some (term "g")⟩,
      ⟨term "a", term "p", term "b", some (term "h")⟩, ⟨term "c", term "p", term "b", none⟩]]
    let q : Query := .ofParts
      { body := .edge ⟨.var x, .const (term "p"), .const (term "b")⟩
        distinct := true
        orderBy := [⟨.var x, false⟩]
        offset := 1 }
    let p : Processor := { source := { store } }
    let solutions (skip : Bool) :=
      ((p.skipping skip).context q).rawSolutions.outcome.toOption.map fun raw =>
        raw.rows.map (·.slots)
    solutions true = some [[some (term "a")], [some (term "a")], [some (term "c")]] ∧
      solutions false = some [[some (term "a")], [some (term "c")]] ∧
      ∀ skip, ((p.skipping skip).evaluate q).outcome.map Solutions.projectedRows =
        .ok [[some (term "c")]] := by
  intro term x store q p solutions
  have hrows : ((p.skipping false).evaluate q).outcome.toOption.map Solutions.projectedRows =
      some [[some (term "c")]] := by decide +kernel
  obtain ⟨s, hs, hrows⟩ := exists_of_toOption hrows
  have htested : ((p.skipping false).evaluate q).outcome.map Solutions.projectedRows =
      .ok [[some (term "c")]] := by
    rw [hs]
    exact congrArg Except.ok hrows
  refine ⟨by decide +kernel, by decide +kernel, fun skip => ?_⟩
  cases skip with
  | false => exact htested
  | true =>
    have hsame := (p.evaluate_skipping q rfl fun _ => Scope.not_comesTo rfl _).1 rfl rfl
    exact hsame.trans htested

end Processor

end GraphQuery
