import GraphQuery.Proofs.Evaluate.Accord

/-! What is in view: the graph of a graph clause, or the graphs that a query is restricted to
outside of one. Edges and steps of paths are found in view only, so two stores that hold the same
quads there are matched alike, whatever else they hold. Only the starts of paths with two free ends
are listed without regard to what is in view. -/

namespace GraphQuery

/-- Whether a graph is the one of a graph clause or, without one, among some graphs. -/
def InView (name : Option Term) (listed : List Term) (g : Option Term) : Prop :=
  match name with
  | some t => g = some t.canonical
  | none => ∃ t ∈ listed, g = some t.canonical

/-! ### What fits -/

namespace Environment

variable {q : Query} {a b : Environment} {v w : Variable} {t u : Term}

theorem stable_get (q : Query) (v : Variable) (t : Term) :
    Stable q (fun _ => True) (fun _ => True) fun e => e.get? q v = some t where
  choose _ _ h := h
  bind _ _ _ _ _ _ h hb := get_of_bind hb h
  graph _ _ _ _ _ _ := trivial

end Environment

namespace Context

variable {c : Context} {a b : Environment} {e : EdgePattern} {graph : Option NodePattern}
  {o : Occurrence} {position : Position} {n : NodePattern}

open Source (Allows AllowsPlaces valueOf?)

/-- Whether there is something at the position of a place, and the store accepts it for what the
place is bound to, if it is. -/
def Accepts (c : Context) (o : Occurrence) (env : Environment) (p : Position × NodePattern) :
    Prop :=
  (o.node p.1).isSome ∧ ∀ t, valueOf? c.query env p.2 = some t →
    ∃ m : Node, (m.term = t ∨ m.term = t.canonical) ∧ c.source.accepts o p.1 m = true

theorem accepts_of_bindPosition (h : c.bindPosition o position n a = .ok (some b)) :
    c.Accepts o a (position, n) := by
  unfold bindPosition at h
  cases hn : o.node position with
  | none =>
    rw [hn] at h
    cases h
  | some actual =>
    have haccepts : ∀ m : Node,
        pure (if c.source.accepts o position m then some a else none) =
          (.ok (some b) : Except QueryError (Option Environment)) →
        c.source.accepts o position m = true := by
      intro m hm
      by_contra hno
      rw [if_neg hno] at hm
      cases hm
    rw [hn] at h
    refine ⟨by simp [hn], fun t ht => ?_⟩
    cases n with
    | const t' =>
      cases ht
      exact ⟨_, .inr rfl, haccepts _ h⟩
    | var v =>
      have hv : a.get? c.query v = some t := ht
      simp only [hv] at h
      exact ⟨_, .inl rfl, haccepts _ h⟩

/-- What is bound stays bound to the same while an edge pattern is fitted. -/
theorem valueOf_of_bindPosition {m : NodePattern} {t : Term}
    (h : c.bindPosition o position n a = .ok (some b)) (ht : valueOf? c.query a m = some t) :
    valueOf? c.query b m = some t := by
  cases m with
  | const t' => exact ht
  | var v =>
    exact kept_bindPosition (Environment.stable_get c.query v t) o.carries_any (fun _ _ => trivial)
      ht h

theorem accepts_of_bindPositions {places : List (Position × NodePattern)}
    (h : c.bindPositions o places a = .ok (some b)) : ∀ p ∈ places, c.Accepts o a p := by
  induction places generalizing a with
  | nil => exact fun p hp => by cases hp
  | cons p places ih =>
    rw [bindPositions] at h
    cases hb : c.bindPosition o p.1 p.2 a with
    | error e => simp [hb, Bind.bind, Except.bind] at h
    | ok r =>
      cases r with
      | none => simp [hb, Bind.bind, Except.bind, pure, Except.pure] at h
      | some m =>
        simp only [hb, Bind.bind, Except.bind] at h
        refine List.forall_mem_cons.mpr ⟨accepts_of_bindPosition hb, fun p' hp' => ?_⟩
        obtain ⟨hsome, haccepts⟩ := ih h p' hp'
        exact ⟨hsome, fun t ht => haccepts t (valueOf_of_bindPosition hb ht)⟩

/-- An occurrence that an edge pattern fits is accepted at its places. -/
theorem accepts_of_bindEdge (h : c.bindEdge e graph o a = .ok (some b)) :
    ∀ p ∈ [(Position.subject, e.subject), (.object, e.object)] ++
      (graph.map fun g => (Position.graph, g)).toList, c.Accepts o a p := by
  unfold bindEdge at h
  cases hp : e.predicate with
  | const t =>
    rw [hp] at h
    exact accepts_of_bindPositions h
  | var v =>
    simp only [hp] at h
    cases hb : a.bind? c.query v o.edge.predicate.term with
    | error e => simp [hb, Bind.bind, Except.bind] at h
    | ok r =>
      cases r with
      | none => simp [hb, Bind.bind, Except.bind, pure, Except.pure] at h
      | some m =>
        simp only [hb, Bind.bind, Except.bind] at h
        intro p hp
        obtain ⟨hsome, haccepts⟩ := accepts_of_bindPositions h p hp
        refine ⟨hsome, fun t ht => haccepts t ?_⟩
        cases hn : p.2 with
        | const t' => rwa [hn] at ht
        | var w =>
          rw [hn] at ht
          exact Environment.get_of_bind hb ht

/-- What is accepted is allowed where classes stand for themselves, and otherwise anywhere but at
the object. -/
theorem Accepts.allows (h : c.Accepts o a (position, n))
    (hexact : c.source.hierarchical = false ∨ position ≠ .object)
    (hcanonical : ∀ m, o.node position = some m → m.term.IsCanonical) :
    Allows c.query a n ((o.node position).map (·.term)) := by
  intro t ht
  obtain ⟨m, hm, haccepts⟩ := h.2 t ht
  unfold Source.accepts at haccepts
  cases hn : o.node position with
  | none => simp [hn] at haccepts
  | some actual =>
    have hsame : actual.term = m.term := by
      rw [hn] at haccepts
      rcases hexact with hexact | hexact <;>
        simpa [hexact, Source.node_beq_iff] using haccepts
    have hterm : actual.term = t.canonical := by
      rcases hm with hm | hm
      · rw [← hm, ← hsame]
        exact (hcanonical actual hn).symm
      · rw [hsame, hm]
    exact congrArg some hterm

/-- An occurrence that an edge pattern fits is one that its places allow. -/
theorem allowsPlaces_of_bindEdge (hs : c.source.store.Valid) (hm : c.source.hierarchical = false)
    (ho : c.source.store.Holds o.quad) (h : c.bindEdge e graph o a = .ok (some b)) :
    AllowsPlaces c.query a e graph o.quad := by
  obtain ⟨-, hsubject, hobject, hgraph⟩ := ho.isCanonical hs
  have haccepts := accepts_of_bindEdge h
  refine ⟨(haccepts (.subject, e.subject) (by simp)).allows (.inl hm) fun m hn => ?_,
    (haccepts (.object, e.object) (by simp)).allows (.inl hm) fun m hn => ?_, fun g hg =>
    (haccepts (.graph, g) (by simp [hg])).allows (.inl hm) fun m hn => ?_⟩
  · exact Option.some.inj hn ▸ hsubject
  · exact Option.some.inj hn ▸ hobject
  · exact hgraph m.term (congrArg (Option.map Node.term) hn)

end Context

/-! ### What is found in view -/

namespace Source

variable {s : Source} {name : Option Term} {listed : List Term} {q : Query} {env : Environment}
  {e : EdgePattern}

/-- What the view of a store relies on: classes stand for themselves, and some listed graph is there
if there is no graph clause. -/
structure Views (s : Source) (name : Option Term) (listed : List Term) : Prop where
  valid : s.store.Valid
  exactTypes : s.hierarchical = false
  nonempty : name = none → listed ≠ []
  named : name = none → s.graphNodes listed ≠ []

/-- Whether a query looks at what is in view: in a graph that is named, or in those that it is
restricted to. -/
structure LooksAt (q : Query) (env : Environment) (name : Option Term) (listed : List Term) :
    Prop where
  graph : env.graph = name.map .const
  listed : name = none → q.fromDefault = listed

/-- What of a quad tells apart the occurrences that are found. -/
def key (s : Source) (name : Option Term) (r : Quad) : Quad :=
  if s.options.skipDuplicateTest then r else r.seen (name.map .const)

theorem seen_of_key {r r' : Quad} (h : s.key name r = s.key name r') :
    r.seen (name.map .const) = r'.seen (name.map .const) := by
  unfold key at h
  split_ifs at h
  · rw [h]
  · exact h

/-- What is found for an edge pattern: all that is in view and allowed, each by its key once. -/
structure FindsInView (s : Source) (name : Option Term) (listed : List Term) (q : Query)
    (env : Environment) (e : EdgePattern) (os : List Occurrence) : Prop where
  sound : ∀ o ∈ os, s.store.Holds o.quad ∧ Allows q env e.predicate (some o.quad.predicate) ∧
    (name = none → InView name listed o.quad.graph)
  complete : ∀ r, s.store.Holds r → InView name listed r.graph →
    Allows q env e.predicate (some r.predicate) →
    AllowsPlaces q env e (name.map .const) r → ∃ o ∈ os, s.key name o.quad = s.key name r
  distinct : (os.map fun o => s.key name o.quad).Nodup

theorem admits_iff (h : listed ≠ []) (g : Option Term) :
    Admits none listed g ↔ InView none listed g :=
  or_iff_right h

theorem Matched.findsInView {from_ : List Term} {os : List Occurrence}
    (h : s.Matched q env e (name.map .const) from_ os)
    (hkey : ∀ r, s.key name r = r.seen (name.map .const))
    (hview : ∀ g, InView name listed g → Admits (name.map .const) from_ g)
    (hadmits : name = none → ∀ g, Admits (name.map .const) from_ g → InView name listed g) :
    s.FindsInView name listed q env e os where
  sound o ho :=
    ⟨(h.sound o ho).1, (h.sound o ho).2.1, fun hn => hadmits hn _ (h.sound o ho).2.2⟩
  complete r hr hg hp hplaces := by
    simp only [hkey]
    exact h.complete r hr hp hplaces (hview _ hg)
  distinct := by
    simp only [hkey]
    exact List.pairwise_map.mpr h.distinct

namespace Views

theorem findsInView_const {t : Term} (hv : s.Views (some t) listed)
    (hg : env.graph = some (.const t)) : s.FindsInView (some t) listed q env e
      (s.matchEdge q env e env.graph (restriction q env)) := by
  rw [hg, matchEdge_const]
  refine Matched.findsInView (matched_matchEdge hv.valid (fun h => by cases h) hv.exactTypes
    (fun _ => rfl) fun h => (h rfl).elim) (fun r => ?_) (fun g hview => ?_) fun h => by cases h
  · unfold key
    split_ifs <;> rfl
  · rw [hview]
    rfl

/-- Without the test for duplicates, all occurrences in the listed graphs are found. -/
theorem findsInView_all {isType : Bool} (hv : s.Views none listed)
    (hskip : s.options.skipDuplicateTest = true) : s.FindsInView none listed q env e
      ((s.scan q env e none listed (s.predicates q env e.predicate) isType).filter
        (Occurrence.inOneOf (s.graphNodes listed))) := by
  have hnonempty : listed ≠ [] := hv.nonempty rfl
  have hnamed : listed ≠ [] → s.graphNodes listed ≠ [] := fun _ => hv.named rfl
  have hscan : s.Scanned none (s.predicates q env e.predicate) (AllowsPlaces q env e none)
      (s.scan q env e none listed (s.predicates q env e.predicate) isType) :=
    scanned_scan hv.valid (sorted_predicates hv.valid) listed isType (fun h => by cases h) hnamed
  have hkey : ∀ r, s.key none r = r := fun r => by rw [key, if_pos hskip]
  constructor
  case sound =>
    intro o ho
    obtain ⟨ho, hin⟩ := List.mem_filter.mp ho
    obtain ⟨hh, hp⟩ := hscan.sound o ho
    exact ⟨hh, (exists_predicate_iff hv.valid hh).mp hp, fun _ =>
      (admits_iff hnonempty _).mp ((inOneOf_iff hv.valid hnamed hh).mp hin)⟩
  case complete =>
    intro r hr hview hp hplaces
    obtain ⟨o, ho, rfl⟩ := hscan.complete r hr ((exists_predicate_iff hv.valid hr).mpr hp) hplaces
    exact ⟨o, List.mem_filter.mpr ⟨ho, (inOneOf_iff hv.valid hnamed hr).mpr
      ((admits_iff hnonempty _).mpr hview)⟩, rfl⟩
  case distinct =>
    simp only [hkey]
    exact List.pairwise_map.mpr (hscan.distinct.filter _)

theorem findsInView_listed (hv : s.Views none listed) (hl : LooksAt q env none listed) :
    s.FindsInView none listed q env e (s.matchEdge q env e env.graph (restriction q env)) := by
  have hg : env.graph = none := hl.graph
  have hfrom : restriction q env = listed := by
    rw [restriction, hg]
    exact hl.listed rfl
  rw [hg, hfrom]
  by_cases hskip : s.options.skipDuplicateTest = true
  · have hos : s.matchEdge q env e none listed =
        (s.scan q env e none listed (s.predicates q env e.predicate)
          (s.asksForType q env e)).filter (Occurrence.inOneOf (s.graphNodes listed)) := by
      rw [matchEdge_eq, hv.exactTypes, scanInForce]
      simp only [Bool.false_and, Bool.false_eq_true, if_false, inForce,
        Occurrence.successiveDistinct, hskip, if_true]
    rw [hos]
    exact findsInView_all hv hskip
  · refine Matched.findsInView (matched_matchEdge hv.valid
      (fun _ => Bool.eq_false_iff.mpr hskip) hv.exactTypes (fun h => by cases h)
      fun _ => hv.named rfl) (fun r => ?_) (fun g => (admits_iff (hv.nonempty rfl) g).mpr)
      fun _ g => (admits_iff (hv.nonempty rfl) g).mp
    rw [key, if_neg hskip]

theorem findsInView (hv : s.Views name listed) (hl : LooksAt q env name listed) :
    s.FindsInView name listed q env e (s.matchEdge q env e env.graph (restriction q env)) := by
  cases name with
  | some t => exact findsInView_const hv hl.graph
  | none => exact findsInView_listed hv hl

end Views

end Source

/-! ### Steps in view -/

namespace Source

variable {s : Source} {name : Option Term} {listed : List Term} {q : Query} {env : Environment}
  {g : Ground} {step : Path} {t u : Term}

namespace Views

/-- What is in force is what is in view. -/
theorem shows_iff (hv : s.Views name listed) (hl : LooksAt q env name listed) {r : Quad}
    (hr : s.store.Holds r) :
    s.Shows q env env.graph (s.graphNodes (restriction q env)) r.graph ↔
      InView name listed r.graph := by
  cases name with
  | some t =>
    have hg : env.graph = some (.const t) := hl.graph
    rw [hg, Shows, lookup_of_some (t := t) rfl]
    simp only [if_true]
    cases hn : s.store.graphNode? t with
    | none =>
      refine iff_of_false id fun hview => ?_
      obtain ⟨m, hm, -⟩ := hv.valid.exists_graphNode (hr.names hv.valid hview)
      rw [hn] at hm
      cases hm
    | some m =>
      have hm : m.term = t.canonical := (hv.valid.graphNode_eq_some hn).1
      simp only [hm]
      exact Iff.rfl
  | none =>
    have hg : env.graph = none := hl.graph
    have hfrom : restriction q env = listed := by
      rw [restriction, hg]
      exact hl.listed rfl
    rw [hg, hfrom]
    exact (listed_iff_admits hv.valid (fun _ => hv.named rfl) hr).trans
      (admits_iff (hv.nonempty rfl) _)

/-- A step leads to the other ends of the edges in view that it follows. -/
theorem mem_stepFrom (hv : s.Views name listed) (hl : LooksAt g.query g.env name listed) :
    u ∈ s.stepFrom g step t ↔ ∃ r, s.store.Holds r ∧ InView name listed r.graph ∧
      step.Crosses r.predicate ∧ r.node (effectiveIndex step .subject) = some t.canonical ∧
      r.node (effectiveIndex step .subject).reverse = some u := by
  rw [Source.mem_stepFrom hv.valid]
  exact exists_congr fun r => and_congr_right fun hr => and_congr_left fun _ => hv.shows_iff hl hr

end Views

end Source

/-! ### Walks in view -/

namespace Source

variable {s s' : Source} {name : Option Term} {listed : List Term} {q : Query} {env : Environment}
  {g : Ground} {t u : Term} {p : Path} {backwards : Bool}

/-- Whether a term is an end of an edge in view. -/
def Touches (s : Source) (name : Option Term) (listed : List Term) (t : Term) : Prop :=
  ∃ r, s.store.Holds r ∧ InView name listed r.graph ∧
    (r.subject = t.canonical ∨ r.object = t.canonical)

/-- A walk that leads away from its start leaves it along an edge in view, and one that does not is
along a path that need not lead away. -/
theorem Views.touches_of_mem_reach (hv : s.Views name listed)
    (hl : LooksAt g.query g.env name listed) (hu : u ∈ s.reach g p backwards t) :
    s.Touches name listed t ∨ p.isNullable = true ∧ u = t := by
  have hstep : ∀ {step : Path} {t u}, u ∈ s.stepFrom g step t → s.Touches name listed t := by
    intro step t u hu
    obtain ⟨r, hr, hview, -, hrt, -⟩ := (hv.mem_stepFrom hl).mp hu
    refine ⟨r, hr, hview, ?_⟩
    rcases isEnd_effectiveIndex step with hp | hp <;> rw [hp] at hrt
    · exact .inl (Option.some.inj hrt)
    · exact .inr (Option.some.inj hrt)
  induction p generalizing backwards t u with
  | predicate | negated => exact .inl (hstep hu)
  | inverse p ih => exact ih hu
  | seq p q ihp ihq =>
    have hboth : ∀ {p q : Path} {m},
        (s.Touches name listed t ∨ p.isNullable = true ∧ m = t) →
        (s.Touches name listed m ∨ q.isNullable = true ∧ u = m) →
        s.Touches name listed t ∨ (p.isNullable = true ∧ q.isNullable = true) ∧ u = t := by
      rintro p q m (ht | ⟨hp, rfl⟩) hm
      · exact .inl ht
      · exact hm.imp id fun h => ⟨⟨hp, h.1⟩, h.2⟩
    rw [reach] at hu
    rw [Path.isNullable, Bool.and_eq_true_iff]
    split_ifs at hu
    all_goals
      rw [List.mem_eraseDups, List.mem_flatMap] at hu
      obtain ⟨m, hm, hu⟩ := hu
    · exact (hboth (ihq hm) (ihp hu)).imp id fun h => ⟨h.1.symm, h.2⟩
    · exact hboth (ihp hm) (ihq hu)
  | alt p q ihp ihq =>
    rw [reach, List.mem_eraseDups, List.mem_append] at hu
    rw [Path.isNullable, Bool.or_eq_true]
    rcases hu with hu | hu
    · exact (ihp hu).imp id fun h => ⟨.inl h.1, h.2⟩
    · exact (ihq hu).imp id fun h => ⟨.inr h.1, h.2⟩
  | zeroOrOne p ih =>
    rw [reach, List.mem_eraseDups, List.mem_cons] at hu
    rcases hu with rfl | hu
    · exact .inr ⟨rfl, rfl⟩
    · exact (ih hu).imp id fun h => ⟨rfl, h.2⟩
  | zeroOrMore p ih =>
    rw [mem_reach_zeroOrMore hv.valid] at hu
    induction hu using Relation.ReflTransGen.head_induction_on with
    | refl => exact .inr ⟨rfl, rfl⟩
    | head hab _ ihrest =>
      rcases ih hab with ht | ⟨-, rfl⟩
      · exact .inl ht
      · exact ihrest
  | oneOrMore p ih =>
    rw [mem_reach_oneOrMore hv.valid] at hu
    induction hu using Relation.TransGen.head_induction_on with
    | single hab => exact ih hab
    | head hab _ ihrest =>
      rcases ih hab with ht | ⟨-, rfl⟩
      · exact .inl ht
      · exact ihrest

/-! ### Two stores that share what is in view -/

/-- Whether two stores hold the same in view. -/
structure Shares (s s' : Source) (name : Option Term) (listed : List Term) : Prop where
  views : s.Views name listed
  views' : s'.Views name listed
  duplicateTest : s'.options.skipDuplicateTest = s.options.skipDuplicateTest
  holds_iff : ∀ r, InView name listed r.graph → (s.store.Holds r ↔ s'.store.Holds r)

namespace Shares

theorem symm (h : s.Shares s' name listed) : s'.Shares s name listed :=
  ⟨h.views', h.views, h.duplicateTest.symm, fun r hr => (h.holds_iff r hr).symm⟩

theorem touches_iff (h : s.Shares s' name listed) (t : Term) :
    s.Touches name listed t ↔ s'.Touches name listed t := by
  refine exists_congr fun r => ?_
  constructor
  · rintro ⟨hr, hview, hends⟩
    exact ⟨(h.holds_iff r hview).mp hr, hview, hends⟩
  · rintro ⟨hr, hview, hends⟩
    exact ⟨(h.holds_iff r hview).mpr hr, hview, hends⟩

theorem reach_perm (h : s.Shares s' name listed) (hl : LooksAt g.query g.env name listed)
    (p : Path) (backwards : Bool) (t : Term) :
    (s.reach g p backwards t).Perm (s'.reach g p backwards t) := by
  have hsubset : ∀ {s s' : Source}, s.Shares s' name listed → ∀ step t,
      s.stepFrom g step t ⊆ s'.stepFrom g step t := by
    intro s s' h step t u hu
    obtain ⟨r, hr, hview, hrest⟩ := (h.views.mem_stepFrom hl).mp hu
    exact (h.views'.mem_stepFrom hl).mpr ⟨r, (h.holds_iff r hview).mp hr, hview, hrest⟩
  exact reach_perm_of_steps h.views.valid h.views'.valid (hsubset h) (hsubset h.symm) p backwards t

/-- The nodes of the graph of a graph clause. -/
theorem startNodes_perm (h : s.Shares s' (some t) listed)
    (hg : env.graph = some (.const t)) : (s.startNodes q env).Perm (s'.startNodes q env) := by
  have hnodup : ∀ {s : Source}, s.store.Valid → (s.startNodes q env).Nodup := by
    intro s hs
    simp only [startNodes, hg]
    cases s.store.graphNode? t with
    | none => exact List.nodup_nil
    | some n => exact hs.nodup_nodes _
  have hmem : ∀ {s : Source}, s.store.Valid → ∀ u, u ∈ s.startNodes q env ↔
      ∃ r, s.store.Holds r ∧ InView (some t) listed r.graph ∧ (r.subject = u ∨ r.object = u) := by
    intro s hs u
    simp only [startNodes, hg]
    cases hn : s.store.graphNode? t with
    | none =>
      refine iff_of_false List.not_mem_nil ?_
      rintro ⟨r, hr, hview, -⟩
      obtain ⟨m, hm, -⟩ := hs.exists_graphNode (hr.names hs hview)
      rw [hn] at hm
      cases hm
    | some n =>
      have hterm : n.term = t.canonical := (hs.graphNode_eq_some hn).1
      simp only [hs.mem_nodes, Option.some.injEq, forall_eq', hterm]
      rfl
  refine (List.perm_ext_iff_of_nodup (hnodup h.views.valid) (hnodup h.views'.valid)).mpr
    fun u => ?_
  rw [hmem h.views.valid, hmem h.views'.valid]
  refine exists_congr fun r => ?_
  constructor
  · rintro ⟨hr, hview, hends⟩
    exact ⟨(h.holds_iff r hview).mp hr, hview, hends⟩
  · rintro ⟨hr, hview, hends⟩
    exact ⟨(h.holds_iff r hview).mpr hr, hview, hends⟩

end Shares

end Source

namespace Context

open Source (LooksAt Shares)

variable {c : Context} {s : Source} {name : Option Term} {a b : Environment} {e : EdgePattern}

/-- Whether an edge pattern fits an occurrence. -/
def fits (c : Context) (e : EdgePattern) (env : Environment) (o : Occurrence) : Bool :=
  match c.bindEdge e env.graph o env with
  | .ok (some _) => true
  | _ => false

theorem fits_iff {o : Occurrence} :
    c.fits e a o = true ↔ ∃ m, c.bindEdge e a.graph o a = .ok (some m) := by
  unfold fits
  rcases c.bindEdge e a.graph o a with e | _ | m <;> simp

theorem bindEdge_of_shares (hm : c.source.hierarchical = false) (hm' : s.hierarchical = false)
    {graph : Option NodePattern} {o o' : Occurrence}
    (ho : o.quad.seen graph = o'.quad.seen graph) (e : EdgePattern) (env : Environment) :
    (c.alongside s c.query.fromDefault c.query.fromNamed).bindEdge e graph o' env =
      c.bindEdge e graph o env := by
  refine bindEdge_alongside ho (fun position expected hp => ?_) e env
  have hnode := Occurrence.node_of_seen ho hp
  unfold Source.accepts
  cases hn : o.node position with
  | none =>
    rw [hn, Option.map_none, eq_comm, Option.map_eq_none_iff] at hnode
    rw [hnode]
  | some m =>
    rw [hn, Option.map_some, eq_comm, Option.map_eq_some_iff] at hnode
    obtain ⟨m', hn', hterm⟩ := hnode
    have hsame : (m' == expected) = (m == expected) := by
      change (m'.term == expected.term) = (m.term == expected.term)
      rw [hterm]
    rw [hn']
    simp only [hm, hm', Bool.false_and, Bool.or_false, hsame]

/-- What fits in one store is found, by its key, in the other one. -/
theorem mem_keys_of_shares (hs : c.source.Shares s name c.query.fromDefault)
    (hl : LooksAt c.query a name c.query.fromDefault) {k : Quad}
    (hk : k ∈ ((c.source.matchEdge c.query a e a.graph (Source.restriction c.query a)).filter
      (c.fits e a)).map fun o => c.source.key name o.quad) :
    k ∈ ((s.matchEdge c.query a e a.graph (Source.restriction c.query a)).filter
      ((c.alongside s c.query.fromDefault c.query.fromNamed).fits e a)).map
        fun o => s.key name o.quad := by
  have hkey : s.key name = c.source.key name := by
    funext r
    unfold Source.key
    rw [hs.duplicateTest]
  have hfound : c.source.FindsInView name _ c.query a e _ := hs.views.findsInView hl
  have hfound' : s.FindsInView name _ c.query a e _ := hs.views'.findsInView hl
  obtain ⟨o, ho, rfl⟩ := List.mem_map.mp hk
  obtain ⟨ho, hfits⟩ := List.mem_filter.mp ho
  obtain ⟨hh, hp, hlisted⟩ := hfound.sound o ho
  obtain ⟨m, hm⟩ := fits_iff.mp hfits
  have hplaces := allowsPlaces_of_bindEdge hs.views.valid hs.views.exactTypes hh hm
  have hview : InView name c.query.fromDefault o.quad.graph := by
    cases name with
    | none => exact hlisted rfl
    | some t => exact hplaces.2.2 (.const t) hl.graph t rfl
  obtain ⟨o', ho', hoo'⟩ :=
    hfound'.complete o.quad ((hs.holds_iff _ hview).mp hh) hview hp (hl.graph ▸ hplaces)
  have hseen : o.quad.seen a.graph = o'.quad.seen a.graph := by
    rw [hl.graph]
    exact (Source.seen_of_key hoo').symm
  refine List.mem_map.mpr ⟨o', List.mem_filter.mpr ⟨ho', fits_iff.mpr ⟨m, ?_⟩⟩, ?_⟩
  · rwa [bindEdge_of_shares hs.views.exactTypes hs.views'.exactTypes hseen]
  · rw [hoo', hkey]

/-- Edges agree in stores that share what is in view. -/
theorem agree_edge_of_shares (hs : c.source.Shares s name c.query.fromDefault)
    (hl : LooksAt c.query a name c.query.fromDefault) (hab : a.withoutTrail = b.withoutTrail)
    (h h' : Hooks) : AgreeUpToTrail ((Pattern.edge e).trace c h a)
      ((Pattern.edge e).trace (c.alongside s c.query.fromDefault c.query.fromNamed) h' b) := by
  have hkey : s.key name = c.source.key name := by
    funext r
    unfold Source.key
    rw [hs.duplicateTest]
  have hseen : ∀ {o o' : Occurrence}, c.source.key name o.quad = c.source.key name o'.quad →
      o.quad.seen a.graph = o'.quad.seen a.graph := fun ho => by
    rw [hl.graph]
    exact Source.seen_of_key ho
  have hmem := fun k => mem_keys_of_shares (e := e) hs hl (k := k)
  have hmem' := fun k => mem_keys_of_shares (e := e)
    (c := c.alongside s c.query.fromDefault c.query.fromNamed) (s := c.source) hs.symm hl (k := k)
  refine agree_edge (χ := fun o => c.source.key name o.quad) (P := c.fits e a)
    (Q := (c.alongside s c.query.fromDefault c.query.fromNamed).fits e a) hab rfl rfl ?_
    (fun o _ m hm => fits_iff.mpr ⟨m, hm⟩) (fun o _ m hm => fits_iff.mpr ⟨m, hm⟩)
    (fun o _ o' _ ho => bindEdge_of_shares hs.views.exactTypes hs.views'.exactTypes (hseen ho) e a)
    h h'
  refine (List.perm_ext_iff_of_nodup ?_ ?_).mpr fun k => ⟨fun hk => ?_, fun hk => ?_⟩
  · exact (hs.views.findsInView hl).distinct.sublist (List.filter_sublist.map _)
  · rw [← hkey]
    exact (hs.views'.findsInView hl).distinct.sublist (List.filter_sublist.map _)
  · rw [← hkey]
    exact hmem k hk
  · rw [← hkey] at hk
    exact hmem' k hk

/-- The starts from which a path leads anywhere are the same, if it leads nowhere without an
edge. -/
theorem touching_startNodes_perm (hs : c.source.Shares s none c.query.fromDefault)
    (hg : a.graph = none) {P : Term → Bool}
    (hP : ∀ t, P t = true ↔ c.source.Touches none c.query.fromDefault t) :
    ((c.source.startNodes c.query a).filter P).Perm ((s.startNodes c.query a).filter P) := by
  have hstarts : ∀ s : Source, s.startNodes c.query a = (s.store.nodes none).map (·.term) := by
    intro s
    simp only [Source.startNodes, hg]
  have hmem : ∀ {s s' : Source}, s.Shares s' none c.query.fromDefault → ∀ u,
      u ∈ s.startNodes c.query a → s.Touches none c.query.fromDefault u →
      u ∈ s'.startNodes c.query a := by
    intro s s' hs u hu ⟨r, hr, hview, hends⟩
    rw [hstarts, hs.views.valid.mem_nodes] at hu
    rw [hstarts, hs.views'.valid.mem_nodes]
    obtain ⟨r', hr', -, hends'⟩ := hu
    have hcanonical : u.canonical = u := by
      obtain ⟨-, hsubject, hobject, -⟩ := hr'.isCanonical hs.views.valid
      rcases hends' with rfl | rfl
      · exact hsubject
      · exact hobject
    rw [hcanonical] at hends
    exact ⟨r, (hs.holds_iff r hview).mp hr, fun g hg => (by cases hg), hends⟩
  have hnodup : ∀ {s : Source}, s.store.Valid → ((s.startNodes c.query a).filter P).Nodup := by
    intro s hs
    rw [hstarts]
    exact (hs.nodup_nodes none).filter _
  refine (List.perm_ext_iff_of_nodup (hnodup hs.views.valid) (hnodup hs.views'.valid)).mpr
    fun u => ?_
  rw [List.mem_filter, List.mem_filter, hP]
  refine and_congr_left fun ht => ⟨fun hu => hmem hs u hu ht, fun hu => ?_⟩
  exact hmem hs.symm u hu ((hs.touches_iff u).mp ht)

/-- Paths agree in stores that share what is in view, if they are not walked from every node, or
lead nowhere without an edge, or all nodes are shared as well. -/
theorem agree_path_of_shares {p : PathPattern} (hs : c.source.Shares s name c.query.fromDefault)
    (hl : LooksAt c.query a name c.query.fromDefault) (hab : a.withoutTrail = b.withoutTrail)
    (hstarts : Source.valueOf? c.query a p.subject = none →
      Source.valueOf? c.query a p.object = none →
      (c.source.startNodes c.query a).Perm (s.startNodes c.query a) ∨
        name = none ∧ p.path.isNullable = false) :
    AgreeUpToTrail (c.tracePath p a)
      ((c.alongside s c.query.fromDefault c.query.fromNamed).tracePath p b) := by
  have hlooks : ∀ m : Environment, m.graph = a.graph →
      LooksAt c.query m name c.query.fromDefault := fun m hm => ⟨hm.trans hl.graph, hl.listed⟩
  obtain ⟨hdirection, hwalk⟩ := c.walk_alongside p a
  have hall : ∀ ts : List Term, ts.filter (fun _ => true) = ts := fun ts =>
    List.filter_eq_self.mpr fun _ _ => rfl
  have hsame : (c.walk p a).1.Perm
      ((c.alongside s c.query.fromDefault c.query.fromNamed).walk p a).1 →
      AgreeUpToTrail (c.tracePath p a)
        ((c.alongside s c.query.fromDefault c.query.fromNamed).tracePath p b) := fun hperm =>
    agree_path hab (P := fun _ => true) (Q := fun _ => true) hdirection
      (by rw [hall, hall]; exact hperm) (fun _ _ _ _ _ => rfl) (fun _ _ _ _ _ => rfl)
      fun m hm t => hs.reach_perm (hlooks m hm) p.path _ t
  rcases hwalk with h | ⟨h, h', hsubject, hobject⟩
  · exact hsame (.of_eq h)
  rcases hstarts hsubject hobject with hperm | ⟨rfl, hnullable⟩
  · refine hsame ?_
    rw [h, h']
    exact hperm
  classical
  let P : Term → Bool := fun t => decide (c.source.Touches none c.query.fromDefault t)
  have hP : ∀ t, P t = true ↔ c.source.Touches none c.query.fromDefault t := fun t =>
    decide_eq_true_iff
  have hleads : ∀ {s : Source} {g : Source.Ground} {t : Term} {backwards : Bool},
      s.Views none c.query.fromDefault → LooksAt g.query g.env none c.query.fromDefault →
      s.reach g p.path backwards t ≠ [] → s.Touches none c.query.fromDefault t := by
    intro s g t backwards hv hl hne
    obtain ⟨u, hu⟩ := List.exists_mem_of_ne_nil _ hne
    refine (hv.touches_of_mem_reach hl hu).resolve_right fun hn => ?_
    rw [hnullable] at hn
    cases hn.1
  refine agree_path hab (P := P) (Q := P) hdirection ?_
    (fun t _ m hm hne => (hP t).mpr (hleads hs.views (hlooks m hm) hne))
    (fun t _ m hm hne => (hP t).mpr ((hs.touches_iff t).mpr (hleads hs.views' (hlooks m hm) hne)))
    fun m hm t => hs.reach_perm (hlooks m hm) p.path _ t
  rw [h, h']
  exact touching_startNodes_perm hs hl.graph hP

end Context

end GraphQuery
