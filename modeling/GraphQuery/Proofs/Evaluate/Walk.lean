import GraphQuery.Evaluate.Walk
import GraphQuery.Proofs.Closure
import GraphQuery.Proofs.Evaluate.Candidates

/-! The relations that paths stand for. A walk from a node finds exactly the nodes that the path
relates it to, each once, and a walk backwards those that are related to it. -/

namespace GraphQuery

/-- The relation that a path stands for, given the edges `E s p o` from `s` to `o`. -/
def Path.Relates (E : Term → Term → Term → Prop) : Path → Term → Term → Prop
  | predicate name, s, o => E s (.iri name) o
  | negated names, s, o => ∃ p, E s p o ∧ ∀ name ∈ names, p ≠ .iri name
  | inverse p, s, o => p.Relates E o s
  | seq p q, s, o => ∃ m, p.Relates E s m ∧ q.Relates E m o
  | alt p q, s, o => p.Relates E s o ∨ q.Relates E s o
  | zeroOrMore p, s, o => Relation.ReflTransGen (p.Relates E) s o
  | oneOrMore p, s, o => Relation.TransGen (p.Relates E) s o
  | zeroOrOne p, s, o => s = o ∨ p.Relates E s o

/-- The relation of a path, or its converse. -/
def Path.RelatesTo (E : Term → Term → Term → Prop) (p : Path) (backwards : Bool) (t u : Term) :
    Prop :=
  if backwards then p.Relates E u t else p.Relates E t u

/-- Whether a step follows edges with some predicate. -/
def Path.Crosses : Path → Term → Prop
  | predicate name, p => p = .iri name
  | negated names, p => ∀ name ∈ names, p ≠ .iri name
  | inverse q, p => q.Crosses p
  | _, _ => False

namespace Source

variable {s : Source} {g : Ground} {t u : Term} {r : Quad} {os : List Occurrence} {step : Path}

/-! ### What is in force -/

section Shows

variable {q : Query} {env : Environment} {graph : Option NodePattern} {listed : List Node}

/-- Whether what is in a graph is in force; `listed` are the graphs that a query is restricted
to. -/
def Shows (s : Source) (q : Query) (env : Environment) (graph : Option NodePattern)
    (listed : List Node) (g : Option Term) : Prop :=
  match graph with
  | none => listed = [] ∨ ∃ m ∈ listed, g = some m.term
  | some n =>
    match s.lookup q env n .graph with
    | .missing => False
    | .free => g.isSome ∧ (listed = [] ∨ ∃ m ∈ listed, g = some m.term)
    | .found m => g = some m.term

/-- In force are the edges that occur in a graph that is. -/
theorem mem_inForce_triple :
    r ∈ (s.inForce q env graph listed os).map (·.quad.triple) ↔
      ∃ o ∈ os, s.Shows q env graph listed o.quad.graph ∧ o.quad.triple = r := by
  have hkept : ∀ kept : List Occurrence,
      (∀ o, o ∈ kept ↔ o ∈ os ∧ s.Shows q env graph listed o.quad.graph) →
      (r ∈ kept.map (·.quad.triple) ↔
        ∃ o ∈ os, s.Shows q env graph listed o.quad.graph ∧ o.quad.triple = r) := fun kept h => by
    simp only [List.mem_map, h, and_assoc]
  cases graph with
  | none =>
    have hfilter := hkept (os.filter (Occurrence.inOneOf listed)) fun o => by
      rw [List.mem_filter, inOneOf_iff_listed, Shows]
    simp only [inForce, Occurrence.successiveDistinct]
    split_ifs
    · exact hfilter
    · rw [Occurrence.mem_dropRepeats_triple, hfilter]
  | some n =>
    simp only [inForce]
    cases hl : s.lookup q env n .graph with
    | missing => simp [Shows, hl]
    | free => exact hkept _ fun o => by simp only [mem_inGraphs_listed, Shows, hl]
    | found m =>
      refine hkept _ fun o => ?_
      simp only [mem_inGraphs_listed, Shows, hl]
      exact and_congr_right fun _ => and_iff_right_of_imp fun h => by rw [h]; rfl

end Shows

/-! ### Single steps -/

theorem exists_predicate_of_step (hs : s.store.Valid) {ps : List Node}
    (hps : s.stepPredicates? step = some ps) {r : Quad} (hr : s.store.Holds r) :
    (∃ p ∈ ps, r.predicate = p.term) ↔ step.Crosses r.predicate := by
  induction step with
  | predicate name =>
    obtain rfl := Option.some.inj hps
    constructor
    · rintro ⟨p, hp, hrp⟩
      exact hrp.trans (hs.propertyNode_eq_some (Option.mem_toList.mp hp))
    · intro hrp
      obtain ⟨p, hp⟩ := hs.exists_propertyNode (t := .iri name) hr hrp
      exact ⟨p, Option.mem_toList.mpr hp, hrp.trans (hs.propertyNode_eq_some hp).symm⟩
  | negated names =>
    obtain rfl := Option.some.inj hps
    have hlisted : ∀ p : Term, (!p.iri?.any names.contains) = true ↔
        ∀ name ∈ names, p ≠ .iri name := by
      intro p
      cases p with
      | iri name =>
        rw [Term.iri?, Option.any_some, Bool.not_eq_true', Bool.eq_false_iff, ne_eq,
          List.contains_iff_mem]
        exact ⟨fun hn m hm he => hn (Term.iri.inj he ▸ hm), fun hn hm => hn name hm rfl⟩
      | _ => exact iff_of_true rfl fun _ _ he => by cases he
    simp only [List.mem_filter, Path.Crosses, ← hlisted]
    constructor
    · rintro ⟨p, ⟨-, hp⟩, hrp⟩
      rwa [hrp]
    · intro hn
      obtain ⟨p, hp, hrp⟩ := hs.mem_predicateNodes hr
      exact ⟨p, ⟨hp, hrp ▸ hn⟩, hrp⟩
  | inverse p ih => exact ih hps
  | _ => cases hps

theorem not_crosses_of_none (hps : s.stepPredicates? step = none) (p : Term) :
    ¬ step.Crosses p := by
  induction step with
  | predicate | negated => cases hps
  | inverse p ih => exact ih hps
  | _ => exact id

/-- The ends of an edge. -/
def IsEnd (place : Position) : Prop := place = .subject ∨ place = .object

theorem node_of_triple {place : Position} (hp : IsEnd place) {r r' : Quad}
    (h : r.triple = r'.triple) : r.node place = r'.node place := by
  have hs := congrArg Quad.subject h
  have ho := congrArg Quad.object h
  rcases hp with rfl | rfl
  · exact congrArg some hs
  · exact congrArg some ho

theorem mem_edgesFor_end (hs : s.store.Valid) {place : Position} (hp : IsEnd place)
    {ps : List Node} {m : Node} :
    (∃ o ∈ ps.flatMap fun p => s.store.edgesFor p (some m) none place, o.quad = r) ↔
      s.store.Holds r ∧ (∃ p ∈ ps, r.predicate = p.term) ∧ r.node place = some m.term := by
  have hedges : ∀ p, (∃ o ∈ s.store.edgesFor p (some m) none place, o.quad = r) ↔
      s.store.Holds r ∧ r.predicate = p.term ∧ r.node place = some m.term := by
    intro p
    rw [← List.mem_map]
    rcases hp with rfl | rfl
    · rw [hs.mem_edgesFor_subject]
      simp [Quad.node]
    · rw [hs.mem_edgesFor_object]
      simp [Quad.node]
  constructor
  · rintro ⟨o, ho, rfl⟩
    obtain ⟨p, hps, ho⟩ := List.mem_flatMap.mp ho
    obtain ⟨hh, hpred, hn⟩ := (hedges p).mp ⟨o, ho, rfl⟩
    exact ⟨hh, ⟨p, hps, hpred⟩, hn⟩
  · rintro ⟨hh, ⟨p, hps, hpred⟩, hn⟩
    obtain ⟨o, ho, hor⟩ := (hedges p).mpr ⟨hh, hpred, hn⟩
    exact ⟨o, List.mem_flatMap.mpr ⟨p, hps, ho⟩, hor⟩

theorem matchStep_eq {step : Path} {ps : List Node} (hps : s.stepPredicates? step = some ps)
    (q : Query) (env : Environment) (p : PathPattern) (graph : Option NodePattern)
    (from_ : List Term) :
    s.matchStep q env p step (some ⟨t, none⟩) .subject graph from_ =
      match s.store.node? t with
      | none => []
      | some m => s.inForce q env graph (s.graphNodes from_) <|
        ps.flatMap fun p => s.store.edgesFor p (some m) none (effectiveIndex step .subject) := by
  rw [matchStep, hps]
  cases h : s.store.node? t <;> simp [h, Lookup.node?]

/-- A step starts from one end of its edges. -/
theorem isEnd_effectiveIndex (p : Path) : IsEnd (effectiveIndex p .subject) := by
  induction p with
  | inverse p ih => rcases ih with h | h <;> simp [effectiveIndex, h, IsEnd, Position.reverse]
  | _ => exact .inl rfl

theorem isEnd_reverse {place : Position} (hp : IsEnd place) : IsEnd place.reverse := by
  rcases hp with rfl | rfl
  · exact .inr rfl
  · exact .inl rfl

/-- A step leads to the other ends of the edges in force that it follows. -/
theorem mem_stepFrom (hs : s.store.Valid) :
    u ∈ s.stepFrom g step t ↔ ∃ r, s.store.Holds r ∧
      s.Shows g.query g.env g.env.graph (s.graphNodes (restriction g.query g.env)) r.graph ∧
      step.Crosses r.predicate ∧ r.node (effectiveIndex step .subject) = some t.canonical ∧
      r.node (effectiveIndex step .subject).reverse = some u := by
  have hplace : IsEnd (effectiveIndex step .subject) := isEnd_effectiveIndex step
  have hfar : IsEnd (effectiveIndex step .subject).reverse := isEnd_reverse hplace
  have hnode : ∀ o : Occurrence, (o.node (effectiveIndex step .subject).reverse).map (·.term) =
      o.quad.node (effectiveIndex step .subject).reverse := fun o => by
    rcases hfar with hp | hp <;> rw [hp] <;> rfl
  rw [stepFrom, List.mem_eraseDups, List.mem_filterMap]
  simp only [hnode]
  cases hps : s.stepPredicates? step with
  | none =>
    rw [matchStep, hps]
    refine iff_of_false (by simp) ?_
    rintro ⟨r, -, -, hcross, -⟩
    exact not_crosses_of_none hps _ hcross
  | some ps =>
    rw [matchStep_eq hps]
    cases hm : s.store.node? t with
    | none =>
      refine iff_of_false (by simp) ?_
      rintro ⟨r, hr, -, -, hrt, -⟩
      obtain ⟨i, hi⟩ := hr.exists_node hrt
      exact hs.not_stored hm i hi
    | some m =>
      have hmt : m.term = t.canonical := hs.term_of_node hm
      constructor
      · rintro ⟨o, ho, hou⟩
        obtain ⟨o', ho', hshows, htriple⟩ := mem_inForce_triple.mp (List.mem_map_of_mem ho)
        obtain ⟨hh, hpred, hn⟩ := (mem_edgesFor_end hs hplace).mp ⟨o', ho', rfl⟩
        exact ⟨o'.quad, hh, hshows, (exists_predicate_of_step hs hps hh).mp hpred, hmt ▸ hn,
          (node_of_triple hfar htriple).trans hou⟩
      · rintro ⟨r, hr, hshows, hcross, hrt, hru⟩
        obtain ⟨o, ho, rfl⟩ := (mem_edgesFor_end hs hplace).mpr
          ⟨hr, (exists_predicate_of_step hs hps hr).mpr hcross, hmt ▸ hrt⟩
        obtain ⟨o', ho', htriple⟩ :=
          List.mem_map.mp (mem_inForce_triple.mpr ⟨o, ho, hshows, rfl⟩)
        exact ⟨o', ho', (node_of_triple hfar htriple).trans hru⟩

/-! ### Steps without restriction -/

/-- Whether a stored edge leads from a term to another one in the graph in force. -/
def Leads (s : Source) (q : Query) (env : Environment) (a p b : Term) : Prop :=
  ∃ g, s.store.Holds ⟨a, p, b, g⟩ ∧ ∀ n, env.graph = some n → Allows q env n g

/-- What walks rely on: the graphs are not restricted, and the graph in force is known. -/
structure Walkable (s : Source) (q : Query) (env : Environment) : Prop where
  valid : s.store.Valid
  unrestricted : restriction q env = []
  bound : ∀ n, env.graph = some n → ∃ t, valueOf? q env n = some t

theorem Walkable.shows_iff {q : Query} {env : Environment} (h : s.Walkable q env)
    (hr : s.store.Holds r) :
    s.Shows q env env.graph (s.graphNodes (restriction q env)) r.graph ↔
      ∀ n, env.graph = some n → Allows q env n r.graph := by
  rw [h.unrestricted]
  cases hg : env.graph with
  | none => exact iff_of_true (.inl rfl) fun n hn => by cases hn
  | some n =>
    simp only [Shows, Option.some.injEq, forall_eq']
    cases hl : s.lookup q env n .graph with
    | free =>
      obtain ⟨t, ht⟩ := h.bound n hg
      rw [lookup_of_some ht] at hl
      split at hl <;> cases hl
    | missing => exact iff_of_false id (not_allows_of_missing h.valid hl hr (by simp))
    | found m => exact (allows_of_found h.valid hl).symm

/-- A step along a predicate, in either direction. -/
theorem Walkable.mem_step (h : s.Walkable g.query g.env) {p : Path}
    (hp : effectiveIndex p .subject = .subject)
    (hrel : ∀ a b, p.Relates (s.Leads g.query g.env) a b ↔
      ∃ c, s.Leads g.query g.env a c b ∧ p.Crosses c) (backwards : Bool) (ht : t.IsCanonical) :
    u ∈ s.stepFrom g (if backwards then .inverse p else p) t ↔
      p.RelatesTo (s.Leads g.query g.env) backwards t u := by
  -- what the step follows, read from its start at some end of an edge to the other one
  have hfrom : ∀ {step : Path} {place : Position}, effectiveIndex step .subject = place →
      (∀ c, step.Crosses c ↔ p.Crosses c) → (u ∈ s.stepFrom g step t ↔ ∃ r, s.store.Holds r ∧
        (∀ n, g.env.graph = some n → Allows g.query g.env n r.graph) ∧ p.Crosses r.predicate ∧
        r.node place = some t ∧ r.node place.reverse = some u) := fun hplace hcross => by
    rw [mem_stepFrom h.valid, hplace, ht]
    exact exists_congr fun r => and_congr_right fun hr =>
      and_congr (h.shows_iff hr) (and_congr_left fun _ => hcross _)
  cases backwards with
  | false =>
    refine (hfrom hp fun _ => Iff.rfl).trans (Iff.trans ?_ (hrel t u).symm)
    constructor
    · rintro ⟨⟨a, c, b, gr⟩, hr, ha, hc, hrt, hru⟩
      obtain rfl := Option.some.inj hrt
      obtain rfl := Option.some.inj hru
      exact ⟨c, ⟨gr, hr, ha⟩, hc⟩
    · rintro ⟨c, ⟨gr, hr, ha⟩, hc⟩
      exact ⟨_, hr, ha, hc, rfl, rfl⟩
  | true =>
    have hinverse : effectiveIndex (.inverse p) .subject = .object := by
      rw [effectiveIndex, hp]
      rfl
    refine (hfrom hinverse fun _ => Iff.rfl).trans (Iff.trans ?_ (hrel u t).symm)
    constructor
    · rintro ⟨⟨a, c, b, gr⟩, hr, ha, hc, hrt, hru⟩
      obtain rfl := Option.some.inj hrt
      obtain rfl := Option.some.inj hru
      exact ⟨c, ⟨gr, hr, ha⟩, hc⟩
    · rintro ⟨c, ⟨gr, hr, ha⟩, hc⟩
      exact ⟨_, hr, ha, hc, rfl, rfl⟩

theorem Walkable.mem_step_predicate (h : s.Walkable g.query g.env) (name : Iri)
    (backwards : Bool) (ht : t.IsCanonical) :
    u ∈ s.reach g (.predicate name) backwards t ↔
      (Path.predicate name).RelatesTo (s.Leads g.query g.env) backwards t u :=
  h.mem_step rfl (fun a b => by simp [Path.Relates, Path.Crosses]) backwards ht

theorem Walkable.mem_step_negated (h : s.Walkable g.query g.env) (names : List Iri)
    (backwards : Bool) (ht : t.IsCanonical) :
    u ∈ s.reach g (.negated names) backwards t ↔
      (Path.negated names).RelatesTo (s.Leads g.query g.env) backwards t u :=
  h.mem_step rfl (fun _ _ => Iff.rfl) backwards ht

/-! ### Whole paths -/

/-- Steps lead to nodes that are stored, whatever graph is in force. -/
theorem stepFrom_subset_terms (hs : s.store.Valid) (g : Ground) (step : Path) (t : Term) :
    s.stepFrom g step t ⊆ s.store.dictionary.terms := by
  intro u hu
  obtain ⟨r, hr, -, -, -, hru⟩ := (mem_stepFrom hs).mp hu
  obtain ⟨i, hi⟩ := hr.exists_node hru
  exact List.mem_of_getElem? hi

/-- A path leads to the start itself or to nodes that are stored. -/
theorem reach_subset_terms (hs : s.store.Valid) (g : Ground) (p : Path) (backwards : Bool)
    (t : Term) : s.reach g p backwards t ⊆ t :: s.store.dictionary.terms := by
  have hfrom : ∀ {p : Path} {backwards : Bool},
      (∀ t, s.reach g p backwards t ⊆ t :: s.store.dictionary.terms) →
      ∀ {t a}, a ∈ t :: s.store.dictionary.terms →
        s.reach g p backwards a ⊆ t :: s.store.dictionary.terms := by
    intro p backwards hp t a ha u hu
    rcases List.mem_cons.mp (hp a hu) with rfl | hu
    · exact ha
    · exact List.mem_cons_of_mem _ hu
  induction p generalizing backwards t with
  | predicate | negated =>
    rw [reach]
    exact List.subset_cons_of_subset _ (stepFrom_subset_terms hs g _ t)
  | inverse p ih =>
    rw [reach]
    exact ih _ t
  | seq p q ihp ihq =>
    intro u hu
    rw [reach] at hu
    split_ifs at hu
    all_goals
      rw [List.mem_eraseDups, List.mem_flatMap] at hu
      obtain ⟨a, ha, hu⟩ := hu
    · exact hfrom (ihp true) (ihq true t ha) hu
    · exact hfrom (ihq false) (ihp false t ha) hu
  | alt p q ihp ihq =>
    intro u hu
    rw [reach, List.mem_eraseDups, List.mem_append] at hu
    exact hu.elim (ihp _ t ·) (ihq _ t ·)
  | zeroOrOne p ih =>
    intro u hu
    rw [reach, List.mem_eraseDups] at hu
    rcases List.mem_cons.mp hu with rfl | hu
    · exact List.mem_cons_self
    · exact ih _ t hu
  | zeroOrMore p ih =>
    rw [reach]
    exact closure_subset (fun a ha => hfrom (ih _) ha) (by simp) (by simp)
  | oneOrMore p ih =>
    rw [reach]
    exact closure_subset (fun a ha => hfrom (ih _) ha) (List.nil_subset _) (by simp)

/-- From the start and from what is stored, a path leads to such nodes again. -/
theorem reach_subset_of_mem (hs : s.store.Valid) (g : Ground) (p : Path) (backwards : Bool)
    {a : Term} (ha : a ∈ t :: s.store.dictionary.terms) :
    s.reach g p backwards a ⊆ t :: s.store.dictionary.terms := by
  intro u hu
  rcases List.mem_cons.mp (reach_subset_terms hs g p backwards a hu) with rfl | hu
  · exact ha
  · exact List.mem_cons_of_mem _ hu

theorem isCanonical_of_mem_reach (hs : s.store.Valid) {g : Ground} {p : Path} {backwards : Bool}
    {u : Term} (ht : t.IsCanonical) (hu : u ∈ s.reach g p backwards t) : u.IsCanonical := by
  rcases List.mem_cons.mp (reach_subset_terms hs g p backwards t hu) with rfl | hu
  · exact ht
  · exact hs.dictionary.canonical u hu

theorem mem_reach_zeroOrMore (hs : s.store.Valid) {g : Ground} {p : Path} {backwards : Bool}
    {t u : Term} : u ∈ s.reach g (.zeroOrMore p) backwards t ↔
      Relation.ReflTransGen (Steps (s.reach g p backwards)) t u := by
  rw [reach]
  refine mem_closure_self (fun a ha => reach_subset_of_mem hs g p backwards ha) List.mem_cons_self ?_
  rw [rounds, List.length_cons]
  omega

theorem mem_reach_oneOrMore (hs : s.store.Valid) {g : Ground} {p : Path} {backwards : Bool}
    {t u : Term} : u ∈ s.reach g (.oneOrMore p) backwards t ↔
      Relation.TransGen (Steps (s.reach g p backwards)) t u := by
  rw [reach]
  refine mem_closure_of_start (fun a ha => reach_subset_of_mem hs g p backwards ha)
    List.mem_cons_self ?_
  rw [rounds, List.length_cons]
  omega

/-- Relations that agree where the one leads lead to the same by any number of steps. -/
theorem reflTransGen_of_on {C : Term → Prop} {R R' : Term → Term → Prop}
    (hR : ∀ a b, C a → R a b → R' a b ∧ C b) (ht : C t) (h : Relation.ReflTransGen R t u) :
    Relation.ReflTransGen R' t u ∧ C u := by
  induction h with
  | refl => exact ⟨.refl, ht⟩
  | tail _ hab ih =>
    obtain ⟨hab, hb⟩ := hR _ _ ih.2 hab
    exact ⟨ih.1.tail hab, hb⟩

theorem transGen_of_on {C : Term → Prop} {R R' : Term → Term → Prop}
    (hR : ∀ a b, C a → R a b → R' a b ∧ C b) (ht : C t) (h : Relation.TransGen R t u) :
    Relation.TransGen R' t u ∧ C u := by
  induction h with
  | single hab =>
    obtain ⟨hab, hb⟩ := hR _ _ ht hab
    exact ⟨.single hab, hb⟩
  | tail _ hab ih =>
    obtain ⟨hab, hb⟩ := hR _ _ ih.2 hab
    exact ⟨ih.1.tail hab, hb⟩

variable {E : Term → Term → Term → Prop}

theorem relatesTo_zeroOrMore (p : Path) (backwards : Bool) :
    (Path.zeroOrMore p).RelatesTo E backwards t u ↔
      Relation.ReflTransGen (p.RelatesTo E backwards) t u := by
  cases backwards
  · rfl
  · exact Relation.reflTransGen_swap.symm

theorem relatesTo_oneOrMore (p : Path) (backwards : Bool) :
    (Path.oneOrMore p).RelatesTo E backwards t u ↔
      Relation.TransGen (p.RelatesTo E backwards) t u := by
  cases backwards
  · rfl
  · exact Relation.transGen_swap.symm

/-- What a walk finds: the nodes that the path leads to, all of which are stored but the start. -/
structure Finds (s : Source) (g : Ground) (p : Path) (backwards : Bool) (t : Term) : Prop where
  mem_iff : ∀ u, u ∈ s.reach g p backwards t ↔
    p.RelatesTo (s.Leads g.query g.env) backwards t u
  stored : s.reach g p backwards t ⊆ t :: s.store.dictionary.terms

theorem Walkable.canonical_of_mem (h : s.Walkable g.query g.env) (ht : t.IsCanonical)
    (hu : u ∈ t :: s.store.dictionary.terms) : u.IsCanonical := by
  rcases List.mem_cons.mp hu with rfl | hu
  · exact ht
  · exact h.valid.dictionary.canonical u hu

/-- A walk leads to exactly what the path relates its start to. -/
theorem Walkable.mem_reach (h : s.Walkable g.query g.env) (p : Path) (backwards : Bool)
    (ht : t.IsCanonical) :
    u ∈ s.reach g p backwards t ↔ p.RelatesTo (s.Leads g.query g.env) backwards t u := by
  have hc : ∀ {p : Path} {backwards a b}, a.IsCanonical → b ∈ s.reach g p backwards a →
      b.IsCanonical := isCanonical_of_mem_reach h.valid
  induction p generalizing backwards t u with
  | predicate name => exact h.mem_step_predicate name backwards ht
  | negated names => exact h.mem_step_negated names backwards ht
  | inverse p ih =>
    refine (ih (!backwards) ht).trans ?_
    cases backwards <;> rfl
  | seq p q ihp ihq =>
    have hflatMap : ∀ {p q : Path} {backwards},
        (∀ {t u}, t.IsCanonical → (u ∈ s.reach g p backwards t ↔
          p.RelatesTo (s.Leads g.query g.env) backwards t u)) →
        (∀ {t u}, t.IsCanonical → (u ∈ s.reach g q backwards t ↔
          q.RelatesTo (s.Leads g.query g.env) backwards t u)) →
        (u ∈ ((s.reach g p backwards t).flatMap (s.reach g q backwards)).eraseDups ↔
          ∃ m, p.RelatesTo (s.Leads g.query g.env) backwards t m ∧
            q.RelatesTo (s.Leads g.query g.env) backwards m u) := by
      intro p q backwards hp hq
      rw [List.mem_eraseDups, List.mem_flatMap]
      refine exists_congr fun m => ?_
      rw [← hp ht]
      exact and_congr_right fun hm => hq (hc ht hm)
    cases backwards with
    | false => exact hflatMap (ihp false) (ihq false)
    | true =>
      -- Backwards, the second path is walked first.
      exact (hflatMap (ihq true) (ihp true)).trans (exists_congr fun m => and_comm)
  | alt p q ihp ihq =>
    rw [reach, List.mem_eraseDups, List.mem_append]
    refine (or_congr (ihp backwards ht) (ihq backwards ht)).trans ?_
    cases backwards <;> rfl
  | zeroOrOne p ih =>
    rw [reach, List.mem_eraseDups, List.mem_cons]
    refine (or_congr_right (ih backwards ht)).trans ?_
    cases backwards
    · exact or_congr_left eq_comm
    · rfl
  | zeroOrMore p ih =>
    rw [mem_reach_zeroOrMore h.valid, relatesTo_zeroOrMore]
    constructor
    · refine fun hr => (reflTransGen_of_on (fun a b ha hab => ?_) ht hr).1
      exact ⟨(ih backwards ha).mp hab, hc ha hab⟩
    · refine fun hr => (reflTransGen_of_on (fun a b ha hab => ?_) ht hr).1
      have hab := (ih backwards ha).mpr hab
      exact ⟨hab, hc ha hab⟩
  | oneOrMore p ih =>
    rw [mem_reach_oneOrMore h.valid, relatesTo_oneOrMore]
    constructor
    · refine fun hr => (transGen_of_on (fun a b ha hab => ?_) ht hr).1
      exact ⟨(ih backwards ha).mp hab, hc ha hab⟩
    · refine fun hr => (transGen_of_on (fun a b ha hab => ?_) ht hr).1
      have hab := (ih backwards ha).mpr hab
      exact ⟨hab, hc ha hab⟩

theorem Walkable.finds (h : s.Walkable g.query g.env) (p : Path) (backwards : Bool)
    (ht : t.IsCanonical) : s.Finds g p backwards t :=
  ⟨fun _ => h.mem_reach p backwards ht, reach_subset_terms h.valid g p backwards t⟩

/-- A walk finds each node once. -/
theorem nodup_reach (s : Source) (g : Ground) (p : Path) (backwards : Bool) (t : Term) :
    (s.reach g p backwards t).Nodup := by
  induction p generalizing backwards t with
  | predicate name => exact nodup_eraseDups _
  | negated names => exact nodup_eraseDups _
  | inverse p ih => exact ih (!backwards) t
  | seq p q =>
    rw [reach]
    split_ifs <;> exact nodup_eraseDups _
  | alt p q => exact nodup_eraseDups _
  | zeroOrOne p => exact nodup_eraseDups _
  | zeroOrMore p => exact nodup_closure (List.nodup_singleton t)
  | oneOrMore p => exact nodup_closure List.nodup_nil

/-- The images of the same nodes are reached where steps lead from images to the images of the same
nodes. -/
theorem reach_map {s' : Source} {g' : Ground} {f : Term → Term} (hf : Function.Injective f)
    (hstep : ∀ p t, s'.stepFrom g' p (f t) = (s.stepFrom g p t).map f)
    (hrounds : s'.rounds = s.rounds) (p : Path) (backwards : Bool) (t : Term) :
    s'.reach g' p backwards (f t) = (s.reach g p backwards t).map f := by
  have hdups : ∀ ts : List Term, (ts.map f).eraseDups = ts.eraseDups.map f := fun ts =>
    eraseDups_map_of_injOn fun _ _ _ _ h => hf h
  have hflat : ∀ {r r' : Term → List Term}, (∀ t, r' (f t) = (r t).map f) → ∀ ts : List Term,
      (ts.map f).flatMap r' = (ts.flatMap r).map f := fun {r r'} hr ts => by
    rw [List.flatMap_map, List.map_flatMap]
    exact congrArg (List.flatMap · ts) (funext hr)
  induction p generalizing backwards t with
  | predicate | negated => rw [reach, reach, hstep]
  | inverse p ih => exact ih (!backwards) t
  | seq p q ihp ihq =>
    rw [reach, reach]
    cases backwards with
    | false =>
      simp only [Bool.false_eq_true, if_false]
      rw [ihp, hflat (ihq false), hdups]
    | true =>
      simp only [if_true]
      rw [ihq, hflat (ihp true), hdups]
  | alt p q ihp ihq => rw [reach, reach, ihp, ihq, ← List.map_append, hdups]
  | zeroOrOne p ih => rw [reach, reach, ih, ← List.map_cons, hdups]
  | zeroOrMore p ih =>
    rw [reach, reach, hrounds]
    have hmap : closure (s'.reach g' p backwards) s.rounds ([t].map f) ([t].map f) = _ :=
      closure_map hf (ih backwards)
    exact hmap
  | oneOrMore p ih =>
    rw [reach, reach, hrounds]
    have hmap : closure (s'.reach g' p backwards) s.rounds (List.map f []) ([t].map f) = _ :=
      closure_map hf (ih backwards)
    exact hmap

/-- The same nodes are reached where the same steps lead to the same nodes. -/
theorem reach_congr {s' : Source} {g' : Ground}
    (hstep : ∀ p, s.stepFrom g p = s'.stepFrom g' p) (hrounds : s.rounds = s'.rounds) (p : Path)
    (backwards : Bool) :
    s.reach g p backwards = s'.reach g' p backwards := by
  funext t
  have hmap : s'.reach g' p backwards t = (s.reach g p backwards t).map id :=
    reach_map Function.injective_id (fun p t => by rw [List.map_id, hstep]; rfl) hrounds.symm p
      backwards t
  rw [hmap, List.map_id]

/-! ### Starts -/

/-- Whether a term is an end of some edge in the graph in force. -/
def Joins (s : Source) (q : Query) (env : Environment) (t : Term) : Prop :=
  ∃ p u, s.Leads q env t p u ∨ s.Leads q env u p t

/-- A path with two free ends is walked from each end of an edge. -/
theorem Walkable.mem_startNodes {q : Query} {env : Environment} (h : s.Walkable q env)
    (hc : ∀ v t, env.get? q v = some t → t.IsCanonical) :
    t ∈ s.startNodes q env ↔ s.Joins q env t := by
  have hjoins : s.Joins q env t ↔ ∃ r, s.store.Holds r ∧
      (∀ n, env.graph = some n → Allows q env n r.graph) ∧ (r.subject = t ∨ r.object = t) := by
    constructor
    · rintro ⟨p, u, ⟨gr, hr, ha⟩ | ⟨gr, hr, ha⟩⟩
      · exact ⟨_, hr, ha, .inl rfl⟩
      · exact ⟨_, hr, ha, .inr rfl⟩
    · rintro ⟨⟨a, p, b, gr⟩, hr, ha, rfl | rfl⟩
      · exact ⟨p, b, .inl ⟨gr, hr, ha⟩⟩
      · exact ⟨p, a, .inr ⟨gr, hr, ha⟩⟩
  rw [hjoins]
  unfold startNodes
  cases hg : env.graph with
  | none =>
    rw [h.valid.mem_nodes]
    simp
  | some n =>
    obtain ⟨u, hu⟩ := h.bound n hg
    have hallows : ∀ r : Quad, (∀ n', some n = some n' → Allows q env n' r.graph) ↔
        r.graph = some u.canonical := fun r =>
      ⟨fun ha => ha n rfl u hu, fun hr n' hn t ht => by
        obtain rfl := Option.some.inj hn
        rw [hr, ← Option.some.inj (hu.symm.trans ht)]⟩
    simp only [hallows]
    cases n with
    | const u' =>
      obtain rfl : u' = u := Option.some.inj hu
      cases hgraph : s.store.graphNode? u' with
      | some m =>
        have hm := (h.valid.graphNode_eq_some hgraph).1
        simp only [hgraph, h.valid.mem_nodes, Option.some.injEq, forall_eq', hm]
      | none =>
        simp only [hgraph]
        refine iff_of_false List.not_mem_nil ?_
        rintro ⟨r, hr, hru, -⟩
        obtain ⟨m, hm, -⟩ := h.valid.exists_graphNode (hr.names h.valid hru)
        rw [hgraph] at hm
        cases hm
    | var v =>
      have hget : env.get? q v = some u := hu
      have hcanonical : u.canonical = u := hc v u hget
      simp only [hget, h.valid.mem_nodes, Option.some.injEq, forall_eq', hcanonical]

theorem Walkable.nodup_startNodes {q : Query} {env : Environment} (h : s.Walkable q env) :
    (s.startNodes q env).Nodup := by
  unfold startNodes
  dsimp only
  split
  · exact h.valid.nodup_nodes _
  · split <;> exact h.valid.nodup_nodes _
  · split
    · exact h.valid.nodup_nodes _
    · exact List.nodup_nil

end Source

end GraphQuery
