import GraphQuery.Proofs.Evaluate.Canonical
import GraphQuery.Proofs.Evaluate.PatternTranslation
import GraphQuery.Proofs.Store.Objects
import GraphQuery.Proofs.Term.Rerouting

/-! Evaluation on other ways. Snapshots are told apart by the ways on which they were taken. As long
as none that is at hand was taken on the ways ahead, it makes no difference to an evaluation which
ways these are, but to the snapshots that it takes itself. -/

namespace GraphQuery

/-! ### Stores -/

/-- No class is an object. -/
theorem Store.subsumes_of_isObject {s : Store} (hs : s.Valid) (hfree : s.ObjectFree) {t : Term}
    (ht : t.isObject = true) {actual : Node} (ha : actual.term ∈ s.dictionary.terms) :
    s.subsumes ⟨t, none⟩ actual = false := by
  have hexpected : ((⟨t, none⟩ : Node) == actual) = false := Bool.eq_false_iff.mpr fun h => by
    obtain rfl : t = actual.term := Source.node_beq_iff.mp h
    exact hfree.notMem ht ha
  unfold subsumes
  rw [hexpected, Bool.false_or]
  cases s.propertyNode? (.iri Iri.subClassOf) with
  | none => rfl
  | some sub =>
    exact Bool.eq_false_iff.mpr fun h => hfree.notMem ht (closure_subset
      (fun c _ => superClasses_subset hs sub c) (List.nil_subset _) (by simpa using ha)
      (List.contains_iff_mem.mp h))

namespace Source

variable {s : Source} {τ : Term → Term}

/-- No occurrence stands for an object. -/
theorem accepts_of_isObject (hs : s.store.Valid) (hfree : s.store.ObjectFree) {o : Occurrence}
    (ho : o.Carries (· ∈ s.store.dictionary.terms)) (position : Position) {t : Term}
    (ht : t.isObject = true) : s.accepts o position ⟨t, none⟩ = false := by
  unfold accepts
  cases hn : o.node position with
  | none => rfl
  | some actual =>
    have hactual := ho.2 position actual hn
    have heq : (actual == (⟨t, none⟩ : Node)) = false := Bool.eq_false_iff.mpr fun h => by
      obtain rfl : actual.term = t := node_beq_iff.mp h
      exact hfree.notMem ht hactual
    simp only [heq, Store.subsumes_of_isObject hs hfree ht hactual, Bool.and_false, Bool.or_false]

/-- A store without objects overlooks an exchange of objects. -/
theorem overlooks (hs : s.store.Valid) (hfree : s.store.ObjectFree) (hτ : Term.Exchanges τ) :
    s.Overlooks τ := by
  have hid : ∀ t, s.store.dictionary.id? (τ t) = s.store.dictionary.id? t := fun t => by
    rcases hτ.eq_or_isObject t with h | ⟨h, h'⟩
    · rw [h]
    · rw [hfree.id_eq_none h', hfree.id_eq_none h]
  exact {
    node := fun t => by rw [Store.node?, Store.node?, hid]
    graphNode := fun t => by rw [Store.graphNode?, Store.graphNode?, hid]
    propertyNode := fun t => by rw [Store.propertyNode?, Store.propertyNode?, hid]
    nodes := fun t => by
      rcases hτ.eq_or_isObject t with h | ⟨h, h'⟩
      · rw [h]
      · rw [hfree.nodes_eq_nil h', hfree.nodes_eq_nil h]
    edge := fun q env e graph from_ o ho => by
      have ho := stored_of_mem_matchEdge hs ho
      refine ⟨⟨hτ.plain (hfree _ ho.1),
        fun position n hn => hτ.plain (hfree _ (ho.2 position n hn))⟩, fun position t => ?_⟩
      rcases hτ.eq_or_isObject t with h | ⟨h, h'⟩
      · rw [h]
      · rw [accepts_of_isObject hs hfree ho position h', accepts_of_isObject hs hfree ho position h]
    start := fun _ _ t ht => hτ.plain (hfree t (stored_of_mem_startNodes hs ht))
    step := fun g step t u hu => hτ.plain (hfree u (stepFrom_subset_terms hs g step t hu))
    graph := fun _ g hg => hτ.plain (hfree g.term (stored_of_mem_namedGraphs hg)) }

end Source

/-! ### Queries -/

/-- No bounds on an evaluation. -/
def Realm.all : Realm := ⟨fun _ => True, fun _ => True, fun _ => True⟩

/-- Slots stay in their places, with the terms that are in them replaced. -/
def Rerouting.translation (r : Rerouting) : Translation where
  slots := List.map (Option.map (Term.rerouted r))
  term := Term.rerouted r
  way := r.way
  start := r.start
  exchanges := Term.exchanges_rerouted r
  way_cons := r.cons

variable {r : Rerouting}

theorem Solution.compatible_rerouted (a b : Solution) :
    (a.translated r.translation).compatible (b.translated r.translation) = a.compatible b := by
  simp only [compatible, translated, Rerouting.translation, List.zip_map, List.all_map]
  refine congrArg (List.all _) (funext fun p => ?_)
  obtain ⟨_ | t, _ | u⟩ := p
  · rfl
  · rfl
  · rfl
  · exact (Term.exchanges_rerouted r).beq t u

theorem Solution.sharesSlot_rerouted (a b : Solution) :
    (a.translated r.translation).sharesSlot (b.translated r.translation) = a.sharesSlot b := by
  simp only [sharesSlot, translated, Rerouting.translation, List.zip_map, List.any_map]
  refine congrArg (List.any _) (funext fun p => ?_)
  simp

/-- A query reads and writes the replaced terms as it does the others. -/
theorem Query.translates_rerouting (q : Query) (r : Rerouting) :
    q.Translates q r.translation .all where
  patterns := rfl
  functions := rfl
  fromDefault := rfl
  fromNamed := rfl
  declared _ _ := Iff.rfl
  binding {env} _ v := by
    rw [Environment.binding?, Environment.binding?]
    cases q.slot? v with
    | none => rfl
    | some slot =>
      rw [Option.bind_some, Option.bind_some, Environment.translated, Rerouting.translation,
        List.getElem?_map]
      rcases env.bindings[slot]? with _ | _ | t <;> rfl
  assign {env v} _ _ _ t := by
    refine ⟨trivial, ?_⟩
    rw [Environment.assign, Environment.assign]
    cases q.slot? v with
    | none => rfl
    | some slot =>
      simp [Environment.translated, Rerouting.translation, List.map_set]
  initial := ⟨trivial, List.map_replicate⟩
  compatible _ _ := Solution.compatible_rerouted _ _
  sharesSlot _ _ := Solution.sharesSlot_rerouted _ _
  injective _ _ h :=
    List.map_injective_iff.mpr (Option.map_injective r.translation.exchanges.injective) h

/-- Snapshots are the same up to the ways. -/
theorem Scope.snapshot_rerouted (c : Scope) (env : Environment) (target : Option Term) :
    c.snapshot (env.translated r.translation) target = (c.snapshot env target).rerouted r := by
  unfold snapshot
  split_ifs
  · rw [Term.rerouted_snapshot]
    simp [Environment.translated, Locals.translated, Rerouting.translation]
  · have hbound : (c.query.vars.zip (env.translated r.translation).bindings).filterMap
        (fun p => p.2.map fun t => (p.1, t)) =
          ((c.query.vars.zip env.bindings).filterMap fun p => p.2.map fun t => (p.1, t)).map
            fun p => (p.1, p.2.rerouted r) := by
      rw [List.map_filterMap, Environment.translated, Rerouting.translation,
        List.zip_map_right, List.filterMap_map]
      refine congrArg (List.filterMap · _) (funext fun p => ?_)
      obtain ⟨v, _ | t⟩ := p <;> rfl
    refine (congrArg (fun bound : List (Variable × Term) => Term.snapshot "memory"
      (r.way env.trail) (bound.map (·.1)) (bound.map (·.2))) hbound).trans ?_
    rw [Term.rerouted_snapshot, List.map_map, List.map_map, List.map_map]
    rfl

/-! ### Evaluation -/

/-- Whether the ways on from an environment are new to the evaluation of an expression: no snapshot
that it meets was taken on one of them. -/
structure Context.Unvisited (c : Context) (e : Expr) (env : Environment) : Prop where
  bindings : ∀ t, some t ∈ env.bindings → t.IsBefore env.trail
  locals : ∀ b ∈ env.locals, b.2.IsBefore env.trail
  members : ∀ group, env.group = some group → ∀ s ∈ group, ∀ t, some t ∈ s.slots →
    t.IsBefore env.trail
  constants : ∀ t ∈ e.constants, t.IsBefore env.trail
  patterns : ∀ p ∈ c.query.patterns, ∀ t ∈ p.constants, t.IsBefore env.trail
  definitions : ∀ {site name count d}, c.finds site name count = some d → ∀ t ∈ d.body.constants,
    t.IsBefore env.trail

namespace Context.Unvisited

variable {c : Context} {e : Expr} {env : Environment} (h : c.Unvisited e env)

include h

/-- Nothing is at hand that a detour changes. -/
theorem translated_detour (between : List Nat) :
    env.translated (Rerouting.detour env.trail between).translation =
      { env with trail := between ++ env.trail } := by
  have hslots : ∀ slots : List (Option Term), (∀ t, some t ∈ slots → t.IsBefore env.trail) →
      slots.map (Option.map (Term.rerouted (.detour env.trail between))) = slots := by
    intro slots hs
    refine (List.map_congr_left fun t ht => ?_).trans (List.map_id' _)
    cases t with
    | none => rfl
    | some t => exact congrArg some (t.rerouted_eq_self (hs t ht))
  have hlocals : env.locals.translated (Rerouting.detour env.trail between).translation =
      env.locals :=
    (List.map_congr_left fun b hb => congrArg (Prod.mk b.1) (b.2.rerouted_eq_self
      (h.locals b hb))).trans (List.map_id' _)
  have hgroup : env.group.map (·.map (·.translated
      (Rerouting.detour env.trail between).translation)) = env.group := by
    cases hg : env.group with
    | none => rfl
    | some group =>
      refine congrArg some ((List.map_congr_left fun s hs => ?_).trans (List.map_id' _))
      exact congrArg (fun slots => { s with slots }) (hslots s.slots (h.members group hg s hs))
  rw [Environment.translated, hlocals, hgroup]
  exact congrArg₂ (fun bindings trail => { env with bindings, trail })
    (hslots env.bindings h.bindings) (Rerouting.way_detour env.trail between)

theorem translates (between : List Nat) : c.toScope.Translates c.query
    (Rerouting.detour env.trail between).translation .all .all where
  toTranslates := c.query.translates_rerouting _
  snapshot _ _ _ := c.snapshot_rerouted _ _
  call _ hd := ⟨fun _ _ => trivial, fun t ht => t.rerouted_eq_self (h.definitions hd t ht)⟩
  existence _ hp := ⟨fun _ _ => trivial, fun _ _ => trivial, fun t ht =>
    t.rerouted_eq_self (h.patterns _ (List.mem_of_getElem? hp) t ht)⟩
  restored {env} _ := by
    refine ⟨⟨trivial, fun _ _ _ _ => trivial, fun _ _ _ _ => trivial⟩, ?_⟩
    simp [Environment.restored, Environment.restore, Environment.translated, Environment.solution,
      Rerouting.translation, List.map_take]

/-- On a detour an expression comes to the same term, up to the snapshots that are taken there. -/
theorem evaluate_detour (hs : c.source.store.Valid) (hfree : c.source.store.ObjectFree)
    (between : List Nat) : c.evaluate e { env with trail := between ++ env.trail } =
      Option.map (Term.rerouted (.detour env.trail between)) <$> c.evaluate e env := by
  rw [← h.translated_detour]
  exact evaluate_translated (c.source.overlooks hs hfree (Term.exchanges_rerouted _))
    (h.translates between) (h.translates between) c.source.options.limit e
    ⟨fun _ _ => trivial, fun t ht => t.rerouted_eq_self (h.constants t ht)⟩
    ⟨⟨trivial, fun _ _ _ _ => trivial, fun _ _ _ _ => trivial⟩, List.suffix_rfl⟩

end Context.Unvisited

end GraphQuery
