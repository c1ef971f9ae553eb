import GraphQuery.Proofs.Evaluate.Accord

/-! Answers and the order of insertion. Two stores with the same contents number their nodes in
different orders, so candidates, walks and graphs are listed in different orders, but patterns hand
on the same environments up to the order and the ways to them, and what is asked for on the way is
answered alike. So a query that is neither grouped nor cut has the same projected rows. -/

namespace GraphQuery

namespace Context

variable {c : Context} {s : Source}

theorem agree_path_of_alike (hs : c.source.Alike s) {p : PathPattern} {a b : Environment}
    (hab : a.withoutTrail = b.withoutTrail) :
    AgreeUpToTrail (c.tracePath p a)
      ((c.alongside s c.query.fromDefault c.query.fromNamed).tracePath p b) := by
  obtain ⟨hdirection, hstarts⟩ := c.walk_alongside p a
  have hall : ∀ ts : List Term, ts.filter (fun _ => true) = ts := fun ts =>
    List.filter_eq_self.mpr fun _ _ => rfl
  refine agree_path hab (P := fun _ => true) (Q := fun _ => true) hdirection ?_
    (fun _ _ _ _ _ => rfl) (fun _ _ _ _ _ => rfl) fun m _ t => hs.reach_perm _ p.path _ t
  rw [hall, hall]
  rcases hstarts with h | ⟨h, h', -⟩
  · rw [h]
  · rw [h, h']
    exact hs.startNodes_perm c.query a

theorem accord_of_alike (hs : c.source.Alike s) :
    c.Accord s c.query.fromDefault c.query.fromNamed .any fun _ _ => True where
  edge {e a b} _ hab h h' := by
    have hall : ∀ os : List Occurrence, os.filter (fun _ => true) = os := fun os =>
      List.filter_eq_self.mpr fun _ _ => rfl
    refine agree_edge (χ := fun o => o.quad.seen a.graph) (P := fun _ => true)
      (Q := fun _ => true) hab rfl rfl ?_ (fun _ _ _ _ => rfl) (fun _ _ _ _ => rfl)
      (fun o _ o' _ ho => bindEdge_alongside ho (fun position expected hp =>
        (hs.accepts_eq ho hp rfl).symm) e a) h h'
    rw [hall, hall]
    exact hs.matchEdge_perm c.query a e a.graph _
  path _ hab := agree_path_of_alike hs hab
  graphs _ := hs.namedGraphs_perm c.query.fromNamed
  toPassesOn := c.passesOn_any

/-- The projected rows of an answer that is neither grouped nor cut. -/
theorem projected_perm (hs : c.source.Alike s) (hsystem : ∀ target, ¬ c.ComesTo (.snapshot target))
    (hcap : c.source.options.limit = none) (hagg : c.query.isAggregate = false)
    (hoffset : c.query.offset = 0) (hlimit : c.query.limit = none) {ans ans' : Solutions}
    (h : c.answer.outcome = .ok ans)
    (h' : (c.alongside s c.query.fromDefault c.query.fromNamed).answer.outcome = .ok ans') :
    (ans.rows.map (·.restrict ans.projection)).Perm
      (ans'.rows.map (·.restrict ans'.projection)) :=
  projected_perm_of_accord (accord_of_alike hs) hsystem (fun _ _ _ => trivial) (fun _ => trivial)
    (fun _ _ => trivial) hcap (hs.options ▸ hcap) hagg hoffset hlimit h h'

end Context

/-! ### Answers -/

namespace Processor

/-- The order of insertion does not show in the answer to a query that is neither grouped nor cut,
apart from the order of its rows. Two stores that were filled with the same quads and graphs give
the same projected rows, each as often, if both give an answer; the quads and graphs are those that
were accepted, in canonical form. Only a snapshot would tell the order, by the way to it. -/
theorem evaluate_perm (p : Processor) (q : Query) {entailment : Bool}
    {history history' : List Insertion} {options : Options}
    (hquads : ∀ r, r ∈ history.flatMap Insertion.quads ↔ r ∈ history'.flatMap Insertion.quads)
    (hnames : ∀ t, t ∈ history.flatMap Insertion.names ↔ t ∈ history'.flatMap Insertion.names)
    (hcap : options.limit = none) (hagg : q.isAggregate = false) (hoffset : q.offset = 0)
    (hlimit : q.limit = none) (hsystem : ∀ target, ¬ (p.scope q).ComesTo (.snapshot target))
    {ans ans' : Solutions} (h : ((p.filled entailment history options).evaluate q).outcome = .ok ans)
    (h' : ((p.filled entailment history' options).evaluate q).outcome = .ok ans') :
    (ans.rows.map (·.restrict ans.projection)).Perm
      (ans'.rows.map (·.restrict ans'.projection)) := by
  have hstore : (Store.after entailment history).Alike (.after entailment history') :=
    Store.alike_after hquads hnames
  let c : Context :=
    { query := q, source := (p.filled entailment history options).source, registry := p.registry,
      remembered := p.remembered }
  have hs : c.source.Alike (p.filled entailment history' options).source :=
    ⟨hstore, rfl, congrArg (options.typeMatching && ·) hstore.entailment⟩
  exact Context.projected_perm hs hsystem hcap hagg hoffset hlimit h h'

/-- Two edges, of which one is also inserted in another form, from the end of a path and with a
pattern whose existence is asked for. -/
theorem evaluate_perm_of_two :
    let a : Term := .iri ⟨"a"⟩
    let b : Term := .iri ⟨"b"⟩
    let true₁ : Term := .literal (.typed "1" Iri.xsdBoolean)
    let true₂ : Term := .literal (.typed "true" Iri.xsdBoolean)
    let p : Term := .iri ⟨"p"⟩
    let history : List Insertion := [.extend [⟨a, p, true₁, none⟩, ⟨b, p, true₂, none⟩]]
    let history' : List Insertion :=
      [.extend [⟨b, p, true₁, none⟩], .extend [⟨a, p, true₂, none⟩, ⟨b, p, true₂, none⟩]]
    let x : Variable := ⟨"x"⟩
    let y : Variable := ⟨"y"⟩
    let q := Query.ofParts
      { body := .sequence [.path ⟨.var x, .zeroOrOne (.predicate ⟨"p"⟩), .var y⟩,
          .filter (.existence 0)]
        patterns := [.edge ⟨.var x, .const p, .var y⟩] }
    let run (history : List Insertion) :=
      (Processor.filled { source := { store := {} } } false history {}).evaluate q
    ∃ ans ans', (run history).outcome = .ok ans ∧ (run history').outcome = .ok ans' ∧
      ans.rows.map (·.slots) = [[some a, some true₂], [some b, some true₂]] ∧
      ans'.rows.map (·.slots) = [[some b, some true₂], [some a, some true₂]] ∧
      (ans.rows.map (·.restrict ans.projection)).Perm
        (ans'.rows.map (·.restrict ans'.projection)) := by
  intro a b true₁ true₂ p history history' x y q run
  have hrun : (run history).outcome.toOption.map (·.rows.map (·.slots)) =
      some [[some a, some true₂], [some b, some true₂]] := by decide +kernel
  have hrun' : (run history').outcome.toOption.map (·.rows.map (·.slots)) =
      some [[some b, some true₂], [some a, some true₂]] := by decide +kernel
  cases h : (run history).outcome with
  | error e =>
    rw [h] at hrun
    cases hrun
  | ok ans =>
    cases h' : (run history').outcome with
    | error e =>
      rw [h'] at hrun'
      cases hrun'
    | ok ans' =>
      rw [h] at hrun
      rw [h'] at hrun'
      have hquads : (∀ r ∈ history.flatMap Insertion.quads, r ∈ history'.flatMap Insertion.quads) ∧
          ∀ r ∈ history'.flatMap Insertion.quads, r ∈ history.flatMap Insertion.quads := by
        decide +kernel
      have hnames : history.flatMap Insertion.names = history'.flatMap Insertion.names := by
        decide +kernel
      have hrequests : ∀ r, (Processor.scope { source := { store := {} } } q).ComesTo r →
          r = .existence 0 := by
        intro r hr
        induction hr with
        | query hr => exact List.mem_singleton.mp hr
        | existence _ hp hr ih =>
          cases ih
          obtain rfl := Option.some.inj hp
          cases hr
        | call _ _ _ ih => cases ih
      refine ⟨ans, ans', rfl, rfl, Option.some.inj hrun, Option.some.inj hrun', ?_⟩
      exact evaluate_perm _ q (fun r => ⟨hquads.1 r, hquads.2 r⟩) (fun t => by rw [hnames]) rfl rfl
        rfl rfl (fun target hr => by cases hrequests _ hr) h h'

end Processor

end GraphQuery
