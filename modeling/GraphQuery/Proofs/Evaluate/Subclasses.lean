import GraphQuery.Proofs.Evaluate.Instances
import GraphQuery.Proofs.Evaluate.Termination

/-! The hierarchy of classes, as the store decides it and as patterns see it. The test for classes
decides the reflexive and transitive closure of the sub-class edges of all graphs, also where they go
round in circles, and a pattern for the instances of a class finds the instances of all that is below
it, whether the instance is asked for or given. -/

namespace GraphQuery

namespace Context

variable {c : Context} {h : Hooks} {env : Environment} {e : EdgePattern} {qs : List Quad}
  {ts : List Term} {v : Variable} {t u x : Term}

open Source (Allows FitsPlaces OnlyClasses)

/-! ### What an edge pattern hands on -/

/-- An edge pattern without a graph in force that binds without errors hands on what its candidates
lead to. -/
theorem exists_yields_edge (hgraph : env.graph = none)
    (hdata : Source.restriction c.query env = []) {r : Occurrence → Option Environment}
    (hr : ∀ o ∈ c.source.matchEdge c.query env e none [], c.bindEdge e none o env = .ok (r o)) :
    ∃ l, (Pattern.edge e).Yields c h env l ∧
      ∀ v value, value ∈ l.map (·.get? c.query v) ↔
        ∃ a, c.SolvesEdge e env a ∧ a.get? c.query v = value := by
  rw [← hgraph, ← hdata] at hr
  refine ⟨_, Pattern.yields_edge hr, fun v value => ?_⟩
  rw [hgraph, hdata] at hr ⊢
  simp only [List.mem_map, List.mem_filterMap, Option.map_eq_some_iff]
  constructor
  · rintro ⟨_, ⟨⟨o, i⟩, ho, a, ha, rfl⟩, rfl⟩
    have hmem := (List.mem_zipIdx' ho).2 ▸ List.getElem_mem _
    exact ⟨a, ⟨o, hmem, by rw [hr o hmem, ha]⟩, rfl⟩
  · rintro ⟨a, ⟨o, ho, ha⟩, rfl⟩
    have hra : r o = some a := Except.ok.inj ((hr o ho).symm.trans ha)
    obtain ⟨i, hi, hio⟩ := List.mem_iff_getElem.mp ho
    have hzip := List.mk_mem_zipIdx_iff_getElem?.mpr (hio ▸ List.getElem?_eq_getElem hi)
    exact ⟨a.choose i, ⟨(o, i), hzip, a, hra, rfl⟩, rfl⟩

/-! ### Instances -/

theorem bindPositions_of_given (hgiven : env.get? c.query v = some x) (o : Occurrence) :
    c.bindPositions o [(.subject, .var v), (.object, .const t)] env =
      .ok (if c.source.accepts o .subject ⟨x, none⟩ ∧ c.source.accepts o .object (.ofTerm t) then
        some env else none) := by
  have hsubject : c.bindPosition o .subject (.var v) env =
      .ok (if c.source.accepts o .subject ⟨x, none⟩ then some env else none) := by
    simp only [bindPosition, hgiven]
    rfl
  have hobject : ∀ a : Environment, c.bindPosition o .object (.const t) a =
      .ok (if c.source.accepts o .object (.ofTerm t) then some a else none) := fun _ => rfl
  simp only [bindPositions, hsubject, hobject, Bind.bind, Except.bind]
  cases c.source.accepts o .subject ⟨x, none⟩ with
  | false => rfl
  | true => cases c.source.accepts o .object (.ofTerm t) <;> rfl

theorem accepts_subject_iff {o : Occurrence} :
    c.source.accepts o .subject ⟨x, none⟩ = true ↔ o.quad.subject = x := by
  change (_ || (_ && false && _ && _)) = true ↔ _
  rw [Bool.and_false, Bool.false_and, Bool.false_and, Bool.or_false, Source.node_beq_iff]
  rfl

/-- What the pattern for the instances of a class makes of a candidate, if its variable is free and
if it is not. -/
theorem exists_bindEdge_type (env : Environment) (t : Term) (hv : v ∈ c.query.vars) :
    ∃ r : Occurrence → Option Environment, ∀ o,
      c.bindEdge ⟨.var v, .const (.iri Iri.rdfType), .const t⟩ none o env = .ok (r o) := by
  cases hx : env.get? c.query v with
  | none => exact ⟨_, fun _ => bindPositions_of_free hv hx⟩
  | some x => exact ⟨_, bindPositions_of_given hx⟩

/-- The variable has a value in what the pattern hands on. -/
theorem exists_get_of_solvesEdge {a : Environment}
    (hl : env.bindings.length = c.query.vars.length) (hv : v ∈ c.query.vars)
    (ha : c.SolvesEdge ⟨.var v, .const (.iri Iri.rdfType), .const t⟩ env a) :
    ∃ u, a.get? c.query v = some u := by
  obtain ⟨o, -, ha⟩ := ha
  cases hx : env.get? c.query v with
  | none =>
    have hbind := (bindPositions_of_free hv hx).symm.trans ha
    split_ifs at hbind <;> cases hbind
    exact ⟨_, by rw [Environment.get_assign hl hv hx, if_pos rfl]⟩
  | some x =>
    have hbind := (bindPositions_of_given hx o).symm.trans ha
    split_ifs at hbind <;> cases hbind
    exact ⟨x, hx⟩

section Given

variable (hs : c.source.store.Contains qs ts) (hh : c.source.hierarchical = true)
  (hentailment : c.source.store.entailment = true) (hgiven : env.get? c.query v = some x)

include hs hh hentailment hgiven

/-- A term that is given is tested for being an instance of the class or of one below it. -/
theorem exists_solvesEdge_given_iff :
    (∃ a, c.SolvesEdge ⟨.var v, .const (.iri Iri.rdfType), .const t⟩ env a ∧
        a.get? c.query v = some u) ↔
      x = u ∧ ∃ r ∈ qs, r.subject = u ∧ r.predicate = .iri Iri.rdfType ∧
        Below qs r.object t.canonical := by
  have hbind : ∀ o : Occurrence,
      c.bindEdge ⟨.var v, .const (.iri Iri.rdfType), .const t⟩ none o env = .ok (if
        c.source.accepts o .subject ⟨x, none⟩ ∧ c.source.accepts o .object (.ofTerm t) then
          some env else none) := bindPositions_of_given hgiven
  constructor
  · rintro ⟨a, ⟨o, ho, ha⟩, hu⟩
    obtain ⟨hholds, hallows, -⟩ := Source.allows_of_mem_matchEdge hs.valid ho
    have hp : o.quad.predicate = .iri Iri.rdfType := Option.some.inj (hallows _ rfl)
    rw [hbind] at ha
    split_ifs at ha with haccepts
    · cases ha
      obtain rfl : x = u := Option.some.inj (hgiven.symm.trans hu)
      exact ⟨rfl, o.quad, (hs.holds _).mp hholds, accepts_subject_iff.mp haccepts.1, hp,
        (accepts_object_iff hs hh hp).mp haccepts.2⟩
    · cases ha
  · rintro ⟨rfl, r, hr, hsubject, hp, hbelow⟩
    have hcanonical : x.canonical = x := hsubject ▸ (((hs.holds r).mpr hr).isCanonical hs.valid).2.1
    have hfits : FitsPlaces qs c.query env ⟨.var v, .const (.iri Iri.rdfType), .const t⟩ none r :=
      { subject := fun t' ht' => by
          obtain rfl : x = t' := Option.some.inj (hgiven.symm.trans ht')
          rw [hsubject, hcanonical]
        object := fun t' ht' => Option.some.inj ht' ▸ hbelow
        graph := fun g hg => by cases hg }
    have hallows : Allows c.query env (.const (.iri Iri.rdfType)) (some r.predicate) :=
      fun t' ht' => by cases ht'; rw [hp]; rfl
    have honly : OnlyClasses qs c.query env (.const (.iri Iri.rdfType)) :=
      fun r' _ ha => Option.some.inj (ha _ rfl)
    obtain ⟨o, ho, hseen⟩ := (hfits.exists_mem_iff hs hentailment hr).mpr ⟨hallows, .inr honly⟩
    rw [← c.source.store.dictionary.quad_occurrence r] at hseen
    obtain ⟨hsubject', hp', hobject'⟩ := Occurrence.ends_of_seen hseen
    have hsubject' : o.quad.subject = x := hsubject'.trans hsubject
    have hp' : o.quad.predicate = .iri Iri.rdfType := hp'.trans hp
    have hobject' : o.quad.object = r.object := hobject'
    have haccepts : c.source.accepts o .subject ⟨x, none⟩ = true ∧
        c.source.accepts o .object (.ofTerm t) = true :=
      ⟨accepts_subject_iff.mpr hsubject', (accepts_object_iff hs hh hp').mpr (hobject' ▸ hbelow)⟩
    exact ⟨env, ⟨o, ho, by rw [hbind, if_pos haccepts]⟩, hgiven⟩

end Given

/-- The instances of a class as a pattern finds them, among all terms or as the one that is given. -/
theorem exists_yields_type (hs : c.source.store.Contains qs ts) (hh : c.source.hierarchical = true)
    (hentailment : c.source.store.entailment = true) (hgraph : env.graph = none)
    (hfrom : c.query.fromDefault = []) (hl : env.bindings.length = c.query.vars.length)
    (hv : v ∈ c.query.vars) :
    ∃ l, (Pattern.edge ⟨.var v, .const (.iri Iri.rdfType), .const t⟩).Yields c h env l ∧
      ∀ value, value ∈ l.map (·.get? c.query v) ↔
        ∃ u, value = some u ∧ (∀ x, env.get? c.query v = some x → x = u) ∧
          ∃ r ∈ qs, r.subject = u ∧ r.predicate = .iri Iri.rdfType ∧
            Below qs r.object t.canonical := by
  have hdata : Source.restriction c.query env = [] := by simp [Source.restriction, hgraph, hfrom]
  obtain ⟨r, hr⟩ := exists_bindEdge_type env t hv
  obtain ⟨l, hyields, hl'⟩ := exists_yields_edge (h := h) hgraph hdata fun o _ => hr o
  refine ⟨l, hyields, fun value => (hl' v value).trans ?_⟩
  cases value with
  | none =>
    simp only [reduceCtorEq, false_and, exists_false, iff_false]
    rintro ⟨a, ha, hnone⟩
    have := exists_get_of_solvesEdge hl hv ha
    simp [hnone] at this
  | some u =>
    simp only [Option.some.injEq, exists_eq_left']
    cases hx : env.get? c.query v with
    | none =>
      rw [exists_solvesEdge_type_iff hs hh hentailment hl hv hx]
      simp
    | some x =>
      rw [exists_solvesEdge_given_iff hs hh hentailment hx]
      simp

/-- The test for classes ends by itself, whatever the hierarchy is like, and it finds out whether one
class is above another one, going by the sub-class edges of all graphs; so it is reflexive and
transitive. Where classes stand for those below them, the solutions of a pattern for the instances of
a class are the instances of the classes below it, or whichever of them is given. -/
theorem instances_of_subclasses (history : List Insertion) :
    let qs := history.flatMap Insertion.quads
    (∀ entailment, let s := Store.after entailment history
      (∀ sub a k, closure (s.superClasses sub) (s.dictionary.terms.length + 1 + k) [] [a] =
        closure (s.superClasses sub) (s.dictionary.terms.length + 1) [] [a]) ∧
      (∀ expected actual, s.subsumes expected actual = true ↔
        Relation.ReflTransGen (fun a b => ∃ r ∈ qs,
          r.subject = a ∧ r.predicate = .iri Iri.subClassOf ∧ r.object = b)
          actual.term expected.term) ∧
      (∀ n, s.subsumes n n = true) ∧
      ∀ lower middle upper, s.subsumes middle lower = true → s.subsumes upper middle = true →
        s.subsumes upper lower = true) ∧
    ∀ (c : Context) (h : Hooks) (options : Options) (env : Environment) (v : Variable)
      (class_ : Term), c.source = { store := .after true history, options } →
      options.typeMatching = true → c.query.fromDefault = [] → env.graph = none →
      env.bindings.length = c.query.vars.length → v ∈ c.query.vars →
      ∃ l, (Pattern.edge ⟨.var v, .const (.iri Iri.rdfType), .const class_⟩).Yields c h env l ∧
        ∀ value, value ∈ l.map (·.get? c.query v) ↔
          ∃ x, value = some x ∧ (∀ given, env.get? c.query v = some given → given = x) ∧
            ∃ r ∈ qs, r.subject = x ∧ r.predicate = .iri Iri.rdfType ∧
              (Store.after true history).subsumes (.ofTerm class_) (.ofTerm r.object) = true := by
  intro qs
  have hcontains : ∀ entailment,
      (Store.after entailment history).Contains qs (history.flatMap Insertion.names) :=
    fun entailment => Store.contains_after entailment history
  refine ⟨fun entailment => ?_, ?_⟩
  · intro s
    have hs := hcontains entailment
    refine ⟨Store.superClasses_end hs.valid, fun _ _ => hs.subsumes_iff, fun n => ?_, ?_⟩
    · exact hs.subsumes_iff.mpr .refl
    · intro lower middle upper hlower hupper
      exact hs.subsumes_iff.mpr ((hs.subsumes_iff.mp hlower).trans (hs.subsumes_iff.mp hupper))
  · intro c h options env v class_ hsource htypes hfrom hgraph hl hv
    have hs : c.source.store.Contains qs (history.flatMap Insertion.names) := by
      rw [hsource]
      exact hcontains true
    have hentailment : c.source.store.entailment = true := by
      rw [hsource]
      exact Store.entailment_after true history
    have hh : c.source.hierarchical = true := by
      rw [hsource]
      show (options.typeMatching && (Store.after true history).entailment) = true
      rw [htypes, Store.entailment_after]
      rfl
    obtain ⟨l, hyields, hl⟩ :=
      exists_yields_type (h := h) (t := class_) hs hh hentailment hgraph hfrom hl hv
    refine ⟨l, hyields, fun value => (hl value).trans (exists_congr fun x => ?_)⟩
    refine and_congr_right fun _ => and_congr_right fun _ => ?_
    refine exists_congr fun r => and_congr_right fun hr => ?_
    have hcanonical : r.object.canonical = r.object :=
      (((hs.holds r).mpr hr).isCanonical hs.valid).2.2.1
    rw [(hcontains true).subsumes_iff]
    show _ ↔ _ ∧ _ ∧ Below qs r.object.canonical class_.canonical
    rw [hcanonical]

/-- Two classes that are below each other have the same instances. -/
theorem instances_of_subclasses_of_circle :
    let x : Term := .iri ⟨"x"⟩
    let one : Term := .iri ⟨"C"⟩
    let other : Term := .iri ⟨"D"⟩
    let history : List Insertion := [.extend [⟨one, .iri Iri.subClassOf, other, none⟩,
      ⟨other, .iri Iri.subClassOf, one, some one⟩, ⟨x, .iri Iri.rdfType, other, none⟩]]
    let e : EdgePattern := ⟨.var ⟨"v"⟩, .const (.iri Iri.rdfType), .const one⟩
    let c : Context :=
      { query := .ofParts { body := .edge e }
        source := { store := .after true history, options := { typeMatching := true } } }
    let h : Hooks := ⟨fun _ _ => pure none, fun _ _ => pure false⟩
    (Store.after true history).subsumes (.ofTerm other) (.ofTerm other) = true ∧
      (∃ l, (Pattern.edge e).Yields c h (.initial c.query) l ∧
        some x ∈ l.map (·.get? c.query ⟨"v"⟩)) ∧
      ∃ l, (Pattern.edge e).Yields c h { bindings := [some other] } l ∧ l = [] := by
  intro x one other history e c h
  obtain ⟨htest, hpattern⟩ := instances_of_subclasses history
  have hfound := hpattern c h { typeMatching := true }
  refine ⟨?_, ?_, ?_⟩
  · exact (htest true).2.2.2 (.ofTerm other) (.ofTerm one) (.ofTerm other) (by decide +kernel)
      (by decide +kernel)
  · obtain ⟨l, hl, hx⟩ := hfound (.initial c.query) ⟨"v"⟩ one rfl rfl rfl rfl rfl (by decide +kernel)
    refine ⟨l, hl, (hx (some x)).mpr ⟨x, rfl, fun given hgiven => ?_, ?_⟩⟩
    · cases hgiven
    · exact ⟨⟨x, .iri Iri.rdfType, other, none⟩, by decide +kernel, rfl, rfl, by decide +kernel⟩
  · obtain ⟨l, hl, hx⟩ := hfound { bindings := [some other] } ⟨"v"⟩ one rfl rfl rfl rfl rfl
      (by decide +kernel)
    refine ⟨l, hl, List.eq_nil_iff_forall_not_mem.mpr fun a ha => ?_⟩
    obtain ⟨u, -, hgiven, r, hr, hsubject, hp, -⟩ :=
      (hx (a.get? c.query ⟨"v"⟩)).mp (List.mem_map_of_mem ha)
    obtain rfl : other = u := hgiven other rfl
    have hno : ∀ r ∈ history.flatMap Insertion.quads,
        r.predicate = .iri Iri.rdfType → r.subject ≠ other := by decide +kernel
    exact hno r hr hp hsubject

end Context

end GraphQuery
