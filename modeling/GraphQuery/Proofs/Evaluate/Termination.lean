import GraphQuery.Processor
import GraphQuery.Proofs.Algebra.Numbering
import GraphQuery.Proofs.Evaluate.Declared
import GraphQuery.Proofs.Evaluate.Independence
import GraphQuery.Proofs.Evaluate.Simple
import GraphQuery.Proofs.Evaluate.Walk
import GraphQuery.Proofs.Store.View

/-! Evaluations that come to an end. Walks find nothing new after as many rounds as there are nodes.
Patterns refer to earlier ones only, and functions that do not call each other in a circle are nested
no deeper than there are definitions, so a lowered query is evaluated without an error, whatever
the store. -/

namespace GraphQuery

/-! ### Walks -/

namespace Source

variable {s : Source} {g : Ground} {t : Term}

/-- Walks that repeat a path end by themselves: after the rounds that are made, further ones find
nothing. -/
theorem follow_ends (hs : s.store.Valid) (g : Ground) (p : Path) (t : Term) (k : Nat) :
    closure (s.follow g p) (s.rounds + k) [t] [t] = s.follow g (.zeroOrMore p) t ∧
      closure (s.follow g p) (s.rounds + k) [] [t] = s.follow g (.oneOrMore p) t := by
  have hall : ∀ a ∈ t :: s.store.dictionary.terms,
      s.follow g p a ⊆ t :: s.store.dictionary.terms := by
    rw [(follow_eq_reach p).1]
    exact fun a ha => reach_subset_of_mem hs g p false ha
  have hrounds : (t :: s.store.dictionary.terms).length < s.rounds := by
    rw [rounds, List.length_cons]
    omega
  have hself : Searching (s.follow g p) (t :: s.store.dictionary.terms) s.rounds [t] [t] :=
    ⟨List.nodup_singleton t, by simp, by simp, Nat.lt_succ_of_lt hrounds, by simp⟩
  have hstart : Searching (s.follow g p) (t :: s.store.dictionary.terms) s.rounds [] [t] :=
    ⟨List.nodup_nil, List.nil_subset _, by simp, hrounds, by simp⟩
  rw [follow, follow]
  exact ⟨hself.closure_add hall k, hstart.closure_add hall k⟩

end Source

namespace Store

theorem superClasses_subset {s : Store} (hs : s.Valid) (sub : Node) (c : Term) :
    s.superClasses sub c ⊆ s.dictionary.terms := by
  intro u hu
  obtain ⟨o, ho, rfl⟩ := List.mem_map.mp hu
  exact (hs.terms_of_mem_edgesFor ho).2.2

/-- The search for the classes above a class ends by itself. -/
theorem superClasses_end {s : Store} (hs : s.Valid) (sub : Node) (c : Term) (k : Nat) :
    closure (s.superClasses sub) (s.dictionary.terms.length + 1 + k) [] [c] =
      closure (s.superClasses sub) (s.dictionary.terms.length + 1) [] [c] := by
  rw [Nat.add_right_comm, closure_succ, closure_succ]
  split_ifs with hnew
  · rfl
  · -- The class need not be stored itself, but what the first round finds is.
    have hfound : discovered (s.superClasses sub) [] [c] ⊆ s.dictionary.terms := fun u hu => by
      obtain ⟨⟨a, -, hu⟩, -⟩ := mem_discovered.mp hu
      exact superClasses_subset hs sub a hu
    refine Searching.closure_add (fun a _ => superClasses_subset hs sub a)
      ⟨nodup_append_discovered List.nodup_nil, hfound, hfound, ?_, fun a ha => .inl ha⟩ k
    have := List.length_pos_of_ne_nil hnew
    simpa using this

end Store

/-! ### Runs without errors -/

namespace Run

variable {α : Type}

/-- Whether a run comes to a result. -/
def Succeeds (r : Run α) : Prop := ∃ a, r.outcome = .ok a

theorem succeeds_iff {r : Run α} : r.Succeeds ↔ r.FailsOnly fun _ => False := by
  constructor
  · rintro ⟨a, ha⟩
    unfold FailsOnly Ends
    rw [ha]
    trivial
  · intro h
    obtain ⟨a, ha, -⟩ := GraphQuery.Ends.exists_ok h
    exact ⟨a, ha⟩

end Run

/-! ### References -/

/-- Whether a definition calls another one. -/
def Definition.Calls (finds : Nat → Iri → Nat → Option Definition) (d d' : Definition) : Prop :=
  ∃ site name count, .call site name count ∈ d.body.requests ∧ finds site name count = some d'

/-- Definitions that ask for no patterns and do not call each other in a circle. -/
structure Definition.CallsEnd (finds : Nat → Iri → Nat → Option Definition)
    (ds : List Definition) : Prop where
  plain : ∀ d ∈ ds, ∀ id, .existence id ∉ d.body.requests
  acyclic : ∀ d, ¬ Relation.TransGen (Calls finds) d d

def Provider.definitions : Provider → List Definition
  | definition d => [d]
  | table t => t.definitions

def Registry.definitions (r : Registry) : List Definition :=
  r.providers.flatMap fun p => p.2.definitions

theorem Registry.length_definitions (r : Registry) : r.definitions.length = r.size := by
  unfold definitions size
  induction r.providers with
  | nil => rfl
  | cons p ps ih =>
    obtain ⟨name, p⟩ := p
    rw [List.flatMap_cons, List.length_append, ih, List.foldr_cons]
    cases p <;> rfl

theorem mem_of_lookup {α β : Type} [BEq α] [LawfulBEq α] {l : List (α × β)} {a : α} {b : β}
    (h : l.lookup a = some b) : (a, b) ∈ l := by
  obtain ⟨l₁, l₂, hl, -⟩ := List.lookup_eq_some_iff.mp h
  simp [hl]

theorem FunctionTable.mem_of_resolve {t : FunctionTable} {name : Iri} {count : Nat}
    {d : Definition} (h : t.resolve? name count = some d) : d ∈ t.definitions := by
  obtain ⟨d', hd, h⟩ := Option.bind_eq_some_iff.mp h
  unfold Definition.accepts? at h
  split_ifs at h
  obtain rfl := Option.some.inj h
  exact List.mem_of_find?_eq_some hd

theorem Registry.mem_of_resolve {r : Registry} {name : Iri} {count : Nat} {d : Definition}
    (h : r.resolve? name count = some d) : d ∈ r.definitions := by
  obtain ⟨p, hp, h⟩ := Option.bind_eq_some_iff.mp h
  refine List.mem_flatMap.mpr ⟨_, mem_of_lookup hp, ?_⟩
  cases p with
  | table t => exact FunctionTable.mem_of_resolve h
  | definition d' =>
    simp only [Provider.resolve?, Definition.accepts?] at h
    split_ifs at h
    exact List.mem_singleton.mpr (Option.some.inj h).symm

namespace Scope

/-- All definitions that calls may find. -/
def definitions (c : Scope) : List Definition :=
  c.query.functions.definitions ++ c.registry.definitions ++ c.remembered.sites.map (·.2)

theorem mem_definitions {c : Scope} {site count : Nat} {name : Iri} {d : Definition}
    (h : c.finds site name count = some d) : d ∈ c.definitions := by
  simp only [finds, lookup, Option.or_eq_some_iff] at h
  simp only [definitions, List.mem_append, List.mem_map]
  rcases h with h | ⟨-, h | ⟨-, h⟩⟩
  · exact .inr ⟨_, mem_of_lookup h, rfl⟩
  · exact .inl (.inl (FunctionTable.mem_of_resolve h))
  · exact .inl (.inr (Registry.mem_of_resolve h))

end Scope

/-! ### Expressions -/

/-- Whether what is asked for among some requests comes to a result, where the graph in force is one
that the query declares. -/
structure Hooks.Succeed (c : Context) (A : Request → Prop) (h : Hooks) : Prop where
  solves : c.canSolve = true
  existence : ∀ {id}, A (.existence id) → ∃ p, c.query.pattern? id = some p ∧
    ∀ env, c.DeclaresGraph env → (h.hasSolution p env).Succeeds
  call : ∀ {site name count d}, A (.call site name count) → c.finds site name count = some d →
    ∀ env, c.DeclaresGraph env → (h.body d.body env).Succeeds

variable {c : Context} {A : Request → Prop} {h : Hooks} {env : Environment}

theorem Context.admitsGraph_iff : c.AdmitsGraph (fun _ => False) env ↔ c.DeclaresGraph env := by
  simp only [AdmitsGraph, DeclaresGraph, Query.Admits, or_false]

theorem Hooks.Succeed.failOnly (hh : h.Succeed c A) : h.FailOnly c (fun _ => False) A where
  existence {id} ha env hg := by
    obtain ⟨p, hp, hsolves⟩ := hh.existence ha
    obtain ⟨holds, ho⟩ := hsolves (env.restored c.query) (Context.admitsGraph_iff.mp hg)
    exact Run.succeeds_iff.mp ⟨_, by rw [Context.outcome_existence _ hh.solves hp, ho]; rfl⟩
  call ha hd env hg := by
    have hfinds := Except.ok.inj ((c.outcome_resolve _ _ _).symm.trans hd)
    exact Run.succeeds_iff.mp (hh.call ha hfinds env (Context.admitsGraph_iff.mp hg))

theorem Expr.succeeds_eval (hh : h.Succeed c A) {e : Expr} (he : ∀ r ∈ e.requests, A r)
    (hg : c.DeclaresGraph env) : (e.eval c.toScope h env).Succeeds :=
  Run.succeeds_iff.mpr (e.failsOnly_eval hh.failOnly he (Context.admitsGraph_iff.mpr hg))

/-! ### How deep references go -/

open Definition (Calls CallsEnd)
open Relation (TransGen)

/-- One more call, of a definition that is then not on the way yet. -/
theorem Definition.CallsEnd.push {finds : Nat → Iri → Nat → Option Definition}
    {all ds : List Definition} {d d' : Definition} (hc : CallsEnd finds all)
    (hnodup : (d :: ds).Nodup) (hsub : d :: ds ⊆ all)
    (hcalls : ∀ x ∈ ds, TransGen (Calls finds) x d) (hd : Calls finds d d') (hm : d' ∈ all) :
    (d' :: d :: ds).Nodup ∧ d' :: d :: ds ⊆ all ∧ ∀ x ∈ d :: ds, TransGen (Calls finds) x d' := by
  have hcalls' : ∀ x ∈ d :: ds, TransGen (Calls finds) x d' := fun x hx => by
    rcases List.mem_cons.mp hx with rfl | hx
    · exact .single hd
    · exact (hcalls x hx).tail hd
  exact ⟨hnodup.cons fun hx => hc.acyclic d' (hcalls' d' hx), List.cons_subset.mpr ⟨hm, hsub⟩,
    hcalls'⟩

namespace Context

/-- The body of a function is evaluated without an error, with a level for each definition that is
not yet being evaluated: `ds` are the definitions on the way here. -/
theorem succeeds_body (hc : CallsEnd c.finds c.definitions) (hs : c.canSolve = true) (n : Nat)
    {d : Definition} {ds : List Definition} (hnodup : (d :: ds).Nodup)
    (hsub : d :: ds ⊆ c.definitions) (hcalls : ∀ x ∈ ds, TransGen (Calls c.finds) x d)
    (hn : c.definitions.length ≤ n + (d :: ds).length) (hg : c.DeclaresGraph env) :
    (d.body.eval c.toScope (c.hooks n) env).Succeeds := by
  induction n generalizing d ds env with
  | zero =>
    refine Expr.succeeds_eval (A := (· ∈ d.body.requests)) ⟨hs, fun ha => ?_, fun ha hd => ?_⟩
      (fun _ hr => hr) hg
    · exact (hc.plain d (hsub List.mem_cons_self) _ ha).elim
    · obtain ⟨hnodup, hsub, -⟩ := hc.push hnodup hsub hcalls ⟨_, _, _, ha, hd⟩
        (c.mem_definitions hd)
      have := (hnodup.subperm hsub).length_le
      rw [List.length_cons] at this
      omega
  | succ n ih =>
    refine Expr.succeeds_eval (A := (· ∈ d.body.requests)) ⟨hs, fun ha => ?_, fun ha hd env hg => ?_⟩
      (fun _ hr => hr) hg
    · exact (hc.plain d (hsub List.mem_cons_self) _ ha).elim
    · obtain ⟨hnodup, hsub, hcalls⟩ := hc.push hnodup hsub hcalls ⟨_, _, _, ha, hd⟩
        (c.mem_definitions hd)
      refine ih hnodup hsub hcalls ?_ hg
      rw [List.length_cons]
      omega

/-- What is asked for comes to a result at some level, if there is a level for each pattern that may
be referred to, and one for each definition. -/
theorem succeed_hooks (hc : CallsEnd c.finds c.definitions) (hs : c.canSolve = true)
    (hp : ∀ k p, c.query.pattern? k = some p → ∀ id, .existence id ∈ p.requests → id < k) (k : Nat)
    (hk : k ≤ c.query.patterns.length) {n : Nat} (hn : k + c.definitions.length ≤ n) :
    (c.hooks n).Succeed c fun r => ∀ id, r = .existence id → id < k := by
  induction k using Nat.strong_induction_on generalizing n with
  | _ k ih =>
    refine ⟨hs, fun {id} ha => ?_, fun ha hd env hg => ?_⟩
    · have hid : id < k := ha id rfl
      obtain ⟨m, rfl⟩ : ∃ m, n = m + 1 := Nat.exists_eq_succ_of_ne_zero (by omega)
      obtain ⟨p, hget⟩ : ∃ p, c.query.pattern? id = some p :=
        ⟨_, List.getElem?_eq_getElem (by omega)⟩
      refine ⟨_, hget, fun env hg => ?_⟩
      have hh := ih id hid (by omega) (by omega : id + c.definitions.length ≤ m)
      have hbound : ∀ v ∈ p.mayBind, v ∈ c.query.vars := fun v hv =>
        Query.mem_vars_of_pattern hget (p.mayBind_subset_vars hv)
      have htrace := Pattern.failsOnly_trace hh.failOnly _ env
        (fun r hr i hi => hp id _ hget i (hi ▸ hr)) (fun v hv => .inl (hbound v hv))
        (admitsGraph_iff.mpr hg)
      exact Run.succeeds_iff.mpr (failsOnly_hasSolution htrace)
    · have hd := c.mem_definitions hd
      have hlength : 1 ≤ c.definitions.length := List.length_pos_of_mem hd
      obtain ⟨m, rfl⟩ : ∃ m, n = m + 1 := Nat.exists_eq_succ_of_ne_zero (by omega)
      refine succeeds_body hc hs m (List.nodup_singleton _) (by simpa using hd) (by simp) ?_ hg
      rw [List.length_singleton]
      omega

/-- A query is answered if what its expressions ask for comes to a result. -/
theorem succeeds_answer (hh : (c.hooks c.depth).Succeed c A) (hA : ∀ r ∈ c.query.requests, A r) :
    c.answer.Succeeds :=
  Run.succeeds_iff.mpr (GraphQuery.Ends.mono (ends_answer hh.failOnly hA) (fun _ he => he)
    fun _ _ => trivial)

end Context

/-! ### Lowered queries -/

namespace Processor

/-- The definition that a call finds, if the query has none of its own. -/
def finds (p : Processor) (site : Nat) (name : Iri) (count : Nat) : Option Definition :=
  (p.remembered.get? site).or (p.registry.resolve? name count)

/-- All definitions that calls may find. -/
def definitions (p : Processor) : List Definition :=
  p.registry.definitions ++ p.remembered.sites.map (·.2)

/-- A lowered query is evaluated to an answer. Each part asks for the patterns that the algebra asks
for there, all patterns that are asked for are registered, and a registered pattern asks for earlier
ones only. Definitions have to ask for no patterns and may not call each other in a circle. Walks and
the search for classes end by themselves: with more rounds they would find the same. -/
theorem evaluates_lower {a : AlgebraQuery} {site : Nat} {q : Query} (hq : a.lower site = .ok q) :
    a.pattern.layers.Numbered q.toQueryParts ∧
    (∀ id, .existence id ∈ q.requests → id < q.patterns.length) ∧
    (∀ k p, q.pattern? k = some p → ∀ id, .existence id ∈ p.requests → id < k) ∧
    ∀ p : Processor, CallsEnd p.finds p.definitions →
      (∃ s, (p.evaluate q).outcome = .ok s) ∧
      ∀ entailment history, p.source.store = .after entailment history →
        (∀ g path t k,
          closure (p.source.follow g path) (p.source.rounds + k) [t] [t] =
            p.source.follow g (.zeroOrMore path) t ∧
          closure (p.source.follow g path) (p.source.rounds + k) [] [t] =
            p.source.follow g (.oneOrMore path) t) ∧
        ∀ sub c k, let rounds := p.source.store.dictionary.terms.length + 1
          closure (p.source.store.superClasses sub) (rounds + k) [] [c] =
            closure (p.source.store.superClasses sub) rounds [] [c] := by
  have hn := AlgebraQuery.numbered_lower hq
  refine ⟨hn, fun id hid => hn.lt hid, fun k p hp id hid => hn.lt_of_pattern hp hid,
    fun p hc => ⟨?_, fun entailment history hstore => ?_⟩⟩
  · let c : Context :=
      { query := q, source := p.source, registry := p.registry, remembered := p.remembered }
    have hfunctions := AlgebraQuery.functions_of_lower hq
    have hfinds : c.finds = p.finds := by
      funext site name count
      simp only [Scope.finds, Scope.lookup, finds, c, hfunctions]
      rfl
    have hdefinitions : c.definitions = p.definitions := by
      simp only [Scope.definitions, definitions, c, hfunctions]
      rfl
    have hc : CallsEnd c.finds c.definitions := by rwa [hfinds, hdefinitions]
    have hdepth : q.patterns.length + c.definitions.length ≤ c.depth := by
      simp only [Context.depth, Scope.definitions, List.length_append, List.length_map,
        Registry.length_definitions, c]
      omega
    exact Context.succeeds_answer (Context.succeed_hooks hc rfl
      (fun k p hp id hid => hn.lt_of_pattern hp hid) _ le_rfl hdepth)
      fun r hr id hid => hn.lt (hid ▸ hr)
  · have hs : p.source.store.Valid := hstore ▸ (Store.contains_after entailment history).valid
    exact ⟨fun g path t k => Source.follow_ends hs g path t k,
      fun sub c k => Store.superClasses_end hs sub c k⟩

/-- A pattern is asked for inside of a pattern that is asked for, and a registered function calls
another one. -/
theorem evaluates_lower_of_nested :
    let g : Definition := ⟨⟨"g"⟩, [], .const (.iri ⟨"a"⟩)⟩
    let f : Definition := ⟨⟨"f"⟩, [], .extension 0 ⟨"g"⟩ []⟩
    let inner : Algebra := .filter (.existence .empty) .empty
    let a : AlgebraQuery :=
      { form := .select
        pattern := .extend (.filter (.existence inner) .empty) ⟨"x"⟩ (.call (.custom ⟨"f"⟩) []) }
    let p : Processor :=
      { source := { store := {} }, registry := (Registry.define {} f).define g, firstSite := 1 }
    ∃ q, a.lower p.firstSite = .ok q ∧ CallsEnd p.finds p.definitions ∧
      q.requests = [.existence 1, .call 1 ⟨"f"⟩ 0] ∧
      q.patterns.map Pattern.requests = [[], [.existence 0]] ∧
      ∃ s, (p.evaluate q).outcome = .ok s ∧ s.rows.map (·.slots) = [[some (.iri ⟨"a"⟩)]] := by
  intro g f inner a p
  obtain ⟨q, hq⟩ : ∃ q, a.lower p.firstSite = .ok q := ⟨_, rfl⟩
  have hf : ∀ d, Calls p.finds f d → d = g := by
    rintro d ⟨site, name, count, hm, hd⟩
    cases List.mem_singleton.mp hm
    exact (Option.some.inj hd).symm
  have hg : ∀ d, ¬ Calls p.finds g d := by
    rintro d ⟨site, name, count, hm, -⟩
    cases hm
  have hc : CallsEnd p.finds p.definitions := by
    have hmem : ∀ d ∈ p.definitions, d = g ∨ d = f := fun d hd => by
      simpa [definitions, Registry.definitions, Registry.define, Registry.register,
        Provider.definitions, p] using hd
    refine ⟨fun d hd id hm => ?_, fun d hd => ?_⟩
    · rcases hmem d hd with rfl | rfl
      · cases hm
      · cases List.mem_singleton.mp hm
    · obtain ⟨e, -, site, name, count, -, he⟩ := TransGen.tail'_iff.mp hd
      obtain ⟨e', he', hback⟩ := TransGen.head'_iff.mp hd
      rcases hmem d (List.mem_append_left _ (Registry.mem_of_resolve he)) with rfl | rfl
      · exact hg _ he'
      · obtain rfl := hf _ he'
        rcases Relation.ReflTransGen.cases_head hback with heq | ⟨x, hx, -⟩
        · exact absurd (congrArg (fun d : Definition => d.name.text) heq) (by decide)
        · exact hg _ hx
  obtain ⟨-, -, -, hanswers⟩ := evaluates_lower hq
  obtain ⟨⟨s, hs⟩, -⟩ := hanswers p hc
  have hrows : ((a.lower p.firstSite).toOption.bind fun q => (p.evaluate q).outcome.toOption).map
      (fun s => s.rows.map (·.slots)) = some [[some (.iri ⟨"a"⟩)]] := by decide +kernel
  rw [hq] at hrows
  refine ⟨q, hq, hc, ?_, ?_, s, hs, ?_⟩
  · obtain rfl := Except.ok.inj hq
    rfl
  · obtain rfl := Except.ok.inj hq
    rfl
  · simpa [Except.toOption, hs] using hrows

end Processor

end GraphQuery
