import GraphQuery.Proofs.Evaluate.Remembering

/-! Evaluations one after the other. Call sites remember the definitions that they have found, also
those in the bodies of functions that several queries share. An evaluation has the result that it has
on its own if its tables have, for the call sites that it may come to, what earlier evaluations have
found there. -/

namespace GraphQuery

namespace Remembered

theorem get_remember {r : Remembered} {site site' : Nat} {d d' : Definition}
    (h : (r.remember site d).get? site' = some d') :
    r.get? site' = some d' ∨ site' = site ∧ d' = d := by
  unfold remember at h
  split_ifs at h
  · exact .inl h
  · rw [get?, List.lookup_cons] at h
    by_cases hs : site' = site
    · subst hs
      rw [beq_self_eq_true] at h
      exact .inr ⟨rfl, (Option.some.inj h).symm⟩
    · rw [beq_false_of_ne hs] at h
      exact .inl h

/-- What a site remembers was remembered before, or found in the meantime. -/
theorem get_addEvents {r : Remembered} {es : List Event} {site : Nat} {d : Definition}
    (h : (r.addEvents es).get? site = some d) : r.get? site = some d ∨ .resolved site d ∈ es := by
  induction es generalizing r with
  | nil => exact .inl h
  | cons e es ih =>
    rcases ih h with he | hm
    · cases e with
      | existence pattern holds => exact .inl he
      | resolved site' d' =>
        rcases get_remember he with he | ⟨rfl, rfl⟩
        · exact .inl he
        · exact .inr List.mem_cons_self
    · exact .inr (List.mem_cons_of_mem _ hm)

end Remembered

/-! ### What call sites find -/

namespace Scope

variable {c : Scope} {site count : Nat} {name : Iri} {d : Definition}

/-- The definition for a call: one of the query, or a registered one. -/
def lookup (c : Scope) (name : Iri) (count : Nat) : Option Definition :=
  (c.query.functions.resolve? name count).or (c.registry.resolve? name count)

/-- Whether an evaluation may come to ask for something, on its way through the patterns and the
functions that it refers to. -/
inductive Asks (c : Scope) : Request → Prop
  | query {a : Request} (ha : a ∈ c.query.requests) : Asks c a
  | existence {id : Nat} {p : Pattern} {a : Request} (h : Asks c (.existence id))
    (hp : c.query.pattern? id = some p) (ha : a ∈ p.requests) : Asks c a
  | call {site count : Nat} {name : Iri} {d : Definition} {a : Request}
    (h : Asks c (.call site name count)) (hd : c.lookup name count = some d)
    (ha : a ∈ d.body.requests) : Asks c a

/-- Whether a call site that an evaluation may come to finds a definition. -/
def Finds (c : Scope) (site : Nat) (d : Definition) : Prop :=
  ∃ name count, c.Asks (.call site name count) ∧ c.lookup name count = some d

/-- Whether a definition is the one for each call from a site that an evaluation may come to. -/
def Accepts (c : Scope) (site : Nat) (d : Definition) : Prop :=
  ∀ name count, c.Asks (.call site name count) → c.lookup name count = some d

/-- Whether the definitions that are remembered are those for the calls that an evaluation may come to. -/
def Trusts (c : Scope) (r : Remembered) : Prop :=
  ∀ site d, r.get? site = some d → c.Accepts site d

/-- The definition that a call finds. -/
def finds (c : Scope) (site : Nat) (name : Iri) (count : Nat) : Option Definition :=
  (c.remembered.get? site).or (c.lookup name count)

theorem outcome_resolve (c : Scope) (site : Nat) (name : Iri) (count : Nat) :
    (c.resolve site name count).outcome = .ok (c.finds site name count) := by
  rw [resolve, finds, lookup]
  cases c.remembered.get? site with
  | some d => rfl
  | none =>
    cases (c.query.functions.resolve? name count).or (c.registry.resolve? name count) with
    | none => rfl
    | some d => rfl

/-- A call finds something for its own site only. -/
theorem finds_of_mem_resolve {site' : Nat}
    (h : .resolved site' d ∈ (c.resolve site name count).events) :
    site' = site ∧ c.finds site name count = some d := by
  rw [resolve] at h
  rw [finds, lookup]
  cases hs : c.remembered.get? site with
  | some d' =>
    rw [hs] at h
    cases h
  | none =>
    rw [hs] at h
    cases hd : (c.query.functions.resolve? name count).or (c.registry.resolve? name count) with
    | none =>
      rw [hd] at h
      cases h
    | some d' =>
      rw [hd] at h
      obtain ⟨rfl, rfl⟩ : site' = site ∧ d = d' := by simpa [Run.emit] using List.mem_singleton.mp h
      exact ⟨rfl, rfl⟩

/-- Whether requests lead to no others, through the patterns and the definitions that are found. -/
structure Closed (c : Scope) (A : Request → Prop) : Prop where
  existence : ∀ {id p}, A (.existence id) → c.query.pattern? id = some p →
    ∀ a ∈ p.requests, A a
  call : ∀ {site name count d}, A (.call site name count) → c.finds site name count = some d →
    ∀ a ∈ d.body.requests, A a

/-- Whether a call among some requests finds a definition at a site. -/
def FindsAmong (c : Scope) (A : Request → Prop) (site : Nat) (d : Definition) : Prop :=
  ∃ name count, A (.call site name count) ∧ c.finds site name count = some d

end Scope

/-! ### Runs -/

/-- Whether a run has the result of another one, unless that one does not come to an end, and its
call sites find what they may. -/
structure Run.Repeats (F : Nat → Definition → Prop) {α : Type} (run run' : Run α) : Prop where
  found : ∀ site d, .resolved site d ∈ run.events → F site d
  outcome : run'.outcome = .error .tooDeep ∨ run.outcome = run'.outcome

namespace Run

variable {F : Nat → Definition → Prop} {α β : Type}

theorem mem_events_bind {run : Run α} {f : α → Run β} {e : Event} (h : e ∈ (run >>= f).events) :
    e ∈ run.events ∨ ∃ a, run.outcome = .ok a ∧ e ∈ (f a).events := by
  change e ∈ (andThen run f).events at h
  unfold andThen at h
  cases ho : run.outcome with
  | error err =>
    rw [ho] at h
    exact .inl h
  | ok a =>
    rw [ho] at h
    exact (List.mem_append.mp h).imp_right fun h => ⟨a, rfl, h⟩

theorem repeats_ofExcept (x : Except QueryError α) : Repeats F (ofExcept x) (ofExcept x) :=
  ⟨fun _ _ h => (by cases h), .inr rfl⟩

theorem congruence_repeats : Congruence fun _ => Repeats F where
  pure a := repeats_ofExcept (.ok a)
  bind {_ _ run run' f f'} h hf := by
    refine ⟨fun site d hm => ?_, ?_⟩
    · rcases mem_events_bind hm with hm | ⟨a, ho, hm⟩
      · exact h.found site d hm
      · exact (hf a ho).found site d hm
    · rw [outcome_bind, outcome_bind]
      rcases h.outcome with ht | ho
      · rw [ht]
        exact .inl rfl
      · rw [← ho]
        cases hr : run.outcome with
        | error e => exact .inr rfl
        | ok a => exact (hf a hr).outcome

theorem repeats_existence (id : Nat) (holds : Bool) :
    Repeats F (emit (.existence id holds)) (emit (.existence id holds)) :=
  ⟨fun _ _ h => by simp [emit] at h, .inr rfl⟩

end Run

/-- Whether what expressions refer to has the same results. -/
structure Hooks.Repeats (A : Request → Prop) (F : Nat → Definition → Prop) (h h' : Hooks) :
    Prop where
  body : ∀ (e : Expr) (env : Environment), (∀ a ∈ e.requests, A a) →
    Run.Repeats F (h.body e env) (h'.body e env)
  hasSolution : ∀ (p : Pattern) (env : Environment), (∀ a ∈ p.requests, A a) →
    Run.Repeats F (h.hasSolution p env) (h'.hasSolution p env)

theorem Scope.repeats_existence {F : Nat → Definition → Prop} {c c' : Scope} {h h' : Hooks}
    {id : Nat} {env : Environment} (hq : c'.query = c.query) (hs : c'.canSolve = c.canSolve)
    (hh : ∀ p, c.query.pattern? id = some p → ∀ m,
      Run.Repeats F (h.hasSolution p m) (h'.hasSolution p m)) :
    Run.Repeats F (c.exists? h id env) (c'.exists? h' id env) := by
  unfold exists?
  rw [hq, hs]
  cases hp : c.query.pattern? id with
  | none => exact Run.repeats_ofExcept (.error _)
  | some p =>
    dsimp only
    split_ifs
    · refine Run.congruence_repeats.bind (hh p hp _) fun holds _ => ?_
      exact Run.congruence_repeats.bind (Run.repeats_existence id holds) fun _ _ =>
        Run.repeats_ofExcept (.ok _)
    · exact Run.repeats_ofExcept (.error _)

namespace Context

section

variable {c : Context} {r : Remembered} {A : Request → Prop} {h h' : Hooks}
  (hA : c.Closed A) (hr : ∀ {site name count}, A (.call site name count) →
    (c.remembering r).finds site name count = c.finds site name count)

include hA hr

theorem simulates_remembering (hh : h.Repeats A (c.FindsAmong A) h') :
    Scope.Simulates (fun _ => Run.Repeats (c.FindsAmong A)) (fun l a b => l = [] ∧ a = b) A
      (c.remembering r).toScope c.toScope h h' where
  congruence := Run.congruence_repeats
  vars := rfl
  choose i h := ⟨h.1, by rw [h.2]⟩
  setLocal v t _ h := ⟨by rw [h.1]; rfl, by rw [h.2]⟩
  enclosed h := by
    obtain ⟨rfl, rfl⟩ := h
    exact ⟨⟨rfl, rfl⟩, ⟨rfl, rfl⟩⟩
  solution i h _ _ := ⟨rfl, by rw [h.2]⟩
  existence {a b id} ha h := by
    obtain ⟨-, rfl⟩ := h
    exact Scope.repeats_existence rfl rfl fun p hp m => hh.hasSolution p m (hA.existence ha hp)
  call {a b site name ts} ha h := by
    obtain ⟨-, rfl⟩ := h
    have hres : Run.Repeats (c.FindsAmong A) ((c.remembering r).resolve site name ts.length)
        (c.resolve site name ts.length) := by
      refine ⟨fun site' d hm => ?_, .inr ?_⟩
      · obtain ⟨rfl, hd⟩ := Scope.finds_of_mem_resolve hm
        exact ⟨name, ts.length, ha, (hr ha).symm.trans hd⟩
      · rw [Scope.outcome_resolve, Scope.outcome_resolve, hr ha]
    refine Run.congruence_repeats.bind hres fun d hd => ?_
    rw [Scope.outcome_resolve, hr ha] at hd
    cases d with
    | none => exact Run.repeats_ofExcept (.ok none)
    | some d =>
      dsimp only
      split_ifs
      · exact Run.repeats_ofExcept (.ok none)
      · exact hh.body _ _ (hA.call ha (Except.ok.inj hd))
  snapshot _ h := by
    rw [h.2]
    rfl

theorem follows_remembering (hh : h.Repeats A (c.FindsAmong A) h') :
    Follows (fun _ => Run.Repeats (c.FindsAmong A)) A c r h h' where
  congruence := Run.congruence_repeats
  ofExcept := Run.repeats_ofExcept
  eval e env he := by
    have hs := e.eval_related (simulates_remembering hA hr hh) [] env env
      ⟨⟨fun _ _ => rfl, fun _ => rfl⟩, he, fun _ => ⟨rfl, rfl⟩⟩
    rwa [e.substitute_nil] at hs

/-- However deep the references go, if they go as deep without what sites remember. -/
theorem repeats_hooks {d d' : Nat} (hd : d' ≤ d) :
    ((c.remembering r).hooks d).Repeats A (c.FindsAmong A) (c.hooks d') := by
  induction d generalizing d' with
  | zero =>
    obtain rfl := Nat.le_zero.mp hd
    exact ⟨fun _ _ _ => Run.repeats_ofExcept (.error _), fun _ _ _ => Run.repeats_ofExcept (.error _)⟩
  | succ d ih =>
    have hstep : ∀ d' ≤ d, ((c.remembering r).hooks (d + 1)).Repeats A (c.FindsAmong A)
        (c.hooks (d' + 1)) := fun d' hd =>
      ⟨fun e env he => (follows_remembering hA hr (ih hd)).eval e env he,
        fun p env hp => hasSolution_related (follows_remembering hA hr (ih hd)) hp env⟩
    cases d' with
    | succ d' => exact hstep d' (Nat.le_of_succ_le_succ hd)
    | zero =>
      -- The other evaluation does not come to an end here, but call sites find what they may.
      have hsame := hstep d le_rfl
      exact ⟨fun e env he => ⟨(hsame.body e env he).found, .inl rfl⟩,
        fun p env hp => ⟨(hsame.hasSolution p env hp).found, .inl rfl⟩⟩

/-- If calls find the same, an evaluation whose call sites remember no less has the results that it
has without that. -/
theorem repeats_whole (hsites : c.remembered.sites.length ≤ r.sites.length) :
    Follows.Whole (fun _ => Run.Repeats (c.FindsAmong A)) A c r :=
  follows_remembering hA hr (repeats_hooks hA hr (Nat.add_le_add_left hsites _))

end

variable {c : Context} {r : Remembered}

/-- The evaluation on its own, where no call site remembers anything. -/
def alone (c : Context) : Context := c.remembering {}

theorem closed_asks (c : Context) : c.alone.Closed c.Asks :=
  ⟨fun ha hp _ hm => .existence ha hp hm, fun ha hd _ hm => .call ha hd hm⟩

theorem finds_of_trusts (hr : c.Trusts r) {site count : Nat} {name : Iri}
    (ha : c.Asks (.call site name count)) :
    (c.alone.remembering r).finds site name count = c.alone.finds site name count := by
  change (r.get? site).or (c.lookup name count) = c.lookup name count
  cases hs : r.get? site with
  | none => rw [Option.none_or]
  | some d => rw [Option.some_or, hr site d hs name count ha]

/-- If call sites remember nothing but what the tables have for them, an evaluation has the result
that it has on its own, and its call sites find what the tables have for them. -/
theorem repeats_answer (hr : c.Trusts r) :
    Run.Repeats c.Finds (c.remembering r).answer c.alone.answer :=
  answer_related (repeats_whole (closed_asks c) (finds_of_trusts hr) (Nat.zero_le _))
    fun _ ha => .query ha

/-- What its call sites have found on the way does not matter for an evaluation, if each call site has
one call. -/
theorem outcome_found (hc : ∀ site d, c.Finds site d → c.Accepts site d) {es : List Event}
    (hes : ∀ e ∈ es, e ∈ c.alone.answer.events) : c.alone.answer.outcome = .error .tooDeep ∨
      (c.remembering (Remembered.addEvents {} es)).answer.outcome = c.alone.answer.outcome := by
  have halone : Run.Repeats c.Finds c.alone.answer c.alone.answer :=
    repeats_answer fun _ _ h => by cases h
  refine (repeats_answer fun site d hd => ?_).outcome
  rcases Remembered.get_addEvents hd with hd | hd
  · cases hd
  · exact hc site d (halone.found site d (hes _ hd))

/-! ### Evaluations one after the other -/

/-- The runs of evaluations one after the other. -/
def runs : Remembered → List Context → List (Run Solutions)
  | _, [] => []
  | r, c :: cs =>
    let run := (c.remembering r).answer
    run :: runs (r.addEvents run.events) cs

/-- Whether evaluations one after the other have the results that they have on their own, as far as
these come to an end. -/
def Isolated (cs : List Context) : Prop :=
  List.Forall₂ (fun run c => c.alone.answer.outcome = .error .tooDeep ∨
    run.outcome = c.alone.answer.outcome) (runs {} cs) cs

/-- Evaluations one after the other have the results that they have on their own, if the tables of
each one have, for each call site that it may come to, what the tables of those before have there. -/
theorem isolated (cs : List Context)
    (hcs : cs.Pairwise fun c c' => ∀ site d, c.Finds site d → c'.Accepts site d) :
    Isolated cs := by
  have hruns : ∀ r, (∀ c ∈ cs, c.Trusts r) →
      List.Forall₂ (fun run c => c.alone.answer.outcome = .error .tooDeep ∨
        run.outcome = c.alone.answer.outcome) (runs r cs) cs := by
    induction cs with
    | nil => exact fun _ _ => .nil
    | cons c cs ih =>
      intro r hr
      obtain ⟨hc, hcs⟩ := List.pairwise_cons.mp hcs
      obtain ⟨hr, hrs⟩ := List.forall_mem_cons.mp hr
      have hrun := repeats_answer hr
      refine .cons hrun.outcome (ih hcs _ fun c' hm site d hd => ?_)
      rcases Remembered.get_addEvents hd with hd | hd
      · exact hrs c' hm site d hd
      · exact hc c' hm site d (hrun.found site d hd)
  exact hruns {} fun _ _ _ _ h => by cases h

/-- Two queries that call a registered function, which calls another registered one. -/
theorem isolated_of_registered :
    let g : Definition := ⟨⟨"g"⟩, [], .const (.iri ⟨"a"⟩)⟩
    let f : Definition := ⟨⟨"f"⟩, [], .extension 0 ⟨"g"⟩ []⟩
    let call (site : Nat) : Context :=
      { query := .ofParts { select := [⟨⟨"x"⟩, .extension site ⟨"f"⟩ []⟩] },
        registry := (Registry.define {} f).define g, source := { store := {} } }
    Isolated [call 1, call 2] ∧
      ((runs {} [call 1, call 2]).map fun run => run.outcome.toOption.map (·.rows.map (·.slots))) =
        [some [[some (.iri ⟨"a"⟩)]], some [[some (.iri ⟨"a"⟩)]]] := by
  intro g f call
  have hasks : ∀ {site a}, (call site).Asks a → a = .call site ⟨"f"⟩ 0 ∨ a = .call 0 ⟨"g"⟩ 0 := by
    intro site a ha
    induction ha with
    | query ha => exact .inl (List.mem_singleton.mp ha)
    | existence _ _ _ ih => rcases ih with h | h <;> cases h
    | call _ hd ha ih =>
      rcases ih with h | h <;> cases h
      · obtain rfl : f = _ := Option.some.inj hd
        exact .inr (List.mem_singleton.mp ha)
      · obtain rfl : g = _ := Option.some.inj hd
        cases ha
  refine ⟨isolated _ (List.pairwise_pair.mpr ?_), by decide +kernel⟩
  rintro site d ⟨name, count, ha, hd⟩ name' count' ha'
  rcases hasks ha with h | h <;> rcases hasks ha' with h' | h' <;> cases h <;> cases h'
  exact hd

/-- A registered function calls another one that only the first of two queries defines. In the
second query, the call site in the body still remembers that one. -/
theorem not_isolated :
    let g : Definition := ⟨⟨"g"⟩, [], .const (.iri ⟨"a"⟩)⟩
    let f : Definition := ⟨⟨"f"⟩, [], .extension 0 ⟨"g"⟩ []⟩
    let call (site : Nat) (functions : FunctionTable) : Context :=
      { query := .ofParts { select := [⟨⟨"x"⟩, .extension site ⟨"f"⟩ []⟩], functions },
        registry := Registry.define {} f, source := { store := {} } }
    ¬ Isolated [call 1 (.ofList [g]), call 2 {}] := by
  intro g f call h
  obtain ⟨-, h⟩ := List.forall₂_cons.mp h
  obtain ⟨h, -⟩ := List.forall₂_cons.mp h
  have hbefore : ((runs {} [call 1 (.ofList [g]), call 2 {}])[1]?.map
      (·.outcome.toOption.map (·.rows.map (·.slots)))) = some (some [[some (.iri ⟨"a"⟩)]]) := by
    decide +kernel
  have halone : (call 2 {}).alone.answer.outcome.toOption.map (·.rows.map (·.slots)) =
      some [[none]] := by
    decide +kernel
  rcases h with ht | he
  · rw [ht] at halone
    cases halone
  · rw [← he] at halone
    cases (Option.some.inj hbefore).symm.trans halone

end Context

end GraphQuery
