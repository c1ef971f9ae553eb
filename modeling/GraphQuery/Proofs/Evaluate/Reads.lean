import GraphQuery.Proofs.Evaluate.Columns
import GraphQuery.Proofs.Evaluate.Comparison
import GraphQuery.Proofs.Evaluate.Procedure

/-! What expressions read. An expression reads the variables that it mentions, those of the patterns
whose existence it comes to ask for, and those of the functions that it comes to call, apart from
their parameters. What other variables are bound to makes no difference to it. -/

namespace GraphQuery

/-! ### Environments -/

namespace Environment

/-- Whether two environments give each variable but some the same value, on whatever ways, and none
of these names the graph in force. -/
structure AgreeBut (q : Query) (X : Variable → Prop) (a b : Environment) : Prop where
  binding : ∀ v, ¬ X v → a.binding? q v = b.binding? q v
  locals : a.locals = b.locals
  graph : a.graph = b.graph
  group : a.group = b.group
  graphs : ∀ n, a.graph = some n → ∀ v ∈ n.vars, ¬ X v

variable {q : Query} {X : Variable → Prop} {a b : Environment} {v : Variable}

theorem SameBut.agreeBut (h : SameBut q X a b) : AgreeBut q X a b :=
  ⟨fun _ hv => h.binding_eq hv, h.locals, h.graph, h.group, h.graphs⟩

namespace AgreeBut

theorem get_eq (h : AgreeBut q X a b) (hv : ¬ X v) : a.get? q v = b.get? q v := by
  rw [get?, get?, h.locals, h.binding v hv]

/-- What a pattern is asked for in has a slot for each variable. -/
theorem restored (h : AgreeBut q X a b) : SameBut q X (a.restored q) (b.restored q) where
  slots i hi := by
    rw [bindings_eq (a.length_restored q), bindings_eq (b.length_restored q), List.getElem?_map,
      List.getElem?_map]
    cases hv : q.vars[i]? with
    | none => rfl
    | some v =>
      rw [Option.map_some, Option.map_some, a.binding_restored, b.binding_restored,
        h.binding v (hi v (Query.slot_eq_some.mpr hv))]
  locals := h.locals
  graph := h.graph
  group := rfl
  graphs := h.graphs

/-- Inside of a function that binds its parameters. -/
theorem withLocals (h : AgreeBut q X a b) (l : Locals) :
    AgreeBut q X { a with locals := l } { b with locals := l } :=
  ⟨h.binding, rfl, h.graph, h.group, h.graphs⟩

end AgreeBut

/-- Parameters have the values of their arguments. -/
theorem exists_get_parameter {parameters : List Variable} {args : List Term}
    (hl : parameters.length = args.length) (hv : v ∈ parameters) (l : Locals) :
    ∃ t, Locals.get? ((parameters.zip args).foldl (fun l (v, t) => l.push v t.canonical) l) v =
      some t := by
  have hlocals : l ++ parameters.zip (args.map Term.canonical) =
      (parameters.zip args).foldl (fun l (v, t) => l.push v t.canonical) l := by
    have henter := enter_parameters { bindings := [], locals := l } parameters args
    rw [enter_eq] at henter
    exact congrArg Environment.locals henter
  rw [← hlocals]
  have hmem : v ∈ (parameters.zip (args.map Term.canonical)).map (·.1) := by
    rwa [List.map_fst_zip (by rw [List.length_map, hl])]
  cases ht : Locals.get? (parameters.zip (args.map Term.canonical)) v with
  | none => exact absurd hmem (Locals.get_eq_none.mp ht)
  | some t => exact ⟨t, by rw [Locals.get_append, ht, Option.some_or]⟩

end Environment

open Environment

/-! ### Requests that do not lead to some variables -/

/-- Whether requests lead to nothing that reads some variables: the patterns do not mention them, and
functions mention none but their own parameters. -/
structure Scope.Blind (c : Scope) (X : Variable → Prop) (A : Request → Prop) : Prop where
  snapshot : ∀ target, ¬ A (.snapshot target)
  existence : ∀ {id p}, A (.existence id) → c.query.pattern? id = some p →
    (∀ v ∈ p.vars, ¬ X v) ∧ ∀ r ∈ p.requests, A r
  call : ∀ {site name count d}, A (.call site name count) → c.finds site name count = some d →
    (∀ v ∈ d.body.vars, v ∈ d.parameters ∨ ¬ X v) ∧ ∀ r ∈ d.body.requests, A r

theorem Scope.Blind.mono {c : Scope} {X Y : Variable → Prop} {A : Request → Prop}
    (h : c.Blind X A) (hY : ∀ v, Y v → X v) : c.Blind Y A where
  snapshot := h.snapshot
  existence ha hp := (h.existence ha hp).imp_left fun hv v hm hy => hv v hm (hY v hy)
  call ha hd := (h.call ha hd).imp_left fun hv v hm => (hv v hm).imp_right fun hx hy => hx (hY v hy)

/-- Whether what is asked for is answered alike wherever all variables but some have the same
values. -/
structure Hooks.Blind (c : Scope) (X : Variable → Prop) (A : Request → Prop) (h : Hooks) : Prop where
  hasSolution : ∀ {p a b}, (∀ v ∈ p.vars, ¬ X v) → (∀ r ∈ p.requests, A r) →
    SameBut c.query X a b → h.hasSolution p a = h.hasSolution p b
  body : ∀ {e a b}, (∀ v ∈ e.vars, a.get? c.query v = b.get? c.query v) →
    (∀ r ∈ e.requests, A r) → AgreeBut c.query X a b → h.body e a = h.body e b

section

variable {X : Variable → Prop} {A : Request → Prop} {a b : Environment} {e : Expr}

theorem Scope.Blind.simulates {c : Scope} {h : Hooks} (hA : c.Blind X A) (hh : h.Blind c X A) :
    c.Simulates (fun _ => Eq) (fun l a b => l = [] ∧ AgreeBut c.query X a b) A c h h where
  congruence := Run.congruence_eq
  vars := rfl
  choose i hR := ⟨hR.1, hR.2.binding, hR.2.locals, hR.2.graph, hR.2.group, hR.2.graphs⟩
  setLocal v t _ hR := by
    obtain ⟨rfl, hR⟩ := hR
    exact ⟨rfl, hR.binding, congrArg (Locals.push · v t) hR.locals, hR.graph, hR.group, hR.graphs⟩
  enclosed hR := by
    obtain ⟨rfl, hR⟩ := hR
    exact ⟨⟨rfl, hR⟩, rfl, hR⟩
  solution i _ _ _ := ⟨rfl, fun _ _ => rfl, rfl, rfl, rfl, fun _ hn => by cases hn⟩
  existence {a b id} hid hR := by
    unfold Scope.exists?
    cases hp : c.query.pattern? id with
    | none => rfl
    | some p =>
      obtain ⟨hv, hr⟩ := hA.existence hid hp
      dsimp only
      rw [← Environment.restored, ← Environment.restored, hh.hasSolution hv hr hR.2.restored]
  call {a b site name ts} hc hR := by
    unfold Scope.call
    refine Run.bind_congr_of_ok fun r hr => ?_
    cases r with
    | none => rfl
    | some d =>
      obtain ⟨hv, hd⟩ := hA.call hc (Except.ok.inj ((c.outcome_resolve _ _ _).symm.trans hr))
      dsimp only
      split_ifs with harity
      · rfl
      · rw [← hR.2.locals]
        have hlocals := hR.2.withLocals
          ((d.parameters.zip ts).foldl (fun l (v, t) => l.push v t.canonical) a.locals)
        refine hh.body (fun v hm => ?_) hd hlocals
        rcases hv v hm with hparameter | hx
        · obtain ⟨t, ht⟩ := exists_get_parameter (not_not.mp harity) hparameter a.locals
          rw [get?, get?, ht, Option.some_or, Option.some_or]
        · exact hlocals.get_eq hx
  snapshot hs := absurd hs (hA.snapshot _)

theorem Scope.Blind.eval {c : Scope} {h : Hooks} (hA : c.Blind X A) (hh : h.Blind c X A)
    (hv : ∀ v ∈ e.vars, a.get? c.query v = b.get? c.query v) (hr : ∀ r ∈ e.requests, A r)
    (hR : AgreeBut c.query X a b) : e.eval c h a = e.eval c h b := by
  have hsame := e.eval_related (hA.simulates hh) [] a b
    ⟨⟨fun v hm => hv v hm, fun _ => hR.group⟩, hr, fun _ => ⟨rfl, hR⟩⟩
  rwa [e.substitute_nil] at hsame

namespace Context

variable {c : Context}

/-- However deep the references go. -/
theorem blind_hooks (hA : c.toScope.Blind X A) (depth : Nat) : (c.hooks depth).Blind c.toScope X A := by
  induction depth generalizing X with
  | zero => exact ⟨fun _ _ _ => rfl, fun _ _ _ => rfl⟩
  | succ depth ih =>
    refine ⟨fun {p a b} hv hr hab => ?_, fun hv hr hab => hA.eval (ih hA) hv hr hab⟩
    have hdone : ∀ a b, SameBut c.query X a b → ∀ found : Bool,
        (pure (.done true) : Run (ForInStep Bool)) = pure (.done true) := fun _ _ _ _ => rfl
    rw [hasSolution_eq, hasSolution_eq, p.solvedAlike_sameBut (fun Y hY e hv hr a b hab => ?_) hv hr _ _
      hab hdone]
    exact (hA.mono hY).eval (ih (hA.mono hY)) (fun v hm => hab.get_eq (hv v hm)) hr hab.agreeBut

end Context

end

/-! ### Reading -/

/-- Whether an expression may come to read a variable. -/
inductive Scope.Reads (c : Scope) (e : Expr) (v : Variable) : Prop
  | mention (hv : v ∈ e.vars)
  | pattern {id : Nat} {p : Pattern} (h : c.Reaches e.requests (.existence id))
    (hp : c.query.pattern? id = some p) (hv : v ∈ p.vars)
  | body {site count : Nat} {name : Iri} {d : Definition}
    (h : c.Reaches e.requests (.call site name count)) (hd : c.finds site name count = some d)
    (hv : v ∈ d.body.vars) (hn : v ∉ d.parameters)

namespace Context

variable {c : Context} {e : Expr} {a b : Environment}

/-- An expression has the same run wherever what it reads has the same values, unless it comes to ask
for a snapshot. -/
theorem evaluate_of_reads (hsystem : ∀ target, ¬ c.Reaches e.requests (.snapshot target))
    (h : AgreeBut c.query (fun v => ¬ c.Reads e v) a b) : c.evaluate e a = c.evaluate e b := by
  have hA : c.toScope.Blind (fun v => ¬ c.Reads e v) (c.Reaches e.requests) := by
    refine ⟨hsystem, fun ha hp => ⟨fun v hv hn => hn (.pattern ha hp hv), fun r hr =>
      .existence ha hp hr⟩, fun {site name count d} ha hd => ⟨fun v hv => ?_, fun r hr =>
        .call ha hd hr⟩⟩
    by_cases hparameter : v ∈ d.parameters
    · exact .inl hparameter
    · exact .inr fun hn => hn (.body ha hd hv hparameter)
  exact hA.eval (blind_hooks hA c.depth) (fun v hv => h.get_eq fun hn => hn (.mention hv))
    (fun r hr => .start hr) h

/-- In a row, an expression has the same run as in any other one with the same values for what it
reads. -/
theorem evaluate_row (hsystem : ∀ target, ¬ c.Reaches e.requests (.snapshot target))
    {s s' : Solution} (h : ∀ v, c.Reads e v → c.query.read v s = c.query.read v s')
    (stage stage' : Stage) (row row' i i' : Nat) :
    c.evaluate e (rowEnvironment stage row i s none) =
      c.evaluate e (rowEnvironment stage' row' i' s' none) :=
  evaluate_of_reads hsystem
    ⟨fun v hv => h v (not_not.mp hv), rfl, rfl, rfl, fun _ hn => by cases hn⟩

end Context

end GraphQuery
