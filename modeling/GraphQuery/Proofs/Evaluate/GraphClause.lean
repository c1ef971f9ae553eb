import GraphQuery.Evaluate.Engine
import GraphQuery.Proofs.Evaluate.Alike
import GraphQuery.Proofs.Evaluate.Coincidence
import GraphQuery.Proofs.Store.Contents

/-! The graph in force behind a graph clause. What follows the clause is solved in the graph that
its inner pattern leaves in force, so it is solved as in the enclosing graph exactly if the change
of graph makes no difference to it. -/

namespace GraphQuery

namespace Context

/-- Whether a step does the same whatever graph is in force. -/
def Blind {σ : Type} (next : Next σ) : Prop := 
  ∀ (env : Environment) g s, next (env.under g) s = next env s

end Context

namespace Pattern

open Context (Blind)

/-- Whether a pattern has the same solutions in two graphs. -/
def AgreesUnder (c : Context) (h : Hooks) (p : Pattern) (g g' : Option NodePattern) : Prop :=
  ∀ (σ : Type) (next : Context.Next σ), Blind next → ∀ (env : Environment) s,
    p.solve c h (env.under g) next s = p.solve c h (env.under g') next s

/-- Whether patterns behind a graph clause are solved, for each solution of the clause, in the
graph that was in force before it. -/
def ScopesTo (c : Context) (h : Hooks) (name : NodePattern) (inner : Pattern)
    (rest : List Pattern) (env : Environment) : Prop :=
  ∀ (σ : Type) (next : Context.Next σ), Blind next → ∀ s,
    (sequence (graph name inner :: rest)).solve c h env next s =
      (graph name inner).solve c h env
        (fun e s => (sequence rest).solve c h (e.under env.graph) next s) s

/-- Whether a pattern can be solved without looking at the graph in force. -/
def ignoresGraph : Pattern → Bool
  | edge _ | path _ => false
  | filter e | bind _ e => e.isPure
  | values _ _ | graph _ _ => true
  | sequence items => listIgnoreGraph items
  | optional left right condition =>
    left.ignoresGraph && right.ignoresGraph && Expr.isPure.optionPure condition
  | union left right | minus left right => left.ignoresGraph && right.ignoresGraph
where
  listIgnoreGraph : List Pattern → Bool
    | [] => true
    | p :: ps => p.ignoresGraph && listIgnoreGraph ps

end Pattern

/-! ### Bindings -/

namespace Environment

variable {q : Query} {env env' : Environment} {v : Variable} {t : Term}

theorem bind_under (g : Option NodePattern) :
    (env.under g).bind? q v t = (env.bind? q v t).map (Option.map (·.under g)) := by
  unfold bind? bind
  cases q.slot? v with
  | none => rfl
  | some slot =>
    simp only [under]
    cases hb : (env.bindings[slot]?).join with
    | none => rfl
    | some u => by_cases hu : u = t <;> simp only [hu] <;> rfl

/-- Whether two environments are the same apart from the graph in force. -/
def SameButGraph (a b : Environment) : Prop := ∃ g, a = b.under g

theorem SameButGraph.choose {a b : Environment} (h : SameButGraph a b) (i : Nat) :
    SameButGraph (a.choose i) (b.choose i) := by
  obtain ⟨g, rfl⟩ := h
  exact ⟨g, rfl⟩

theorem SameButGraph.alike_bind {a b : Environment} (h : SameButGraph a b) (q : Query) (v : Variable)
    (t : Term) : Alike SameButGraph (a.bind? q v t) (b.bind? q v t) := by
  obtain ⟨g, rfl⟩ := h
  rw [bind_under]
  match b.bind? q v t with
  | .error e => exact .error e
  | .ok none => exact .none
  | .ok (some e) => exact .some ⟨g, rfl⟩

theorem graph_of_bind (h : env.bind? q v t = .ok (some env')) : env'.graph = env.graph := by
  obtain ⟨-, rfl | rfl⟩ := eq_assign_of_bind h
  · rfl
  · exact graph_assign

theorem group_of_bind (h : env.bind? q v t = .ok (some env')) : env'.group = env.group := by
  obtain ⟨-, rfl | rfl⟩ := eq_assign_of_bind h
  · rfl
  · exact group_assign

theorem length_of_bind (h : env.bind? q v t = .ok (some env')) :
    env'.bindings.length = env.bindings.length := by
  obtain ⟨-, rfl | rfl⟩ := eq_assign_of_bind h
  · rfl
  · exact length_assign

theorem stable_graph (g : Option NodePattern) :
    Stable q (fun _ => True) (fun _ => True) fun e => e.graph = g where
  choose _ _ h := h
  bind _ _ _ _ _ _ h hb := (graph_of_bind hb).trans h
  graph _ _ _ _ _ _ := trivial

end Environment

namespace Pattern

open Context (Blind)
open Environment (SameButGraph)

variable {c : Context} {h : Hooks} {env : Environment} {σ : Type}

theorem listIgnoreGraph_iff {ps : List Pattern} :
    ignoresGraph.listIgnoreGraph ps = true ↔ ∀ p ∈ ps, p.ignoresGraph = true := by
  induction ps with
  | nil => simp [ignoresGraph.listIgnoreGraph]
  | cons p ps ih => simp [ignoresGraph.listIgnoreGraph, ih]

/-! ### The graph behind a pattern -/

theorem graph_of_trace {p : Pattern} {e : Environment} (hp : p.keepsGraph = true)
    (he : e ∈ (p.trace c h env).items) : e.graph = env.graph :=
  kept (Environment.stable_graph env.graph) c.supplies_any p env (fun _ _ => trivial) (.inl hp) rfl e he

/-- What a graph clause hands on has its graph, unless there is another clause inside. -/
theorem graph_of_trace_graph {name : NodePattern} {inner : Pattern} {e : Environment}
    (hi : inner.keepsGraph = true) (he : e ∈ ((graph name inner).trace c h env).items) :
    e.graph = some name := by
  cases name with
  | const t =>
    rw [trace] at he
    exact graph_of_trace hi he
  | var v =>
    rw [trace] at he
    split_ifs at he
    · obtain ⟨i, n, -, he⟩ := Trace.mem_of_visit he
      obtain ⟨e₁, he₁, he⟩ := Trace.mem_of_bind he
      exact (graph_of_trace hi he).trans (Environment.graph_of_bind (Trace.mem_of_ofBinding he₁))
    · exact graph_of_trace hi he

/-! ### Patterns that ignore the graph -/

theorem eval_under {e : Expr} (he : e.isPure = true) {a b : Environment} (hab : SameButGraph a b) :
    e.eval c.toScope h a = e.eval c.toScope h b := by
  obtain ⟨g, rfl⟩ := hab
  have hsame : Run.Same (e.eval c.toScope h (b.under g)) (e.eval c.toScope h b) :=
    Expr.eval_same e _ _ he ⟨fun _ _ => rfl, fun _ => rfl⟩
  exact hsame.eq

theorem solvedAlike_under (p : Pattern) (hp : p.ignoresGraph = true) :
    SolvedAlike c h SameButGraph p p := by
  have hchoose : ∀ i {a b}, SameButGraph a b → SameButGraph (a.choose i) (b.choose i) :=
    fun i _ _ hab => hab.choose i
  cases p with
  | edge e => cases hp
  | path p => cases hp
  | sequence items =>
    refine solvedAlike_sequence (List.forall₂_same.mpr fun p hm => ?_)
    have := List.sizeOf_lt_of_mem hm
    exact solvedAlike_under p (listIgnoreGraph_iff.mp hp p hm)
  | optional left right condition =>
    obtain ⟨hlr, hc⟩ := Bool.and_eq_true_iff.mp hp
    obtain ⟨hl, hr⟩ := Bool.and_eq_true_iff.mp hlr
    refine solvedAlike_optional hchoose (solvedAlike_under left hl) (solvedAlike_under right hr)
      fun hab => ?_
    cases condition with
    | none => rfl
    | some e => exact congrArg some (eval_under hc hab)
  | union left right =>
    obtain ⟨hl, hr⟩ := Bool.and_eq_true_iff.mp hp
    exact solvedAlike_union hchoose (solvedAlike_under left hl) (solvedAlike_under right hr)
  | minus left right =>
    obtain ⟨hl, hr⟩ := Bool.and_eq_true_iff.mp hp
    refine solvedAlike_minus hchoose (solvedAlike_under left hl) (fun {a b} hab => ?_)
      fun {a b} _ {a' b'} hab => ?_
    · have hapart : SameButGraph (apart c a) (apart c b) := by
        obtain ⟨g, rfl⟩ := hab
        exact ⟨g, rfl⟩
      refine solvedAlike_under right hr _ _ hapart (fun a b hab found => ?_) []
      obtain ⟨g, rfl⟩ := hab
      rfl
    · obtain ⟨g, rfl⟩ := hab
      rfl
  | filter e => exact solvedAlike_filter hchoose (eval_under hp)
  | bind v e =>
    exact solvedAlike_bind hchoose (eval_under hp) fun _ _ hab => hab.alike_bind c.query v
  | graph name inner =>
    -- The graph in force is left before anything is looked up in it.
    intro a b hab σ next next' hn w
    obtain ⟨g, rfl⟩ := hab
    have hsame : next = next' := funext fun e => funext fun w => hn e e ⟨e.graph, rfl⟩ w
    subst hsame
    cases name <;> rw [solve, solve] <;> rfl
  | values vs rows => exact solvedAlike_values hchoose fun v _ _ _ hab => hab.alike_bind c.query v
termination_by sizeOf p

/-- A pattern that ignores the graph in force turns blind steps into blind steps. -/
theorem solve_under (p : Pattern) {σ : Type} {next : Context.Next σ} (hp : p.ignoresGraph = true)
    (hn : Blind next) : Blind fun env s => p.solve c h env next s := by
  intro env g s
  refine solvedAlike_under p hp _ _ ⟨g, rfl⟩ (fun a b hab s => ?_) s
  obtain ⟨g, rfl⟩ := hab
  exact hn b g s

/-! ### Behind a graph clause -/

/-- A clause with nothing inside only puts its graph in force. -/
theorem solve_graph_nil (name : NodePattern) (env : Environment) (next : Context.Next σ) (s : σ) :
    (graph name (sequence [])).solve c h env next s = next (env.under (some name)) s := by
  cases name with
  | const t =>
    rw [solve, solve_sequence, solveAll_nil]
    rfl
  | var v =>
    rw [solve, if_neg (by simp [containsPath, containsPath.listContainsPath]), solve_sequence,
      solveAll_nil]
    rfl

theorem ScopesTo.agreesUnder {name : NodePattern} {rest : List Pattern} {g : Option NodePattern}
    (hs : ∀ env : Environment, env.graph = g → ScopesTo c h name (sequence []) rest env) :
    (sequence rest).AgreesUnder c h (some name) g := by
  intro σ next hn env s
  have := hs (env.under g) rfl σ next hn s
  rw [solve_sequence, solveAll_cons, solve_graph_nil, solve_graph_nil, ← solve_sequence] at this
  exact this

theorem scopesTo_of_agreesUnder {name : NodePattern} {inner : Pattern} {rest : List Pattern}
    (hi : inner.keepsGraph = true)
    (ha : (sequence rest).AgreesUnder c h (some name) env.graph) :
    ScopesTo c h name inner rest env := by
  intro σ next hn s
  rw [solve_sequence, solveAll_cons, solve_eq_run, solve_eq_run]
  refine Trace.run_congr (fun e he s => ?_) s
  rw [← solve_sequence, ← ha σ next hn e s, ← graph_of_trace_graph hi he]
  rfl

theorem scopesTo_of_forall {rest : List Pattern}
    (ha : ∀ g g', (sequence rest).AgreesUnder c h g g') (name : NodePattern) (inner : Pattern)
    (env : Environment) : ScopesTo c h name inner rest env := by
  intro σ next hn s
  rw [solve_sequence, solveAll_cons]
  congr 1
  funext e s
  rw [← solve_sequence]
  exact ha e.graph env.graph σ next hn e s

/-- Patterns that ignore the graph in force may stand behind any graph clause. -/
theorem scopesTo_of_ignoresGraph {rest : List Pattern} (hr : ∀ p ∈ rest, p.ignoresGraph = true)
    (name : NodePattern) (inner : Pattern) (env : Environment) :
    ScopesTo c h name inner rest env := by
  refine scopesTo_of_forall (fun g g' σ next hn env s => ?_) name inner env
  have hb : Blind fun env s => (sequence rest).solve c h env next s :=
    solve_under (sequence rest) (listIgnoreGraph_iff.mpr hr) hn
  exact (hb env g s).trans (hb env g' s).symm

/-- Patterns behind a graph clause are solved as in the enclosing graph for every clause there may
be exactly if they have the same solutions in all graphs. For a clause without another one inside,
it is enough that they have the same solutions in its graph and in the enclosing one. -/
theorem scopesTo_iff (c : Context) (h : Hooks) (rest : List Pattern) :
    ((∀ name inner env, ScopesTo c h name inner rest env) ↔
      ∀ g g', (sequence rest).AgreesUnder c h g g') ∧
    ∀ name g, (∀ inner : Pattern, inner.keepsGraph = true → ∀ env : Environment, env.graph = g →
      ScopesTo c h name inner rest env) ↔ (sequence rest).AgreesUnder c h (some name) g := by
  refine ⟨⟨fun hs g g' => ?_, scopesTo_of_forall⟩, fun name g => ⟨fun hs =>
    ScopesTo.agreesUnder (hs (sequence []) rfl), fun ha inner hi env he =>
      scopesTo_of_agreesUnder hi (he ▸ ha)⟩⟩
  -- two graphs are compared by way of any named one
  have hall : ∀ name g, (sequence rest).AgreesUnder c h (some name) g := fun name g =>
    ScopesTo.agreesUnder fun env _ => hs name (sequence []) env
  intro σ next hn env s
  have n : NodePattern := .var ⟨""⟩
  rw [← hall n g σ next hn env s, hall n g' σ next hn env s]

/-- An edge behind a graph clause is missed if it is only outside of the graph of the clause. -/
theorem not_scopesTo :
    let store := Store.after false [.extend [
      ⟨.iri ⟨"a"⟩, .iri ⟨"p"⟩, .iri ⟨"b"⟩, some (.iri ⟨"g"⟩)⟩,
      ⟨.iri ⟨"b"⟩, .iri ⟨"q"⟩, .iri ⟨"c"⟩, none⟩]]
    let inner : Pattern := .edge ⟨.var ⟨"x"⟩, .const (.iri ⟨"p"⟩), .var ⟨"y"⟩⟩
    let behind : Pattern := .edge ⟨.var ⟨"y"⟩, .const (.iri ⟨"q"⟩), .var ⟨"z"⟩⟩
    let body : Pattern := .sequence [.graph (.const (.iri ⟨"g"⟩)) inner, behind]
    let c : Context := { query := .ofParts { body }, source := { store } }
    ¬ ScopesTo c (c.hooks c.depth) (.const (.iri ⟨"g"⟩)) inner [behind] (.initial c.query) := by
  intro store inner behind body c hs
  have hcount := congrArg (fun r : Run (ForInStep Nat) => r.outcome.toOption.map ForInStep.value)
    (hs Nat (fun _ n => pure (.yield (n + 1))) (fun _ _ _ => rfl) 0)
  revert hcount
  decide +kernel

end Pattern

end GraphQuery
