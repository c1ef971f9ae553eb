import GraphQuery.Proofs.Evaluate.PatternTranslation

/-! Carrying an evaluation over to another query, which has slots of its own for the same variables.
If slots are read and written alike once they are carried over, as far as an evaluation may come,
then patterns hand on the same environments with their slots carried over, and expressions come to
the same: it is a translation that exchanges no terms and goes no other ways. -/

namespace GraphQuery

/-- The same solution with its slots carried over. -/
def Solution.carried (s : Solution) (g : List (Option Term) → List (Option Term)) : Solution :=
  { s with slots := g s.slots }

def Environment.carried (env : Environment) (g : List (Option Term) → List (Option Term)) :
    Environment :=
  { env with
    bindings := g env.bindings
    group := env.group.map (·.map (·.carried g)) }

/-- Whether slots of a query are read and written alike once they are carried over to another query
with the same patterns and functions. -/
structure Query.Carries (q q' : Query) (g : List (Option Term) → List (Option Term)) (D : Realm) :
    Prop where
  patterns : q'.patterns = q.patterns
  functions : q'.functions = q.functions
  fromDefault : q'.fromDefault = q.fromDefault
  fromNamed : q'.fromNamed = q.fromNamed
  declared : ∀ v, D.names v → (v ∈ q'.vars ↔ v ∈ q.vars)
  binding : ∀ {env : Environment}, D.slots env.bindings → ∀ v,
    (env.carried g).binding? q' v = env.binding? q v
  assign : ∀ {env : Environment} {v : Variable}, D.slots env.bindings → D.names v → v ∈ q.vars →
    ∀ t, D.slots (env.assign q v t).bindings ∧
      (env.carried g).assign q' v t = (env.assign q v t).carried g
  initial : D.slots (Environment.initial q).bindings ∧
    (Environment.initial q).carried g = .initial q'
  compatible : ∀ {a b : Solution}, D.slots a.slots → D.slots b.slots →
    (a.carried g).compatible (b.carried g) = a.compatible b
  sharesSlot : ∀ {a b : Solution}, D.slots a.slots → D.slots b.slots →
    (a.carried g).sharesSlot (b.carried g) = a.sharesSlot b
  injective : ∀ {bs bs' : List (Option Term)}, D.slots bs → D.slots bs' → g bs = g bs' → bs = bs'

/-- Whether also what is asked for is answered alike once slots are carried over. Patterns that are
asked for may come further than the rest. -/
structure Scope.Carries (c : Scope) (q' : Query) (g : List (Option Term) → List (Option Term))
    (D E : Realm) : Prop extends c.query.Carries q' g D where
  snapshot : ∀ {target : Option Term}, D.asks (.snapshot target) → ∀ {env : Environment},
    D.slots env.bindings →
      (c.withQuery q').snapshot (env.carried g) target = c.snapshot env target
  call : ∀ {site name count d}, D.asks (.call site name count) → c.finds site name count = some d →
    ∀ r ∈ d.body.requests, D.asks r
  existence : ∀ {id p}, D.asks (.existence id) → c.query.pattern? id = some p →
    (∀ v ∈ p.vars, E.names v) ∧ ∀ r ∈ p.requests, E.asks r
  restored : ∀ {env : Environment}, env.Within D → (env.restored c.query).Within E ∧
    (env.carried g).restored q' = (env.restored c.query).carried g

/-- Whether what is asked for on the way is found out alike once slots are carried over. -/
structure Hooks.Carry (g : List (Option Term) → List (Option Term)) (D E : Realm) (h h' : Hooks) :
    Prop where
  body : ∀ (e : Expr) (env : Environment), (∀ r ∈ e.requests, D.asks r) → env.Within D →
    h'.body e (env.carried g) = h.body e env
  hasSolution : ∀ (p : Pattern) (env : Environment), (∀ v ∈ p.vars, E.names v) →
    (∀ r ∈ p.requests, E.asks r) → env.Within E →
      h'.hasSolution p (env.carried g) = h.hasSolution p env

variable {g : List (Option Term) → List (Option Term)} {D E : Realm} {q q' : Query}

/-! ### A translation of slots -/

/-- The translation of slots alone. -/
def Translation.ofSlots (g : List (Option Term) → List (Option Term)) : Translation where
  slots := g
  term := id
  way := id
  start := []
  exchanges := Term.exchanges_id
  way_cons _ _ _ := rfl

theorem Environment.translated_ofSlots (env : Environment) :
    env.translated (.ofSlots g) = env.carried g := by
  have hlocals : env.locals.translated (.ofSlots g) = env.locals := List.map_id _
  rw [translated, hlocals]
  rfl

theorem Environment.Within.along {env : Environment} (h : env.Within D) :
    env.Along (.ofSlots g) D :=
  ⟨h, List.nil_suffix⟩

theorem Translation.spares_ofSlots {e : Expr} (he : ∀ r ∈ e.requests, D.asks r) :
    (ofSlots g).Spares D e :=
  ⟨he, fun _ _ => rfl⟩

theorem Translation.sparesPattern_ofSlots {p : Pattern} (hv : ∀ v ∈ p.vars, D.names v)
    (hr : ∀ r ∈ p.requests, D.asks r) : (ofSlots g).SparesPattern D p :=
  ⟨hv, hr, fun _ _ => rfl⟩

theorem Query.Carries.translates (hq : q.Carries q' g D) : q.Translates q' (.ofSlots g) D where
  patterns := hq.patterns
  functions := hq.functions
  fromDefault := hq.fromDefault
  fromNamed := hq.fromNamed
  declared := hq.declared
  binding {env} hs v := by
    rw [env.translated_ofSlots, hq.binding hs]
    exact Option.map_id'.symm
  assign {env v} hs hv hm t := by
    rw [Environment.translated_ofSlots, Environment.translated_ofSlots]
    exact hq.assign hs hv hm t
  initial := ⟨hq.initial.1, congrArg Environment.bindings hq.initial.2⟩
  compatible := hq.compatible
  sharesSlot := hq.sharesSlot
  injective := hq.injective

theorem Scope.Carries.translates {c : Scope} (hc : c.Carries q' g D E) :
    c.Translates q' (.ofSlots g) D E where
  toTranslates := hc.toCarries.translates
  snapshot {target} hr env hs := by
    rw [env.translated_ofSlots]
    exact hc.snapshot hr hs
  call hr hd := Translation.spares_ofSlots (hc.call hr hd)
  existence hr hp := Translation.sparesPattern_ofSlots (hc.existence hr hp).1 (hc.existence hr hp).2
  restored {env} hn := by
    rw [Environment.translated_ofSlots, Environment.translated_ofSlots]
    exact hc.restored hn

theorem Run.map_id_option {α : Type} (r : Run (Option α)) : Option.map id <$> r = r := by
  rw [Option.map_id, id_map]

theorem Hooks.Carry.translate {h h' : Hooks} (hh : Hooks.Carry g D E h h') :
    Hooks.Translate (.ofSlots g) D E h h' where
  body e env he hn := by
    rw [env.translated_ofSlots, hh.body e env he.requests hn.toWithin]
    exact (Run.map_id_option _).symm
  hasSolution p env hp hn := by
    rw [env.translated_ofSlots]
    exact hh.hasSolution p env hp.vars hp.requests hn.toWithin

theorem Hooks.Translate.carry {h h' : Hooks} (hh : Hooks.Translate (.ofSlots g) D E h h') :
    Hooks.Carry g D E h h' where
  body e env he hn := by
    rw [← env.translated_ofSlots, hh.body e env (Translation.spares_ofSlots he) hn.along]
    exact Run.map_id_option _
  hasSolution p env hv hr hn := by
    rw [← env.translated_ofSlots]
    exact hh.hasSolution p env (Translation.sparesPattern_ofSlots hv hr) hn.along

/-! ### Environments -/

namespace Query.Carries

variable {env : Environment} (hq : q.Carries q' g D)

include hq

theorem initial_carried (graph : Option NodePattern) (trail : List Nat) :
    { Environment.initial q' with graph, trail } =
      ({ Environment.initial q with graph, trail } : Environment).carried g := by
  rw [← hq.initial.2]
  rfl

/-- Solutions bind the same once their slots are carried over. -/
theorem read_carried {s : Solution} (hs : D.slots s.slots) (v : Variable) :
    q'.read v (s.carried g) = q.read v s := by
  have hbinding : ((Environment.ofSolution s none []).carried g).binding? q' v =
      (Environment.ofSolution s none []).binding? q v := hq.binding hs v
  exact hbinding

end Query.Carries

/-! ### Patterns and expressions -/

theorem Trace.map_carried (t : Trace Environment) :
    t.map (·.translated (.ofSlots g)) = t.map (·.carried g) :=
  congrArg t.map (funext Environment.translated_ofSlots)

/-- Patterns hand on the same environments with their slots carried over. -/
theorem Pattern.trace_carried {c : Context} {h h' : Hooks} (hc : c.toScope.Carries q' g D E)
    (limit : Option Nat) (hh : Hooks.Carry g D E h h') (p : Pattern)
    (hp : ∀ v ∈ p.vars, D.names v) (hr : ∀ r ∈ p.requests, D.asks r) {env : Environment}
    (hn : env.Within D) :
    p.trace (c.withQuery q' limit) h' (env.carried g) = (p.trace c h env).map (·.carried g) := by
  rw [← env.translated_ofSlots, ← Trace.map_carried]
  exact p.trace_translated hc.translates c.source.overlooks_id limit hh.translate
    (Translation.sparesPattern_ofSlots hp hr) hn.along

namespace Context

variable {c : Context} {env : Environment} (hE : c.toScope.Carries q' g E E)
  (hD : c.toScope.Carries q' g D E) (limit : Option Nat)

include hE hD

/-- However deep the references go. -/
theorem hooks_carried (level : Nat) :
    Hooks.Carry g D E (c.hooks level) ((c.withQuery q' limit).hooks level) :=
  (hooks_translated c.source.overlooks_id hE.translates hD.translates limit level).carry

theorem evaluate_carried (e : Expr) (he : ∀ r ∈ e.requests, D.asks r) (hn : env.Within D) :
    (c.withQuery q' limit).evaluate e (env.carried g) = c.evaluate e env := by
  rw [← env.translated_ofSlots, evaluate_translated c.source.overlooks_id hE.translates
    hD.translates limit e (Translation.spares_ofSlots he) hn.along]
  exact Run.map_id_option _

/-- What a pattern hands on in the end. -/
theorem traced_carried {p : Pattern} (hp : ∀ v ∈ p.vars, D.names v)
    (hr : ∀ r ∈ p.requests, D.asks r) (hn : env.Within D) :
    p.trace (c.withQuery q' limit) ((c.withQuery q' limit).hooks (c.withQuery q' limit).depth)
        (env.carried g) = (p.trace c (c.hooks c.depth) env).map (·.carried g) := by
  rw [← env.translated_ofSlots, ← Trace.map_carried]
  exact traced_translated c.source.overlooks_id hE.translates hD.translates limit
    (Translation.sparesPattern_ofSlots hp hr) hn.along

/-- A pattern has the same solutions with their slots carried over. -/
theorem solutions_carried {p : Pattern} (hp : ∀ v ∈ p.vars, D.names v)
    (hr : ∀ r ∈ p.requests, D.asks r) (hn : env.Within D) (bound : Option Nat) :
    (c.withQuery q' limit).solutions p (env.carried g) bound =
      List.map (·.carried g) <$> c.solutions p env bound := by
  rw [← env.translated_ofSlots]
  exact solutions_translated c.source.overlooks_id hE.translates hD.translates limit
    (Translation.sparesPattern_ofSlots hp hr) hn.along bound

end Context

end GraphQuery
