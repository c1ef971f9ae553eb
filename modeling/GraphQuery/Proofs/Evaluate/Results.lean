import GraphQuery.Evaluate.Answer
import GraphQuery.Proofs.Evaluate.PatternTrace
import GraphQuery.Proofs.Evaluate.Search
import GraphQuery.Proofs.Evaluate.Tuning

/-! The solutions of patterns as lists. Each way of combining patterns combines their lists, and the
search hands the members of the list on in order, up to and including the first after which it is
asked to stop. The memory is the same before and afterwards, and a bound on the number of solutions
cuts the list. -/

namespace GraphQuery

/-- What an outcome has, if anything. -/
def found {α : Type} : Except QueryError (Option α) → List α
  | .ok (some a) => [a]
  | .ok none | .error _ => []

/-- Whether a test comes out true. -/
def Run.holds (r : Run Bool) : Bool :=
  match r.outcome with
  | .ok b => b
  | .error _ => false

namespace Context

/-- The ends of a walk that fit the other end of the pattern. -/
def resultsEnds (c : Context) (target : NodePattern) (reached : List Term) (m : Environment) :
    List Environment :=
  reached.zipIdx.flatMap fun (t, i) =>
    match target with
    | .const u => if t = u.canonical then [m.choose i] else []
    | .var v => found ((m.choose i).bind? c.query v t)

/-- The walks of a path from each of its starts. -/
def resultsPath (c : Context) (p : PathPattern) (m : Environment) : List Environment :=
  let (starts, backwards, start, target) := c.walk p m
  starts.zipIdx.flatMap fun (t, i) =>
    (found (c.bindStart start t (m.choose i))).flatMap fun m =>
      c.resultsEnds target (c.source.reach ⟨c.query, m, p⟩ p.path backwards t) m

end Context

namespace Pattern

/-- The memories that solve a pattern and extend a memory, in order. Where something cannot be
evaluated there are none. -/
def results (c : Context) (h : Hooks) : Pattern → Environment → List Environment
  | edge e, m =>
    (c.source.matchEdge c.query m e m.graph (Source.restriction c.query m)).zipIdx.flatMap
      fun (o, i) => (found (c.bindEdge e m.graph o m)).map (·.choose i)
  | path p, m => c.resultsPath p m
  | sequence items, m => resultsAll items m
  | optional left right condition, m =>
    (left.results c h m).flatMap fun m =>
      let matched := (right.results c h (m.choose 0)).filter fun m =>
        (conditionHolds c h condition m).holds
      if matched.isEmpty then [m.choose 1] else matched
  | union left right, m => left.results c h (m.choose 0) ++ right.results c h (m.choose 1)
  | minus left right, m =>
    let excluded := right.results c h (apart c m)
    (left.results c h (m.choose 1)).filter fun m => !(excluded.any fun other =>
      m.solution.sharesSlot other.solution && m.solution.compatible other.solution)
  | filter e, m => [m.choose 1].filter fun _ => (e.test c.toScope h (m.choose 0)).holds
  | bind v e, m =>
    match (e.eval c.toScope h (m.choose 0)).outcome with
    | .ok none => [m.choose 1]
    | .ok (some t) => found ((m.choose 1).bind? c.query v t.canonical)
    | .error _ => []
  | graph name inner, m =>
    let inside := { m with graph := some name }
    match name with
    | .var v =>
      if (m.get? c.query v).isNone && inner.containsPath then
        (c.source.namedGraphs c.query.fromNamed).zipIdx.flatMap fun (g, i) =>
          (found ((inside.choose i).bind? c.query v g.term)).flatMap (inner.results c h)
      else inner.results c h inside
    | .const _ => inner.results c h inside
  | values vs rows, m =>
    rows.zipIdx.flatMap fun (row, i) => (found (c.bindRow (vs.zip row) m)).map (·.choose i)
where
  resultsAll : List Pattern → Environment → List Environment
    | [], m => [m]
    | p :: ps, m => (p.results c h m).flatMap (resultsAll ps)

end Pattern

/-! ### What a trace covers -/

namespace Trace

variable {α β : Type} {t u : Trace α} {l l' : List α} {a : α}

/-- Whether the items of a trace are those of a list, as far as the trace goes without an error. -/
inductive Covers {α : Type} : Trace α → List α → Prop
  | stop : Covers stop []
  | fail (e : QueryError) (l : List α) : Covers (fail e) l
  | event (e : Event) {t : Trace α} {l : List α} : Covers t l → Covers (event e t) l
  | item (a : α) {t : Trace α} {l : List α} : Covers t l → Covers (item a t) (a :: l)

namespace Covers

theorem single (a : α) : Covers (single a) [a] := .item a .stop

theorem append (ht : Covers t l) (hu : Covers u l') : Covers (t.append u) (l ++ l') := by
  induction ht with
  | stop => exact hu
  | fail e l => exact .fail e _
  | event e _ ih => exact .event e ih
  | item a _ ih => exact .item a ih

theorem bind {f : α → Trace β} {g : α → List β} (ht : Covers t l)
    (hf : ∀ a, Covers (f a) (g a)) : Covers (t.bind f) (l.flatMap g) := by
  induction ht with
  | stop => exact .stop
  | fail e l => exact .fail e _
  | event e _ ih => exact .event e ih
  | item a _ ih =>
    rw [List.flatMap_cons]
    exact (hf a).append ih

theorem ofRun {r : Run (Trace α)} (hr : ∀ t, r.outcome = .ok t → Covers t l) :
    Covers (ofRun r) l := by
  obtain ⟨events, outcome⟩ := r
  have hend : Covers (ofOutcome outcome) l := by
    cases outcome with
    | error e => exact .fail e l
    | ok t => exact hr t rfl
  clear hr
  change Covers (events.foldr Trace.event (ofOutcome outcome)) l
  induction events with
  | nil => exact hend
  | cons e events ih => exact .event e ih

theorem ofMap {r : Run β} {f : β → Trace α} (hr : ∀ b, r.outcome = .ok b → Covers (f b) l) :
    Covers (Trace.ofRun (f <$> r)) l := by
  refine ofRun fun t ht => ?_
  obtain ⟨b, hb, rfl⟩ := Run.outcome_map_eq_ok ht
  exact hr b hb

/-- Keeping what a test accepts. -/
theorem filter {f : α → Trace α} {p : α → Bool} (ht : Covers t l)
    (hf : ∀ a, Covers (f a) ([a].filter p)) : Covers (t.bind f) (l.filter p) := by
  have hl : (l.flatMap fun a => [a].filter p) = l.filter p := by
    rw [← List.filter_flatMap, List.flatMap_singleton']
  rw [← hl]
  exact ht.bind hf

theorem ofBinding (x : Except QueryError (Option α)) : Covers (ofBinding x) (found x) := by
  rcases x with e | _ | a
  · exact .fail e _
  · exact .stop
  · exact .single a

theorem visit {f : Nat → β → Trace α} {g : β × Nat → List α}
    (hf : ∀ i b, Covers (f i b) (g (b, i))) (bs : List β) (i : Nat) :
    Covers (visit f i bs) ((bs.zipIdx i).flatMap g) := by
  induction bs generalizing i with
  | nil => exact .stop
  | cons b bs ih =>
    rw [List.zipIdx_cons, List.flatMap_cons]
    exact (hf i b).append (ih (i + 1))

/-- A trace without items that has not failed is at its end. -/
theorem eq_nil_or_fails (ht : Covers t l) (hi : t.items = []) :
    l = [] ∨ ∀ u l', Covers (t.append u) l' := by
  induction ht with
  | stop => exact .inl rfl
  | fail e l => exact .inr fun u l' => .fail e l'
  | event e _ ih => exact (ih hi).imp id fun h u l' => .event e (h u l')
  | item a _ _ => cases hi

theorem ne_nil (ht : Covers t l) (hi : t.items ≠ []) : l ≠ [] := by
  induction ht with
  | stop => exact absurd rfl hi
  | fail e l => exact absurd rfl hi
  | event e _ ih => exact ih hi
  | item a _ _ => exact List.cons_ne_nil _ _

theorem orElse (ht : Covers t l) (a : α) :
    Covers (t.orElse a) (if l.isEmpty then [a] else l) := by
  unfold Trace.orElse
  cases hi : t.items with
  | nil =>
    rw [List.isEmpty_nil, if_pos rfl]
    rcases ht.eq_nil_or_fails hi with rfl | hfails
    · exact ht.append (.single a)
    · exact hfails _ _
  | cons b bs =>
    have hl := ht.ne_nil (hi ▸ List.cons_ne_nil b bs)
    rw [List.isEmpty_cons, if_neg Bool.false_ne_true, List.isEmpty_eq_false_iff.mpr hl,
      if_neg Bool.false_ne_true]
    exact ht

/-- Without an error the items are those of the list. -/
theorem items_eq (ht : Covers t l) {v : Unit} (hd : t.drain.outcome = .ok v) : t.items = l := by
  induction ht with
  | stop => rfl
  | fail e l => cases hd
  | event e _ ih =>
    obtain ⟨_, -, hd⟩ := Run.outcome_bind_eq_ok hd
    exact ih hd
  | item a _ ih => exact congrArg (a :: ·) (ih hd)

end Covers

end Trace

namespace Pattern

variable {c : Context} {h : Hooks}

open Trace (Covers)

theorem covers_keepIf (m : Environment) (b : Bool) :
    Covers (keepIf m b) ([m].filter fun _ => b) := by
  cases b
  · exact .stop
  · exact .single m

theorem covers_test (m : Environment) (r : Run Bool) :
    Covers (Trace.ofRun (keepIf m <$> r)) ([m].filter fun _ => r.holds) := by
  refine Covers.ofMap fun b hb => ?_
  have hholds : r.holds = b := by rw [Run.holds, hb]
  rw [hholds]
  exact covers_keepIf m b

theorem covers_bindings (x : Except QueryError (Option Environment)) (i : Nat) :
    Covers (Trace.ofBinding (x.map (·.map (·.choose i)))) ((found x).map (·.choose i)) := by
  rcases x with e | _ | m
  · exact .fail e _
  · exact .stop
  · exact .single _

theorem covers_all {ps : List Pattern}
    (hps : ∀ p ∈ ps, ∀ m, Covers (p.trace c h m) (p.results c h m)) (m : Environment) :
    Covers (trace.traceAll c h ps m) (results.resultsAll c h ps m) := by
  induction ps generalizing m with
  | nil => exact .single m
  | cons p ps ih =>
    obtain ⟨hp, hps⟩ := List.forall_mem_cons.mp hps
    exact (hp m).bind (ih hps)

theorem covers_ends (target : NodePattern) (reached : List Term) (m : Environment) :
    Covers (c.traceEnds target reached m) (c.resultsEnds target reached m) := by
  refine Covers.visit (fun i t => ?_) reached 0
  cases target with
  | const u =>
    dsimp only
    split_ifs
    · exact .single _
    · exact .stop
  | var v => exact .ofBinding _

/-- The trace of a pattern covers its results. -/
theorem covers_results (p : Pattern) (m : Environment) :
    Covers (p.trace c h m) (p.results c h m) := by
  cases p with
  | edge e =>
    rw [trace, results]
    exact .visit (fun i o => covers_bindings _ i) _ 0
  | path p =>
    rw [trace, results]
    exact .visit (fun i t => (Covers.ofBinding _).bind fun m => covers_ends _ _ m) _ 0
  | sequence items =>
    rw [trace, results]
    refine covers_all (fun p hp m => ?_) m
    have := List.sizeOf_lt_of_mem hp
    exact covers_results p m
  | optional left right condition =>
    rw [trace, results]
    refine (covers_results left m).bind fun m => ?_
    have hmatched := (covers_results right (m.choose 0)).filter fun m =>
      covers_test m (conditionHolds c h condition m)
    exact hmatched.orElse (m.choose 1)
  | union left right =>
    rw [trace, results]
    exact (covers_results left _).append (covers_results right _)
  | minus left right =>
    rw [trace, results]
    refine Covers.ofMap fun _ hd => ?_
    have hitems := (covers_results right (apart c m)).items_eq hd
    rw [hitems]
    exact (covers_results left (m.choose 1)).filter fun m => covers_keepIf m _
  | filter e =>
    rw [trace, results]
    exact covers_test _ _
  | bind v e =>
    rw [trace, results]
    refine Covers.ofMap fun t ht => ?_
    rw [ht]
    cases t with
    | none => exact .single _
    | some t => exact .ofBinding _
  | graph name inner =>
    cases name with
    | const t =>
      rw [trace, results]
      exact covers_results inner _
    | var v =>
      rw [trace, results]
      dsimp only
      split_ifs
      · exact .visit (fun i g => (Covers.ofBinding _).bind fun m => covers_results inner m) _ 0
      · exact covers_results inner _
  | values vs rows =>
    rw [trace, results]
    exact .visit (fun i row => covers_bindings _ i) _ 0
termination_by sizeOf p

end Pattern

/-! ### Handing on -/

/-- Whether a continuation gives back the memory that it is handed. -/
def Continuation.Restores {σ : Type} (k : Continuation σ) : Prop :=
  ∀ m s r, (k m s).outcome = .ok r → r.value.1 = m

/-- How a list is handed on: its members are given to a continuation in order, up to and including
the first after which it asks to stop, and in the end there is the memory `m` again. -/
inductive HandsOn {σ : Type} (k : Continuation σ) (m : Environment) :
    List Environment → σ → ForInStep (Environment × σ) → Prop
  | all (s : σ) : HandsOn k m [] s (.yield (m, s))
  | stop {a : Environment} {l : List Environment} {s t : σ}
      (ha : (k a s).outcome = .ok (.done (a, t))) : HandsOn k m (a :: l) s (.done (m, t))
  | next {a : Environment} {l : List Environment} {s t : σ} {r : ForInStep (Environment × σ)}
      (ha : (k a s).outcome = .ok (.yield (a, t))) (hl : HandsOn k m l t r) :
      HandsOn k m (a :: l) s r

section Handing

variable {σ : Type} {c : Context} {h : Hooks} {k : Continuation σ} {m : Environment} {s : σ}
  {r : ForInStep (Environment × σ)} {l : List Environment}

/-- A step with the memory left out of its answer. -/
def forgetting : ForInStep (Environment × σ) → ForInStep σ
  | .done (_, s) => .done s
  | .yield (_, s) => .yield s

theorem keeping_forgetting {step : ForInStep (Environment × σ)} (hm : step.value.1 = m) :
    keeping m (forgetting step) = step := by
  subst hm
  cases step <;> rfl

theorem map_eq_self {α : Type} {f : α → α} {x : Run α} (hx : ∀ a, x.outcome = .ok a → f a = a) :
    f <$> x = x := by
  obtain ⟨events, outcome⟩ := x
  cases outcome with
  | error e => rfl
  | ok a =>
    change (⟨events ++ [], .ok (f a)⟩ : Run α) = ⟨events, .ok a⟩
    rw [List.append_nil, hx a rfl]

/-- A continuation that gives back the memory is a step. -/
theorem Continuation.Restores.eq_restoring (hk : k.Restores) :
    k = restoring fun m s => forgetting <$> k m s := by
  funext m s
  rw [restoring, Functor.map_map]
  exact (map_eq_self fun r hr => keeping_forgetting (hk m s r hr)).symm

/-- Whether the search for a pattern calls what follows on the members of a list, in their order and
until it is asked to stop, whatever follows. -/
def Pattern.GoesThrough (c : Context) (h : Hooks) (p : Pattern) (m : Environment)
    (l : List Environment) : Prop :=
  ∀ (σ : Type) (k : Continuation σ) (s : σ), k.Restores →
    p.search c h m k s = keeping m <$> Run.each (fun e s => forgetting <$> k e s) l s

theorem Pattern.Yields.goesThrough {p : Pattern} (hp : p.Yields c h m l) :
    p.GoesThrough c h m l := fun σ k s hk => by
  conv_lhs => rw [hk.eq_restoring]
  rw [Pattern.search_restoring, hp.solve_eq]

/-- The items of a trace are handed on as long as there is no error. -/
theorem Trace.Covers.handsOn {t : Trace Environment} (ht : Covers t l) (hk : k.Restores)
    {step : ForInStep σ}
    (hr : (t.run (fun m s => forgetting <$> k m s) s).outcome = .ok step) :
    HandsOn k m l s (keeping m step) := by
  induction ht generalizing s with
  | stop =>
    obtain rfl := Except.ok.inj hr
    exact .all s
  | fail e l => cases hr
  | event e _ ih =>
    obtain ⟨_, -, hr⟩ := Run.outcome_bind_eq_ok hr
    exact ih hr
  | item a _ ih =>
    obtain ⟨step', ha, hrest⟩ := Run.outcome_bind_eq_ok hr
    obtain ⟨answer, hka, rfl⟩ := Run.outcome_map_eq_ok ha
    have hm := hk a _ answer hka
    cases answer with
    | done p =>
      obtain ⟨m', s'⟩ := p
      obtain rfl : m' = a := hm
      obtain rfl := Except.ok.inj hrest
      exact .stop hka
    | yield p =>
      obtain ⟨m', s'⟩ := p
      obtain rfl : m' = a := hm
      exact .next hka (ih hrest)

/-- The search hands on the results of a pattern, and gives back the memory. -/
theorem Pattern.search_handsOn (p : Pattern) (hk : k.Restores)
    (hr : (p.search c h m k s).outcome = .ok r) : HandsOn k m (p.results c h m) s r := by
  rw [hk.eq_restoring, Pattern.search_restoring, Pattern.solve_eq_run] at hr
  obtain ⟨step, hstep, rfl⟩ := Run.outcome_map_eq_ok hr
  exact (Pattern.covers_results p m).handsOn hk hstep

theorem HandsOn.memory (hr : HandsOn k m l s r) : r.value.1 = m := by
  induction hr with
  | all s => rfl
  | stop ha => rfl
  | next ha _ ih => exact ih

/-- After a part that is handed on completely comes the rest. -/
theorem HandsOn.rest {l₁ l₂ : List Environment} {t : σ} (hr : HandsOn k m (l₁ ++ l₂) s r)
    (h₁ : HandsOn k m l₁ s (.yield (m, t))) : HandsOn k m l₂ t r := by
  induction l₁ generalizing s with
  | nil =>
    cases h₁
    exact hr
  | cons a l₁ ih =>
    cases h₁ with
    | next ha h₁ =>
      cases hr with
      | stop ha' =>
        rw [ha] at ha'
        cases ha'
      | next ha' hr =>
        rw [ha] at ha'
        cases ha'
        exact ih hr h₁

/-- The answer is to stop exactly if one of the members that are handed on asks to. -/
theorem HandsOn.stops_iff (hr : HandsOn k m l s r) :
    (∃ u, r = .done u) ↔ ∃ l₁ a l₂ t u, l = l₁ ++ a :: l₂ ∧ HandsOn k m l₁ s (.yield (m, t)) ∧
      (k a t).outcome = .ok (.done (a, u)) := by
  constructor
  · rintro ⟨u, hu⟩
    induction hr with
    | all s => cases hu
    | stop ha => exact ⟨[], _, _, _, _, rfl, .all _, ha⟩
    | next ha _ ih =>
      obtain ⟨l₁, b, l₂, t, u, rfl, h₁, hb⟩ := ih hu
      exact ⟨_ :: l₁, b, l₂, t, u, rfl, .next ha h₁, hb⟩
  · rintro ⟨l₁, a, l₂, t, u, rfl, h₁, ha⟩
    cases hr.rest h₁ with
    | stop ha' => exact ⟨_, rfl⟩
    | next ha' _ =>
      rw [ha] at ha'
      cases ha'

end Handing

/-! ### Bounds on the number of solutions -/

namespace Context

variable {c : Context} {h : Hooks}

/-- The same evaluation with another bound on the number of solutions. -/
def capped (c : Context) (limit : Option Nat) : Context :=
  { c with source := { c.source with options := { c.source.options with limit } } }

variable (limit : Option Nat)

/-- What a pattern hands on does not depend on the bound. -/
theorem trace_capped (p : Pattern) : p.trace (c.capped limit) h = p.trace c h :=
  trace_tuned limit c.query.distinct p

theorem hooks_capped (depth : Nat) : (c.capped limit).hooks depth = c.hooks depth :=
  hooks_tuned limit c.query.distinct depth

/-- What the body hands on. -/
def bodyTrace (c : Context) : Trace Environment :=
  c.query.body.trace c (c.hooks c.depth) { Environment.initial c.query with trail := [0] }

/-- The solutions of the body are collected from its trace. -/
theorem rawSolutions_eq_run : (c.capped limit).rawSolutions = (do
    let found ← c.bodyTrace.run (collect limit) []
    pure { Solutions.ofQuery c.query with rows := found.value.reverse }) := by
  rw [rawSolutions, solutions_eq, Pattern.solve_eq_run, trace_capped, hooks_capped, bind_assoc]
  rfl

/-- Collecting up to a bound takes the first items of a trace that does not fail. -/
theorem run_collect_some {t : Trace Environment} {u : Unit} (hd : t.drain.outcome = .ok u)
    {n : Nat} {rows : List Solution} (hn : rows.length ≤ n) :
    ∃ step, (t.run (collect (some n)) rows).outcome = .ok step ∧
      step.value.reverse = (rows.reverse ++ t.items.map (·.solution)).take n := by
  induction t generalizing rows with
  | stop =>
    refine ⟨.yield rows, rfl, ?_⟩
    rw [Trace.items, List.map_nil, List.append_nil, List.take_of_length_le (by simpa using hn)]
    rfl
  | fail e => cases hd
  | event e t ih =>
    obtain ⟨_, -, hd⟩ := Run.outcome_bind_eq_ok hd
    obtain ⟨step, hstep, hrows⟩ := ih hd hn
    exact ⟨step, (Run.outcome_bind_of_ok rfl).trans hstep, hrows⟩
  | item m t ih =>
    rw [Trace.items, List.map_cons]
    by_cases hfull : n ≤ rows.length
    · have hcollect : collect (some n) m rows = pure (.done rows) := by simp [collect, hfull]
      refine ⟨.done rows, by rw [Trace.run, hcollect, Run.proceed_done]; rfl, ?_⟩
      rw [List.take_left' (by rw [List.length_reverse]; omega)]
      rfl
    · have hlen : (m.solution :: rows).length ≤ n := by
        rw [List.length_cons]
        omega
      by_cases hlast : n ≤ rows.length + 1
      · have hcollect : collect (some n) m rows = pure (.done (m.solution :: rows)) := by
          simp [collect, hfull, hlast]
        refine ⟨.done (m.solution :: rows), by rw [Trace.run, hcollect, Run.proceed_done]; rfl, ?_⟩
        have htaken : (m.solution :: rows).reverse.length = n := by
          rw [List.length_reverse]
          exact le_antisymm hlen hlast
        rw [List.append_cons, ← List.reverse_cons, List.take_left' htaken]
        rfl
      · have hcollect : collect (some n) m rows = pure (.yield (m.solution :: rows)) := by
          simp [collect, hfull, hlast]
        obtain ⟨step, hstep, hrows⟩ := ih hd hlen
        refine ⟨step, by rw [Trace.run, hcollect, Run.proceed_yield, hstep], ?_⟩
        rw [hrows, List.reverse_cons, List.append_assoc]
        rfl

/-- A bound cuts the solutions of a body that evaluates without an error. -/
theorem rawSolutions_capped {all : Solutions} (n : Nat)
    (hall : (c.capped none).rawSolutions.outcome = .ok all) :
    (c.capped (some n)).rawSolutions.outcome = .ok { all with rows := all.rows.take n } := by
  have hcollect : collect none = fun m rows => pure (.yield (m.solution :: rows)) := rfl
  rw [rawSolutions_eq_run, hcollect, Trace.run_collect] at hall
  obtain ⟨step, hstep, hall⟩ := Run.outcome_bind_eq_ok hall
  obtain ⟨u, hd, hstep⟩ := Run.outcome_bind_eq_ok hstep
  obtain rfl := Except.ok.inj hstep
  obtain rfl := Except.ok.inj hall
  have hnil : ([] : List Solution).length ≤ n := Nat.zero_le n
  obtain ⟨step, hstep, hrows⟩ := run_collect_some hd hnil
  rw [rawSolutions_eq_run]
  refine (Run.outcome_bind_of_ok hstep).trans ?_
  rw [hrows]
  simp [ForInStep.value]

/-- The search goes through the list of results: what follows is called on its members in order, up
to and including the first after which it asks to stop, the search stops exactly then, and the
memory is as before. A bound on the number of solutions takes the first of those that there are
without it. -/
theorem search_results (c : Context) :
    (∀ (h : Hooks) (p : Pattern) (σ : Type) (k : Continuation σ) (m : Environment) (s : σ)
      (r : ForInStep (Environment × σ)), k.Restores → (p.search c h m k s).outcome = .ok r →
        HandsOn k m (p.results c h m) s r ∧ r.value.1 = m ∧
          ((∃ u, r = .done u) ↔ ∃ l₁ a l₂ t u, p.results c h m = l₁ ++ a :: l₂ ∧
            HandsOn k m l₁ s (.yield (m, t)) ∧ (k a t).outcome = .ok (.done (a, u)))) ∧
    ∀ (n : Nat) (all : Solutions), (c.capped none).rawSolutions.outcome = .ok all →
      (c.capped (some n)).rawSolutions.outcome = .ok { all with rows := all.rows.take n } := by
  refine ⟨fun h p σ k m s r hk hr => ?_, fun n all hall => rawSolutions_capped n hall⟩
  have hon := p.search_handsOn hk hr
  exact ⟨hon, hon.memory, hon.stops_iff⟩

/-- Of three rows, a search that is asked to stop after the second hands on two, and a bound of two
leaves the first two. -/
theorem search_results_of_rows :
    let row (name : String) : List (Option Term) := [some (.iri ⟨name⟩)]
    let body : Pattern := .values [⟨"x"⟩] [row "a", row "b", row "c"]
    let c : Context := { query := .ofParts { body }, source := { store := {} } }
    let m := Environment.initial c.query
    let k : Continuation Nat := fun m n =>
      pure (if n = 1 then .done (m, n + 1) else .yield (m, n + 1))
    (HandsOn k m (body.results c (c.hooks 0) m) 0 (.done (m, 2)) ∧
      (body.results c (c.hooks 0) m).length = 3) ∧
    ∃ all, (c.capped none).rawSolutions.outcome = .ok all ∧ all.rows.length = 3 ∧
      (c.capped (some 2)).rawSolutions.outcome = .ok { all with rows := all.rows.take 2 } := by
  dsimp only
  refine ⟨⟨((search_results _).1 _ _ Nat _ _ 0 _ ?_ rfl).1, by decide +kernel⟩, ?_⟩
  · intro m n r hr
    obtain rfl := Except.ok.inj hr
    split_ifs <;> rfl
  · refine ⟨_, rfl, by decide +kernel, ?_⟩
    exact (search_results _).2 2 _ rfl

end Context

end GraphQuery
