import GraphQuery.Proofs.Evaluate.GraphClause
import GraphQuery.Proofs.Evaluate.Search

/-! How evaluations fail. Patterns bind variables in a few places, and binding one that is not declared
is an error. Apart from that, a pattern fails only as what its expressions ask for does. So errors are
bounded from the places where variables are bound, through what patterns hand on, to whole runs. -/

namespace GraphQuery

variable {α β : Type} {E : QueryError → Prop} {P : α → Prop} {Q : β → Prop}

/-! ### Outcomes -/

/-- Whether an outcome is a value with a property, or an error of some kind. -/
def Ends (E : QueryError → Prop) (P : α → Prop) : Except QueryError α → Prop
  | .ok a => P a
  | .error e => E e

namespace Ends

variable {x : Except QueryError α}

theorem mono {E' : QueryError → Prop} {P' : α → Prop} (h : Ends E P x) (hE : ∀ e, E e → E' e)
    (hP : ∀ a, P a → P' a) : Ends E' P' x := by
  cases x with
  | error e => exact hE e h
  | ok a => exact hP a h

theorem bind {f : α → Except QueryError β} (h : Ends E P x) (hf : ∀ a, P a → Ends E Q (f a)) :
    Ends E Q (x.bind f) := by
  cases x with
  | error e => exact h
  | ok a => exact hf a h

theorem map {f : α → β} (h : Ends E P x) (hf : ∀ a, P a → Q (f a)) : Ends E Q (x.map f) := by
  cases x with
  | error e => exact h
  | ok a => exact hf a h

/-- Where no error is expected, there is a value. -/
theorem exists_ok (h : Ends (fun _ => False) P x) : ∃ a, x = .ok a ∧ P a := by
  cases x with
  | error e => exact h.elim
  | ok a => exact ⟨a, rfl, h⟩

end Ends

namespace Run

def Ends (E : QueryError → Prop) (P : α → Prop) (r : Run α) : Prop := GraphQuery.Ends E P r.outcome

/-- Whether a run fails with some kinds of errors only. -/
abbrev FailsOnly (E : QueryError → Prop) (r : Run α) : Prop := r.Ends E fun _ => True

theorem Ends.bind {r : Run α} {f : α → Run β} (h : r.Ends E P) (hf : ∀ a, P a → (f a).Ends E Q) :
    (r >>= f).Ends E Q := by
  unfold Ends
  rw [outcome_bind]
  exact GraphQuery.Ends.bind h hf

theorem Ends.of_ok {r : Run α} (h : r.FailsOnly E) (hP : ∀ a, r.outcome = .ok a → P a) :
    r.Ends E P := by
  unfold FailsOnly Ends at *
  cases ho : r.outcome with
  | error e => rwa [ho] at h
  | ok a => exact hP a ho

theorem Ends.mapIdx {f : Nat → α → Run β} {as : List α} (h : ∀ i, ∀ a ∈ as, (f i a).Ends E Q)
    (i : Nat) : (mapIdx f i as).Ends E fun bs => ∀ b ∈ bs, Q b := by
  induction as generalizing i with
  | nil => exact List.forall_mem_nil Q
  | cons a as ih =>
    refine (h i a List.mem_cons_self).bind fun b hb => ?_
    exact (ih (fun j a ha => h j a (List.mem_cons_of_mem _ ha)) (i + 1)).bind fun bs hbs =>
      List.forall_mem_cons.mpr ⟨hb, hbs⟩

theorem congruence_failsOnly (E : QueryError → Prop) : Congruence fun _ r _ => r.FailsOnly E where
  pure _ := trivial
  bind {_ _ r _ _ _} h hf :=
    (Ends.of_ok (P := fun a => r.outcome = .ok a) h fun _ ho => ho).bind hf

end Run

/-! ### Traces -/

namespace Trace

variable {σ : Type} {t u : Trace α}

/-- Whether a trace comes to its end, or to an error of some kind. -/
inductive FailsOnly {α : Type} (E : QueryError → Prop) : Trace α → Prop
  | stop : FailsOnly E stop
  | fail {e : QueryError} : E e → FailsOnly E (fail e)
  | event (e : Event) {t : Trace α} : FailsOnly E t → FailsOnly E (event e t)
  | item (a : α) {t : Trace α} : FailsOnly E t → FailsOnly E (item a t)

namespace FailsOnly

theorem single (a : α) : FailsOnly E (single a) := .item a .stop

theorem append (ht : t.FailsOnly E) (hu : u.FailsOnly E) : (t.append u).FailsOnly E := by
  induction ht with
  | stop => exact hu
  | fail he => exact .fail he
  | event e _ ih => exact .event e ih
  | item a _ ih => exact .item a ih

theorem bind {f : α → Trace β} (ht : t.FailsOnly E) (hf : ∀ a ∈ t.items, (f a).FailsOnly E) :
    (t.bind f).FailsOnly E := by
  induction ht with
  | stop => exact .stop
  | fail he => exact .fail he
  | event e _ ih => exact .event e (ih hf)
  | item a _ ih =>
    obtain ⟨ha, hf⟩ := List.forall_mem_cons.mp hf
    exact ha.append (ih hf)

theorem visit {f : Nat → β → Trace α} {bs : List β} (hf : ∀ i, ∀ b ∈ bs, (f i b).FailsOnly E)
    (i : Nat) : (visit f i bs).FailsOnly E := by
  induction bs generalizing i with
  | nil => exact .stop
  | cons b bs ih =>
    exact (hf i b List.mem_cons_self).append
      (ih (fun j b hb => hf j b (List.mem_cons_of_mem _ hb)) (i + 1))

theorem ofBinding {x : Except QueryError (Option α)} (hx : Ends E (fun _ => True) x) :
    (ofBinding x).FailsOnly E := by
  rcases x with e | _ | a
  · exact .fail hx
  · exact .stop
  · exact .single a

theorem ofMap {r : Run β} {f : β → Trace α} (hr : r.FailsOnly E) (hf : ∀ b, (f b).FailsOnly E) :
    (ofRun (f <$> r)).FailsOnly E := by
  have hend : (ofOutcome (f <$> r).outcome).FailsOnly E := by
    rw [Run.outcome_map]
    unfold Run.FailsOnly Run.Ends at hr
    cases ho : r.outcome with
    | error e => exact .fail (by rwa [ho] at hr)
    | ok b => exact hf b
  unfold ofRun
  induction (f <$> r).events with
  | nil => exact hend
  | cons e es ih => exact .event e ih

theorem orElse (ht : t.FailsOnly E) (a : α) : (t.orElse a).FailsOnly E := by
  unfold Trace.orElse
  split_ifs
  · exact ht.append (.single a)
  · exact ht

theorem drain (ht : t.FailsOnly E) : t.drain.FailsOnly E := by
  induction ht with
  | stop => trivial
  | fail he => exact he
  | event e _ ih => exact Run.Ends.bind (P := fun _ => True) trivial fun _ _ => ih
  | item a _ ih => exact ih

/-- A run of a trace fails as the trace or as what is done with the items, and what this keeps holds
in the end. -/
theorem run {next : α → σ → Run (ForInStep σ)} {I : σ → Prop} (ht : t.FailsOnly E)
    (hn : ∀ a ∈ t.items, ∀ s, I s → (next a s).Ends E fun step => I step.value) {s : σ} (hs : I s) :
    (t.run next s).Ends E fun step => I step.value := by
  induction ht generalizing s with
  | stop => exact hs
  | fail he => exact he
  | event e _ ih => exact Run.Ends.bind (P := fun _ => True) trivial fun _ _ => ih hn hs
  | item a _ ih =>
    obtain ⟨ha, hn⟩ := List.forall_mem_cons.mp hn
    refine (ha s hs).bind fun step hstep => ?_
    cases step with
    | done s => exact hstep
    | yield s => exact ih hn hstep

end FailsOnly

end Trace

/-! ### Bindings -/

/-- Whether a variable may be bound: it is declared, or the error that it is not is expected. -/
def Query.Admits (q : Query) (E : QueryError → Prop) (v : Variable) : Prop :=
  v ∈ q.vars ∨ E (.unknownVariable v)

/-- Binding an undeclared variable is an error, and there is no other one. -/
theorem Environment.ends_bind {q : Query} {v : Variable} (hv : q.Admits E v) (env : Environment)
    (t : Term) : Ends E (fun _ => True) (env.bind q v t) := by
  unfold bind
  cases hs : q.slot? v with
  | none => exact hv.resolve_left (Query.slot_eq_none.mp hs)
  | some slot =>
    dsimp only
    split <;> trivial

namespace Context

variable {c : Context} {env : Environment} {o : Occurrence}

theorem ends_bind {v : Variable} (hv : c.query.Admits E v) (env : Environment) (t : Term) :
    Ends E (fun _ => True) (env.bind? c.query v t) :=
  (Environment.ends_bind hv env t).bind fun r _ => by cases r <;> trivial

theorem ends_bindStart {n : NodePattern} (hn : ∀ v ∈ n.vars, c.query.Admits E v) (t : Term) :
    Ends E (fun _ => True) (c.bindStart n t env) := by
  cases n with
  | const u => trivial
  | var v => exact ends_bind (NodePattern.forall_mem_vars.mp hn) env t

theorem ends_bindPosition {position : Position} {n : NodePattern}
    (hn : ∀ v ∈ n.vars, c.query.Admits E v) :
    Ends E (fun _ => True) (c.bindPosition o position n env) := by
  unfold bindPosition
  cases o.node position with
  | none => trivial
  | some actual =>
    cases n with
    | const t => trivial
    | var v =>
      dsimp only
      cases env.get? c.query v with
      | some t => trivial
      | none => exact ends_bind (NodePattern.forall_mem_vars.mp hn) env _

theorem ends_bindPositions {ps : List (Position × NodePattern)}
    (hps : ∀ p ∈ ps, ∀ v ∈ p.2.vars, c.query.Admits E v) :
    Ends E (fun _ => True) (c.bindPositions o ps env) := by
  induction ps generalizing env with
  | nil => trivial
  | cons p ps ih =>
    obtain ⟨hp, hps⟩ := List.forall_mem_cons.mp hps
    rw [bindPositions]
    refine (ends_bindPosition hp).bind fun r _ => ?_
    cases r with
    | none => trivial
    | some e => exact ih hps

theorem ends_bindEdge {e : EdgePattern} {g : Option NodePattern}
    (he : ∀ v ∈ e.vars, c.query.Admits E v) (hg : ∀ n, g = some n → ∀ v ∈ n.vars, c.query.Admits E v) :
    Ends E (fun _ => True) (c.bindEdge e g o env) := by
  simp only [EdgePattern.vars, List.forall_mem_append] at he
  obtain ⟨⟨hs, hp⟩, ho⟩ := he
  rw [bindEdge_eq_bindStart]
  refine (ends_bindStart hp _).bind fun r _ => ?_
  cases r with
  | none => trivial
  | some e =>
    refine ends_bindPositions (List.forall_mem_append.mpr ⟨?_, fun p hm => ?_⟩)
    · simp only [List.forall_mem_cons, List.not_mem_nil, false_implies, implies_true, and_true]
      exact ⟨hs, ho⟩
    · obtain ⟨n, hn, rfl⟩ := Option.map_eq_some_iff.mp (Option.mem_toList.mp hm)
      exact hg n hn

theorem ends_bindRow {cells : List (Variable × Option Term)}
    (hv : ∀ cell ∈ cells, c.query.Admits E cell.1) :
    Ends E (fun _ => True) (c.bindRow cells env) := by
  induction cells generalizing env with
  | nil => trivial
  | cons cell cells ih =>
    obtain ⟨hcell, hcells⟩ := List.forall_mem_cons.mp hv
    obtain ⟨v, _ | t⟩ := cell
    · exact ih hcells
    · rw [bindRow]
      refine (ends_bind hcell env _).bind fun r _ => ?_
      cases r with
      | none => trivial
      | some e => exact ih hcells

theorem failsOnly_traceEnds {target : NodePattern} (ht : ∀ v ∈ target.vars, c.query.Admits E v)
    (reached : List Term) : (c.traceEnds target reached env).FailsOnly E := by
  refine .visit (fun i t _ => ?_) 0
  cases target with
  | const u =>
    dsimp only
    split_ifs
    · exact .single _
    · exact .stop
  | var v => exact .ofBinding (ends_bind (NodePattern.forall_mem_vars.mp ht) _ t)

theorem failsOnly_tracePath {p : PathPattern} (hp : ∀ v ∈ p.vars, c.query.Admits E v) :
    (c.tracePath p env).FailsOnly E := by
  obtain ⟨hs, ho⟩ := List.forall_mem_append.mp hp
  have hends : (∀ v ∈ (c.walk p env).2.2.1.vars, c.query.Admits E v) ∧
      ∀ v ∈ (c.walk p env).2.2.2.vars, c.query.Admits E v := by
    rcases c.walk_ends p env with ⟨h₁, h₂⟩ | ⟨h₁, h₂⟩
    · exact ⟨h₁ ▸ hs, h₂ ▸ ho⟩
    · exact ⟨h₁ ▸ ho, h₂ ▸ hs⟩
  rw [tracePath]
  exact .visit (fun i t _ => (Trace.FailsOnly.ofBinding (ends_bindStart hends.1 t)).bind fun e _ =>
    failsOnly_traceEnds hends.2 _) 0

end Context

/-! ### Expressions -/

variable {c : Context} {A : Request → Prop} {h : Hooks} {env : Environment}

/-- Whether the variables of the graph in force may be bound. -/
def Context.AdmitsGraph (c : Context) (E : QueryError → Prop) (env : Environment) : Prop :=
  ∀ n, env.graph = some n → ∀ v ∈ n.vars, c.query.Admits E v

/-- Whether what is asked for among some requests fails with some kinds of errors only. -/
structure Hooks.FailOnly (c : Context) (E : QueryError → Prop) (A : Request → Prop) (h : Hooks) :
    Prop where
  existence : ∀ {id}, A (.existence id) → ∀ env, c.AdmitsGraph E env →
    (c.exists? h id env).FailsOnly E
  call : ∀ {site name count d}, A (.call site name count) →
    (c.resolve site name count).outcome = .ok (some d) → ∀ env, c.AdmitsGraph E env →
      (h.body d.body env).FailsOnly E

theorem Scope.failsOnly_resolve (c : Scope) (site : Nat) (name : Iri) (count : Nat) :
    (c.resolve site name count).FailsOnly E := by
  unfold resolve
  split
  · trivial
  · split
    · trivial
    · exact Run.Ends.bind (P := fun _ => True) trivial fun _ _ => trivial

theorem Hooks.FailOnly.simulates (hh : h.FailOnly c E A) :
    c.Simulates (fun _ r _ => r.FailsOnly E)
      (fun l a b => l = [] ∧ a = b ∧ c.AdmitsGraph E a) A c.toScope h h where
  congruence := Run.congruence_failsOnly E
  vars := rfl
  choose i h := ⟨h.1, by rw [h.2.1], h.2.2⟩
  setLocal v t _ h := ⟨by rw [h.1]; rfl, by rw [h.2.1], h.2.2⟩
  enclosed h := by
    obtain ⟨rfl, rfl, hg⟩ := h
    exact ⟨⟨rfl, rfl, hg⟩, ⟨rfl, rfl, hg⟩⟩
  solution i h _ _ := ⟨rfl, by rw [h.2.1], fun n hn => by cases hn⟩
  existence ha h := hh.existence ha _ h.2.2
  call {a b site name ts} ha h := by
    refine Run.Ends.bind (Run.Ends.of_ok (c.failsOnly_resolve site name ts.length) fun _ hd => hd)
      fun d hd => ?_
    cases d with
    | none => trivial
    | some d =>
      dsimp only
      split_ifs
      · trivial
      · exact hh.call ha hd _ h.2.2
  snapshot _ h := by rw [h.2.1]

theorem Expr.failsOnly_eval (hh : h.FailOnly c E A) {e : Expr} (he : ∀ r ∈ e.requests, A r)
    (hg : c.AdmitsGraph E env) : (e.eval c.toScope h env).FailsOnly E :=
  e.eval_related hh.simulates [] env env
    ⟨⟨fun _ _ => rfl, fun _ => rfl⟩, he, fun _ => ⟨rfl, rfl, hg⟩⟩

theorem Expr.failsOnly_test (hh : h.FailOnly c E A) {e : Expr} (he : ∀ r ∈ e.requests, A r)
    (hg : c.AdmitsGraph E env) : (e.test c.toScope h env).FailsOnly E :=
  (e.failsOnly_eval hh he hg).bind fun _ _ => trivial

/-! ### Patterns -/

namespace Pattern

theorem failsOnly_keepIf (env : Environment) (b : Bool) : (keepIf env b).FailsOnly E := by
  cases b
  · exact .stop
  · exact .single env

/-- Graphs in force behind a pattern are those around it or those of its graph clauses. -/
theorem admitsGraph_of_trace {p : Pattern} (hv : ∀ v ∈ p.mayBind, c.query.Admits E v)
    (hg : c.AdmitsGraph E env) {e : Environment} (he : e ∈ (p.trace c h env).items) :
    c.AdmitsGraph E e := by
  have hstable : Environment.Stable c.query (fun _ => True) (fun _ => True) (c.AdmitsGraph E) :=
    ⟨fun _ _ h => h, fun e v t e' _ _ h hb n hn => h n (Environment.graph_of_bind hb ▸ hn),
      fun _ _ _ _ _ _ => trivial⟩
  refine kept_of_names hstable c.supplies_any p env (fun _ _ => trivial)
    (fun n hn _ _ m hm v hvm => ?_) hg e he
  obtain rfl := Option.some.inj hm
  exact hv v (p.mayBind_of_mem_graphNames hn hvm)

theorem failsOnly_traceAll {ps : List Pattern} (hv : ∀ p ∈ ps, ∀ v ∈ p.mayBind, c.query.Admits E v)
    (hps : ∀ p ∈ ps, ∀ env, c.AdmitsGraph E env → (p.trace c h env).FailsOnly E)
    (hg : c.AdmitsGraph E env) : (trace.traceAll c h ps env).FailsOnly E := by
  induction ps generalizing env with
  | nil => exact .single env
  | cons p ps ih =>
    obtain ⟨hp, hps⟩ := List.forall_mem_cons.mp hps
    obtain ⟨hvp, hvs⟩ := List.forall_mem_cons.mp hv
    exact (hp env hg).bind fun e he => ih hvs hps (admitsGraph_of_trace hvp hg he)

/-- A pattern fails as what its expressions ask for, or on a variable that it binds, or that a graph
around it has. -/
theorem failsOnly_trace (hh : h.FailOnly c E A) (p : Pattern) (env : Environment)
    (hr : ∀ r ∈ p.requests, A r) (hv : ∀ v ∈ p.mayBind, c.query.Admits E v)
    (hg : c.AdmitsGraph E env) : (p.trace c h env).FailsOnly E := by
  cases p with
  | edge e =>
    rw [trace]
    exact .visit (fun i o _ => .ofBinding ((Context.ends_bindEdge hv hg).map fun _ _ => trivial)) 0
  | path p =>
    rw [trace]
    exact Context.failsOnly_tracePath hv
  | values vs rows =>
    rw [trace]
    exact .visit (fun i row _ => .ofBinding ((Context.ends_bindRow fun cell hm =>
      hv _ (List.of_mem_zip hm).1).map fun _ _ => trivial)) 0
  | sequence items =>
    rw [trace]
    have hbound : ∀ p ∈ items, ∀ v ∈ p.mayBind, c.query.Admits E v := fun p hm v hvp =>
      hv v (mem_listMayBind.mpr ⟨p, hm, hvp⟩)
    refine failsOnly_traceAll hbound (fun p hm env hg => ?_) hg
    have := List.sizeOf_lt_of_mem hm
    exact failsOnly_trace hh p env (fun r hrp => hr r (mem_listRequests.mpr ⟨p, hm, hrp⟩))
      (hbound p hm) hg
  | optional l r condition =>
    simp only [requests, List.forall_mem_append] at hr
    obtain ⟨⟨hrl, hrr⟩, hrc⟩ := hr
    obtain ⟨hvl, hvr⟩ := List.forall_mem_append.mp hv
    rw [trace]
    refine (failsOnly_trace hh l env hrl hvl hg).bind fun e he => ?_
    have hge : c.AdmitsGraph E (e.choose 0) := admitsGraph_of_trace (e := e) hvl hg he
    have hright := failsOnly_trace hh r (e.choose 0) hrr hvr hge
    refine Trace.FailsOnly.orElse (hright.bind fun m hm => .ofMap ?_ (failsOnly_keepIf m)) _
    cases condition with
    | none => trivial
    | some e => exact e.failsOnly_test hh hrc (admitsGraph_of_trace hvr hge hm)
  | union l r =>
    simp only [requests, List.forall_mem_append] at hr
    obtain ⟨hvl, hvr⟩ := List.forall_mem_append.mp hv
    rw [trace]
    exact (failsOnly_trace hh l (env.choose 0) hr.1 hvl hg).append
      (failsOnly_trace hh r (env.choose 1) hr.2 hvr hg)
  | minus l r =>
    simp only [requests, List.forall_mem_append] at hr
    obtain ⟨hvl, hvr⟩ := List.forall_mem_append.mp hv
    have hleft := failsOnly_trace hh l (env.choose 1) hr.1 hvl hg
    have hright := failsOnly_trace hh r (apart c env) hr.2 hvr hg
    rw [trace]
    exact .ofMap hright.drain fun _ => hleft.bind fun e _ => failsOnly_keepIf e _
  | filter e =>
    rw [trace]
    exact .ofMap (e.failsOnly_test hh hr hg) (failsOnly_keepIf _)
  | bind v e =>
    rw [trace]
    refine .ofMap (e.failsOnly_eval hh hr hg) fun t => ?_
    cases t with
    | none => exact .single _
    | some t => exact .ofBinding (Context.ends_bind (hv v List.mem_cons_self) _ _)
  | graph name inner =>
    obtain ⟨hvn, hvi⟩ := List.forall_mem_append.mp hv
    have hin : ∀ e : Environment, e.graph = some name → (inner.trace c h e).FailsOnly E := by
      refine fun e he => failsOnly_trace hh inner e hr hvi fun n hn => ?_
      obtain rfl := Option.some.inj (he.symm.trans hn)
      exact hvn
    cases name with
    | const t =>
      rw [trace]
      exact hin _ rfl
    | var v =>
      rw [trace]
      change (ite _ _ _ : Trace Environment).FailsOnly E
      split_ifs
      · refine .visit (fun i g _ => ?_) 0
        have hbind := Context.ends_bind (NodePattern.forall_mem_vars.mp hvn)
          (({ env with graph := some (.var v) } : Environment).choose i) g.term
        exact (Trace.FailsOnly.ofBinding hbind).bind fun e he =>
          hin e (Environment.graph_of_bind (Trace.mem_of_ofBinding he))
      · exact hin _ rfl
termination_by sizeOf p

end Pattern

end GraphQuery
