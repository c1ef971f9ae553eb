import GraphQuery.Proofs.Evaluate.Shadowing

/-! Existence under local values. A pattern whose existence is asked for has a solution under local
values exactly if it has one with the values in the places of their variables, unless a variable
that the query has bound to something else, or not at all, stands where the local value is passed
over. -/

namespace GraphQuery

open Environment

/-! ### Snapshots -/

namespace Environment

variable {q : Query} {env : Environment}

/-- The environment in which a registered pattern is asked for. -/
def restored (env : Environment) (q : Query) : Environment :=
  { restore q env.solution env.locals env.graph with trail := env.trail }

theorem binding_restored (env : Environment) (q : Query) (v : Variable) :
    (env.restored q).binding? q v = env.binding? q v := by
  rw [binding?, binding?]
  cases hv : q.slot? v with
  | none => rfl
  | some i =>
    have hi := Query.slot_lt hv
    simp only [Option.bind_some, restored, restore, solution]
    rcases lt_or_ge i env.bindings.length with hlt | hge
    · rw [List.getElem?_append_left (by simp [hi, hlt]), List.getElem?_take, if_pos hi]
    · rw [List.getElem?_append_right (by simp [hge]), List.getElem?_replicate,
        List.getElem?_eq_none hge]
      split_ifs <;> rfl

theorem length_restored (env : Environment) (q : Query) :
    (env.restored q).bindings.length = q.vars.length := by
  simp only [restored, restore, solution, List.length_append, List.length_take,
    List.length_replicate]
  omega

theorem restored_eq (hl : env.bindings.length = q.vars.length) (hg : env.group = none) :
    env.restored q = env := by
  obtain ⟨bindings, locals, graph, group, trail⟩ := env
  obtain rfl : group = none := hg
  have hb : bindings.take q.vars.length ++
      List.replicate (q.vars.length - bindings.length) none = bindings := by
    rw [List.take_of_length_le hl.le, hl, Nat.sub_self, List.replicate_zero, List.append_nil]
  rw [restored, restore, solution]
  simp only [hb]

theorem length_unbind (env : Environment) (q : Query) (vs : List Variable) :
    (env.unbind q vs).bindings.length = env.bindings.length := by
  unfold unbind
  dsimp only
  generalize env.bindings = bs
  induction vs.filterMap q.slot? generalizing bs with
  | nil => rfl
  | cons i slots ih => rw [List.foldl_cons, ih, List.length_set]

theorem unbind_cons (env : Environment) (q : Query) (v : Variable) (vs : List Variable) :
    env.unbind q (v :: vs) = (env.unbind q [v]).unbind q vs := by
  cases hv : q.slot? v <;> simp [unbind, hv]

theorem binding_unbind (env : Environment) (q : Query) (vs : List Variable) (w : Variable) :
    (env.unbind q vs).binding? q w = if w ∈ vs then none else env.binding? q w := by
  induction vs generalizing env with
  | nil => rfl
  | cons v vs ih =>
    have hone : (env.unbind q [v]).binding? q w = if w = v then none else env.binding? q w := by
      rw [binding?, binding?]
      cases hw : q.slot? w with
      | none => simp
      | some j =>
        cases hv : q.slot? v with
        | none =>
          have hne : w ≠ v := fun h => by rw [h, hv] at hw; cases hw
          simp [unbind, hv, hne]
        | some i =>
          by_cases hwv : w = v
          · obtain rfl : j = i := Option.some.inj (hw.symm.trans (hwv ▸ hv))
            simp only [unbind, hv, hwv, List.filterMap_cons, List.filterMap_nil, List.foldl_cons,
              List.foldl_nil, Option.bind_some, List.getElem?_set, if_true]
            split_ifs <;> rfl
          · have hij : i ≠ j := fun h => hwv (Query.slot_injective hw (h ▸ hv))
            simp [unbind, hv, hwv, hij]
    rw [unbind_cons, ih, hone]
    by_cases hwv : w = v <;> simp [hwv]

/-- Only what is bound to variables without local values, and nothing local. -/
def unshadowed (env : Environment) (q : Query) : Environment :=
  let graph := env.graph.map (·.substitute env.locals)
  let env' : Environment := { env.restored q with locals := [], graph }
  env'.unbind q (env.locals.map (·.1))

theorem binding_unshadowed (env : Environment) (q : Query) (v : Variable) :
    (env.unshadowed q).binding? q v =
      if env.locals.get? v = none then env.binding? q v else none := by
  rw [unshadowed, binding_unbind]
  have hv : Environment.binding? _ q v = env.binding? q v := env.binding_restored q v
  simp only [Locals.get_eq_none, ite_not, ← hv]
  rfl

end Environment

/-! ### Whether there is a solution -/

namespace Trace

/-- Whether a trace has an item, which ends its run. -/
theorem run_collect_first (t : Trace Environment) :
    (t.run (Context.collect (some 1)) [] >>= fun found => pure !found.value.isEmpty) =
      t.run (fun _ _ => pure (.done true)) false >>= fun found => pure found.value := by
  induction t with
  | stop => rfl
  | fail e => rfl
  | event e t ih =>
    rw [run, run, bind_assoc, bind_assoc]
    exact bind_congr fun _ => ih
  | item a t ih => rfl

end Trace

namespace Context

variable {c : Context}

/-- A pattern has a solution if it hands anything on. -/
theorem hasSolution_eq (depth : Nat) (p : Pattern) (m : Environment) :
    (c.hooks (depth + 1)).hasSolution p m = (do
      let found ← p.solve c (c.hooks depth) m (fun _ _ => pure (.done true)) false
      pure found.value) := by
  rw [hasSolution_hooks, Pattern.solve_eq_run, Pattern.solve_eq_run]
  exact Trace.run_collect_first _

end Context

/-! ### What is asked for -/

/-- Whether a variable may get another local value. -/
def Overlay.Replaceable (x : Overlay) (v : Variable) : Prop :=
  x.locals.get? v = none ∨ ¬ x.starts v ∧ ¬ x.graphs v

theorem Overlay.Replaceable.inner {x : Overlay} {v : Variable} (h : x.Replaceable v) :
    x.inner.Replaceable v := by
  rcases h with hn | ⟨hs, hg⟩
  · exact .inl hn
  · by_cases hn : x.locals.get? v = none
    · exact .inl hn
    · exact .inr ⟨fun h => h.elim hn hs, hg⟩

/-- Local values, and requests that lead to no pattern and to no function where the local values
would be passed over. Where something else is asked for, only variables may get other local values
that never stand where it matters. -/
structure Scope.Covers (c : Scope) (x : Overlay) (A : Request → Prop) : Prop where
  scope : ∀ v, A (.scope v) → x.Replaceable v
  snapshot : ∀ target, ¬ A (.snapshot target)
  existence : ∀ id p, A (.existence id) → c.query.pattern? id = some p →
    p.Shadowable x.inner ∧ ∀ r ∈ p.requests, A r
  call : ∀ site name count d, A (.call site name count) →
    (c.resolve site name count).outcome = .ok (some d) →
      (d.body.requests = [] ∨ ∀ v ∈ d.parameters, x.Replaceable v) ∧
        ∀ r ∈ d.body.requests, A r

namespace Environment.Shadows

variable {q : Query} {x : Overlay} {s : Locals} {a b : Environment} {v : Variable}

theorem setLocal (h : Shadows q x s a b) (hv : x.Replaceable v) (t : Term) :
    Shadows q x (s.without v) (a.setLocal v t) (b.setLocal v t) where
  length := h.length
  length' := h.length'
  part {w u} hw := by
    rw [Locals.get_without] at hw
    split_ifs at hw
    exact h.part hw
  overlay {w u} hw := by
    change ∃ u', (a.locals.push v t).get? w = some u' ∧ _
    rw [Locals.get_push]
    split_ifs with hvw
    · refine ⟨t, rfl, fun hstands => ?_⟩
      subst hvw
      rcases hv with hn | ⟨hs, hg⟩
      · cases hn.symm.trans hw
      · exact (hstands.elim hs hg).elim
    · exact h.overlay hw
  locals w := by
    have hpush := fun e : Environment => Locals.get_push e.locals v w t
    change (a.locals.push v t).get? w = ((s.without v).get? w).or ((b.locals.push v t).get? w)
    rw [hpush, hpush, Locals.get_without, h.locals w]
    by_cases hvw : v = w
    · rw [if_pos hvw, if_pos hvw, if_pos hvw.symm, Option.none_or]
    · rw [if_neg hvw, if_neg hvw, if_neg (Ne.symm hvw)]
  slots := h.slots
  starts := h.starts
  ends {w u} he hw := by
    have hwv : w ≠ v := fun hwv => by
      subst hwv
      rcases hv with hn | ⟨hs, -⟩
      · cases hn.symm.trans hw
      · exact hs (x.ends_starts w he)
    rw [Locals.get_without, if_neg hwv]
    exact h.ends he hw
  graph := h.graph.imp_left fun hg => by
    change b.graph = a.graph.map _
    rw [hg]
    cases hn : a.graph with
    | none => rfl
    | some n =>
      refine congrArg some ?_
      dsimp only
      cases n with
      | const u => rfl
      | var w =>
        have hwg : x.graphs w := NodePattern.forall_mem_vars.mp (h.graphs _ hn)
        have hw : (s.without v).get? w = s.get? w := by
          rw [Locals.get_without]
          split_ifs with hwv
          · rw [hwv] at hwg ⊢
            exact (h.part_none (hv.resolve_right fun hr => hr.2 hwg)).symm
          · rfl
        cases hs : s.get? w with
        | none =>
          rw [NodePattern.substitute_of_free hs, NodePattern.substitute_of_free (hw.trans hs)]
        | some u =>
          rw [NodePattern.substitute_of_local hs, NodePattern.substitute_of_local (hw.trans hs)]
  graphs := h.graphs
  group := h.group
  group' := h.group'

theorem inner (h : Shadows q x s a b) : Shadows q x.inner s a b where
  length := h.length
  length' := h.length'
  part := h.part
  overlay {v t} hx := by
    obtain ⟨u, hu, ht⟩ := h.overlay hx
    refine ⟨u, hu, fun hv => ht (hv.imp_left fun hs => ?_)⟩
    exact hs.resolve_left fun hn => by cases hn.symm.trans hx
  locals := h.locals
  slots := h.slots
  starts hs hx := by
    rcases hs with hn | hs
    · cases hn.symm.trans hx
    · exact h.starts hs hx
  ends hn hx := by cases hn.symm.trans hx
  graph := h.graph
  graphs := h.graphs
  group := h.group
  group' := h.group'

/-- Values that stand in the places of variables may be local as well. -/
theorem enclosed (h : Shadows q x.inner s a b) :
    Shadows q x.inner s a (b.enclosed s) ∧ Shadows q x.inner [] a (b.enclosed s) := by
  obtain ⟨trail, he⟩ := b.enclosed_eq s
  have hlocals : ∀ v, (b.enclosed s).locals.get? v = (s.get? v).or (b.locals.get? v) := by
    intro v
    rw [he, Locals.get_append, Locals.get_map]
    cases hs : s.get? v with
    | none => rfl
    | some t => exact congrArg (fun u => Option.or (some u) _) (isCanonical (h.part hs))
  have hslots : ∀ v, (b.enclosed s).binding? q v = b.binding? q v := fun v => by
    rw [he]
    rfl
  have hgraph : (b.enclosed s).graph = b.graph := by rw [he]
  have hall : ∀ s' : Locals, (∀ {v t}, s'.get? v = some t → s.get? v = some t) →
      (b.graph = a.graph.map (·.substitute s') ∨ b.graph = a.graph.map (·.substitute x.locals)) →
      Shadows q x.inner s' a (b.enclosed s) := fun s' hs' hg =>
    { length := h.length
      length' := by
        rw [he]
        exact h.length'
      part := fun hv => h.part (hs' hv)
      overlay := h.overlay
      locals := fun v => by
        rw [hlocals, h.locals v]
        cases hv : s'.get? v with
        | none => rfl
        | some t => rw [hs' hv]; rfl
      slots := fun hv => (h.slots hv).trans (hslots _).symm
      starts := fun hs hx u => ⟨(h.starts hs hx u).1,
        fun hu => (h.starts hs hx u).2 ((hslots _).symm.trans hu)⟩
      ends := fun hn hx => by cases hn.symm.trans hx
      graph := by
        rw [hgraph]
        exact hg
      graphs := h.graphs
      group := h.group
      group' := by
        rw [he]
        exact h.group' }
  refine ⟨hall s id h.graph, hall [] (fun hv => by cases hv) ?_⟩
  -- The place of the graph has a local value now, or has none.
  rcases h.graph_cases with ⟨ha, hb⟩ | ⟨n, n', ha, hb, hp⟩
  · exact .inl (by rw [ha, hb]; rfl)
  · rw [ha, hb]
    rcases h.place_cases hp with rfl | ⟨v, t, rfl, rfl, hx⟩
    · exact .inl (congrArg some (n'.substitute_nil).symm)
    · exact .inr (congrArg some (NodePattern.substitute_of_local hx).symm)

/-- More may be local on both sides. -/
theorem pushAll (h : Shadows q x [] a b) (ps : List (Variable × Term))
    (hv : ∀ p ∈ ps, x.Replaceable p.1) :
    Shadows q x []
      { a with locals := ps.foldl (fun l p => l.push p.1 p.2.canonical) a.locals }
      { b with locals := ps.foldl (fun l p => l.push p.1 p.2.canonical) b.locals } := by
  induction ps generalizing a b with
  | nil => exact h
  | cons p ps ih =>
    obtain ⟨hp, hps⟩ := List.forall_mem_cons.mp hv
    exact ih (h.setLocal hp p.2.canonical) hps

end Environment.Shadows

theorem Environment.AgreeUpTo.pushAll {q : Query} {e : Expr} {a b : Environment}
    (h : AgreeUpTo q [] e a b) (ps : List (Variable × Term)) :
    AgreeUpTo q [] e
      { a with locals := ps.foldl (fun l p => l.push p.1 p.2.canonical) a.locals }
      { b with locals := ps.foldl (fun l p => l.push p.1 p.2.canonical) b.locals } := by
  induction ps generalizing a b with
  | nil => exact h
  | cons p ps ih => exact ih (h.setLocal p.1 p.2.canonical)

/-- Whether what is asked for is answered alike under the same local values. -/
structure Hooks.Agree (c : Scope) (x : Overlay) (A : Request → Prop) (h : Hooks) : Prop where
  plain : ∀ {e a b}, e.requests = [] → AgreeUpTo c.query [] e a b → h.body e a = h.body e b
  body : ∀ {site name count d a b}, A (.call site name count) →
    (c.resolve site name count).outcome = .ok (some d) → Shadows c.query x.inner [] a b →
      h.body d.body a = h.body d.body b
  hasSolution : ∀ {id p a b}, A (.existence id) → c.query.pattern? id = some p →
    Shadows c.query x.inner [] a b → h.hasSolution p a = h.hasSolution p b

theorem Scope.Covers.simulates {c : Scope} {x : Overlay} {A : Request → Prop} {h : Hooks}
    (hA : c.Covers x A) (hh : h.Agree c x A) :
    c.Simulates (fun _ => Eq) (Shadows c.query x.inner) A c h h where
  congruence := Run.congruence_eq
  vars := rfl
  choose i hR := hR.choose i
  setLocal v t hv hR := hR.setLocal (hA.scope v hv).inner t
  enclosed hR := hR.enclosed
  solution i hR hg := by cases hR.group.symm.trans hg
  existence {a b id} hid hR := by
    unfold Scope.exists?
    cases hp : c.query.pattern? id with
    | none => rfl
    | some p =>
      dsimp only
      rw [← Environment.restored, ← Environment.restored, Environment.restored_eq hR.length hR.group,
        Environment.restored_eq hR.length' hR.group', hh.hasSolution hid hp hR]
  call {a b site name ts} hc hR := by
    unfold Scope.call
    refine Run.bind_congr_of_ok fun r hr => ?_
    cases r with
    | none => rfl
    | some d =>
      dsimp only
      split_ifs
      · rfl
      · rcases (hA.call site name ts.length d hc hr).1 with hd | hd
        · exact hh.plain hd (hR.agreeUpTo.pushAll (d.parameters.zip ts))
        · exact hh.body hc hr (hR.pushAll (d.parameters.zip ts) fun p hp =>
            (hd p.1 (List.of_mem_zip hp).1).inner)
  snapshot hs := absurd hs (hA.snapshot _)

namespace Context

variable {c : Context} {x : Overlay} {A : Request → Prop}

theorem eval_shadowed (hA : c.Covers x A) {h : Hooks} (hh : h.Agree c.toScope x A) {e : Expr}
    (he : ∀ r ∈ e.requests, A r) {s : Locals} {a b : Environment}
    (hR : Shadows c.query x.inner s a b) :
    e.eval c.toScope h a = (e.substitute s).eval c.toScope h b :=
  Expr.eval_related (hA.simulates hh) e s a b ⟨hR.agreeUpTo, he, fun _ => hR⟩

theorem hasSolution_shadowed (hs : c.source.store.Valid) {depth : Nat} {p : Pattern}
    (hX : ∀ e : Expr, (∀ r ∈ e.requests, A r) → ∀ {s a b}, Shadows c.query x s a b →
      e.eval c.toScope (c.hooks depth) a = (e.substitute s).eval c.toScope (c.hooks depth) b)
    (hp : p.Shadowable x) (hv : ∀ v ∈ p.vars, v ∈ c.query.vars) (hr : ∀ r ∈ p.requests, A r)
    {s : Locals} {a b : Environment} (hR : Shadows c.query x s a b) :
    (c.hooks (depth + 1)).hasSolution p a =
      (c.hooks (depth + 1)).hasSolution (p.substitute s) b := by
  have hdone : ∀ a b, Shadows c.query x s a b → ∀ found : Bool,
      (pure (.done true) : Run (ForInStep Bool)) = pure (.done true) := fun _ _ _ _ => rfl
  rw [hasSolution_eq, hasSolution_eq, Pattern.solvedAlike_shadowed hs p x A hX hp hv hr _ _ hR hdone]

/-- However deep the references go. -/
theorem agree_hooks (hs : c.source.store.Valid) (hA : c.Covers x A)
    (hv : ∀ id p, c.query.pattern? id = some p → ∀ v ∈ p.vars, v ∈ c.query.vars) (depth : Nat) :
    (c.hooks depth).Agree c.toScope x A := by
  induction depth with
  | zero => exact ⟨fun _ _ => rfl, fun _ _ _ => rfl, fun _ _ _ => rfl⟩
  | succ depth ih =>
    refine ⟨fun {e a b} he hab => ?_, fun {site name count d a b} hc hr hR => ?_,
      fun {id p a b} hid hp hR => ?_⟩
    · have hsame : Run.Same (e.eval c.toScope (c.hooks depth) a)
          ((e.substitute []).eval c.toScope (c.hooks depth) b) :=
        Expr.eval_substitute_same he hab
      rw [Expr.substitute_nil] at hsame
      exact hsame.eq
    · have he := eval_shadowed hA ih (hA.call site name count d hc hr).2 hR
      rwa [Expr.substitute_nil] at he
    · obtain ⟨hshadow, hreq⟩ := hA.existence id p hid hp
      have hsame := hasSolution_shadowed hs (fun e he _ _ _ hR => eval_shadowed hA ih he hR)
        hshadow (hv id p hp) hreq hR
      rwa [Pattern.substitute_nil] at hsame

end Context

/-! ### Existence -/

/-- A registered pattern declares its variables. -/
theorem Query.mem_vars_of_pattern {q : Query} {id : Nat} {p : Pattern}
    (hp : q.pattern? id = some p) {v : Variable} (hv : v ∈ p.vars) : v ∈ q.vars := by
  rw [q.vars_eq]
  refine List.mem_eraseDups.mpr ?_
  simp only [QueryParts.occurrences, List.mem_append, List.mem_flatMap]
  exact .inl (.inl (.inl (.inl (.inl (.inr ⟨p, List.mem_of_getElem? hp, hv⟩)))))

/-- The local values of an environment. Variables that may get other local values may not stand where
it matters. Others may stand as a predicate or at the start of a path if they are free or bound to the
local value, and at the end of a path if they are bound to it. -/
def Overlay.of (q : Query) (env : Environment) (graphs replaceable : Variable → Prop)
    (canonical : ∀ b ∈ env.locals, b.2.IsCanonical) : Overlay where
  locals := env.locals
  starts v := env.locals.get? v = none ∨ ¬ replaceable v ∧
    (env.binding? q v = none ∨ env.binding? q v = env.locals.get? v)
  ends v := env.locals.get? v = none ∨ ¬ replaceable v ∧ env.binding? q v = env.locals.get? v
  graphs
  canonical
  ends_starts _ h := h.imp_right fun h => ⟨h.1, .inr h.2⟩

namespace Context

variable {c : Context} {id : Nat} {env : Environment} {p : Pattern}

/-- Whether the existence of a pattern is that of a solution with the local values in the places of
their variables, which extends what is bound to the other variables. -/
def LocalsShadow (c : Context) (id : Nat) (env : Environment) : Prop :=
  ∀ p, c.query.pattern? id = some p →
    ((c.evaluate (.existence id) env).outcome = .ok (some (.ofBool true)) ↔
      ((c.hooks c.depth).hasSolution (p.substitute env.locals)
        (env.unshadowed c.query)).outcome = .ok true)

theorem shadows_unshadowed (q : Query) (env : Environment) {graphs replaceable : Variable → Prop}
    (hc : ∀ b ∈ env.locals, b.2.IsCanonical)
    (hg : ∀ n, env.graph = some n → ∀ v ∈ n.vars, graphs v) :
    Shadows q (.of q env graphs replaceable hc) env.locals (env.restored q) (env.unshadowed q) where
  length := env.length_restored q
  length' := (length_unbind _ q _).trans (env.length_restored q)
  part hv := hv
  overlay {v t} hv := ⟨t, hv, fun _ => rfl⟩
  locals _ := Option.or_none.symm
  slots {v} hv := by
    rw [binding_restored, binding_unshadowed]
    exact (if_pos hv).symm
  starts {v t} hs hv u := by
    refine ⟨fun ha => ?_, fun hb => ?_⟩
    · rw [binding_restored] at ha
      rcases hs with hs | ⟨-, hs | hs⟩
      · cases hs.symm.trans hv
      · cases hs.symm.trans ha
      · exact Option.some.inj (ha.symm.trans (hs.trans hv))
    · rw [binding_unshadowed, if_neg fun hn => by cases hn.symm.trans hv] at hb
      cases hb
  ends {v t} he hv := by
    refine ⟨hv, (env.binding_restored q v).trans ?_⟩
    rcases he with he | ⟨-, he⟩
    · cases he.symm.trans hv
    · exact he.trans hv
  graph := .inl rfl
  graphs := hg
  group := rfl
  group' := rfl

theorem outcome_existence (h : Hooks) (hs : c.canSolve = true) (hp : c.query.pattern? id = some p) :
    (c.exists? h id env).outcome =
      (h.hasSolution p (env.restored c.query)).outcome.map fun b => some (.ofBool b) := by
  unfold Scope.exists?
  simp only [hp, hs, if_true]
  rw [← restored, Run.outcome_bind]
  cases (h.hasSolution p (env.restored c.query)).outcome <;> rfl

/-- Local values shadow the variables of a query in a pattern whose existence is asked for, if each
variable with a local value is free or bound to that value where it stands as a predicate or at the
start of a path, is bound to that value where it stands at the end of a path, and is not bound or
taken away by the pattern. -/
theorem localsShadow {entailment : Bool} {history : List Insertion}
    {graphs replaceable : Variable → Prop} {A : Request → Prop}
    (hstore : c.source.store = .after entailment history)
    (hsolve : c.canSolve = true) (hp : c.query.pattern? id = some p)
    (hc : ∀ b ∈ env.locals, b.2.IsCanonical)
    (hshadow : p.Shadowable (.of c.query env graphs replaceable hc)) (hr : ∀ r ∈ p.requests, A r)
    (hA : c.Covers (.of c.query env graphs replaceable hc) A)
    (hg : ∀ n, env.graph = some n → ∀ v ∈ n.vars, graphs v) : c.LocalsShadow id env := by
  intro p' hp'
  obtain rfl := Option.some.inj (hp.symm.trans hp')
  have hs : c.source.store.Valid := hstore ▸ (Store.contains_after entailment history).valid
  have hdeclared : ∀ id p, c.query.pattern? id = some p → ∀ v ∈ p.vars, v ∈ c.query.vars :=
    fun id p hp v hv => Query.mem_vars_of_pattern hp hv
  obtain ⟨depth, hdepth⟩ : ∃ depth, c.depth = depth + 1 :=
    Nat.exists_eq_succ_of_ne_zero (by unfold depth; omega)
  have hsame := hasSolution_shadowed hs
    (fun e he _ _ _ hR => eval_shadowed hA (agree_hooks hs hA hdeclared depth) he hR.inner)
    hshadow (hdeclared id p hp) hr (shadows_unshadowed c.query env hc hg)
  change (c.exists? (c.hooks c.depth) id env).outcome = _ ↔ _
  rw [outcome_existence _ hsolve hp, hdepth, hsame]
  cases ((c.hooks (depth + 1)).hasSolution (p.substitute env.locals)
      (env.unshadowed c.query)).outcome with
  | error e => exact ⟨(by cases ·), (by cases ·)⟩
  | ok b =>
    cases b with
    | true => exact ⟨fun _ => rfl, fun _ => rfl⟩
    | false =>
      refine ⟨fun h => ?_, (by cases ·)⟩
      have hne : Term.ofBool false ≠ .ofBool true := by decide
      exact absurd (Option.some.inj (Except.ok.inj h)) hne

/-- An edge between variables and a path from one of them, where the subject and the predicate have
local values. -/
theorem localsShadow_of_free :
    let edge : Quad := ⟨.iri ⟨"a"⟩, .iri ⟨"p"⟩, .iri ⟨"b"⟩, none⟩
    let p : Pattern := .sequence [.edge ⟨.var ⟨"x"⟩, .var ⟨"q"⟩, .var ⟨"y"⟩⟩,
      .path ⟨.var ⟨"x"⟩, .predicate ⟨"p"⟩, .var ⟨"y"⟩⟩, .filter (.bound ⟨"x"⟩)]
    let c : Context := { query := .ofParts { patterns := [p] },
                         source := { store := .after false [.extend [edge]] } }
    let env : Environment := { Environment.initial c.query with
      locals := [(⟨"x"⟩, .iri ⟨"a"⟩), (⟨"q"⟩, .iri ⟨"p"⟩)] }
    c.LocalsShadow 0 env ∧ c.query.pattern? 0 = some p := by
  intro edge p c env
  have hcanonical : ∀ b ∈ env.locals, b.2.IsCanonical :=
    List.forall_mem_cons.mpr ⟨rfl, List.forall_mem_singleton.mpr rfl⟩
  have hfree : ∀ v ∈ [(⟨"x"⟩ : Variable), ⟨"q"⟩], env.binding? c.query v = none :=
    List.forall_mem_cons.mpr ⟨rfl, List.forall_mem_singleton.mpr rfl⟩
  have hnone : ∀ v ∈ [(⟨"y"⟩ : Variable)], env.locals.get? v = none :=
    List.forall_mem_singleton.mpr rfl
  let x := Overlay.of c.query env (fun _ => True) (fun _ => False) hcanonical
  have hstarts : ∀ v ∈ [(⟨"x"⟩ : Variable), ⟨"q"⟩], x.starts v := fun v hv =>
    .inr ⟨fun h => h, .inl (hfree v hv)⟩
  obtain ⟨hx, hq⟩ := List.forall_mem_cons.mp hstarts
  have hshadow : p.Shadowable x :=
    ⟨hq, ⟨List.forall_mem_singleton.mpr hx, fun v hv => .inl (hnone v hv)⟩, trivial, trivial⟩
  have hcovers : c.Covers x fun _ => False :=
    ⟨fun _ h => h.elim, fun _ h => h, fun _ _ h => h.elim, fun _ _ _ _ h => h.elim⟩
  exact ⟨localsShadow rfl rfl rfl hcanonical hshadow (fun _ h => by cases h) hcovers
    (fun _ h => by cases h), rfl⟩

/-- A path from a node to a variable that has a local value, but is free in the query: the path finds
what it leads to, and it does not lead to the local value. -/
theorem not_localsShadow :
    let edge : Quad := ⟨.iri ⟨"a"⟩, .iri ⟨"p"⟩, .iri ⟨"b"⟩, none⟩
    let p : Pattern := .path ⟨.const (.iri ⟨"a"⟩), .predicate ⟨"p"⟩, .var ⟨"y"⟩⟩
    let c : Context := { query := .ofParts { patterns := [p] },
                         source := { store := .after false [.extend [edge]] } }
    let env : Environment := { Environment.initial c.query with locals := [(⟨"y"⟩, .iri ⟨"c"⟩)] }
    ¬ c.LocalsShadow 0 env := by
  intro edge p c env h
  have hsolve : ∀ p m, ((c.hooks c.depth).hasSolution p m).outcome =
      (p.solve c (c.hooks 20000) m (fun _ _ => pure (.done true)) false >>=
        fun found => pure found.value).outcome := fun p m => by
    have hdepth : c.depth = 20000 + 1 := by decide +kernel
    rw [hdepth, hasSolution_eq]
  have hfound : ((c.hooks c.depth).hasSolution p (env.restored c.query)).outcome = .ok true := by
    rw [hsolve]
    decide +kernel
  have hnone : ((c.hooks c.depth).hasSolution (p.substitute env.locals)
      (env.unshadowed c.query)).outcome = .ok false := by
    rw [hsolve]
    decide +kernel
  have hwhole := (h p rfl).mp ((outcome_existence _ rfl rfl).trans (congrArg _ hfound))
  cases hnone.symm.trans hwhole

end Context

end GraphQuery
