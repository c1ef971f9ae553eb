import GraphQuery.Proofs.Evaluate.Carrying

/-! Further variables. A query may declare variables behind those of another one with the same
patterns and functions. No pattern of the other query speaks of them, so their slots stay free, and
all that patterns hand on and expressions come to is the same but for the free slots. Without any
further variable it is the same, whatever else the queries are made of. -/

namespace GraphQuery

/-- Whether a query has the variables of another one, with further ones behind them, and evaluates
patterns and expressions in the same setting. What they make of solutions may differ. -/
structure Query.Widens (q' q : Query) (extra : List Variable) : Prop where
  vars : q'.vars = q.vars ++ extra
  patterns : q'.patterns = q.patterns
  functions : q'.functions = q.functions
  fromDefault : q'.fromDefault = q.fromDefault
  fromNamed : q'.fromNamed = q.fromNamed

/-- The same slots, and free ones behind them. -/
def Solution.padded (s : Solution) (k : Nat) : Solution := s.carried (· ++ List.replicate k none)

def Environment.padded (env : Environment) (k : Nat) : Environment :=
  env.carried (· ++ List.replicate k none)

/-- The slots of a query, if further variables follow, and patterns and graphs that name none of
these. -/
def Query.narrow (q : Query) (extra : List Variable) : Realm where
  slots bs := extra ≠ [] → bs.length = q.vars.length
  names v := v ∉ extra
  asks _ := True

/-- Whether an environment has the slots of a query, if further variables follow, and is in no graph
that one of these names. -/
abbrev Environment.Narrow (q : Query) (extra : List Variable) (env : Environment) : Prop :=
  env.Within (q.narrow extra)

/-! ### Free slots -/

theorem join_getElem?_padded (slots : List (Option Term)) (k i : Nat) :
    ((slots ++ List.replicate k none)[i]?).join = (slots[i]?).join := by
  by_cases hi : i < slots.length
  · rw [List.getElem?_append_left hi]
  · rw [List.getElem?_append_right (not_lt.mp hi), List.getElem?_replicate,
      List.getElem?_eq_none (not_lt.mp hi)]
    split_ifs <;> rfl

/-- Free slots on either side do not count where slots are compared. -/
theorem all_zip_padded {f : Option Term × Option Term → Bool} (hl : ∀ t, f (none, t) = true)
    (hr : ∀ t, f (t, none) = true) (as bs : List (Option Term)) (k : Nat) :
    ((as ++ List.replicate k none).zip (bs ++ List.replicate k none)).all f =
      (as.zip bs).all f := by
  have hfree : ∀ {n : Nat} {t : Option Term}, t ∈ List.replicate n none → t = none :=
    List.eq_of_mem_replicate
  induction as generalizing bs with
  | nil =>
    rw [List.nil_append, List.zip_nil_left, List.all_nil, List.all_eq_true]
    rintro ⟨t, u⟩ hm
    rw [hfree (List.of_mem_zip hm).1]
    exact hl u
  | cons a as ih =>
    cases bs with
    | nil =>
      rw [List.nil_append, List.zip_nil_right, List.all_nil, List.all_eq_true]
      rintro ⟨t, u⟩ hm
      rw [hfree (List.of_mem_zip hm).2]
      exact hr t
    | cons b bs =>
      rw [List.cons_append, List.cons_append, List.zip_cons_cons, List.zip_cons_cons,
        List.all_cons, List.all_cons, ih]

namespace Solution

variable {k : Nat}

theorem padded_zero (s : Solution) : s.padded 0 = s := by
  rw [padded, carried, List.replicate_zero, List.append_nil]

theorem compatible_padded (a b : Solution) :
    (a.padded k).compatible (b.padded k) = a.compatible b := by
  refine all_zip_padded (fun t => rfl) (fun t => ?_) a.slots b.slots k
  cases t <;> rfl

theorem sharesSlot_padded (a b : Solution) :
    (a.padded k).sharesSlot (b.padded k) = a.sharesSlot b := by
  have hall := all_zip_padded (f := fun p => !(p.1.isSome && p.2.isSome)) (fun t => rfl)
    (fun t => by simp) a.slots b.slots k
  rw [sharesSlot, sharesSlot, ← Bool.not_inj_iff, List.not_any_eq_all_not,
    List.not_any_eq_all_not]
  exact hall

end Solution

namespace Environment

theorem padded_zero (env : Environment) : env.padded 0 = env := by
  have hgroup : env.group.map (·.map (·.padded 0)) = env.group := by
    simp only [Solution.padded_zero, List.map_id', Option.map_id']
  have hpadded : env.padded 0 = { env with
      bindings := env.bindings ++ List.replicate 0 none
      group := env.group.map (·.map (·.padded 0)) } := rfl
  rw [hpadded, hgroup, List.replicate_zero, List.append_nil]

theorem narrow_of_nil (q : Query) (env : Environment) : env.Narrow q [] :=
  ⟨fun h => (h rfl).elim, fun _ _ _ _ h => (h rfl).elim, fun _ _ _ _ => List.not_mem_nil⟩

end Environment

/-! ### Bindings -/

namespace Query.Widens

variable {q q' : Query} {extra : List Variable} {env : Environment} {v : Variable}
  (h : q'.Widens q extra)

include h

theorem length_vars : q'.vars.length = q.vars.length + extra.length := by
  rw [h.vars, List.length_append]

/-- Variables of the query own the slots that they own without the further ones. -/
theorem slot_eq (hv : v ∉ extra) : q'.slot? v = q.slot? v := by
  by_cases hm : v ∈ q.vars
  · obtain ⟨i, hi⟩ := exists_slot hm
    rw [hi, slot_eq_some, h.vars, List.getElem?_append_left (slot_lt hi), ← slot_eq_some, hi]
  · rw [slot_eq_none.mpr hm, slot_eq_none, h.vars, List.mem_append]
    exact fun hc => hc.elim hm hv

theorem not_mem_extra (hv : v ∈ q.vars) : v ∉ extra := fun hm => by
  have hnodup := q'.nodup_vars
  rw [h.vars] at hnodup
  exact (List.disjoint_of_nodup_append hnodup) hv hm

theorem binding_padded (hl : extra ≠ [] → env.bindings.length = q.vars.length) (v : Variable) :
    (env.padded extra.length).binding? q' v = env.binding? q v := by
  have hjoin : (env.padded extra.length).binding? q' v =
      (q'.slot? v).bind fun i => (env.bindings[i]?).join := by
    rw [Environment.binding?]
    exact Option.bind_congr fun i _ => join_getElem?_padded env.bindings extra.length i
  rw [hjoin, Environment.binding?]
  by_cases hv : v ∈ extra
  · have hnone : q.slot? v = none := slot_eq_none.mpr fun hm => h.not_mem_extra hm hv
    rw [hnone, Option.bind_none, Option.bind_eq_none_iff]
    intro i hi
    rw [slot_eq_some, h.vars] at hi
    have hle : q.vars.length ≤ i := by
      by_contra hlt
      rw [List.getElem?_append_left (not_le.mp hlt)] at hi
      exact h.not_mem_extra (List.mem_of_getElem? hi) hv
    rw [List.getElem?_eq_none (hl (List.ne_nil_of_mem hv) ▸ hle)]
    rfl
  · rw [h.slot_eq hv]

theorem assign_padded (hl : extra ≠ [] → env.bindings.length = q.vars.length) (hv : v ∉ extra)
    (hm : v ∈ q.vars) (t : Term) : (env.padded extra.length).assign q' v t =
      (env.assign q v t).padded extra.length := by
  obtain ⟨i, hi⟩ := exists_slot hm
  have hset : (env.bindings ++ List.replicate extra.length none).set i (some t) =
      env.bindings.set i (some t) ++ List.replicate extra.length none := by
    by_cases he : extra = []
    · rw [he, List.length_nil, List.replicate_zero, List.append_nil, List.append_nil]
    · exact List.set_append_left i (some t) (hl he ▸ slot_lt hi)
  simp only [Environment.assign, (h.slot_eq hv).trans hi, hi]
  exact congrArg (fun bindings => { env.padded extra.length with bindings }) hset

theorem restored_padded (hl : extra ≠ [] → env.bindings.length = q.vars.length) :
    (env.padded extra.length).restored q' = (env.restored q).padded extra.length := by
  have hslots : (env.bindings ++ List.replicate extra.length none).take q'.vars.length ++
      List.replicate (q'.vars.length - (env.bindings ++ List.replicate extra.length none).length)
        none = env.bindings.take q.vars.length ++
          List.replicate (q.vars.length - env.bindings.length) none ++
            List.replicate extra.length none := by
    by_cases he : extra = []
    · have hlen := h.length_vars
      rw [he, List.length_nil, Nat.add_zero] at hlen
      rw [he, List.length_nil, List.replicate_zero, List.append_nil, List.append_nil, hlen]
    · have hl := hl he
      rw [h.length_vars, List.length_append, List.length_replicate, hl, Nat.sub_self, Nat.sub_self,
        List.take_of_length_le (by simp [hl]), List.take_of_length_le hl.le, List.replicate_zero,
        List.append_nil, List.append_nil]
  exact congrArg (fun bindings => ({
    bindings, locals := env.locals, graph := env.graph, trail := env.trail } : Environment)) hslots

/-- A snapshot shows what is bound. -/
theorem bound_padded (hl : extra ≠ [] → env.bindings.length = q.vars.length) :
    (q'.vars.zip (env.padded extra.length).bindings).filterMap
        (fun p => p.2.map fun t => (p.1, t)) =
      (q.vars.zip env.bindings).filterMap fun p => p.2.map fun t => (p.1, t) := by
  by_cases he : extra = []
  · rw [h.vars, he, List.append_nil, List.length_nil, Environment.padded_zero]
  · have hfree : (extra.zip (List.replicate extra.length (none : Option Term))).filterMap
        (fun p => p.2.map fun t => (p.1, t)) = [] := by
      refine List.filterMap_eq_nil_iff.mpr fun p hp => ?_
      rw [List.eq_of_mem_replicate (List.of_mem_zip hp).2, Option.map_none]
    have hslots : (env.padded extra.length).bindings =
        env.bindings ++ List.replicate extra.length none := rfl
    rw [h.vars, hslots, List.zip_append (hl he).symm, List.filterMap_append, hfree,
      List.append_nil]

/-- Slots are carried over by free ones behind them. -/
theorem carries : q.Carries q' (· ++ List.replicate extra.length none) (q.narrow extra) where
  patterns := h.patterns
  functions := h.functions
  fromDefault := h.fromDefault
  fromNamed := h.fromNamed
  declared v hv := by
    rw [h.vars, List.mem_append]
    exact or_iff_left hv
  binding hl := h.binding_padded hl
  assign hl hv hm t := ⟨fun he => by rw [Environment.length_assign, hl he],
    h.assign_padded hl hv hm t⟩
  initial := by
    refine ⟨fun _ => List.length_replicate, ?_⟩
    rw [Environment.initial, Environment.initial, h.length_vars, ← List.replicate_append_replicate]
    rfl
  compatible _ _ := Solution.compatible_padded _ _
  sharesSlot _ _ := Solution.sharesSlot_padded _ _
  injective _ _ hs := List.append_left_injective _ hs

end Query.Widens

theorem Scope.carries_of_widens {c : Scope} {q' : Query} {extra : List Variable}
    (hq : q'.Widens c.query extra) :
    c.Carries q' (· ++ List.replicate extra.length none) (c.query.narrow extra)
      (c.query.narrow extra) where
  toCarries := hq.carries
  snapshot _ env hl := by
    unfold snapshot
    split_ifs
    · rfl
    · exact congrArg (fun bound : List (Variable × Term) =>
        Term.snapshot "memory" env.trail (bound.map (·.1)) (bound.map (·.2))) (hq.bound_padded hl)
  call _ _ _ _ := trivial
  existence _ hp :=
    ⟨fun _ hv => hq.not_mem_extra (Query.mem_vars_of_pattern hp hv), fun _ _ => trivial⟩
  restored hn := ⟨⟨fun _ => Environment.length_restored _ _,
    fun _ hg => (Option.some_ne_none _ hg.symm).elim, hn.graph⟩, hq.restored_padded hn.slots⟩

/-! ### Patterns and solutions -/

namespace Context

variable {c : Context} {h h' : Hooks} {q' : Query} {extra : List Variable} {env : Environment}
  {p : Pattern} (hq : q'.Widens c.query extra) (limit : Option Nat)

include hq

/-- Patterns hand on the same environments, with free slots. -/
theorem trace_padded (hh : Hooks.Carry (· ++ List.replicate extra.length none)
      (c.query.narrow extra) (c.query.narrow extra) h h')
    (hp : ∀ v ∈ p.vars, v ∉ extra) (hn : env.Narrow c.query extra) :
    p.trace (c.withQuery q' limit) h' (env.padded extra.length) =
      (p.trace c h env).map (·.padded extra.length) :=
  p.trace_carried (Scope.carries_of_widens hq) limit hh hp (fun _ _ => trivial) hn

theorem hooks_padded (level : Nat) : Hooks.Carry (· ++ List.replicate extra.length none)
    (c.query.narrow extra) (c.query.narrow extra) (c.hooks level)
      ((c.withQuery q' limit).hooks level) :=
  hooks_carried (Scope.carries_of_widens hq) (Scope.carries_of_widens hq) limit level

theorem evaluate_padded (e : Expr) (hn : env.Narrow c.query extra) :
    (c.withQuery q' limit).evaluate e (env.padded extra.length) = c.evaluate e env :=
  evaluate_carried (Scope.carries_of_widens hq) (Scope.carries_of_widens hq) limit e
    (fun _ _ => trivial) hn

/-- A pattern has the same solutions, with free slots. -/
theorem solutions_padded (hp : ∀ v ∈ p.vars, v ∉ extra) (hn : env.Narrow c.query extra)
    (bound : Option Nat) :
    (c.withQuery q' limit).solutions p (env.padded extra.length) bound =
      List.map (·.padded extra.length) <$> c.solutions p env bound :=
  solutions_carried (Scope.carries_of_widens hq) (Scope.carries_of_widens hq) limit hp
    (fun _ _ => trivial) hn bound

omit hq in
theorem rawSolutions_eq (c : Context) : c.rawSolutions =
    (fun rows => { Solutions.ofQuery c.query with rows }) <$>
      c.solutions c.query.body { Environment.initial c.query with trail := [0] }
        c.source.options.limit :=
  (map_eq_pure_bind _ _).symm

/-- The solutions of the body are the same, with free slots. -/
theorem rawSolutions_padded (hbody : q'.body = c.query.body) :
    (c.withQuery q' c.source.options.limit).rawSolutions =
      (fun raw => { Solutions.ofQuery q' with rows := raw.rows.map (·.padded extra.length) }) <$>
        c.rawSolutions := by
  have hnarrow : ({ Environment.initial c.query with trail := [0] } : Environment).Narrow c.query
      extra :=
    ⟨fun _ => List.length_replicate, fun _ hg => (Option.some_ne_none _ hg.symm).elim,
      fun _ hn => (Option.some_ne_none _ hn.symm).elim⟩
  have hstart : { Environment.initial q' with trail := [0] } =
      ({ Environment.initial c.query with trail := [0] } : Environment).padded extra.length :=
    hq.carries.initial_carried none [0]
  have hsolutions := solutions_padded hq c.source.options.limit (p := c.query.body)
    (fun v hv => hq.not_mem_extra (Query.mem_vars_of_body hv)) hnarrow c.source.options.limit
  rw [← hstart, ← hbody] at hsolutions
  rw [rawSolutions_eq, rawSolutions_eq, ← hbody, ← comp_map]
  refine (congrArg (_ <$> ·) hsolutions).trans ?_
  rw [← comp_map]
  rfl

end Context

end GraphQuery
