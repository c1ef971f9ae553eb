import GraphQuery.Proofs.Evaluate.Gathering

/-! Columns once more over a group. A column that comes to no aggregate has the value over a group
that it has without one, so the row of a group keeps the columns that it has. -/

namespace GraphQuery

/-! ### Expressions without aggregates -/

/-- Whether functions that are called among some requests have no aggregates, which would range over
the group of the call. -/
def Scope.Groupless (c : Scope) (A : Request → Prop) : Prop :=
  ∀ {site name count d}, A (.call site name count) → c.finds site name count = some d →
    d.body.isAggregate = false ∧ ∀ r ∈ d.body.requests, A r

/-- Whether bodies of functions are evaluated alike with a group and without. -/
def Hooks.Groupless (A : Request → Prop) (h : Hooks) : Prop :=
  ∀ {e : Expr} (env : Environment), e.isAggregate = false → (∀ r ∈ e.requests, A r) →
    h.body e env = h.body e { env with group := none }

theorem Scope.Groupless.simulates {c : Scope} {A : Request → Prop} {h : Hooks}
    (hA : c.Groupless A) (hh : h.Groupless A) :
    c.Simulates (fun _ => Eq) (fun l a b => l = [] ∧ b = { a with group := none }) A c h h where
  congruence := Run.congruence_eq
  vars := rfl
  choose i h := ⟨h.1, by rw [h.2]; rfl⟩
  setLocal v t _ h := ⟨by rw [h.1]; rfl, by rw [h.2]; rfl⟩
  enclosed h := by
    obtain ⟨rfl, h⟩ := h
    exact ⟨⟨rfl, h⟩, rfl, h⟩
  solution i h _ _ := by
    obtain ⟨-, rfl⟩ := h
    exact ⟨rfl, rfl⟩
  existence _ h := by
    obtain ⟨-, rfl⟩ := h
    rfl
  call {a b site name ts} ha h := by
    obtain ⟨-, rfl⟩ := h
    unfold Scope.call
    refine Run.bind_congr_of_ok fun r hr => ?_
    cases r with
    | none => rfl
    | some d =>
      obtain ⟨hbody, hd⟩ := hA ha (Except.ok.inj ((c.outcome_resolve _ _ _).symm.trans hr))
      dsimp only
      split_ifs
      · rfl
      · exact hh _ hbody hd
  snapshot _ h := by
    obtain ⟨-, rfl⟩ := h
    rfl

theorem Scope.Groupless.eval {c : Scope} {A : Request → Prop} {h : Hooks} (hA : c.Groupless A)
    (hh : h.Groupless A) {e : Expr} (env : Environment) (he : e.isAggregate = false)
    (hr : ∀ r ∈ e.requests, A r) : e.eval c h env = e.eval c h { env with group := none } := by
  have hsame := e.eval_related (hA.simulates hh) [] env { env with group := none }
    ⟨⟨fun _ _ => rfl, fun ha => (Bool.false_ne_true (he.symm.trans ha)).elim⟩, hr,
      fun _ => ⟨rfl, rfl⟩⟩
  rwa [e.substitute_nil] at hsame

namespace Context

variable {c : Context} {A : Request → Prop} {e : Expr}

theorem groupless_hooks (hA : c.toScope.Groupless A) (depth : Nat) :
    (c.hooks depth).Groupless A := by
  induction depth with
  | zero => exact fun _ _ _ => rfl
  | succ depth ih => exact fun env he hr => hA.eval ih env he hr

/-- Whether an expression has no aggregate, nor has any function that it comes to call. -/
structure WithoutAggregates (c : Context) (e : Expr) : Prop where
  own : e.isAggregate = false
  called : ∀ {site name count d}, c.Reaches e.requests (.call site name count) →
    c.finds site name count = some d → d.body.isAggregate = false

/-- Such an expression has the same run with a group and without. -/
theorem WithoutAggregates.evaluate_eq (h : c.WithoutAggregates e) (env : Environment) :
    c.evaluate e env = c.evaluate e { env with group := none } := by
  have hA : c.toScope.Groupless (c.Reaches e.requests) := fun ha hd =>
    ⟨h.called ha hd, fun r hr => .call ha hd hr⟩
  exact hA.eval (groupless_hooks hA c.depth) env h.own fun r hr => .start hr

/-! ### The row of a group -/

variable {s d : Solution} {items : List SelectItem} {group : List Solution} {row i : Nat}

/-- A row whose columns have no value over its group, or the one that is bound, is left as it is. -/
theorem selectFrom_of_settled (hv : ∀ item ∈ items, item.target ∈ c.query.vars)
    (h : ∀ item ∈ items, ∀ i, ∃ t,
      (c.evaluate item.expr (rowEnvironment .groupColumn row i s (some group))).outcome = .ok t ∧
        ∀ u ∈ t, c.query.read item.target s = some u.canonical) :
    (c.selectFrom (some group) row i items s).outcome = .ok (some s) := by
  induction items generalizing i with
  | nil => rfl
  | cons item items ih =>
    obtain ⟨hitem, hitems⟩ := List.forall_mem_cons.mp h
    obtain ⟨htarget, hv⟩ := List.forall_mem_cons.mp hv
    obtain ⟨t, ht, hbound⟩ := hitem i
    rw [selectFrom_eq htarget rfl]
    refine (Run.outcome_bind_of_ok ht).trans ?_
    rw [bindColumn_of_read hbound]
    exact ih hv hitems

/-- Columns that look back keep the values in a group that they have been computed to, in whatever
row has these. -/
theorem selectFrom_again (hv : ∀ item ∈ items, item.target ∈ c.query.vars)
    (hplain : ∀ item ∈ items, c.WithoutAggregates item.expr)
    (hsystem : ∀ item ∈ items, ∀ target, ¬ c.Reaches item.expr.requests (.snapshot target))
    (hl : c.LooksBack items s) {s' : Solution}
    (hs : (c.selectFrom none row i items s).outcome = .ok (some s')) (hd : d.slots = s'.slots)
    (group : List Solution) (row' n i' : Nat) :
    (c.selectFrom (some group) row' i' (items.drop n) d).outcome = .ok (some d) := by
  refine selectFrom_of_settled (fun item hm => hv item (List.mem_of_mem_drop hm))
    fun item hm i => ?_
  obtain ⟨k, hk⟩ := List.mem_iff_getElem?.mp (List.mem_of_mem_drop hm)
  obtain ⟨t, ht, hbound⟩ := confirms_of_looksBack (fun item hm => (hplain item hm).own) hv hsystem
    hl hs hk 0 0
  refine ⟨t, ?_, fun u hu => (Query.read_congr hd).trans (hbound u hu)⟩
  have hitem := List.mem_of_getElem? hk
  rw [(hplain item hitem).evaluate_eq, ← ht]
  exact congrArg Run.outcome
    (evaluate_row (hsystem item hitem) (fun v _ => Query.read_congr hd) _ _ _ _ _ _)

/-- The first row of a group that is left as it is gets the keys of the group. -/
theorem value_groupRow (hhaving : c.query.having = []) (rest : List Solution)
    (h : (c.select d (some (d :: rest)) row).outcome = .ok (some d)) :
    (c.groupRow row (d :: rest)).value? = (c.keys d (some (d :: rest)) row).value?.map some := by
  have hadmits : ∀ s, c.admits s (d :: rest) row 0 c.query.having = pure true := fun s => by
    rw [hhaving]
    rfl
  unfold groupRow
  rw [List.head?_cons, Option.getD_some, Run.value_bind, Run.value_eq_some.mpr h, Option.bind_some]
  dsimp only
  rw [hadmits, pure_bind, if_pos rfl, Run.value_bind]
  cases (c.keys d (some (d :: rest)) row).value? <;> rfl

end Context

end GraphQuery
