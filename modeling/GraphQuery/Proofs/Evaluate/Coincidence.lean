import GraphQuery.Evaluate.Expression
import GraphQuery.Proofs.Evaluate.Run
import GraphQuery.Proofs.Query.Variables

/-! What the value of an expression depends on. Runs of expressions are related in whatever way runs
of what they ask for are related, if the variables that they read have the same values, be it that
local values stand in the places of variables. So an expression that asks for nothing has a value
whatever happens. -/

namespace GraphQuery

namespace Expr

theorem anyAggregate_iff {as : List Expr} :
    isAggregate.anyAggregate as = true ↔ ∃ a ∈ as, a.isAggregate = true := by
  induction as with
  | nil => simp [isAggregate.anyAggregate]
  | cons a as ih => simp [isAggregate.anyAggregate, ih]

/-- Whether an expression needs no more than another one. -/
structure IsPart (e' e : Expr) : Prop where
  vars : ∀ v ∈ e'.vars, v ∈ e.vars
  aggregate : e'.isAggregate = true → e.isAggregate = true
  requests : ∀ r ∈ e'.requests, r ∈ e.requests

end Expr

/-- Environments in which all that an expression reads is the same. -/
structure Environment.Agree (q : Query) (e : Expr) (env env' : Environment) : Prop where
  get : ∀ v ∈ e.vars, env.get? q v = env'.get? q v
  group : e.isAggregate = true → env.group = env'.group

theorem Environment.Agree.refl (q : Query) (e : Expr) (env : Environment) : Agree q e env env :=
  ⟨fun _ _ => rfl, fun _ => rfl⟩

/-- Environments in which all that an expression reads is the same, once local values stand in the
places of their variables for the second one. -/
structure Environment.AgreeUpTo (q : Query) (l : Locals) (e : Expr) (env env' : Environment) :
    Prop where
  get : ∀ v ∈ e.vars, env.get? q v = (l.get? v).or (env'.get? q v)
  group : e.isAggregate = true → env.group = env'.group

namespace Environment

variable {q : Query} {e e' : Expr} {l : Locals} {env env' : Environment}

/-- Only the order of the variables of a query counts for their values. -/
theorem get_of_vars {q' : Query} (h : q'.vars = q.vars) (env : Environment) (v : Variable) :
    env.get? q' v = env.get? q v := by
  rw [get?, get?, binding?, binding?, Query.slot?, Query.slot?, h]

theorem get_setLocal (env : Environment) (v w : Variable) (t : Term) :
    (env.setLocal v t).get? q w = if v = w then some t else env.get? q w := by
  rw [get?, get?, setLocal, Locals.get_push]
  split_ifs <;> rfl

/-- The environment inside of constants as local values. -/
def enclosed (env : Environment) (l : Locals) : Environment :=
  l.foldl (fun env b => (env.choose 1).setLocal b.1 b.2.canonical) env

theorem enclosed_eq (env : Environment) (l : Locals) :
    ∃ trail, env.enclosed l =
      { env with locals := env.locals ++ l.map fun b => (b.1, b.2.canonical), trail } := by
  induction l generalizing env with
  | nil => exact ⟨env.trail, by rw [List.map_nil, List.append_nil]; rfl⟩
  | cons b l ih =>
    obtain ⟨trail, h⟩ := ih ((env.choose 1).setLocal b.1 b.2.canonical)
    refine ⟨trail, h.trans ?_⟩
    have hl : env.locals ++ (b :: l).map (fun b => (b.1, b.2.canonical)) =
        ((env.choose 1).setLocal b.1 b.2.canonical).locals ++
          l.map fun b => (b.1, b.2.canonical) := List.append_cons _ _ _
    rw [hl]
    rfl

theorem get_enclosed (env : Environment) (l : Locals) (v : Variable) :
    (env.enclosed l).get? q v = ((l.get? v).map Term.canonical).or (env.get? q v) := by
  obtain ⟨trail, h⟩ := env.enclosed_eq l
  rw [h, get?, Locals.get_append, Locals.get_map, Option.or_assoc]
  rfl

theorem group_enclosed (env : Environment) (l : Locals) : (env.enclosed l).group = env.group := by
  obtain ⟨trail, h⟩ := env.enclosed_eq l
  rw [h]

namespace AgreeUpTo

/-- A part of an expression is evaluated on a way of its own. -/
theorem part (h : AgreeUpTo q l e env env') (he : e'.IsPart e) (i : Nat) :
    AgreeUpTo q l e' (env.choose i) (env'.choose i) :=
  ⟨fun v hw => h.get v (he.vars v hw), fun ha => h.group (he.aggregate ha)⟩

theorem setLocal (h : AgreeUpTo q l e env env') (v : Variable) (t : Term) :
    AgreeUpTo q (l.without v) e (env.setLocal v t) (env'.setLocal v t) where
  get w hw := by
    rw [get_setLocal, get_setLocal, Locals.get_without, h.get w hw]
    by_cases hvw : v = w
    · rw [if_pos hvw, if_pos hvw, if_pos hvw.symm, Option.none_or]
    · rw [if_neg hvw, if_neg hvw, if_neg (Ne.symm hvw)]
  group := h.group

theorem enclosed (h : AgreeUpTo q l e env env') : AgreeUpTo q l e env (env'.enclosed l) where
  get v hv := by
    rw [h.get v hv, get_enclosed]
    cases l.get? v <;> rfl
  group ha := by rw [h.group ha, group_enclosed]

end AgreeUpTo

end Environment

/-- What an evaluation in one scope has to do with an evaluation in another one: runs in related
environments are related, as far as what is asked for is among some requests. The relation between
environments depends on the local values that stand in the places of variables for the second
one. -/
structure Scope.Simulates (R : ∀ α : Type, Run α → Run α → Prop)
    (E : Locals → Environment → Environment → Prop) (A : Request → Prop) (c c' : Scope)
    (h h' : Hooks) : Prop where
  congruence : Run.Congruence R
  vars : c'.query.vars = c.query.vars
  choose : ∀ {l a b} i, E l a b → E l (a.choose i) (b.choose i)
  setLocal : ∀ {l a b} v t, A (.scope v) → E l a b →
    E (l.without v) (a.setLocal v t) (b.setLocal v t)
  enclosed : ∀ {l a b}, E l a b → E l a (b.enclosed l) ∧ E [] a (b.enclosed l)
  solution : ∀ {l a b group s} i, E l a b → a.group = some group → s ∈ group →
    E [] (.ofSolution s none (i :: a.trail)) (.ofSolution s none (i :: b.trail))
  existence : ∀ {a b id}, A (.existence id) → E [] a b →
    R (Option Term) (c.exists? h id a) (c'.exists? h' id b)
  call : ∀ {a b site name ts}, A (.call site name ts.length) → E [] a b →
    R (Option Term) (c.call h site name ts a) (c'.call h' site name ts b)
  snapshot : ∀ {l a b target}, A (.snapshot target) → E l a b →
    c.snapshot a target = c'.snapshot b target

/-- Environments in which an expression is evaluated alike, if what it asks for is among some
requests. -/
structure Environment.Corresponds (q : Query) (E : Locals → Environment → Environment → Prop)
    (A : Request → Prop) (l : Locals) (e : Expr) (a b : Environment) : Prop
    extends Environment.AgreeUpTo q l e a b where
  allowed : ∀ r ∈ e.requests, A r
  related : e.requests ≠ [] → E l a b

section

variable {R : ∀ α : Type, Run α → Run α → Prop} {E : Locals → Environment → Environment → Prop}
  {A : Request → Prop} {c c' : Scope} {h h' : Hooks} {l : Locals} {e e' : Expr} {a b : Environment}

theorem Environment.Corresponds.part (hc : Environment.Corresponds c.query E A l e a b)
    (hs : Scope.Simulates R E A c c' h h') (he : e'.IsPart e) (i : Nat) :
    Environment.Corresponds c.query E A l e' (a.choose i) (b.choose i) where
  toAgreeUpTo := hc.toAgreeUpTo.part he i
  allowed r hr := hc.allowed r (he.requests r hr)
  related hne := by
    obtain ⟨r, hr⟩ := List.exists_mem_of_ne_nil _ hne
    exact hs.choose i (hc.related (List.ne_nil_of_mem (he.requests r hr)))

namespace Expr

/-! ### Lists of expressions -/

section Lists

variable {as bs : List Expr}

/-- Whether expressions are evaluated like others in another environment, on any way. -/
def AllRelated (R : ∀ α : Type, Run α → Run α → Prop) (c c' : Scope) (h h' : Hooks)
    (as bs : List Expr) (a b : Environment) : Prop :=
  List.Forall₂
    (fun x y => ∀ i, R (Option Term) (x.eval c h (a.choose i)) (y.eval c' h' (b.choose i))) as bs

theorem related_evalAll (hR : Run.Congruence R) (hs : AllRelated R c c' h h' as bs a b) (i : Nat) :
    R (Option Term) (eval.evalAll c h as i a) (eval.evalAll c' h' bs i b) := by
  induction hs generalizing i with
  | nil =>
    rw [eval.evalAll, eval.evalAll]
    exact hR.pure _
  | cons hx _ ih =>
    rw [eval.evalAll, eval.evalAll]
    refine hR.bind (hx i) fun t _ => ?_
    rcases t.bind Term.truth? with _ | _ | _
    · exact hR.pure _
    · exact hR.pure _
    · exact ih (i + 1)

theorem related_evalAny (hR : Run.Congruence R) (hs : AllRelated R c c' h h' as bs a b) (i : Nat)
    (failed : Bool) :
    R (Option Term) (eval.evalAny c h as i failed a) (eval.evalAny c' h' bs i failed b) := by
  induction hs generalizing i failed with
  | nil =>
    rw [eval.evalAny, eval.evalAny]
    exact hR.pure _
  | cons hx _ ih =>
    rw [eval.evalAny, eval.evalAny]
    refine hR.bind (hx i) fun t _ => ?_
    rcases t.bind Term.truth? with _ | _ | _
    · exact ih (i + 1) true
    · exact ih (i + 1) failed
    · exact hR.pure _

theorem related_evalMember (hR : Run.Congruence R) (hs : AllRelated R c c' h h' as bs a b)
    (t : Term) (i : Nat) (failed : Bool) :
    R (Option Term) (eval.evalMember c h t as i failed a)
      (eval.evalMember c' h' t bs i failed b) := by
  induction hs generalizing i failed with
  | nil =>
    rw [eval.evalMember, eval.evalMember]
    exact hR.pure _
  | cons hx _ ih =>
    rw [eval.evalMember, eval.evalMember]
    refine hR.bind (hx i) fun u _ => ?_
    rcases u.bind (t.equal? ·) with _ | _ | _
    · exact ih (i + 1) true
    · exact ih (i + 1) failed
    · exact hR.pure _

theorem related_evalFirst (hR : Run.Congruence R) (hs : AllRelated R c c' h h' as bs a b)
    (i : Nat) : R (Option Term) (eval.evalFirst c h as i a) (eval.evalFirst c' h' bs i b) := by
  induction hs generalizing i with
  | nil =>
    rw [eval.evalFirst, eval.evalFirst]
    exact hR.pure _
  | cons hx _ ih =>
    rw [eval.evalFirst, eval.evalFirst]
    refine hR.bind (hx i) fun t _ => ?_
    cases t with
    | none => exact ih (i + 1)
    | some t => exact hR.pure _

theorem related_evalArgs (hR : Run.Congruence R) (hs : AllRelated R c c' h h' as bs a b)
    (i : Nat) :
    R (Option (List Term)) (eval.evalArgs c h as i a) (eval.evalArgs c' h' bs i b) := by
  induction hs generalizing i with
  | nil =>
    rw [eval.evalArgs, eval.evalArgs]
    exact hR.pure _
  | cons hx _ ih =>
    rw [eval.evalArgs, eval.evalArgs]
    refine hR.bind (hx i) fun t _ => ?_
    cases t with
    | none => exact hR.pure _
    | some t =>
      refine hR.bind (ih (i + 1)) fun ts _ => ?_
      cases ts <;> exact hR.pure _

/-- All arguments of a call have a value, or the call has none. -/
theorem length_of_evalArgs {i : Nat} {ts : List Term}
    (ho : (eval.evalArgs c h as i a).outcome = .ok (some ts)) : ts.length = as.length := by
  induction as generalizing i ts with
  | nil =>
    rw [eval.evalArgs] at ho
    rw [← Option.some.inj (Except.ok.inj ho)]
    rfl
  | cons x as ih =>
    rw [eval.evalArgs] at ho
    obtain ⟨t, -, ho⟩ := Run.outcome_bind_eq_ok ho
    cases t with
    | none => cases ho
    | some t =>
      obtain ⟨us, hus, ho⟩ := Run.outcome_bind_eq_ok ho
      cases us with
      | none => cases ho
      | some us =>
        rw [← Option.some.inj (Except.ok.inj ho), List.length_cons, ih hus, List.length_cons]

end Lists

/-! ### Expressions -/

/-- Constants as local values are what an expression finds inside of them. -/
theorem eval_enclose (l : Locals) (e : Expr) (env : Environment) :
    (enclose l e).eval c h env = e.eval c h (env.enclosed l) := by
  induction l generalizing env with
  | nil => rfl
  | cons b l ih =>
    change (letIn b.1 (const b.2) (enclose l e)).eval c h env = _
    rw [eval, eval, pure_bind]
    exact ih _

/-- An expression is evaluated alike in environments that correspond, if what it asks for is. -/
theorem eval_related (hs : Scope.Simulates R E A c c' h h') (e : Expr) (l : Locals)
    (a b : Environment) (hc : Environment.Corresponds c.query E A l e a b) :
    R (Option Term) (e.eval c h a) ((e.substitute l).eval c' h' b) := by
  have hR := hs.congruence
  have hlist : ∀ (as : List Expr) {b : Environment}, sizeOf as < sizeOf e →
      (∀ x ∈ as, x.IsPart e) → Environment.Corresponds c.query E A l e a b →
      AllRelated R c c' h h' as (substitute.substituteAll as l) a b := fun as b hsz hp hc =>
    forall₂_substituteAll fun x hm i =>
      have := List.sizeOf_lt_of_mem hm
      eval_related hs x l _ _ (hc.part hs (hp x hm) i)
  have hargs : ∀ {as : List Expr}, (∀ v ∈ vars.listVariables as, v ∈ e.vars) →
      (isAggregate.anyAggregate as = true → e.isAggregate = true) →
      (∀ r ∈ requests.listRequests as, r ∈ e.requests) → ∀ x ∈ as, x.IsPart e :=
    fun hv hg hr x hm => ⟨fun v hx => hv v (mem_listVariables.mpr ⟨x, hm, hx⟩),
      fun hx => hg (anyAggregate_iff.mpr ⟨x, hm, hx⟩),
      fun r hx => hr r (mem_listRequests.mpr ⟨x, hm, hx⟩)⟩
  cases e with
  | const t =>
    rw [substitute, eval, eval]
    exact hR.pure _
  | var v =>
    have hv := hc.get v (by simp [vars])
    rw [substitute, eval, hv]
    cases l.get? v with
    | none =>
      rw [Option.elim_none, eval, Option.none_or, Environment.get_of_vars hs.vars]
      exact hR.pure _
    | some t =>
      rw [Option.elim_some, eval, Option.some_or]
      exact hR.pure _
  | bound v =>
    have hv := hc.get v (by simp [vars])
    rw [substitute, eval, hv]
    cases l.get? v with
    | none =>
      rw [Option.elim_none, eval, Option.none_or, Environment.get_of_vars hs.vars]
      exact hR.pure _
    | some t =>
      rw [Option.elim_some, eval, Option.some_or, Option.isSome_some]
      exact hR.pure _
  | existence id =>
    have he := (hs.enclosed (hc.related (by simp [requests]))).2
    rw [substitute, eval_enclose, eval, eval]
    exact hs.existence (hc.allowed _ (by simp [requests])) he
  | system target =>
    have he := hc.related (by simp [requests])
    rw [substitute, eval, eval, hs.snapshot (hc.allowed _ (by simp [requests])) he]
    exact hR.pure _
  | extension site name args =>
    obtain ⟨he, he'⟩ := hs.enclosed (hc.related (by simp [requests]))
    have hargs' := hlist args (by simp) (hargs (fun _ hv => hv) id
      fun r hr => List.mem_cons_of_mem _ hr) ⟨hc.toAgreeUpTo.enclosed, hc.allowed, fun _ => he⟩
    rw [substitute, eval_enclose, eval, eval]
    refine hR.bind (related_evalArgs hR hargs' 1) fun ts hts => ?_
    cases ts with
    | none => exact hR.pure _
    | some ts =>
      refine hs.call (hc.allowed _ ?_) (hs.choose 0 he')
      rw [length_of_evalArgs hts]
      exact List.mem_cons_self
  | and args =>
    rw [substitute, eval, eval]
    exact related_evalAll hR (hlist args (by simp)
      (hargs (fun _ hv => hv) id fun _ hr => hr) hc) 0
  | or args =>
    rw [substitute, eval, eval]
    exact related_evalAny hR (hlist args (by simp)
      (hargs (fun _ hv => hv) id fun _ hr => hr) hc) 0 false
  | coalesce args =>
    rw [substitute, eval, eval]
    exact related_evalFirst hR (hlist args (by simp)
      (hargs (fun _ hv => hv) id fun _ hr => hr) hc) 0
  | call f args =>
    rw [substitute, eval, eval]
    refine hR.bind (related_evalArgs hR (hlist args (by simp)
      (hargs (fun _ hv => hv) id fun _ hr => hr) hc) 0) fun ts _ => ?_
    exact hR.pure _
  | not x =>
    rw [substitute, eval, eval]
    exact hR.bind (eval_related hs x l a b ⟨⟨hc.get, hc.group⟩, hc.allowed, hc.related⟩)
      fun t _ => hR.pure _
  | unary op x =>
    rw [substitute, eval, eval]
    exact hR.bind (eval_related hs x l a b ⟨⟨hc.get, hc.group⟩, hc.allowed, hc.related⟩)
      fun t _ => hR.pure _
  | binary op x y =>
    have hx : x.IsPart (binary op x y) := by
      constructor <;> simp +contextual [vars, isAggregate, requests]
    have hy : y.IsPart (binary op x y) := by
      constructor <;> simp +contextual [vars, isAggregate, requests]
    rw [substitute, eval, eval]
    refine hR.bind (eval_related hs x l _ _ (hc.part hs hx 0)) fun s _ => ?_
    cases s with
    | none => exact hR.pure _
    | some s =>
      refine hR.bind (eval_related hs y l _ _ (hc.part hs hy 1)) fun t _ => ?_
      cases t <;> exact hR.pure _
  | member x list =>
    have hx : x.IsPart (member x list) := by
      constructor <;> simp +contextual [vars, isAggregate, requests]
    rw [substitute, eval, eval]
    refine hR.bind (eval_related hs x l _ _ (hc.part hs hx 0)) fun t _ => ?_
    cases t with
    | none => exact hR.pure _
    | some t =>
      exact related_evalMember hR (hlist list (by simp)
        (hargs (by simp +contextual [vars]) (by simp +contextual [isAggregate])
          (by simp +contextual [requests])) hc) t 1 false
  | cond test yes no =>
    have ht : test.IsPart (cond test yes no) := by
      constructor <;> simp +contextual [vars, isAggregate, requests]
    have hy : yes.IsPart (cond test yes no) := by
      constructor <;> simp +contextual [vars, isAggregate, requests]
    rw [substitute, eval, eval]
    refine hR.bind (eval_related hs test l _ _ (hc.part hs ht 0)) fun t _ => ?_
    rcases t.bind Term.truth? with _ | _ | _
    · exact hR.pure _
    · cases no with
      | none =>
        rw [substitute.substituteOption, eval.evalOption, eval.evalOption]
        exact hR.pure _
      | some x =>
        have hx : x.IsPart (cond test yes (some x)) := by
          constructor <;> simp +contextual [vars, vars.optionVariables, isAggregate,
            isAggregate.optionAggregate, requests, requests.optionRequests]
        rw [substitute.substituteOption, eval.evalOption, eval.evalOption]
        exact eval_related hs x l _ _ (hc.part hs hx 2)
    · exact eval_related hs yes l _ _ (hc.part hs hy 1)
  | letIn v value body =>
    have hv : value.IsPart (letIn v value body) := by
      constructor <;> simp +contextual [vars, isAggregate, requests]
    have hb : body.IsPart (letIn v value body) :=
      ⟨by simp +contextual [vars], by simp +contextual [isAggregate], fun _ => mem_requests_letIn⟩
    rw [substitute, eval, eval]
    refine hR.bind (eval_related hs value l _ _ (hc.part hs hv 0)) fun t _ => ?_
    cases t with
    | none => exact hR.pure _
    | some t =>
      have hbody := hc.part hs hb 1
      refine eval_related hs body _ _ _ ⟨hbody.toAgreeUpTo.setLocal v t.canonical, hbody.allowed,
        fun hne => hs.setLocal v t.canonical (hc.allowed _ ?_) (hbody.related hne)⟩
      rw [requests, if_neg (by simpa using hne)]
      exact List.mem_append_right _ List.mem_cons_self
  | aggregate f argument distinct =>
    rw [substitute, eval, eval, hc.group rfl]
    cases hg : b.group with
    | none => exact hR.pure _
    | some group =>
      cases argument with
      | none =>
        simp only [eval.evalAggregate]
        exact hR.pure _
      | some x =>
        -- Over the solutions of the group, nothing is replaced in the argument.
        simp only [eval.evalAggregate]
        refine hR.bind (hR.mapIdx (fun i s hm => ?_) 0) fun _ _ => hR.pure _
        have hx := eval_related hs x [] (.ofSolution s none (i :: a.trail))
          (.ofSolution s none (i :: b.trail)) ⟨⟨fun v _ => ?_, fun _ => rfl⟩, hc.allowed,
            fun hne => hs.solution i (hc.related hne) ((hc.group rfl).trans hg) hm⟩
        · rwa [x.substitute_nil] at hx
        · rfl
termination_by sizeOf e

/-! ### Values alone -/

theorem simulates_pure (hv : c'.query.vars = c.query.vars) (h h' : Hooks) :
    Scope.Simulates (fun _ => Run.Same) (fun _ _ _ => False) (fun _ => False) c c' h h' where
  congruence := Run.congruence_same
  vars := hv
  choose _ h := h
  setLocal _ _ _ h := h
  enclosed h := h.elim
  solution _ h := h.elim
  existence h := h.elim
  call h := h.elim
  snapshot h := h.elim

/-- An expression that asks for nothing has the same value wherever its variables have the same
values, be it that these stand in the places of the variables. -/
theorem eval_substitute_same (he : e.requests = [])
    (ha : Environment.AgreeUpTo c.query l e a b) :
    Run.Same (e.eval c h a) ((e.substitute l).eval c h' b) :=
  eval_related (simulates_pure rfl h h') e l a b
    ⟨ha, fun _ hr => List.not_mem_nil (he ▸ hr), fun hne => hne he⟩

/-- An expression that is evaluated from values alone has the same value wherever its variables
have the same values, whatever else is there to be evaluated. -/
theorem eval_same (e : Expr) (env env' : Environment) (hp : e.isPure = true)
    (ha : Environment.Agree c.query e env env') :
    Run.Same (e.eval c h env) (e.eval c h' env') := by
  have hs : Run.Same (e.eval c h env) ((e.substitute []).eval c h' env') :=
    eval_substitute_same (e.requests_eq_nil hp) ⟨ha.get, ha.group⟩
  rwa [e.substitute_nil] at hs

/-- An expression without existence tests, snapshots and calls of defined functions depends on the
variables that it reads and, if it contains an aggregate, on the group, and on nothing else: it has
the same value, or none, in all environments that agree on these. Neither the values of other
variables count, nor whether a value is bound to a slot or local, nor the graph in force, nor what
the functions and the patterns of the query are evaluated by. -/
theorem eval_agree (e : Expr) (env env' : Environment) (hv : c'.query.vars = c.query.vars)
    (hp : e.isPure = true) (ha : Environment.Agree c.query e env env') :
    ∃ t, e.eval c h env = pure t ∧ e.eval c' h' env' = pure t := by
  have hr : e.requests = [] := e.requests_eq_nil hp
  have hs : Run.Same (e.eval c h env) ((e.substitute []).eval c' h' env') :=
    eval_related (simulates_pure hv h h') e [] env env'
      ⟨⟨ha.get, ha.group⟩, fun _ hm => List.not_mem_nil (hr ▸ hm), fun hne => hne hr⟩
  rwa [e.substitute_nil] at hs

/-- Local values that shadow the bindings of a memory, and a finished solution that is bound to the
same values, under a sum of a local variable and a count. -/
theorem eval_agree_of_shadowing :
    let x : Variable := ⟨"x"⟩
    let y : Variable := ⟨"y"⟩
    let z : Variable := ⟨"z"⟩
    let one : Term := Literal.typed "1" Iri.xsdInteger
    let two : Term := Literal.typed "2" Iri.xsdInteger
    let q : Query := .ofParts { body := .values [x, y, z] [] }
    let group : List Solution := [{ slots := [some one, none, none] }]
    let e : Expr := .letIn y (.var x) (.binary .add (.var y) (.aggregate .count none false))
    let memory : Environment := {
      bindings := [none, some (.ofBool false), none], locals := [(y, two), (x, one), (x, two)],
      graph := some (.var z), group := some group }
    let mapping : Environment := {
      bindings := [some two, some two, some one], group := some group }
    let h : Hooks := ⟨fun _ _ => pure none, fun _ _ => pure false⟩
    ∃ t, e.eval { query := q } h memory = pure t ∧ e.eval { query := q } h mapping = pure t :=
  eval_agree _ _ _ rfl rfl ⟨by decide, fun _ => rfl⟩

/-- A pure expression has a value or none, without failing. -/
theorem exists_eval_eq_pure {e : Expr} (hp : e.isPure = true) (env : Environment) :
    ∃ t, e.eval c h env = pure t := by
  have hs : Run.Same (e.eval c h env) (e.eval c h env) := eval_same e _ _ hp (.refl _ _ _)
  obtain ⟨t, ht, -⟩ := hs
  exact ⟨t, ht⟩

end Expr

end

end GraphQuery
