import GraphQuery.Evaluate.Procedure
import GraphQuery.Proofs.Evaluate.Run

/-! An environment after an evaluation inside of it. A scope is left by taking away, latest first,
the latest binding of each of its names. So the environment that an evaluation leaves behind is the
one that it was given, on every outcome, and what is found there is the value of the expression. -/

namespace GraphQuery

namespace Locals

theorem pop_push (l : Locals) (v : Variable) (t : Term) : (l.push v t).pop v = l := by
  simp [pop, push]

end Locals

namespace Environment

theorem unsetLocal_setLocal (env : Environment) (v : Variable) (t : Term) :
    (env.setLocal v t).unsetLocal v = env := by
  rw [setLocal, unsetLocal, Locals.pop_push]

/-- Names may be bound more than once in a scope, and outside of it as well. -/
theorem leave_enter (env : Environment) (scope : Locals) : (env.enter scope).leave scope = env := by
  induction scope generalizing env with
  | nil => rfl
  | cons b scope ih =>
    calc (env.enter (b :: scope)).leave (b :: scope)
      _ = (((env.setLocal b.1 b.2).enter scope).leave scope).unsetLocal b.1 := rfl
      _ = (env.setLocal b.1 b.2).unsetLocal b.1 := by rw [ih]
      _ = env := unsetLocal_setLocal env b.1 b.2

theorem enter_eq (env : Environment) (scope : Locals) :
    env.enter scope = { env with locals := env.locals ++ scope } := by
  induction scope generalizing env with
  | nil => rw [List.append_nil]; rfl
  | cons b scope ih =>
    calc env.enter (b :: scope)
      _ = (env.setLocal b.1 b.2).enter scope := rfl
      _ = { env with locals := (env.locals ++ [b]) ++ scope } := ih _
      _ = { env with locals := env.locals ++ b :: scope } := by
        rw [List.append_assoc, List.singleton_append]

/-- The scope of the parameters of a function. -/
theorem enter_parameters (env : Environment) (parameters : List Variable) (args : List Term) :
    env.enter (parameters.zip (args.map Term.canonical)) =
      { env with locals :=
          (parameters.zip args).foldl (fun l (v, t) => l.push v t.canonical) env.locals } := by
  have hfold : ∀ (bs : List (Variable × Term)) (l : Locals),
      bs.foldl (fun l (v, t) => l.push v t.canonical) l =
        l ++ bs.map (Prod.map id Term.canonical) := by
    intro bs
    induction bs with
    | nil => intro l; rw [List.map_nil, List.append_nil]; rfl
    | cons b bs ih =>
      intro l
      exact (ih (l.push b.1 b.2.canonical)).trans (List.append_assoc _ _ _)
  rw [enter_eq, hfold, List.zip_map_right]

/-- Whether all that there is to be found in an environment is there again afterwards: the local
bindings, one by one, what the query's variables are bound to, the group and the graph in force. -/
structure Kept (before after : Environment) : Prop where
  locals : after.locals = before.locals
  bindings : after.bindings = before.bindings
  group : after.group = before.group
  graph : after.graph = before.graph

theorem Kept.of_eq {before after : Environment} (h : after = before) : before.Kept after := by
  rw [h]
  exact ⟨rfl, rfl, rfl, rfl⟩

end Environment

namespace Procedure

variable {α β : Type} {p p' : Procedure α} {f f' : Environment → Run α}

/-- Whether a procedure finds what can be read off the environment, and leaves the environment as it
was, on every outcome. -/
def Reads (p : Procedure α) (f : Environment → Run α) : Prop := ∀ env, p env = (f env, env)

namespace Reads

theorem pure (a : α) : Reads (Pure.pure a) fun _ => Pure.pure a := fun _ => rfl

theorem aside (f : Environment → Run α) : Reads (.aside f) f := fun _ => rfl

/-- After an error nothing is done, so the environment has to be as it was by then. -/
theorem bind {k : α → Procedure β} {g : α → Environment → Run β} (h : Reads p f)
    (hk : ∀ a, Reads (k a) (g a)) : Reads (p >>= k) fun env => f env >>= fun a => g a env := by
  intro env
  change andThen p k env = (Run.andThen (f env) fun a => g a env, env)
  rw [andThen, h env]
  unfold Run.andThen
  dsimp only
  cases (f env).outcome with
  | error e => rfl
  | ok a => simp only [hk a env]

theorem within (h : Reads p f) (scope : Locals) :
    Reads (p.within scope) fun env => f (env.enter scope) := by
  intro env
  rw [Procedure.within, h]
  exact congrArg _ (env.leave_enter scope)

theorem along (h : Reads p f) (choice : Nat) :
    Reads (p.along choice) fun env => f (env.choose choice) := by
  intro env
  rw [Procedure.along, h]
  rfl

end Reads

end Procedure

open Procedure (Reads)

namespace Expr

variable {c : Scope} {s : Services}

/-! ### Lists of expressions -/

section Lists

variable {as : List Expr} (has : ∀ a ∈ as, Reads (a.perform c s) (a.eval c s.hooks))

include has

theorem reads_performAll (i : Nat) :
    Reads (perform.performAll c s as i) (eval.evalAll c s.hooks as i) := by
  induction as generalizing i with
  | nil => exact .pure _
  | cons a as ih =>
    obtain ⟨ha, has⟩ := List.forall_mem_cons.mp has
    refine (ha.along i).bind fun t => ?_
    rcases t.bind Term.truth? with _ | _ | _
    · exact .pure _
    · exact .pure _
    · exact ih has (i + 1)

theorem reads_performAny (i : Nat) (failed : Bool) :
    Reads (perform.performAny c s as i failed) (eval.evalAny c s.hooks as i failed) := by
  induction as generalizing i failed with
  | nil => exact .pure _
  | cons a as ih =>
    obtain ⟨ha, has⟩ := List.forall_mem_cons.mp has
    refine (ha.along i).bind fun t => ?_
    rcases t.bind Term.truth? with _ | _ | _
    · exact ih has (i + 1) true
    · exact ih has (i + 1) failed
    · exact .pure _

theorem reads_performMember (t : Term) (i : Nat) (failed : Bool) :
    Reads (perform.performMember c s t as i failed) (eval.evalMember c s.hooks t as i failed) := by
  induction as generalizing i failed with
  | nil => exact .pure _
  | cons a as ih =>
    obtain ⟨ha, has⟩ := List.forall_mem_cons.mp has
    refine (ha.along i).bind fun u => ?_
    rcases u.bind (t.equal? ·) with _ | _ | _
    · exact ih has (i + 1) true
    · exact ih has (i + 1) failed
    · exact .pure _

theorem reads_performFirst (i : Nat) :
    Reads (perform.performFirst c s as i) (eval.evalFirst c s.hooks as i) := by
  induction as generalizing i with
  | nil => exact .pure _
  | cons a as ih =>
    obtain ⟨ha, has⟩ := List.forall_mem_cons.mp has
    refine (ha.along i).bind fun t => ?_
    cases t with
    | none => exact ih has (i + 1)
    | some t => exact .pure _

theorem reads_performArgs (i : Nat) :
    Reads (perform.performArgs c s as i) (eval.evalArgs c s.hooks as i) := by
  induction as generalizing i with
  | nil => exact .pure _
  | cons a as ih =>
    obtain ⟨ha, has⟩ := List.forall_mem_cons.mp has
    refine (ha.along i).bind fun t => ?_
    cases t with
    | none => exact .pure _
    | some t =>
      refine (ih has (i + 1)).bind fun ts => ?_
      cases ts <;> exact .pure _

end Lists

/-! ### Expressions -/

/-- A call leaves the scope of its parameters, whatever becomes of the body. -/
theorem reads_call (hs : ∀ e, Reads (s.body e) (s.hooks.body e)) (site : Nat) (name : Iri)
    (args : List Term) : Reads (c.perform s site name args) (c.call s.hooks site name args) := by
  refine (Reads.aside fun _ => c.resolve site name args.length).bind fun d => ?_
  cases d with
  | none => exact .pure _
  | some d =>
    by_cases hd : d.arity ≠ args.length
    · simp only [if_pos hd]
      exact .pure _
    · simp only [if_neg hd]
      intro env
      refine ((hs d.body).within _ env).trans (congrArg (·, env) ?_)
      exact congrArg _ (env.enter_parameters d.parameters args)

/-- The environment is as before after the evaluation of any expression, if it is after that of the
body of any function. -/
theorem reads_perform (hs : ∀ e, Reads (s.body e) (s.hooks.body e)) (e : Expr) :
    Reads (e.perform c s) (e.eval c s.hooks) := by
  have hlist : ∀ as : List Expr, sizeOf as < sizeOf e →
      ∀ a ∈ as, Reads (a.perform c s) (a.eval c s.hooks) := fun as hsz a ha =>
    have := List.sizeOf_lt_of_mem ha
    reads_perform hs a
  cases e with
  | const t => exact .pure _
  | var v => exact .aside _
  | bound v => exact .aside _
  | existence id => exact .aside _
  | system target => exact .aside _
  | and args => exact reads_performAll (hlist args (by simp)) 0
  | or args => exact reads_performAny (hlist args (by simp)) 0 false
  | coalesce args => exact reads_performFirst (hlist args (by simp)) 0
  | not a => exact (reads_perform hs a).bind fun t => .pure _
  | unary op a => exact (reads_perform hs a).bind fun t => .pure _
  | call f args => exact (reads_performArgs (hlist args (by simp)) 0).bind fun ts => .pure _
  | binary op a b =>
    refine ((reads_perform hs a).along 0).bind fun x => ?_
    cases x with
    | none => exact .pure _
    | some x =>
      refine ((reads_perform hs b).along 1).bind fun y => ?_
      cases y <;> exact .pure _
  | member a list =>
    refine ((reads_perform hs a).along 0).bind fun t => ?_
    cases t with
    | none => exact .pure _
    | some t => exact reads_performMember (hlist list (by simp)) t 1 false
  | cond test yes no =>
    refine ((reads_perform hs test).along 0).bind fun t => ?_
    rcases t.bind Term.truth? with _ | _ | _
    · exact .pure _
    · cases no with
      | none => exact (Reads.pure _).along 2
      | some a => exact (reads_perform hs a).along 2
    · exact (reads_perform hs yes).along 1
  | letIn v value body =>
    refine ((reads_perform hs value).along 0).bind fun t => ?_
    cases t with
    | none => exact .pure _
    | some t => exact ((reads_perform hs body).within [(v, t.canonical)]).along 1
  | extension site name args =>
    refine (reads_performArgs (hlist args (by simp)) 1).bind fun ts => ?_
    cases ts with
    | none => exact .pure _
    | some ts => exact (reads_call hs site name ts).along 0
  | aggregate f argument distinct =>
    intro env
    refine (Reads.aside _ env).trans (congrArg (·, env) ?_)
    rw [eval]
    cases env.group with
    | none => rfl
    | some group =>
      cases argument with
      | none => rfl
      | some a =>
        refine congrArg (· >>= _) (Run.mapIdx_congr (fun i m _ => ?_) 0)
        rw [reads_perform hs a]
termination_by sizeOf e

theorem reads_check (hs : ∀ e, Reads (s.body e) (s.hooks.body e)) (e : Expr) :
    Reads (e.check c s) (e.test c s.hooks) :=
  (reads_perform hs e).bind fun _ => .pure _

end Expr

namespace Scope

/-- Whatever looks for solutions, the body of a function leaves its environment as it was. -/
theorem reads_services (c : Scope) (solver : Nat → Pattern → Environment → Run Bool) (level : Nat)
    (e : Expr) :
    Reads ((c.services solver level).body e) ((c.services solver level).hooks.body e) := by
  induction level generalizing e with
  | zero => exact .aside _
  | succ level ih =>
    intro env
    have hleft : ((c.services solver (level + 1)).body e env).2 = env :=
      congrArg Prod.snd (Expr.reads_perform (c := c) ih e env)
    exact Prod.ext rfl hleft

end Scope

namespace Context

/-- What the engine finds with its services is what it finds with copies of environments. -/
theorem hooks_services (c : Context) (level : Nat) : (c.services level).hooks = c.hooks level := by
  induction level with
  | zero => rfl
  | succ level ih =>
    have hs : ∀ e, Reads ((c.services level).body e) ((c.services level).hooks.body e) :=
      c.toScope.reads_services _ level
    refine congrArg₂ Hooks.mk (funext fun e => funext fun env => ?_) rfl
    have hread := Expr.reads_perform (c := c.toScope) hs e env
    rw [ih] at hread
    exact congrArg Prod.fst hread

theorem reads_perform (c : Context) (e : Expr) : Reads (c.perform e) (c.evaluate e) := by
  rw [show c.evaluate e = e.eval c.toScope (c.services c.depth).hooks by
    rw [hooks_services]; rfl]
  exact e.reads_perform (c.toScope.reads_services _ c.depth)

theorem reads_check (c : Context) (e : Expr) : Reads (c.check e) (c.test e) := by
  rw [show c.test e = e.test c.toScope (c.services c.depth).hooks by rw [hooks_services]; rfl]
  exact e.reads_check (c.toScope.reads_services _ c.depth)

/-- The scopes of an evaluation are balanced, in every environment and on every outcome, whatever
looks for the solutions of patterns and with any number of levels for what expressions refer to. In
the engine, what is found on the way is the value of the expression or the outcome of the test. -/
theorem balanced_scopes (c : Context) (solver : Nat → Pattern → Environment → Run Bool)
    (level : Nat) (e : Expr) (env : Environment) :
    (env.Kept (e.perform c.toScope (c.toScope.services solver level) env).2 ∧
      env.Kept (e.check c.toScope (c.toScope.services solver level) env).2) ∧
    (env.Kept (c.perform e env).2 ∧ (c.perform e env).1 = c.evaluate e env) ∧
    (env.Kept (c.check e env).2 ∧ (c.check e env).1 = c.test e env) := by
  have hs := c.toScope.reads_services solver level
  refine ⟨⟨.of_eq ?_, .of_eq ?_⟩, ⟨.of_eq ?_, ?_⟩, .of_eq ?_, ?_⟩
  · rw [e.reads_perform hs env]
  · rw [e.reads_check hs env]
  · rw [c.reads_perform e env]
  · rw [c.reads_perform e env]
  · rw [c.reads_check e env]
  · rw [c.reads_check e env]

end Context

end GraphQuery
