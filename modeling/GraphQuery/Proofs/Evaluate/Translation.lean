import GraphQuery.Proofs.Evaluate.Coincidence
import GraphQuery.Proofs.Evaluate.Existence
import GraphQuery.Proofs.Evaluate.Independence
import GraphQuery.Proofs.Evaluate.PatternTrace
import GraphQuery.Proofs.Query.Constants
import GraphQuery.Proofs.Solution.Submission
import GraphQuery.Proofs.Value.Objects

/-! Translating an evaluation into another one, whose query has slots of its own for the same
variables, whose objects are others, and which goes other ways. If slots are read and written alike
once they are translated, as far as an evaluation may come, then expressions come to the same terms,
up to their translation. -/

namespace GraphQuery

/-- What slots, terms and ways are replaced by. Ways that lead on from where an evaluation starts
lead on alike. -/
structure Translation where
  slots : List (Option Term) → List (Option Term)
  term : Term → Term
  way : List Nat → List Nat
  start : List Nat
  exchanges : Term.Exchanges term
  way_cons : ∀ (i : Nat) {trail : List Nat}, start <:+ trail → way (i :: trail) = i :: way trail

variable {T : Translation}

def Solution.translated (s : Solution) (T : Translation) : Solution :=
  { s with slots := T.slots s.slots }

def Locals.translated (l : Locals) (T : Translation) : Locals := l.map fun (v, t) => (v, T.term t)

def Environment.translated (env : Environment) (T : Translation) : Environment where
  bindings := T.slots env.bindings
  locals := env.locals.translated T
  graph := env.graph
  group := env.group.map (·.map (·.translated T))
  trail := T.way env.trail

/-- How far an evaluation may come: what its environments bind to their slots, what variables its
patterns and its graphs name, and what it asks for. -/
structure Realm where
  slots : List (Option Term) → Prop
  names : Variable → Prop
  asks : Request → Prop

structure Environment.Within (D : Realm) (env : Environment) : Prop where
  slots : D.slots env.bindings
  members : ∀ group, env.group = some group → ∀ s ∈ group, D.slots s.slots
  graph : ∀ n, env.graph = some n → ∀ v ∈ n.vars, D.names v

/-- Whether an environment is within a realm, on a way that is translated alike from there on. -/
structure Environment.Along (T : Translation) (D : Realm) (env : Environment) : Prop
    extends env.Within D where
  onWay : T.start <:+ env.trail

/-- Whether slots of a query are read and written alike once they are translated into slots of
another query with the same patterns and functions. -/
structure Query.Translates (q q' : Query) (T : Translation) (D : Realm) : Prop where
  patterns : q'.patterns = q.patterns
  functions : q'.functions = q.functions
  fromDefault : q'.fromDefault = q.fromDefault
  fromNamed : q'.fromNamed = q.fromNamed
  declared : ∀ v, D.names v → (v ∈ q'.vars ↔ v ∈ q.vars)
  binding : ∀ {env : Environment}, D.slots env.bindings → ∀ v,
    (env.translated T).binding? q' v = (env.binding? q v).map T.term
  assign : ∀ {env : Environment} {v : Variable}, D.slots env.bindings → D.names v → v ∈ q.vars →
    ∀ t, D.slots (env.assign q v t).bindings ∧
      (env.translated T).assign q' v (T.term t) = (env.assign q v t).translated T
  initial : D.slots (Environment.initial q).bindings ∧
    T.slots (Environment.initial q).bindings = (Environment.initial q').bindings
  compatible : ∀ {a b : Solution}, D.slots a.slots → D.slots b.slots →
    (a.translated T).compatible (b.translated T) = a.compatible b
  sharesSlot : ∀ {a b : Solution}, D.slots a.slots → D.slots b.slots →
    (a.translated T).sharesSlot (b.translated T) = a.sharesSlot b
  injective : ∀ {bs bs' : List (Option Term)}, D.slots bs → D.slots bs' → T.slots bs = T.slots bs' →
    bs = bs'

/-- Evaluation of another query. -/
def Scope.withQuery (c : Scope) (q : Query) : Scope := { c with query := q }

/-- Whether nothing that stands in an expression leads out of a realm, and its constants stay what
they are. -/
structure Translation.Spares (T : Translation) (D : Realm) (e : Expr) : Prop where
  requests : ∀ r ∈ e.requests, D.asks r
  constants : ∀ t ∈ e.constants, T.term t = t

/-- Whether nothing that stands in a pattern leads out of a realm, and its constants stay what they
are. -/
structure Translation.SparesPattern (T : Translation) (D : Realm) (p : Pattern) : Prop where
  vars : ∀ v ∈ p.vars, D.names v
  requests : ∀ r ∈ p.requests, D.asks r
  constants : ∀ t ∈ p.constants, T.term t = t

/-- Whether also what is asked for is answered alike once it is translated. Patterns that are asked
for may come further than the rest. -/
structure Scope.Translates (c : Scope) (q' : Query) (T : Translation) (D E : Realm) : Prop
    extends c.query.Translates q' T D where
  snapshot : ∀ {target : Option Term}, D.asks (.snapshot target) → ∀ {env : Environment},
    D.slots env.bindings →
      (c.withQuery q').snapshot (env.translated T) target = T.term (c.snapshot env target)
  call : ∀ {site name count d}, D.asks (.call site name count) → c.finds site name count = some d →
    T.Spares D d.body
  existence : ∀ {id p}, D.asks (.existence id) → c.query.pattern? id = some p →
    T.SparesPattern E p
  restored : ∀ {env : Environment}, env.Within D → (env.restored c.query).Within E ∧
    (env.translated T).restored q' = (env.restored c.query).translated T

/-- Whether what is asked for on the way is found out alike once it is translated. -/
structure Hooks.Translate (T : Translation) (D E : Realm) (h h' : Hooks) : Prop where
  body : ∀ (e : Expr) (env : Environment), T.Spares D e → env.Along T D →
    h'.body e (env.translated T) = Option.map T.term <$> h.body e env
  hasSolution : ∀ (p : Pattern) (env : Environment), T.SparesPattern E p → env.Along T E →
    h'.hasSolution p (env.translated T) = h.hasSolution p env

variable {D E : Realm} {q q' : Query}

/-! ### Environments -/

theorem Locals.get_translated (l : Locals) (v : Variable) :
    (l.translated T).get? v = (l.get? v).map T.term := by
  rw [translated, get?, get?, ← List.map_reverse, List.find?_map, Option.map_map, Option.map_map]
  rfl

namespace Environment.Along

variable {env : Environment} {n : NodePattern}

theorem choose (h : env.Along T D) (i : Nat) : (env.choose i).Along T D :=
  ⟨⟨h.slots, h.members, h.graph⟩, h.onWay.trans (List.suffix_cons _ _)⟩

theorem translated_choose (h : env.Along T D) (i : Nat) :
    (env.choose i).translated T = (env.translated T).choose i := by
  rw [Environment.choose, Environment.choose, translated, translated, T.way_cons i h.onWay]

theorem under (h : env.Along T D) (hn : ∀ v ∈ n.vars, D.names v) :
    (env.under (some n)).Along T D :=
  ⟨⟨h.slots, h.members, fun m hm => by rwa [← Option.some.inj hm]⟩, h.onWay⟩

theorem setLocal (h : env.Along T D) (v : Variable) (t : Term) : (env.setLocal v t).Along T D :=
  ⟨⟨h.slots, h.members, h.graph⟩, h.onWay⟩

/-- A member of a group is on the way of its group. -/
theorem ofSolution (h : env.Along T D) {s : Solution} (hs : D.slots s.slots) (i : Nat) :
    (Environment.ofSolution s none (i :: env.trail)).Along T D :=
  ⟨⟨hs, fun _ hg => (Option.some_ne_none _ hg.symm).elim,
    fun _ hn => (Option.some_ne_none _ hn.symm).elim⟩, h.onWay.trans (List.suffix_cons _ _)⟩

theorem translated_ofSolution (h : env.Along T D) (s : Solution) (i : Nat) :
    (Environment.ofSolution s none (i :: env.trail)).translated T =
      .ofSolution (s.translated T) none (i :: T.way env.trail) := by
  rw [← T.way_cons i h.onWay]
  rfl

end Environment.Along

theorem Environment.translated_setLocal (env : Environment) (v : Variable) (t : Term) :
    (env.setLocal v t).translated T = (env.translated T).setLocal v (T.term t) := by
  simp [setLocal, translated, Locals.push, Locals.translated]

/-- The local values of parameters. -/
theorem Locals.translated_bound (params : List Variable) (args : List Term) (l : Locals) :
    ((params.zip args).foldl (fun l p => l.push p.1 p.2.canonical) l).translated T =
      (params.zip (args.map T.term)).foldl (fun l p => l.push p.1 p.2.canonical)
        (l.translated T) := by
  induction params generalizing args l with
  | nil => rfl
  | cons v params ih =>
    cases args with
    | nil => rfl
    | cons t args =>
      rw [List.map_cons, List.zip_cons_cons, List.zip_cons_cons, List.foldl_cons, List.foldl_cons,
        ih, T.exchanges.canonical]
      simp [push, translated]

namespace Query.Translates

variable {env : Environment} {v : Variable} (hq : q.Translates q' T D)

include hq

/-- What is bound on the way to the solutions of a pattern stays within the realm. -/
theorem stable : Environment.Stable q D.names (fun _ => True) (Environment.Along T D) where
  choose _ i h := h.choose i
  bind env v t env' hv _ h hb := by
    obtain ⟨hm, rfl | rfl⟩ := Environment.eq_assign_of_bind hb
    · exact h
    · refine ⟨⟨(hq.assign h.slots hv hm t).1, ?_, ?_⟩, ?_⟩
      · rw [Environment.group_assign]
        exact h.members
      · rw [Environment.graph_assign]
        exact h.graph
      · rw [Environment.trail_assign]
        exact h.onWay
  graph _ n h hn := h.graph n hn

theorem get_translated (hs : D.slots env.bindings) (v : Variable) :
    (env.translated T).get? q' v = (env.get? q v).map T.term := by
  rw [Environment.get?, Environment.get?, hq.binding hs, Option.map_or]
  exact congrArg (Option.or · _) (env.locals.get_translated v)

/-- Variables are bound alike. -/
theorem bind_translated (hs : D.slots env.bindings) (hv : D.names v) (t : Term) :
    (env.translated T).bind? q' v (T.term t) =
      (env.bind? q v t).map (Option.map (·.translated T)) := by
  by_cases hm : v ∈ q.vars
  · have hb := hq.binding hs v
    cases ho : env.binding? q v with
    | some u =>
      rw [ho] at hb
      rw [Environment.bind_of_bound hb, Environment.bind_of_bound ho]
      simp only [T.exchanges.injective.eq_iff]
      split_ifs <;> rfl
    | none =>
      rw [ho] at hb
      rw [Environment.bind_of_free ((hq.declared v hv).mpr hm) hb,
        Environment.bind_of_free hm ho, (hq.assign hs hv hm t).2]
      rfl
  · have hm' : v ∉ q'.vars := fun h => hm ((hq.declared v hv).mp h)
    simp only [Environment.bind?, Environment.bind, slot_eq_none.mpr hm, slot_eq_none.mpr hm']
    rfl

end Query.Translates

/-! ### Expressions -/

section

variable {c : Scope} {h h' : Hooks} {env : Environment} (hc : c.Translates q' T D E)
  (hh : Hooks.Translate T D E h h')

include hc hh

namespace Scope

omit hc hh in
/-- Whether there is a solution is no object. -/
theorem map_exists {f : Term → Term} (hf : ∀ b, f (.ofBool b) = .ofBool b) (c : Scope) (id : Nat)
    (env : Environment) : Option.map f <$> c.exists? h id env = c.exists? h id env := by
  unfold exists?
  cases c.query.pattern? id with
  | none => rfl
  | some p =>
    dsimp only
    split_ifs
    · simp only [map_bind, map_pure, Option.map_some, hf]
    · rfl

theorem exists_translated {id : Nat} (hr : D.asks (.existence id)) (hn : env.Along T D) :
    (c.withQuery q').exists? h' id (env.translated T) = c.exists? h id env := by
  have hpattern : (c.withQuery q').query.pattern? id = c.query.pattern? id := by
    rw [Query.pattern?, Query.pattern?, withQuery, hc.patterns]
  unfold exists?
  rw [hpattern]
  cases hp : c.query.pattern? id with
  | none => rfl
  | some p =>
    dsimp only
    obtain ⟨hwithin, hrestored⟩ := hc.restored hn.toWithin
    have hinner : h'.hasSolution p ((env.translated T).restored q') =
        h.hasSolution p (env.restored c.query) := by
      rw [hrestored]
      exact hh.hasSolution p _ (hc.existence hr hp) ⟨hwithin, hn.onWay⟩
    exact congrArg (fun r : Run Bool => if c.canSolve = true then (do
      let holds ← r
      Run.emit (.existence id holds)
      pure (some (Term.ofBool holds))) else Run.fail .missingEvaluator) hinner

theorem call_translated {site : Nat} {name : Iri} {args : List Term}
    (hr : D.asks (.call site name args.length)) (hn : env.Along T D) :
    (c.withQuery q').call h' site name (args.map T.term) (env.translated T) =
      Option.map T.term <$> c.call h site name args env := by
  have hresolve : (c.withQuery q').resolve site name args.length =
      c.resolve site name args.length := by
    unfold resolve
    simp only [withQuery, hc.functions]
  unfold call
  rw [List.length_map, hresolve, map_bind]
  refine Run.bind_congr_of_ok fun r hd => ?_
  cases r with
  | none => rfl
  | some d =>
    have hd := hc.call hr (Except.ok.inj ((c.outcome_resolve _ _ _).symm.trans hd))
    dsimp only
    split_ifs
    · rfl
    · refine Eq.trans (congrArg (h'.body d.body) ?_) (hh.body d.body { env with
        locals := (d.parameters.zip args).foldl (fun l p => l.push p.1 p.2.canonical) env.locals }
        hd ⟨⟨hn.slots, hn.members, hn.graph⟩, hn.onWay⟩)
      exact congrArg (fun locals => { env.translated T with locals })
        (Locals.translated_bound d.parameters args env.locals).symm

end Scope

/-! ### Lists of operands -/

namespace Expr

/-- Whether expressions are evaluated alike once they are translated, at any place of a list. -/
def AllTranslate (T : Translation) (c c' : Scope) (h h' : Hooks) (as : List Expr)
    (env : Environment) : Prop :=
  ∀ a ∈ as, ∀ i, a.eval c' h' ((env.translated T).choose i) =
    Option.map T.term <$> a.eval c h (env.choose i)

omit hc hh

variable {c' : Scope} {as : List Expr}

theorem bind_truth_translated (t : Option Term) :
    (t.map T.term).bind Term.truth? = t.bind Term.truth? := by
  cases t with
  | none => rfl
  | some t => exact T.exchanges.truth t

theorem evalAll_translated (has : AllTranslate T c c' h h' as env) (i : Nat) :
    eval.evalAll c' h' as i (env.translated T) =
      Option.map T.term <$> eval.evalAll c h as i env := by
  induction as generalizing i with
  | nil => exact congrArg (fun t => pure (some t)) (T.exchanges.ofBool true).symm
  | cons a as ih =>
    obtain ⟨ha, has⟩ := List.forall_mem_cons.mp has
    rw [eval.evalAll, eval.evalAll, ha, bind_map_left, map_bind]
    refine bind_congr fun t => ?_
    rw [bind_truth_translated]
    rcases t.bind Term.truth? with _ | _ | _
    · rfl
    · exact congrArg (fun t => pure (some t)) (T.exchanges.ofBool false).symm
    · exact ih has (i + 1)

theorem evalAny_translated (has : AllTranslate T c c' h h' as env) (i : Nat) (failed : Bool) :
    eval.evalAny c' h' as i failed (env.translated T) =
      Option.map T.term <$> eval.evalAny c h as i failed env := by
  induction as generalizing i failed with
  | nil =>
    cases failed with
    | false => exact congrArg (fun t => pure (some t)) (T.exchanges.ofBool false).symm
    | true => rfl
  | cons a as ih =>
    obtain ⟨ha, has⟩ := List.forall_mem_cons.mp has
    rw [eval.evalAny, eval.evalAny, ha, bind_map_left, map_bind]
    refine bind_congr fun t => ?_
    rw [bind_truth_translated]
    rcases t.bind Term.truth? with _ | _ | _
    · exact ih has (i + 1) true
    · exact ih has (i + 1) failed
    · exact congrArg (fun t => pure (some t)) (T.exchanges.ofBool true).symm

theorem evalMember_translated (has : AllTranslate T c c' h h' as env) (t : Term) (i : Nat)
    (failed : Bool) : eval.evalMember c' h' (T.term t) as i failed (env.translated T) =
      Option.map T.term <$> eval.evalMember c h t as i failed env := by
  induction as generalizing i failed with
  | nil =>
    cases failed with
    | false => exact congrArg (fun t => pure (some t)) (T.exchanges.ofBool false).symm
    | true => rfl
  | cons a as ih =>
    obtain ⟨ha, has⟩ := List.forall_mem_cons.mp has
    rw [eval.evalMember, eval.evalMember, ha, bind_map_left, map_bind]
    refine bind_congr fun u => ?_
    have hequal : (u.map T.term).bind ((T.term t).equal? ·) = u.bind (t.equal? ·) := by
      cases u with
      | none => rfl
      | some u => exact T.exchanges.equal t u
    rw [hequal]
    rcases u.bind (t.equal? ·) with _ | _ | _
    · exact ih has (i + 1) true
    · exact ih has (i + 1) failed
    · exact congrArg (fun t => pure (some t)) (T.exchanges.ofBool true).symm

theorem evalFirst_translated (has : AllTranslate T c c' h h' as env) (i : Nat) :
    eval.evalFirst c' h' as i (env.translated T) =
      Option.map T.term <$> eval.evalFirst c h as i env := by
  induction as generalizing i with
  | nil => rfl
  | cons a as ih =>
    obtain ⟨ha, has⟩ := List.forall_mem_cons.mp has
    rw [eval.evalFirst, eval.evalFirst, ha, bind_map_left, map_bind]
    refine bind_congr fun t => ?_
    cases t with
    | none => exact ih has (i + 1)
    | some t => rfl

theorem evalArgs_translated (has : AllTranslate T c c' h h' as env) (i : Nat) :
    eval.evalArgs c' h' as i (env.translated T) =
      Option.map (List.map T.term) <$> eval.evalArgs c h as i env := by
  induction as generalizing i with
  | nil => rfl
  | cons a as ih =>
    obtain ⟨ha, has⟩ := List.forall_mem_cons.mp has
    rw [eval.evalArgs, eval.evalArgs, ha, bind_map_left, map_bind]
    refine bind_congr fun t => ?_
    cases t with
    | none => rfl
    | some t =>
      refine Eq.trans (congrArg (· >>= _) (ih has (i + 1))) ?_
      rw [bind_map_left, map_bind]
      refine bind_congr fun ts => ?_
      cases ts <;> rfl

include hc hh in
/-- An expression comes to the same term once it is translated, with the same events. -/
theorem eval_translated (e : Expr) (he : T.Spares D e) {env : Environment}
    (hn : env.Along T D) : e.eval (c.withQuery q') h' (env.translated T) =
      Option.map T.term <$> e.eval c h env := by
  have hlist : ∀ as : List Expr, sizeOf as < sizeOf e →
      (∀ r ∈ requests.listRequests as, D.asks r) →
      (∀ t ∈ constants.listConstants as, T.term t = t) →
        AllTranslate T c (c.withQuery q') h h' as env := fun as hsz hr hk a ha i => by
    have := List.sizeOf_lt_of_mem ha
    rw [← hn.translated_choose i]
    exact eval_translated a ⟨fun r hm => hr r (mem_listRequests.mpr ⟨a, ha, hm⟩),
      fun t hm => hk t (mem_listConstants.mpr ⟨a, ha, hm⟩)⟩ (hn.choose i)
  have hpart : ∀ a : Expr, sizeOf a < sizeOf e → (∀ r ∈ a.requests, D.asks r) →
      (∀ t ∈ a.constants, T.term t = t) → ∀ i, a.eval (c.withQuery q') h'
        ((env.translated T).choose i) = Option.map T.term <$> a.eval c h (env.choose i) :=
    fun a hsz hr hk i => by
      rw [← hn.translated_choose i]
      exact eval_translated a ⟨hr, hk⟩ (hn.choose i)
  obtain ⟨hr, hk⟩ := he
  cases e with
  | const t => exact congrArg (fun t => pure (some t)) (hk t List.mem_cons_self).symm
  | var v =>
    rw [eval, eval]
    exact congrArg pure (hc.get_translated hn.slots v)
  | bound v =>
    have hget : ((env.translated T).get? q' v).isSome = (env.get? c.query v).isSome := by
      rw [hc.get_translated hn.slots, Option.isSome_map]
    rw [eval, eval]
    exact congrArg (fun t => pure (some t)) ((congrArg Term.ofBool hget).trans
      (T.exchanges.ofBool _).symm)
  | system target =>
    rw [eval, eval]
    exact congrArg (fun t => pure (some t)) (hc.snapshot (hr _ List.mem_cons_self) hn.slots)
  | existence id =>
    rw [eval, eval, Scope.exists_translated hc hh (hr _ List.mem_cons_self) hn]
    exact (c.map_exists T.exchanges.ofBool id env).symm
  | and args => exact evalAll_translated (hlist args (by simp) hr hk) 0
  | or args => exact evalAny_translated (hlist args (by simp) hr hk) 0 false
  | coalesce args => exact evalFirst_translated (hlist args (by simp) hr hk) 0
  | call f args =>
    rw [eval, eval, evalArgs_translated (hlist args (by simp) hr hk) 0, bind_map_left, map_bind]
    refine bind_congr fun ts => ?_
    cases ts with
    | none => rfl
    | some ts => exact congrArg pure (T.exchanges.apply_builtin f ts)
  | not a =>
    rw [eval, eval, eval_translated a ⟨hr, hk⟩ hn, bind_map_left, map_bind]
    refine bind_congr fun t => ?_
    rw [bind_truth_translated]
    cases t.bind Term.truth? with
    | none => rfl
    | some b => exact congrArg (fun t => pure (some t)) (T.exchanges.ofBool !b).symm
  | unary op a =>
    rw [eval, eval, eval_translated a ⟨hr, hk⟩ hn, bind_map_left, map_bind]
    refine bind_congr fun t => ?_
    cases t with
    | none => rfl
    | some t => exact congrArg pure (T.exchanges.apply_unary op t)
  | binary op a b =>
    obtain ⟨hra, hrb⟩ := List.forall_mem_append.mp hr
    obtain ⟨hka, hkb⟩ := List.forall_mem_append.mp hk
    rw [eval, eval, hpart a (by simp; omega) hra hka, bind_map_left, map_bind]
    refine bind_congr fun s => ?_
    cases s with
    | none => rfl
    | some s =>
      refine Eq.trans (congrArg (· >>= _) (hpart b (by simp) hrb hkb 1)) ?_
      rw [bind_map_left, map_bind]
      refine bind_congr fun t => ?_
      cases t with
      | none => rfl
      | some t => exact congrArg pure (T.exchanges.apply_binary op s t)
  | member a list =>
    obtain ⟨hra, hrl⟩ := List.forall_mem_append.mp hr
    obtain ⟨hka, hkl⟩ := List.forall_mem_append.mp hk
    rw [eval, eval, hpart a (by simp; omega) hra hka, bind_map_left, map_bind]
    refine bind_congr fun t => ?_
    cases t with
    | none => rfl
    | some t => exact evalMember_translated (hlist list (by simp) hrl hkl) t 1 false
  | cond test yes no =>
    obtain ⟨hrty, hrn⟩ := List.forall_mem_append.mp hr
    obtain ⟨hrt, hry⟩ := List.forall_mem_append.mp hrty
    obtain ⟨hkty, hkn⟩ := List.forall_mem_append.mp hk
    obtain ⟨hkt, hky⟩ := List.forall_mem_append.mp hkty
    rw [eval, eval, hpart test (by simp; omega) hrt hkt, bind_map_left, map_bind]
    refine bind_congr fun t => ?_
    rw [bind_truth_translated]
    rcases t.bind Term.truth? with _ | _ | _
    · rfl
    · cases no with
      | none => rfl
      | some a => exact hpart a (by simp; omega) hrn hkn 2
    · exact hpart yes (by simp; omega) hry hky 1
  | letIn v value body =>
    obtain ⟨hkv, hkb⟩ := List.forall_mem_append.mp hk
    rw [eval, eval, hpart value (by simp; omega) (fun r hm => hr r (List.mem_append_left _ hm)) hkv,
      bind_map_left, map_bind]
    refine bind_congr fun t => ?_
    cases t with
    | none => rfl
    | some t =>
      have hbody := eval_translated body ⟨fun r hm => hr r (mem_requests_letIn hm), hkb⟩
        ((hn.choose 1).setLocal v t.canonical)
      rwa [Environment.translated_setLocal, hn.translated_choose, ← T.exchanges.canonical] at hbody
  | extension site name args =>
    obtain ⟨hcall, hargs⟩ := List.forall_mem_cons.mp hr
    rw [eval, eval, evalArgs_translated (hlist args (by simp) hargs hk) 1, bind_map_left, map_bind]
    refine Run.bind_congr_of_ok fun ts hts => ?_
    cases ts with
    | none => rfl
    | some ts =>
      rw [← length_of_evalArgs hts] at hcall
      have hrun := Scope.call_translated hc hh hcall (hn.choose 0)
      rwa [hn.translated_choose] at hrun
  | aggregate f argument distinct =>
    have hgroup : (env.translated T).group = env.group.map (·.map (·.translated T)) := rfl
    rw [eval, eval, hgroup]
    cases hg : env.group with
    | none => rfl
    | some group =>
      have hmembers := hn.members group hg
      cases argument with
      | none =>
        have hslots : (group.map (·.translated T)).map (·.slots) =
            (group.map (·.slots)).map T.slots := by
          rw [List.map_map, List.map_map]
          rfl
        have hcount : ((group.map (·.translated T)).map (·.slots)).eraseDups.length =
            (group.map (·.slots)).eraseDups.length := by
          rw [hslots, eraseDups_map_of_injOn, List.length_map]
          simp only [List.forall_mem_map]
          exact fun s hs s' hs' => hc.injective (hmembers s hs) (hmembers s' hs')
        have hmap : ∀ n : Nat, Option.map T.term <$>
            (pure (f.apply false (List.replicate n (some (.ofBool true)))) : Run (Option Term)) =
              pure (f.apply false (List.replicate n (some (.ofBool true)))) := fun n => by
          rw [map_pure, ← T.exchanges.apply_setFunction, List.map_replicate, Option.map_some,
            T.exchanges.ofBool]
        simp only [Option.map_some, eval.evalAggregate, hcount, List.length_map, hmap]
      | some a =>
        have hvalues : Run.mapIdx (fun i s => a.eval (c.withQuery q') h'
            (.ofSolution s none (i :: T.way env.trail))) 0 (group.map (·.translated T)) =
              List.map (Option.map T.term) <$> Run.mapIdx (fun i s => a.eval c h
                (.ofSolution s none (i :: env.trail))) 0 group := by
          rw [Run.mapIdx_map, Run.map_mapIdx]
          refine Run.mapIdx_congr (fun i s hs => ?_) 0
          rw [← hn.translated_ofSolution]
          exact eval_translated a ⟨hr, hk⟩ (hn.ofSolution (hmembers s hs) i)
        refine Eq.trans (congrArg (· >>= _) hvalues) ?_
        rw [bind_map_left]
        refine Eq.trans ?_ (map_bind _ _ _).symm
        exact bind_congr fun members =>
          congrArg pure (T.exchanges.apply_setFunction f distinct members)
termination_by sizeOf e

theorem test_translated (hc : c.Translates q' T D E) (hh : Hooks.Translate T D E h h') (e : Expr)
    (he : T.Spares D e) (hn : env.Along T D) :
    e.test (c.withQuery q') h' (env.translated T) = e.test c h env := by
  rw [test, test, e.eval_translated hc hh he hn, bind_map_left]
  exact bind_congr fun t => by rw [bind_truth_translated]

end Expr
end
end GraphQuery
