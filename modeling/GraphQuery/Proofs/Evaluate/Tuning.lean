import GraphQuery.Proofs.Evaluate.Widening

/-! What patterns and expressions do not read. The bound on the number of solutions and whether a
query is distinct count for what is made of the solutions of its body, and so do the place and the
number of the solutions that are asked for, and none of them for what is evaluated for a solution. -/

namespace GraphQuery

/-- The same query, distinct or not. -/
def Query.distinctly (q : Query) (distinct : Bool) : Query := { q with distinct }

/-- Evaluation for the same query, distinct or not. -/
def Scope.distinctly (c : Scope) (distinct : Bool) : Scope :=
  { c with query := c.query.distinctly distinct }

/-- Whether a query has the same parts to evaluate as another one. -/
structure Query.Retunes (q' q : Query) : Prop extends Query.Widens q' q [] where
  body : q'.body = q.body
  select : q'.select = q.select
  groupBy : q'.groupBy = q.groupBy
  having : q'.having = q.having
  orderBy : q'.orderBy = q.orderBy

theorem Query.retunes_distinctly (q : Query) (distinct : Bool) :
    (q.distinctly distinct).Retunes q where
  vars := (List.append_nil _).symm
  patterns := rfl
  functions := rfl
  fromDefault := rfl
  fromNamed := rfl
  body := rfl
  select := rfl
  groupBy := rfl
  having := rfl
  orderBy := rfl

theorem Hooks.carry_self (D : Realm) (h : Hooks) :
    Hooks.Carry (· ++ List.replicate 0 none) D D h h where
  body e env _ _ := congrArg (h.body e) env.padded_zero
  hasSolution p env _ _ _ := congrArg (h.hasSolution p) env.padded_zero

namespace Context

variable {c : Context} {h : Hooks} {q' : Query}

/-! ### Patterns and expressions -/

section Patterns

variable (hq : q'.Widens c.query []) (limit : Option Nat)

include hq

/-- What a pattern hands on. -/
theorem trace_retuned (p : Pattern) : p.trace (c.withQuery q' limit) h = p.trace c h := by
  funext m
  have htrace := trace_padded hq limit (p := p) (Hooks.carry_self _ h)
    (fun _ _ => List.not_mem_nil) (m.narrow_of_nil c.query)
  simpa only [List.length_nil, Environment.padded_zero, Trace.map_id'] using htrace

theorem hooks_retuned (level : Nat) : (c.withQuery q' limit).hooks level = c.hooks level := by
  have hwiden := hooks_padded hq limit level
  refine congrArg₂ Hooks.mk (funext fun e => funext fun m => ?_)
    (funext fun p => funext fun m => ?_)
  · exact (congrArg _ m.padded_zero).symm.trans
      (hwiden.body e m (fun _ _ => trivial) (m.narrow_of_nil c.query))
  · exact (congrArg _ m.padded_zero).symm.trans (hwiden.hasSolution p m
      (fun _ _ => List.not_mem_nil) (fun _ _ => trivial) (m.narrow_of_nil c.query))

theorem evaluate_retuned (e : Expr) (m : Environment) :
    (c.withQuery q' limit).evaluate e m = c.evaluate e m :=
  (congrArg _ m.padded_zero).symm.trans (evaluate_padded hq limit e (m.narrow_of_nil c.query))

theorem solutions_retuned (p : Pattern) (m : Environment) (bound : Option Nat) :
    (c.withQuery q' limit).solutions p m bound = c.solutions p m bound := by
  have hsolutions := solutions_padded hq limit (p := p) (fun _ _ => List.not_mem_nil)
    (m.narrow_of_nil c.query) bound
  have hmap : List.map (Solution.padded · 0) = id := funext fun rows => by
    simp only [Solution.padded_zero, List.map_id', id]
  rwa [List.length_nil, Environment.padded_zero, hmap, id_map] at hsolutions

end Patterns

/-! ### Rows -/

section Rows

variable (hq : q'.Retunes c.query) (limit : Option Nat) (s : Solution)
  (group : Option (List Solution)) (row : Nat)

include hq

theorem slot_retuned (v : Variable) : (c.withQuery q' limit).query.slot? v = c.query.slot? v :=
  hq.slot_eq List.not_mem_nil

theorem select_retuned : (c.withQuery q' limit).select s group row = c.select s group row := by
  suffices H : ∀ items s i, (c.withQuery q' limit).selectFrom group row i items s =
      c.selectFrom group row i items s by
    have hselect : (c.withQuery q' limit).query.select = c.query.select := hq.select
    rw [select, select, hselect]
    exact H c.query.select s 0
  intro items
  induction items with
  | nil => exact fun _ _ => rfl
  | cons item items ih =>
    intro s i
    simp only [selectFrom, evaluate_retuned hq.toWidens, slot_retuned hq, ih]

theorem key_retuned (stage : Stage) (i : Nat) (e : Expr) :
    (c.withQuery q' limit).key stage s group row i e = c.key stage s group row i e := by
  have hslot : (c.withQuery q' limit).query.slot? = c.query.slot? :=
    funext (slot_retuned hq limit)
  unfold key
  rw [evaluate_retuned hq.toWidens, hslot]

theorem keys_retuned : (c.withQuery q' limit).keys s group row = c.keys s group row := by
  have horder : (c.withQuery q' limit).query.orderBy = c.query.orderBy := hq.orderBy
  have hgroup : (c.withQuery q' limit).query.groupBy = c.query.groupBy := hq.groupBy
  unfold keys
  simp only [key_retuned hq, horder, hgroup]

theorem admits_retuned (members : List Solution) (es : List Expr) (i : Nat) :
    (c.withQuery q' limit).admits s members row i es = c.admits s members row i es := by
  induction es generalizing i with
  | nil => rfl
  | cons e es ih =>
    have htest : ∀ m, (c.withQuery q' limit).test e m = c.test e m := fun m => by
      rw [test, test, Expr.test, Expr.test]
      exact congrArg (· >>= _) (evaluate_retuned hq.toWidens limit e m)
    rw [admits, admits, htest, ih]

theorem groupRow_retuned (members : List Solution) :
    (c.withQuery q' limit).groupRow row members = c.groupRow row members := by
  have hlength : (c.withQuery q' limit).query.vars.length = c.query.vars.length := hq.length_vars
  have hhaving : (c.withQuery q' limit).query.having = c.query.having := hq.having
  unfold groupRow
  simp only [select_retuned hq, admits_retuned hq, keys_retuned hq, hlength, hhaving]

end Rows

/-! ### Distinct queries -/

/-- The same evaluation with another bound on the number of solutions, for a query that is distinct
or not. -/
def tuned (c : Context) (limit : Option Nat) (distinct : Bool) : Context :=
  { c.toScope.distinctly distinct with
    source := { c.source with options := { c.source.options with limit } } }

variable (limit : Option Nat) (distinct : Bool)

theorem trace_tuned (p : Pattern) : p.trace (c.tuned limit distinct) h = p.trace c h :=
  trace_retuned (c.query.retunes_distinctly distinct).toWidens limit p

theorem hooks_tuned (depth : Nat) : (c.tuned limit distinct).hooks depth = c.hooks depth :=
  hooks_retuned (c.query.retunes_distinctly distinct).toWidens limit depth

theorem solutions_tuned (p : Pattern) (m : Environment) (bound : Option Nat) :
    (c.tuned limit distinct).solutions p m bound = c.solutions p m bound :=
  solutions_retuned (c.query.retunes_distinctly distinct).toWidens limit p m bound

variable (s : Solution) (group : Option (List Solution)) (row : Nat)

theorem select_tuned : (c.tuned limit distinct).select s group row = c.select s group row :=
  select_retuned (c.query.retunes_distinctly distinct) limit s group row

theorem keys_tuned : (c.tuned limit distinct).keys s group row = c.keys s group row :=
  keys_retuned (c.query.retunes_distinctly distinct) limit s group row

theorem groupRow_tuned (members : List Solution) :
    (c.tuned limit distinct).groupRow row members = c.groupRow row members :=
  groupRow_retuned (c.query.retunes_distinctly distinct) limit row members

end Context

end GraphQuery
