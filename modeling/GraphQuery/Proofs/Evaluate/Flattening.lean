import GraphQuery.Proofs.Algebra.Lowering
import GraphQuery.Proofs.Evaluate.Comparison
import GraphQuery.Proofs.Evaluate.Rerouting

/-! Flattening. Lowering makes one list of operands of conjunctions that are nested, and one of
disjunctions. A conjunction stops at the first operand that is not true, also at one without a
value, while a disjunction goes on behind it and has no value in the end unless it comes to a true
one. Both are associative in this sense, so the lists come to the same as operations on two
operands at a time, by way of the same leaves. -/

namespace GraphQuery

/-! ### Lowering of two operands at a time -/

/-- Lowering that leaves conjunctions and disjunctions as they are nested. -/
def AlgebraExpr.lowerPairwise : AlgebraExpr → Lower Expr
  | .and a b => do
    let l ← a.lowerPairwise
    let r ← b.lowerPairwise
    pure (.and [l, r])
  | .or a b => do
    let l ← a.lowerPairwise
    let r ← b.lowerPairwise
    pure (.or [l, r])
  | a => a.lower

/-- Whether an expression comes from another one by flattening it. -/
inductive Expr.Flattens : Expr → Expr → Prop
  | leaf (e : Expr) : Flattens e e
  | and {l l' r r' : Expr} (hl : Flattens l l') (hr : Flattens r r') :
      Flattens (.and (l.conjuncts ++ r.conjuncts)) (.and [l', r'])
  | or {l l' r r' : Expr} (hl : Flattens l l') (hr : Flattens r r') :
      Flattens (.or (l.disjuncts ++ r.disjuncts)) (.or [l', r'])

/-- Whether two attempts at lowering are refused alike, or the first one flattens what the second
one leads to, with the same numbers for patterns and calls. -/
def Lower.Flattens (x y : Lower Expr) (s : Lowering) : Prop :=
  (∃ error, x s = .error error ∧ y s = .error error) ∨
    ∃ flat nested s', x s = .ok (flat, s') ∧ y s = .ok (nested, s') ∧ flat.Flattens nested

theorem Lower.Flattens.refl (x : Lower Expr) (s : Lowering) : x.Flattens x s := by
  unfold Lower.Flattens
  cases x s with
  | error error => exact .inl ⟨error, rfl, rfl⟩
  | ok found => exact .inr ⟨found.1, found.1, found.2, rfl, rfl, .leaf found.1⟩

/-- Two operands are lowered one after the other. -/
theorem Lower.Flattens.pair {x x' y y' : Lower Expr} {f f' : Expr → Expr → Expr}
    (hx : ∀ s, x.Flattens x' s) (hy : ∀ s, y.Flattens y' s)
    (hf : ∀ {l l' r r'}, l.Flattens l' → r.Flattens r' → (f l r).Flattens (f' l' r'))
    (s : Lowering) : Lower.Flattens (do let l ← x; let r ← y; pure (f l r))
      (do let l ← x'; let r ← y'; pure (f' l r)) s := by
  unfold Lower.Flattens
  rcases hx s with ⟨error, h, h'⟩ | ⟨l, l', t, h, h', hl⟩
  · exact .inl ⟨error, by rw [run_bind, h]; rfl, by rw [run_bind, h']; rfl⟩
  rw [run_bind, run_bind, h, h']
  dsimp only [Except.bind]
  rcases hy t with ⟨error, h, h'⟩ | ⟨r, r', u, h, h', hr⟩
  · exact .inl ⟨error, by rw [run_bind, h]; rfl, by rw [run_bind, h']; rfl⟩
  · exact .inr ⟨_, _, u, by rw [run_bind, h]; rfl, by rw [run_bind, h']; rfl, hf hl hr⟩

/-- Both ways of lowering flatten. -/
theorem AlgebraExpr.flattens_lower (a : AlgebraExpr) (s : Lowering) :
    Lower.Flattens a.lower a.lowerPairwise s := by
  cases a with
  | and a b =>
    rw [lower, lowerPairwise]
    exact .pair (flattens_lower a) (flattens_lower b) .and s
  | or a b =>
    rw [lower, lowerPairwise]
    exact .pair (flattens_lower a) (flattens_lower b) .or s
  | _ => simpa only [lowerPairwise] using Lower.Flattens.refl _ s

/-! ### Readings -/

/-- What is evaluated one after the other, and what comes of it. -/
structure Reading (α : Type) where
  leaves : List Expr
  run : Run α

namespace Reading

variable {α β : Type}

/-- The leaves of the first reading come first; there is no second reading after an error. -/
def andThen (x : Reading α) (f : α → Reading β) : Reading β where
  leaves := x.leaves ++ match x.run.outcome with
    | .error _ => []
    | .ok a => (f a).leaves
  run := x.run >>= fun a => (f a).run

instance : Monad Reading where
  pure a := ⟨[], pure a⟩
  bind := andThen

theorem run_bind (x : Reading α) (f : α → Reading β) :
    (x >>= f).run = x.run >>= fun a => (f a).run :=
  rfl

theorem ext {x y : Reading α} (hl : x.leaves = y.leaves) (hr : x.run = y.run) : x = y := by
  cases x
  cases y
  simp_all

instance : LawfulMonad Reading := LawfulMonad.mk' Reading
  (by
    intro α x
    refine ext ?_ (id_map x.run)
    change x.leaves ++ _ = _
    cases x.run.outcome <;> exact List.append_nil _)
  (by
    intro α β a f
    exact ext (List.nil_append _) (pure_bind a fun a => (f a).run))
  (by
    intro α β γ x f g
    refine ext ?_ (bind_assoc x.run (fun a => (f a).run) fun b => (g b).run)
    change (x.leaves ++ _) ++ (match (x.run >>= fun a => (f a).run).outcome with
      | .error _ => []
      | .ok b => (g b).leaves) = x.leaves ++ _
    rw [Run.outcome_bind, List.append_assoc]
    cases x.run.outcome with
    | error e => rfl
    | ok a => rfl)

end Reading

namespace Expr

/-- The reading of an expression whose operands have some truth values, except for those of
conjunctions and disjunctions. -/
def reading (v : Expr → Environment → Run (Option Bool)) :
    Expr → Environment → Reading (Option Bool)
  | and args, env => readAll args 0 env
  | or args, env => readAny args 0 false env
  | e, env => ⟨[e], v e env⟩
where
  readAll : List Expr → Nat → Environment → Reading (Option Bool)
    | [], _, _ => pure (some true)
    | a :: as, i, env => do
      match ← a.reading v (env.choose i) with
      | some true => readAll as (i + 1) env
      | some false => pure (some false)
      | none => pure none
  readAny : List Expr → Nat → (failed : Bool) → Environment → Reading (Option Bool)
    | [], _, failed, _ => pure (if failed then none else some false)
    | a :: as, i, failed, env => do
      match ← a.reading v (env.choose i) with
      | some true => pure (some true)
      | some false => readAny as (i + 1) failed env
      | none => readAny as (i + 1) true env

/-- The operands of nested conjunctions and disjunctions that are neither. -/
def leaves : Expr → List Expr
  | and args | or args => listLeaves args
  | e => [e]
where
  listLeaves : List Expr → List Expr
    | [] => []
    | a :: as => a.leaves ++ listLeaves as

theorem mem_listLeaves {as : List Expr} {l : Expr} :
    l ∈ leaves.listLeaves as ↔ ∃ a ∈ as, l ∈ a.leaves := by
  induction as with
  | nil => simp [leaves.listLeaves]
  | cons a as ih => simp [leaves.listLeaves, ih]

theorem listLeaves_append (as bs : List Expr) :
    leaves.listLeaves (as ++ bs) = leaves.listLeaves as ++ leaves.listLeaves bs := by
  induction as with
  | nil => rfl
  | cons a as ih => simp [leaves.listLeaves, ih]

theorem listLeaves_conjuncts (e : Expr) : leaves.listLeaves e.conjuncts = e.leaves := by
  cases e <;> simp [conjuncts, leaves, leaves.listLeaves]

theorem listLeaves_disjuncts (e : Expr) : leaves.listLeaves e.disjuncts = e.leaves := by
  cases e <;> simp [disjuncts, leaves, leaves.listLeaves]

/-! ### Readings of operands -/

section

variable {v : Expr → Environment → Run (Option Bool)} {P : Environment → Prop} {m m' : Environment}
  {as bs : List Expr}

open reading

/-- What comes before in a conjunction is read first, and decides whether to go on. -/
theorem readAll_append (i : Nat) : readAll v (as ++ bs) i m = (do
    match ← readAll v as i m with
    | some true => readAll v bs (i + as.length) m
    | some false => pure (some false)
    | none => pure none) := by
  induction as generalizing i with
  | nil => exact (pure_bind _ _).symm
  | cons a as ih =>
    rw [List.cons_append, readAll, readAll, bind_assoc]
    refine bind_congr fun b => ?_
    rcases b with _ | _ | _
    · exact (pure_bind _ _).symm
    · exact (pure_bind _ _).symm
    · rw [ih, List.length_cons, Nat.add_right_comm, Nat.add_assoc]

/-- What comes before in a disjunction is read first, and decides whether to go on, and how. -/
theorem readAny_append (i : Nat) (failed : Bool) : readAny v (as ++ bs) i failed m = (do
    match ← readAny v as i failed m with
    | some true => pure (some true)
    | some false => readAny v bs (i + as.length) false m
    | none => readAny v bs (i + as.length) true m) := by
  induction as generalizing i failed with
  | nil => cases failed <;> exact (pure_bind _ _).symm
  | cons a as ih =>
    rw [List.cons_append, readAny, readAny, bind_assoc]
    refine bind_congr fun b => ?_
    rcases b with _ | _ | _
    · dsimp only
      rw [ih, List.length_cons, Nat.add_right_comm, Nat.add_assoc]
    · dsimp only
      rw [ih, List.length_cons, Nat.add_right_comm, Nat.add_assoc]
    · exact (pure_bind _ _).symm

theorem readAll_singleton (e : Expr) (i : Nat) : readAll v [e] i m = e.reading v (m.choose i) := by
  refine (bind_congr fun b => ?_).trans (bind_pure _)
  rcases b with _ | _ | _ <;> rfl

/-- What comes of a disjunction behind an operand that may have had no value. -/
def orFailed (failed : Bool) : Option Bool → Option Bool
  | some true => some true
  | some false => if failed then none else some false
  | none => none

theorem orFailed_false : orFailed false = id := by
  funext b
  rcases b with _ | _ | _ <;> rfl

theorem readAny_singleton (e : Expr) (i : Nat) (failed : Bool) :
    readAny v [e] i failed m = orFailed failed <$> e.reading v (m.choose i) := by
  rw [map_eq_pure_bind]
  refine bind_congr fun b => ?_
  rcases b with _ | _ | _ <;> rfl

theorem readAny_failed (i : Nat) (failed : Bool) :
    readAny v as i failed m = orFailed failed <$> readAny v as i false m := by
  induction as generalizing i failed with
  | nil => exact (map_pure _ _).symm
  | cons a as ih =>
    rw [readAny, readAny, map_bind]
    refine bind_congr fun b => ?_
    rcases b with _ | _ | _
    · dsimp only
      rw [ih _ true, ← comp_map]
      refine congrArg (· <$> _) (funext fun b => ?_)
      rcases b with _ | _ | _ <;> rfl
    · exact ih _ failed
    · exact (map_pure _ _).symm

/-- Whether some expressions have the same truth values wherever a property of environments holds,
which is kept on all ways on. -/
structure Still (v : Expr → Environment → Run (Option Bool)) (P : Environment → Prop)
    (ls : List Expr) : Prop where
  choose : ∀ {m : Environment} (i : Nat), P m → P (m.choose i)
  same : ∀ l ∈ ls, ∀ {m m' : Environment}, P m → P m' → v l m = v l m'

theorem Still.of_subset {ls ks : List Expr} (h : Still v P ls) (hks : ks ⊆ ls) : Still v P ks :=
  ⟨h.choose, fun l hl => h.same l (hks hl)⟩

/-- Whether expressions are read alike wherever the property holds. -/
def AllStill (v : Expr → Environment → Run (Option Bool)) (P : Environment → Prop)
    (as : List Expr) : Prop :=
  ∀ a ∈ as, ∀ {m m' : Environment}, P m → P m' → a.reading v m = a.reading v m'

theorem readAll_still (hchoose : ∀ {m : Environment} (i : Nat), P m → P (m.choose i))
    (has : AllStill v P as) (hm : P m) (hm' : P m') (i j : Nat) :
    readAll v as i m = readAll v as j m' := by
  induction as generalizing i j with
  | nil => rfl
  | cons a as ih =>
    rw [readAll, readAll, has a List.mem_cons_self (hchoose i hm) (hchoose j hm')]
    refine bind_congr fun b => ?_
    rcases b with _ | _ | _
    · rfl
    · rfl
    · exact ih (fun a ha => has a (List.mem_cons_of_mem _ ha)) _ _

theorem readAny_still (hchoose : ∀ {m : Environment} (i : Nat), P m → P (m.choose i))
    (has : AllStill v P as) (hm : P m) (hm' : P m') (i j : Nat) (failed : Bool) :
    readAny v as i failed m = readAny v as j failed m' := by
  induction as generalizing i j failed with
  | nil => rfl
  | cons a as ih =>
    rw [readAny, readAny, has a List.mem_cons_self (hchoose i hm) (hchoose j hm')]
    refine bind_congr fun b => ?_
    have has : AllStill v P as := fun a ha => has a (List.mem_cons_of_mem _ ha)
    rcases b with _ | _ | _
    · exact ih has _ _ true
    · exact ih has _ _ failed
    · rfl

/-- An expression is read alike wherever its leaves have the same truth values. -/
theorem reading_still (e : Expr) {m m' : Environment} (h : Still v P e.leaves) (hm : P m)
    (hm' : P m') : e.reading v m = e.reading v m' := by
  have hlist : ∀ as : List Expr, sizeOf as < sizeOf e → Still v P (leaves.listLeaves as) →
      AllStill v P as := fun as hsz has a ha m m' hm hm' => by
    have := List.sizeOf_lt_of_mem ha
    exact a.reading_still (has.of_subset fun l hl => mem_listLeaves.mpr ⟨a, ha, hl⟩) hm hm'
  cases e with
  | and args => exact readAll_still h.choose (hlist args (by simp) h) hm hm' 0 0
  | or args => exact readAny_still h.choose (hlist args (by simp) h) hm hm' 0 0 false
  | _ => exact congrArg (Reading.mk _) (h.same _ List.mem_cons_self hm hm')
termination_by sizeOf e

theorem Still.allStill (h : Still v P (leaves.listLeaves as)) : AllStill v P as :=
  fun a ha _ _ hm hm' =>
    a.reading_still (h.of_subset fun _ hl => mem_listLeaves.mpr ⟨a, ha, hl⟩) hm hm'

/-- The operands of a conjunction in a larger one are read as the conjunction itself. -/
theorem readAll_conjuncts (e : Expr) (h : Still v P e.leaves) (hm : P m) (hm' : P m') (i : Nat) :
    readAll v e.conjuncts i m = e.reading v m' := by
  cases e with
  | and args => exact readAll_still h.choose (Still.allStill h) hm hm' i 0
  | _ => exact (readAll_singleton _ i).trans (reading_still _ h (h.choose i hm) hm')

/-- The operands of a disjunction in a larger one are read as the disjunction itself. -/
theorem readAny_disjuncts (e : Expr) (h : Still v P e.leaves) (hm : P m) (hm' : P m') (i : Nat)
    (failed : Bool) : readAny v e.disjuncts i failed m = orFailed failed <$> e.reading v m' := by
  cases e with
  | or args =>
    rw [disjuncts, readAny_failed]
    exact congrArg _ (readAny_still h.choose (Still.allStill h) hm hm' i 0 false)
  | _ =>
    exact (readAny_singleton _ i failed).trans
      (congrArg _ (reading_still _ h (h.choose i hm) hm'))

/-- A flattened expression reads as the nested one. -/
theorem Flattens.reading_eq {flat nested : Expr} (hf : flat.Flattens nested)
    (h : Still v P flat.leaves) (hm : P m) (hm' : P m') :
    flat.reading v m = nested.reading v m' := by
  induction hf generalizing m m' with
  | leaf e => exact e.reading_still h hm hm'
  | @and l l' r r' _ _ ihl ihr =>
    rw [leaves, listLeaves_append, listLeaves_conjuncts, listLeaves_conjuncts] at h
    have hl := h.of_subset (List.subset_append_left _ _)
    have hr := h.of_subset (List.subset_append_right _ _)
    calc readAll v (l.conjuncts ++ r.conjuncts) 0 m
      _ = (do
          match ← l.reading v m with
          | some true => r.reading v m
          | some false => pure (some false)
          | none => pure none) := by
        rw [readAll_append, readAll_conjuncts l hl hm hm, readAll_conjuncts r hr hm hm]
      _ = (do
          match ← l'.reading v (m'.choose 0) with
          | some true => readAll v [r'] 1 m'
          | some false => pure (some false)
          | none => pure none) := by
        rw [ihl hl hm (h.choose 0 hm'), readAll_singleton, ihr hr hm (h.choose 1 hm')]
  | @or l l' r r' _ _ ihl ihr =>
    rw [leaves, listLeaves_append, listLeaves_disjuncts, listLeaves_disjuncts] at h
    have hl := h.of_subset (List.subset_append_left _ _)
    have hr := h.of_subset (List.subset_append_right _ _)
    calc readAny v (l.disjuncts ++ r.disjuncts) 0 false m
      _ = (do
          match ← orFailed false <$> l.reading v m with
          | some true => pure (some true)
          | some false => orFailed false <$> r.reading v m
          | none => orFailed true <$> r.reading v m) := by
        rw [readAny_append, readAny_disjuncts l hl hm hm, readAny_disjuncts r hr hm hm,
          readAny_disjuncts r hr hm hm]
      _ = (do
          match ← l'.reading v (m'.choose 0) with
          | some true => pure (some true)
          | some false => readAny v [r'] 1 false m'
          | none => readAny v [r'] 1 true m') := by
        rw [orFailed_false, id_map, ← orFailed_false, ihl hl hm (h.choose 0 hm'),
          readAny_singleton, readAny_singleton, ihr hr hm (h.choose 1 hm')]

end

end Expr

/-! ### Evaluation -/

/-- Whether an expression is true, or false, or neither. -/
def Scope.truth (c : Scope) (h : Hooks) (e : Expr) (env : Environment) : Run (Option Bool) :=
  (·.bind Term.truth?) <$> e.eval c h env

namespace Expr

open eval reading

variable {c : Scope} {h : Hooks} {env : Environment} {as : List Expr}

theorem truth_ofBool (b : Option Bool) : (b.map Term.ofBool).bind Term.truth? = b := by
  rcases b with _ | _ | _ <;> rfl

/-- A conjunction is evaluated as it is read, if its operands are. -/
theorem evalAll_eq (has : ∀ a ∈ as, ∀ i,
    (a.reading (c.truth h) (env.choose i)).run = c.truth h a (env.choose i)) (i : Nat) :
    evalAll c h as i env = Option.map Term.ofBool <$> (readAll (c.truth h) as i env).run := by
  induction as generalizing i with
  | nil => rfl
  | cons a as ih =>
    obtain ⟨ha, has⟩ := List.forall_mem_cons.mp has
    rw [evalAll, readAll, Reading.run_bind, ha, Scope.truth, bind_map_left, map_bind]
    refine bind_congr fun t => ?_
    rcases t.bind Term.truth? with _ | _ | _
    · rfl
    · rfl
    · exact ih has (i + 1)

/-- A disjunction is evaluated as it is read, if its operands are. -/
theorem evalAny_eq (has : ∀ a ∈ as, ∀ i,
    (a.reading (c.truth h) (env.choose i)).run = c.truth h a (env.choose i)) (i : Nat)
    (failed : Bool) : evalAny c h as i failed env =
      Option.map Term.ofBool <$> (readAny (c.truth h) as i failed env).run := by
  induction as generalizing i failed with
  | nil => cases failed <;> rfl
  | cons a as ih =>
    obtain ⟨ha, has⟩ := List.forall_mem_cons.mp has
    rw [evalAny, readAny, Reading.run_bind, ha, Scope.truth, bind_map_left, map_bind]
    refine bind_congr fun t => ?_
    rcases t.bind Term.truth? with _ | _ | _
    · exact ih has (i + 1) true
    · exact ih has (i + 1) failed
    · rfl

/-- The reading of an expression is its evaluation, with the leaves that are evaluated. -/
theorem run_reading (e : Expr) (env : Environment) :
    (e.reading (c.truth h) env).run = c.truth h e env := by
  have hlist : ∀ as : List Expr, sizeOf as < sizeOf e → ∀ a ∈ as, ∀ i,
      (a.reading (c.truth h) (env.choose i)).run = c.truth h a (env.choose i) :=
    fun as hsz a ha i =>
      have := List.sizeOf_lt_of_mem ha
      a.run_reading (env.choose i)
  have hmap : ∀ r : Run (Option Bool),
      (fun t : Option Term => t.bind Term.truth?) <$> Option.map Term.ofBool <$> r = r :=
    fun r => by simp only [← comp_map, Function.comp_def, truth_ofBool, id_map']
  cases e with
  | and args =>
    rw [Scope.truth, eval, evalAll_eq (hlist args (by simp)), hmap]
    rfl
  | or args =>
    rw [Scope.truth, eval, evalAny_eq (hlist args (by simp)), hmap]
    rfl
  | _ => rfl
termination_by sizeOf e

theorem eval_and (args : List Expr) : (and args).eval c h env =
    Option.map Term.ofBool <$> ((and args).reading (c.truth h) env).run :=
  evalAll_eq (fun a _ i => a.run_reading (env.choose i)) 0

theorem eval_or (args : List Expr) : (or args).eval c h env =
    Option.map Term.ofBool <$> ((or args).reading (c.truth h) env).run :=
  evalAny_eq (fun a _ i => a.run_reading (env.choose i)) 0 false

/-- A flattened expression is evaluated as the nested one. -/
theorem Flattens.eval_eq {flat nested : Expr} (hf : flat.Flattens nested)
    {P : Environment → Prop} (hs : Still (c.truth h) P flat.leaves) (hm : P env) :
    flat.eval c h env = nested.eval c h env := by
  have hreading := hf.reading_eq hs hm hm
  cases hf with
  | leaf => rfl
  | and => rw [eval_and, eval_and, hreading]
  | or => rw [eval_or, eval_or, hreading]

end Expr

namespace Context

variable {c : Context} {e : Expr} {env : Environment}

/-- The evaluation of an expression up to its truth value, with the leaves that are evaluated. -/
def reading (c : Context) (e : Expr) (env : Environment) : Reading (Option Bool) :=
  e.reading (c.truth (c.hooks c.depth)) env

theorem run_reading (c : Context) (e : Expr) (env : Environment) :
    (c.reading e env).run = (·.bind Term.truth?) <$> c.evaluate e env :=
  e.run_reading env

/-- Whether it makes no difference to the truth of an expression which ways are ahead: it does not
come to ask for snapshots, which would tell, or the ways are new to its evaluation. -/
inductive Indifferent (c : Context) (e : Expr) (env : Environment) : Prop
  | unasked (h : ∀ target, ¬ c.Reaches e.requests (.snapshot target))
  | unvisited {entailment : Bool} {history : List Insertion}
      (hstore : c.source.store = .after entailment history) (h : c.Unvisited e env)

theorem Indifferent.truth_eq (h : c.Indifferent e env) (ahead : List Nat) :
    c.truth (c.hooks c.depth) e { env with trail := ahead ++ env.trail } =
      c.truth (c.hooks c.depth) e env := by
  cases h with
  | unasked h =>
    have heval : c.evaluate e { env with trail := ahead ++ env.trail } = c.evaluate e env :=
      evaluate_upToTrail (c.closed_reaches e.requests) h (fun _ hr => .start hr) rfl
    exact congrArg (fun r : Run (Option Term) => (·.bind Term.truth?) <$> r) heval
  | unvisited hstore h =>
    have hs : c.source.store.Valid := hstore ▸ (Store.contains_after _ _).valid
    have hfree : c.source.store.ObjectFree := hstore ▸ Store.objectFree_after _ _
    have heval : e.eval c.toScope (c.hooks c.depth) { env with trail := ahead ++ env.trail } = _ :=
      h.evaluate_detour hs hfree ahead
    rw [Scope.truth, heval, ← comp_map]
    exact congrArg (· <$> c.evaluate e env) (funext
      (Expr.bind_truth_translated (T := (Rerouting.detour env.trail ahead).translation)))

theorem still_of_indifferent {ls : List Expr} (h : ∀ l ∈ ls, c.Indifferent l env) :
    Expr.Still (c.truth (c.hooks c.depth))
      (fun m => ∃ ahead, m = { env with trail := ahead ++ env.trail }) ls where
  choose i := by
    rintro ⟨ahead, rfl⟩
    exact ⟨i :: ahead, rfl⟩
  same l hl := by
    rintro _ _ ⟨ahead, rfl⟩ ⟨ahead', rfl⟩
    rw [(h l hl).truth_eq, (h l hl).truth_eq]

end Context

/-- However conjunctions and disjunctions are nested in an expression, it can be lowered with lists
of operands if and only if it can be with two operands at a time, and what comes of it has the same
run in every environment, by way of the same leaves. The one condition is on the way on which an
environment was come to: the snapshots at hand were not taken on ways that are still ahead. -/
theorem AlgebraExpr.evaluate_flattened (a : AlgebraExpr) (s : Lowering) :
    (∃ error, a.lower s = .error error ∧ a.lowerPairwise s = .error error) ∨
      ∃ flat nested s', a.lower s = .ok (flat, s') ∧ a.lowerPairwise s = .ok (nested, s') ∧
        ∀ (c : Context) (env : Environment), (∀ l ∈ flat.leaves, c.Indifferent l env) →
          c.evaluate flat env = c.evaluate nested env ∧
            (c.reading flat env).leaves = (c.reading nested env).leaves := by
  refine (a.flattens_lower s).imp id ?_
  rintro ⟨flat, nested, s', h, h', hf⟩
  refine ⟨flat, nested, s', h, h', fun c env hleaves => ?_⟩
  have hs := c.still_of_indifferent hleaves
  have hm : ∃ ahead, env = { env with trail := ahead ++ env.trail } := ⟨[], rfl⟩
  exact ⟨hf.eval_eq hs hm, congrArg Reading.leaves (hf.reading_eq hs hm hm)⟩

/-- A disjunction in which snapshots are compared with an earlier one and a pattern is asked for. -/
theorem AlgebraExpr.evaluate_flattened_snapshots :
    let y : Variable := ⟨"y"⟩
    let same : Expr := .binary .sameTerm (.var y) (.system none)
    let same' : AlgebraExpr := .binary .sameTerm (.var y) (.call (.custom Iri.kgSystem) [])
    let a : AlgebraExpr :=
      .or (.or same' (.and (.existence (.basic [])) (.and same' (.bound y)))) (.bound y)
    let flat : Expr := .or [same, .and [.existence 0, same, .bound y], .bound y]
    let nested : Expr := .or [.or [same, .and [.existence 0, .and [same, .bound y]]], .bound y]
    let c : Context :=
      { query := .ofParts { body := .filter flat, patterns := [.sequence []] },
        source := { store := {} } }
    let env : Environment := { bindings := [some (.snapshot "memory" [] [] [])], trail := [0] }
    (a.lower.run {}).map (·.1) = .ok flat ∧ (a.lowerPairwise.run {}).map (·.1) = .ok nested ∧
      c.evaluate flat env = c.evaluate nested env ∧
        (c.reading flat env).leaves = (c.reading nested env).leaves := by
  intro y same same' a flat nested c env
  have hflat : a.lower {} = .ok (flat, ⟨[.sequence []], 0⟩) := rfl
  have hnested : a.lowerPairwise {} = .ok (nested, ⟨[.sequence []], 0⟩) := by
    simp [a, same', AlgebraExpr.lowerPairwise]
    rfl
  refine ⟨rfl, congrArg (Except.map (·.1)) hnested, ?_⟩
  rcases a.evaluate_flattened {} with ⟨error, h, -⟩ | ⟨e, e', s', h, h', heq⟩
  · cases hflat.symm.trans h
  cases hflat.symm.trans h
  cases hnested.symm.trans h'
  have hstore : c.source.store = .after false [] := rfl
  refine heq c env fun l hl => .unvisited hstore ?_
  have hconstants : ∀ l ∈ flat.leaves, l.constants = [] := by decide
  exact {
    bindings := fun t ht => by
      obtain rfl : t = _ := Option.some.inj (List.mem_singleton.mp ht)
      intro way hway
      obtain rfl := List.mem_singleton.mp hway
      decide
    locals := List.forall_mem_nil _
    members := fun _ hg => by cases hg
    constants := fun t ht => by
      rw [hconstants l hl] at ht
      cases ht
    patterns := by
      intro p hp t ht
      obtain rfl := List.mem_singleton.mp hp
      cases ht
    definitions := fun hd => by cases hd }

end GraphQuery
