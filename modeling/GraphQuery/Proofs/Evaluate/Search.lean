import GraphQuery.Evaluate.Engine
import GraphQuery.Proofs.Evaluate.Solve

/-! The search on one memory undoes all that it does. If what follows a pattern gives back the
memory that it is handed, so does the pattern, and apart from the memory the search hands on what
the pattern yields in environments of their own. -/

namespace GraphQuery

variable {c : Context} {h : Hooks} {q : Query} {m : Environment} {σ : Type}
  {next : Context.Next σ} {s : σ}

/-- A step as a continuation that gives back the memory that it is handed. -/
def restoring (next : Context.Next σ) : Continuation σ := fun m s => keeping m <$> next m s

@[simp] theorem keeping_done (m : Environment) (s : σ) : keeping m (.done s) = .done (m, s) := rfl

@[simp] theorem keeping_yield (m : Environment) (s : σ) : keeping m (.yield s) = .yield (m, s) :=
  rfl

@[simp] theorem leaving_keeping (f : Environment → Environment) (m : Environment)
    (step : ForInStep σ) : leaving f (keeping m step) = keeping (f m) step := by
  cases step <;> rfl

theorem leaving_restoring (f : Environment → Environment) (m : Environment)
    (r : Run (ForInStep σ)) : leaving f <$> keeping m <$> r = keeping (f m) <$> r := by
  simp only [Functor.map_map, leaving_keeping]

theorem along_restoring (next : Context.Next σ) (i : Nat) :
    (restoring next).along i = restoring fun m s => next (m.choose i) s := by
  funext m s
  exact leaving_restoring _ _ _

theorem value_keeping (m : Environment) (step : ForInStep σ) :
    (keeping m step).value.2 = step.value := by
  cases step <;> rfl

theorem excluding_restoring (next : Context.Next σ) (excluded : List Solution) :
    (restoring next).excluding excluded = restoring fun m s =>
      if excluded.any fun other => m.solution.sharesSlot other && m.solution.compatible other
      then pure (.yield s) else next m s := by
  funext m s
  unfold Continuation.excluding restoring
  dsimp only
  split_ifs <;> rfl

theorem onMatch_restoring (next : Context.Next σ) (holds : Environment → Run Bool) :
    (restoring next).onMatch holds = restoring (fun m (found, s) => do
      if ← holds m then
        match ← next m s with
        | .done s => pure (.done (true, s))
        | .yield s => pure (.yield (true, s))
      else pure (.yield (found, s))) := by
  funext m ⟨found, s⟩
  unfold Continuation.onMatch restoring
  dsimp only
  rw [map_bind]
  refine bind_congr fun b => ?_
  split_ifs
  · rw [bind_map_left, map_bind]
    refine bind_congr fun step => ?_
    cases step <;> rfl
  · rfl

/-- Visiting with one memory that each step gives back. -/
theorem visit_restoring {α : Type} {f : Nat → α → Environment × σ → Run (ForInStep (Environment × σ))}
    {g : Nat → α → σ → Run (ForInStep σ)} {as : List α}
    (hf : ∀ i, ∀ a ∈ as, ∀ s, f i a (m, s) = keeping m <$> g i a s) (i : Nat) (s : σ) :
    Run.visit f i as (m, s) = keeping m <$> Run.visit g i as s := by
  induction as generalizing i s with
  | nil => rfl
  | cons a as ih =>
    rw [Run.visit, Run.visit, hf i a List.mem_cons_self, bind_map_left, map_bind]
    refine bind_congr fun step => ?_
    cases step with
    | done s => rfl
    | yield s => exact ih (fun j b hb => hf j b (List.mem_cons_of_mem _ hb)) (i + 1) s

/-! ### Attempts -/

namespace Attempt

/-- Whether freeing what an attempt has bound gives back a memory. -/
def Undoes (q : Query) (m : Environment) (a : Attempt) : Prop := a.memory.unbind q a.bound = m

/-- The memory of an attempt that fits. -/
def found? (a : Attempt) : Option Environment := if a.fits then some a.memory else none

theorem undoes_start (q : Query) (m : Environment) : Undoes q m { memory := m } := rfl

theorem Undoes.refuse {a : Attempt} {b : Bool} (ha : a.Undoes q m) :
    Undoes q m { a with fits := b } :=
  ha

/-- What has just been bound was free before. -/
theorem Undoes.bind {a b : Attempt} {v : Variable} {t : Term} (ha : a.Undoes q m)
    (hb : a.bind q v t = .ok b) : b.Undoes q m := by
  unfold Attempt.bind Environment.bind at hb
  cases hslot : q.slot? v with
  | none =>
    simp only [hslot] at hb
    cases hb
  | some slot =>
    cases hcur : (a.memory.bindings[slot]?).join with
    | some current =>
      by_cases hc : current = t
      · simp only [hslot, hcur, hc, if_true] at hb
        cases hb
        exact ha
      · simp only [hslot, hcur, hc, if_false] at hb
        cases hb
        exact ha
    | none =>
      simp only [hslot, hcur] at hb
      cases hb
      rw [← ha]
      have hfree : (a.memory.bindings.set slot (some t)).set slot none = a.memory.bindings := by
        rw [List.set_set]
        refine List.ext_getElem? fun i => ?_
        rw [List.getElem?_set]
        split_ifs with h1 h2
        · subst h1
          rw [List.getElem?_eq_getElem h2] at hcur ⊢
          exact congrArg some hcur.symm
        · subst h1
          rw [List.getElem?_eq_none (not_lt.mp h2)]
        · rfl
      simp [Undoes, Environment.unbind, hslot, hfree]

theorem bind?_eq {a : Attempt} (hf : a.fits = true) (v : Variable) (t : Term) :
    a.memory.bind? q v t = found? <$> a.bind q v t := by
  obtain ⟨m, bound, fits⟩ := a
  obtain rfl : fits = true := hf
  unfold Environment.bind? Attempt.bind
  cases m.bind q v t with
  | error e => rfl
  | ok b => cases b <;> rfl

theorem proceed_restoring {a : Attempt} (ha : a.Undoes q m) (s : σ) :
    a.proceed q (restoring next) s =
      keeping m <$> a.found?.elim (pure (.yield s)) fun m => next m s := by
  have hm : a.memory.unbind q a.bound = m := ha
  unfold proceed found?
  cases a.fits with
  | true => rw [if_pos rfl, if_pos rfl, restoring, leaving_restoring, hm]; rfl
  | false =>
    rw [if_neg Bool.false_ne_true, if_neg Bool.false_ne_true, map_pure, leaving, hm]
    rfl

end Attempt

/-- Whether an attempt takes back what it does to a memory, and succeeds with what a binding makes
of the memory. -/
structure Attempts (q : Query) (m : Environment) (x : Except QueryError Attempt)
    (y : Except QueryError (Option Environment)) : Prop where
  undoes : ∀ a, x = .ok a → a.Undoes q m
  found : y = Attempt.found? <$> x

namespace Attempts

variable {x : Except QueryError Attempt} {y : Except QueryError (Option Environment)}

theorem of_undoes {a : Attempt} (ha : a.Undoes q m) : Attempts q m (pure a) (pure a.found?) where
  undoes _ hb := Except.ok.inj hb ▸ ha
  found := rfl

theorem bind {a : Attempt} (ha : a.Undoes q m) (hf : a.fits = true) (v : Variable) (t : Term) :
    Attempts q m (a.bind q v t) (a.memory.bind? q v t) where
  undoes _ hb := ha.bind hb
  found := Attempt.bind?_eq hf v t

/-- An attempt that goes on with another one. -/
theorem andThen {f : Attempt → Except QueryError Attempt}
    {g : Environment → Except QueryError (Option Environment)} (hx : Attempts q m x y)
    (hf : ∀ a, a.Undoes q m → a.fits = true → Attempts q m (f a) (g a.memory)) :
    Attempts q m (x >>= fun a => if a.fits then f a else pure a)
      (y >>= fun r => r.elim (pure none) g) := by
  obtain ⟨hu, rfl⟩ := hx
  cases x with
  | error e => exact ⟨fun _ h => (by cases h), rfl⟩
  | ok a =>
    change Attempts q m (if a.fits then f a else pure a) (a.found?.elim (pure none) g)
    have ha := hu a rfl
    unfold Attempt.found?
    split_ifs with hfits
    · exact hf a ha hfits
    · have := of_undoes ha
      rwa [Attempt.found?, if_neg hfits] at this

/-- Going on from an attempt. -/
theorem proceed (hx : Attempts q m x y) (s : σ) :
    (do (← Run.ofExcept x).proceed q (restoring next) s) =
      keeping m <$> (Run.ofExcept y >>= fun r => r.elim (pure (.yield s)) fun m => next m s) := by
  obtain ⟨hu, rfl⟩ := hx
  cases x with
  | error e => rfl
  | ok a => exact Attempt.proceed_restoring (hu a rfl) s

end Attempts

/-! ### Walking backwards -/

namespace Source

variable {src : Source} {g : Ground}

theorem effectiveIndex_inverse_inverse (p : Path) (position : Position) :
    effectiveIndex (.inverse (.inverse p)) position = effectiveIndex p position := by
  rw [effectiveIndex, effectiveIndex]
  cases effectiveIndex p position <;> rfl

/-- A step that is reversed twice is the step itself. -/
theorem stepFrom_inverse_inverse (p : Path) :
    src.stepFrom g (.inverse (.inverse p)) = src.stepFrom g p := by
  funext t
  unfold stepFrom matchStep
  rw [effectiveIndex_inverse_inverse, stepPredicates?, stepPredicates?]

theorem stepFrom_eq_reach {p : Path} (hp : p.isStep = true) :
    src.stepFrom g p = src.reach g p false ∧ src.stepFrom g (.inverse p) = src.reach g p true := by
  induction p with
  | predicate | negated => exact ⟨rfl, rfl⟩
  | inverse p ih =>
    obtain ⟨hforwards, hbackwards⟩ := ih hp
    refine ⟨hbackwards, ?_⟩
    rw [stepFrom_inverse_inverse, hforwards]
    rfl
  | _ => cases hp

/-- To follow a path is to walk it, and to follow the reversed path is to walk it backwards. -/
theorem follow_eq_reach (p : Path) :
    src.follow g p = src.reach g p false ∧ src.follow g p.reverse = src.reach g p true := by
  induction p with
  | predicate | negated =>
    refine ⟨?_, ?_⟩ <;> funext t
    · rw [follow, reach]
      rfl
    · rw [Path.reverse, follow, reach]
      rfl
  | inverse p ih =>
    refine ⟨?_, ih.1⟩
    funext t
    rw [follow]
    split_ifs with hstep
    · exact congrFun (stepFrom_eq_reach hstep).2 t
    · exact congrFun ih.2 t
  | seq p q ihp ihq =>
    refine ⟨?_, ?_⟩ <;> funext t
    · rw [follow, ihp.1, ihq.1]
      rfl
    · rw [Path.reverse, follow, ihp.2, ihq.2]
      rfl
  | alt p q ihp ihq =>
    refine ⟨?_, ?_⟩ <;> funext t
    · rw [follow, ihp.1, ihq.1]
      rfl
    · rw [Path.reverse, follow, ihp.2, ihq.2]
      rfl
  | zeroOrMore p ih | oneOrMore p ih | zeroOrOne p ih =>
    refine ⟨?_, ?_⟩ <;> funext t
    · rw [follow, ih.1]
      rfl
    · rw [Path.reverse, follow, ih.2]
      rfl

end Source

namespace Context

theorem attempts_position {a : Attempt} (ha : a.Undoes c.query m) (hf : a.fits = true)
    (o : Occurrence) (position : Position) (n : NodePattern) :
    Attempts c.query m (c.fitPosition o position n a) (c.bindPosition o position n a.memory) := by
  have hcheck : ∀ b : Bool, Attempts c.query m (pure { a with fits := b })
      (pure (if b then some a.memory else none)) := fun b => .of_undoes ha.refuse
  unfold fitPosition bindPosition
  cases o.node position with
  | none => exact hcheck false
  | some actual =>
    cases n with
    | const t => exact hcheck _
    | var v =>
      dsimp only
      cases a.memory.get? c.query v with
      | some t => exact hcheck _
      | none => exact .bind ha hf v actual.term

theorem attempts_positions (o : Occurrence) (ps : List (Position × NodePattern)) {a : Attempt}
    (ha : a.Undoes c.query m) (hf : a.fits = true) :
    Attempts c.query m (c.fitPositions o ps a) (c.bindPositions o ps a.memory) := by
  induction ps generalizing a with
  | nil =>
    have := Attempts.of_undoes ha
    rwa [Attempt.found?, if_pos hf] at this
  | cons p ps ih =>
    have := (attempts_position ha hf o p.1 p.2).andThen fun b hb hf => ih hb hf
    refine ⟨this.undoes, Eq.trans ?_ this.found⟩
    rw [bindPositions]
    refine bind_congr fun r => ?_
    cases r <;> rfl

theorem attempts_node (n : NodePattern) (t : Term) (m : Environment) :
    Attempts c.query m (c.fitNode n t m) (c.bindStart n t m) := by
  cases n with
  | const u => exact .of_undoes (Attempt.undoes_start _ _)
  | var v => exact .bind (Attempt.undoes_start _ _) rfl v t

theorem bindEdge_eq_bindStart (e : EdgePattern) (graph : Option NodePattern) (o : Occurrence)
    (m : Environment) :
    c.bindEdge e graph o m = c.bindStart e.predicate o.edge.predicate.term m >>= fun r =>
      r.elim (pure none) (c.bindPositions o ([(.subject, e.subject), (.object, e.object)]
        ++ (graph.map fun g => (Position.graph, g)).toList)) := by
  unfold bindEdge bindStart
  cases e.predicate with
  | const t => rfl
  | var v =>
    refine bind_congr fun r => ?_
    cases r <;> rfl

theorem attempts_edge (e : EdgePattern) (graph : Option NodePattern) (o : Occurrence)
    (m : Environment) :
    Attempts c.query m (c.fitEdge e graph o m) (c.bindEdge e graph o m) := by
  rw [bindEdge_eq_bindStart]
  exact (attempts_node _ _ m).andThen fun a ha hf => attempts_positions o _ ha hf

theorem attempts_row (row : List (Variable × Option Term)) {a : Attempt}
    (ha : a.Undoes c.query m) (hf : a.fits = true) :
    Attempts c.query m (c.fitRow row a) (c.bindRow row a.memory) := by
  induction row generalizing a with
  | nil =>
    have := Attempts.of_undoes ha
    rwa [Attempt.found?, if_pos hf] at this
  | cons p row ih =>
    obtain ⟨v, _ | t⟩ := p
    · exact ih ha hf
    · have := (Attempts.bind ha hf v t.canonical).andThen fun b hb hf => ih hb hf
      refine ⟨this.undoes, Eq.trans ?_ this.found⟩
      rw [bindRow]
      refine bind_congr fun r => ?_
      cases r <;> rfl

/-! ### What binds variables -/

theorem withBinding_restoring (v : Variable) (t : Term) (next : Next σ) :
    c.withBinding v t (restoring next) = restoring fun m s => c.binding v t m next s := by
  funext m s
  have hx : Attempts c.query m (Attempt.bind { memory := m } c.query v t) (m.bind? c.query v t) :=
    .bind (Attempt.undoes_start _ _) rfl v t
  rw [withBinding, hx.proceed, restoring, binding]
  congr 1
  refine bind_congr fun r => ?_
  cases r <;> rfl

theorem searchEdge_restoring (e : EdgePattern) (m : Environment) (s : σ) :
    c.searchEdge e m (restoring next) s = keeping m <$> c.solveEdge e m next s := by
  refine visit_restoring (fun i o _ s => ?_) 0 s
  dsimp only
  rw [along_restoring, (attempts_edge e m.graph o m).proceed]
  congr 1
  refine bind_congr fun r => ?_
  cases r <;> rfl

theorem searchEnds_restoring (target : NodePattern) (reached : List Term) (m : Environment)
    (s : σ) : c.searchEnds target reached m (restoring next) s =
      keeping m <$> c.solveEnds target reached m next s := by
  refine visit_restoring (fun i t _ s => ?_) 0 s
  cases target with
  | const u =>
    dsimp only
    rw [along_restoring]
    split_ifs <;> rfl
  | var v =>
    dsimp only
    rw [withBinding_restoring, along_restoring]
    rfl

/-- A walk from one of the starts of a path. -/
def solveFrom (c : Context) (p : PathPattern) (backwards : Bool) (start target : NodePattern)
    (t : Term) (next : Next σ) (m : Environment) (s : σ) : Run (ForInStep σ) := do
  match ← Run.ofExcept (c.bindStart start t m) with
  | none => pure (.yield s)
  | some m => c.solveEnds target (c.source.reach ⟨c.query, m, p⟩ p.path backwards t) m next s

theorem searchFrom_restoring {p : PathPattern} {path : Path} {backwards : Bool}
    (hpath : ∀ m, c.source.follow ⟨c.query, m, p⟩ path =
      c.source.reach ⟨c.query, m, p⟩ p.path backwards) (start target : NodePattern)
    (t : Term) : c.searchFrom p path start target t (restoring next) =
      restoring (c.solveFrom p backwards start target t next) := by
  funext m s
  have hends : (fun m s => c.searchEnds target (c.source.follow ⟨c.query, m, p⟩ path t) m
      (restoring next) s) = restoring fun m s =>
        c.solveEnds target (c.source.reach ⟨c.query, m, p⟩ p.path backwards t) m next s := by
    funext m s
    rw [hpath]
    exact searchEnds_restoring target _ m s
  rw [searchFrom, hends, (attempts_node start t m).proceed, restoring, solveFrom]
  congr 1
  refine bind_congr fun r => ?_
  cases r <;> rfl

/-- Where walks start does not depend on how they go backwards. -/
theorem walks_eq (p : PathPattern) (m : Environment) :
    ∃ starts backwards start target, c.walk p m = (starts, backwards, start, target) ∧
      c.walks p m =
        (starts, if backwards then p.path.reverse else p.path, start, target) := by
  unfold walk walks
  dsimp only
  cases (Source.valueOf? c.query m p.subject).map Term.canonical with
  | some t => exact ⟨_, false, _, _, rfl, rfl⟩
  | none =>
    cases (Source.valueOf? c.query m p.object).map Term.canonical with
    | some t => exact ⟨_, true, _, _, rfl, rfl⟩
    | none => exact ⟨_, false, _, _, rfl, rfl⟩

theorem searchPath_restoring (p : PathPattern) (m : Environment) (s : σ) :
    c.searchPath p m (restoring next) s = keeping m <$> c.solvePath p m next s := by
  obtain ⟨starts, backwards, start, target, hwalk, hwalks⟩ := c.walks_eq p m
  have hpath : ∀ m, c.source.follow ⟨c.query, m, p⟩
      (if backwards then p.path.reverse else p.path) =
        c.source.reach ⟨c.query, m, p⟩ p.path backwards := fun m => by
    cases backwards
    · exact (Source.follow_eq_reach _).1
    · exact (Source.follow_eq_reach _).2
  unfold searchPath solvePath
  rw [hwalk, hwalks]
  refine visit_restoring (fun i t _ s => ?_) 0 s
  dsimp only
  rw [searchFrom_restoring hpath, along_restoring]
  rfl

theorem searchValues_restoring (vs : List Variable) (rows : List (List (Option Term)))
    (m : Environment) (s : σ) : c.searchValues vs rows m (restoring next) s =
      keeping m <$> c.solveValues vs rows m next s := by
  refine visit_restoring (fun i row _ s => ?_) 0 s
  have hx := attempts_row (vs.zip row) (Attempt.undoes_start c.query m) rfl
  dsimp only
  rw [along_restoring, hx.proceed]
  congr 1
  refine bind_congr fun r => ?_
  cases r <;> rfl

end Context

namespace Pattern

theorem searchAll_restoring {ps : List Pattern}
    (hps : ∀ p ∈ ps, ∀ (next : Context.Next σ) m s,
      p.search c h m (restoring next) s = keeping m <$> p.solve c h m next s)
    (m : Environment) (s : σ) :
    search.searchAll c h ps m (restoring next) s =
      keeping m <$> solve.solveAll c h ps m next s := by
  induction ps generalizing m s with
  | nil => rw [search.searchAll, solveAll_nil, restoring]
  | cons p ps ih =>
    obtain ⟨hp, hps⟩ := List.forall_mem_cons.mp hps
    cases ps with
    | nil => rw [search.searchAll, solve.solveAll, hp]
    | cons p' ps =>
      have hrest : (fun m s => search.searchAll c h (p' :: ps) m (restoring next) s) =
          restoring fun m s => solve.solveAll c h (p' :: ps) m next s := by
        funext m s
        exact ih hps m s
      rw [search.searchAll, hrest, hp, solveAll_cons]
      · exact List.cons_ne_nil _ _

theorem searching_restoring {p : Pattern} (hp : ∀ (next : Context.Next σ) m s,
      p.search c h m (restoring next) s = keeping m <$> p.solve c h m next s) :
    (fun m s => p.search c h m (restoring next) s) = restoring fun m s => p.solve c h m next s := by
  funext m s
  exact hp next m s

/-- The search with a step that gives back the memory it is handed gives back the memory as well,
and otherwise does what solving does. -/
theorem search_restoring (p : Pattern) {σ : Type} (next : Context.Next σ) (m : Environment)
    (s : σ) : p.search c h m (restoring next) s = keeping m <$> p.solve c h m next s := by
  cases p with
  | edge e => rw [search, solve, Context.searchEdge_restoring]
  | path p => rw [search, solve, Context.searchPath_restoring]
  | values vs rows => rw [search, solve, Context.searchValues_restoring]
  | sequence items =>
    rw [search, solve_sequence]
    refine searchAll_restoring (fun p hm next m s => ?_) m s
    have := List.sizeOf_lt_of_mem hm
    exact search_restoring p next m s
  | filter e =>
    rw [search, solve, map_bind]
    refine bind_congr fun b => ?_
    rw [along_restoring]
    cases b <;> rfl
  | bind v e =>
    rw [search, solve, map_bind]
    refine bind_congr fun t => ?_
    cases t with
    | none => rw [along_restoring]; rfl
    | some t =>
      dsimp only
      rw [Context.withBinding_restoring, along_restoring]
      rfl
  | union left right =>
    rw [search, solve, searching_restoring (search_restoring left), along_restoring,
      searching_restoring (search_restoring right), along_restoring, restoring, bind_map_left,
      map_bind]
    refine bind_congr fun step => ?_
    cases step <;> rfl
  | minus left right =>
    have hcollect : (fun m found => pure (.yield (m, m.solution :: found)) :
        Continuation (List Solution)) = restoring fun m found => pure (.yield (m.solution :: found)) :=
      rfl
    rw [search, solve, map_bind, hcollect, search_restoring right, bind_map_left]
    refine bind_congr fun excluded => ?_
    rw [value_keeping, excluding_restoring, searching_restoring (search_restoring left),
      along_restoring]
    rfl
  | optional left right condition =>
    rw [search, solve]
    dsimp only
    rw [← search_restoring left]
    congr 1
    funext m s
    rw [onMatch_restoring, searching_restoring (search_restoring right), along_restoring, restoring,
      bind_map_left]
    refine Eq.trans ?_ (map_bind _ _ _).symm
    refine Run.bind_eq_bind ?_ fun matched => ?_
    · cases condition <;> rfl
    · rw [along_restoring]
      rcases matched with ⟨found, s⟩ | ⟨_ | _, s⟩ <;> rfl
  | graph name inner =>
    have hback : ∀ r : Run (ForInStep σ),
        leaving (fun e => { e with graph := m.graph }) <$> keeping { m with graph := some name } <$> r =
          keeping m <$> r := fun r => leaving_restoring _ _ r
    cases name with
    | const t => rw [search, solve, search_restoring inner, hback]
    | var v =>
      rw [search, solve]
      dsimp only
      split_ifs
      · rw [searching_restoring (search_restoring inner)]
        refine (congrArg _ (visit_restoring (fun i g _ s => ?_) 0 s)).trans (hback _)
        dsimp only
        rw [Context.withBinding_restoring, along_restoring]
        rfl
      · rw [search_restoring inner, hback]
termination_by sizeOf p

end Pattern

namespace Context

/-- Solutions are collected by solving. -/
theorem solutions_eq (p : Pattern) (m : Environment) (limit : Option Nat) :
    c.solutions p m limit = (do
      let found ← p.solve c (c.hooks c.depth) m (collect limit) []
      pure found.value.reverse) := by
  have hcollect : collecting limit = restoring (collect limit) := rfl
  rw [solutions, hcollect, Pattern.search_restoring, bind_map_left]
  refine bind_congr fun found => ?_
  rw [value_keeping]

/-- Whether a pattern has a solution is found out by solving it. -/
theorem hasSolution_hooks (depth : Nat) (p : Pattern) (m : Environment) :
    (c.hooks (depth + 1)).hasSolution p m = (do
      let found ← p.solve c (c.hooks depth) m (collect (some 1)) []
      pure !found.value.isEmpty) := by
  have hcollect : collecting (some 1) = restoring (collect (some 1)) := rfl
  rw [hooks, hcollect]
  dsimp only
  rw [Pattern.search_restoring, bind_map_left]
  refine bind_congr fun found => ?_
  rw [value_keeping]

end Context

end GraphQuery
