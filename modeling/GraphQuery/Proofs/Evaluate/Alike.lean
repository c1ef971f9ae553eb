import GraphQuery.Proofs.Evaluate.PatternTrace

/-! Solving from two environments. If two environments are related, and each step from there leads to
related ones on both sides, whatever follows a pattern is run on related environments. The relation is
a parameter: environments may differ in the graph in force, in what is bound to some variables, or in
the way to them. -/

namespace GraphQuery

namespace Environment

/-- Attempts to bind that end alike. -/
inductive Alike (R : Environment → Environment → Prop) :
    Except QueryError (Option Environment) → Except QueryError (Option Environment) → Prop
  | error (e : QueryError) : Alike R (.error e) (.error e)
  | none : Alike R (.ok none) (.ok none)
  | some {a b : Environment} (h : R a b) : Alike R (.ok (some a)) (.ok (some b))

namespace Alike

variable {R R' : Environment → Environment → Prop}
  {r r' : Except QueryError (Option Environment)}
  {f f' : Option Environment → Except QueryError (Option Environment)}

theorem andThen (h : Alike R r r') (hn : Alike R' (f .none) (f' .none))
    (hs : ∀ a b, R a b → Alike R' (f (.some a)) (f' (.some b))) : Alike R' (r >>= f) (r' >>= f') := by
  cases h with
  | error e => exact .error e
  | none => exact hn
  | some h => exact hs _ _ h

theorem run_eq {σ : Type} {k k' : Option Environment → Run σ} (h : Alike R r r')
    (hn : k .none = k' .none) (hs : ∀ a b, R a b → k (.some a) = k' (.some b)) :
    (Run.ofExcept r >>= k) = (Run.ofExcept r' >>= k') := by
  cases h with
  | error e => rfl
  | none => rw [Run.ofExcept_ok, pure_bind, pure_bind, hn]
  | some h => rw [Run.ofExcept_ok, Run.ofExcept_ok, pure_bind, pure_bind, hs _ _ h]

/-- Rows of values are bound cell by cell. -/
theorem bindRow {c : Context} {row : List (Variable × Option Term)}
    (hb : ∀ cell ∈ row, ∀ a b, R a b → ∀ t, Alike R (a.bind? c.query cell.1 t) (b.bind? c.query cell.1 t))
    {a b : Environment} (hR : R a b) : Alike R (c.bindRow row a) (c.bindRow row b) := by
  induction row generalizing a b with
  | nil => exact .some hR
  | cons cell row ih =>
    obtain ⟨hc, hcs⟩ := List.forall_mem_cons.mp hb
    obtain ⟨v, _ | t⟩ := cell
    · exact ih hcs hR
    · rw [Context.bindRow, Context.bindRow]
      exact (hc a b hR t.canonical).andThen .none fun a b h => ih hcs h

end Alike

end Environment

open Environment

namespace Pattern

/-- Whether two patterns are solved alike from related environments, if what follows is run alike on
related environments. -/
def SolvedAlike (c : Context) (h : Hooks) (R : Environment → Environment → Prop) (p p' : Pattern) :
    Prop :=
  ∀ (a b : Environment), R a b → ∀ {σ : Type} {next next' : Context.Next σ},
    (∀ a b, R a b → ∀ w, next a w = next' b w) → ∀ w, p.solve c h a next w = p'.solve c h b next' w

section

variable {c : Context} {h : Hooks} {R : Environment → Environment → Prop}
  {left left' right right' : Pattern} {e e' : Expr} {v : Variable}

theorem solvedAlike_sequence {ps ps' : List Pattern}
    (hps : List.Forall₂ (SolvedAlike c h R) ps ps') :
    SolvedAlike c h R (sequence ps) (sequence ps') := by
  intro a b hR σ next next' hn w
  rw [solve_sequence, solve_sequence]
  induction hps generalizing a b w with
  | nil => exact hn a b hR w
  | cons hp _ ih =>
    rw [solveAll_cons, solveAll_cons]
    exact hp a b hR ih w

variable (hchoose : ∀ i {a b}, R a b → R (a.choose i) (b.choose i))

include hchoose

theorem solvedAlike_optional (hl : SolvedAlike c h R left left') (hr : SolvedAlike c h R right right')
    {condition condition' : Option Expr}
    (hc : ∀ {a b}, R a b → condition.map (·.eval c.toScope h a) =
      condition'.map (·.eval c.toScope h b)) :
    SolvedAlike c h R (optional left right condition) (optional left' right' condition') := by
  intro a b hR σ next next' hn w
  rw [solve, solve]
  refine hl _ _ hR (fun a b hR w => Run.bind_eq_bind ?_ fun matched => ?_) w
  · refine hr _ _ (hchoose 0 hR) (fun a b hR state => ?_) (false, w)
    have he := hc hR
    cases condition with
    | none =>
      cases condition' with
      | none => simp only [hn a b hR]
      | some e' => cases he
    | some e =>
      cases condition' with
      | none => cases he
      | some e' => simp only [Expr.test, Option.some.inj he, hn a b hR]
  · rcases matched with ⟨_, w⟩ | ⟨_ | _, w⟩
    · rfl
    · exact hn _ _ (hchoose 1 hR) w
    · rfl

theorem solvedAlike_union (hl : SolvedAlike c h R left left') (hr : SolvedAlike c h R right right') :
    SolvedAlike c h R (union left right) (union left' right') := by
  intro a b hR σ next next' hn w
  rw [solve, solve]
  refine Run.bind_eq_bind (hl _ _ (hchoose 0 hR) hn w) fun step => ?_
  cases step with
  | done w => rfl
  | yield w => exact hr _ _ (hchoose 1 hR) hn w

/-- The solutions of the right side have to be the same, since they are only compared. -/
theorem solvedAlike_minus (hl : SolvedAlike c h R left left')
    (hr : ∀ {a b}, R a b → right.solve c h (apart c a)
      (fun e found => pure (.yield (e.solution :: found))) ([] : List Solution) =
        right'.solve c h (apart c b) (fun e found => pure (.yield (e.solution :: found))) [])
    (hx : ∀ {a b}, R a b → ∀ {a' b'}, R a' b' →
      ((right.trace c h (apart c a)).items.any fun e =>
        a'.solution.sharesSlot e.solution && a'.solution.compatible e.solution) =
          (right.trace c h (apart c a)).items.any fun e =>
            b'.solution.sharesSlot e.solution && b'.solution.compatible e.solution) :
    SolvedAlike c h R (minus left right) (minus left' right') := by
  intro a b hab σ next next' hn w
  rw [solve, solve, ← apart, ← apart, ← hr hab, solve_eq_run right, Trace.run_collect, bind_assoc,
    bind_assoc]
  refine bind_congr fun _ => ?_
  rw [pure_bind, pure_bind]
  refine hl _ _ (hchoose 1 hab) (fun a' b' hR w => ?_) w
  simp only [ForInStep.value, List.append_nil, List.any_reverse, List.any_map, Function.comp_def,
    hx hab hR, hn a' b' hR]

theorem solvedAlike_filter
    (he : ∀ {a b}, R a b → e.eval c.toScope h a = e'.eval c.toScope h b) :
    SolvedAlike c h R (filter e) (filter e') := by
  intro a b hR σ next next' hn w
  rw [solve, solve, Expr.test, Expr.test, he (hchoose 0 hR)]
  refine bind_congr fun holds => ?_
  split_ifs
  · exact hn _ _ (hchoose 1 hR) w
  · rfl

theorem solvedAlike_bind (he : ∀ {a b}, R a b → e.eval c.toScope h a = e'.eval c.toScope h b)
    (hb : ∀ a b, R a b → ∀ t, Alike R (a.bind? c.query v t) (b.bind? c.query v t)) :
    SolvedAlike c h R (bind v e) (bind v e') := by
  intro a b hR σ next next' hn w
  rw [solve, solve, he (hchoose 0 hR)]
  refine bind_congr fun t => ?_
  cases t with
  | none => exact hn _ _ (hchoose 1 hR) w
  | some t => exact (hb _ _ (hchoose 1 hR) t.canonical).run_eq rfl fun a b hR => hn a b hR w

theorem solvedAlike_values {vs : List Variable} {rows : List (List (Option Term))}
    (hb : ∀ v ∈ vs, ∀ a b, R a b → ∀ t, Alike R (a.bind? c.query v t) (b.bind? c.query v t)) :
    SolvedAlike c h R (values vs rows) (values vs rows) := by
  intro a b hR σ next next' hn w
  rw [solve, solve]
  refine Run.visit_congr (fun i row _ w => ?_) 0 w
  have hrow : Alike R (c.bindRow (vs.zip row) a) (c.bindRow (vs.zip row) b) :=
    .bindRow (fun cell hc => hb _ (List.of_mem_zip hc).1) hR
  exact hrow.run_eq rfl fun a b hR => hn _ _ (hchoose i hR) w

end

end Pattern

end GraphQuery
