import GraphQuery.Proofs.Algebra.Bag
import GraphQuery.Proofs.Evaluate.Coincidence

/-! The lowering of expressions that ask for no pattern. It numbers nothing, and what it makes is
evaluated from the values of the variables that were there before. -/

namespace GraphQuery

namespace Lower

variable {α β : Type} {m : Lower α} {s s' : Lowering}

theorem run_bind (m : Lower α) (f : α → Lower β) (s : Lowering) :
    (m >>= f) s = (m s).bind fun found => f found.1 found.2 :=
  rfl

theorem bind_eq_ok {f : α → Lower β} {b : β} (h : (m >>= f) s = .ok (b, s')) :
    ∃ a t, m s = .ok (a, t) ∧ f a t = .ok (b, s') := by
  rw [run_bind] at h
  cases hm : m s with
  | error e => simp [hm, Except.bind] at h
  | ok p => exact ⟨p.1, p.2, rfl, by simpa [hm, Except.bind] using h⟩

theorem bind_pair_eq_ok {n : Lower β} {γ : Type} {f : α → β → γ} {x : γ}
    (h : (do let a ← m; let b ← n; pure (f a b)) s = .ok (x, s')) :
    ∃ a b t, m s = .ok (a, t) ∧ n t = .ok (b, s') ∧ f a b = x := by
  obtain ⟨a, t, ha, h⟩ := bind_eq_ok h
  obtain ⟨b, u, hb, h⟩ := bind_eq_ok h
  cases h
  exact ⟨a, b, t, ha, hb, rfl⟩

theorem map_eq_ok {f : α → β} {b : β} (h : (f <$> m) s = .ok (b, s')) :
    ∃ a, m s = .ok (a, s') ∧ f a = b := by
  rw [map_eq_pure_bind] at h
  obtain ⟨a, t, ha, hb⟩ := bind_eq_ok h
  cases hb
  exact ⟨a, ha, rfl⟩

theorem pure_eq_ok {a b : α} (h : (pure a : Lower α) s = .ok (b, s')) : a = b := by
  cases h
  rfl

/-- Lowering a list, member by member. -/
theorem forall₂_of_mapM {f : α → Lower β} {R : Lowering → Lowering → Prop} (refl : ∀ s, R s s)
    (trans : ∀ {s t u}, R s t → R t u → R s u)
    (hf : ∀ a s b s', f a s = .ok (b, s') → R s s') {as : List α} {bs : List β} {s s' : Lowering}
    (h : as.mapM f s = .ok (bs, s')) :
    R s s' ∧ List.Forall₂ (fun a b => ∃ t t', f a t = .ok (b, t') ∧ R t' s') as bs := by
  induction as generalizing bs s with
  | nil =>
    rw [List.mapM_nil] at h
    cases h
    exact ⟨refl _, .nil⟩
  | cons a as ih =>
    rw [List.mapM_cons] at h
    obtain ⟨b, t, hb, h⟩ := bind_eq_ok h
    obtain ⟨bs, u, hbs, h⟩ := bind_eq_ok h
    cases h
    obtain ⟨hrest, hall⟩ := ih hbs
    exact ⟨trans (hf a s b t hb) hrest, .cons ⟨s, t, hb, hrest⟩ hall⟩

end Lower

/-! ### Operands -/

namespace Expr

variable {e : Expr} {es fs : List Expr} {v : Variable}

theorem allPure_append :
    isPure.allPure (es ++ fs) = (isPure.allPure es && isPure.allPure fs) := by
  induction es with
  | nil => rfl
  | cons e es ih => simp [isPure.allPure, ih, Bool.and_assoc]

theorem listVariables_append :
    vars.listVariables (es ++ fs) = vars.listVariables es ++ vars.listVariables fs := by
  induction es with
  | nil => rfl
  | cons e es ih => simp [vars.listVariables, ih]

@[simp] theorem allPure_conjuncts (e : Expr) : isPure.allPure e.conjuncts = e.isPure := by
  cases e <;> simp [conjuncts, isPure, isPure.allPure]

@[simp] theorem allPure_disjuncts (e : Expr) : isPure.allPure e.disjuncts = e.isPure := by
  cases e <;> simp [disjuncts, isPure, isPure.allPure]

@[simp] theorem listVariables_conjuncts (e : Expr) : vars.listVariables e.conjuncts = e.vars := by
  cases e <;> simp [conjuncts, vars, vars.listVariables]

@[simp] theorem listVariables_disjuncts (e : Expr) : vars.listVariables e.disjuncts = e.vars := by
  cases e <;> simp [disjuncts, vars, vars.listVariables]

end Expr

namespace Pattern

theorem listVariables_append (ps qs : List Pattern) :
    vars.listVariables (ps ++ qs) = vars.listVariables ps ++ vars.listVariables qs := by
  induction ps with
  | nil => rfl
  | cons p ps ih => simp [vars.listVariables, ih]

theorem listVariables_steps (p : Pattern) : vars.listVariables p.steps = p.vars := by
  cases p <;> simp [steps, vars, vars.listVariables]

@[simp] theorem vars_followedBy (p q : Pattern) : (p.followedBy q).vars = p.vars ++ q.vars := by
  rw [followedBy, vars, listVariables_append, listVariables_steps, listVariables_steps]

end Pattern

/-! ### Plain expressions -/

namespace AlgebraExpr

/-- What a plain expression is lowered to, whatever was met before. -/
structure Lowered (a : AlgebraExpr) (e : Expr) : Prop where
  eq : a.lower = pure e
  isPure : e.isPure = true
  vars : ∀ v ∈ e.vars, v ∈ a.vars

/-- An expression with two operands. -/
theorem Lowered.pair {a b x : AlgebraExpr} {l r : Expr} {f : Expr → Expr → Expr}
    (hl : a.Lowered l) (hr : b.Lowered r)
    (hx : x.lower = do let l ← a.lower; let r ← b.lower; pure (f l r))
    (hp : (f l r).isPure = (l.isPure && r.isPure)) (hf : (f l r).vars = l.vars ++ r.vars)
    (hv : x.vars = a.vars ++ b.vars) : x.Lowered (f l r) where
  eq := by simp [hx, hl.eq, hr.eq]
  isPure := by simp [hp, hl.isPure, hr.isPure]
  vars v hm := by
    rw [hf, List.mem_append] at hm
    rw [hv, List.mem_append]
    exact hm.imp (hl.vars v) (hr.vars v)

theorem lowered_all {as : List AlgebraExpr} {es : List Expr} {s s' : Lowering}
    (ha : ∀ a ∈ as, ∀ {e : Expr} {s s' : Lowering}, a.isPlain = true → a.lower s = .ok (e, s') →
      a.Lowered e)
    (hp : isPlain.allPlain as = true) (h : lowerExprs as s = .ok (es, s')) :
    lowerExprs as = pure es ∧ Expr.isPure.allPure es = true ∧
      ∀ v ∈ Expr.vars.listVariables es, v ∈ vars.listVariables as := by
  induction as generalizing es s s' with
  | nil =>
    rw [lowerExprs] at h ⊢
    obtain rfl := Lower.pure_eq_ok h
    exact ⟨rfl, rfl, by simp [Expr.vars.listVariables]⟩
  | cons a as ih =>
    obtain ⟨hpa, hpas⟩ := Bool.and_eq_true_iff.mp hp
    rw [lowerExprs] at h ⊢
    obtain ⟨e, t, he, h⟩ := Lower.bind_eq_ok h
    obtain ⟨fs, u, hfs, h⟩ := Lower.bind_eq_ok h
    obtain rfl := Lower.pure_eq_ok h
    have hl := ha a List.mem_cons_self hpa he
    obtain ⟨heq, hpure, hvars⟩ := ih (fun b hb => ha b (List.mem_cons_of_mem _ hb)) hpas hfs
    refine ⟨by simp [hl.eq, heq], by simp [Expr.isPure.allPure, hl.isPure, hpure], fun v hv => ?_⟩
    simp only [Expr.vars.listVariables, vars.listVariables, List.mem_append] at hv ⊢
    exact hv.imp (hl.vars v) (hvars v)

/-- A plain expression becomes one that is evaluated from values alone. -/
theorem lowered_of_isPlain (a : AlgebraExpr) {e : Expr} {s s' : Lowering}
    (hp : a.isPlain = true) (h : a.lower s = .ok (e, s')) : a.Lowered e := by
  have hlist : ∀ (as : List AlgebraExpr), sizeOf as < sizeOf a → ∀ {es s s'},
      isPlain.allPlain as = true → lowerExprs as s = .ok (es, s') →
      lowerExprs as = pure es ∧ Expr.isPure.allPure es = true ∧
        ∀ v ∈ Expr.vars.listVariables es, v ∈ vars.listVariables as :=
    fun as hsz _ _ _ => lowered_all fun b hb _ _ _ =>
      have := List.sizeOf_lt_of_mem hb
      lowered_of_isPlain b
  cases a with
  | const t =>
    rw [lower] at h
    obtain rfl := Lower.pure_eq_ok h
    exact ⟨by rw [lower], rfl, by simp [Expr.vars]⟩
  | var v =>
    rw [lower] at h
    obtain rfl := Lower.pure_eq_ok h
    exact ⟨by rw [lower], rfl, by simp [Expr.vars, vars]⟩
  | bound v =>
    rw [lower] at h
    obtain rfl := Lower.pure_eq_ok h
    exact ⟨by rw [lower], rfl, by simp [Expr.vars, vars]⟩
  | existence p => cases hp
  | or a b =>
    obtain ⟨hpa, hpb⟩ := Bool.and_eq_true_iff.mp hp
    rw [lower] at h
    obtain ⟨l, r, t, hl, hr, rfl⟩ := Lower.bind_pair_eq_ok h
    refine Lowered.pair (f := fun l r => .or (l.disjuncts ++ r.disjuncts)) (lowered_of_isPlain a hpa hl)
      (lowered_of_isPlain b hpb hr) (by rw [lower]) ?_ ?_ (by rw [vars])
    · simp [Expr.isPure, Expr.allPure_append]
    · simp [Expr.vars, Expr.listVariables_append]
  | and a b =>
    obtain ⟨hpa, hpb⟩ := Bool.and_eq_true_iff.mp hp
    rw [lower] at h
    obtain ⟨l, r, t, hl, hr, rfl⟩ := Lower.bind_pair_eq_ok h
    refine Lowered.pair (f := fun l r => .and (l.conjuncts ++ r.conjuncts)) (lowered_of_isPlain a hpa hl)
      (lowered_of_isPlain b hpb hr) (by rw [lower]) ?_ ?_ (by rw [vars])
    · simp [Expr.isPure, Expr.allPure_append]
    · simp [Expr.vars, Expr.listVariables_append]
  | not a =>
    rw [lower] at h
    obtain ⟨e, he, rfl⟩ := Lower.map_eq_ok h
    have hl := lowered_of_isPlain a hp he
    exact ⟨by simp [lower, hl.eq], hl.isPure, hl.vars⟩
  | unary op a =>
    rw [lower] at h
    obtain ⟨e, he, rfl⟩ := Lower.map_eq_ok h
    have hl := lowered_of_isPlain a hp he
    exact ⟨by simp [lower, hl.eq], hl.isPure, hl.vars⟩
  | binary op a b =>
    obtain ⟨hpa, hpb⟩ := Bool.and_eq_true_iff.mp hp
    rw [lower] at h
    obtain ⟨l, r, t, hl, hr, rfl⟩ := Lower.bind_pair_eq_ok h
    exact Lowered.pair (f := .binary op) (lowered_of_isPlain a hpa hl)
      (lowered_of_isPlain b hpb hr) (by rw [lower]) (by rw [Expr.isPure]) (by rw [Expr.vars])
      (by rw [vars])
  | member a list =>
    obtain ⟨hpa, hpl⟩ := Bool.and_eq_true_iff.mp hp
    rw [lower] at h
    obtain ⟨l, t, hl, h⟩ := Lower.bind_eq_ok h
    obtain ⟨es, u, hes, h⟩ := Lower.bind_eq_ok h
    obtain rfl := Lower.pure_eq_ok h
    have hl := lowered_of_isPlain a hpa hl
    obtain ⟨heq, hpure, hvars⟩ := hlist list (by simp) hpl hes
    refine ⟨by simp [lower, hl.eq, heq], by simp [Expr.isPure, hl.isPure, hpure],
      fun v hv => ?_⟩
    simp only [Expr.vars, vars, List.mem_append] at hv ⊢
    exact hv.imp (hl.vars v) (hvars v)
  | cond test yes no =>
    obtain ⟨hpty, hpn⟩ := Bool.and_eq_true_iff.mp hp
    obtain ⟨hpt, hpy⟩ := Bool.and_eq_true_iff.mp hpty
    rw [lower] at h
    obtain ⟨l, t, hl, h⟩ := Lower.bind_eq_ok h
    obtain ⟨m, u, hm, h⟩ := Lower.bind_eq_ok h
    obtain ⟨r, w, hr, h⟩ := Lower.bind_eq_ok h
    obtain rfl := Lower.pure_eq_ok h
    have hl := lowered_of_isPlain test hpt hl
    have hm := lowered_of_isPlain yes hpy hm
    have hr := lowered_of_isPlain no hpn hr
    refine ⟨by simp [lower, hl.eq, hm.eq, hr.eq],
      by simp [Expr.isPure, Expr.isPure.optionPure, hl.isPure, hm.isPure, hr.isPure],
      fun v hv => ?_⟩
    simp only [Expr.vars, Expr.vars.optionVariables, vars, List.mem_append] at hv ⊢
    exact hv.imp (Or.imp (hl.vars v) (hm.vars v)) (hr.vars v)
  | coalesce args =>
    rw [lower] at h
    obtain ⟨es, hes, rfl⟩ := Lower.map_eq_ok h
    obtain ⟨heq, hpure, hvars⟩ := hlist args (by simp) hp hes
    exact ⟨by simp [lower, heq], hpure, hvars⟩
  | call f args =>
    cases f with
    | builtin f =>
      rw [lower] at h
      obtain ⟨es, hes, rfl⟩ := Lower.map_eq_ok h
      obtain ⟨heq, hpure, hvars⟩ := hlist args (by simp) hp hes
      exact ⟨by simp [lower, heq], hpure, hvars⟩
    | missing name =>
      rw [lower] at h
      cases h
    | custom name => cases hp
termination_by sizeOf a

end AlgebraExpr

end GraphQuery
