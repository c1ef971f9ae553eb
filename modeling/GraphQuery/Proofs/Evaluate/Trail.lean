import GraphQuery.Proofs.Evaluate.Simple
import GraphQuery.Proofs.Evaluate.Termination
import GraphQuery.Proofs.Evaluate.Unread

/-! Evaluation and the way to an environment. The choices on the way are there for snapshots only,
so an expression that never comes to ask for one has the same run on every way, and a pattern goes
the same way from there. -/

namespace GraphQuery

namespace Environment

variable {a b : Environment}

/-- What does not depend on the way to an environment. -/
theorem eq_of_withoutTrail {α : Type} (f : Environment → α) (hf : ∀ e, f e.withoutTrail = f e)
    (h : a.withoutTrail = b.withoutTrail) : f a = f b := by
  rw [← hf a, h, hf b]

theorem exists_trail (h : a.withoutTrail = b.withoutTrail) :
    ∃ trail, b = { a with trail } := by
  obtain ⟨bindings, locals, graph, group, trail⟩ := a
  obtain ⟨bindings', locals', graph', group', trail'⟩ := b
  simp only [withoutTrail, mk.injEq, and_true] at h
  obtain ⟨rfl, rfl, rfl, rfl⟩ := h
  exact ⟨trail', rfl⟩

theorem restored_upToTrail (q : Query) (h : a.withoutTrail = b.withoutTrail) :
    (a.restored q).withoutTrail = (b.restored q).withoutTrail :=
  eq_of_withoutTrail (fun e => (e.restored q).withoutTrail) (fun _ => rfl) h

theorem sameBut_of_withoutTrail (q : Query) (h : a.withoutTrail = b.withoutTrail) :
    SameBut q (fun _ => False) a b := by
  obtain ⟨trail, rfl⟩ := exists_trail h
  exact ⟨fun _ _ => rfl, rfl, rfl, rfl, fun _ _ _ _ => id⟩

/-- If no variable is left out, environments are the same up to the ways. -/
theorem SameBut.withoutTrail_eq {q : Query} {X : Variable → Prop} (h : SameBut q X a b)
    (hX : ∀ v, ¬ X v) : a.withoutTrail = b.withoutTrail := by
  rw [withoutTrail, withoutTrail, h.bindings_eq hX, h.locals, h.graph, h.group]

/-- Attempts to bind are alike if they are the same up to the ways. -/
theorem alike_of_map {x x' : Except QueryError (Option Environment)}
    (h : x.map (Option.map withoutTrail) = x'.map (Option.map withoutTrail)) :
    Alike (fun a b => a.withoutTrail = b.withoutTrail) x x' := by
  rcases x with e | _ | a <;> rcases x' with e' | _ | b <;> try cases h
  · exact .error e
  · exact .none
  · exact .some (Option.some.inj (Except.ok.inj h))

end Environment

open Environment (exists_trail alike_of_map)

namespace Context

variable {c : Context}

theorem bindRow_withoutTrail (row : List (Variable × Option Term)) (env : Environment) :
    c.bindRow row env.withoutTrail =
      (c.bindRow row env).map (Option.map Environment.withoutTrail) := by
  induction row generalizing env with
  | nil => rfl
  | cons cell row ih =>
    obtain ⟨v, _ | t⟩ := cell
    · exact ih env
    · rw [bindRow, bindRow, bind_withoutTrail]
      rcases env.bind? c.query v t.canonical with e | _ | e
      · rfl
      · rfl
      · exact ih e

end Context

/-- A pattern is solved alike on every way, if the expressions in it are evaluated alike. -/
theorem Pattern.solve_upToTrail {c : Context} {h : Hooks} {A : Request → Prop} (p : Pattern)
    (hX : ∀ e : Expr, (∀ r ∈ e.requests, A r) → ∀ {a b : Environment},
      a.withoutTrail = b.withoutTrail → e.eval c.toScope h a = e.eval c.toScope h b)
    (hr : ∀ r ∈ p.requests, A r) {a b : Environment} (hab : a.withoutTrail = b.withoutTrail)
    {σ : Type} {next next' : Context.Next σ}
    (hn : ∀ a b, a.withoutTrail = b.withoutTrail → ∀ w, next a w = next' b w) (w : σ) :
    p.solve c h a next w = p.solve c h b next' w := by
  have hnone : ∀ v ∈ p.vars, ¬ (fun _ : Variable => False) v := fun _ _ => id
  refine p.solvedAlike_sameBut (fun Y hY e _ he _ _ hab => ?_) hnone hr _ _
    (Environment.sameBut_of_withoutTrail c.query hab) (fun a b hab => ?_) w
  · exact hX e he (hab.withoutTrail_eq hY)
  · exact hn a b (hab.withoutTrail_eq fun _ => id)

/-! ### Expressions -/

/-- Something that is said of the graph in force and the group of an environment, and holds of all
environments in which an expression comes to be evaluated from there. -/
structure Setting where
  holds : Option NodePattern → Option (List Solution) → Prop
  member : ∀ {graph group}, holds graph (some group) → holds none none

namespace Setting

variable {K : Setting} {a b : Environment}

def any : Setting := ⟨fun _ _ => True, id⟩

def At (K : Setting) (env : Environment) : Prop := K.holds env.graph env.group

end Setting

/-- The same query on other graphs. -/
def Query.restrictedTo (q : Query) (fromDefault fromNamed : List Term) : Query :=
  { q with fromDefault, fromNamed }

/-- Evaluation for the same query on other graphs. -/
def Scope.restrictedTo (c : Scope) (fromDefault fromNamed : List Term) : Scope :=
  { c with query := c.query.restrictedTo fromDefault fromNamed }

theorem Scope.exists_restrictedTo (c : Scope) (d n : List Term) (h : Hooks) (id : Nat)
    (env : Environment) :
    (c.restrictedTo d n).exists? h id env = c.exists? h id env :=
  rfl

theorem Scope.call_restrictedTo (c : Scope) (d n : List Term) (h : Hooks) (site : Nat) (name : Iri)
    (args : List Term) (env : Environment) :
    (c.restrictedTo d n).call h site name args env = c.call h site name args env :=
  rfl

/-- Whether what is asked for among some requests in some setting is answered in a related way, on
whatever ways, and there are no snapshots among them, which would tell the way. -/
structure Hooks.RelatedUpToTrail (R : ∀ α : Type, Run α → Run α → Prop) (K : Setting) (c : Scope)
    (A : Request → Prop) (h h' : Hooks) : Prop where
  snapshot : ∀ target, ¬ A (.snapshot target)
  existence : ∀ {id p}, A (.existence id) → c.query.pattern? id = some p →
    ∀ {a b : Environment}, a.withoutTrail = b.withoutTrail → K.At a →
      R Bool (h.hasSolution p (a.restored c.query)) (h'.hasSolution p (b.restored c.query))
  call : ∀ {site name count d}, A (.call site name count) → c.finds site name count = some d →
    ∀ {a b : Environment}, a.withoutTrail = b.withoutTrail → K.At a →
      R (Option Term) (h.body d.body a) (h'.body d.body b)

namespace Hooks.RelatedUpToTrail

variable {R : ∀ α : Type, Run α → Run α → Prop} {K : Setting} {c : Scope} {A : Request → Prop}
  {h h' : Hooks} {a b : Environment} {e : Expr} {d n : List Term}

theorem simulates (hh : RelatedUpToTrail R K c A h h') (hR : Run.Congruence R)
    (hrefl : ∀ {α : Type} (r : Run α), R α r r) :
    c.Simulates R (fun l a b => l = [] ∧ a.withoutTrail = b.withoutTrail ∧ K.At a) A
      (c.restrictedTo d n) h h' where
  congruence := hR
  vars := rfl
  choose i h := h
  setLocal v t _ h := ⟨by rw [h.1]; rfl, congrArg (Environment.setLocal · v t) h.2.1, h.2.2⟩
  enclosed h := by
    obtain ⟨rfl, h⟩ := h
    exact ⟨⟨rfl, h⟩, rfl, h⟩
  solution {l a b group s} i h hg _ := by
    have hk : K.holds a.graph a.group := h.2.2
    rw [hg] at hk
    exact ⟨rfl, rfl, K.member hk⟩
  existence {a b id} ha h := by
    rw [Scope.exists_restrictedTo]
    unfold Scope.exists?
    cases hp : c.query.pattern? id with
    | none => exact hrefl _
    | some p =>
      dsimp only
      split_ifs
      · exact hR.bind (hh.existence ha hp h.2.1 h.2.2) fun _ _ => hrefl _
      · exact hrefl _
  call {a b site name ts} ha h := by
    rw [Scope.call_restrictedTo]
    refine hR.bind (hrefl _) fun f hf => ?_
    cases f with
    | none => exact hrefl _
    | some f =>
      dsimp only
      split_ifs
      · exact hrefl _
      · refine hh.call ha (Except.ok.inj ((c.outcome_resolve _ _ _).symm.trans hf)) ?_ h.2.2
        obtain ⟨trail, rfl⟩ := exists_trail h.2.1
        rfl
  snapshot ha _ := (hh.snapshot _ ha).elim

theorem eval (hh : RelatedUpToTrail R K c A h h') (hR : Run.Congruence R)
    (hrefl : ∀ {α : Type} (r : Run α), R α r r) (he : ∀ r ∈ e.requests, A r)
    (hab : a.withoutTrail = b.withoutTrail) (hk : K.At a) :
    R (Option Term) (e.eval c h a) (e.eval (c.restrictedTo d n) h' b) := by
  have hget : ∀ v, a.get? c.query v = b.get? c.query v := fun v =>
    Environment.eq_of_withoutTrail (·.get? c.query v) (fun _ => rfl) hab
  have hgroup : a.group = b.group := Environment.eq_of_withoutTrail (·.group) (fun _ => rfl) hab
  have hs : c.Simulates R _ A (c.restrictedTo d n) h h' := hh.simulates hR hrefl
  have hr := e.eval_related hs [] a b
    ⟨⟨fun v _ => hget v, fun _ => hgroup⟩, he, fun _ => ⟨rfl, hab, hk⟩⟩
  rwa [e.substitute_nil] at hr

end Hooks.RelatedUpToTrail

/-! ### What an evaluation comes to ask for -/

/-- Whether an evaluation may come to ask for something, on its way through the patterns and the
definitions that are found. -/
inductive Scope.ComesTo (c : Scope) : Request → Prop
  | query {r : Request} (hr : r ∈ c.query.requests) : ComesTo c r
  | existence {id : Nat} {p : Pattern} {r : Request} (h : ComesTo c (.existence id))
    (hp : c.query.pattern? id = some p) (hr : r ∈ p.requests) : ComesTo c r
  | call {site count : Nat} {name : Iri} {d : Definition} {r : Request}
    (h : ComesTo c (.call site name count)) (hd : c.finds site name count = some d)
    (hr : r ∈ d.body.requests) : ComesTo c r

theorem Scope.closed_comesTo (c : Scope) : c.Closed c.ComesTo :=
  ⟨fun ha hp _ hm => .existence ha hp hm, fun ha hd _ hm => .call ha hd hm⟩

/-- A query that refers to nothing does not come to ask for anything. -/
theorem Scope.not_comesTo {c : Scope} (h : c.query.requests = []) (r : Request) :
    ¬ c.ComesTo r := by
  intro hr
  induction hr with
  | query hr =>
    rw [h] at hr
    cases hr
  | existence _ _ _ ih => exact ih
  | call _ _ _ ih => exact ih

namespace Context

variable {c : Context} {a b : Environment} {e : Expr}

section

variable {A : Request → Prop} (hA : c.Closed A) (hsystem : ∀ target, ¬ A (.snapshot target))

include hA hsystem

/-- However deep the references go. -/
theorem hooks_upToTrail (n : Nat) :
    Hooks.RelatedUpToTrail (fun _ => Eq) .any c.toScope A (c.hooks n) (c.hooks n) := by
  induction n with
  | zero => exact ⟨hsystem, fun _ _ _ _ _ _ => rfl, fun _ _ _ _ _ _ => rfl⟩
  | succ n ih =>
    refine ⟨hsystem, fun {id p} ha hp a b hab _ => ?_,
      fun {site name count d} ha hd a b hab _ => ?_⟩
    · have hdone : ∀ a b : Environment, a.withoutTrail = b.withoutTrail → ∀ found : Bool,
          (pure (.done true) : Run (ForInStep Bool)) = pure (.done true) := fun _ _ _ _ => rfl
      rw [hasSolution_eq, hasSolution_eq, p.solve_upToTrail
        (fun e he _ _ hab => ih.eval Run.congruence_eq (fun _ => rfl) he hab trivial)
        (hA.existence ha hp) (Environment.restored_upToTrail c.query hab) hdone]
    · exact ih.eval Run.congruence_eq (fun _ => rfl) (hA.call ha hd) hab trivial

/-- An expression has the same run on every way. -/
theorem evaluate_upToTrail (he : ∀ r ∈ e.requests, A r)
    (hab : a.withoutTrail = b.withoutTrail) : c.evaluate e a = c.evaluate e b :=
  (hooks_upToTrail hA hsystem c.depth).eval Run.congruence_eq (fun _ => rfl) he hab trivial

end

end Context

end GraphQuery
