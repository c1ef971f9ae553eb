import GraphQuery.Proofs.Algebra.Lowering
import GraphQuery.Proofs.Evaluate.Remembering

/-! The numbers of patterns whose existence is asked for. What an expression or a pattern of a
lowered query asks for is, number by number, what the algebra asks for in the same order, and
behind each number stands the lowering of the algebra in question. Lowering meets the parts of a
query in another order than that in which they stand, but it only ever adds patterns behind those
that it has met. -/

namespace GraphQuery

/-! ### What is asked for -/

/-- The pattern, if its existence is asked for. -/
def Request.existence? : Request → Option Nat
  | existence pattern => some pattern
  | call _ _ _ | snapshot _ | scope _ => none

/-- The patterns whose existence an expression asks for, in order. -/
def Expr.existences (e : Expr) : List Nat := e.requests.filterMap Request.existence?

/-- The patterns whose existence the expressions of a pattern ask for, in order. -/
def Pattern.existences (p : Pattern) : List Nat := p.requests.filterMap Request.existence?

theorem Request.mem_existences {rs : List Request} {id : Nat} :
    id ∈ rs.filterMap existence? ↔ .existence id ∈ rs := by
  rw [List.mem_filterMap]
  constructor
  · rintro ⟨r, hr, hid⟩
    cases r with
    | existence pattern => exact Option.some.inj hid ▸ hr
    | call | snapshot | scope => cases hid
  · exact fun hid => ⟨_, hid, rfl⟩

mutual

/-- The patterns whose existence an expression asks for itself, in order. -/
def AlgebraExpr.existences : AlgebraExpr → List Algebra
  | .const _ | .var _ | .bound _ => []
  | .not a | .unary _ a => a.existences
  | .or a b | .and a b | .binary _ a b => a.existences ++ b.existences
  | .member a list => a.existences ++ existencesOfAll list
  | .existence p => [p]
  | .cond test yes no => test.existences ++ yes.existences ++ no.existences
  | .coalesce args | .call _ args => existencesOfAll args

def existencesOfAll : List AlgebraExpr → List Algebra
  | [] => []
  | a :: as => a.existences ++ existencesOfAll as

end

/-- The patterns whose existence the expressions of a pattern ask for, in order. -/
def Algebra.existences : Algebra → List Algebra
  | .join l r | .union l r | .minus l r => l.existences ++ r.existences
  | .leftJoin l r condition =>
    l.existences ++ r.existences ++ (condition.map AlgebraExpr.existences).getD []
  | .filter e inner | .extend inner _ e => inner.existences ++ e.existences
  | .graph _ inner => inner.existences
  | .basic _ | .path _ _ _ | .values _ _ | .service _ _ _ | .orderBy _ _ | .project _ _
  | .distinct _ | .reduced _ | .slice _ _ _ | .group _ _ _ => []

def AlgebraKey.existences : AlgebraKey → List Algebra
  | ascending e | descending e => e.existences

def AlgebraAggregate.existences : AlgebraAggregate → List Algebra
  | solutions _ => []
  | apply _ argument _ => argument.existences

/-! ### What stands behind a number -/

/-- Whether the pattern under a number is what an algebra is lowered to, where all that the lowering
numbers comes before it. -/
def Registered (ps : List Pattern) (a : Algebra) (id : Nat) : Prop :=
  ∃ s p s', a.lower s = .ok (p, s') ∧ s'.patterns.length = id ∧ s'.patterns ++ [p] <+: ps

namespace Registered

variable {ps qs : List Pattern} {a : Algebra} {id : Nat}

theorem mono (h : Registered ps a id) (hps : ps <+: qs) : Registered qs a id := by
  obtain ⟨s, p, s', hp, hid, hprefix⟩ := h
  exact ⟨s, p, s', hp, hid, hprefix.trans hps⟩

theorem lt (h : Registered ps a id) : id < ps.length := by
  obtain ⟨s, p, s', -, rfl, hprefix⟩ := h
  simpa using hprefix.length_le

/-- The pattern behind a number, and the patterns before it. -/
theorem exists_lower (h : Registered ps a id) :
    ∃ s p s', a.lower s = .ok (p, s') ∧ s'.patterns = ps.take id ∧ ps[id]? = some p := by
  obtain ⟨s, p, s', hp, rfl, rest, rfl⟩ := h
  exact ⟨s, p, s', hp, by simp, by simp⟩

end Registered

/-- What a part of lowering does: it adds patterns, each of them the lowering of some algebra, and
the numbers in its result stand for given algebras. -/
structure Lowering.Adds (s s' : Lowering) (as : List Algebra) (ids : List Nat) : Prop where
  grows : s.patterns <+: s'.patterns
  complete : (∀ k < s.patterns.length, ∃ a, Registered s.patterns a k) →
    ∀ k < s'.patterns.length, ∃ a, Registered s'.patterns a k
  registered : List.Forall₂ (Registered s'.patterns) as ids

namespace Lowering.Adds

variable {s t u : Lowering} {as bs : List Algebra} {ids jds : List Nat}

theorem refl (s : Lowering) : Adds s s [] [] := ⟨List.prefix_rfl, id, .nil⟩

theorem append (h : Adds s t as ids) (h' : Adds t u bs jds) :
    Adds s u (as ++ bs) (ids ++ jds) where
  grows := h.grows.trans h'.grows
  complete := h'.complete ∘ h.complete
  registered := List.rel_append (h.registered.imp fun _ _ hr => hr.mono h'.grows) h'.registered

/-- What is lowered first may come last. -/
theorem prepend (h : Adds s t as ids) (h' : Adds t u bs jds) :
    Adds s u (bs ++ as) (jds ++ ids) where
  grows := h.grows.trans h'.grows
  complete := h'.complete ∘ h.complete
  registered := List.rel_append h'.registered (h.registered.imp fun _ _ hr => hr.mono h'.grows)

end Lowering.Adds

/-! ### Operands and steps -/

namespace Expr

variable {e : Expr} {es fs : List Expr}

theorem listRequests_append :
    requests.listRequests (es ++ fs) = requests.listRequests es ++ requests.listRequests fs := by
  induction es with
  | nil => rfl
  | cons e es ih => simp [requests.listRequests, ih]

@[simp] theorem listRequests_conjuncts (e : Expr) :
    requests.listRequests e.conjuncts = e.requests := by
  cases e <;> simp [conjuncts, requests, requests.listRequests]

@[simp] theorem listRequests_disjuncts (e : Expr) :
    requests.listRequests e.disjuncts = e.requests := by
  cases e <;> simp [disjuncts, requests, requests.listRequests]

end Expr

namespace Pattern

theorem listRequests_append {ps qs : List Pattern} :
    requests.listRequests (ps ++ qs) = requests.listRequests ps ++ requests.listRequests qs := by
  induction ps with
  | nil => rfl
  | cons p ps ih => simp [requests.listRequests, ih]

@[simp] theorem listRequests_steps (p : Pattern) : requests.listRequests p.steps = p.requests := by
  cases p <;> simp [steps, requests, requests.listRequests]

@[simp] theorem existences_followedBy (p q : Pattern) :
    (p.followedBy q).existences = p.existences ++ q.existences := by
  simp [followedBy, existences, requests, listRequests_append]

/-- Edges ask for nothing. -/
theorem listRequests_edges (ts : List TriplePattern) :
    requests.listRequests (ts.map fun t => .edge t.lower) = [] := by
  induction ts with
  | nil => rfl
  | cons t ts ih => rw [List.map_cons, requests.listRequests, ih, requests, List.append_nil]

end Pattern

/-! ### Expressions and patterns -/

open Lowering (Adds)

theorem adds_lowerExprs {as : List AlgebraExpr} {es : List Expr} {s s' : Lowering}
    (ha : ∀ a ∈ as, ∀ {e : Expr} {s s' : Lowering}, a.lower s = .ok (e, s') →
      Adds s s' a.existences e.existences)
    (h : lowerExprs as s = .ok (es, s')) :
    Adds s s' (existencesOfAll as)
      ((Expr.requests.listRequests es).filterMap Request.existence?) := by
  induction as generalizing es s with
  | nil =>
    rw [lowerExprs] at h
    cases h
    exact .refl _
  | cons a as ih =>
    rw [lowerExprs] at h
    obtain ⟨e, t, he, h⟩ := Lower.bind_eq_ok h
    obtain ⟨fs, u, hfs, h⟩ := Lower.bind_eq_ok h
    cases h
    rw [existencesOfAll, Expr.requests.listRequests, List.filterMap_append]
    exact (ha a List.mem_cons_self he).append
      (ih (fun b hb => ha b (List.mem_cons_of_mem _ hb)) hfs)

theorem adds_lowerSystem {as : List AlgebraExpr} {e : Expr} {s s' : Lowering}
    (h : lowerSystem as s = .ok (e, s')) : Adds s s' (existencesOfAll as) e.existences := by
  unfold lowerSystem at h
  split at h
  · cases h
    exact .refl _
  · cases h
    exact .refl _
  · cases h

theorem adds_lowerCondition {condition : Option AlgebraExpr} {c : Option Expr} {s s' : Lowering}
    (ha : ∀ a ∈ condition, ∀ {e : Expr} {s s' : Lowering}, a.lower s = .ok (e, s') →
      Adds s s' a.existences e.existences)
    (h : lowerCondition condition s = .ok (c, s')) :
    Adds s s' ((condition.map AlgebraExpr.existences).getD [])
      ((c.map Expr.existences).getD []) := by
  cases condition with
  | none =>
    rw [lowerCondition] at h
    cases h
    exact .refl _
  | some a =>
    rw [lowerCondition] at h
    obtain ⟨e, he, rfl⟩ := Lower.map_eq_ok h
    exact ha a rfl he

mutual

theorem AlgebraExpr.adds_lower (a : AlgebraExpr) {e : Expr} {s s' : Lowering}
    (h : a.lower s = .ok (e, s')) : Adds s s' a.existences e.existences := by
  have hlist : ∀ as : List AlgebraExpr, sizeOf as < sizeOf a → ∀ {es s s'},
      lowerExprs as s = .ok (es, s') → Adds s s' (existencesOfAll as)
        ((Expr.requests.listRequests es).filterMap Request.existence?) :=
    fun as hsz _ _ _ => adds_lowerExprs fun b hb _ _ _ =>
      have := List.sizeOf_lt_of_mem hb
      b.adds_lower
  cases a with
  | const | var | bound =>
    rw [AlgebraExpr.lower] at h
    cases h
    exact .refl _
  | existence p =>
    rw [AlgebraExpr.lower] at h
    obtain ⟨q, t, hq, h⟩ := Lower.bind_eq_ok h
    obtain ⟨id, hid, rfl⟩ := Lower.map_eq_ok h
    cases hid
    have hp := p.adds_lower hq
    have hlast : Registered (t.patterns ++ [q]) p t.patterns.length :=
      ⟨s, q, t, hq, rfl, List.prefix_rfl⟩
    refine ⟨hp.grows.trans (List.prefix_append _ _), fun hs k hk => ?_, .cons hlast .nil⟩
    rcases Nat.lt_succ_iff_lt_or_eq.mp (by simpa using hk) with hk | rfl
    · obtain ⟨b, hb⟩ := hp.complete hs k hk
      exact ⟨b, hb.mono (List.prefix_append _ _)⟩
    · exact ⟨p, hlast⟩
  | or a b =>
    rw [AlgebraExpr.lower] at h
    obtain ⟨l, r, t, hl, hr, rfl⟩ := Lower.bind_pair_eq_ok h
    simpa [Expr.existences, Expr.requests, Expr.listRequests_append, AlgebraExpr.existences] using
      (a.adds_lower hl).append (b.adds_lower hr)
  | and a b =>
    rw [AlgebraExpr.lower] at h
    obtain ⟨l, r, t, hl, hr, rfl⟩ := Lower.bind_pair_eq_ok h
    simpa [Expr.existences, Expr.requests, Expr.listRequests_append, AlgebraExpr.existences] using
      (a.adds_lower hl).append (b.adds_lower hr)
  | binary op a b =>
    rw [AlgebraExpr.lower] at h
    obtain ⟨l, r, t, hl, hr, rfl⟩ := Lower.bind_pair_eq_ok h
    simpa [Expr.existences, Expr.requests, AlgebraExpr.existences] using
      (a.adds_lower hl).append (b.adds_lower hr)
  | not a =>
    rw [AlgebraExpr.lower] at h
    obtain ⟨e, he, rfl⟩ := Lower.map_eq_ok h
    exact (a.adds_lower he :)
  | unary op a =>
    rw [AlgebraExpr.lower] at h
    obtain ⟨e, he, rfl⟩ := Lower.map_eq_ok h
    exact (a.adds_lower he :)
  | member a list =>
    rw [AlgebraExpr.lower] at h
    obtain ⟨e, es, t, he, hes, rfl⟩ := Lower.bind_pair_eq_ok h
    simpa [Expr.existences, Expr.requests, AlgebraExpr.existences] using
      (a.adds_lower he).append (hlist list (by simp) hes)
  | cond test yes no =>
    rw [AlgebraExpr.lower] at h
    obtain ⟨l, t, hl, h⟩ := Lower.bind_eq_ok h
    obtain ⟨m, r, u, hm, hr, rfl⟩ := Lower.bind_pair_eq_ok h
    simpa [Expr.existences, Expr.requests, Expr.requests.optionRequests, AlgebraExpr.existences] using
      ((test.adds_lower hl).append (yes.adds_lower hm)).append (no.adds_lower hr)
  | coalesce args =>
    rw [AlgebraExpr.lower] at h
    obtain ⟨es, hes, rfl⟩ := Lower.map_eq_ok h
    exact hlist args (by simp) hes
  | call f args =>
    cases f with
    | builtin f =>
      rw [AlgebraExpr.lower] at h
      obtain ⟨es, hes, rfl⟩ := Lower.map_eq_ok h
      exact hlist args (by simp) hes
    | missing name =>
      rw [AlgebraExpr.lower] at h
      cases h
    | custom name =>
      rw [AlgebraExpr.lower] at h
      split_ifs at h
      · exact adds_lowerSystem h
      · obtain ⟨es, t, hes, h⟩ := Lower.bind_eq_ok h
        obtain ⟨site, u, hsite, h⟩ := Lower.bind_eq_ok h
        cases hsite
        cases h
        have hargs := hlist args (by simp) hes
        -- The site that is taken leaves the patterns as they are.
        exact ⟨hargs.grows, hargs.complete, hargs.registered⟩
termination_by sizeOf a

/-- What the expressions of a pattern ask for is registered while the pattern is lowered. -/
theorem Algebra.adds_lower (a : Algebra) {p : Pattern} {s s' : Lowering}
    (h : a.lower s = .ok (p, s')) : Adds s s' a.existences p.existences := by
  cases a with
  | basic triples =>
    rw [Algebra.lower] at h
    cases h
    rw [Pattern.existences, Pattern.requests, Pattern.listRequests_edges]
    exact .refl _
  | path | values =>
    rw [Algebra.lower] at h
    cases h
    exact .refl _
  | join l r =>
    rw [Algebra.lower] at h
    obtain ⟨p, q, t, hp, hq, rfl⟩ := Lower.bind_pair_eq_ok h
    rw [Pattern.existences_followedBy]
    exact (l.adds_lower hp).append (r.adds_lower hq)
  | union l r =>
    rw [Algebra.lower] at h
    obtain ⟨p, q, t, hp, hq, rfl⟩ := Lower.bind_pair_eq_ok h
    simpa [Pattern.existences, Pattern.requests, Algebra.existences] using
      (l.adds_lower hp).append (r.adds_lower hq)
  | minus l r =>
    rw [Algebra.lower] at h
    obtain ⟨p, q, t, hp, hq, rfl⟩ := Lower.bind_pair_eq_ok h
    simpa [Pattern.existences, Pattern.requests, Algebra.existences] using
      (l.adds_lower hp).append (r.adds_lower hq)
  | leftJoin l r condition =>
    rw [Algebra.lower] at h
    obtain ⟨p, t, hp, h⟩ := Lower.bind_eq_ok h
    obtain ⟨q, c, u, hq, hc, rfl⟩ := Lower.bind_pair_eq_ok h
    have hcondition := adds_lowerCondition (fun a ha => a.adds_lower) hc
    have h := ((l.adds_lower hp).append (r.adds_lower hq)).append hcondition
    cases c with
    | none => simpa [Pattern.existences, Pattern.requests, Algebra.existences] using h
    | some c => simpa [Pattern.existences, Pattern.requests, Expr.existences, Algebra.existences] using h
  | filter e inner =>
    rw [Algebra.lower] at h
    obtain ⟨c, p, t, hc, hp, rfl⟩ := Lower.bind_pair_eq_ok h
    rw [Pattern.existences_followedBy]
    exact (e.adds_lower hc).prepend (inner.adds_lower hp)
  | extend inner v e =>
    rw [Algebra.lower] at h
    obtain ⟨c, p, t, hc, hp, rfl⟩ := Lower.bind_pair_eq_ok h
    rw [Pattern.existences_followedBy]
    exact (e.adds_lower hc).prepend (inner.adds_lower hp)
  | graph name inner =>
    rw [Algebra.lower] at h
    obtain ⟨p, hp, rfl⟩ := Lower.map_eq_ok h
    exact (inner.adds_lower hp :)
  | service | orderBy | project | distinct | reduced | slice | group =>
    rw [Algebra.lower] at h
    cases h
termination_by sizeOf a

end

/-! ### Queries -/

/-- Each member of a list asks for its own patterns. -/
theorem adds_mapM {α β : Type} {f : α → Lower β} (asked : α → List Algebra) (ids : β → List Nat)
    (hf : ∀ a s b s', f a s = .ok (b, s') → Adds s s' (asked a) (ids b)) {as : List α}
    {bs : List β} {s s' : Lowering} (h : as.mapM f s = .ok (bs, s')) :
    Adds s s' [] [] ∧
      List.Forall₂ (List.Forall₂ (Registered s'.patterns)) (as.map asked) (bs.map ids) := by
  obtain ⟨hadds, hall⟩ := Lower.forall₂_of_mapM (R := fun s s' => Adds s s' [] []) .refl .append
    (fun a s b s' hb => ⟨(hf a s b s' hb).grows, (hf a s b s' hb).complete, .nil⟩) h
  refine ⟨hadds, List.forall₂_map_left_iff.mpr (List.forall₂_map_right_iff.mpr ?_)⟩
  refine hall.imp fun a b hab => ?_
  obtain ⟨t, t', hb, hrest⟩ := hab
  exact (hf a t b t' hb).registered.imp fun _ _ hr => hr.mono hrest.grows

theorem AlgebraKey.adds_lower (k : AlgebraKey) {key : OrderKey} {s s' : Lowering}
    (h : k.lower s = .ok (key, s')) : Adds s s' k.existences key.expr.existences := by
  cases k with
  | ascending e | descending e =>
    obtain ⟨e', he, rfl⟩ := Lower.map_eq_ok h
    exact e.adds_lower he

theorem AggregateName.state_of_lower {f : AggregateName} {g : SetFunction} {s s' : Lowering}
    (h : f.lower s = .ok (g, s')) : s' = s := by
  cases f <;> cases h <;> rfl

theorem AlgebraAggregate.adds_lower (a : AlgebraAggregate) {e : Expr} {s s' : Lowering}
    (h : a.lower s = .ok (e, s')) : Adds s s' a.existences e.existences := by
  cases a with
  | solutions distinct =>
    cases h
    exact .refl _
  | apply f argument distinct =>
    obtain ⟨g, t, hg, h⟩ := Lower.bind_eq_ok h
    obtain ⟨e, u, he, h⟩ := Lower.bind_eq_ok h
    cases h
    rw [f.state_of_lower hg] at he
    exact (argument.adds_lower he :)

/-- Whether what the parts of a query ask for is, number by number, what the layers of an algebra ask
for in the same order. -/
structure Layers.Numbered (l : Layers) (p : QueryParts) : Prop where
  body : List.Forall₂ (Registered p.patterns) l.body.existences p.body.existences
  select : List.Forall₂ (List.Forall₂ (Registered p.patterns))
    (l.aggregates.map (·.2.existences) ++ (l.columns.map (·.2.existences)).reverse)
    (p.select.map (·.expr.existences))
  having : List.Forall₂ (Registered p.patterns)
    ((l.having.map (·.existences)).getD []) (p.having.flatMap (·.existences))
  groupBy : ∀ e ∈ p.groupBy, e.existences = []
  orderBy : List.Forall₂ (List.Forall₂ (Registered p.patterns))
    (l.orderBy.map (·.existences)) (p.orderBy.map (·.expr.existences))
  /-- A registered pattern is the lowering of an algebra, and asks for earlier ones only. -/
  patterns : ∀ (k : Nat) pattern, p.patterns[k]? = some pattern →
    ∃ a, Registered p.patterns a k ∧
      List.Forall₂ (Registered (p.patterns.take k)) a.existences pattern.existences

/-- Layers are lowered in an order of their own, but each part asks for its own patterns. -/
theorem Layers.numbered_lower {l : Layers} {p : QueryParts} {site : Nat} {s : Lowering}
    (h : l.lower { sites := site } = .ok (p, s)) :
    l.Numbered { p with patterns := s.patterns } := by
  obtain ⟨orderBy, s₁, horder, h⟩ := Lower.bind_eq_ok h
  obtain ⟨columns, s₂, hcolumns, h⟩ := Lower.bind_eq_ok h
  obtain ⟨having, s₃, hhaving, h⟩ := Lower.bind_eq_ok h
  obtain ⟨aggregates, s₄, haggregates, h⟩ := Lower.bind_eq_ok h
  obtain ⟨body, s₅, hbody, h⟩ := Lower.bind_eq_ok h
  cases h
  obtain ⟨a₁, horder⟩ := adds_mapM (·.existences) (·.expr.existences)
    (fun k _ _ _ hk => k.adds_lower hk) horder
  obtain ⟨a₂, hcolumns⟩ := adds_mapM (·.2.existences) (·.expr.existences)
    (fun column _ _ _ hc => by
      obtain ⟨e, he, rfl⟩ := Lower.map_eq_ok hc
      exact column.2.adds_lower he) hcolumns
  have a₃ := adds_lowerCondition (fun a _ => a.adds_lower) hhaving
  obtain ⟨a₄, haggregates⟩ := adds_mapM (·.2.existences) (·.expr.existences)
    (fun column _ _ _ hc => by
      obtain ⟨e, he, rfl⟩ := Lower.map_eq_ok hc
      exact column.2.adds_lower he) haggregates
  have a₅ := l.body.adds_lower hbody
  have hlater : ∀ {ps qs : List Pattern}, ps <+: qs → ∀ {as ids},
      List.Forall₂ (List.Forall₂ (Registered ps)) as ids →
        List.Forall₂ (List.Forall₂ (Registered qs)) as ids :=
    fun hps _ _ h => h.imp fun _ _ h => h.imp fun _ _ h => h.mono hps
  have h₄ := a₅.grows
  have h₃ := a₄.grows.trans h₄
  have h₂ := a₃.grows.trans h₃
  have h₁ := a₂.grows.trans h₂
  refine ⟨a₅.registered, ?_, ?_, ?_, hlater h₁ horder, fun k pattern hk => ?_⟩
  · rw [List.map_append, List.map_reverse]
    exact List.rel_append (hlater h₄ haggregates) (List.rel_reverse (hlater h₂ hcolumns))
  · have hhaving := a₃.registered.imp fun _ _ h => h.mono h₃
    cases having <;> simpa using hhaving
  · simp [Expr.existences, Expr.requests]
  · have hlt := (List.getElem?_eq_some_iff.mp hk).1
    have hall := a₅.complete (a₄.complete (a₃.complete (a₂.complete (a₁.complete (by simp)))))
    obtain ⟨a, ha⟩ := hall k hlt
    obtain ⟨t, q, t', hq, ht, hget⟩ := ha.exists_lower
    obtain rfl : q = pattern := Option.some.inj (hget.symm.trans hk)
    exact ⟨a, ha, ht ▸ (a.adds_lower hq).registered⟩

/-- A lowered query is made of the lowered layers. -/
theorem AlgebraQuery.exists_layers_lower {a : AlgebraQuery} {site : Nat} {q : Query}
    (h : a.lower site = .ok q) :
    ∃ p s, a.pattern.layers.lower { sites := site } = .ok (p, s) ∧
      q = .ofParts { (if a.form = .ask then { p with project := some [], limit := some 1 } else p) with
        patterns := s.patterns
        fromDefault := a.fromDefault.map .iri
        fromNamed := a.fromNamed.map .iri } := by
  unfold lower at h
  cases hp : a.parts.run { sites := site } with
  | error e => simp [hp, bind, Except.bind] at h
  | ok x =>
    obtain ⟨p, s⟩ := x
    rw [hp] at h
    obtain rfl := Except.ok.inj h
    unfold parts at hp
    cases hf : a.form with
    | select =>
      rw [hf] at hp
      exact ⟨p, s, hp, rfl⟩
    | ask =>
      rw [hf] at hp
      obtain ⟨p, t, hp, ht⟩ := Lower.bind_eq_ok hp
      cases ht
      exact ⟨p, s, hp, rfl⟩
    | construct | describe =>
      rw [hf] at hp
      cases hp

theorem AlgebraQuery.numbered_lower {a : AlgebraQuery} {site : Nat} {q : Query}
    (h : a.lower site = .ok q) : a.pattern.layers.Numbered q.toQueryParts := by
  obtain ⟨p, s, hp, rfl⟩ := exists_layers_lower h
  have hn := Layers.numbered_lower hp
  split_ifs
  all_goals exact ⟨hn.body, hn.select, hn.having, hn.groupBy, hn.orderBy, hn.patterns⟩

/-- A lowered query defines no functions. -/
theorem AlgebraQuery.functions_of_lower {a : AlgebraQuery} {site : Nat} {q : Query}
    (h : a.lower site = .ok q) : q.functions = {} := by
  obtain ⟨p, s, hp, rfl⟩ := exists_layers_lower h
  have hf : p.functions = {} := by
    obtain ⟨orderBy, s₁, -, hp⟩ := Lower.bind_eq_ok hp
    obtain ⟨columns, s₂, -, hp⟩ := Lower.bind_eq_ok hp
    obtain ⟨having, s₃, -, hp⟩ := Lower.bind_eq_ok hp
    obtain ⟨aggregates, s₄, -, hp⟩ := Lower.bind_eq_ok hp
    obtain ⟨body, s₅, -, hp⟩ := Lower.bind_eq_ok hp
    cases hp
    rfl
  split_ifs <;> exact hf

namespace Layers.Numbered

variable {l : Layers} {q : Query} {id : Nat}

theorem exists_of_mem {α β : Type} {R : α → β → Prop} {as : List α} {bs : List β} {b : β}
    (h : List.Forall₂ R as bs) (hb : b ∈ bs) : ∃ a, R a b := by
  induction h with
  | nil => cases hb
  | cons hab _ ih =>
    rcases List.mem_cons.mp hb with rfl | hb
    · exact ⟨_, hab⟩
    · exact ih hb

/-- What a query asks for is registered. -/
theorem lt (h : l.Numbered q.toQueryParts) (hid : .existence id ∈ q.requests) :
    id < q.patterns.length := by
  suffices hr : ∃ a, Registered q.patterns a id from hr.elim fun _ hr => hr.lt
  have hmember : ∀ {as : List (List Algebra)} {ids : List (List Nat)},
      List.Forall₂ (List.Forall₂ (Registered q.patterns)) as ids → (∃ js ∈ ids, id ∈ js) →
        ∃ a, Registered q.patterns a id := fun hall ⟨js, hjs, hid⟩ =>
    let ⟨_, has⟩ := exists_of_mem hall hjs
    exists_of_mem has hid
  simp only [Query.requests, List.mem_append] at hid
  rcases hid with (((hid | hid) | hid) | hid) | hid
  · exact exists_of_mem h.body (Request.mem_existences.mpr hid)
  · obtain ⟨item, hm, hid⟩ := List.mem_flatMap.mp hid
    exact hmember h.select ⟨_, List.mem_map_of_mem hm, Request.mem_existences.mpr hid⟩
  · obtain ⟨e, hm, hid⟩ := List.mem_flatMap.mp hid
    have hid : id ∈ e.existences := Request.mem_existences.mpr hid
    rw [h.groupBy e hm] at hid
    cases hid
  · obtain ⟨e, hm, hid⟩ := List.mem_flatMap.mp hid
    exact exists_of_mem h.having
      (List.mem_flatMap.mpr ⟨e, hm, Request.mem_existences.mpr hid⟩)
  · obtain ⟨k, hm, hid⟩ := List.mem_flatMap.mp hid
    exact hmember h.orderBy ⟨_, List.mem_map_of_mem hm, Request.mem_existences.mpr hid⟩

/-- A registered pattern asks for earlier ones. -/
theorem lt_of_pattern (h : l.Numbered q.toQueryParts) {k : Nat} {p : Pattern}
    (hp : q.pattern? k = some p) (hid : .existence id ∈ p.requests) : id < k := by
  obtain ⟨a, -, ha⟩ := h.patterns k p hp
  obtain ⟨b, hb⟩ := exists_of_mem ha (Request.mem_existences.mpr hid)
  exact hb.lt.trans_le (List.length_take_le _ _)

end Layers.Numbered

end GraphQuery
