import GraphQuery.Processor
import GraphQuery.Proofs.Algebra.Numbering
import GraphQuery.Proofs.Store.Contents

/-! The placeholders of a query text: variables and blank nodes. Lowering makes a variable of each
place where one stands, also inside of patterns whose existence is asked for. Two placeholders become
the same variable only if a blank node meets a variable that has its label behind an underscore. -/

namespace GraphQuery

inductive Placeholder where
  | var (v : Variable)
  | blank (label : String)
deriving DecidableEq

def Placeholder.lower : Placeholder → Variable
  | var v => v
  | blank label => .ofBlank label

/-! ### Places -/

def TermPattern.placeholders : TermPattern → List Placeholder
  | var v => [.var v]
  | blank label => [.blank label]
  | const _ => []

def NodePattern.placeholders (n : NodePattern) : List Placeholder := n.vars.map .var

def TriplePattern.placeholders (t : TriplePattern) : List Placeholder :=
  t.subject.placeholders ++ t.predicate.placeholders ++ t.object.placeholders

mutual

/-- The placeholders of an expression and of the patterns in it, place by place. -/
def AlgebraExpr.placeholders : AlgebraExpr → List Placeholder
  | .const _ => []
  | .var v | .bound v => [.var v]
  | .not a | .unary _ a => a.placeholders
  | .or a b | .and a b | .binary _ a b => a.placeholders ++ b.placeholders
  | .member a list => a.placeholders ++ placeholdersOfAll list
  | .existence p => p.placeholders
  | .cond test yes no => test.placeholders ++ yes.placeholders ++ no.placeholders
  | .coalesce args | .call _ args => placeholdersOfAll args

def placeholdersOfAll : List AlgebraExpr → List Placeholder
  | [] => []
  | a :: as => a.placeholders ++ placeholdersOfAll as

def placeholdersOfCondition : Option AlgebraExpr → List Placeholder
  | none => []
  | some a => a.placeholders

def AlgebraKey.placeholders : AlgebraKey → List Placeholder
  | .ascending e | .descending e => e.placeholders

def placeholdersOfKeys : List AlgebraKey → List Placeholder
  | [] => []
  | k :: ks => k.placeholders ++ placeholdersOfKeys ks

def AlgebraAggregate.placeholders : AlgebraAggregate → List Placeholder
  | .solutions _ => []
  | .apply _ argument _ => argument.placeholders

def placeholdersOfAggregate : Variable × AlgebraAggregate → List Placeholder
  | (v, a) => a.placeholders ++ [.var v]

def placeholdersOfAggregates : List (Variable × AlgebraAggregate) → List Placeholder
  | [] => []
  | a :: as => placeholdersOfAggregate a ++ placeholdersOfAggregates as

/-- The placeholders of a pattern with all its modifiers, place by place. -/
def Algebra.placeholders : Algebra → List Placeholder
  | .basic triples => triples.flatMap TriplePattern.placeholders
  | .path s _ o => s.placeholders ++ o.placeholders
  | .join l r | .union l r | .minus l r => l.placeholders ++ r.placeholders
  | .leftJoin l r condition => l.placeholders ++ r.placeholders ++ placeholdersOfCondition condition
  | .filter e inner => inner.placeholders ++ e.placeholders
  | .graph name inner | .service name inner _ => name.placeholders ++ inner.placeholders
  | .extend inner v e => inner.placeholders ++ e.placeholders ++ [.var v]
  | .values vs _ => vs.map .var
  | .orderBy inner keys => inner.placeholders ++ placeholdersOfKeys keys
  | .project inner vs => inner.placeholders ++ vs.map .var
  | .distinct inner | .reduced inner | .slice inner _ _ => inner.placeholders
  | .group inner keys aggregates =>
    inner.placeholders ++ keys.map .var ++ placeholdersOfAggregates aggregates

end

/-- How often a variable stands in the patterns that lowering has met. -/
def Lowering.uses (s : Lowering) (v : Variable) : Nat := (s.patterns.flatMap Pattern.vars).count v

/-- Whether a part of lowering makes one variable of each placeholder, in its result or in the patterns
that it registers, and no others. -/
def Lowering.Places (s s' : Lowering) (ps : List Placeholder) (vs : List Variable) : Prop :=
  ∀ v, vs.count v + s'.uses v = (ps.map Placeholder.lower).count v + s.uses v

namespace Lowering.Places

variable {s t u : Lowering} {ps qs : List Placeholder} {vs ws : List Variable}

/-- A part that registers no pattern. -/
theorem refl (s : Lowering) (ps : List Placeholder) : Places s s ps (ps.map Placeholder.lower) :=
  fun _ => rfl

theorem append (hp : Places s t ps vs) (hq : Places t u qs ws) :
    Places s u (ps ++ qs) (vs ++ ws) := by
  intro v
  have hp := hp v
  have hq := hq v
  simp only [List.map_append, List.count_append]
  omega

/-- Parts may be lowered in another order than that in which they stand. -/
theorem append_swap (hp : Places s t ps vs) (hq : Places t u qs ws) :
    Places s u (qs ++ ps) (ws ++ vs) := by
  intro v
  have hpq := hp.append hq v
  simp only [List.map_append, List.count_append] at hpq ⊢
  omega

end Lowering.Places

open Lowering (Places)

theorem TermPattern.vars_eq_placeholders (t : TermPattern) :
    t.lower.vars = t.placeholders.map Placeholder.lower := by
  cases t <;> rfl

theorem NodePattern.map_placeholders (n : NodePattern) :
    n.placeholders.map Placeholder.lower = n.vars := by
  cases n <;> rfl

theorem map_lower_var (vs : List Variable) :
    (vs.map Placeholder.var).map Placeholder.lower = vs := by
  rw [List.map_map]
  exact List.map_id vs

theorem Pattern.vars_edges (ts : List TriplePattern) :
    vars.listVariables (ts.map fun t => .edge t.lower) =
      (ts.flatMap TriplePattern.placeholders).map Placeholder.lower := by
  induction ts with
  | nil => rfl
  | cons t ts ih =>
    have ht : t.lower.vars = t.placeholders.map Placeholder.lower := by
      simp only [TriplePattern.lower, EdgePattern.vars, TriplePattern.placeholders, List.map_append,
        TermPattern.vars_eq_placeholders, NodePattern.map_placeholders]
    rw [List.map_cons, vars.listVariables, ih, vars, ht, List.flatMap_cons, List.map_append]

/-! ### Expressions and patterns -/

theorem places_lowerExprs {as : List AlgebraExpr} {es : List Expr} {s s' : Lowering}
    (ha : ∀ a ∈ as, ∀ {e : Expr} {s s' : Lowering}, a.lower s = .ok (e, s') →
      Places s s' a.placeholders e.vars)
    (h : lowerExprs as s = .ok (es, s')) :
    Places s s' (placeholdersOfAll as) (Expr.vars.listVariables es) := by
  induction as generalizing es s with
  | nil =>
    rw [lowerExprs] at h
    cases h
    exact fun _ => rfl
  | cons a as ih =>
    rw [lowerExprs] at h
    obtain ⟨e, t, he, h⟩ := Lower.bind_eq_ok h
    obtain ⟨fs, u, hfs, h⟩ := Lower.bind_eq_ok h
    cases h
    rw [placeholdersOfAll, Expr.vars.listVariables]
    exact (ha a List.mem_cons_self he).append
      (ih (fun b hb => ha b (List.mem_cons_of_mem _ hb)) hfs)

theorem places_lowerSystem {as : List AlgebraExpr} {e : Expr} {s s' : Lowering}
    (h : lowerSystem as s = .ok (e, s')) : Places s s' (placeholdersOfAll as) e.vars := by
  unfold lowerSystem at h
  split at h
  · cases h
    exact fun _ => rfl
  · cases h
    exact fun _ => rfl
  · cases h

theorem places_lowerCondition {condition : Option AlgebraExpr} {c : Option Expr} {s s' : Lowering}
    (ha : ∀ a ∈ condition, ∀ {e : Expr} {s s' : Lowering}, a.lower s = .ok (e, s') →
      Places s s' a.placeholders e.vars)
    (h : lowerCondition condition s = .ok (c, s')) :
    Places s s' (placeholdersOfCondition condition) ((c.map Expr.vars).getD []) := by
  cases condition with
  | none =>
    rw [lowerCondition] at h
    cases h
    exact fun _ => rfl
  | some a =>
    rw [lowerCondition] at h
    obtain ⟨e, he, rfl⟩ := Lower.map_eq_ok h
    exact ha a rfl he

mutual

theorem AlgebraExpr.places_lower (a : AlgebraExpr) {e : Expr} {s s' : Lowering}
    (h : a.lower s = .ok (e, s')) : Places s s' a.placeholders e.vars := by
  have hlist : ∀ as : List AlgebraExpr, sizeOf as < sizeOf a → ∀ {es s s'},
      lowerExprs as s = .ok (es, s') →
        Places s s' (placeholdersOfAll as) (Expr.vars.listVariables es) :=
    fun as hsz _ _ _ => places_lowerExprs fun b hb _ _ _ =>
      have := List.sizeOf_lt_of_mem hb
      b.places_lower
  cases a with
  | const | var | bound =>
    rw [AlgebraExpr.lower] at h
    cases h
    exact fun _ => rfl
  | existence p =>
    rw [AlgebraExpr.lower] at h
    obtain ⟨q, t, hq, h⟩ := Lower.bind_eq_ok h
    obtain ⟨id, hid, rfl⟩ := Lower.map_eq_ok h
    cases hid
    intro v
    have hp := p.places_lower hq v
    simp only [Lowering.uses, List.flatMap_append, List.flatMap_cons, List.flatMap_nil,
      List.append_nil, List.count_append, Expr.vars, List.count_nil] at hp ⊢
    rw [AlgebraExpr.placeholders]
    omega
  | or a b =>
    rw [AlgebraExpr.lower] at h
    obtain ⟨l, r, t, hl, hr, rfl⟩ := Lower.bind_pair_eq_ok h
    rw [AlgebraExpr.placeholders, Expr.vars, Expr.listVariables_append,
      Expr.listVariables_disjuncts, Expr.listVariables_disjuncts]
    exact (a.places_lower hl).append (b.places_lower hr)
  | and a b =>
    rw [AlgebraExpr.lower] at h
    obtain ⟨l, r, t, hl, hr, rfl⟩ := Lower.bind_pair_eq_ok h
    rw [AlgebraExpr.placeholders, Expr.vars, Expr.listVariables_append,
      Expr.listVariables_conjuncts, Expr.listVariables_conjuncts]
    exact (a.places_lower hl).append (b.places_lower hr)
  | binary op a b =>
    rw [AlgebraExpr.lower] at h
    obtain ⟨l, r, t, hl, hr, rfl⟩ := Lower.bind_pair_eq_ok h
    rw [AlgebraExpr.placeholders, Expr.vars]
    exact (a.places_lower hl).append (b.places_lower hr)
  | not a | unary op a =>
    rw [AlgebraExpr.lower] at h
    obtain ⟨e, he, rfl⟩ := Lower.map_eq_ok h
    exact (a.places_lower he :)
  | member a list =>
    rw [AlgebraExpr.lower] at h
    obtain ⟨e, es, t, he, hes, rfl⟩ := Lower.bind_pair_eq_ok h
    rw [AlgebraExpr.placeholders, Expr.vars]
    exact (a.places_lower he).append (hlist list (by simp) hes)
  | cond test yes no =>
    rw [AlgebraExpr.lower] at h
    obtain ⟨l, t, hl, h⟩ := Lower.bind_eq_ok h
    obtain ⟨m, r, u, hm, hr, rfl⟩ := Lower.bind_pair_eq_ok h
    rw [AlgebraExpr.placeholders, Expr.vars, Expr.vars.optionVariables]
    exact ((test.places_lower hl).append (yes.places_lower hm)).append (no.places_lower hr)
  | coalesce args =>
    rw [AlgebraExpr.lower] at h
    obtain ⟨es, hes, rfl⟩ := Lower.map_eq_ok h
    exact hlist args (by simp) hes
  | call f args =>
    cases f with
    | builtin f =>
      rw [AlgebraExpr.lower] at h
      obtain ⟨es, hes, rfl⟩ := Lower.map_eq_ok h
      exact hlist args (by simp) hes
    | missing name =>
      rw [AlgebraExpr.lower] at h
      cases h
    | custom name =>
      rw [AlgebraExpr.lower] at h
      split_ifs at h
      · exact places_lowerSystem h
      · obtain ⟨es, t, hes, h⟩ := Lower.bind_eq_ok h
        obtain ⟨site, u, hsite, h⟩ := Lower.bind_eq_ok h
        cases hsite
        cases h
        exact fun v => hlist args (by simp) hes v
termination_by sizeOf a

theorem Algebra.places_lower (a : Algebra) {p : Pattern} {s s' : Lowering}
    (h : a.lower s = .ok (p, s')) : Places s s' a.placeholders p.vars := by
  cases a with
  | basic triples =>
    rw [Algebra.lower] at h
    cases h
    intro v
    rw [Pattern.vars, Pattern.vars_edges, Algebra.placeholders]
  | path subject step object =>
    rw [Algebra.lower] at h
    cases h
    intro v
    simp only [Pattern.vars, PathPattern.vars, TermPattern.vars_eq_placeholders, Algebra.placeholders,
      List.map_append]
  | values vs rows =>
    rw [Algebra.lower] at h
    cases h
    intro v
    rw [Pattern.vars, Algebra.placeholders, map_lower_var]
  | join l r =>
    rw [Algebra.lower] at h
    obtain ⟨p, q, t, hp, hq, rfl⟩ := Lower.bind_pair_eq_ok h
    rw [Algebra.placeholders, Pattern.vars_followedBy]
    exact (l.places_lower hp).append (r.places_lower hq)
  | union l r | minus l r =>
    rw [Algebra.lower] at h
    obtain ⟨p, q, t, hp, hq, rfl⟩ := Lower.bind_pair_eq_ok h
    rw [Algebra.placeholders, Pattern.vars]
    exact (l.places_lower hp).append (r.places_lower hq)
  | leftJoin l r condition =>
    rw [Algebra.lower] at h
    obtain ⟨p, t, hp, h⟩ := Lower.bind_eq_ok h
    obtain ⟨q, c, u, hq, hc, rfl⟩ := Lower.bind_pair_eq_ok h
    rw [Algebra.placeholders, Pattern.vars]
    exact ((l.places_lower hp).append (r.places_lower hq)).append
      (places_lowerCondition (fun a ha => a.places_lower) hc)
  | filter e inner =>
    rw [Algebra.lower] at h
    obtain ⟨c, p, t, hc, hp, rfl⟩ := Lower.bind_pair_eq_ok h
    rw [Algebra.placeholders, Pattern.vars_followedBy, Pattern.vars]
    exact (e.places_lower hc).append_swap (inner.places_lower hp)
  | extend inner w e =>
    rw [Algebra.lower] at h
    obtain ⟨c, p, t, hc, hp, rfl⟩ := Lower.bind_pair_eq_ok h
    rw [Algebra.placeholders, Pattern.vars_followedBy, Pattern.vars, ← List.append_assoc]
    exact ((e.places_lower hc).append_swap (inner.places_lower hp)).append (.refl _ [.var w])
  | graph name inner =>
    rw [Algebra.lower] at h
    obtain ⟨p, hp, rfl⟩ := Lower.map_eq_ok h
    rw [Algebra.placeholders, Pattern.vars, ← NodePattern.map_placeholders]
    exact (Places.refl _ name.placeholders).append (inner.places_lower hp)
  | service | orderBy | project | distinct | reduced | slice | group =>
    rw [Algebra.lower] at h
    cases h
termination_by sizeOf a

end

/-! ### Layers -/

def placeholdersOfColumn : Variable × AlgebraExpr → List Placeholder
  | (v, e) => e.placeholders ++ [.var v]

namespace Layers

def placeholders (l : Layers) : List Placeholder :=
  l.body.placeholders ++ l.groupBy.map .var ++ placeholdersOfAggregates l.aggregates
    ++ placeholdersOfCondition l.having ++ l.columns.flatMap placeholdersOfColumn
    ++ placeholdersOfKeys l.orderBy ++ (l.projection.getD []).map .var

end Layers

namespace Algebra

variable (a : Algebra)

theorem placeholders_splitSlice : a.splitSlice.2.placeholders = a.placeholders := by
  cases a <;> simp only [splitSlice, placeholders]

theorem placeholders_splitDistinct : a.splitDistinct.2.placeholders = a.placeholders := by
  cases a <;> simp only [splitDistinct, placeholders]

theorem placeholders_splitProjection :
    a.splitProjection.2.placeholders ++ (a.splitProjection.1.getD []).map .var =
      a.placeholders := by
  cases a <;> simp [splitProjection, placeholders]

theorem placeholders_splitOrder :
    a.splitOrder.2.placeholders ++ placeholdersOfKeys a.splitOrder.1 = a.placeholders := by
  cases a <;> simp [splitOrder, placeholders, placeholdersOfKeys]

theorem placeholders_splitColumns (vs : List Variable) :
    ((a.splitColumns vs).2.placeholders ++
      (a.splitColumns vs).1.flatMap placeholdersOfColumn).Perm a.placeholders := by
  induction a using splitColumns.induct vs with
  | case1 inner v e hv columns rest hsplit ih =>
    rw [hsplit] at ih
    rw [splitColumns, if_pos hv, hsplit]
    refine List.perm_iff_count.mpr fun n => ?_
    have ih := ih.count_eq n
    simp only [List.count_append, List.flatMap_cons, placeholdersOfColumn, placeholders] at ih ⊢
    omega
  | case2 inner v e hv =>
    rw [splitColumns, if_neg hv]
    simp
  | case3 a ha =>
    rw [splitColumns.eq_2 _ _ ha]
    simp

theorem placeholders_splitHaving :
    a.splitHaving.2.placeholders ++ placeholdersOfCondition a.splitHaving.1 = a.placeholders := by
  unfold splitHaving
  split
  · rw [placeholders, placeholdersOfCondition]
  · simp [placeholdersOfCondition]

theorem placeholders_splitGroup :
    a.splitGroup.2.placeholders ++ a.splitGroup.1.1.map .var ++
      placeholdersOfAggregates a.splitGroup.1.2 = a.placeholders := by
  cases a <;> simp [splitGroup, placeholders, placeholdersOfAggregates]

/-- Taking the layers off loses no placeholder. -/
theorem placeholders_layers : a.layers.placeholders.Perm a.placeholders := by
  let projected := a.splitSlice.2.splitDistinct.2.splitProjection
  let ordered := projected.2.splitOrder
  let computed := ordered.2.splitColumns (projected.1.getD [])
  let grouped := computed.2.splitHaving.2.splitGroup
  have hlayers : a.layers.placeholders =
      grouped.2.placeholders ++ grouped.1.1.map .var ++ placeholdersOfAggregates grouped.1.2
        ++ placeholdersOfCondition computed.2.splitHaving.1
        ++ computed.1.flatMap placeholdersOfColumn ++ placeholdersOfKeys ordered.1
        ++ (projected.1.getD []).map .var := rfl
  rw [hlayers, placeholders_splitGroup, placeholders_splitHaving]
  refine ((placeholders_splitColumns _ _).append_right _).append_right _ |>.trans (.of_eq ?_)
  rw [placeholders_splitOrder, placeholders_splitProjection, placeholders_splitDistinct,
    placeholders_splitSlice]

end Algebra

/-! ### Queries -/

theorem places_mapM {α β : Type} {f : α → Lower β} (places : α → List Placeholder)
    (vars : β → List Variable)
    (hf : ∀ a s b s', f a s = .ok (b, s') → Places s s' (places a) (vars b)) {as : List α}
    {bs : List β} {s s' : Lowering} (h : as.mapM f s = .ok (bs, s')) :
    Places s s' (as.flatMap places) (bs.flatMap vars) := by
  induction as generalizing bs s with
  | nil =>
    rw [List.mapM_nil] at h
    cases h
    exact fun _ => rfl
  | cons a as ih =>
    rw [List.mapM_cons] at h
    obtain ⟨b, t, hb, h⟩ := Lower.bind_eq_ok h
    obtain ⟨cs, u, hcs, h⟩ := Lower.bind_eq_ok h
    cases h
    rw [List.flatMap_cons, List.flatMap_cons]
    exact (hf a s b t hb).append (ih hcs)

theorem AlgebraKey.places_lower (k : AlgebraKey) {key : OrderKey} {s s' : Lowering}
    (h : k.lower s = .ok (key, s')) : Places s s' k.placeholders key.expr.vars := by
  cases k with
  | ascending e | descending e =>
    obtain ⟨e', he, rfl⟩ := Lower.map_eq_ok h
    exact e.places_lower he

theorem AlgebraAggregate.places_lower (a : AlgebraAggregate) {e : Expr} {s s' : Lowering}
    (h : a.lower s = .ok (e, s')) : Places s s' a.placeholders e.vars := by
  cases a with
  | solutions distinct =>
    cases h
    exact fun _ => rfl
  | apply f argument distinct =>
    obtain ⟨g, t, hg, h⟩ := Lower.bind_eq_ok h
    obtain ⟨e, u, he, h⟩ := Lower.bind_eq_ok h
    cases h
    rw [f.state_of_lower hg] at he
    exact fun v => argument.places_lower he v

theorem flatMap_placeholdersOfKeys (ks : List AlgebraKey) :
    ks.flatMap AlgebraKey.placeholders = placeholdersOfKeys ks := by
  induction ks with
  | nil => rfl
  | cons k ks ih => rw [List.flatMap_cons, ih, placeholdersOfKeys]

theorem flatMap_placeholdersOfAggregates (as : List (Variable × AlgebraAggregate)) :
    as.flatMap placeholdersOfAggregate = placeholdersOfAggregates as := by
  induction as with
  | nil => rfl
  | cons a as ih => rw [List.flatMap_cons, ih, placeholdersOfAggregates]

theorem places_column {column : Variable × AlgebraExpr} {item : SelectItem} {s s' : Lowering}
    (h : (SelectItem.mk column.1 <$> column.2.lower) s = .ok (item, s')) :
    Places s s' (placeholdersOfColumn column) (item.expr.vars ++ [item.target]) := by
  obtain ⟨w, e⟩ := column
  obtain ⟨e', he, rfl⟩ := Lower.map_eq_ok h
  exact (e.places_lower he).append (.refl _ [.var w])

theorem places_aggregate {column : Variable × AlgebraAggregate} {item : SelectItem}
    {s s' : Lowering} (h : (SelectItem.mk column.1 <$> column.2.lower) s = .ok (item, s')) :
    Places s s' (placeholdersOfAggregate column) (item.expr.vars ++ [item.target]) := by
  obtain ⟨w, a⟩ := column
  obtain ⟨e', he, rfl⟩ := Lower.map_eq_ok h
  rw [placeholdersOfAggregate]
  exact (a.places_lower he).append (.refl _ [.var w])

/-- The variables of the lowered layers are those of their placeholders. -/
theorem Layers.places_lower {l : Layers} {p : QueryParts} {site : Nat} {s : Lowering}
    (h : l.lower { sites := site } = .ok (p, s)) :
    p.project = l.projection ∧
      ({ p with patterns := s.patterns } : QueryParts).occurrences.Perm
        (l.placeholders.map Placeholder.lower) := by
  obtain ⟨orderBy, s₁, horder, h⟩ := Lower.bind_eq_ok h
  obtain ⟨columns, s₂, hcolumns, h⟩ := Lower.bind_eq_ok h
  obtain ⟨having, s₃, hhaving, h⟩ := Lower.bind_eq_ok h
  obtain ⟨aggregates, s₄, haggregates, h⟩ := Lower.bind_eq_ok h
  obtain ⟨body, s₅, hbody, h⟩ := Lower.bind_eq_ok h
  cases h
  refine ⟨rfl, List.perm_iff_count.mpr fun v => ?_⟩
  have horder := places_mapM _ (·.expr.vars) (fun k _ _ _ hk => k.places_lower hk) horder v
  have hcolumns := places_mapM _ (fun item => item.expr.vars ++ [item.target])
    (fun _ _ _ _ hc => places_column hc) hcolumns v
  have hhaving := places_lowerCondition (fun a _ => a.places_lower) hhaving v
  have haggregates := places_mapM _ (fun item => item.expr.vars ++ [item.target])
    (fun _ _ _ _ hc => places_aggregate hc) haggregates v
  have hbody := l.body.places_lower hbody v
  rw [flatMap_placeholdersOfKeys] at horder
  rw [flatMap_placeholdersOfAggregates] at haggregates
  have hreverse := ((List.reverse_perm columns).flatMap_right
    fun item => item.expr.vars ++ [item.target]).count_eq v
  have hstart : ({ sites := site } : Lowering).uses v = 0 := rfl
  have hconditions : having.toList.flatMap Expr.vars = (having.map Expr.vars).getD [] := by
    cases having <;> simp
  have hgroup : ∀ vs : List Variable, (vs.map Expr.var).flatMap Expr.vars = vs := by
    intro vs
    induction vs with
    | nil => rfl
    | cons v vs ih => rw [List.map_cons, List.flatMap_cons, ih, Expr.vars, List.singleton_append]
  have hend : (s.patterns.flatMap Pattern.vars).count v = s.uses v := rfl
  simp only [QueryParts.occurrences, placeholders, List.map_append, List.count_append,
    map_lower_var, List.flatMap_append, hconditions, hgroup, hend]
  omega

theorem Variable.ofBlank_injective : Function.Injective Variable.ofBlank := by
  intro l m h
  have htext := congrArg (fun v : Variable => v.name.toList) h
  simp only [ofBlank, String.toList_append, List.append_cancel_left_eq] at htext
  exact String.toList_injective htext

/-- Only a blank node and the variable that has its label behind an underscore are the same after
lowering. -/
theorem Placeholder.lower_inj_iff (ps : List Placeholder) :
    (∀ m ∈ ps, ∀ n ∈ ps, m.lower = n.lower → m = n) ↔
      ∀ label, .blank label ∈ ps → .var (.ofBlank label) ∉ ps := by
  constructor
  · intro h label hblank hvar
    cases h _ hblank _ hvar rfl
  · intro h m hm n hn heq
    cases m with
    | var v =>
      cases n with
      | var w => exact congrArg var heq
      | blank label =>
        obtain rfl : v = .ofBlank label := heq
        exact (h label hn hm).elim
    | blank label =>
      cases n with
      | var w =>
        obtain rfl : .ofBlank label = w := heq
        exact (h label hm hn).elim
      | blank label' => exact congrArg blank (Variable.ofBlank_injective heq)

namespace AlgebraQuery

/-- The projected variables that a question whether there are solutions leaves out. -/
def unprojected (a : AlgebraQuery) : List Variable :=
  if a.form = .ask then a.pattern.layers.projection.getD [] else []

variable {a : AlgebraQuery} {site : Nat} {q : Query}

theorem projection_lower (h : a.lower site = .ok q) :
    q.project = (if a.form = .ask then some [] else a.pattern.layers.projection) ∧
      (q.occurrences ++ a.unprojected).Perm (a.pattern.placeholders.map Placeholder.lower) := by
  obtain ⟨p, s, hp, rfl⟩ := exists_layers_lower h
  obtain ⟨hproject, hplaces⟩ := Layers.places_lower hp
  have hall := hplaces.trans (a.pattern.placeholders_layers.map _)
  unfold unprojected
  split_ifs
  · refine ⟨rfl, .trans (.of_eq ?_) hall⟩
    simp only [Query.ofParts, QueryParts.occurrences, hproject, Option.getD_some, List.append_nil]
  · exact ⟨hproject, (List.append_nil _).symm ▸ hall⟩

/-- Each place of a query text where a placeholder stands becomes an occurrence of its variable in
the lowered query, and there are no other occurrences. Two placeholders are kept apart unless one is
a blank node and the other one the variable with its label behind an underscore. The variable of a
blank node is projected by a query that projects all variables, and by one that projects the variable
of that name. -/
theorem lower_keepsApart_iff (h : a.lower site = .ok q) :
    (q.occurrences ++ a.unprojected).Perm (a.pattern.placeholders.map Placeholder.lower) ∧
    ((∀ m ∈ a.pattern.placeholders, ∀ n ∈ a.pattern.placeholders, m.lower = n.lower → m = n) ↔
      ∀ label, .blank label ∈ a.pattern.placeholders →
        .var (.ofBlank label) ∉ a.pattern.placeholders) ∧
    ∀ label, .blank label ∈ a.pattern.placeholders →
      (.ofBlank label ∈ q.projection ↔ a.form ≠ .ask ∧
        ∀ vs, a.pattern.layers.projection = some vs → .ofBlank label ∈ vs) := by
  obtain ⟨hproject, hplaces⟩ := projection_lower h
  refine ⟨hplaces, Placeholder.lower_inj_iff _, fun label hblank => ?_⟩
  rw [Query.projection, hproject]
  by_cases hask : a.form = .ask
  · simp [hask]
  · have hm : .ofBlank label ∈ q.vars := by
      have hm := hplaces.mem_iff.mpr (List.mem_map_of_mem hblank)
      rw [unprojected, if_neg hask, List.append_nil] at hm
      rw [q.vars_eq]
      exact List.mem_eraseDups.mpr hm
    rw [if_neg hask]
    cases a.pattern.layers.projection with
    | none => simpa [hask] using hm
    | some vs => simp [hask]

/-- A variable and a blank node whose names differ by more than an underscore. -/
theorem lower_keepsApart_iff_of_labels :
    let a : AlgebraQuery :=
      { form := .select
        pattern := .project (.basic [⟨.var ⟨"_b"⟩, .const (.iri ⟨"p"⟩), .var ⟨"y"⟩⟩,
          ⟨.blank "c", .const (.iri ⟨"q"⟩), .var ⟨"z"⟩⟩]) [⟨"_b"⟩] }
    ∃ q, a.lower 0 = .ok q ∧
      (∀ m ∈ a.pattern.placeholders, ∀ n ∈ a.pattern.placeholders,
        m.lower = n.lower → m = n) ∧
      .blank "c" ∈ a.pattern.placeholders ∧ .ofBlank "c" ∉ q.projection := by
  intro a
  obtain ⟨q, hq⟩ : ∃ q, a.lower 0 = .ok q := ⟨_, rfl⟩
  obtain ⟨-, hapart, hprojected⟩ := lower_keepsApart_iff hq
  have hplaces : a.pattern.placeholders =
      [.var ⟨"_b"⟩, .var ⟨"y"⟩, .blank "c", .var ⟨"z"⟩, .var ⟨"_b"⟩] := rfl
  have hblank : .blank "c" ∈ a.pattern.placeholders := by decide
  refine ⟨q, hq, hapart.mpr fun label hlabel => ?_, hblank, fun hm => ?_⟩
  · obtain rfl : label = "c" := by simpa [hplaces] using hlabel
    decide
  · have hb := ((hprojected "c" hblank).mp hm).2 [⟨"_b"⟩] rfl
    revert hb
    decide

/-- Only the label of a blank node is another one, and the query has another answer: the blank node
has met a variable. -/
theorem not_lower_keepsApart :
    let a (label : String) : AlgebraQuery :=
      { form := .select
        pattern := .project (.basic [⟨.var ⟨"_b"⟩, .const (.iri ⟨"p"⟩), .var ⟨"y"⟩⟩,
          ⟨.blank label, .const (.iri ⟨"q"⟩), .var ⟨"z"⟩⟩]) [⟨"_b"⟩] }
    let store := Store.after false [.extend [
      ⟨.iri ⟨"a"⟩, .iri ⟨"p"⟩, .iri ⟨"b"⟩, none⟩, ⟨.iri ⟨"c"⟩, .iri ⟨"q"⟩, .iri ⟨"d"⟩, none⟩]]
    let answer (label : String) := ((a label).lower 0).toOption.bind fun q =>
      (Processor.evaluate { source := { store } } q).outcome.toOption.map fun s =>
        s.rows.map (·.restrict s.projection)
    (∃ m ∈ (a "b").pattern.placeholders, ∃ n ∈ (a "b").pattern.placeholders,
      m.lower = n.lower ∧ m ≠ n) ∧
      answer "b" = some [] ∧ answer "c" = some [[some (.iri ⟨"a"⟩)]] := by
  intro a store answer
  refine ⟨⟨.var ⟨"_b"⟩, by decide, .blank "b", by decide, rfl, by decide⟩, ?_, ?_⟩
  · decide +kernel
  · decide +kernel

end AlgebraQuery

end GraphQuery
