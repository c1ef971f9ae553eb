import GraphQuery.Proofs.Algebra.Numbering

/-! Queries that are neither grouped nor modified in any other way than by an order, a projection,
the removal of repetitions and a slice, each around what it modifies. Lowering takes the modifiers
off together with the columns that they are around, and lowers what remains as the body. -/

namespace GraphQuery

/-! ### Modifiers -/

/-- The modifiers around a pattern, from the inside to the outside. -/
structure Modifiers where
  orderBy : Option (List AlgebraKey) := none
  vars : List Variable
  distinct : Bool := false
  /-- How many solutions are dropped, and how many are kept of the others. -/
  slice : Option (Nat × Option Nat) := none

namespace Modifiers

def around (m : Modifiers) (a : Algebra) : Algebra :=
  let projected := .project (m.orderBy.elim a (.orderBy a)) m.vars
  let unique := if m.distinct then .distinct projected else projected
  m.slice.elim unique fun (start, length) => .slice unique start length

def keys (m : Modifiers) : List AlgebraKey := m.orderBy.getD []

/-- What a slice leaves of a list. -/
def cut {α : Type} (m : Modifiers) (as : List α) : List α :=
  m.slice.elim as fun (start, length) =>
    length.elim (as.drop start) (as.drop start).take

theorem map_cut {α β : Type} (m : Modifiers) (f : α → β) (as : List α) :
    (m.cut as).map f = m.cut (as.map f) := by
  unfold cut
  rcases m.slice with _ | ⟨start, _ | length⟩ <;> simp [List.map_drop, List.map_take]

end Modifiers

namespace Algebra

/-- Whether a pattern is a body with any columns on it: neither grouped nor modified. -/
def isBody : Algebra → Bool
  | extend inner _ _ => inner.isBody
  | filter _ (group _ _ _) | group _ _ _ | orderBy _ _ | project _ _ | distinct _ | reduced _
  | slice _ _ _ => false
  | _ => true

variable {a : Algebra}

theorem isBody_splitColumns (vars : List Variable) (h : a.isBody = true) :
    (a.splitColumns vars).2.isBody = true := by
  induction a using splitColumns.induct vars with
  | case1 inner v e hv _ _ _ ih =>
    rw [splitColumns, if_pos hv]
    exact ih h
  | case2 inner v e hv => rwa [splitColumns, if_neg hv]
  | case3 a ha => rwa [splitColumns.eq_2 _ _ ha]

theorem splitOrder_of_isBody (h : a.isBody = true) : a.splitOrder = ([], a) := by
  cases a <;> first | rfl | cases h

theorem splitHaving_of_isBody (h : a.isBody = true) : a.splitHaving = (none, a) := by
  cases a with
  | filter condition inner => cases inner <;> first | rfl | cases h
  | _ => rfl

theorem splitGroup_of_isBody (h : a.isBody = true) : a.splitGroup = (([], []), a) := by
  cases a <;> first | rfl | cases h

end Algebra

theorem Modifiers.layers_around (m : Modifiers) {a : Algebra} (h : a.isBody = true) :
    (m.around a).layers =
      { offset := (m.slice.map (·.1)).getD 0, limit := m.slice.bind (·.2), distinct := m.distinct
        projection := some m.vars, orderBy := m.keys, columns := (a.splitColumns m.vars).1
        body := (a.splitColumns m.vars).2 } := by
  have hbody := a.isBody_splitColumns m.vars h
  have hhaving := Algebra.splitHaving_of_isBody hbody
  have hgroup := Algebra.splitGroup_of_isBody hbody
  have horder := Algebra.splitOrder_of_isBody h
  obtain ⟨orderBy, vars, unique, slice⟩ := m
  cases orderBy <;> cases unique <;> rcases slice with _ | ⟨start, length⟩ <;>
    simp_all [around, keys, Algebra.layers, Algebra.splitSlice, Algebra.splitDistinct,
      Algebra.splitProjection, Algebra.splitOrder]

/-! ### Lowering -/

/-- Whether a part of lowering makes something while it numbers nothing but patterns that stand at the
beginning of a list. -/
def Lower.Makes {α : Type} (ps : List Pattern) (m : Lower α) (x : α) : Prop :=
  ∃ s s', m s = .ok (x, s') ∧ s'.patterns <+: ps

theorem Lower.Makes.mono {α : Type} {ps qs : List Pattern} {m : Lower α} {x : α}
    (h : m.Makes ps x) (hps : ps <+: qs) : m.Makes qs x := by
  obtain ⟨s, s', hx, hs⟩ := h
  exact ⟨s, s', hx, hs.trans hps⟩

theorem Lower.makes_mapM {α β : Type} {f : α → Lower β}
    (grows : ∀ a s b s', f a s = .ok (b, s') → s.patterns <+: s'.patterns) {as : List α}
    {bs : List β} {s s' : Lowering} (h : as.mapM f s = .ok (bs, s')) :
    s.patterns <+: s'.patterns ∧ List.Forall₂ (fun a b => (f a).Makes s'.patterns b) as bs :=
  forall₂_of_mapM (R := fun s s' => s.patterns <+: s'.patterns) (fun _ => List.prefix_rfl)
    List.IsPrefix.trans grows h

/-! ### Aggregates -/

namespace Expr

theorem anyAggregate_append {es fs : List Expr} : isAggregate.anyAggregate (es ++ fs) =
    (isAggregate.anyAggregate es || isAggregate.anyAggregate fs) := by
  induction es with
  | nil => rfl
  | cons e es ih => simp [isAggregate.anyAggregate, ih, Bool.or_assoc]

@[simp] theorem anyAggregate_conjuncts (e : Expr) :
    isAggregate.anyAggregate e.conjuncts = e.isAggregate := by
  cases e <;> simp [conjuncts, isAggregate, isAggregate.anyAggregate]

@[simp] theorem anyAggregate_disjuncts (e : Expr) :
    isAggregate.anyAggregate e.disjuncts = e.isAggregate := by
  cases e <;> simp [disjuncts, isAggregate, isAggregate.anyAggregate]

end Expr

namespace AlgebraExpr

theorem anyAggregate_of_lower {as : List AlgebraExpr} {es : List Expr} {s s' : Lowering}
    (ha : ∀ a ∈ as, ∀ {e : Expr} {s s' : Lowering}, a.lower s = .ok (e, s') →
      e.isAggregate = false)
    (h : lowerExprs as s = .ok (es, s')) : Expr.isAggregate.anyAggregate es = false := by
  induction as generalizing es s with
  | nil =>
    rw [lowerExprs] at h
    cases h
    rfl
  | cons a as ih =>
    rw [lowerExprs] at h
    obtain ⟨e, t, he, h⟩ := Lower.bind_eq_ok h
    obtain ⟨fs, u, hfs, h⟩ := Lower.bind_eq_ok h
    cases h
    rw [Expr.isAggregate.anyAggregate, ha a List.mem_cons_self he,
      ih (fun b hb => ha b (List.mem_cons_of_mem _ hb)) hfs, Bool.or_self]

/-- Aggregates stand beside expressions in the algebra, never in them. -/
theorem isAggregate_of_lower (a : AlgebraExpr) {e : Expr} {s s' : Lowering}
    (h : a.lower s = .ok (e, s')) : e.isAggregate = false := by
  have hlist : ∀ as : List AlgebraExpr, sizeOf as < sizeOf a → ∀ {es s s'},
      lowerExprs as s = .ok (es, s') → Expr.isAggregate.anyAggregate es = false :=
    fun as hsz _ _ _ => anyAggregate_of_lower fun b hb _ _ _ =>
      have := List.sizeOf_lt_of_mem hb
      b.isAggregate_of_lower
  cases a with
  | const | var | bound =>
    rw [lower] at h
    cases h
    rfl
  | existence p =>
    rw [lower] at h
    obtain ⟨q, t, hq, h⟩ := Lower.bind_eq_ok h
    obtain ⟨id, hid, rfl⟩ := Lower.map_eq_ok h
    rfl
  | or a b =>
    rw [lower] at h
    obtain ⟨l, r, t, hl, hr, rfl⟩ := Lower.bind_pair_eq_ok h
    simp [Expr.isAggregate, Expr.anyAggregate_append, a.isAggregate_of_lower hl,
      b.isAggregate_of_lower hr]
  | and a b =>
    rw [lower] at h
    obtain ⟨l, r, t, hl, hr, rfl⟩ := Lower.bind_pair_eq_ok h
    simp [Expr.isAggregate, Expr.anyAggregate_append, a.isAggregate_of_lower hl,
      b.isAggregate_of_lower hr]
  | binary op a b =>
    rw [lower] at h
    obtain ⟨l, r, t, hl, hr, rfl⟩ := Lower.bind_pair_eq_ok h
    rw [Expr.isAggregate, a.isAggregate_of_lower hl, b.isAggregate_of_lower hr, Bool.or_self]
  | not a | unary op a =>
    rw [lower] at h
    obtain ⟨e, he, rfl⟩ := Lower.map_eq_ok h
    exact (a.isAggregate_of_lower he :)
  | member a list =>
    rw [lower] at h
    obtain ⟨e, es, t, he, hes, rfl⟩ := Lower.bind_pair_eq_ok h
    rw [Expr.isAggregate, a.isAggregate_of_lower he, hlist list (by simp) hes, Bool.or_self]
  | cond test yes no =>
    rw [lower] at h
    obtain ⟨l, t, hl, h⟩ := Lower.bind_eq_ok h
    obtain ⟨m, r, u, hm, hr, rfl⟩ := Lower.bind_pair_eq_ok h
    simp [Expr.isAggregate, Expr.isAggregate.optionAggregate, test.isAggregate_of_lower hl,
      yes.isAggregate_of_lower hm, no.isAggregate_of_lower hr]
  | coalesce args =>
    rw [lower] at h
    obtain ⟨es, hes, rfl⟩ := Lower.map_eq_ok h
    exact hlist args (by simp) hes
  | call f args =>
    cases f with
    | builtin f =>
      rw [lower] at h
      obtain ⟨es, hes, rfl⟩ := Lower.map_eq_ok h
      exact hlist args (by simp) hes
    | missing name =>
      rw [lower] at h
      cases h
    | custom name =>
      rw [lower] at h
      split_ifs at h
      · unfold lowerSystem at h
        split at h
        · cases h
          rfl
        · cases h
          rfl
        · cases h
      · obtain ⟨es, t, hes, h⟩ := Lower.bind_eq_ok h
        obtain ⟨site, u, hsite, h⟩ := Lower.bind_eq_ok h
        cases h
        exact hlist args (by simp) hes
termination_by sizeOf a

end AlgebraExpr

theorem AlgebraKey.isAggregate_of_lower {k : AlgebraKey} {key : OrderKey} {s s' : Lowering}
    (h : k.lower s = .ok (key, s')) : key.expr.isAggregate = false := by
  cases k with
  | ascending e | descending e =>
    obtain ⟨e', he, rfl⟩ := Lower.map_eq_ok h
    exact e.isAggregate_of_lower he

/-! ### Queries -/

/-- What a pattern with modifiers around it is lowered to: the outermost extensions by projected
variables are columns, the inner ones before the outer ones, and the rest is the body. -/
structure Modifiers.Lowered (m : Modifiers) (a : Algebra) (q : Query) : Prop where
  body : (a.splitColumns m.vars).2.lower.Makes q.patterns q.body
  select : List.Forall₂
    (fun column item => item.target = column.1 ∧ column.2.lower.Makes q.patterns item.expr)
    (a.splitColumns m.vars).1.reverse q.select
  orderBy : List.Forall₂ (fun k key => k.lower.Makes q.patterns key) m.keys q.orderBy
  projection : q.projection = m.vars
  distinct : q.distinct = m.distinct
  offset : q.offset = (m.slice.map (·.1)).getD 0
  limit : q.limit = m.slice.bind (·.2)
  groupBy : q.groupBy = []
  plain : q.isAggregate = false

theorem Modifiers.lowered {m : Modifiers} {b : Algebra} {a : AlgebraQuery} {site : Nat} {q : Query}
    (hform : a.form = .select) (ha : a.pattern = m.around b) (hb : b.isBody = true)
    (h : a.lower site = .ok q) : m.Lowered b q := by
  obtain ⟨p, s, hp, rfl⟩ := AlgebraQuery.exists_layers_lower h
  rw [ha, m.layers_around hb] at hp
  rw [hform, if_neg (by decide)]
  obtain ⟨orderBy, s₁, horder, hp⟩ := Lower.bind_eq_ok hp
  obtain ⟨columns, s₂, hcolumns, hp⟩ := Lower.bind_eq_ok hp
  obtain ⟨having, s₃, hhaving, hp⟩ := Lower.bind_eq_ok hp
  obtain ⟨aggregates, s₄, haggregates, hp⟩ := Lower.bind_eq_ok hp
  obtain ⟨body, s₅, hbody, hp⟩ := Lower.bind_eq_ok hp
  cases hp
  rw [lowerCondition] at hhaving
  cases hhaving
  rw [List.mapM_nil] at haggregates
  cases haggregates
  obtain ⟨-, horder⟩ := Lower.makes_mapM (fun k _ _ _ hk => (k.adds_lower hk).grows) horder
  obtain ⟨hgrows, hcolumns⟩ := Lower.makes_mapM (fun column _ _ _ hc => by
    obtain ⟨e, he, rfl⟩ := Lower.map_eq_ok hc
    exact (column.2.adds_lower he).grows) hcolumns
  have hlast := ((b.splitColumns m.vars).2.adds_lower hbody).grows
  have horder := horder.imp fun _ _ hk => hk.mono (hgrows.trans hlast)
  have hselect : List.Forall₂
      (fun column item => item.target = column.1 ∧ column.2.lower.Makes s.patterns item.expr)
      (b.splitColumns m.vars).1 columns := hcolumns.imp fun column item hc => by
    obtain ⟨t, t', hc, ht⟩ := hc
    obtain ⟨e, he, rfl⟩ := Lower.map_eq_ok hc
    exact ⟨rfl, t, t', he, ht.trans hlast⟩
  have hplain : columns.any SelectItem.isAggregate = false ∧
      orderBy.any (·.expr.isAggregate) = false := by
    simp only [List.any_eq_false, Bool.not_eq_true]
    refine ⟨fun item hm => ?_, fun key hm => ?_⟩
    · obtain ⟨column, -, t, t', hc, -⟩ := Layers.Numbered.exists_of_mem hselect hm
      exact column.2.isAggregate_of_lower hc
    · obtain ⟨k, t, t', hk, -⟩ := Layers.Numbered.exists_of_mem horder hm
      exact k.isAggregate_of_lower hk
  exact
    { body := ⟨_, _, hbody, List.prefix_rfl⟩
      select := List.rel_reverse hselect
      orderBy := horder
      projection := rfl
      distinct := rfl
      offset := rfl
      limit := rfl
      groupBy := rfl
      plain := by
        change (false || false || (columns.reverse).any SelectItem.isAggregate
          || orderBy.any (·.expr.isAggregate)) = false
        rw [List.any_reverse, hplain.1, hplain.2]
        rfl }

end GraphQuery
