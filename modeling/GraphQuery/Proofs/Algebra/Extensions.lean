import GraphQuery.Proofs.Algebra.Lowering

/-! Extensions of patterns. Those that are projected are taken off as columns, the others stay in
the body as bindings. Either way they are lowered in the same order, and the columns that might have
been left in the body are the bindings that would stand at its end. -/

namespace GraphQuery

/-! ### Bindings for columns -/

/-- The binding that has the value of a column. -/
def SelectItem.binding (i : SelectItem) : Pattern := .bind i.target i.expr

/-- The same parts with the first columns bound at the end of the body, which is given in steps. -/
def QueryParts.bindColumns (p : QueryParts) (steps : List Pattern) (n : Nat) : QueryParts :=
  { p with
    body := .sequence (steps ++ (p.select.take n).map SelectItem.binding)
    select := p.select.drop n }

def Query.bindColumns (q : Query) (steps : List Pattern) (n : Nat) : Query :=
  .ofParts (q.toQueryParts.bindColumns steps n)

/-! ### Extensions -/

/-- A pattern extended by columns, the outermost one first. -/
def Algebra.extended (b : Algebra) (columns : List (Variable × AlgebraExpr)) : Algebra :=
  columns.foldr (fun column a => .extend a column.1 column.2) b

/-- The same layers with all but some columns left in the body. -/
def Layers.leaving (l : Layers) (k : Nat) : Layers :=
  { l with columns := l.columns.take k, body := l.body.extended (l.columns.drop k) }

/-- Whether layers are lowered to a query, which has its patterns and its dataset from elsewhere. -/
def Layers.LowersTo (l : Layers) (s s' : Lowering) (q : Query) : Prop :=
  ∃ p, l.lower s = .ok (p, s') ∧ q = .ofParts { p with
    patterns := q.patterns
    fromDefault := q.fromDefault
    fromNamed := q.fromNamed }

/-- What is taken off and what remains make up the pattern. -/
theorem Algebra.extended_splitColumns (vs : List Variable) (a : Algebra) :
    (a.splitColumns vs).2.extended (a.splitColumns vs).1 = a := by
  cases a with
  | extend inner v e =>
    rw [splitColumns]
    split_ifs
    · exact congrArg (extend · v e) (extended_splitColumns vs inner)
    · rfl
  | _ => rfl

namespace Lower

variable {α β : Type} {m : Lower α} {s t : Lowering} {a : α}

theorem bind_of_ok {f : α → Lower β} (hm : m s = .ok (a, t)) : (m >>= f) s = f a t := by
  change (m s).bind (fun p => f p.1 p.2) = f a t
  rw [hm]
  rfl

end Lower

/-- The columns of layers, lowered. -/
abbrev lowerColumns (columns : List (Variable × AlgebraExpr)) : Lower (List SelectItem) :=
  columns.mapM fun column => SelectItem.mk column.1 <$> column.2.lower

theorem Pattern.foldr_followedBy {items : List SelectItem} (hitems : items ≠ []) (p : Pattern) :
    items.foldr (fun i p => p.followedBy i.binding) p =
      .sequence (p.steps ++ items.reverse.map SelectItem.binding) := by
  induction items with
  | nil => exact (hitems rfl).elim
  | cons item items ih =>
    rw [List.foldr_cons, List.reverse_cons, List.map_append]
    by_cases hempty : items = []
    · rw [hempty]
      rfl
    · rw [ih hempty, followedBy, steps, List.append_assoc]
      rfl

theorem Algebra.lower_extended (b : Algebra) {columns : List (Variable × AlgebraExpr)}
    {items : List SelectItem} {p : Pattern} {s t s' : Lowering}
    (hcolumns : lowerColumns columns s = .ok (items, t)) (hb : b.lower t = .ok (p, s')) :
    (b.extended columns).lower s = .ok (items.foldr (fun i p => p.followedBy i.binding) p, s') := by
  induction columns generalizing items s with
  | nil =>
    cases hcolumns
    exact hb
  | cons column columns ih =>
    rw [lowerColumns, List.mapM_cons] at hcolumns
    obtain ⟨item, u, hitem, hcolumns⟩ := Lower.bind_eq_ok hcolumns
    obtain ⟨rest, w, hrest, hcolumns⟩ := Lower.bind_eq_ok hcolumns
    cases hcolumns
    obtain ⟨e, he, rfl⟩ := Lower.map_eq_ok hitem
    rw [extended, List.foldr_cons, lower, Lower.bind_of_ok he]
    exact Lower.bind_of_ok (ih hrest)

theorem Layers.length_lowerColumns {columns : List (Variable × AlgebraExpr)}
    {items : List SelectItem} {s s' : Lowering} (h : lowerColumns columns s = .ok (items, s')) :
    items.length = columns.length :=
  (Lower.forall₂_of_mapM (R := fun _ _ => True) (fun _ => trivial) (fun _ _ => trivial)
    (fun _ _ _ _ _ => trivial) h).2.length_eq.symm

/-- Columns that are left in the body are lowered to bindings at its end, in the order in which they
are computed otherwise. -/
theorem Layers.lower_leaving {l : Layers} (haggregates : l.aggregates = [])
    (hhaving : l.having = none) {k : Nat} (hk : k < l.columns.length) {p : QueryParts}
    {s s' : Lowering} (h : l.lower s = .ok (p, s')) :
    (l.leaving k).lower s =
      .ok (p.bindColumns p.body.steps (l.columns.length - k), s') := by
  obtain ⟨orderBy, s₁, horder, h⟩ := Lower.bind_eq_ok h
  obtain ⟨columns, s₂, hcolumns, h⟩ := Lower.bind_eq_ok h
  obtain ⟨having, s₃, hnone, h⟩ := Lower.bind_eq_ok h
  obtain ⟨aggregates, s₄, hnil, h⟩ := Lower.bind_eq_ok h
  obtain ⟨body, s₅, hbody, h⟩ := Lower.bind_eq_ok h
  cases h
  rw [hhaving] at hnone
  rw [haggregates, List.mapM_nil] at hnil
  cases hnone
  cases hnil
  have hsplit : lowerColumns (l.columns.take k ++ l.columns.drop k) s₁ = .ok (columns, s₂) := by
    rw [List.take_append_drop]
    exact hcolumns
  rw [lowerColumns, List.mapM_append] at hsplit
  obtain ⟨outer, t, houter, hsplit⟩ := Lower.bind_eq_ok hsplit
  obtain ⟨inner, u, hinner, hsplit⟩ := Lower.bind_eq_ok hsplit
  cases hsplit
  have hlength := length_lowerColumns hinner
  rw [List.length_drop] at hlength
  have hne : inner ≠ [] := List.ne_nil_of_length_pos (by omega)
  have hleft := Algebra.lower_extended l.body hinner hbody
  have hselect : (outer ++ inner).reverse = inner.reverse ++ outer.reverse := List.reverse_append
  have htake : (outer ++ inner).reverse.take (l.columns.length - k) = inner.reverse := by
    rw [hselect, List.take_left' (by rw [List.length_reverse, hlength])]
  have hdrop : (outer ++ inner).reverse.drop (l.columns.length - k) = outer.reverse := by
    rw [hselect, List.drop_left' (by rw [List.length_reverse, hlength])]
  rw [lower, leaving, hhaving, haggregates]
  refine (Lower.bind_of_ok horder).trans ((Lower.bind_of_ok houter).trans ?_)
  have hnone : lowerCondition none t = .ok (none, t) := rfl
  refine (Lower.bind_of_ok hnone).trans ((Lower.bind_of_ok (a := []) (t := t) rfl).trans ?_)
  refine (Lower.bind_of_ok hleft).trans ?_
  rw [Pattern.foldr_followedBy hne]
  simp only [QueryParts.bindColumns, List.nil_append, htake, hdrop]
  rfl

theorem Layers.LowersTo.leaving {l : Layers} {s s' : Lowering} {q : Query} (h : l.LowersTo s s' q)
    (haggregates : l.aggregates = []) (hhaving : l.having = none) {k : Nat}
    (hk : k < l.columns.length) :
    (l.leaving k).LowersTo s s' (q.bindColumns q.body.steps (l.columns.length - k)) := by
  obtain ⟨p, hp, hq⟩ := h
  have hbody : q.body = p.body := congrArg (fun q : Query => q.body) hq
  refine ⟨_, lower_leaving haggregates hhaving hk hp, congrArg Query.ofParts ?_⟩
  have hparts : q.toQueryParts = { p with
      patterns := q.patterns, fromDefault := q.fromDefault, fromNamed := q.fromNamed } :=
    congrArg Query.toQueryParts hq
  rw [Query.bindColumns, hbody]
  conv_lhs => rw [hparts]
  rfl

end GraphQuery
