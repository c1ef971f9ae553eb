import GraphQuery.Proofs.Evaluate.Alike
import GraphQuery.Proofs.Evaluate.Candidates
import GraphQuery.Proofs.Evaluate.Coincidence
import GraphQuery.Proofs.Evaluate.Search
import GraphQuery.Proofs.Evaluate.Walk

/-! Local values over the variables of a query. Solving a pattern under local values goes the way of
solving the pattern with the values in the places of their variables, where the variables are free,
as long as they stand in no place where the local values are passed over. -/

namespace GraphQuery

/-- Local values, and the variables that may stand where it matters what the variables of the query
are bound to: as a predicate or at the start of a path, at the end of a path, and as the graph in
force. -/
structure Overlay where
  locals : Locals
  starts : Variable → Prop
  ends : Variable → Prop
  graphs : Variable → Prop
  canonical : ∀ b ∈ locals, b.2.IsCanonical
  ends_starts : ∀ v, ends v → starts v

namespace Overlay

/-- Nothing is local. -/
def empty : Overlay where
  locals := []
  starts _ := True
  ends _ := True
  graphs _ := True
  canonical := List.forall_mem_nil _
  ends_starts _ _ := trivial

/-- The same local values where they are local on both sides. At the end of a path none may stand. -/
def inner (x : Overlay) : Overlay where
  locals := x.locals
  starts v := x.locals.get? v = none ∨ x.starts v
  ends v := x.locals.get? v = none
  graphs := x.graphs
  canonical := x.canonical
  ends_starts _ := .inl

end Overlay

/-- Whether variables with local values stand only where they may, and are never bound. -/
def Pattern.Shadowable (x : Overlay) : Pattern → Prop
  | edge e => ∀ v ∈ e.predicate.vars, x.starts v
  | path p => (∀ v ∈ p.subject.vars, x.starts v) ∧ ∀ v ∈ p.object.vars, x.ends v
  | sequence items => AllShadowable x items
  | optional left right _ | union left right => left.Shadowable x ∧ right.Shadowable x
  | minus left right =>
    left.Shadowable x ∧ right.requests = [] ∧ (∀ v ∈ right.vars, x.locals.get? v = none) ∧
      ∀ v, x.graphs v → x.locals.get? v = none
  | filter _ => True
  | bind v _ => x.locals.get? v = none
  | graph name inner => (∀ v ∈ name.vars, x.graphs v) ∧ inner.Shadowable x
  | values vs _ => ∀ v ∈ vs, x.locals.get? v = none
where
  AllShadowable (x : Overlay) : List Pattern → Prop
    | [] => True
    | p :: ps => p.Shadowable x ∧ AllShadowable x ps

theorem Pattern.allShadowable_iff {x : Overlay} {ps : List Pattern} :
    Shadowable.AllShadowable x ps ↔ ∀ p ∈ ps, p.Shadowable x := by
  induction ps with
  | nil => simp [Shadowable.AllShadowable]
  | cons p ps ih => simp [Shadowable.AllShadowable, ih]

namespace Environment

/-- Whether an environment has local values that another one need not have, because some of them
stand in the places of their variables there. Apart from the variables under the local values, the
same is bound. A variable that may not stand where it matters may have got another local value. -/
structure Shadows (q : Query) (x : Overlay) (s : Locals) (a b : Environment) : Prop where
  length : a.bindings.length = q.vars.length
  length' : b.bindings.length = q.vars.length
  part : ∀ {v t}, s.get? v = some t → x.locals.get? v = some t
  overlay : ∀ {v t}, x.locals.get? v = some t →
    ∃ u, a.locals.get? v = some u ∧ (x.starts v ∨ x.graphs v → u = t)
  locals : ∀ v, a.locals.get? v = (s.get? v).or (b.locals.get? v)
  slots : ∀ {v}, x.locals.get? v = none → a.binding? q v = b.binding? q v
  starts : ∀ {v t}, x.starts v → x.locals.get? v = some t →
    ∀ u, (a.binding? q v = some u → u = t) ∧ (b.binding? q v = some u → u = t)
  ends : ∀ {v t}, x.ends v → x.locals.get? v = some t →
    s.get? v = some t ∧ a.binding? q v = some t
  graph : b.graph = a.graph.map (·.substitute s) ∨ b.graph = a.graph.map (·.substitute x.locals)
  graphs : ∀ n, a.graph = some n → ∀ v ∈ n.vars, x.graphs v
  group : a.group = none
  group' : b.group = none

variable {q : Query} {x : Overlay} {s : Locals} {a b : Environment} {v : Variable} {t : Term}

namespace Shadows

theorem part_none (h : Shadows q x s a b) (hv : x.locals.get? v = none) : s.get? v = none := by
  cases hs : s.get? v with
  | none => rfl
  | some t => cases hv.symm.trans (h.part hs)

theorem get_eq (h : Shadows q x s a b) (v : Variable) :
    a.get? q v = (s.get? v).or (b.get? q v) := by
  rw [get?, get?, h.locals v, Option.or_assoc]
  cases hs : s.get? v with
  | some t => rfl
  | none =>
    cases hb : b.locals.get? v with
    | some t => rfl
    | none =>
      refine h.slots ?_
      cases hx : x.locals.get? v with
      | none => rfl
      | some t =>
        obtain ⟨u, hu, -⟩ := h.overlay hx
        simp [h.locals v, hs, hb] at hu

/-- Without local values the same is bound. -/
theorem solution_eq (h : Shadows q x s a b) (hx : ∀ v, x.locals.get? v = none) :
    a.solution = b.solution := by
  have hbindings : a.bindings = b.bindings := by
    rw [bindings_eq h.length, bindings_eq h.length']
    exact List.map_congr_left fun v _ => h.slots (hx v)
  rw [solution, solution, hbindings]

theorem choose (h : Shadows q x s a b) (i : Nat) : Shadows q x s (a.choose i) (b.choose i) :=
  ⟨h.length, h.length', h.part, h.overlay, h.locals, h.slots, h.starts, h.ends, h.graph, h.graphs,
    h.group, h.group'⟩

/-- A graph is in force on both sides. -/
theorem under (h : Shadows q x s a b) {n : NodePattern} (hn : ∀ v ∈ n.vars, x.graphs v) :
    Shadows q x s { a with graph := some n } { b with graph := some (n.substitute s) } :=
  ⟨h.length, h.length', h.part, h.overlay, h.locals, h.slots, h.starts, h.ends, .inl rfl,
    fun n' hn' => by
      obtain rfl := Option.some.inj hn'
      exact hn, h.group, h.group'⟩

theorem agreeUpTo (h : Shadows q x s a b) {e : Expr} : AgreeUpTo q s e a b :=
  ⟨fun v _ => h.get_eq v, fun _ => h.group.trans h.group'.symm⟩

theorem get_of_free (h : Shadows q x s a b) (hv : a.get? q v = none) :
    x.locals.get? v = none ∧ b.get? q v = none := by
  refine ⟨?_, ?_⟩
  · cases hx : x.locals.get? v with
    | none => rfl
    | some t =>
      obtain ⟨u, hu, -⟩ := h.overlay hx
      simp [get?, hu] at hv
  · rw [h.get_eq v, Option.or_eq_none_iff] at hv
    exact hv.2

/-! ### Places -/

end Shadows

/-- Whether a place stands for another one, with local values in the places of some variables. -/
def Place (x : Overlay) (s : Locals) (n n' : NodePattern) : Prop :=
  n' = n.substitute s ∨ n' = n.substitute x.locals ∧ ∀ v ∈ n.vars, x.graphs v

namespace Shadows

/-- Where it may stand, a variable with a local value has it. -/
theorem get_of_local (h : Shadows q x s a b) (hx : x.locals.get? v = some t)
    (hv : x.starts v ∨ x.graphs v) : a.get? q v = some t := by
  obtain ⟨u, hu, ht⟩ := h.overlay hx
  rw [get?, hu, ht hv, Option.some_or]

theorem valueOf_eq (h : Shadows q x s a b) {n n' : NodePattern} (hp : Place x s n n') :
    Source.valueOf? q a n = Source.valueOf? q b n' := by
  cases n with
  | const t => rcases hp with rfl | ⟨rfl, -⟩ <;> rfl
  | var v =>
    rcases hp with rfl | ⟨rfl, hg⟩
    · cases hs : s.get? v with
      | none =>
        rw [NodePattern.substitute_of_free hs]
        exact (h.get_eq v).trans (by rw [hs, Option.none_or]; rfl)
      | some t =>
        rw [NodePattern.substitute_of_local hs]
        exact (h.get_eq v).trans (by rw [hs, Option.some_or]; rfl)
    · cases hx : x.locals.get? v with
      | none =>
        rw [NodePattern.substitute_of_free hx]
        exact (h.get_eq v).trans (by rw [h.part_none hx, Option.none_or]; rfl)
      | some t =>
        rw [NodePattern.substitute_of_local hx]
        exact h.get_of_local hx (.inr (NodePattern.forall_mem_vars.mp hg))

theorem lookup_eq (h : Shadows q x s a b) {n n' : NodePattern} (hp : Place x s n n')
    (source : Source) (position : Position) :
    source.lookup q a n position = source.lookup q b n' position := by
  rw [Source.lookup, Source.lookup, h.valueOf_eq hp]

/-- A place is the same, or has the local value of its variable. -/
theorem place_cases (h : Shadows q x s a b) {n n' : NodePattern} (hp : Place x s n n') :
    n' = n ∨ ∃ v t, n = .var v ∧ n' = .const t ∧ x.locals.get? v = some t := by
  cases n with
  | const t => exact .inl (hp.elim id And.left)
  | var v =>
    rcases hp with rfl | ⟨rfl, -⟩
    · cases hs : s.get? v with
      | none => exact .inl (NodePattern.substitute_of_free hs)
      | some t => exact .inr ⟨v, t, rfl, NodePattern.substitute_of_local hs, h.part hs⟩
    · cases hx : x.locals.get? v with
      | none => exact .inl (NodePattern.substitute_of_free hx)
      | some t => exact .inr ⟨v, t, rfl, NodePattern.substitute_of_local hx, hx⟩

theorem isCanonical (hx : x.locals.get? v = some t) : t.IsCanonical :=
  x.canonical _ (Locals.mem_of_get hx)

/-- The graph in force stands for that of the other environment. -/
theorem graph_cases (h : Shadows q x s a b) : (a.graph = none ∧ b.graph = none) ∨
    ∃ n n', a.graph = some n ∧ b.graph = some n' ∧ Place x s n n' := by
  cases hg : a.graph with
  | none => exact .inl ⟨rfl, by simpa [hg] using h.graph⟩
  | some n =>
    right
    rcases h.graph with hb | hb
    · exact ⟨n, _, rfl, hb.trans (by rw [hg, Option.map_some]), .inl rfl⟩
    · exact ⟨n, _, rfl, hb.trans (by rw [hg, Option.map_some]), .inr ⟨rfl, h.graphs n hg⟩⟩

end Shadows

/-! ### Binding -/

/-- The same scope, where other slots may be bound. -/
structure Beside (a a' : Environment) : Prop where
  length : a'.bindings.length = a.bindings.length
  locals : a'.locals = a.locals
  graph : a'.graph = a.graph
  group : a'.group = a.group

theorem beside_self (a : Environment) : Beside a a := ⟨rfl, rfl, rfl, rfl⟩

theorem beside_assign (a : Environment) (q : Query) (v : Variable) (t : Term) :
    Beside a (a.assign q v t) where
  length := length_assign
  locals := by
    unfold assign
    cases q.slot? v <;> rfl
  graph := graph_assign
  group := group_assign

namespace Shadows

theorem beside {a' b' : Environment} (h : Shadows q x s a b) (ha : Beside a a') (hb : Beside b b')
    (slots : ∀ {v}, x.locals.get? v = none → a'.binding? q v = b'.binding? q v)
    (starts : ∀ {v t}, x.starts v → x.locals.get? v = some t →
      ∀ u, (a'.binding? q v = some u → u = t) ∧ (b'.binding? q v = some u → u = t))
    (ends : ∀ {v t}, x.ends v → x.locals.get? v = some t →
      s.get? v = some t ∧ a'.binding? q v = some t) : Shadows q x s a' b' where
  length := ha.length.trans h.length
  length' := hb.length.trans h.length'
  part := h.part
  overlay := ha.locals ▸ h.overlay
  locals := by
    rw [ha.locals, hb.locals]
    exact h.locals
  slots := slots
  starts := starts
  ends := ends
  graph := by
    rw [ha.graph, hb.graph]
    exact h.graph
  graphs := ha.graph ▸ h.graphs
  group := ha.group.trans h.group
  group' := hb.group.trans h.group'

/-- A variable without a local value is bound on both sides. -/
theorem assign (h : Shadows q x s a b) (hv : v ∈ q.vars) (hx : x.locals.get? v = none) (t : Term) :
    Shadows q x s (a.assign q v t) (b.assign q v t) := by
  have hne : ∀ {w u}, x.locals.get? w = some u → w ≠ v := fun hw he => by
    rw [he, hx] at hw
    cases hw
  refine h.beside (beside_assign a q v t) (beside_assign b q v t) (fun {w} hw => ?_)
    (fun {w u} hs hw => ?_) fun {w u} he hw => ?_
  · rw [binding_assign h.length hv, binding_assign h.length' hv, h.slots hw]
  · rw [binding_assign h.length hv, binding_assign h.length' hv, if_neg (hne hw), if_neg (hne hw)]
    exact h.starts hs hw
  · rw [binding_assign h.length hv, if_neg (hne hw)]
    exact h.ends he hw

/-- A variable with a local value may be bound to it on one side. -/
theorem assign_left (h : Shadows q x s a b) (hv : v ∈ q.vars) (hx : x.locals.get? v = some t) :
    Shadows q x s (a.assign q v t) b := by
  refine h.beside (beside_assign a q v t) (beside_self b) (fun {w} hw => ?_)
    (fun {w u} hs hw => ?_) fun {w u} he hw => ?_
  all_goals rw [binding_assign h.length hv]; split_ifs with hwv
  · rw [hwv, hx] at hw
    cases hw
  · exact h.slots hw
  · rw [hwv, hx] at hw
    exact fun u' => ⟨fun hu => by rw [← Option.some.inj hu, Option.some.inj hw],
      (h.starts hs (hwv ▸ hx.trans hw) u').2⟩
  · exact h.starts hs hw
  · rw [hwv, hx] at hw
    exact ⟨(h.ends he (hwv ▸ hx.trans hw)).1, hw⟩
  · exact h.ends he hw

theorem assign_right (h : Shadows q x s a b) (hv : v ∈ q.vars) (hx : x.locals.get? v = some t) :
    Shadows q x s a (b.assign q v t) := by
  refine h.beside (beside_self a) (beside_assign b q v t) (fun {w} hw => ?_)
    (fun {w u} hs hw => ?_) h.ends
  all_goals rw [binding_assign h.length' hv]; split_ifs with hwv
  · rw [hwv, hx] at hw
    cases hw
  · exact h.slots hw
  · rw [hwv, hx] at hw
    exact fun u' => ⟨(h.starts hs (hwv ▸ hx.trans hw) u').1,
      fun hu => by rw [← Option.some.inj hu, Option.some.inj hw]⟩
  · exact h.starts hs hw

theorem alike_bind (h : Shadows q x s a b) (hx : x.locals.get? v = none) (t : Term) :
    Alike (Shadows q x s) (a.bind? q v t) (b.bind? q v t) := by
  by_cases hv : v ∈ q.vars
  · cases hb : b.binding? q v with
    | none =>
      rw [bind_of_free hv hb, bind_of_free hv ((h.slots hx).trans hb)]
      exact .some (h.assign hv hx t)
    | some u =>
      rw [bind_of_bound hb, bind_of_bound ((h.slots hx).trans hb)]
      split_ifs
      · exact .some h
      · exact .none
  · simp only [bind?, bind, Query.slot_eq_none.mpr hv]
    exact .error _

/-- Where it may, a variable with a local value is bound to it. -/
theorem exists_bind_left (h : Shadows q x s a b) (hv : v ∈ q.vars)
    (hx : x.locals.get? v = some t) (hs : x.starts v) :
    ∃ a', a.bind? q v t = .ok (some a') ∧ Shadows q x s a' b := by
  cases ha : a.binding? q v with
  | none => exact ⟨_, bind_of_free hv ha t, h.assign_left hv hx⟩
  | some u =>
    obtain rfl := (h.starts hs hx u).1 ha
    exact ⟨a, (bind_of_bound ha u).trans (by rw [if_pos rfl]), h⟩

theorem exists_bind_right (h : Shadows q x s a b) (hv : v ∈ q.vars)
    (hx : x.locals.get? v = some t) (hs : x.starts v) :
    ∃ b', b.bind? q v t = .ok (some b') ∧ Shadows q x s a b' := by
  cases hb : b.binding? q v with
  | none => exact ⟨_, bind_of_free hv hb t, h.assign_right hv hx⟩
  | some u =>
    obtain rfl := (h.starts hs hx u).2 hb
    exact ⟨b, (bind_of_bound hb u).trans (by rw [if_pos rfl]), h⟩

end Shadows

end Environment

open Environment

/-! ### Candidates -/

namespace Environment.Shadows

variable {q : Query} {x : Overlay} {s : Locals} {a b : Environment}

theorem restriction_eq (h : Shadows q x s a b) : Source.restriction q a = Source.restriction q b := by
  unfold Source.restriction
  rcases h.graph_cases with ⟨ha, hb⟩ | ⟨n, n', ha, hb, -⟩
  · rw [ha, hb]
  · rw [ha, hb]
    rfl

theorem inForce_eq (h : Shadows q x s a b) (source : Source) (from_ : List Node)
    (os : List Occurrence) :
    source.inForce q a a.graph from_ os = source.inForce q b b.graph from_ os := by
  rcases h.graph_cases with ⟨ha, hb⟩ | ⟨n, n', ha, hb, hp⟩
  · rw [ha, hb]
    rfl
  · rw [ha, hb, Source.inForce, Source.inForce, h.lookup_eq hp]

theorem selectIndex_eq (h : Shadows q x s a b) (source : Source) (e : EdgePattern)
    (isType : Bool) : source.selectIndex q a e a.graph isType =
      source.selectIndex q b (e.substitute s) b.graph isType := by
  have hs := h.lookup_eq (n := e.subject) (.inl rfl) source
  have ho := h.lookup_eq (n := e.object) (.inl rfl) source
  unfold Source.selectIndex
  rcases h.graph_cases with ⟨ha, hb⟩ | ⟨n, n', ha, hb, hp⟩
  · rw [ha, hb]
    split_ifs <;> simp only [EdgePattern.substitute, Option.map_none, Option.toList_none,
      List.append_nil, List.cons_append, List.nil_append, List.foldr_cons, List.foldr_nil, hs, ho]
  · have hg := h.lookup_eq hp source
    rw [ha, hb]
    split_ifs <;> simp only [EdgePattern.substitute, Option.map_some, Option.toList_some,
      List.append_nil, List.cons_append, List.nil_append, List.foldr_cons, List.foldr_nil, hs, ho, hg]

/-- The same edges are found. -/
theorem matchEdge_eq (h : Shadows q x s a b) (source : Source) (e : EdgePattern)
    (from_ : List Term) : source.matchEdge q a e a.graph from_ =
      source.matchEdge q b (e.substitute s) b.graph from_ := by
  have hpredicates : source.predicates q a e.predicate =
      source.predicates q b (e.substitute s).predicate := by
    rw [Source.predicates, Source.predicates, h.valueOf_eq (n := e.predicate) (.inl rfl)]
    rfl
  have ho : source.lookup q a e.object = source.lookup q b (e.substitute s).object :=
    funext (h.lookup_eq (.inl rfl) source)
  have hscan : ∀ ps isType, source.scan q a e a.graph from_ ps isType =
      source.scan q b (e.substitute s) b.graph from_ ps isType := by
    intro ps isType
    unfold Source.scan
    rw [selectIndex_eq h, ho]
    rcases h.graph_cases with ⟨ha, hb⟩ | ⟨n, n', ha, hb, -⟩
    · rw [ha, hb]
    · rw [ha, hb]
      cases from_ <;> rfl
  rw [Source.matchEdge, Source.matchEdge]
  simp only [hpredicates, ho, hscan, inForce_eq h]

end Environment.Shadows

namespace Context

variable {c : Context} {x : Overlay} {s : Locals} {a b : Environment} {n n' : NodePattern}
  {o : Occurrence}

/-! ### Edges -/

/-- The start of a walk, or a predicate, is bound on both sides if a local value is found there. -/
theorem alike_bindStart (h : Shadows c.query x s a b) {t : Term}
    (hv : ∀ v ∈ n.vars, v ∈ c.query.vars)
    (hl : ∀ v ∈ n.vars, ∀ u, x.locals.get? v = some u → x.starts v ∧ u = t) :
    Alike (Shadows c.query x s) (c.bindStart n t a) (c.bindStart (n.substitute s) t b) := by
  cases n with
  | const u => exact .some h
  | var v =>
    rw [NodePattern.forall_mem_vars] at hv hl
    cases hx : x.locals.get? v with
    | none =>
      rw [NodePattern.substitute_of_free (h.part_none hx)]
      exact h.alike_bind hx t
    | some u =>
      obtain ⟨hs, rfl⟩ := hl u hx
      obtain ⟨a', ha', h'⟩ := h.exists_bind_left hv hx hs
      cases hsv : s.get? v with
      | some u' =>
        rw [NodePattern.substitute_of_local hsv, bindStart, bindStart, ha']
        exact .some h'
      | none =>
        obtain ⟨b', hb', h''⟩ := h'.exists_bind_right hv hx hs
        rw [NodePattern.substitute_of_free hsv, bindStart, bindStart, ha', hb']
        exact .some h''

theorem alike_bindPosition (h : Shadows c.query x s a b) (hp : Place x s n n')
    (position : Position) :
    Alike (Shadows c.query x s) (c.bindPosition o position n a)
      (c.bindPosition o position n' b) := by
  have hvalue := h.valueOf_eq hp
  unfold bindPosition
  cases o.node position with
  | none => exact .none
  | some actual =>
    rcases h.place_cases hp with rfl | ⟨v, t, rfl, rfl, hx⟩
    · cases n' with
      | const t =>
        dsimp only
        split_ifs
        · exact .some h
        · exact .none
      | var v =>
        have hget : a.get? c.query v = b.get? c.query v := hvalue
        cases ha : a.get? c.query v with
        | some t =>
          simp only [ha, ← hget]
          split_ifs
          · exact .some h
          · exact .none
        | none =>
          simp only [ha, ← hget]
          exact h.alike_bind (h.get_of_free ha).1 _
    · have ha : a.get? c.query v = some t := hvalue
      have hc : Node.ofTerm t = ⟨t, none⟩ := congrArg (Node.mk · none) (Shadows.isCanonical hx)
      simp only [ha, hc]
      split_ifs
      · exact .some h
      · exact .none

theorem alike_bindPositions {ps ps' : List (Position × NodePattern)}
    (hp : List.Forall₂ (fun p p' => p'.1 = p.1 ∧ Place x s p.2 p'.2) ps ps')
    (h : Shadows c.query x s a b) :
    Alike (Shadows c.query x s) (c.bindPositions o ps a) (c.bindPositions o ps' b) := by
  induction hp generalizing a b with
  | nil => exact .some h
  | @cons p p' ps ps' hp _ ih =>
    obtain ⟨position, n⟩ := p
    obtain ⟨position', n'⟩ := p'
    obtain ⟨rfl, hp⟩ := hp
    rw [bindPositions, bindPositions]
    exact (alike_bindPosition h hp position').andThen .none fun a b h => ih h

theorem alike_bindEdge (hs : c.source.store.Valid) (h : Shadows c.query x s a b)
    {e : EdgePattern} {from_ : List Term} (hv : ∀ v ∈ e.predicate.vars, v ∈ c.query.vars)
    (hst : ∀ v ∈ e.predicate.vars, x.starts v)
    (ho : o ∈ c.source.matchEdge c.query a e a.graph from_) :
    Alike (Shadows c.query x s) (c.bindEdge e a.graph o a)
      (c.bindEdge (e.substitute s) b.graph o b) := by
  rw [bindEdge_eq_bindStart, bindEdge_eq_bindStart]
  refine (alike_bindStart h hv fun v hm t hx => ⟨hst v hm, ?_⟩).andThen .none fun a' b' h' => ?_
  · -- The edges that are found have the local value as their predicate.
    have hget : Source.valueOf? c.query a e.predicate = some t := by
      rw [NodePattern.eq_var_of_mem hm]
      exact h.get_of_local hx (.inl (hst v hm))
    rw [Source.predicate_of_mem_matchEdge hs hget ho]
    exact (Shadows.isCanonical hx).symm
  · refine alike_bindPositions ?_ h'
    have hends : List.Forall₂ (fun p p' : Position × NodePattern => p'.1 = p.1 ∧ Place x s p.2 p'.2)
        [(.subject, e.subject), (.object, e.object)]
        [(.subject, (e.substitute s).subject), (.object, (e.substitute s).object)] :=
      .cons ⟨rfl, .inl rfl⟩ (.cons ⟨rfl, .inl rfl⟩ .nil)
    rcases h.graph_cases with ⟨ha, hb⟩ | ⟨n, n', ha, hb, hp⟩
    · rw [ha, hb]
      exact hends
    · rw [ha, hb]
      exact List.rel_append hends (.cons ⟨rfl, hp⟩ .nil)

variable {σ : Type} {next next' : Next σ}

theorem solveEdge_shadowed (hs : c.source.store.Valid) (h : Shadows c.query x s a b) {e : EdgePattern}
    (hv : ∀ v ∈ e.predicate.vars, v ∈ c.query.vars) (hst : ∀ v ∈ e.predicate.vars, x.starts v)
    (hn : ∀ a b, Shadows c.query x s a b → ∀ w, next a w = next' b w) (w : σ) :
    c.solveEdge e a next w = c.solveEdge (e.substitute s) b next' w := by
  rw [solveEdge, solveEdge, ← h.matchEdge_eq, h.restriction_eq]
  refine Run.visit_congr (fun i o ho w => ?_) 0 w
  exact (alike_bindEdge hs h hv hst ho).run_eq rfl fun a b h => hn _ _ (h.choose i) w

/-! ### Paths -/

/-- The same nodes are reached. -/
theorem reach_shadowed (h : Shadows c.query x s a b) (p p' : PathPattern) (path : Path) :
    c.source.reach ⟨c.query, a, p⟩ path = c.source.reach ⟨c.query, b, p'⟩ path := by
  have hstep : ∀ step, c.source.stepFrom ⟨c.query, a, p⟩ step =
      c.source.stepFrom ⟨c.query, b, p'⟩ step := by
    intro step
    funext t
    unfold Source.stepFrom Source.matchStep
    rw [h.restriction_eq]
    simp only [h.inForce_eq]
  exact funext (Source.reach_congr hstep rfl path)

theorem startNodes_shadowed (hs : c.source.store.Valid) (h : Shadows c.query x s a b) :
    c.source.startNodes c.query a = c.source.startNodes c.query b := by
  unfold Source.startNodes
  rcases h.graph_cases with ⟨ha, hb⟩ | ⟨n, n', ha, hb, hp⟩
  · rw [ha, hb]
  · rw [ha, hb]
    have hvalue := h.valueOf_eq hp
    rcases h.place_cases hp with rfl | ⟨v, t, rfl, rfl, hx⟩
    · cases n' with
      | const t => rfl
      | var v =>
        have hget : a.get? c.query v = b.get? c.query v := hvalue
        simp only [hget]
    · have hget : a.get? c.query v = some t := hvalue
      simp only [hget, hs.nodes_ofTerm (Shadows.isCanonical hx)]
      cases c.source.store.graphNode? t <;> rfl

/-- The ends that are reached are bound on both sides, or compared with the local value. -/
theorem solveEnds_shadowed (h : Shadows c.query x s a b)
    (he : ∀ v ∈ n.vars, x.locals.get? v = none ∨ x.ends v)
    (hn : ∀ a b, Shadows c.query x s a b → ∀ w, next a w = next' b w) (reached : List Term)
    (w : σ) : c.solveEnds n reached a next w = c.solveEnds (n.substitute s) reached b next' w := by
  rw [solveEnds, solveEnds]
  refine Run.visit_congr (fun i t _ w => ?_) 0 w
  cases n with
  | const u =>
    change (if t = u.canonical then _ else _) = if t = u.canonical then _ else _
    rw [hn _ _ (h.choose i)]
  | var v =>
    rw [NodePattern.forall_mem_vars] at he
    have halike (hx : x.locals.get? v = none) : c.binding v t (a.choose i) next w =
        c.binding v t (b.choose i) next' w :=
      ((h.choose i).alike_bind hx t).run_eq rfl fun a b h => hn a b h w
    cases hx : x.locals.get? v with
    | none =>
      rw [NodePattern.substitute_of_free (h.part_none hx)]
      exact halike hx
    | some u =>
      obtain ⟨hsv, hav⟩ := (h.choose i).ends (he.resolve_left (hx ▸ Option.some_ne_none u)) hx
      have hu : u.canonical = u := Shadows.isCanonical hx
      rw [NodePattern.substitute_of_local hsv]
      change c.binding v t (a.choose i) next w = if t = u.canonical then _ else _
      rw [binding, bind_of_bound hav, hu]
      split_ifs with h₁ h₂ h₂
      · exact (pure_bind _ _).trans (hn _ _ (h.choose i) w)
      · exact absurd h₁.symm h₂
      · exact absurd h₂.symm h₁
      · exact pure_bind _ _

theorem walk_shadowed (hs : c.source.store.Valid) (h : Shadows c.query x s a b) (p : PathPattern) :
    c.walk (p.substitute s) b = ((c.walk p a).1, (c.walk p a).2.1,
      (c.walk p a).2.2.1.substitute s, (c.walk p a).2.2.2.substitute s) := by
  have hsub := h.valueOf_eq (n := p.subject) (.inl rfl)
  have hobj := h.valueOf_eq (n := p.object) (.inl rfl)
  unfold walk
  simp only [PathPattern.substitute, ← hsub, ← hobj, startNodes_shadowed hs h]
  cases (Source.valueOf? c.query a p.subject).map Term.canonical with
  | some t => rfl
  | none => cases (Source.valueOf? c.query a p.object).map Term.canonical <;> rfl

/-- A walk starts from the local value, if there is one, and has no other one at its end unless the
variable is bound to it. -/
theorem walk_places (h : Shadows c.query x s a b) {p : PathPattern}
    (hs : ∀ v ∈ p.subject.vars, x.starts v) (he : ∀ v ∈ p.object.vars, x.ends v) :
    (∀ v ∈ (c.walk p a).2.2.1.vars, x.starts v ∧
      ∀ u, x.locals.get? v = some u → ∀ t ∈ (c.walk p a).1, u = t) ∧
    ∀ v ∈ (c.walk p a).2.2.2.vars, x.locals.get? v = none ∨ x.ends v := by
  have hvalue : ∀ {n : NodePattern} {v u}, v ∈ n.vars → x.starts v → x.locals.get? v = some u →
      (Source.valueOf? c.query a n).map Term.canonical = some u := by
    intro n v u hv hs hx
    obtain rfl := NodePattern.eq_var_of_mem hv
    have hget : Source.valueOf? c.query a (.var v) = some u := h.get_of_local hx (.inl hs)
    rw [hget]
    exact congrArg some (Shadows.isCanonical hx)
  have hobject : ∀ v ∈ p.object.vars, x.starts v := fun v hv => x.ends_starts v (he v hv)
  have hfree : ∀ {n : NodePattern}, (∀ v ∈ n.vars, x.starts v) →
      (Source.valueOf? c.query a n).map Term.canonical = none →
        ∀ v ∈ n.vars, x.locals.get? v = none := fun hns hn v hv => by
    cases hx : x.locals.get? v with
    | none => rfl
    | some u => cases hn.symm.trans (hvalue hv (hns v hv) hx)
  unfold walk
  dsimp only
  cases hsub : (Source.valueOf? c.query a p.subject).map Term.canonical with
  | some t =>
    refine ⟨fun v hv => ⟨hs v hv, fun u hx t' ht' => ?_⟩, fun v hv => .inr (he v hv)⟩
    rw [List.mem_singleton.mp ht']
    exact Option.some.inj ((hvalue hv (hs v hv) hx).symm.trans hsub)
  | none =>
    cases hobj : (Source.valueOf? c.query a p.object).map Term.canonical with
    | some t =>
      refine ⟨fun v hv => ⟨hobject v hv, fun u hx t' ht' => ?_⟩,
        fun v hv => .inl (hfree hs hsub v hv)⟩
      rw [List.mem_singleton.mp ht']
      exact Option.some.inj ((hvalue hv (hobject v hv) hx).symm.trans hobj)
    | none =>
      refine ⟨fun v hv => ⟨hs v hv, fun u hx => ?_⟩, fun v hv => .inl (hfree hobject hobj v hv)⟩
      cases (hfree hs hsub v hv).symm.trans hx

theorem solvePath_eq_visit (p : PathPattern) (env : Environment) (next : Next σ) (w : σ) :
    c.solvePath p env next w = Run.visit (fun i t w => do
      match ← Run.ofExcept (c.bindStart (c.walk p env).2.2.1 t (env.choose i)) with
      | none => pure (.yield w)
      | some env' => c.solveEnds (c.walk p env).2.2.2 (c.source.reach ⟨c.query, env', p⟩ p.path
          (c.walk p env).2.1 t) env' next w) 0 (c.walk p env).1 w :=
  rfl

theorem solvePath_shadowed (hs : c.source.store.Valid) (h : Shadows c.query x s a b) {p : PathPattern}
    (hv : ∀ v ∈ p.vars, v ∈ c.query.vars) (hsub : ∀ v ∈ p.subject.vars, x.starts v)
    (hobj : ∀ v ∈ p.object.vars, x.ends v)
    (hn : ∀ a b, Shadows c.query x s a b → ∀ w, next a w = next' b w) (w : σ) :
    c.solvePath p a next w = c.solvePath (p.substitute s) b next' w := by
  obtain ⟨hstart, htarget⟩ := walk_places h hsub hobj
  have hdeclared : ∀ v ∈ (c.walk p a).2.2.1.vars, v ∈ c.query.vars := fun v hm =>
    hv v <| (c.walk_ends p a).elim (fun he => List.mem_append_left _ (he.1 ▸ hm))
      fun he => List.mem_append_right _ (he.1 ▸ hm)
  rw [solvePath_eq_visit, solvePath_eq_visit, walk_shadowed hs h]
  refine Run.visit_congr (fun i t ht w => ?_) 0 w
  refine (alike_bindStart (h.choose i) hdeclared fun v hm u hx =>
    ⟨(hstart v hm).1, (hstart v hm).2 u hx t ht⟩).run_eq rfl fun a' b' h' => ?_
  dsimp only
  rw [reach_shadowed h' p (p.substitute s)]
  exact solveEnds_shadowed h' htarget hn _ w

end Context

/-! ### Differences -/

namespace Environment

variable {q : Query} {x : Overlay} {s : Locals} {a b e : Environment}

/-- Whether only some variables are bound or name the graph in force. -/
structure Clear (q : Query) (V : Variable → Prop) (e : Environment) : Prop where
  length : e.bindings.length = q.vars.length
  free : ∀ v, ¬ V v → e.binding? q v = none
  graph : ∀ n, e.graph = some n → ∀ v ∈ n.vars, V v

theorem stable_clear (q : Query) (V : Variable → Prop) :
    Stable q V (fun _ => True) (Clear q V) where
  choose _ _ h := ⟨h.length, h.free, h.graph⟩
  bind e v t e' hv _ h he := by
    obtain ⟨hq, rfl | rfl⟩ := eq_assign_of_bind he
    · exact h
    · refine ⟨length_assign.trans h.length, fun w hw => ?_, ?_⟩
      · rw [binding_assign h.length hq, if_neg fun hwv : w = v => hw (hwv ▸ hv)]
        exact h.free w hw
      · rw [graph_assign]
        exact h.graph
  graph _ n h hn := h.graph n hn

/-- What some variables are bound to in a solved pattern that mentions no others. -/
theorem clear_of_mem_trace {c : Context} {h : Hooks} {V : Variable → Prop} {p : Pattern}
    {env : Environment} (hp : ∀ v ∈ p.vars, V v) (henv : env.Clear c.query V) :
    ∀ e ∈ (p.trace c h env).items, e.Clear c.query V :=
  Pattern.kept (stable_clear c.query V) c.supplies_any p env hp
    (.inr fun e n hn he => ⟨he.length, he.free, fun n' hn' => by
      obtain rfl := Option.some.inj hn'
      exact hn⟩) henv

theorem clear_apart {c : Context} {V : Variable → Prop} {env : Environment}
    (hg : ∀ n, env.graph = some n → ∀ v ∈ n.vars, V v) :
    (Pattern.apart c env).Clear c.query V :=
  ⟨List.length_replicate, fun v _ => binding_initial c.query v, hg⟩

/-- A difference does not see what is bound under local values. -/
theorem Shadows.removes_eq (h : Shadows q x s a b)
    (he : e.Clear q fun v => x.locals.get? v = none) :
    (a.solution.sharesSlot e.solution && a.solution.compatible e.solution) =
      (b.solution.sharesSlot e.solution && b.solution.compatible e.solution) := by
  have hslots : ∀ {v u}, e.binding? q v = some u → a.binding? q v = b.binding? q v := by
    intro v u hu
    refine h.slots ?_
    by_contra hx
    rw [he.free v hx] at hu
    cases hu
  rw [Bool.eq_iff_iff, Bool.and_eq_true, Bool.and_eq_true, sharesSlot_solution_iff h.length,
    sharesSlot_solution_iff h.length', compatible_solution_iff h.length,
    compatible_solution_iff h.length']
  constructor
  · rintro ⟨⟨v, t, u, ht, hu⟩, hc⟩
    exact ⟨⟨v, t, u, (hslots hu).symm.trans ht, hu⟩,
      fun v t u ht hu => hc v t u ((hslots hu).trans ht) hu⟩
  · rintro ⟨⟨v, t, u, ht, hu⟩, hc⟩
    exact ⟨⟨v, t, u, (hslots hu).trans ht, hu⟩,
      fun v t u ht hu => hc v t u ((hslots hu).symm.trans ht) hu⟩

theorem Shadows.any_removes_eq (h : Shadows q x s a b) {es : List Environment}
    (he : ∀ e ∈ es, e.Clear q fun v => x.locals.get? v = none) :
    (es.any fun e => a.solution.sharesSlot e.solution && a.solution.compatible e.solution) =
      es.any fun e => b.solution.sharesSlot e.solution && b.solution.compatible e.solution := by
  rw [Bool.eq_iff_iff, List.any_eq_true, List.any_eq_true]
  refine exists_congr fun e => and_congr_right fun hm => ?_
  rw [h.removes_eq (he e hm)]

end Environment

namespace Pattern

variable {c : Context} {h : Hooks} {x : Overlay} {s : Locals} {a b : Environment}

theorem shadowable_empty (p : Pattern) (hr : p.requests = []) : p.Shadowable .empty := by
  cases p with
  | edge => exact fun _ _ => trivial
  | filter => trivial
  | bind => rfl
  | values => exact fun _ _ => rfl
  | path => exact ⟨fun _ _ => trivial, fun _ _ => trivial⟩
  | sequence items =>
    refine allShadowable_iff.mpr fun p hm => ?_
    have := List.sizeOf_lt_of_mem hm
    refine shadowable_empty p (List.eq_nil_iff_forall_not_mem.mpr fun r hrp => ?_)
    exact List.ne_nil_of_mem (mem_listRequests.mpr ⟨p, hm, hrp⟩) hr
  | optional left right condition =>
    obtain ⟨hr, -⟩ := List.append_eq_nil_iff.mp hr
    obtain ⟨hl, hr⟩ := List.append_eq_nil_iff.mp hr
    exact ⟨shadowable_empty left hl, shadowable_empty right hr⟩
  | union left right =>
    obtain ⟨hl, hr⟩ := List.append_eq_nil_iff.mp hr
    exact ⟨shadowable_empty left hl, shadowable_empty right hr⟩
  | minus left right =>
    obtain ⟨hl, hr⟩ := List.append_eq_nil_iff.mp hr
    exact ⟨shadowable_empty left hl, hr, fun _ _ => rfl, fun _ _ => rfl⟩
  | graph name inner => exact ⟨fun _ _ => trivial, shadowable_empty inner hr⟩
termination_by sizeOf p

/-- What is excluded is solved in the same place. -/
theorem shadows_apart (hR : Shadows c.query x s a b)
    (hg : ∀ v, x.graphs v → x.locals.get? v = none) :
    Shadows c.query .empty [] (apart c a) (apart c b) := by
  have hgraph : a.graph = b.graph := by
    rcases hR.graph_cases with ⟨ha, hb⟩ | ⟨n, n', ha, hb, hp⟩
    · rw [ha, hb]
    · rw [ha, hb]
      rcases hR.place_cases hp with rfl | ⟨v, t, rfl, -, hx⟩
      · rfl
      · cases (hg v (NodePattern.forall_mem_vars.mp (hR.graphs _ ha))).symm.trans hx
  exact {
    length := List.length_replicate
    length' := List.length_replicate
    part := fun h => h
    overlay := fun h => by cases h
    locals := fun _ => rfl
    slots := fun _ => rfl
    starts := fun _ h => by cases h
    ends := fun _ h => by cases h
    graph := .inl (by simp [apart, hgraph])
    graphs := fun _ _ _ _ => trivial
    group := rfl
    group' := rfl }

/-- Under local values a pattern is solved as it is with the values in the places of their variables,
if the expressions in it are evaluated alike. -/
theorem solvedAlike_shadowed (hs : c.source.store.Valid) (p : Pattern) (x : Overlay)
    (A : Request → Prop)
    (hX : ∀ e : Expr, (∀ r ∈ e.requests, A r) → ∀ {s a b}, Shadows c.query x s a b →
      e.eval c.toScope h a = (e.substitute s).eval c.toScope h b)
    (hp : p.Shadowable x) (hv : ∀ v ∈ p.vars, v ∈ c.query.vars) (hr : ∀ r ∈ p.requests, A r)
    {s : Locals} : SolvedAlike c h (Shadows c.query x s) p (p.substitute s) := by
  have hchoose : ∀ i {a b}, Shadows c.query x s a b →
      Shadows c.query x s (a.choose i) (b.choose i) := fun i _ _ hR => hR.choose i
  cases p with
  | edge e =>
    intro a b hR σ next next' hn w
    exact Context.solveEdge_shadowed hs hR
      (fun v hm => hv v (List.mem_append_left _ (List.mem_append_right _ hm))) hp hn w
  | path p =>
    intro a b hR σ next next' hn w
    exact Context.solvePath_shadowed hs hR hv hp.1 hp.2 hn w
  | sequence items =>
    rw [substitute, substituteAll_eq_map]
    refine solvedAlike_sequence (List.forall₂_map_right_iff.mpr (List.forall₂_same.mpr fun p hm => ?_))
    have := List.sizeOf_lt_of_mem hm
    exact solvedAlike_shadowed hs p x A hX (allShadowable_iff.mp hp p hm)
      (fun v hvp => hv v (mem_listVariables.mpr ⟨p, hm, hvp⟩))
      (fun r hrp => hr r (mem_listRequests.mpr ⟨p, hm, hrp⟩))
  | optional left right condition =>
    simp only [vars, List.mem_append] at hv
    simp only [requests, List.mem_append] at hr
    refine solvedAlike_optional hchoose
      (solvedAlike_shadowed hs left x A hX hp.1 (fun v hm => hv v (.inl (.inl hm)))
        fun r hm => hr r (.inl (.inl hm)))
      (solvedAlike_shadowed hs right x A hX hp.2 (fun v hm => hv v (.inl (.inr hm)))
        fun r hm => hr r (.inl (.inr hm))) fun hR => ?_
    cases condition with
    | none => rfl
    | some e => exact congrArg some (hX e (fun r hm => hr r (.inr hm)) hR)
  | union left right =>
    simp only [vars, List.mem_append] at hv
    simp only [requests, List.mem_append] at hr
    exact solvedAlike_union hchoose
      (solvedAlike_shadowed hs left x A hX hp.1 (fun v hm => hv v (.inl hm))
        fun r hm => hr r (.inl hm))
      (solvedAlike_shadowed hs right x A hX hp.2 (fun v hm => hv v (.inr hm))
        fun r hm => hr r (.inr hm))
  | minus left right =>
    simp only [vars, List.mem_append] at hv
    simp only [requests, List.mem_append] at hr
    obtain ⟨hl, hrr, hrv, hg⟩ := hp
    refine solvedAlike_minus hchoose (solvedAlike_shadowed hs left x A hX hl
      (fun v hm => hv v (.inl hm)) fun r hm => hr r (.inl hm)) (fun {a b} hR => ?_) fun {a b} hR => ?_
    · have hcollect : ∀ a b, Shadows c.query .empty [] a b → ∀ found : List Solution,
          (pure (.yield (a.solution :: found)) : Run (ForInStep (List Solution))) =
            pure (.yield (b.solution :: found)) := fun a b hab found => by
        rw [hab.solution_eq fun _ => rfl]
      have hsame := solvedAlike_shadowed hs right .empty (fun _ => False) (fun e he _ _ _ hab =>
          (Expr.eval_substitute_same (List.eq_nil_iff_forall_not_mem.mpr he) hab.agreeUpTo).eq)
        (right.shadowable_empty hrr) (fun v hm => hv v (.inr hm)) (by simp [hrr])
        _ _ (shadows_apart hR hg) hcollect []
      rw [right.substitute_eq_self (fun v hm => hR.part_none (hrv v hm)) (by simp [hrr])]
      rwa [right.substitute_nil] at hsame
    · have hclear : ∀ e ∈ (right.trace c h (apart c a)).items,
          e.Clear c.query fun v => x.locals.get? v = none :=
        clear_of_mem_trace hrv (clear_apart fun n hn v hm => hg v (hR.graphs n hn v hm))
      exact fun {_ _} hR => hR.any_removes_eq hclear
  | filter e => exact solvedAlike_filter hchoose (hX e hr)
  | bind v e => exact solvedAlike_bind hchoose (hX e hr) fun _ _ hR => hR.alike_bind hp
  | graph name inner =>
    intro a b hR σ next next' hn w
    simp only [vars, List.mem_append] at hv
    have hin := solvedAlike_shadowed hs inner x A hX hp.2 (fun v hm => hv v (.inr hm)) hr (s := s)
    have hunder := hR.under hp.1
    cases name with
    | const t => exact hin _ _ hunder hn w
    | var v =>
      have hget := hR.get_eq v
      cases hsv : s.get? v with
      | some t =>
        rw [NodePattern.substitute_of_local hsv] at hunder
        rw [hsv, Option.some_or] at hget
        rw [substitute, NodePattern.substitute_of_local hsv, solve, solve]
        simp only [hget, Option.isNone_some, Bool.false_and, Bool.false_eq_true, if_false]
        exact hin _ _ hunder hn w
      | none =>
        rw [NodePattern.substitute_of_free hsv] at hunder
        rw [hsv, Option.none_or] at hget
        rw [substitute, NodePattern.substitute_of_free hsv, solve, solve, containsPath_substitute]
        simp only [hget]
        split_ifs with hfree
        · refine Run.visit_congr (fun i g _ w => ?_) 0 w
          have hx := (hR.get_of_free (hget.trans (by simpa using (Bool.and_eq_true_iff.mp hfree).1))).1
          exact ((hunder.choose i).alike_bind hx g.term).run_eq rfl fun a b hR => hin a b hR hn w
        · exact hin _ _ hunder hn w
  | values vs rows => exact solvedAlike_values hchoose fun v hm _ _ hR => hR.alike_bind (hp v hm)
termination_by sizeOf p

end Pattern

end GraphQuery
