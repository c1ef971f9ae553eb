import GraphQuery.Proofs.Evaluate.Existence

/-! Variables that are not read. What is bound to a variable that a pattern does not mention, and the
way to an environment, make no difference to solving the pattern, apart from what the solutions bind
to it. -/

namespace GraphQuery

namespace Environment

/-- Whether two environments are the same apart from the ways to them and the slots of some
variables, none of which names the graph in force. -/
structure SameBut (q : Query) (X : Variable → Prop) (a b : Environment) : Prop where
  slots : ∀ i, (∀ v, q.slot? v = some i → ¬ X v) → a.bindings[i]? = b.bindings[i]?
  locals : a.locals = b.locals
  graph : a.graph = b.graph
  group : a.group = b.group
  graphs : ∀ n, a.graph = some n → ∀ v ∈ n.vars, ¬ X v

namespace SameBut

variable {q : Query} {X : Variable → Prop} {a b : Environment} {v : Variable} {n : NodePattern}

theorem choose (h : SameBut q X a b) (i j : Nat) : SameBut q X (a.choose i) (b.choose j) :=
  ⟨h.slots, h.locals, h.graph, h.group, h.graphs⟩

theorem under (h : SameBut q X a b) (hn : ∀ v ∈ n.vars, ¬ X v) :
    SameBut q X { a with graph := some n } { b with graph := some n } where
  slots := h.slots
  locals := h.locals
  graph := rfl
  group := h.group
  graphs n' hn' := by
    obtain rfl := Option.some.inj hn'
    exact hn

theorem slot_eq {i : Nat} (h : SameBut q X a b) (hv : ¬ X v) (hi : q.slot? v = some i) :
    a.bindings[i]? = b.bindings[i]? := by
  refine h.slots i fun w hw => ?_
  rwa [Query.slot_injective hw hi]

theorem binding_eq (h : SameBut q X a b) (hv : ¬ X v) : a.binding? q v = b.binding? q v := by
  rw [binding?, binding?]
  cases hi : q.slot? v with
  | none => rfl
  | some i => rw [Option.bind_some, Option.bind_some, h.slot_eq hv hi]

theorem get_eq (h : SameBut q X a b) (hv : ¬ X v) : a.get? q v = b.get? q v := by
  rw [get?, get?, h.locals, h.binding_eq hv]

theorem valueOf_eq (h : SameBut q X a b) (hn : ∀ v ∈ n.vars, ¬ X v) :
    Source.valueOf? q a n = Source.valueOf? q b n := by
  cases n with
  | const t => rfl
  | var v => exact h.get_eq (NodePattern.forall_mem_vars.mp hn)

theorem lookup_eq (h : SameBut q X a b) (hn : ∀ v ∈ n.vars, ¬ X v) (source : Source) :
    source.lookup q a n = source.lookup q b n := by
  funext position
  rw [Source.lookup, Source.lookup, h.valueOf_eq hn]

/-- If no variable is left out, the same is bound. -/
theorem bindings_eq (h : SameBut q X a b) (hX : ∀ v, ¬ X v) : a.bindings = b.bindings :=
  List.ext_getElem? fun i => h.slots i fun v _ => hX v

/-- Variables that are read are bound alike. -/
theorem alike_bind (h : SameBut q X a b) (hv : ¬ X v) (t : Term) :
    Alike (SameBut q X) (a.bind? q v t) (b.bind? q v t) := by
  unfold bind? bind
  cases hi : q.slot? v with
  | none => exact .error _
  | some i =>
    have hslot := h.slot_eq hv hi
    simp only [hslot]
    cases (b.bindings[i]?).join with
    | none =>
      refine .some ⟨fun j hj => ?_, h.locals, h.graph, h.group, h.graphs⟩
      rw [List.getElem?_set', List.getElem?_set', h.slots j hj]
    | some current =>
      by_cases ht : current = t
      · simp only [ht, if_true]
        exact .some h
      · simp only [ht, if_false]
        exact .none

/-! ### Candidates -/

theorem restriction_eq (h : SameBut q X a b) : Source.restriction q a = Source.restriction q b := by
  rw [Source.restriction, Source.restriction, h.graph]

theorem inForce_eq (h : SameBut q X a b) (source : Source) :
    source.inForce q a a.graph = source.inForce q b b.graph := by
  funext listed os
  rw [← h.graph]
  cases hg : a.graph with
  | none => rfl
  | some n => rw [Source.inForce, Source.inForce, h.lookup_eq (h.graphs n hg)]

/-- The same edges are found. -/
theorem matchEdge_eq (h : SameBut q X a b) {e : EdgePattern} (he : ∀ v ∈ e.vars, ¬ X v)
    (source : Source) (listed : List Term) :
    source.matchEdge q a e a.graph listed = source.matchEdge q b e b.graph listed := by
  simp only [EdgePattern.vars, List.forall_mem_append] at he
  obtain ⟨⟨hs, hp⟩, ho⟩ := he
  have hsubject := h.lookup_eq hs source
  have hobject := h.lookup_eq ho source
  have hindex : source.selectIndex q a e a.graph = source.selectIndex q b e b.graph := by
    funext isType
    rw [← h.graph]
    unfold Source.selectIndex
    cases hg : a.graph with
    | none => split_ifs <;> simp [hsubject, hobject]
    | some n =>
      have hgraph := h.lookup_eq (h.graphs n hg) source
      split_ifs <;> simp [hsubject, hobject, hgraph]
  have hscan : source.scan q a e a.graph listed = source.scan q b e b.graph listed := by
    funext predicates isType
    unfold Source.scan
    rw [hindex, hobject, h.graph]
  have hpredicates : source.predicates q a e.predicate = source.predicates q b e.predicate := by
    rw [Source.predicates, Source.predicates, h.valueOf_eq hp]
  unfold Source.matchEdge
  rw [hpredicates, hobject, hscan, h.inForce_eq]

/-- Walks lead to the same nodes. -/
theorem reach_eq (h : SameBut q X a b) (source : Source) (p : PathPattern) (path : Path) :
    source.reach ⟨q, a, p⟩ path = source.reach ⟨q, b, p⟩ path := by
  have hstep : ∀ step, source.stepFrom ⟨q, a, p⟩ step = source.stepFrom ⟨q, b, p⟩ step := by
    intro step
    funext t
    unfold Source.stepFrom Source.matchStep
    rw [h.restriction_eq, h.inForce_eq]
  exact funext (Source.reach_congr hstep rfl path)

theorem startNodes_eq (h : SameBut q X a b) (source : Source) :
    source.startNodes q a = source.startNodes q b := by
  unfold Source.startNodes
  rw [← h.graph]
  cases hg : a.graph with
  | none => rfl
  | some n =>
    cases n with
    | const t => rfl
    | var v => simp only [h.get_eq (NodePattern.forall_mem_vars.mp (h.graphs _ hg))]

end SameBut

end Environment

open Environment

namespace Environment.SameBut

variable {c : Context} {X : Variable → Prop} {a b : Environment} {n : NodePattern} {σ : Type}
  {next next' : Context.Next σ}

/-! ### Binding -/

theorem alike_bindStart (h : SameBut c.query X a b) (hn : ∀ v ∈ n.vars, ¬ X v) (t : Term) :
    Alike (SameBut c.query X) (c.bindStart n t a) (c.bindStart n t b) := by
  cases n with
  | const u => exact .some h
  | var v => exact h.alike_bind (NodePattern.forall_mem_vars.mp hn) t

theorem alike_bindPosition (h : SameBut c.query X a b) (hn : ∀ v ∈ n.vars, ¬ X v) (o : Occurrence)
    (position : Position) :
    Alike (SameBut c.query X) (c.bindPosition o position n a) (c.bindPosition o position n b) := by
  have hif : ∀ holds : Bool, Alike (SameBut c.query X) (pure (if holds then some a else none))
      (pure (if holds then some b else none)) := by
    intro holds
    cases holds
    · exact .none
    · exact .some h
  unfold Context.bindPosition
  cases o.node position with
  | none => exact .none
  | some actual =>
    cases n with
    | const t => exact hif _
    | var v =>
      have hv := NodePattern.forall_mem_vars.mp hn
      dsimp only
      rw [h.get_eq hv]
      cases b.get? c.query v with
      | some t => exact hif _
      | none => exact h.alike_bind hv _

theorem alike_bindPositions (h : SameBut c.query X a b) (o : Occurrence)
    {ps : List (Position × NodePattern)} (hps : ∀ p ∈ ps, ∀ v ∈ p.2.vars, ¬ X v) :
    Alike (SameBut c.query X) (c.bindPositions o ps a) (c.bindPositions o ps b) := by
  induction ps generalizing a b with
  | nil => exact .some h
  | cons p ps ih =>
    obtain ⟨hp, hps⟩ := List.forall_mem_cons.mp hps
    exact (h.alike_bindPosition hp o p.1).andThen .none fun a b h => ih h hps

theorem alike_bindEdge (h : SameBut c.query X a b) {e : EdgePattern} (he : ∀ v ∈ e.vars, ¬ X v)
    (o : Occurrence) :
    Alike (SameBut c.query X) (c.bindEdge e a.graph o a) (c.bindEdge e b.graph o b) := by
  simp only [EdgePattern.vars, List.forall_mem_append] at he
  obtain ⟨⟨hs, hp⟩, ho⟩ := he
  rw [Context.bindEdge_eq_bindStart, Context.bindEdge_eq_bindStart, ← h.graph]
  refine (h.alike_bindStart hp _).andThen .none fun a' b' h' => h'.alike_bindPositions o ?_
  cases hg : a.graph with
  | none => simpa using ⟨hs, ho⟩
  | some n => simpa using ⟨hs, ho, h.graphs n hg⟩

/-! ### Edges and paths -/

section

variable (h : SameBut c.query X a b)
  (hn : ∀ a b, SameBut c.query X a b → ∀ w, next a w = next' b w)

include h hn

theorem binding_run {v : Variable} (hv : ¬ X v) (t : Term) (w : σ) :
    c.binding v t a next w = c.binding v t b next' w :=
  (h.alike_bind hv t).run_eq rfl fun a b h => hn a b h w

theorem solveEdge_eq {e : EdgePattern} (he : ∀ v ∈ e.vars, ¬ X v) (w : σ) :
    c.solveEdge e a next w = c.solveEdge e b next' w := by
  rw [Context.solveEdge, Context.solveEdge, h.matchEdge_eq he, h.restriction_eq]
  refine Run.visit_congr (fun i o _ w => ?_) 0 w
  exact (h.alike_bindEdge he o).run_eq rfl fun a b h => hn _ _ (h.choose i i) w

theorem solveEnds_eq (ht : ∀ v ∈ n.vars, ¬ X v) (reached : List Term) (w : σ) :
    c.solveEnds n reached a next w = c.solveEnds n reached b next' w := by
  refine Run.visit_congr (fun i t _ w => ?_) 0 w
  cases n with
  | const u =>
    dsimp only
    rw [hn _ _ (h.choose i i)]
  | var v => exact (h.choose i i).binding_run hn (NodePattern.forall_mem_vars.mp ht) t w

theorem solvePath_eq {p : PathPattern} (hp : ∀ v ∈ p.vars, ¬ X v) (w : σ) :
    c.solvePath p a next w = c.solvePath p b next' w := by
  have hends := List.forall_mem_append.mp hp
  have hwalk : c.walk p a = c.walk p b := by
    unfold Context.walk
    simp only [h.valueOf_eq hends.1, h.valueOf_eq hends.2, h.startNodes_eq]
  -- The walk takes the ends of the pattern in one order or the other.
  have hstart : ∀ v ∈ (c.walk p b).2.2.1.vars, ¬ X v := by
    rcases c.walk_ends p b with ⟨hs, -⟩ | ⟨hs, -⟩
    · exact hs ▸ hends.1
    · exact hs ▸ hends.2
  have htarget : ∀ v ∈ (c.walk p b).2.2.2.vars, ¬ X v := by
    rcases c.walk_ends p b with ⟨-, ht⟩ | ⟨-, ht⟩
    · exact ht ▸ hends.2
    · exact ht ▸ hends.1
  rw [Context.solvePath_eq_visit, Context.solvePath_eq_visit, hwalk]
  refine Run.visit_congr (fun i t _ w => ?_) 0 w
  refine ((h.choose i i).alike_bindStart hstart t).run_eq rfl fun a b h => ?_
  dsimp only
  rw [h.reach_eq]
  exact h.solveEnds_eq hn htarget _ w

end

/-! ### Differences -/

/-- A difference does not see what is bound to variables that are not read. -/
theorem removes_eq {e : Environment} (h : SameBut c.query X a b)
    (he : e.Clear c.query fun v => ¬ X v) :
    (a.solution.sharesSlot e.solution && a.solution.compatible e.solution) =
      (b.solution.sharesSlot e.solution && b.solution.compatible e.solution) := by
  have hzip : ∀ {t u}, (some t, some u) ∈ a.bindings.zip e.bindings ↔
      (some t, some u) ∈ b.bindings.zip e.bindings := by
    intro t u
    simp only [List.mem_iff_getElem?, List.getElem?_zip_eq_some]
    refine exists_congr fun i => and_congr_left fun hu => ?_
    have hi : i < c.query.vars.length := he.length ▸ (List.getElem?_eq_some_iff.mp hu).1
    have hslot := Query.slot_eq_some.mpr (List.getElem?_eq_getElem hi)
    have hbound : e.binding? c.query c.query.vars[i] = some u := by
      rw [binding?, hslot, Option.bind_some, hu, Option.join_some]
    have hv : ¬ X c.query.vars[i] := fun hx => by
      rw [he.free _ (not_not_intro hx)] at hbound
      cases hbound
    rw [h.slot_eq hv hslot]
  rw [Bool.eq_iff_iff, Bool.and_eq_true, Bool.and_eq_true, Solution.sharesSlot_iff,
    Solution.sharesSlot_iff, Solution.compatible_iff, Solution.compatible_iff]
  simp only [solution, hzip]

theorem any_removes_eq {es : List Environment} (h : SameBut c.query X a b)
    (hes : ∀ e ∈ es, e.Clear c.query fun v => ¬ X v) :
    (es.any fun e => a.solution.sharesSlot e.solution && a.solution.compatible e.solution) =
      es.any fun e => b.solution.sharesSlot e.solution && b.solution.compatible e.solution := by
  rw [Bool.eq_iff_iff, List.any_eq_true, List.any_eq_true]
  refine exists_congr fun e => and_congr_right fun hm => ?_
  rw [h.removes_eq (hes e hm)]

end Environment.SameBut

/-! ### Patterns -/

namespace Pattern

variable {c : Context} {k : Hooks} {A : Request → Prop}

/-- A pattern is solved alike whatever is bound to variables that it does not mention, if the
expressions in it are evaluated alike. -/
theorem solvedAlike_sameBut (p : Pattern) {X : Variable → Prop}
    (hX : ∀ Y : Variable → Prop, (∀ v, Y v → X v) → ∀ e : Expr, (∀ v ∈ e.vars, ¬ Y v) →
      (∀ r ∈ e.requests, A r) → ∀ {a b : Environment}, SameBut c.query Y a b →
        e.eval c.toScope k a = e.eval c.toScope k b)
    (hv : ∀ v ∈ p.vars, ¬ X v) (hr : ∀ r ∈ p.requests, A r) :
    SolvedAlike c k (SameBut c.query X) p p := by
  have hchoose : ∀ i {a b}, SameBut c.query X a b → SameBut c.query X (a.choose i) (b.choose i) :=
    fun i _ _ hab => hab.choose i i
  have hE := hX X fun _ hv => hv
  cases p with
  | edge e =>
    intro a b hab σ next next' hn w
    exact hab.solveEdge_eq hn hv w
  | path p =>
    intro a b hab σ next next' hn w
    exact hab.solvePath_eq hn hv w
  | values vs rows => exact solvedAlike_values hchoose fun v hm _ _ hab => hab.alike_bind (hv v hm)
  | sequence items =>
    refine solvedAlike_sequence (List.forall₂_same.mpr fun p hm => ?_)
    have := List.sizeOf_lt_of_mem hm
    exact solvedAlike_sameBut p hX (fun v hvp => hv v (mem_listVariables.mpr ⟨p, hm, hvp⟩))
      fun r hrp => hr r (mem_listRequests.mpr ⟨p, hm, hrp⟩)
  | optional left right condition =>
    simp only [vars, List.mem_append] at hv
    simp only [requests, List.mem_append] at hr
    refine solvedAlike_optional hchoose
      (solvedAlike_sameBut left hX (fun v hm => hv v (.inl (.inl hm)))
        fun r hm => hr r (.inl (.inl hm)))
      (solvedAlike_sameBut right hX (fun v hm => hv v (.inl (.inr hm)))
        fun r hm => hr r (.inl (.inr hm))) fun hab => ?_
    cases condition with
    | none => rfl
    | some e =>
      exact congrArg some (hE e (fun v hm => hv v (.inr hm)) (fun r hm => hr r (.inr hm)) hab)
  | union left right =>
    simp only [vars, List.mem_append] at hv
    simp only [requests, List.mem_append] at hr
    exact solvedAlike_union hchoose
      (solvedAlike_sameBut left hX (fun v hm => hv v (.inl hm)) fun r hm => hr r (.inl hm))
      (solvedAlike_sameBut right hX (fun v hm => hv v (.inr hm)) fun r hm => hr r (.inr hm))
  | minus left right =>
    simp only [vars, List.mem_append] at hv
    simp only [requests, List.mem_append] at hr
    refine solvedAlike_minus hchoose
      (solvedAlike_sameBut left hX (fun v hm => hv v (.inl hm)) fun r hm => hr r (.inl hm))
      (fun {a b} hab => ?_) fun {a b} hab {a' b'} hab' => ?_
    -- Nothing is bound yet where the right side is solved, so there is nothing that differs.
    · have hapart : SameBut c.query (fun _ => False) (apart c a) (apart c b) :=
        ⟨fun _ _ => rfl, rfl, hab.graph, rfl, fun _ _ _ _ => id⟩
      refine solvedAlike_sameBut right (fun Y hY => hX Y fun v hv => (hY v hv).elim)
        (fun _ _ => id) (fun r hm => hr r (.inr hm)) _ _ hapart (fun a b hab found => ?_) []
      rw [solution, solution, hab.bindings_eq fun _ => id]
    · exact hab'.any_removes_eq (clear_of_mem_trace (fun v hm => hv v (.inr hm))
        (clear_apart hab.graphs))
  | filter e => exact solvedAlike_filter hchoose (hE e hv hr)
  | bind v e =>
    simp only [vars, List.forall_mem_append, List.forall_mem_singleton] at hv
    exact solvedAlike_bind hchoose (hE e hv.1 hr) fun _ _ hab => hab.alike_bind hv.2
  | graph name inner =>
    intro a b hab σ next next' hn w
    simp only [vars, List.forall_mem_append] at hv
    obtain ⟨hname, hinner⟩ := hv
    have hin := solvedAlike_sameBut inner hX hinner hr
    have hinside := hab.under hname
    cases name with
    | const t => exact hin _ _ hinside hn w
    | var v =>
      have hv := NodePattern.forall_mem_vars.mp hname
      rw [solve, solve]
      simp only [hab.get_eq hv]
      split_ifs
      · refine Run.visit_congr (fun i g _ w => ?_) 0 w
        exact (hinside.choose i i).binding_run (fun a b hm w => hin a b hm hn w) hv g.term w
      · exact hin _ _ hinside hn w
termination_by sizeOf p

end Pattern

end GraphQuery
