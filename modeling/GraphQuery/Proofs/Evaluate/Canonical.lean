import GraphQuery.Proofs.Evaluate.Answer
import GraphQuery.Proofs.Evaluate.Termination

/-! Solutions bind canonical terms. All that patterns are bound to comes from the dictionary of the
store, or is made canonical on the way, and so are columns and keys. So solutions and keys are the
same as far as their terms are the same. -/

namespace GraphQuery

/-! ### What a store supplies -/

namespace Source

variable {s : Source} {q : Query} {env : Environment} {t : Term}

theorem stored_of_mem_matchEdge (hs : s.store.Valid) {e : EdgePattern} {graph : Option NodePattern}
    {from_ : List Term} {o : Occurrence} (ho : o ∈ s.matchEdge q env e graph from_) :
    o.Carries (· ∈ s.store.dictionary.terms) := by
  obtain ⟨isType, ho⟩ := mem_inForce_scan_of_mem_matchEdge ho
  obtain ⟨p, -, bound, second, position, ho⟩ := exists_of_mem_scan (mem_of_mem_inForce ho)
  obtain ⟨-, k, i, e, -, -, hd⟩ := hs.mem_edgesFor.mp (List.mem_map_of_mem ho)
  obtain ⟨hpredicate, hsubject, hobject, hgraph⟩ := hd.mem_terms
  refine ⟨hpredicate, fun position n hn => ?_⟩
  cases position with
  | subject => exact Option.some.inj hn ▸ hsubject
  | object => exact Option.some.inj hn ▸ hobject
  | graph => exact hgraph n.term (congrArg (Option.map Node.term) hn)
  | list => cases hn

theorem stored_of_mem_startNodes (hs : s.store.Valid) (ht : t ∈ s.startNodes q env) :
    t ∈ s.store.dictionary.terms := by
  have hnodes : ∀ graph : Option Node, t ∈ (s.store.nodes graph).map (·.term) →
      t ∈ s.store.dictionary.terms := fun graph ht => by
    obtain ⟨r, ⟨k, e, -, hd⟩, -, rfl | rfl⟩ := hs.mem_nodes.mp ht
    · exact hd.mem_terms.2.1
    · exact hd.mem_terms.2.2.1
  unfold startNodes at ht
  dsimp only at ht
  split at ht
  · exact hnodes _ ht
  · split at ht <;> exact hnodes _ ht
  · split at ht
    · exact hnodes _ ht
    · cases ht

theorem stored_of_mem_namedGraphs {names : List Term} {g : Node} (hg : g ∈ s.namedGraphs names) :
    g.term ∈ s.store.dictionary.terms := by
  unfold namedGraphs at hg
  split_ifs at hg
  · obtain ⟨i, -, hi⟩ := Store.mem_graphNodes.mp (List.mem_map_of_mem (f := (·.term)) hg)
    exact List.mem_of_getElem? hi
  · obtain ⟨t, -, ht⟩ := List.mem_filterMap.mp hg
    obtain ⟨i, -, hi⟩ := Option.bind_eq_some_iff.mp ht
    obtain ⟨u, hu, rfl⟩ := Dictionary.node_eq_some.mp hi
    exact List.mem_of_getElem? hu

end Source

/-- Patterns are bound to canonical terms. -/
theorem Context.supplies_canonical {c : Context} (hs : c.source.store.Valid) :
    c.Supplies Term.IsCanonical where
  canonical := Term.isCanonical_canonical
  edge _ _ _ ho :=
    have ho := Source.stored_of_mem_matchEdge hs ho
    ⟨hs.dictionary.canonical _ ho.1,
      fun position n hn => hs.dictionary.canonical _ (ho.2 position n hn)⟩
  start _ _ ht := hs.dictionary.canonical _ (Source.stored_of_mem_startNodes hs ht)
  reach _ _ _ _ ht _ hu := Source.isCanonical_of_mem_reach hs ht hu
  graph _ hg := hs.dictionary.canonical _ (Source.stored_of_mem_namedGraphs hg)

/-! ### Solutions -/

/-- Whether all terms are canonical. -/
def Canonical (ts : List (Option Term)) : Prop := ∀ t, some t ∈ ts → t.IsCanonical

namespace Canonical

variable {ts us : List (Option Term)}

theorem set (h : Canonical ts) {t : Option Term} (ht : ∀ u, t = some u → u.IsCanonical) (i : Nat) :
    Canonical (ts.set i t) := fun u hu =>
  (List.mem_or_eq_of_mem_set hu).elim (h u) fun he => ht u he.symm

theorem replicate_none (n : Nat) : Canonical (List.replicate n none) := fun _ ht => by
  cases List.eq_of_mem_replicate ht

theorem append (h : Canonical ts) (h' : Canonical us) : Canonical (ts ++ us) := fun t ht =>
  (List.mem_append.mp ht).elim (h t) (h' t)

end Canonical

theorem Environment.stable_canonical (q : Query) :
    Stable q (fun _ => True) Term.IsCanonical fun e => Canonical e.bindings where
  choose _ _ h := h
  bind e v t e' _ ht h hb := by
    obtain ⟨-, rfl | rfl⟩ := eq_assign_of_bind hb
    · exact h
    · unfold assign
      split
      · exact h
      · exact h.set (fun u hu => Option.some.inj hu ▸ ht) _
  graph _ _ _ _ _ _ := trivial

namespace Trace

variable {α σ : Type}

/-- Any error is allowed. -/
theorem failsOnly_any (t : Trace α) : t.FailsOnly fun _ => True := by
  induction t with
  | stop => exact .stop
  | fail e => exact .fail trivial
  | event e t ih => exact .event e ih
  | item a t ih => exact .item a ih

end Trace

namespace Context

variable {c : Context} {p : Pattern} {env : Environment} {rows : List Solution}
  {s s' : Solution} {limit : Option Nat}

/-- Solutions are those of the environments that a pattern hands on. -/
theorem exists_of_mem_solutions (h : (c.solutions p env limit).outcome = .ok rows) (hs : s ∈ rows) :
    ∃ e ∈ (p.trace c (c.hooks c.depth) env).items, s = e.solution := by
  have hends : (c.solutions p env limit).Ends (fun _ => True) fun rows => ∀ s ∈ rows,
      ∃ e ∈ (p.trace c (c.hooks c.depth) env).items, s = e.solution := by
    rw [solutions_eq, Pattern.solve_eq_run]
    refine ((Trace.failsOnly_any _).run (I := fun rows => ∀ s ∈ rows,
      ∃ e ∈ (p.trace c (c.hooks c.depth) env).items, s = e.solution) (fun e he rows hrows =>
        ends_collect limit ⟨e, he, rfl⟩ hrows) (List.forall_mem_nil _)).bind fun found hfound => ?_
    exact fun s hs => hfound s (List.mem_reverse.mp hs)
  rw [Run.Ends, h] at hends
  exact hends s hs

theorem exists_of_mem_rawSolutions {raw : Solutions} (h : c.rawSolutions.outcome = .ok raw)
    (hs : s ∈ raw.rows) : ∃ e ∈ (c.query.body.trace c (c.hooks c.depth)
      { Environment.initial c.query with trail := [0] }).items, s = e.solution := by
  obtain ⟨rows, hrows, h⟩ := Run.outcome_bind_eq_ok h
  rw [← Except.ok.inj h] at hs
  exact exists_of_mem_solutions hrows hs

/-- The solutions of a body bind canonical terms. -/
theorem canonical_of_rawSolutions (hv : c.source.store.Valid) {raw : Solutions}
    (h : c.rawSolutions.outcome = .ok raw) (hs : s ∈ raw.rows) : Canonical s.slots := by
  obtain ⟨e, he, rfl⟩ := exists_of_mem_rawSolutions h hs
  exact Pattern.kept_of_names (Environment.stable_canonical c.query) (supplies_canonical hv)
    c.query.body _ (fun _ _ => trivial) (fun _ _ _ h => h) (Canonical.replicate_none _) e he

/-! ### Columns and keys -/

theorem canonical_set (hs : Canonical s.slots) (slot : Nat) (t : Term) :
    Canonical (s.set slot (some t.canonical)).slots :=
  (hs.append (.replicate_none _)).set
    (fun _ hu => Option.some.inj hu ▸ t.isCanonical_canonical) slot

theorem canonical_of_selectFrom {group : Option (List Solution)} {row i : Nat}
    {items : List SelectItem} (hs : Canonical s.slots)
    (h : (c.selectFrom group row i items s).outcome = .ok (some s')) : Canonical s'.slots := by
  induction items generalizing s i with
  | nil =>
    rw [← Option.some.inj (Except.ok.inj h)]
    exact hs
  | cons item items ih =>
    rw [selectFrom] at h
    by_cases hskip : (group.isNone && item.isAggregate) = true
    · rw [if_pos hskip] at h
      exact ih hs h
    · rw [if_neg hskip] at h
      cases hslot : c.query.slot? item.target with
      | none =>
        rw [hslot] at h
        cases h
      | some slot =>
        rw [hslot] at h
        obtain ⟨t, -, h⟩ := Run.outcome_bind_eq_ok h
        cases t with
        | none => exact ih hs h
        | some t =>
          dsimp only [Option.map_some] at h
          cases hcurrent : s.get? slot with
          | none =>
            rw [hcurrent] at h
            exact ih (canonical_set hs slot t) h
          | some current =>
            rw [hcurrent] at h
            dsimp only at h
            split_ifs at h
            · exact ih hs h
            · cases h

theorem canonical_of_key {stage : Stage} {group : Option (List Solution)} {row i : Nat} {e : Expr}
    {t : Term} (hs : Canonical s.slots)
    (h : (c.key stage s group row i e).outcome = .ok (some t)) : t.IsCanonical := by
  unfold key at h
  split at h
  next u hu =>
    obtain ⟨slot, -, hslot⟩ := Option.bind_eq_some_iff.mp hu
    rw [← Option.some.inj (Except.ok.inj h)]
    exact hs u (List.mem_of_getElem? (Option.join_eq_some_iff.mp hslot))
  next =>
    split_ifs at h
    · cases h
    · obtain ⟨u, -, h⟩ := Run.outcome_bind_eq_ok h
      obtain ⟨u, rfl, rfl⟩ := Option.map_eq_some_iff.mp (Except.ok.inj h)
      exact u.isCanonical_canonical

theorem canonical_of_keys {group : Option (List Solution)} {row : Nat} (hs : Canonical s.slots)
    (h : (c.keys s group row).outcome = .ok s') : Canonical s'.groupKeys := by
  obtain ⟨orderKeys, -, h⟩ := Run.outcome_bind_eq_ok h
  obtain ⟨groupKeys, hkeys, h⟩ := Run.outcome_bind_eq_ok h
  rw [← Except.ok.inj h]
  intro t ht
  obtain ⟨i, e, -, hkey⟩ := Run.exists_of_mem_mapIdx hkeys ht
  exact canonical_of_key hs hkey

/-- Completed solutions have canonical keys. -/
theorem canonical_of_complete {raw done : Solutions} (hraw : ∀ s ∈ raw.rows, Canonical s.slots)
    (h : (c.complete raw).outcome = .ok done) : ∀ s ∈ done.rows, Canonical s.groupKeys := by
  obtain ⟨selected, hselect, h⟩ := Run.outcome_bind_eq_ok h
  obtain ⟨keyed, hkeyed, h⟩ := Run.outcome_bind_eq_ok h
  have hselected : ∀ s ∈ selected.rows, Canonical s.slots := by
    unfold selectRows at hselect
    split_ifs at hselect
    · rwa [← Except.ok.inj hselect]
    · obtain ⟨kept, hkept, hselect⟩ := Run.outcome_bind_eq_ok hselect
      rw [← Except.ok.inj hselect]
      intro s hs
      obtain ⟨o, ho, hsome⟩ := List.mem_filterMap.mp hs
      obtain rfl : o = some s := hsome
      obtain ⟨i, r, hr, hrun⟩ := Run.exists_of_mem_mapIdx hkept ho
      exact canonical_of_selectFrom (hraw r hr) hrun
  rw [← Except.ok.inj h]
  intro s hs
  obtain ⟨i, r, hr, hrun⟩ := Run.exists_of_mem_mapIdx hkeyed hs
  refine canonical_of_keys (hselected r ?_) hrun
  split_ifs at hr
  · exact (Solutions.mem_of_mem_submitAll hr).resolve_left List.not_mem_nil
  · exact hr

end Context

end GraphQuery
