import GraphQuery.Evaluate.Environment
import GraphQuery.Proofs.Solution.Mapping
import GraphQuery.Proofs.Term.Canonical

/-! Environments as mappings. The variables of a query own one slot each, so an environment without
local bindings is a mapping from variables to terms, and binding a variable extends it. -/

namespace GraphQuery

/-! ### Slots -/

theorem nodup_eraseDups {α : Type} [BEq α] [LawfulBEq α] (as : List α) : as.eraseDups.Nodup := by
  match as with
  | [] => simp
  | a :: as =>
    rw [List.eraseDups_cons]
    refine List.nodup_cons.mpr ⟨fun ha => ?_, nodup_eraseDups _⟩
    simpa using List.mem_eraseDups.mp ha
termination_by as.length
decreasing_by exact Nat.lt_succ_of_le (List.length_filter_le _ _)

namespace Query

variable {q : Query} {v w : Variable} {i : Nat}

theorem nodup_vars (q : Query) : q.vars.Nodup :=
  q.vars_eq ▸ nodup_eraseDups _

theorem slot_eq_some : q.slot? v = some i ↔ q.vars[i]? = some v := by
  rw [slot?, List.idxOf?_eq_some_iff]
  constructor
  · rintro ⟨hi, hv, -⟩
    exact List.getElem?_eq_some_iff.mpr ⟨hi, by simpa using hv⟩
  · intro h
    obtain ⟨hi, rfl⟩ := List.getElem?_eq_some_iff.mp h
    refine ⟨hi, by simp, fun j hj he => ?_⟩
    rw [q.nodup_vars.getElem_inj_iff] at he
    omega

theorem slot_eq_none : q.slot? v = none ↔ v ∉ q.vars :=
  List.idxOf?_eq_none_iff

theorem slot_lt (h : q.slot? v = some i) : i < q.vars.length :=
  (List.getElem?_eq_some_iff.mp (slot_eq_some.mp h)).1

theorem exists_slot (hv : v ∈ q.vars) : ∃ i, q.slot? v = some i :=
  Option.ne_none_iff_exists'.mp fun h => slot_eq_none.mp h hv

theorem slot_injective (hv : q.slot? v = some i) (hw : q.slot? w = some i) : v = w :=
  Option.some.inj ((slot_eq_some.mp hv).symm.trans (slot_eq_some.mp hw))

end Query

namespace Mapping

/-- What the slots of a query bind. -/
def ofSlots (q : Query) (slots : List (Option Term)) : Mapping :=
  ((q.vars.zip slots).filterMap fun p => p.2.map (Sigma.mk p.1)).toFinmap

theorem dlookup_zip (vs : List Variable) (hvs : vs.Nodup) (slots : List (Option Term))
    (v : Variable) :
    ((vs.zip slots).filterMap fun p => p.2.map (Sigma.mk (β := fun _ => Term) p.1)).dlookup v =
      (vs.idxOf? v).bind fun i => (slots[i]?).join := by
  induction vs generalizing slots with
  | nil => simp
  | cons w vs ih =>
    obtain ⟨hw, hvs⟩ := List.nodup_cons.mp hvs
    cases slots with
    | nil => simp [List.idxOf?_cons]
    | cons t slots =>
      have ih := ih hvs slots
      rw [List.zip_cons_cons, List.idxOf?_cons]
      by_cases h : w = v
      · subst h
        cases t with
        | none =>
          rw [List.idxOf?_eq_none_iff.mpr hw] at ih
          simpa using ih
        | some t => simp
      · cases t with
        | none => simpa [h, Option.bind_map, Function.comp_def] using ih
        | some t =>
          simpa [h, List.dlookup_cons_ne, Ne.symm h, Option.bind_map, Function.comp_def] using ih

@[simp] theorem lookup_ofSlots {q : Query} {slots : List (Option Term)} {v : Variable} :
    (ofSlots q slots).lookup v = (q.slot? v).bind fun i => (slots[i]?).join := by
  rw [ofSlots, Finmap.dlookup_list_toFinmap]
  exact dlookup_zip q.vars q.nodup_vars slots v

end Mapping

namespace Solution

variable {a b : Solution}

theorem compatible_iff : a.compatible b = true ↔
    ∀ t u, (some t, some u) ∈ a.slots.zip b.slots → t = u := by
  rw [compatible, List.all_eq_true]
  constructor
  · intro h t u hm
    simpa using h (some t, some u) hm
  · rintro h ⟨_ | t, _ | u⟩ hm
    · rfl
    · rfl
    · rfl
    · simpa using h t u hm

theorem sharesSlot_iff : a.sharesSlot b = true ↔
    ∃ t u, (some t, some u) ∈ a.slots.zip b.slots := by
  rw [sharesSlot, List.any_eq_true]
  constructor
  · rintro ⟨⟨_ | t, _ | u⟩, hm, hs⟩
    · cases hs
    · cases hs
    · cases hs
    · exact ⟨t, u, hm⟩
  · rintro ⟨t, u, hm⟩
    exact ⟨(some t, some u), hm, rfl⟩

end Solution

namespace Environment

variable {env : Environment} {q : Query} {v w : Variable} {t : Term}

/-- One slot for each variable of a query, with nothing but canonical terms, and nothing local. -/
structure Fits (q : Query) (env : Environment) : Prop where
  length : env.bindings.length = q.vars.length
  locals : env.locals = []
  canonical : ∀ t, some t ∈ env.bindings → t.IsCanonical

/-- What the query's variables are bound to. -/
def mapping (q : Query) (env : Environment) : Mapping := .ofSlots q env.bindings

theorem lookup_mapping : (env.mapping q).lookup v = env.binding? q v := Mapping.lookup_ofSlots

theorem get_eq_binding (h : env.locals = []) : env.get? q v = env.binding? q v := by
  simp [get?, h, Locals.get?]

theorem Fits.get_eq_lookup (h : env.Fits q) : env.get? q v = (env.mapping q).lookup v := by
  rw [lookup_mapping, get_eq_binding h.locals]

/-- The slots in the order of the query's variables. -/
theorem bindings_eq (hl : env.bindings.length = q.vars.length) :
    env.bindings = q.vars.map (env.binding? q) := by
  refine List.ext_getElem (by rw [List.length_map, hl]) fun i hi hi' => ?_
  rw [List.length_map] at hi'
  have hs := Query.slot_eq_some.mpr (List.getElem?_eq_getElem hi')
  rw [List.getElem_map, binding?, hs, Option.bind_some, List.getElem?_eq_getElem hi,
    Option.join_some]

theorem Fits.bindings_eq (hf : env.Fits q) :
    env.bindings = q.vars.map (env.mapping q).lookup := by
  simp only [← Environment.bindings_eq hf.length, lookup_mapping]

theorem Fits.isCanonical (h : env.Fits q) (hv : (env.mapping q).lookup v = some t) :
    t.IsCanonical := by
  rw [lookup_mapping, binding?] at hv
  obtain ⟨i, -, hi⟩ := Option.bind_eq_some_iff.mp hv
  exact h.canonical t (List.mem_of_getElem? (Option.join_eq_some_iff.mp hi))

theorem fits_initial (q : Query) : (initial q).Fits q where
  length := List.length_replicate
  locals := rfl
  canonical t h := by simp [initial] at h

theorem binding_initial (q : Query) (v : Variable) : (initial q).binding? q v = none := by
  rw [binding?]
  cases q.slot? v with
  | none => rfl
  | some i => by_cases h : i < q.vars.length <;> simp [initial, h]

theorem mapping_initial (q : Query) : (initial q).mapping q = ∅ :=
  Finmap.ext_lookup fun v => by rw [lookup_mapping, Finmap.lookup_empty, binding_initial]

/-! ### Solutions -/

section

variable {env' : Environment} (hl : env.bindings.length = q.vars.length)

include hl

/-- Slots at the same place are those of one variable. -/
theorem mem_zip_bindings {t u : Term} : (some t, some u) ∈ env.bindings.zip env'.bindings ↔
    ∃ v, env.binding? q v = some t ∧ env'.binding? q v = some u := by
  simp only [List.mem_iff_getElem?, List.getElem?_zip_eq_some, binding?, Option.bind_eq_some_iff,
    Option.join_eq_some_iff]
  constructor
  · rintro ⟨i, ht, hu⟩
    have hi : i < q.vars.length := hl ▸ (List.getElem?_eq_some_iff.mp ht).1
    have hs := Query.slot_eq_some.mpr (List.getElem?_eq_getElem hi)
    exact ⟨_, ⟨i, hs, ht⟩, i, hs, hu⟩
  · rintro ⟨v, ⟨i, hi, ht⟩, j, hj, hu⟩
    obtain rfl := Option.some.inj (hi.symm.trans hj)
    exact ⟨i, ht, hu⟩

theorem compatible_solution_iff : env.solution.compatible env'.solution = true ↔
    ∀ v t u, env.binding? q v = some t → env'.binding? q v = some u → t = u := by
  simp only [Solution.compatible_iff, solution, mem_zip_bindings hl]
  exact ⟨fun h v t u ht hu => h t u ⟨v, ht, hu⟩, fun h t u ⟨v, ht, hu⟩ => h v t u ht hu⟩

theorem sharesSlot_solution_iff : env.solution.sharesSlot env'.solution = true ↔
    ∃ v t u, env.binding? q v = some t ∧ env'.binding? q v = some u := by
  simp only [Solution.sharesSlot_iff, solution, mem_zip_bindings hl]
  exact ⟨fun ⟨t, u, v, h⟩ => ⟨v, t, u, h⟩, fun ⟨v, t, u, h⟩ => ⟨t, u, v, h⟩⟩

end

/-! ### Binding -/

/-- Binds a variable that is free. -/
def assign (env : Environment) (q : Query) (v : Variable) (t : Term) : Environment :=
  match q.slot? v with
  | none => env
  | some slot => { env with bindings := env.bindings.set slot (some t) }

@[simp] theorem length_assign : (env.assign q v t).bindings.length = env.bindings.length := by
  unfold assign
  cases q.slot? v <;> simp

@[simp] theorem graph_assign : (env.assign q v t).graph = env.graph := by
  unfold assign
  cases q.slot? v <;> rfl

@[simp] theorem group_assign : (env.assign q v t).group = env.group := by
  unfold assign
  cases q.slot? v <;> rfl

@[simp] theorem locals_assign : (env.assign q v t).locals = env.locals := by
  unfold assign
  cases q.slot? v <;> rfl

@[simp] theorem trail_assign : (env.assign q v t).trail = env.trail := by
  unfold assign
  cases q.slot? v <;> rfl

theorem bind_of_free (hv : v ∈ q.vars) (h : env.binding? q v = none) (t : Term) :
    env.bind? q v t = .ok (some (env.assign q v t)) := by
  obtain ⟨i, hi⟩ := Query.exists_slot hv
  simp only [binding?, hi, Option.bind_some] at h
  simp [bind?, bind, assign, hi, h, Bind.bind, Except.bind, pure, Except.pure]

theorem bind_of_bound {u : Term} (h : env.binding? q v = some u) (t : Term) :
    env.bind? q v t = .ok (if u = t then some env else none) := by
  rw [binding?] at h
  obtain ⟨i, hi, hu⟩ := Option.bind_eq_some_iff.mp h
  by_cases ht : u = t <;>
    simp [bind?, bind, hi, hu, ht, Bind.bind, Except.bind, pure, Except.pure]

/-- A binding leaves an environment as it is or assigns what was free. -/
theorem eq_assign_of_bind {env' : Environment} (h : env.bind? q v t = .ok (some env')) :
    v ∈ q.vars ∧ (env' = env ∨ env' = env.assign q v t) := by
  have hv : v ∈ q.vars := by
    by_contra hn
    simp [bind?, bind, Query.slot_eq_none.mpr hn, Bind.bind, Except.bind] at h
  refine ⟨hv, ?_⟩
  cases hb : env.binding? q v with
  | none =>
    rw [bind_of_free hv hb] at h
    exact .inr (Option.some.inj (Except.ok.inj h)).symm
  | some u =>
    rw [bind_of_bound hb] at h
    split_ifs at h
    · exact .inl (Option.some.inj (Except.ok.inj h)).symm
    · cases h

theorem binding_assign (hl : env.bindings.length = q.vars.length) (hv : v ∈ q.vars) :
    (env.assign q v t).binding? q w = if w = v then some t else env.binding? q w := by
  obtain ⟨i, hi⟩ := Query.exists_slot hv
  have hil := Query.slot_lt hi
  simp only [assign, hi, binding?]
  split
  next h => simp [h, hi, hl, hil]
  next h =>
    cases hj : q.slot? w with
    | none => rfl
    | some j =>
      have hij : i ≠ j := fun hij => h (Query.slot_injective hj (hij ▸ hi))
      simp [hij]

theorem get_assign (hl : env.bindings.length = q.vars.length) (hv : v ∈ q.vars)
    (hfree : env.get? q v = none) :
    (env.assign q v t).get? q w = if w = v then some t else env.get? q w := by
  rw [get?, locals_assign, binding_assign hl hv]
  split_ifs with h
  · rw [h, (Option.or_eq_none_iff.mp hfree).1, Option.none_or]
  · rfl

section

variable {env' : Environment} {u : Term}

theorem locals_of_bind (h : env.bind? q w u = .ok (some env')) : env'.locals = env.locals := by
  obtain ⟨-, rfl | rfl⟩ := eq_assign_of_bind h
  · rfl
  · exact locals_assign

/-- A variable that is bound stays bound. -/
theorem binding_of_bind (h : env.bind? q w u = .ok (some env')) (hv : env.binding? q v = some t) :
    env'.binding? q v = some t := by
  obtain ⟨hw, -⟩ := eq_assign_of_bind h
  cases hb : env.binding? q w with
  | some current =>
    rw [bind_of_bound hb] at h
    split_ifs at h
    · rwa [← Option.some.inj (Except.ok.inj h)]
    · cases h
  | none =>
    rw [bind_of_free hw hb] at h
    rw [← Option.some.inj (Except.ok.inj h)]
    have hvw : v ≠ w := fun hvw => by rw [hvw, hb] at hv; cases hv
    obtain ⟨i, hi⟩ := Query.exists_slot hw
    rw [binding?] at hv ⊢
    obtain ⟨j, hj, hjt⟩ := Option.bind_eq_some_iff.mp hv
    have hij : i ≠ j := fun hij => hvw (Query.slot_injective hj (hij ▸ hi))
    rw [hj, Option.bind_some, assign, hi]
    simpa [hij] using hjt

/-- A variable keeps its value. -/
theorem get_of_bind (h : env.bind? q w u = .ok (some env')) (hv : env.get? q v = some t) :
    env'.get? q v = some t := by
  rw [get?] at hv ⊢
  rw [locals_of_bind h]
  cases hl : env.locals.get? v with
  | some t' => rwa [hl] at hv
  | none =>
    rw [hl, Option.none_or] at hv
    exact binding_of_bind h hv

/-- What is bound has that value afterwards. -/
theorem binding_bound (hl : env.bindings.length = q.vars.length)
    (h : env.bind? q v t = .ok (some env')) : env'.binding? q v = some t := by
  obtain ⟨hv, -⟩ := eq_assign_of_bind h
  cases hb : env.binding? q v with
  | none =>
    rw [bind_of_free hv hb] at h
    rw [← Option.some.inj (Except.ok.inj h), binding_assign hl hv, if_pos rfl]
  | some u =>
    rw [bind_of_bound hb] at h
    split_ifs at h with hu
    · rw [← Option.some.inj (Except.ok.inj h), hb, hu]
    · cases h

end

theorem mapping_assign (h : env.Fits q) (hv : v ∈ q.vars) :
    (env.assign q v t).mapping q = (env.mapping q).insert v t := by
  refine Finmap.ext_lookup fun w => ?_
  rw [lookup_mapping, binding_assign h.length hv, Mapping.lookup_insert, lookup_mapping]

theorem Fits.assign (h : env.Fits q) (ht : t.IsCanonical) : (env.assign q v t).Fits q := by
  unfold Environment.assign
  cases q.slot? v with
  | none => exact h
  | some i =>
    exact {
      length := by simpa using h.length
      locals := h.locals
      canonical := fun u hu => by
        rcases List.mem_or_eq_of_mem_set hu with hu | hu
        · exact h.canonical u hu
        · rwa [Option.some.inj hu] }

/-- The same scope with more bindings, on another way. -/
structure Onward (q : Query) (env env' : Environment) : Prop where
  fits : env'.Fits q
  graph : env'.graph = env.graph
  group : env'.group = env.group

theorem Fits.onward (h : env.Fits q) : Onward q env env := ⟨h, rfl, rfl⟩

theorem Onward.trans {env' env'' : Environment} (h : Onward q env env')
    (h' : Onward q env' env'') : Onward q env env'' :=
  ⟨h'.fits, h'.graph.trans h.graph, h'.group.trans h.group⟩

theorem Onward.choose {env' : Environment} (h : Onward q env env') (i : Nat) :
    Onward q env (env'.choose i) :=
  ⟨⟨h.fits.length, h.fits.locals, h.fits.canonical⟩, h.graph, h.group⟩

theorem Onward.of_choose {env' : Environment} {i : Nat} (h : Onward q (env.choose i) env') :
    Onward q env env' :=
  ⟨h.fits, h.graph, h.group⟩

@[simp] theorem mapping_choose (i : Nat) : (env.choose i).mapping q = env.mapping q := rfl

theorem Fits.onward_assign (h : env.Fits q) (ht : t.IsCanonical) :
    Onward q env (env.assign q v t) :=
  ⟨h.assign ht, graph_assign, group_assign⟩

/-! ### Fitting places -/

/-- Fits a place of a pattern to a term: what is bound must be that term, what is free is bound. -/
def unify (q : Query) (env : Environment) (n : NodePattern) (u : Term) : Option Environment :=
  match n with
  | .const t => if t.canonical = u then some env else none
  | .var v =>
    match env.binding? q v with
    | some t => if t = u then some env else none
    | none => some (env.assign q v u)

/-- Fits places of a pattern to terms, one after the other. -/
def unifyAll (q : Query) : List (NodePattern × Term) → Environment → Option Environment
  | [], env => some env
  | (n, u) :: rest, env => (env.unify q n u).bind (unifyAll q rest)

/-- Places with variables of the query and canonical terms. -/
def Declared (q : Query) (ps : List (NodePattern × Term)) : Prop :=
  ∀ p ∈ ps, (∀ v ∈ p.1.vars, v ∈ q.vars) ∧ p.2.IsCanonical

theorem bind_eq_unify (hv : v ∈ q.vars) (t : Term) :
    env.bind? q v t = .ok (env.unify q (.var v) t) := by
  simp only [unify]
  cases h : env.binding? q v with
  | none => exact bind_of_free hv h t
  | some u => exact bind_of_bound h t

/-- What a place is fitted to is what it stands for afterwards, and nothing else is bound. -/
theorem Fits.unify_sound (h : env.Fits q) {n : NodePattern} {u : Term} {env' : Environment}
    (hn : ∀ v ∈ n.vars, v ∈ q.vars) (hu : u.IsCanonical) (he : env.unify q n u = some env') :
    env.Onward q env' ∧ (env.mapping q).Extends n.vars (env'.mapping q) ∧
      (env'.mapping q).term? n = some u := by
  cases n with
  | const t =>
    simp only [unify] at he
    split_ifs at he with ht
    obtain rfl := Option.some.inj he
    exact ⟨h.onward, Mapping.extends_nil _, congrArg some ht⟩
  | var v =>
    simp only [unify] at he
    split at he
    next t ht =>
      split_ifs at he with htu
      obtain rfl := Option.some.inj he
      have hl : (env.mapping q).lookup v = some u := by rw [lookup_mapping, ht, htu]
      refine ⟨h.onward, ⟨Mapping.isPart_refl _, fun w hw => ?_, fun _ hw => .inl hw⟩, hl⟩
      rw [List.mem_singleton.mp hw]
      exact Finmap.mem_of_lookup_eq_some hl
    next hf =>
      obtain rfl := Option.some.inj he
      have hv : v ∈ q.vars := hn v (by simp [NodePattern.vars, NodePattern.asVariable])
      have hm := mapping_assign (t := u) h hv
      have hl : ((env.assign q v u).mapping q).lookup v = some u := by
        rw [hm, Finmap.lookup_insert]
      refine ⟨h.onward_assign hu, ⟨fun w t hw => ?_, fun w hw => ?_, fun w hw => ?_⟩, hl⟩
      · have hne : w ≠ v := fun hwv => by
          rw [lookup_mapping, hwv, hf] at hw
          cases hw
        rw [hm, Finmap.lookup_insert_of_ne _ hne, hw]
      · rw [List.mem_singleton.mp hw]
        exact Finmap.mem_of_lookup_eq_some hl
      · rw [hm, Finmap.mem_insert] at hw
        exact hw.symm.imp id (by rintro rfl; simp [NodePattern.vars, NodePattern.asVariable])

/-- Whatever extends an environment and stands for the term is not missed. -/
theorem Fits.unify_complete (h : env.Fits q) {n : NodePattern} {u : Term} {ν : Mapping}
    (hn : ∀ v ∈ n.vars, v ∈ q.vars) (hp : (env.mapping q).IsPart ν) (hu : ν.term? n = some u) :
    ∃ env', env.unify q n u = some env' ∧ (env'.mapping q).IsPart ν := by
  cases n with
  | const t => exact ⟨env, if_pos (Option.some.inj hu), hp⟩
  | var v =>
    cases hb : env.binding? q v with
    | some t =>
      have ht := hp v t (lookup_mapping.trans hb)
      have : t = u := Option.some.inj (ht.symm.trans hu)
      exact ⟨env, by simp [unify, hb, this], hp⟩
    | none =>
      refine ⟨env.assign q v u, by simp [unify, hb], fun w t hw => ?_⟩
      have hv : v ∈ q.vars := hn v (by simp [NodePattern.vars, NodePattern.asVariable])
      rw [mapping_assign h hv, Mapping.lookup_insert] at hw
      split_ifs at hw with hwv
      · rw [hwv, ← Option.some.inj hw]
        exact hu
      · exact hp w t hw

theorem Fits.unifyAll_sound (h : env.Fits q) {ps : List (NodePattern × Term)}
    {env' : Environment} (hps : Declared q ps) (he : unifyAll q ps env = some env') :
    env.Onward q env' ∧ (env.mapping q).Extends (ps.flatMap fun p => p.1.vars) (env'.mapping q) ∧
      ∀ p ∈ ps, (env'.mapping q).term? p.1 = some p.2 := by
  induction ps generalizing env with
  | nil =>
    obtain rfl := Option.some.inj he
    exact ⟨h.onward, Mapping.extends_nil _, by simp⟩
  | cons p ps ih =>
    obtain ⟨env₁, h₁, h₂⟩ := Option.bind_eq_some_iff.mp he
    obtain ⟨hp, hps⟩ := List.forall_mem_cons.mp hps
    obtain ⟨ho₁, hx₁, ht₁⟩ := h.unify_sound hp.1 hp.2 h₁
    obtain ⟨ho₂, hx₂, ht₂⟩ := ih ho₁.fits hps h₂
    exact ⟨ho₁.trans ho₂, hx₁.trans hx₂, List.forall_mem_cons.mpr ⟨hx₂.isPart.term ht₁, ht₂⟩⟩

theorem Fits.unifyAll_complete (h : env.Fits q) {ps : List (NodePattern × Term)} {ν : Mapping}
    (hps : Declared q ps) (hp : (env.mapping q).IsPart ν)
    (hν : ∀ p ∈ ps, ν.term? p.1 = some p.2) :
    ∃ env', unifyAll q ps env = some env' ∧ (env'.mapping q).IsPart ν := by
  induction ps generalizing env with
  | nil => exact ⟨env, rfl, hp⟩
  | cons p ps ih =>
    obtain ⟨hd, hps⟩ := List.forall_mem_cons.mp hps
    obtain ⟨ht, hts⟩ := List.forall_mem_cons.mp hν
    obtain ⟨env₁, h₁, hp₁⟩ := h.unify_complete hd.1 hp ht
    obtain ⟨env₂, h₂, hp₂⟩ := ih (h.unify_sound hd.1 hd.2 h₁).1.fits hps hp₁ hts
    exact ⟨env₂, Option.bind_eq_some_iff.mpr ⟨env₁, h₁, h₂⟩, hp₂⟩

end Environment

end GraphQuery
