import GraphQuery.Proofs.Algebra.Agreement
import GraphQuery.Proofs.Evaluate.PathPattern
import GraphQuery.Proofs.Evaluate.Simple

/-! Terms in the place of variables. A simple pattern in a graph clause is solved alike from a memory
that binds the variable of the clause and, with a term in the place of that variable, from one that
does not, as long as its differences remove the same. -/

namespace GraphQuery

/-! ### Members that correspond -/

section Lists

variable {α β γ δ : Type} {as : List α} {bs : List β} {φ : α → γ} {ψ : β → γ}

/-- Where members of two lists correspond, they may be replaced by lists that correspond. -/
theorem perm_flatMap_of_map {f : α → List δ} {g : β → List δ}
    (h : (as.map φ).Perm (bs.map ψ)) (hfg : ∀ a ∈ as, ∀ b ∈ bs, φ a = ψ b → (f a).Perm (g b)) :
    (as.flatMap f).Perm (bs.flatMap g) := by
  induction as generalizing bs with
  | nil =>
    obtain rfl := List.map_eq_nil_iff.mp h.nil_eq.symm
    exact .refl _
  | cons a as ih =>
    obtain ⟨b, hb, hab⟩ := List.mem_map.mp (h.mem_iff.mp List.mem_cons_self)
    obtain ⟨s, t, rfl⟩ := List.append_of_mem hb
    have hsplit : (s ++ b :: t).Perm (b :: (s ++ t)) := List.perm_middle
    have hrest : (as.map φ).Perm ((s ++ t).map ψ) := by
      refine List.Perm.cons_inv (a := φ a) ?_
      rw [← List.map_cons]
      refine h.trans ((hsplit.map ψ).trans ?_)
      rw [List.map_cons, hab]
    rw [List.flatMap_cons]
    refine .trans ?_ (hsplit.flatMap_right g).symm
    rw [List.flatMap_cons]
    refine (hfg a List.mem_cons_self b hb hab.symm).append (ih hrest fun a' ha' b' hb' => ?_)
    exact hfg a' (List.mem_cons_of_mem a ha') b' (hsplit.mem_iff.mpr (List.mem_cons_of_mem b hb'))

end Lists

/-! ### Terms for variables -/

/-- A place with a term for a variable. -/
def NodePattern.instantiate (v : Variable) (t : Term) : NodePattern → NodePattern
  | var w => if w = v then const t else var w
  | const u => const u

def EdgePattern.instantiate (v : Variable) (t : Term) (e : EdgePattern) : EdgePattern :=
  ⟨e.subject.instantiate v t, e.predicate.instantiate v t, e.object.instantiate v t⟩

def PathPattern.instantiate (v : Variable) (t : Term) (p : PathPattern) : PathPattern :=
  ⟨p.subject.instantiate v t, p.path, p.object.instantiate v t⟩

/-- A pattern with a term for a variable. In expressions the variable has the term as a local
value. -/
def Pattern.instantiate (v : Variable) (t : Term) : Pattern → Pattern
  | edge e => edge (e.instantiate v t)
  | path p => path (p.instantiate v t)
  | sequence items => sequence (instantiateAll v t items)
  | optional l r condition =>
    optional (l.instantiate v t) (r.instantiate v t) (condition.map (.letIn v (.const t)))
  | union l r => union (l.instantiate v t) (r.instantiate v t)
  | minus l r => minus (l.instantiate v t) (r.instantiate v t)
  | filter e => filter (.letIn v (.const t) e)
  | bind w e => bind w (.letIn v (.const t) e)
  | graph name inner => graph (name.instantiate v t) (inner.instantiate v t)
  | values vs rows => values vs rows
where
  instantiateAll (v : Variable) (t : Term) : List Pattern → List Pattern
    | [] => []
    | p :: ps => p.instantiate v t :: instantiateAll v t ps

section Places

variable {q : Query} {v w : Variable} {t : Term} {ν : Mapping} {history : List Insertion}

theorem NodePattern.forall_vars_const {P : Variable → Prop} : ∀ w ∈ (const t).vars, P w :=
  List.forall_mem_nil P

@[simp] theorem NodePattern.instantiate_self : (var v).instantiate v t = const t := if_pos rfl

theorem NodePattern.mem_vars_instantiate {n : NodePattern} :
    w ∈ (n.instantiate v t).vars ↔ w ∈ n.vars ∧ w ≠ v := by
  cases n with
  | const u => simp [instantiate, vars, asVariable]
  | var x =>
    by_cases hx : x = v
    · subst hx
      simp [instantiate, vars, asVariable]
    · simp only [instantiate, if_neg hx, vars, asVariable, Option.toList_some, List.mem_singleton]
      exact ⟨fun hw => ⟨hw, hw ▸ hx⟩, And.left⟩

theorem EdgePattern.mem_vars_instantiate {e : EdgePattern} :
    w ∈ (e.instantiate v t).vars ↔ w ∈ e.vars ∧ w ≠ v := by
  simp only [vars, instantiate, List.mem_append, NodePattern.mem_vars_instantiate, or_and_right]

theorem PathPattern.mem_vars_instantiate {p : PathPattern} :
    w ∈ (p.instantiate v t).vars ↔ w ∈ p.vars ∧ w ≠ v := by
  simp only [vars, instantiate, List.mem_append, NodePattern.mem_vars_instantiate, or_and_right]

theorem Mapping.term_insert (ht : t.IsCanonical) (n : NodePattern) :
    Mapping.term? (ν.insert v t) n = ν.term? (n.instantiate v t) := by
  cases n with
  | const u => rfl
  | var x =>
    rw [term?, lookup_insert, NodePattern.instantiate]
    split_ifs
    · exact congrArg some ht.symm
    · rfl

/-- In a graph, an edge pattern holds under a value of the graph's variable if it holds with the
value in the place of the variable. -/
theorem EdgePattern.holdsAfter_instantiate (ht : t.IsCanonical) (e : EdgePattern) :
    e.HoldsAfter history q (some (.var v)) (ν.insert v t) ↔
      (e.instantiate v t).HoldsAfter history q (some (.const t)) ν := by
  simp only [HoldsAfter, InForce, Mapping.term_insert ht, NodePattern.instantiate_self,
    instantiate]

end Places

namespace Pattern

variable {v w : Variable} {t : Term}

theorem mem_instantiateAll {ps : List Pattern} {p : Pattern} :
    p ∈ instantiate.instantiateAll v t ps ↔ ∃ q ∈ ps, q.instantiate v t = p := by
  induction ps with
  | nil => simp [instantiate.instantiateAll]
  | cons q ps ih => simp [instantiate.instantiateAll, ih, eq_comm]

theorem isSimple_instantiate (p : Pattern) (hp : p.isSimple = true) :
    (p.instantiate v t).isSimple = true := by
  cases p with
  | edge | path => rfl
  | sequence items =>
    refine allSimple_iff.mpr fun p' hm' => ?_
    obtain ⟨p, hm, rfl⟩ := mem_instantiateAll.mp hm'
    have := List.sizeOf_lt_of_mem hm
    exact isSimple_instantiate p (allSimple_iff.mp hp p hm)
  | union l r | minus l r =>
    obtain ⟨hl, hr⟩ := Bool.and_eq_true_iff.mp hp
    exact Bool.and_eq_true_iff.mpr ⟨isSimple_instantiate l hl, isSimple_instantiate r hr⟩
  | filter e => exact hp
  | _ => cases hp
termination_by sizeOf p

/-- No new variable comes in with a term. -/
theorem vars_instantiate_subset (p : Pattern) (hp : p.isSimple = true) :
    (p.instantiate v t).vars ⊆ p.vars := by
  intro w hw
  cases p with
  | edge e => exact (EdgePattern.mem_vars_instantiate.mp hw).1
  | path p => exact (PathPattern.mem_vars_instantiate.mp hw).1
  | sequence items =>
    obtain ⟨p', hm', hw⟩ := mem_listVariables.mp hw
    obtain ⟨p, hm, rfl⟩ := mem_instantiateAll.mp hm'
    have := List.sizeOf_lt_of_mem hm
    exact mem_listVariables.mpr
      ⟨p, hm, vars_instantiate_subset p (allSimple_iff.mp hp p hm) hw⟩
  | union l r | minus l r =>
    obtain ⟨hl, hr⟩ := Bool.and_eq_true_iff.mp hp
    exact (List.mem_append.mp hw).elim
      (fun hw => List.mem_append_left _ (vars_instantiate_subset l hl hw))
      fun hw => List.mem_append_right _ (vars_instantiate_subset r hr hw)
  | filter e => exact hw
  | _ => cases hp
termination_by sizeOf p

end Pattern

/-! ### Memories that correspond -/

/-- Whether a memory binds, in the graph clause of a variable, the variable to a term, and another
memory is the same except that in its graph clause there is the term and the variable is free. -/
structure Environment.Replaces (q : Query) (v : Variable) (t : Term) (a b : Environment) :
    Prop where
  fits : a.Fits q
  fits' : b.Fits q
  graph : a.graph = some (.var v)
  graph' : b.graph = some (.const t)
  mapping : a.mapping q = (b.mapping q).insert v t
  free : v ∉ b.mapping q
  group : a.group = b.group

namespace Environment

variable {q : Query} {v : Variable} {t : Term} {a b a' b' : Environment} {history : List Insertion}

theorem Replaces.onward (hr : Replaces q v t a b) (ha : a.Onward q a') (hb : b.Onward q b')
    (hm : a'.mapping q = (b'.mapping q).insert v t) (hf : v ∉ b'.mapping q) :
    Replaces q v t a' b' where
  fits := ha.fits
  fits' := hb.fits
  graph := ha.graph.trans hr.graph
  graph' := hb.graph.trans hr.graph'
  mapping := hm
  free := hf
  group := ha.group.trans (hr.group.trans hb.group.symm)

theorem Replaces.choose (hr : Replaces q v t a b) (i : Nat) :
    Replaces q v t (a.choose i) (b.choose i) :=
  hr.onward (hr.fits.onward.choose i) (hr.fits'.onward.choose i) hr.mapping hr.free

theorem Fits.under (hf : a.Fits q) (g : Option NodePattern) : (a.under g).Fits q :=
  ⟨hf.length, hf.locals, hf.canonical⟩

/-- Entering the graph of a node by its name or through a variable. -/
theorem Fits.replaces (hf : b.Fits q) (hv : v ∈ q.vars) (hfree : v ∉ b.mapping q)
    (ht : t.IsCanonical) :
    Replaces q v t ((b.under (some (.var v))).assign q v t) (b.under (some (.const t))) := by
  refine ⟨(hf.under _).assign ht, hf.under _, graph_assign, rfl, mapping_assign (hf.under _) hv,
    hfree, ?_⟩
  rw [group_assign]
  rfl

theorem Replaces.edgeAfter_eq (hr : Replaces q v t a b) (ht : t.IsCanonical) :
    EdgeAfter history q a = EdgeAfter history q b := by
  funext s p o
  simp only [EdgeAfter, InForce, hr.graph, hr.graph', hr.mapping, Mapping.term_insert ht,
    NodePattern.instantiate_self]

theorem Replaces.pathHolds_iff (hr : Replaces q v t a b) (ht : t.IsCanonical) (p : PathPattern)
    (ν : Mapping) : p.HoldsAfter history q a (ν.insert v t) ↔
      (p.instantiate v t).HoldsAfter history q b ν := by
  simp only [PathPattern.HoldsAfter, PathPattern.instantiate, hr.edgeAfter_eq ht, hr.mapping,
    Mapping.term_insert ht]

end Environment

/-- Whether mappings bind a variable to a term beside what other mappings bind. -/
structure Binds (v : Variable) (t : Term) (bag bag' : List Mapping) : Prop where
  free : ∀ μ ∈ bag', v ∉ μ
  perm : bag.Perm (bag'.map (·.insert v t))

namespace Binds

variable {v : Variable} {t : Term} {bag bag' bag₁ bag₁' : List Mapping}

theorem append (hb : Binds v t bag bag') (hb₁ : Binds v t bag₁ bag₁') :
    Binds v t (bag ++ bag₁) (bag' ++ bag₁') where
  free μ hμ := (List.mem_append.mp hμ).elim (hb.free μ) (hb₁.free μ)
  perm := by
    rw [List.map_append]
    exact hb.perm.append hb₁.perm

theorem filter {k k' : Mapping → Bool} (hb : Binds v t bag bag')
    (hk : ∀ μ ∈ bag', k (μ.insert v t) = k' μ) : Binds v t (bag.filter k) (bag'.filter k') where
  free μ hμ := hb.free μ (List.mem_of_mem_filter hμ)
  perm := by
    refine (hb.perm.filter k).trans ?_
    rw [List.filter_map]
    exact .of_eq (congrArg _ (List.filter_congr hk))

/-- Memories that correspond may be replaced by memories that correspond. -/
theorem flatMap {q : Query} {l l' : List Environment} {f g : Environment → List Environment}
    (hb : Binds v t (l.map (·.mapping q)) (l'.map (·.mapping q)))
    (hf : ∀ a ∈ l, ∀ b ∈ l', a.mapping q = (b.mapping q).insert v t →
      Binds v t ((f a).map (·.mapping q)) ((g b).map (·.mapping q))) :
    Binds v t ((l.flatMap f).map (·.mapping q)) ((l'.flatMap g).map (·.mapping q)) := by
  have hperm := hb.perm
  rw [List.map_map] at hperm
  simp only [List.map_flatMap]
  refine ⟨fun μ hμ => ?_, ?_⟩
  · obtain ⟨b, hm, hμ⟩ := List.mem_flatMap.mp hμ
    obtain ⟨a, ha, hab⟩ := List.mem_map.mp (hperm.mem_iff.mpr (List.mem_map_of_mem hm))
    exact (hf a ha b hm hab).free μ hμ
  · rw [List.map_flatMap]
    exact perm_flatMap_of_map hperm fun a ha b hm hab => (hf a ha b hm hab).perm

end Binds

theorem Enumerates.binds {q : Query} {v : Variable} {t : Term} {a b : Environment}
    {vs ws : List Variable} {P Q : Mapping → Prop} {l l' : List Environment}
    (hr : Environment.Replaces q v t a b) (ha : Enumerates q a vs P l) (hb : Enumerates q b ws Q l')
    (hw : ∀ w, w ∈ ws ↔ w ∈ vs ∧ w ≠ v) (hP : ∀ ν : Mapping, P (ν.insert v t) ↔ Q ν) :
    Binds v t (l.map (·.mapping q)) (l'.map (·.mapping q)) := by
  have hfree : ∀ μ ∈ l'.map (·.mapping q), v ∉ μ := by
    intro μ hμ hv
    rcases ((hb.mem_iff μ).mp hμ).1.only v hv with hv | hv
    · exact hr.free hv
    · exact ((hw v).mp hv).2 rfl
  refine ⟨hfree, (List.perm_ext_iff_of_nodup ha.nodup ?_).mpr fun ν => ?_⟩
  · refine List.Nodup.map_on (fun μ hμ ν hν he => ?_) hb.nodup
    rw [← Mapping.erase_insert (hfree μ hμ), he, Mapping.erase_insert (hfree ν hν)]
  · rw [ha.mem_iff, hr.mapping, Mapping.extends_insert_iff hr.free hw, List.mem_map]
    constructor
    · rintro ⟨⟨ρ, hx, rfl⟩, hp⟩
      exact ⟨ρ, (hb.mem_iff ρ).mpr ⟨hx, (hP ρ).mp hp⟩, rfl⟩
    · rintro ⟨ρ, hρ, rfl⟩
      obtain ⟨hx, hq⟩ := (hb.mem_iff ρ).mp hρ
      exact ⟨⟨ρ, hx, rfl⟩, (hP ρ).mpr hq⟩

/-! ### Results inside of a graph -/

namespace Context

variable {c : Context} {h : Hooks} {env e : Environment} {n : NodePattern} {entailment : Bool}
  {history : List Insertion}

/-- The whole dataset of a store with a history, without a matching of types. -/
structure WholeDataset (c : Context) (entailment : Bool) (history : List Insertion) : Prop where
  store : c.source.store = .after entailment history
  fromDefault : c.query.fromDefault = []
  fromNamed : c.query.fromNamed = []
  exactTypes : c.source.hierarchical = false

theorem WholeDataset.contains (hc : c.WholeDataset entailment history) :
    c.source.store.Contains (history.flatMap Insertion.quads) (history.flatMap Insertion.names) :=
  hc.store ▸ Store.contains_after entailment history

theorem WholeDataset.enumerates_edge {e : EdgePattern} (hc : c.WholeDataset entailment history)
    (hf : env.Fits c.query) (hg : env.graph = some n) (hn : ∀ w ∈ n.vars, w ∈ c.query.vars)
    (he : ∀ w ∈ e.vars, w ∈ c.query.vars) :
    Enumerates c.query env (e.vars ++ n.vars) (e.HoldsAfter history c.query (some n))
      ((Pattern.edge e).results c h env) := by
  have hm : c.MatchesEdges env.graph := hg ▸ {
    valid := hc.contains.valid
    duplicateTest := fun h => by cases h
    exactTypes := hc.exactTypes
    anyName := fun _ => hc.fromNamed
    someListed := fun h => by cases h }
  have hd : c.Declares env.graph e := by
    rw [hg]
    exact fun w hw => (List.mem_append.mp hw).elim (he w) (hn w)
  obtain ⟨l, hl, hen⟩ := Context.enumerates_edge (h := h) hm hf hd
  rw [← hl.eq_results]
  rw [hg] at hen
  exact hen.congr (fun _ => Iff.rfl) fun ν => edgeHolds_iff hc.store e ν

theorem WholeDataset.enumerates_path {p : PathPattern} (hc : c.WholeDataset entailment history)
    (hf : env.Fits c.query) (hg : env.graph = some n)
    (hk : ∃ t, (env.mapping c.query).term? n = some t) (hp : ∀ w ∈ p.vars, w ∈ c.query.vars) :
    Enumerates c.query env p.vars (p.HoldsAfter history c.query env)
      ((Pattern.path p).results c h env) := by
  have hw : c.Walks entailment history env :=
    ⟨hc.store, hc.fromDefault, hc.fromNamed, hf, fun n' hn' => by
      obtain rfl := Option.some.inj (hg.symm.trans hn')
      exact hk⟩
  obtain ⟨l, hl, hen⟩ := hw.enumerates_path (h := h) hp
  rwa [← hl.eq_results]

end Context

namespace Pattern

variable {c : Context} {h : Hooks} {env : Environment} {n : NodePattern} {entailment : Bool}
  {history : List Insertion}

/-- In a graph, which has to be known if there is a path, a simple pattern only adds bindings. -/
theorem onward_results (hc : c.WholeDataset entailment history)
    (hn : ∀ w ∈ n.vars, w ∈ c.query.vars) (p : Pattern) (env : Environment)
    (hp : p.isSimple = true) (hv : ∀ w ∈ p.vars, w ∈ c.query.vars) (hf : env.Fits c.query)
    (hg : env.graph = some n)
    (hk : p.containsPath = true → ∃ t, (env.mapping c.query).term? n = some t) :
    ∀ e ∈ p.results c h env,
      env.Onward c.query e ∧ (env.mapping c.query).IsPart (e.mapping c.query) := by
  have hstay : ∀ i, (env.choose i).Fits c.query := fun i => (hf.onward.choose i).fits
  cases p with
  | edge e =>
    intro e' he'
    obtain ⟨ho, hx, -⟩ := (hc.enumerates_edge hf hg hn hv).sound e' he'
    exact ⟨ho, hx.isPart⟩
  | path p =>
    intro e' he'
    obtain ⟨ho, hx, -⟩ := (hc.enumerates_path hf hg (hk rfl) hv).sound e' he'
    exact ⟨ho, hx.isPart⟩
  | sequence items =>
    have hall : ∀ ps : List Pattern, (∀ p ∈ ps, p ∈ items) → ∀ a, env.Onward c.query a →
        (env.mapping c.query).IsPart (a.mapping c.query) → ∀ e ∈ results.resultsAll c h ps a,
        env.Onward c.query e ∧ (env.mapping c.query).IsPart (e.mapping c.query) := by
      intro ps
      induction ps with
      | nil =>
        intro _ a ha hpart e he
        rw [List.mem_singleton.mp he]
        exact ⟨ha, hpart⟩
      | cons p ps ih =>
        intro hps a ha hpart e he
        obtain ⟨hm, hps⟩ := List.forall_mem_cons.mp hps
        obtain ⟨b, hb, he⟩ := List.mem_flatMap.mp he
        have := List.sizeOf_lt_of_mem hm
        obtain ⟨hob, hpb⟩ := onward_results hc hn p a (allSimple_iff.mp hp p hm)
          (fun w hw => hv w (mem_listVariables.mpr ⟨p, hm, hw⟩)) ha.fits (ha.graph.trans hg)
          (fun hpath => by
            obtain ⟨t, ht⟩ := hk (listContainsPath_iff.mpr ⟨p, hm, hpath⟩)
            exact ⟨t, hpart.term ht⟩) b hb
        exact ih hps b (ha.trans hob) (hpart.trans hpb) e he
    exact hall items (fun _ hm => hm) env hf.onward (Mapping.isPart_refl _)
  | union l r =>
    obtain ⟨hl, hr⟩ := Bool.and_eq_true_iff.mp hp
    intro e he
    rw [results, List.mem_append] at he
    rcases he with he | he
    · obtain ⟨ho, hpart⟩ := onward_results hc hn l (env.choose 0) hl
        (fun w hw => hv w (List.mem_append_left _ hw)) (hstay 0) hg
        (fun hpath => hk (Bool.or_eq_true_iff.mpr (.inl hpath))) e he
      exact ⟨ho.of_choose, hpart⟩
    · obtain ⟨ho, hpart⟩ := onward_results hc hn r (env.choose 1) hr
        (fun w hw => hv w (List.mem_append_right _ hw)) (hstay 1) hg
        (fun hpath => hk (Bool.or_eq_true_iff.mpr (.inr hpath))) e he
      exact ⟨ho.of_choose, hpart⟩
  | minus l r =>
    obtain ⟨hl, -⟩ := Bool.and_eq_true_iff.mp hp
    intro e he
    rw [results] at he
    obtain ⟨ho, hpart⟩ := onward_results hc hn l (env.choose 1) hl
      (fun w hw => hv w (List.mem_append_left _ hw)) (hstay 1) hg
      (fun hpath => hk (Bool.or_eq_true_iff.mpr (.inl hpath))) e (List.mem_of_mem_filter he)
    exact ⟨ho.of_choose, hpart⟩
  | filter x =>
    intro e he
    rw [results] at he
    rw [List.mem_singleton.mp (List.mem_of_mem_filter he)]
    exact ⟨hf.onward.choose 1, Mapping.isPart_refl _⟩
  | _ => cases hp
termination_by sizeOf p

/-! ### What is bound -/

/-- What the results of a pattern bind. -/
def mappings (c : Context) (h : Hooks) (p : Pattern) (m : Environment) : List Mapping :=
  (p.results c h m).map (·.mapping c.query)

/-- What the results of a pattern bind by themselves, inside of a graph. -/
def alone (c : Context) (h : Hooks) (p : Pattern) (n : NodePattern) : List Mapping :=
  p.mappings c h ((Environment.initial c.query).under (some n))

end Pattern

/-- Whether a difference takes a mapping away because of one of some other mappings. -/
def Mapping.RemovedBy (others : List Mapping) (μ : Mapping) : Prop :=
  ∃ ν ∈ others, μ.Compatible ν ∧ μ.SharesVariable ν

instance (others : List Mapping) (μ : Mapping) : Decidable (μ.RemovedBy others) :=
  inferInstanceAs (Decidable (∃ ν ∈ others, μ.Compatible ν ∧ μ.SharesVariable ν))

namespace Pattern

variable {c : Context} {h : Hooks} {env env' : Environment} {n : NodePattern} {l r p : Pattern}

theorem mappings_congr (hp : p.isSimple = true) (he : env.withoutTrail = env'.withoutTrail) :
    p.mappings c h env = p.mappings c h env' :=
  (trailFree_results p hp).map_mapping he c.query

theorem mappings_union (hl : l.isSimple = true) (hr : r.isSimple = true) (m : Environment) :
    (union l r).mappings c h m = l.mappings c h m ++ r.mappings c h m := by
  rw [mappings, results, List.map_append]
  exact congrArg₂ (· ++ ·) (mappings_congr hl rfl) (mappings_congr hr rfl)

/-- A difference keeps what is not removed by what its right side binds by itself. -/
theorem mappings_minus (hl : l.isSimple = true) (hr : r.isSimple = true) {m : Environment}
    (hg : m.graph = some n) (hf : ∀ e ∈ l.results c h (m.choose 1), e.Fits c.query) :
    (minus l r).mappings c h m =
      (l.mappings c h m).filter fun μ => !decide (μ.RemovedBy (r.alone c h n)) := by
  have halone : r.mappings c h (apart c m) = r.alone c h n := by
    refine mappings_congr hr ?_
    rw [apart, hg]
    rfl
  have htest : ∀ e ∈ l.results c h (m.choose 1),
      (!(r.results c h (apart c m)).any fun other =>
        e.solution.sharesSlot other.solution && e.solution.compatible other.solution) =
      !decide ((e.mapping c.query).RemovedBy (r.alone c h n)) := by
    intro e he
    refine congrArg (!·) (Bool.eq_iff_iff.mpr ?_)
    simp only [sharesSlot_solution (hf e he), compatible_solution (hf e he), List.any_eq_true,
      Bool.and_eq_true, decide_eq_true_eq, ← halone, mappings, Mapping.RemovedBy, List.mem_map,
      exists_exists_and_eq_and]
    exact exists_congr fun other => and_congr_right fun _ => and_comm
  have hleft : l.mappings c h m = l.mappings c h (m.choose 1) := mappings_congr hl rfl
  rw [hleft, mappings, mappings, results, List.filter_map, List.filter_congr htest]
  rfl

/-! ### Differences that remove the same -/

/-- The differences in a pattern, apart from those on the right of others. -/
def differences : Pattern → List (Pattern × Pattern)
  | minus l r => (l, r) :: l.differences
  | union l r => l.differences ++ r.differences
  | sequence items => listDifferences items
  | edge _ | path _ | optional _ _ _ | filter _ | bind _ _ | graph _ _ | values _ _ => []
where
  listDifferences : List Pattern → List (Pattern × Pattern)
    | [] => []
    | p :: ps => p.differences ++ listDifferences ps

theorem mem_listDifferences {ps : List Pattern} {d : Pattern × Pattern} :
    d ∈ differences.listDifferences ps ↔ ∃ p ∈ ps, d ∈ p.differences := by
  induction ps with
  | nil => simp [differences.listDifferences]
  | cons p ps ih => simp [differences.listDifferences, ih]

/-- Whether a difference removes, from what its left side binds in a graph from any memory that
leaves the graph variable free, the same by what its right side binds in that graph and by what it
binds in whatever graph the variable stands for. -/
def RemovesAlike (c : Context) (h : Hooks) (v : Variable) (t : Term) (l r : Pattern) : Prop :=
  ∀ m : Environment, m.Fits c.query → v ∉ m.mapping c.query →
    ∀ μ ∈ (l.instantiate v t).mappings c h (m.under (some (.const t))),
      Mapping.RemovedBy (r.alone c h (.var v)) (μ.insert v t) ↔
        μ.RemovedBy ((r.instantiate v t).alone c h (.const t))

/-- A filter reads a term alike from the variable and in its place. -/
theorem holds_instantiate {v : Variable} {t : Term} {a b : Environment} {e : Expr}
    (hr : Environment.Replaces c.query v t a b) (ht : t.IsCanonical) (he : e.isPure = true) :
    (e.test c.toScope h a).holds = ((Expr.letIn v (.const t) e).test c.toScope h b).holds := by
  have hlet : (Expr.letIn v (.const t) e).eval c.toScope h b =
      e.eval c.toScope h ((b.choose 1).setLocal v t) := by
    have hcanonical : t.canonical = t := ht
    rw [Expr.eval, Expr.eval, pure_bind]
    dsimp only
    rw [hcanonical]
  have hsame : Run.Same (e.eval c.toScope h a) (e.eval c.toScope h ((b.choose 1).setLocal v t)) := by
    refine Expr.eval_same e _ _ he ⟨fun w _ => ?_, fun _ => hr.group⟩
    have hb : (b.choose 1).get? c.query w = (b.mapping c.query).lookup w := hr.fits'.get_eq_lookup
    rw [Environment.get_setLocal, hb, hr.fits.get_eq_lookup, hr.mapping,
      Mapping.lookup_insert]
    simp only [eq_comm]
  rw [Expr.test, Expr.test, hlet, hsame.eq]

section Replaced

variable {v : Variable} {t : Term} {entailment : Bool} {history : List Insertion}
  (hc : c.WholeDataset entailment history) (hv : v ∈ c.query.vars)

include hc hv

/-- From memories that correspond, what is found is in the same places with more bindings. -/
theorem onward_of_replaces {p : Pattern} {a b : Environment} (hp : p.isSimple = true)
    (hvars : ∀ w ∈ p.vars, w ∈ c.query.vars) (hr : Environment.Replaces c.query v t a b) :
    (∀ e ∈ p.results c h a, a.Onward c.query e) ∧
      ∀ e ∈ (p.instantiate v t).results c h b, b.Onward c.query e := by
  refine ⟨fun e he => ?_, fun e he => ?_⟩
  · refine (onward_results hc (NodePattern.forall_mem_vars.mpr hv) p a hp hvars hr.fits hr.graph
      (fun _ => ⟨t, ?_⟩) e he).1
    rw [hr.mapping]
    exact Finmap.lookup_insert _
  · exact (onward_results hc NodePattern.forall_vars_const _ b (isSimple_instantiate p hp)
      (fun w hw => hvars w (vars_instantiate_subset p hp hw)) hr.fits' hr.graph'
      (fun _ => ⟨_, rfl⟩) e he).1

/-- What a difference keeps from memories that correspond. -/
theorem mappings_minus_of_replaces {a b : Environment} (hl : l.isSimple = true)
    (hr : r.isSimple = true) (hvars : ∀ w ∈ l.vars, w ∈ c.query.vars)
    (hab : Environment.Replaces c.query v t a b) :
    (minus l r).mappings c h a =
        (l.mappings c h a).filter (fun μ => !decide (μ.RemovedBy (r.alone c h (.var v)))) ∧
      ((minus l r).instantiate v t).mappings c h b = ((l.instantiate v t).mappings c h b).filter
        fun μ => !decide (μ.RemovedBy ((r.instantiate v t).alone c h (.const t))) := by
  obtain ⟨ha, hb⟩ := onward_of_replaces (h := h) hc hv hl hvars (hab.choose 1)
  exact ⟨mappings_minus hl hr hab.graph fun e he => (ha e he).fits,
    mappings_minus (isSimple_instantiate l hl) (isSimple_instantiate r hr) hab.graph'
      fun e he => (hb e he).fits⟩

/-- In a graph, a simple pattern binds beside the variable of the graph clause what it binds with
the term in the place of the variable, if its differences remove the same. -/
theorem binds_mappings (ht : t.IsCanonical) (p : Pattern) {a b : Environment}
    (hp : p.isSimple = true) (hvars : ∀ w ∈ p.vars, w ∈ c.query.vars)
    (hr : Environment.Replaces c.query v t a b)
    (hd : ∀ d ∈ p.differences, RemovesAlike c h v t d.1 d.2) :
    Binds v t (p.mappings c h a) ((p.instantiate v t).mappings c h b) := by
  cases p with
  | edge e =>
    refine (hc.enumerates_edge hr.fits hr.graph (NodePattern.forall_mem_vars.mpr hv) hvars).binds hr
      (hc.enumerates_edge hr.fits' hr.graph' NodePattern.forall_vars_const fun w hw => ?_)
      (fun w => ?_) fun ν => ?_
    · exact hvars w (EdgePattern.mem_vars_instantiate.mp hw).1
    · simp only [List.mem_append, EdgePattern.mem_vars_instantiate]
      constructor
      · rintro (hw | hw)
        · exact ⟨.inl hw.1, hw.2⟩
        · cases hw
      · rintro ⟨hw | hw, hne⟩
        · exact .inl ⟨hw, hne⟩
        · exact absurd (List.mem_singleton.mp hw) hne
    · exact EdgePattern.holdsAfter_instantiate ht e
  | path p =>
    refine (hc.enumerates_path hr.fits hr.graph ⟨t, ?_⟩ hvars).binds hr
      (hc.enumerates_path hr.fits' hr.graph' ⟨_, rfl⟩ fun w hw => ?_)
      (fun w => PathPattern.mem_vars_instantiate) fun ν => hr.pathHolds_iff ht p ν
    · rw [hr.mapping]
      exact Finmap.lookup_insert _
    · exact hvars w (PathPattern.mem_vars_instantiate.mp hw).1
  | sequence items =>
    have hall : ∀ ps : List Pattern, (∀ p ∈ ps, p ∈ items) → ∀ {a b : Environment},
        Environment.Replaces c.query v t a b →
        Binds v t ((results.resultsAll c h ps a).map (·.mapping c.query))
          ((results.resultsAll c h (instantiate.instantiateAll v t ps) b).map
            (·.mapping c.query)) := by
      intro ps
      induction ps with
      | nil =>
        intro _ a b hr
        refine ⟨fun μ hμ => ?_, .of_eq ?_⟩
        · rw [List.mem_singleton.mp hμ]
          exact hr.free
        · exact congrArg ([·]) hr.mapping
      | cons p ps ih =>
        intro hps a b hr
        obtain ⟨hm, hps⟩ := List.forall_mem_cons.mp hps
        have := List.sizeOf_lt_of_mem hm
        have hsimple := allSimple_iff.mp hp p hm
        have hvp : ∀ w ∈ p.vars, w ∈ c.query.vars := fun w hw =>
          hvars w (mem_listVariables.mpr ⟨p, hm, hw⟩)
        have hfirst := binds_mappings ht p hsimple hvp hr fun d hdp =>
          hd d (mem_listDifferences.mpr ⟨p, hm, hdp⟩)
        obtain ⟨ha, hb⟩ := onward_of_replaces (h := h) hc hv hsimple hvp hr
        exact hfirst.flatMap fun a' ha' b' hb' hab => ih hps
          (hr.onward (ha a' ha') (hb b' hb') hab (hfirst.free _ (List.mem_map_of_mem hb')))
    exact hall items (fun _ hm => hm) hr
  | union l r =>
    obtain ⟨hl, hr'⟩ := Bool.and_eq_true_iff.mp hp
    rw [instantiate, mappings_union hl hr',
      mappings_union (isSimple_instantiate l hl) (isSimple_instantiate r hr')]
    refine (binds_mappings ht l hl (fun w hw => hvars w (List.mem_append_left _ hw)) hr
      fun d hdl => hd d (List.mem_append_left _ hdl)).append
      (binds_mappings ht r hr' (fun w hw => hvars w (List.mem_append_right _ hw)) hr
        fun d hdr => hd d (List.mem_append_right _ hdr))
  | minus l r =>
    obtain ⟨hl, hr'⟩ := Bool.and_eq_true_iff.mp hp
    have hvl : ∀ w ∈ l.vars, w ∈ c.query.vars := fun w hw => hvars w (List.mem_append_left _ hw)
    obtain ⟨ha, hb⟩ := mappings_minus_of_replaces (h := h) hc hv hl hr' hvl hr
    rw [ha, hb]
    refine (binds_mappings ht l hl hvl hr fun d hdl => hd d (List.mem_cons_of_mem _ hdl)).filter
      fun μ hμ => congrArg (!·) (decide_eq_decide.mpr ?_)
    refine hd (l, r) List.mem_cons_self b hr.fits' hr.free μ ?_
    have hunder : b.under (some (.const t)) = b := by
      rw [← hr.graph']
      rfl
    rwa [hunder]
  | filter e =>
    refine ⟨fun μ hμ => ?_, ?_⟩
    · obtain ⟨e', he', rfl⟩ := List.mem_map.mp hμ
      rw [instantiate, results] at he'
      rw [List.mem_singleton.mp (List.mem_of_mem_filter he')]
      exact hr.free
    · rw [instantiate, mappings, mappings, results, results,
        holds_instantiate (hr.choose 0) ht hp]
      cases ((Expr.letIn v (.const t) e).test c.toScope h (b.choose 0)).holds
      · exact .refl _
      · exact .of_eq (congrArg ([·]) hr.mapping)
  | _ => cases hp
termination_by sizeOf p

end Replaced

end Pattern

end GraphQuery
