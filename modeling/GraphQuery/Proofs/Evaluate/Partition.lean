import GraphQuery.Proofs.Evaluate.Accord
import GraphQuery.Proofs.Evaluate.Canonical
import GraphQuery.Proofs.Time.DateTime

/-! Groups as a partition. Each solution is in one group, together with those that have the same
terms as keys, and what is counted over the groups adds up to the number of all solutions. -/

namespace GraphQuery

/-! ### Keys -/

/-- Whether two keys are the same: both are missing, or they are the same term. -/
def sameKey : Option Term → Option Term → Bool
  | none, none => true
  | some t, some u => t.same u
  | _, _ => false

/-- Whether two solutions have the same keys, one by one. -/
def Solution.sharesGroup (a b : Solution) : Bool := a.groupKeys.isEqv b.groupKeys sameKey

/-- Canonical keys are the same if they are equal. -/
theorem isEqv_sameKey {ts us : List (Option Term)} (ht : Canonical ts) (hu : Canonical us) :
    ts.isEqv us sameKey = decide (ts = us) := by
  have hkey : ∀ t u : Option Term, (∀ x, t = some x → x.IsCanonical) →
      (∀ x, u = some x → x.IsCanonical) → sameKey t u = decide (t = u) := fun t u ht hu => by
    cases t with
    | none => cases u <;> rfl
    | some t =>
      cases u with
      | none => rfl
      | some u =>
        have ht := ht t rfl
        have hu := hu u rfl
        rw [Bool.eq_iff_iff, decide_eq_true_iff, Option.some.injEq]
        exact (Term.same_iff t u).trans (by rw [ht, hu])
  induction ts generalizing us with
  | nil => cases us <;> rfl
  | cons t ts ih =>
    cases us with
    | nil => rfl
    | cons u us =>
      have htail : ts.isEqv us sameKey = decide (ts = us) :=
        ih (fun x hx => ht x (List.mem_cons_of_mem t hx))
          fun x hx => hu x (List.mem_cons_of_mem u hx)
      have hhead := hkey t u (fun x hx => ht x (hx ▸ List.mem_cons_self))
        fun x hx => hu x (hx ▸ List.mem_cons_self)
      rw [List.isEqv_cons_cons, hhead, htail, ← Bool.decide_and, decide_eq_decide, List.cons.injEq]

theorem Solution.sharesGroup_eq {a b : Solution} (ha : Canonical a.groupKeys)
    (hb : Canonical b.groupKeys) : a.sharesGroup b = decide (a.groupKeys = b.groupKeys) :=
  isEqv_sameKey ha hb

/-! ### Groups -/

section Lists

variable {α β : Type} [DecidableEq β]

/-- What is kept for each of some values makes up all that has one of these values. -/
theorem flatten_filter_perm (f : α → β) {ks : List β} (hks : ks.Nodup) (as : List α)
    (h : ∀ a ∈ as, f a ∈ ks) : (ks.map fun k => as.filter (f · = k)).flatten.Perm as := by
  induction ks generalizing as with
  | nil =>
    rw [List.eq_nil_iff_forall_not_mem.mpr fun a ha => List.not_mem_nil (h a ha)]
    exact .refl _
  | cons k ks ih =>
    obtain ⟨hk, hks⟩ := List.nodup_cons.mp hks
    have hrest : ∀ k' ∈ ks, as.filter (f · = k') =
        (as.filter fun a => !decide (f a = k)).filter (f · = k') := fun k' hk' => by
      rw [List.filter_filter]
      refine List.filter_congr fun a _ => ?_
      by_cases ha : f a = k'
      · have hne : f a ≠ k := fun he => hk (he ▸ ha ▸ hk')
        simp [ha, ha ▸ hne]
      · simp [ha]
    rw [List.map_cons, List.flatten_cons, List.map_congr_left hrest]
    refine ((ih hks _ fun a ha => ?_).append_left _).trans (List.filter_append_perm _ as)
    obtain ⟨ha, hne⟩ := List.mem_filter.mp ha
    exact (List.mem_cons.mp (h a ha)).resolve_left (by simpa using hne)

/-- Of all that has the same value, the first one is kept. -/
theorem head?_filter_of_mem_eraseDupsBy [BEq β] [LawfulBEq β] {f : α → β} {as : List α} {a : α}
    (h : a ∈ as.eraseDupsBy fun a b => f a == f b) : (as.filter (f · = f a)).head? = some a := by
  have hmem : a ∈ (as.eraseDupsBy fun a b => f a == f b).filter (f · = f a) :=
    List.mem_filter.mpr ⟨h, decide_eq_true rfl⟩
  rw [filter_eraseDupsBy fun x _ y _ hxy => by rw [hxy]] at hmem
  cases hfilter : as.filter (f · = f a) with
  | nil =>
    rw [hfilter] at hmem
    cases hmem
  | cons b bs =>
    have hall : ∀ x ∈ b :: bs, f x = f a := fun x hx => by
      rw [← hfilter] at hx
      exact of_decide_eq_true (List.mem_filter.mp hx).2
    have hrest : bs.filter (fun x => decide ((f x == f b) = false)) = [] :=
      List.filter_eq_nil_iff.mpr fun x hx => by
        simp [hall x (List.mem_cons_of_mem b hx), hall b List.mem_cons_self]
    rw [hfilter, List.eraseDupsBy_cons, hrest] at hmem
    rw [List.head?_cons, List.mem_singleton.mp hmem]

end Lists

variable {rows : List Solution} {g : List Solution} {s : Solution}

theorem groupsOf_flatten_perm (rows : List Solution) : (groupsOf rows).flatten.Perm rows := by
  rw [groupsOf_eq]
  exact flatten_filter_perm _ (nodup_eraseDups _) rows fun s hs =>
    List.mem_eraseDups.mpr (List.mem_map_of_mem hs)

theorem groupsOf_eq_nil : groupsOf rows = [] ↔ rows = [] := by
  rw [groupsOf_eq, List.map_eq_nil_iff]
  constructor
  · intro h
    refine List.eq_nil_iff_forall_not_mem.mpr fun s hs => ?_
    have hk := List.mem_eraseDups.mpr (List.mem_map_of_mem (f := (·.groupKeys)) hs)
    rw [h] at hk
    cases hk
  · rintro rfl
    rfl

theorem ne_nil_of_mem_groupsOf (hg : g ∈ groupsOf rows) : g ≠ [] := by
  rw [groupsOf_eq] at hg
  obtain ⟨k, hk, rfl⟩ := List.mem_map.mp hg
  obtain ⟨s, hs, rfl⟩ := List.mem_map.mp (List.mem_eraseDups.mp hk)
  exact List.ne_nil_of_mem (List.mem_filter.mpr ⟨hs, decide_eq_true rfl⟩)

section Canonical

variable (hrows : ∀ s ∈ rows, Canonical s.groupKeys)

include hrows

theorem eq_filter_of_mem_groupsOf (hg : g ∈ groupsOf rows) (hs : s ∈ g) :
    g = rows.filter s.sharesGroup := by
  rw [groupsOf_eq] at hg
  obtain ⟨k, -, rfl⟩ := List.mem_map.mp hg
  obtain ⟨hs, hk⟩ := List.mem_filter.mp hs
  refine List.filter_congr fun r hr => ?_
  rw [Solution.sharesGroup_eq (hrows s hs) (hrows r hr), of_decide_eq_true hk]
  exact decide_eq_decide.mpr eq_comm

theorem pairwise_groupsOf : (groupsOf rows).Pairwise fun g h =>
    ∀ a ∈ g, ∀ b ∈ h, a.sharesGroup b = false := by
  rw [groupsOf_eq, List.pairwise_map]
  refine (nodup_eraseDups _).imp fun {k k'} hne a ha b hb => ?_
  obtain ⟨ha, hk⟩ := List.mem_filter.mp ha
  obtain ⟨hb, hk'⟩ := List.mem_filter.mp hb
  rw [Solution.sharesGroup_eq (hrows a ha) (hrows b hb), of_decide_eq_true hk,
    of_decide_eq_true hk']
  exact decide_eq_false hne

/-- The first members of the groups are the solutions whose keys no earlier solution has. -/
theorem map_head_groupsOf :
    (groupsOf rows).map List.head? = (rows.eraseDupsBy Solution.sharesGroup).map some := by
  have hkeys : rows.eraseDupsBy Solution.sharesGroup =
      rows.eraseDupsBy fun a b => a.groupKeys == b.groupKeys :=
    eraseDupsBy_congr_mem fun a ha b hb => by
      rw [Solution.sharesGroup_eq (hrows a ha) (hrows b hb), Bool.eq_iff_iff, decide_eq_true_iff,
        beq_iff_eq]
  rw [groupsOf_eq, List.map_map, ← map_eraseDupsBy, List.map_map, hkeys]
  exact List.map_congr_left fun a ha => head?_filter_of_mem_eraseDupsBy ha

end Canonical

/-! ### Counting -/

theorem SetFunction.apply_count (members : List (Option Term)) :
    count.apply false members =
      (Integer.ofInt? (members.filterMap id).length).map fun n => .literal (.ofInt64 n) := rfl

namespace Context

variable {c : Context}

/-- Without an argument, the solutions of a group are counted, or those that differ in a slot. -/
theorem evaluate_count (env : Environment) {group : List Solution} (hg : env.group = some group)
    (distinct : Bool) : c.evaluate (.aggregate .count none distinct) env =
      pure ((Integer.ofInt? ((if distinct then (group.map (·.slots)).eraseDups.length
        else group.length : Nat) : Int)).map fun n => .literal (.ofInt64 n)) := by
  have hmembers : ∀ k, ((List.replicate k (some (Term.ofBool true))).filterMap id).length = k :=
    fun k => by
      rw [← List.map_replicate, List.filterMap_map, Function.id_comp, List.filterMap_some,
        List.length_replicate]
  rw [evaluate, Expr.eval, hg]
  dsimp only [Expr.eval.evalAggregate]
  rw [SetFunction.apply_count, hmembers]

/-- Groups of numbers that add up to one that fits have integers that add up to it. -/
theorem exists_counts (groups : List (List Solution)) (hn : groups.flatten.length < 2 ^ 63) :
    ∃ counts : List Int64, List.Forall₂ (fun group n => ∀ env : Environment,
        env.group = some group → c.evaluate (.aggregate .count none false) env =
          pure (some (.literal (.ofInt64 n)))) groups counts ∧
      (counts.map Int64.toInt).sum = groups.flatten.length := by
  induction groups with
  | nil => exact ⟨[], .nil, rfl⟩
  | cons group groups ih =>
    rw [List.flatten_cons, List.length_append] at hn
    obtain ⟨n, hsome, hn⟩ := Integer.ofInt_length (n := group.length) (by omega)
    obtain ⟨counts, hcounts, hsum⟩ := ih (by omega)
    refine ⟨n :: counts, .cons (fun env hg => ?_) hcounts, ?_⟩
    · rw [evaluate_count env hg, if_neg Bool.false_ne_true, hsome]
      rfl
    · rw [List.map_cons, List.sum_cons, hsum, hn, List.flatten_cons, List.length_append]
      exact (Nat.cast_add _ _).symm

/-- Grouped solutions are partitioned. The keys of completed solutions are canonical; and solutions
with such keys are put together in one group exactly if they have the same keys. The groups have all
solutions, in their order, and come in the order in which their keys are first seen, so there are
none without solutions. What counts the solutions of each group adds up to the number of all
solutions. -/
theorem grouped_partition {entailment : Bool} {history : List Insertion}
    (hstore : c.source.store = .after entailment history) (hgroup : c.query.groupBy ≠ []) :
    (∀ raw done, c.rawSolutions.outcome = .ok raw → (c.complete raw).outcome = .ok done →
      ∀ s ∈ done.rows, Canonical s.groupKeys) ∧
    ∀ rows : Solutions, (∀ s ∈ rows.rows, Canonical s.groupKeys) →
      let groups := groupsOf rows.rows
      c.grouped rows = (do
        let kept ← Run.mapIdx (fun i group => c.groupRow i group) 0 groups
        pure (rows.clear.submitAll (kept.filterMap id))) ∧
      groups.flatten.Perm rows.rows ∧
      (∀ group ∈ groups, group ≠ [] ∧ ∀ s ∈ group, group = rows.rows.filter s.sharesGroup) ∧
      groups.Pairwise (fun group group' => ∀ s ∈ group, ∀ s' ∈ group', s.sharesGroup s' = false) ∧
      groups.map List.head? = (rows.rows.eraseDupsBy Solution.sharesGroup).map some ∧
      (groups = [] ↔ rows.rows = []) ∧
      (rows.rows.length < 2 ^ 63 → ∃ counts : List Int64,
        List.Forall₂ (fun group n => ∀ stage row i s,
          c.evaluate (.aggregate .count none false) (rowEnvironment stage row i s (some group)) =
            pure (some (.literal (.ofInt64 n)))) groups counts ∧
        (counts.map Int64.toInt).sum = rows.rows.length) := by
  have hv : c.source.store.Valid := hstore ▸ (Store.contains_after entailment history).valid
  refine ⟨fun raw done hraw hdone => canonical_of_complete
      (fun s hs => canonical_of_rawSolutions hv hraw hs) hdone,
    fun rows hrows => ⟨?_, groupsOf_flatten_perm rows.rows, fun group hg =>
      ⟨ne_nil_of_mem_groupsOf hg, fun s hs => eq_filter_of_mem_groupsOf hrows hg hs⟩,
    pairwise_groupsOf hrows, map_head_groupsOf hrows, groupsOf_eq_nil, fun hn => ?_⟩⟩
  · have hempty : c.query.groupBy.isEmpty = false := by
      simpa using hgroup
    rw [grouped, hempty]
    rfl
  · have hlength := (groupsOf_flatten_perm rows.rows).length_eq
    obtain ⟨counts, hcounts, hsum⟩ := exists_counts (c := c) (groupsOf rows.rows) (by omega)
    exact ⟨counts, hcounts.imp fun group n h stage row i s => h _ rfl, by rw [hsum, hlength]⟩

/-- Three solutions in two groups, of which the first one has the first and the last solution. -/
theorem grouped_partition_of_three :
    let term (name : String) : Term := .iri ⟨name⟩
    let store := Store.after false [.extend [⟨term "a", term "p", term "x", none⟩,
      ⟨term "b", term "p", term "y", none⟩, ⟨term "c", term "p", term "x", none⟩]]
    let query : Query := .ofParts
      { body := .edge ⟨.var ⟨"s"⟩, .const (term "p"), .var ⟨"o"⟩⟩, groupBy := [.var ⟨"o"⟩] }
    let c : Context := { query, source := { store } }
    query.groupBy ≠ [] ∧ ∃ raw done, c.rawSolutions.outcome = .ok raw ∧
      (c.complete raw).outcome = .ok done ∧ (∀ s ∈ done.rows, Canonical s.groupKeys) ∧
      (groupsOf done.rows).map (·.map (·.slots)) =
        [[[some (term "a"), some (term "x")], [some (term "c"), some (term "x")]],
          [[some (term "b"), some (term "y")]]] ∧
      (groupsOf done.rows).flatten.Perm done.rows ∧
      ∃ counts : List Int64, List.Forall₂ (fun group n => ∀ stage row i s,
        c.evaluate (.aggregate .count none false) (rowEnvironment stage row i s (some group)) =
          pure (some (.literal (.ofInt64 n)))) (groupsOf done.rows) counts ∧
        (counts.map Int64.toInt).sum = 3 := by
  intro term store query c
  have hgroup : query.groupBy ≠ [] := List.cons_ne_nil _ _
  have hraw : c.rawSolutions.outcome.toOption.map (·.rows.length) = some 3 := by decide +kernel
  obtain ⟨raw, hraw, -⟩ := exists_of_toOption hraw
  have hdone : (c.rawSolutions >>= c.complete).outcome.toOption.map
      (fun done => (done.rows.length, (groupsOf done.rows).map (·.map (·.slots)))) = some (3,
        [[[some (term "a"), some (term "x")], [some (term "c"), some (term "x")]],
          [[some (term "b"), some (term "y")]]]) := by decide +kernel
  rw [Run.outcome_bind_of_ok hraw] at hdone
  obtain ⟨done, hdone, hgroups⟩ := exists_of_toOption hdone
  obtain ⟨hlength, hgroups⟩ := Prod.mk.inj hgroups
  obtain ⟨hcanonical, hpartition⟩ := grouped_partition (c := c) rfl hgroup
  have hkeys := hcanonical raw done hraw hdone
  obtain ⟨-, hperm, -, -, -, -, hcounts⟩ := hpartition done hkeys
  obtain ⟨counts, hcounts, hsum⟩ := hcounts (by rw [hlength]; norm_num)
  exact ⟨hgroup, raw, done, hraw, hdone, hkeys, hgroups, hperm, counts, hcounts,
    by rw [hsum, hlength]; rfl⟩

end Context

end GraphQuery
