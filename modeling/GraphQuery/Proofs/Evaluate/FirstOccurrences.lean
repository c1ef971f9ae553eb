import GraphQuery.Proofs.Evaluate.Comparison
import GraphQuery.Proofs.Evaluate.Reordering
import GraphQuery.Proofs.Solution.Submission

/-! The first occurrences in traces. Going on from an item that was there before finds nothing that
was not found before, and fails only if that went wrong then. So what is found first, in its order,
depends on what the items are at their first occurrences, and on nothing that is repeated. -/

namespace GraphQuery

/-! ### Lists -/

section Lists

variable {α β : Type} [BEq α] [LawfulBEq α] {as bs cs : List α}

theorem eraseDups_filter (p : α → Bool) (as : List α) :
    (as.filter p).eraseDups = as.eraseDups.filter p :=
  (filter_eraseDupsBy (f := id) fun _ _ _ _ hab => congrArg p hab).symm

theorem eraseDups_eraseDups (as : List α) : as.eraseDups.eraseDups = as.eraseDups := by
  cases as with
  | nil => rfl
  | cons a as =>
    have hlength := List.length_filter_le (fun b => !b == a) as
    rw [List.eraseDups_cons, List.eraseDups_cons, ← eraseDups_filter, List.filter_filter]
    simp only [Bool.and_self]
    rw [eraseDups_eraseDups]
termination_by as.length
decreasing_by
  simp only [List.length_cons]
  omega

theorem eraseDups_append_right (as bs : List α) :
    (as ++ bs.eraseDups).eraseDups = (as ++ bs).eraseDups := by
  rw [List.eraseDups_append, List.eraseDups_append, List.removeAll, List.removeAll,
    eraseDups_filter, eraseDups_filter, eraseDups_eraseDups]

theorem eraseDups_append_congr (h : bs.eraseDups = cs.eraseDups) (as : List α) :
    (as ++ bs).eraseDups = (as ++ cs).eraseDups := by
  rw [← eraseDups_append_right, h, eraseDups_append_right]

theorem eraseDups_append_left (as bs : List α) :
    (as.eraseDups ++ bs).eraseDups = (as ++ bs).eraseDups := by
  have hmem : ∀ a, as.eraseDups.elem a = as.elem a := fun a => by simp
  rw [List.eraseDups_append, List.eraseDups_append, List.removeAll, List.removeAll,
    eraseDups_eraseDups]
  simp only [hmem]

/-- What is there already does not count. -/
theorem eraseDups_append_of_subset (h : bs ⊆ as) (cs : List α) :
    (as ++ (bs ++ cs)).eraseDups = (as ++ cs).eraseDups := by
  have hnew : bs.filter (fun b => !as.elem b) = [] :=
    List.filter_eq_nil_iff.mpr fun b hb => by simp [h hb]
  rw [List.eraseDups_append, List.eraseDups_append, List.removeAll, List.removeAll,
    List.filter_append, hnew, List.nil_append]

/-- First occurrences may be taken before those of what is seen alike. -/
theorem eraseDupsBy_eraseDups {β : Type} [BEq β] [LawfulBEq β] (f : α → β) (as : List α) :
    as.eraseDups.eraseDupsBy (fun a b => f a == f b) = as.eraseDupsBy fun a b => f a == f b := by
  cases as with
  | nil => rfl
  | cons a as =>
    have hlength := List.length_filter_le (fun b => !b == a) as
    have hother : ∀ p : α → Bool, (∀ b, p b = true → b ≠ a) →
        (as.filter fun b => !b == a).filter p = as.filter p := fun p hp => by
      rw [List.filter_filter]
      refine List.filter_congr fun b _ => ?_
      have := hp b
      cases hb : p b <;> simp_all
    rw [List.eraseDups_cons, List.eraseDupsBy_cons, List.eraseDupsBy_cons, ← eraseDups_filter,
      hother _ fun b hb hba => by simp [hba] at hb, eraseDupsBy_eraseDups]
termination_by as.length
decreasing_by
  have := List.length_filter_le (fun b => decide ((f b == f a) = false)) as
  simp only [List.length_cons]
  omega

end Lists

/-- What comes first: the items without those that were there before, and how it ends. -/
structure Firsts (γ : Type) where
  items : List γ
  ending : Except QueryError Unit

namespace Firsts

variable {α γ : Type} {x y z : Firsts γ}

theorem ending_cases (x : Firsts γ) : x.ending = .ok () ∨ ∃ e, x.ending = .error e := by
  rcases x.ending with e | ⟨⟩
  · exact .inr ⟨e, rfl⟩
  · exact .inl rfl

variable [BEq γ]

/-- What comes first in something and then in something else, unless the former fails. -/
def andThen (x y : Firsts γ) : Firsts γ :=
  match x.ending with
  | .error _ => x
  | .ok _ => ⟨(x.items ++ y.items).eraseDups, y.ending⟩

theorem andThen_of_error {e : QueryError} (h : x.ending = .error e) (y : Firsts γ) :
    x.andThen y = x := by
  rw [andThen, h]

theorem andThen_of_ok (h : x.ending = .ok ()) (y : Firsts γ) :
    x.andThen y = ⟨(x.items ++ y.items).eraseDups, y.ending⟩ := by
  rw [andThen, h]

/-- What comes first if one goes on from each of some items in turn. -/
def along (f : α → Firsts γ) (last : Firsts γ) : List α → Firsts γ
  | [] => last
  | a :: as => (f a).andThen (along f last as)

theorem along_map {β : Type} (f : β → Firsts γ) (last : Firsts γ) (φ : α → β) (as : List α) :
    along f last (as.map φ) = along (fun a => f (φ a)) last as := by
  induction as with
  | nil => rfl
  | cons a as ih => rw [List.map_cons, along, along, ih]

theorem along_congr {f g : α → Firsts γ} {last : Firsts γ} {as : List α}
    (h : ∀ a ∈ as, f a = g a) : along f last as = along g last as := by
  induction as with
  | nil => rfl
  | cons a as ih =>
    obtain ⟨ha, has⟩ := List.forall_mem_cons.mp h
    rw [along, along, ha, ih has]

variable [LawfulBEq γ]

theorem andThen_assoc (x y z : Firsts γ) :
    (x.andThen y).andThen z = x.andThen (y.andThen z) := by
  rcases x.ending_cases with hx | ⟨e, hx⟩
  · rcases y.ending_cases with hy | ⟨e, hy⟩
    · rw [andThen_of_ok hx, andThen_of_ok hx, andThen_of_ok hy, andThen_of_ok (by exact hy)]
      simp only [eraseDups_append_left, eraseDups_append_right, List.append_assoc]
    · rw [andThen_of_ok hx, andThen_of_error hy, andThen_of_error (by exact hy), andThen_of_ok hx]
  · rw [andThen_of_error hx, andThen_of_error hx, andThen_of_error hx]

/-- Whatever comes in between, a second time finds nothing that is new. -/
theorem andThen_again (x y z : Firsts γ) :
    x.andThen (y.andThen (x.andThen z)) = x.andThen (y.andThen z) := by
  rcases x.ending_cases with hx | ⟨e, hx⟩
  · rcases y.ending_cases with hy | ⟨e, hy⟩
    · simp only [andThen_of_ok hx, andThen_of_ok hy, eraseDups_append_right]
      rw [← List.append_assoc x.items y.items, ← List.append_assoc x.items y.items,
        eraseDups_append_of_subset (List.subset_append_left _ _)]
    · rw [andThen_of_error hy, andThen_of_error hy]
  · rw [andThen_of_error hx, andThen_of_error hx]

theorem andThen_self (x z : Firsts γ) : x.andThen (x.andThen z) = x.andThen z := by
  rcases x.ending_cases with hx | ⟨e, hx⟩
  · simp only [andThen_of_ok hx, eraseDups_append_right]
    rw [eraseDups_append_of_subset (List.Subset.refl _)]
  · rw [andThen_of_error hx, andThen_of_error hx]

section

variable [BEq α] [LawfulBEq α] {f : α → Firsts γ} {last : Firsts γ} {a : α}

theorem along_filter (h : ∀ x, z.andThen ((f a).andThen x) = z.andThen x) (as : List α) :
    z.andThen (along f last (as.filter fun b => !b == a)) = z.andThen (along f last as) := by
  induction as generalizing z with
  | nil => rfl
  | cons b as ih =>
    by_cases hb : b = a
    · subst hb
      rw [List.filter_cons_of_neg (by simp), along, h]
      exact ih h
    · rw [List.filter_cons_of_pos (by simpa using hb), along, along, ← andThen_assoc,
        ← andThen_assoc]
      refine ih fun x => ?_
      rw [andThen_assoc, ← h, andThen_again, h, andThen_assoc]

/-- Only the first occurrences count. -/
theorem along_eraseDups (f : α → Firsts γ) (last : Firsts γ) (as : List α) :
    along f last as.eraseDups = along f last as := by
  cases as with
  | nil => rfl
  | cons a as =>
    have hlength := List.length_filter_le (fun b => !b == a) as
    rw [List.eraseDups_cons, along, along, along_eraseDups f last (as.filter fun b => !b == a)]
    exact along_filter (andThen_self (f a)) as
termination_by as.length
decreasing_by
  simp only [List.length_cons]
  omega

end

/-- Items that have the same first occurrences, as far as going on from them depends on it. -/
theorem along_eq {β κ : Type} [BEq κ] [LawfulBEq κ] {φ : α → κ} {ψ : β → κ} {f : α → Firsts γ}
    {g : β → Firsts γ} {as : List α} {bs : List β}
    (h : (as.map φ).eraseDups = (bs.map ψ).eraseDups)
    (hfg : ∀ a ∈ as, ∀ b ∈ bs, φ a = ψ b → f a = g b) (last : Firsts γ) :
    along f last as = along g last bs := by
  classical
  have hmem : ∀ k, (∃ a ∈ as, φ a = k) ↔ ∃ b ∈ bs, ψ b = k := fun k => by
    rw [← List.mem_map, ← List.mem_map, ← List.mem_eraseDups, h, List.mem_eraseDups]
  -- Going on depends on what is seen of an item.
  let step : κ → Firsts γ := fun k =>
    if hk : ∃ a ∈ as, φ a = k then f hk.choose else last
  have hstep : ∀ b ∈ bs, step (ψ b) = g b := fun b hb => by
    have hk : ∃ a ∈ as, φ a = ψ b := (hmem _).mpr ⟨b, hb, rfl⟩
    have hchosen := hk.choose_spec
    simp only [step, dif_pos hk]
    exact hfg _ hchosen.1 b hb hchosen.2
  have hstep' : ∀ a ∈ as, step (φ a) = f a := fun a ha => by
    obtain ⟨b, hb, hba⟩ := (hmem (φ a)).mp ⟨a, ha, rfl⟩
    rw [← hba, hstep b hb, hfg a ha b hb hba.symm]
  rw [← along_congr hstep, ← along_congr hstep', ← along_map, ← along_map, ← along_eraseDups, h,
    along_eraseDups]

end Firsts

section Lists

variable {α β : Type} [BEq α] [LawfulBEq α] [BEq β] [LawfulBEq β] {as bs : List α}

/-- First occurrences may be taken before a map. -/
theorem eraseDups_map_eraseDups (f : α → β) (as : List α) :
    (as.eraseDups.map f).eraseDups = (as.map f).eraseDups := by
  have halong : ∀ as : List α, Firsts.along (fun a => ⟨[f a], .ok ()⟩) ⟨[], .ok ()⟩ as =
      ⟨(as.map f).eraseDups, .ok ()⟩ := fun as => by
    induction as with
    | nil => rfl
    | cons a as ih =>
      rw [Firsts.along, ih, Firsts.andThen_of_ok rfl, eraseDups_append_right]
      rfl
  have h := Firsts.along_eraseDups (fun a => ⟨[f a], .ok ()⟩) ⟨[], .ok ()⟩ as
  rw [halong, halong] at h
  exact congrArg Firsts.items h

theorem eraseDups_map_congr (h : as.eraseDups = bs.eraseDups) (f : α → β) :
    (as.map f).eraseDups = (bs.map f).eraseDups := by
  rw [← eraseDups_map_eraseDups, h, eraseDups_map_eraseDups]

theorem eraseDupsBy_congr (h : as.eraseDups = bs.eraseDups) (f : α → β) :
    as.eraseDupsBy (fun a b => f a == f b) = bs.eraseDupsBy fun a b => f a == f b := by
  rw [← eraseDupsBy_eraseDups, h, eraseDupsBy_eraseDups]

end Lists

/-! ### Traces -/

namespace Trace

variable {α β γ κ : Type} [BEq κ] {φ : α → κ} {t t' u : Trace α} {a : α}

/-- What comes first in a trace, as far as `φ` tells the items apart. -/
def firsts (φ : α → κ) (t : Trace α) : Firsts κ := ⟨(t.items.map φ).eraseDups, t.drain.outcome⟩

theorem firsts_event (e : Event) (t : Trace α) : (event e t).firsts φ = t.firsts φ := by
  rw [firsts, firsts, outcome_drain_event]
  rfl

theorem firsts_ofRun (r : Run (Trace α)) :
    (ofRun r).firsts φ = (ofOutcome r.outcome).firsts φ := by
  unfold ofRun
  induction r.events with
  | nil => rfl
  | cons e es ih => exact (firsts_event e _).trans ih

theorem firsts_foldr (as : List α) (φ : α → κ) :
    (as.foldr item stop).firsts φ = ⟨(as.map φ).eraseDups, .ok ()⟩ := by
  have hdrain : (as.foldr item stop).drain.outcome = .ok () := by
    induction as with
    | nil => rfl
    | cons a as ih => exact ih
  rw [firsts, items_foldr, hdrain]

theorem isEmpty_firsts (φ : α → κ) (t : Trace α) : (t.firsts φ).items.isEmpty = t.items.isEmpty := by
  cases h : t.items <;> simp [firsts, h, List.eraseDups_cons]

section

variable [LawfulBEq κ]

theorem firsts_append (t u : Trace α) :
    (t.append u).firsts φ = (t.firsts φ).andThen (u.firsts φ) := by
  induction t with
  | stop => simp [append, firsts, items, drain, Firsts.andThen, eraseDups_eraseDups]
  | fail e => rfl
  | event e t ih => rw [append, firsts_event, firsts_event, ih]
  | item a t ih =>
    have hitem : ∀ t : Trace α, (item a t).firsts φ =
        Firsts.andThen ⟨[φ a], .ok ()⟩ (t.firsts φ) := fun t => by
      rw [Firsts.andThen_of_ok rfl, firsts, firsts, eraseDups_append_right]
      rfl
    rw [append, hitem, hitem, ih, Firsts.andThen_assoc]

theorem firsts_bind (t : Trace β) (f : β → Trace α) : (t.bind f).firsts φ =
    Firsts.along (fun b => (f b).firsts φ) ⟨[], t.drain.outcome⟩ t.items := by
  induction t with
  | stop => rfl
  | fail e => rfl
  | event e t ih => rw [bind, firsts_event, ih, outcome_drain_event, items]
  | item b t ih => rw [bind, firsts_append, ih, items, Firsts.along, drain]

/-- Going on from items with the same first occurrences. -/
theorem firsts_bind_congr [BEq γ] [LawfulBEq γ] {ε : Type} {t : Trace β} {t' : Trace ε}
    {ψ : β → γ} {χ : ε → γ} {f : β → Trace α} {f' : ε → Trace α} (h : t.firsts ψ = t'.firsts χ)
    (hf : ∀ b ∈ t.items, ∀ b' ∈ t'.items, ψ b = χ b' → (f b).firsts φ = (f' b').firsts φ) :
    (t.bind f).firsts φ = (t'.bind f').firsts φ := by
  have hending : t.drain.outcome = t'.drain.outcome := congrArg Firsts.ending h
  rw [firsts_bind, firsts_bind, hending]
  exact Firsts.along_eq (congrArg Firsts.items h) hf _

/-- Visiting lists with the same first occurrences. -/
theorem firsts_visit_congr [BEq γ] [LawfulBEq γ] {ε : Type} {bs : List β} {bs' : List ε}
    {ψ : β → γ} {χ : ε → γ} {f : Nat → β → Trace α} {f' : Nat → ε → Trace α}
    (h : (bs.map ψ).eraseDups = (bs'.map χ).eraseDups)
    (hf : ∀ i i', ∀ b ∈ bs, ∀ b' ∈ bs', ψ b = χ b' → (f i b).firsts φ = (f' i' b').firsts φ)
    (i i' : Nat) : (visit f i bs).firsts φ = (visit f' i' bs').firsts φ := by
  have hlist : ∀ {ε : Type} (bs : List ε) (χ : ε → γ) (i : Nat),
      ((bs.zipIdx i).foldr item stop).firsts (fun p => χ p.1) =
        ⟨(bs.map χ).eraseDups, .ok ()⟩ := fun bs χ i => by
    rw [firsts_foldr]
    conv_rhs => rw [← List.zipIdx_map_fst i bs, List.map_map]
    rfl
  rw [visit_eq_bind, visit_eq_bind]
  refine firsts_bind_congr ((hlist bs ψ i).trans (h ▸ (hlist bs' χ i').symm))
    fun p hp p' hp' hpp' => ?_
  rw [items_foldr] at hp hp'
  exact hf _ _ _ (List.fst_mem_of_mem_zipIdx hp) _ (List.fst_mem_of_mem_zipIdx hp') hpp'

end

end Trace

/-! ### Runs for the members of a list -/

/-- Whether two runs end alike, whatever happens on the way. -/
abbrev Run.EndsAlike {α : Type} (r r' : Run α) : Prop := r.outcome = r'.outcome

theorem Run.congruence_endsAlike : Congruence fun _ => EndsAlike where
  pure _ := rfl
  bind {α β r r' f f'} h hf := by
    have hr : r.outcome = r'.outcome := h
    change (r >>= f).outcome = (r' >>= f').outcome
    rw [outcome_bind, outcome_bind, ← hr]
    cases ho : r.outcome with
    | error e => rfl
    | ok a => exact hf a ho

namespace Trace

variable {α β : Type}

/-- Events count neither for the items nor for the end. -/
theorem ofRun_append_alike (r : Run (Trace α)) (u : Trace α) :
    ((ofRun r).append u).items = ((ofOutcome r.outcome).append u).items ∧
      ((ofRun r).append u).drain.outcome = ((ofOutcome r.outcome).append u).drain.outcome := by
  unfold ofRun
  induction r.events with
  | nil => exact ⟨rfl, rfl⟩
  | cons e es ih => exact ⟨ih.1, (outcome_drain_event e _).trans ih.2⟩

/-- What runs for the members of a list result in, as a trace. -/
def ofRuns (f : Nat → α → Run (Option β)) : Nat → List α → Trace β :=
  visit fun i a => ofRun ((·.elim stop single) <$> f i a)

theorem outcome_mapIdx_eq_ofRuns (f : Nat → α → Run (Option β)) (i : Nat) (as : List α) :
    (Run.mapIdx f i as).outcome.map (·.filterMap id) =
      (ofRuns f i as).drain.outcome.map fun _ => (ofRuns f i as).items := by
  induction as generalizing i with
  | nil => rfl
  | cons a as ih =>
    have hvisit : ofRuns f i (a :: as) =
      (ofRun ((·.elim stop single) <$> f i a)).append (ofRuns f (i + 1) as) := rfl
    obtain ⟨hitems, hdrain⟩ :=
      ofRun_append_alike ((·.elim stop single) <$> f i a) (ofRuns f (i + 1) as)
    rw [hvisit, hitems, hdrain, Run.mapIdx, Run.outcome_bind, Run.outcome_map]
    have ih := ih (i + 1)
    simp only [Run.outcome_bind]
    rcases (f i a).outcome with e | _ | b
    · rfl
    · refine Eq.trans ?_ ih
      cases (Run.mapIdx f (i + 1) as).outcome <;> rfl
    · have hcons := congrArg (Except.map (List.cons b)) ih
      change _ = (ofRuns f (i + 1) as).drain.outcome.map fun _ => b :: (ofRuns f (i + 1) as).items
      refine Eq.trans ?_ (hcons.trans ?_)
      · cases (Run.mapIdx f (i + 1) as).outcome <;> rfl
      · cases (ofRuns f (i + 1) as).drain.outcome <;> rfl

end Trace

/-- Runs for the members of lists with the same first occurrences fail alike, or result in things with
the same first occurrences. -/
theorem Run.corresponds_mapIdx {α β γ κ : Type} [BEq κ] [LawfulBEq κ] [BEq γ] [LawfulBEq γ]
    {f f' : Nat → α → Run (Option β)} {ψ : α → γ} {φ : β → κ} {as as' : List α}
    (h : (as.map ψ).eraseDups = (as'.map ψ).eraseDups)
    (hf : ∀ i i', ∀ a a', ψ a = ψ a' → (f i a).EndsAlike (f' i' a')) (i i' : Nat) :
    (mapIdx f i as).Corresponds (fun bs bs' =>
      ((bs.filterMap id).map φ).eraseDups = ((bs'.filterMap id).map φ).eraseDups)
      (mapIdx f' i' as') := by
  have hfirsts : (Trace.ofRuns f i as).firsts φ = (Trace.ofRuns f' i' as').firsts φ :=
    Trace.firsts_visit_congr h (fun j j' a _ a' _ ha => by
      have hends : (f j a).outcome = (f' j' a').outcome := hf j j' a a' ha
      rw [Trace.firsts_ofRun, Trace.firsts_ofRun, outcome_map, outcome_map, hends]) i i'
  have hfound : ∀ f : Nat → α → Run (Option β), ∀ i as,
      (mapIdx f i as).outcome.map (fun bs => ((bs.filterMap id).map φ).eraseDups) =
        ((Trace.ofRuns f i as).firsts φ).ending.map fun _ =>
          ((Trace.ofRuns f i as).firsts φ).items := by
    intro f i as
    have hkept : ∀ x : Except QueryError (List (Option β)),
        x.map (fun bs => ((bs.filterMap id).map φ).eraseDups) =
          (x.map (·.filterMap id)).map fun bs => (bs.map φ).eraseDups := fun x => by
      cases x <;> rfl
    rw [hkept, Trace.outcome_mapIdx_eq_ofRuns, Trace.firsts]
    cases (Trace.ofRuns f i as).drain.outcome <;> rfl
  exact .of_map (by rw [hfound, hfound, hfirsts])

/-! ### First occurrences up to trails -/

open scoped Classical in
/-- Whether two traces have the same first occurrences, up to the ways on which environments are
reached, and end alike. -/
def FirstsUpToTrail (t t' : Trace Environment) : Prop :=
  t.firsts Environment.withoutTrail = t'.firsts Environment.withoutTrail

namespace FirstsUpToTrail

variable {t t' : Trace Environment}

theorem drain (h : FirstsUpToTrail t t') : t.drain.outcome = t'.drain.outcome :=
  congrArg Firsts.ending h

open scoped Classical in
theorem mem_iff (h : FirstsUpToTrail t t') (e : Environment) :
    e ∈ t.items.map Environment.withoutTrail ↔ e ∈ t'.items.map Environment.withoutTrail := by
  have hitems : (t.items.map Environment.withoutTrail).eraseDups =
    (t'.items.map Environment.withoutTrail).eraseDups := congrArg Firsts.items h
  rw [← List.mem_eraseDups, hitems, List.mem_eraseDups]

theorem single {a b : Environment} (h : a.withoutTrail = b.withoutTrail) :
    FirstsUpToTrail (.single a) (.single b) := by
  simp [FirstsUpToTrail, Trace.firsts, Trace.single, Trace.items, Trace.drain, h]

theorem append {u u' : Trace Environment} (h : FirstsUpToTrail t t') (hu : FirstsUpToTrail u u') :
    FirstsUpToTrail (t.append u) (t'.append u') := by
  classical
  unfold FirstsUpToTrail at *
  rw [Trace.firsts_append, Trace.firsts_append, h, hu]

theorem isEmpty_eq (h : FirstsUpToTrail t t') : t.items.isEmpty = t'.items.isEmpty := by
  classical
  rw [← Trace.isEmpty_firsts Environment.withoutTrail, ← Trace.isEmpty_firsts
    Environment.withoutTrail, h]

theorem any_eq (h : FirstsUpToTrail t t') {P : Environment → Bool}
    (hP : ∀ a, P a.withoutTrail = P a) : t.items.any P = t'.items.any P := by
  have hsame : ∀ l : List Environment, l.any P = true ↔
      ∃ e ∈ l.map Environment.withoutTrail, P e = true := fun l => by
    simp [hP]
  rw [Bool.eq_iff_iff, hsame, hsame]
  simp only [h.mem_iff]

end FirstsUpToTrail

theorem comparison_firsts : Trace.Comparison (fun _ => Run.EndsAlike) FirstsUpToTrail where
  runs := Run.congruence_endsAlike
  refl _ := rfl
  stop := rfl
  fail _ := rfl
  single := .single
  append := .append
  bind h hf := by
    classical
    exact Trace.firsts_bind_congr h hf
  orElse h hab := by
    unfold Trace.orElse
    rw [h.isEmpty_eq]
    split_ifs
    · exact h.append (.single hab)
    · exact h
  ofMap {β r r' f f'} h hf := by
    classical
    have hr : r.outcome = r'.outcome := h
    unfold FirstsUpToTrail
    rw [Trace.firsts_ofRun, Trace.firsts_ofRun, Run.outcome_map, Run.outcome_map, ← hr]
    cases ho : r.outcome with
    | error e => rfl
    | ok x => exact hf x ho (hr ▸ ho)
  drain h := h.drain
  any h _ _ _ hP := h.any_eq hP
  first h := by
    change (_ : Run Bool).outcome = (_ : Run Bool).outcome
    rw [Trace.outcome_first, Trace.outcome_first, h.isEmpty_eq, h.drain]

end GraphQuery
