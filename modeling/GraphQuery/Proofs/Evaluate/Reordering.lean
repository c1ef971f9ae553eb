import GraphQuery.Proofs.Evaluate.Answer
import GraphQuery.Proofs.Evaluate.Instantiate
import GraphQuery.Proofs.Evaluate.Termination

/-! Runs and traces that agree as far as both come to an end. Traces that agree have the same items
in some order, up to the ways on which environments are reached. An error may cut one of two traces
off anywhere, but it cannot hand on what the other one does not, if that one comes to its end. -/

namespace GraphQuery

/-! ### Runs -/

namespace Run

variable {α : Type} {r r' : Run α}

/-- Whether two runs have the same value, if both have one. -/
def Agrees (r r' : Run α) : Prop :=
  ∀ a a', r.outcome = .ok a → r'.outcome = .ok a' → a = a'

theorem congruence_agrees : Congruence fun _ => Agrees where
  pure a b b' hb hb' := (Except.ok.inj hb).symm.trans (Except.ok.inj hb')
  bind h hf b b' hb hb' := by
    obtain ⟨a, ha, hb⟩ := outcome_bind_eq_ok hb
    obtain ⟨a', ha', hb'⟩ := outcome_bind_eq_ok hb'
    obtain rfl := h a a' ha ha'
    exact hf a ha b b' hb hb'

theorem Agrees.refl (r : Run α) : r.Agrees r := fun _ _ ha ha' => Except.ok.inj (ha.symm.trans ha')

/-- Runs for the members of a list result in the same things in another order of the members. -/
theorem perm_of_mapIdx {β : Type} {f f' : Nat → α → Run β} {as as' : List α} {bs bs' : List β}
    {i i' : Nat} (h : as.Perm as') (hf : ∀ i i', ∀ a ∈ as, (f i a).Agrees (f' i' a))
    (hb : (mapIdx f i as).outcome = .ok bs) (hb' : (mapIdx f' i' as').outcome = .ok bs') :
    bs.Perm bs' := by
  obtain ⟨bs'', hbs'', hperm⟩ := List.perm_comp_forall₂ h (forall₂_of_mapIdx hb')
  have hsame : bs = bs'' := by
    have hforall := forall₂_of_mapIdx hb
    clear hb hb' h hperm
    induction hforall generalizing bs'' with
    | nil => cases hbs''; rfl
    | cons hab _ ih =>
      obtain ⟨hf, hfs⟩ := List.forall_mem_cons.mp fun a ha i i' => hf i i' a ha
      cases hbs'' with
      | cons hab' hrest =>
        obtain ⟨i, hab⟩ := hab
        obtain ⟨i', hab'⟩ := hab'
        rw [hf i i' _ _ hab hab', ih (fun i i' a ha => hfs a ha i i') _ hrest]
  rwa [hsame]

end Run

/-! ### Items and ends -/

section Lists

variable {α β γ δ : Type} {as : List α} {bs : List β} {φ : α → γ} {ψ : β → γ}

/-- Where members of a list correspond to some members of another one, they may be replaced by lists
that do. -/
theorem subperm_flatMap_of_map {f : α → List δ} {g : β → List δ}
    (h : (as.map φ).Subperm (bs.map ψ))
    (hfg : ∀ a ∈ as, ∀ b ∈ bs, φ a = ψ b → (f a).Subperm (g b)) :
    (as.flatMap f).Subperm (bs.flatMap g) := by
  induction as generalizing bs with
  | nil => exact List.nil_subperm
  | cons a as ih =>
    obtain ⟨b, hb, hab⟩ := List.mem_map.mp (h.subset List.mem_cons_self)
    obtain ⟨s, t, rfl⟩ := List.append_of_mem hb
    have hsplit : (s ++ b :: t).Perm (b :: (s ++ t)) := List.perm_middle
    have hrest : (as.map φ).Subperm ((s ++ t).map ψ) := by
      refine (List.subperm_cons (φ a)).mp ?_
      have := h.trans (hsplit.map ψ).subperm
      rwa [List.map_cons, List.map_cons, hab] at this
    rw [List.flatMap_cons]
    refine .trans ?_ (hsplit.flatMap_right g).symm.subperm
    rw [List.flatMap_cons]
    refine (hfg a List.mem_cons_self b hb hab.symm).append (ih hrest fun a' ha' b' hb' => ?_)
    exact hfg a' (List.mem_cons_of_mem a ha') b' (hsplit.mem_iff.mpr (List.mem_cons_of_mem b hb'))

end Lists

namespace Trace

variable {α β : Type} {t u : Trace α} {f : α → Trace β}

/-- Whether a trace comes to its end. -/
inductive Finishes {α : Type} : Trace α → Prop
  | stop : Finishes stop
  | event (e : Event) {t : Trace α} : Finishes t → Finishes (event e t)
  | item (a : α) {t : Trace α} : Finishes t → Finishes (item a t)

theorem items_append (ht : t.Finishes) : (t.append u).items = t.items ++ u.items := by
  induction ht with
  | stop => rfl
  | event e _ ih => exact ih
  | item a _ ih => exact congrArg (a :: ·) ih

theorem items_append_sublist (t u : Trace α) : (t.append u).items.Sublist (t.items ++ u.items) := by
  induction t with
  | stop => exact .refl _
  | fail e => exact List.nil_sublist _
  | event e t ih => exact ih
  | item a t ih => exact ih.cons_cons a

/-- Nothing is handed on after an error. -/
theorem items_append_of_not_finishes (ht : ¬ t.Finishes) (u : Trace α) :
    (t.append u).items = t.items := by
  induction t with
  | stop => exact (ht .stop).elim
  | fail e => rfl
  | event e t ih => exact ih fun h => ht (.event e h)
  | item a t ih => exact congrArg (a :: ·) (ih fun h => ht (.item a h))

theorem Finishes.of_append (h : (t.append u).Finishes) : t.Finishes ∧ u.Finishes := by
  induction t with
  | stop => exact ⟨.stop, h⟩
  | fail e => cases h
  | event e t ih =>
    cases h with
    | event _ h => exact ⟨.event e (ih h).1, (ih h).2⟩
  | item a t ih =>
    cases h with
    | item _ h => exact ⟨.item a (ih h).1, (ih h).2⟩

theorem items_bind_sublist (t : Trace α) (f : α → Trace β) :
    (t.bind f).items.Sublist (t.items.flatMap fun a => (f a).items) := by
  induction t with
  | stop => exact .refl _
  | fail e => exact List.nil_sublist _
  | event e t ih => exact ih
  | item a t ih => exact (items_append_sublist _ _).trans (ih.append_left _)

theorem Finishes.of_bind (h : (t.bind f).Finishes) :
    t.Finishes ∧ ∀ a ∈ t.items, (f a).Finishes := by
  induction t with
  | stop => exact ⟨.stop, fun _ ha => by cases ha⟩
  | fail e => cases h
  | event e t ih =>
    cases h with
    | event _ h => exact ⟨.event e (ih h).1, (ih h).2⟩
  | item a t ih =>
    obtain ⟨ha, h⟩ := of_append h
    exact ⟨.item a (ih h).1, List.forall_mem_cons.mpr ⟨ha, (ih h).2⟩⟩

theorem items_bind (ht : t.Finishes) (hf : ∀ a ∈ t.items, (f a).Finishes) :
    (t.bind f).items = t.items.flatMap fun a => (f a).items := by
  induction ht with
  | stop => rfl
  | event e _ ih => exact ih hf
  | item a _ ih =>
    obtain ⟨ha, hf⟩ := List.forall_mem_cons.mp hf
    exact (items_append ha).trans (congrArg _ (ih hf))

theorem items_ofRun {r : Run (Trace α)} :
    (ofRun r).items = (ofOutcome r.outcome).items := by
  unfold ofRun
  induction r.events with
  | nil => rfl
  | cons e es ih => exact ih

theorem finishes_ofRun {r : Run (Trace α)} :
    (ofRun r).Finishes ↔ (ofOutcome r.outcome).Finishes := by
  unfold ofRun
  induction r.events with
  | nil => rfl
  | cons e es ih =>
    refine Iff.trans ⟨fun h => ?_, fun h => .event e h⟩ ih
    cases h with
    | event _ h => exact h

theorem outcome_drain_event (e : Event) (t : Trace α) :
    (event e t).drain.outcome = t.drain.outcome :=
  Run.outcome_bind _ _

/-- A trace is drained if it comes to its end. -/
theorem succeeds_drain_iff : t.drain.Succeeds ↔ t.Finishes := by
  constructor
  · intro h
    obtain ⟨a, h⟩ := h
    induction t with
    | stop => exact .stop
    | fail e => cases h
    | event e t ih =>
      obtain ⟨_, -, h⟩ := Run.outcome_bind_eq_ok h
      exact .event e (ih h)
    | item b t ih => exact .item b (ih h)
  · intro h
    induction h with
    | stop => exact ⟨(), rfl⟩
    | event e _ ih =>
      obtain ⟨u, hu⟩ := ih
      exact ⟨u, (Run.outcome_bind_of_ok rfl).trans hu⟩
    | item a _ ih => exact ih

/-- A visit is a trace for each member, one after the other. -/
theorem visit_eq_bind (f : Nat → β → Trace α) (i : Nat) (bs : List β) :
    visit f i bs = ((bs.zipIdx i).foldr item stop).bind fun p => f p.2 p.1 := by
  induction bs generalizing i with
  | nil => rfl
  | cons b bs ih =>
    rw [visit, ih, List.zipIdx_cons]
    rfl

theorem items_foldr (bs : List β) : (bs.foldr item stop).items = bs := by
  induction bs with
  | nil => rfl
  | cons b bs ih => exact congrArg (b :: ·) ih

/-- What hands nothing on may be left out. -/
theorem flatMap_items_filter {f : Nat → β → Trace α} {P : β → Bool} {bs : List β}
    (hP : ∀ i, ∀ b ∈ bs, (f i b).items ≠ [] → P b = true) (i : Nat) :
    ((bs.zipIdx i).flatMap fun p => (f p.2 p.1).items) =
      ((bs.zipIdx i).filter fun p => P p.1).flatMap fun p => (f p.2 p.1).items := by
  have hP := fun p (hp : p ∈ bs.zipIdx i) => hP p.2 p.1 (List.fst_mem_of_mem_zipIdx hp)
  generalize bs.zipIdx i = ps at hP
  induction ps with
  | nil => rfl
  | cons p ps ih =>
    obtain ⟨hp, hps⟩ := List.forall_mem_cons.mp hP
    rw [List.flatMap_cons, ih hps, List.filter_cons]
    split_ifs with hkept
    · rw [List.flatMap_cons]
    · rw [not_imp_comm.mp hp hkept, List.nil_append]

/-! ### Traces that agree -/

/-- Whether what a trace hands on is handed on by another one as well, as often, if that one comes to
its end. The order is left open. -/
def Within (φ : α → β) (t t' : Trace α) : Prop :=
  t'.Finishes → (t.items.map φ).Subperm (t'.items.map φ)

/-- Visiting members with what corresponds to them among others, between some that hand nothing
on. -/
theorem Within.visit_of_filter {γ ε : Type} {φ : α → γ} {χ : β → ε} {f f' : Nat → β → Trace α}
    {bs bs' : List β} {P Q : β → Bool}
    (h : ((bs.filter P).map χ).Subperm ((bs'.filter Q).map χ))
    (hP : ∀ i, ∀ b ∈ bs, (f i b).items ≠ [] → P b = true)
    (hQ : ∀ i, ∀ b ∈ bs', (f' i b).items ≠ [] → Q b = true)
    (hf : ∀ i i', ∀ b ∈ bs, ∀ b' ∈ bs', χ b = χ b' → (f i b).Within φ (f' i' b')) (i i' : Nat) :
    (visit f i bs).Within φ (visit f' i' bs') := by
  intro hend
  rw [visit_eq_bind] at hend ⊢
  rw [visit_eq_bind]
  obtain ⟨ht, hends⟩ := hend.of_bind
  rw [items_bind ht hends]
  refine ((items_bind_sublist _ _).map φ).subperm.trans ?_
  rw [items_foldr] at hends ⊢
  rw [items_foldr, flatMap_items_filter hP, flatMap_items_filter hQ, List.map_flatMap,
    List.map_flatMap]
  have hkept : ∀ (bs : List β) (P : β → Bool) (i : Nat),
      ((bs.zipIdx i).filter fun p => P p.1).map (fun p => χ p.1) = (bs.filter P).map χ := by
    intro bs P i
    conv_rhs => rw [← List.zipIdx_map_fst i bs, List.filter_map, List.map_map]
    rfl
  refine subperm_flatMap_of_map (φ := fun p => χ p.1) (ψ := fun p => χ p.1) ?_
    fun p hp p' hp' hpp' => ?_
  · rw [hkept, hkept]
    exact h
  · have hp := List.fst_mem_of_mem_zipIdx (List.mem_filter.mp hp).1
    obtain ⟨hp', -⟩ := List.mem_filter.mp hp'
    exact hf _ _ _ hp _ (List.fst_mem_of_mem_zipIdx hp') hpp' (hends p' hp')

/-- Whether two traces have the same items in some order, as far as `φ` tells, if both come to their
ends. -/
structure Agrees (φ : α → β) (t t' : Trace α) : Prop where
  within : t.Within φ t'
  contains : t'.Within φ t

namespace Agrees

variable {γ δ ε : Type} {φ : α → γ} {ψ : β → δ} {t t' u u' : Trace α}

theorem symm (h : t.Agrees φ t') : t'.Agrees φ t := ⟨h.contains, h.within⟩

/-- Two traces that agree and come to their ends. -/
theorem perm (h : t.Agrees φ t') (ht : t.Finishes) (ht' : t'.Finishes) :
    (t.items.map φ).Perm (t'.items.map φ) :=
  (h.within ht').antisymm (h.contains ht)

theorem stop : Agrees φ (.stop : Trace α) .stop := ⟨fun _ => .refl _, fun _ => .refl _⟩

theorem single {a a' : α} (h : φ a = φ a') : Agrees φ (single a) (Trace.single a') := by
  constructor <;> intro _ <;> simp [Trace.single, items, h]

theorem append (h : t.Agrees φ t') (hu : u.Agrees φ u') :
    (t.append u).Agrees φ (t'.append u') := by
  have hwithin : ∀ {t t' u u' : Trace α}, t.Within φ t' → u.Within φ u' →
      (t.append u).Within φ (t'.append u') := by
    intro t t' u u' h hu hend
    obtain ⟨ht, hu'⟩ := hend.of_append
    rw [items_append ht, List.map_append]
    refine ((items_append_sublist t u).map φ).subperm.trans ?_
    rw [List.map_append]
    exact (h ht).append (hu hu')
  exact ⟨hwithin h.within hu.within, hwithin h.contains hu.contains⟩

theorem bind {f f' : α → Trace β} (h : t.Agrees φ t')
    (hf : ∀ a ∈ t.items, ∀ a' ∈ t'.items, φ a = φ a' → (f a).Agrees ψ (f' a')) :
    (t.bind f).Agrees ψ (t'.bind f') := by
  have hwithin : ∀ {t t' : Trace α} {f f' : α → Trace β}, t.Within φ t' →
      (∀ a ∈ t.items, ∀ a' ∈ t'.items, φ a = φ a' → (f a).Within ψ (f' a')) →
      (t.bind f).Within ψ (t'.bind f') := by
    intro t t' f f' h hf hend
    obtain ⟨ht, hends⟩ := hend.of_bind
    rw [items_bind ht hends]
    refine ((items_bind_sublist t f).map ψ).subperm.trans ?_
    rw [List.map_flatMap, List.map_flatMap]
    exact subperm_flatMap_of_map (h ht) fun a ha a' ha' haa' => hf a ha a' ha' haa' (hends a' ha')
  exact ⟨hwithin h.within fun a ha a' ha' haa' => (hf a ha a' ha' haa').within,
    hwithin h.contains fun a' ha' a ha haa' => (hf a ha a' ha' haa'.symm).contains⟩

/-- Members that correspond may be visited in another order, between others that hand nothing
on. -/
theorem visit_of_filter {χ : β → ε} {f f' : Nat → β → Trace α} {bs bs' : List β} {P Q : β → Bool}
    (h : ((bs.filter P).map χ).Perm ((bs'.filter Q).map χ))
    (hP : ∀ i, ∀ b ∈ bs, (f i b).items ≠ [] → P b = true)
    (hQ : ∀ i, ∀ b ∈ bs', (f' i b).items ≠ [] → Q b = true)
    (hf : ∀ i i', ∀ b ∈ bs, ∀ b' ∈ bs', χ b = χ b' → (f i b).Agrees φ (f' i' b')) (i i' : Nat) :
    (visit f i bs).Agrees φ (Trace.visit f' i' bs') where
  within := .visit_of_filter h.subperm hP hQ
    (fun i i' b hb b' hb' hbb' => (hf i i' b hb b' hb' hbb').within) i i'
  contains := .visit_of_filter h.symm.subperm hQ hP
    (fun i' i b' hb' b hb hbb' => (hf i i' b hb b' hb' hbb'.symm).contains) i' i

/-- Members that correspond may be visited in another order. -/
theorem visit {χ : β → ε} {f f' : Nat → β → Trace α} {bs bs' : List β}
    (h : (bs.map χ).Perm (bs'.map χ))
    (hf : ∀ i i', ∀ b ∈ bs, ∀ b' ∈ bs', χ b = χ b' → (f i b).Agrees φ (f' i' b')) (i i' : Nat) :
    (visit f i bs).Agrees φ (Trace.visit f' i' bs') := by
  have hall : ∀ bs : List β, bs.filter (fun _ => true) = bs := fun bs =>
    List.filter_eq_self.mpr fun _ _ => rfl
  exact visit_of_filter (P := fun _ => true) (Q := fun _ => true) (by rwa [hall, hall])
    (fun _ _ _ _ => rfl) (fun _ _ _ _ => rfl) hf i i'

theorem orElse {a a' : α} (h : t.Agrees φ t') (ha : φ a = φ a') :
    (t.orElse a).Agrees φ (t'.orElse a') := by
  have hwithin : ∀ {t t' : Trace α} {a a' : α}, t.Agrees φ t' → φ a = φ a' →
      (t.orElse a).Within φ (t'.orElse a') := by
    intro t t' a a' h ha hend
    have hend' : t'.Finishes := by
      unfold Trace.orElse at hend
      split_ifs at hend
      · exact hend.of_append.1
      · exact hend
    by_cases ht : t.Finishes
    · -- Either both have items or none has, and then the same one is added.
      have hperm := h.perm ht hend'
      have hempty : t.items.isEmpty = t'.items.isEmpty := by
        rw [← List.isEmpty_map (f := φ), hperm.isEmpty_eq, List.isEmpty_map]
      unfold Trace.orElse at hend ⊢
      rw [hempty]
      split_ifs at hend ⊢
      · exact (append h (single ha)).within hend
      · exact hperm.subperm
    · have hcut : (t.orElse a).items = t.items := by
        unfold Trace.orElse
        split_ifs
        · exact items_append_of_not_finishes ht _
        · rfl
      have hsub : t'.items.Sublist (t'.orElse a').items := by
        unfold Trace.orElse
        split_ifs
        · rw [items_append hend']
          exact List.sublist_append_left _ _
        · exact .refl _
      rw [hcut]
      exact (h.within hend').trans (hsub.map φ).subperm
  exact ⟨hwithin h ha, hwithin h.symm ha.symm⟩

theorem ofBinding {x x' : Except QueryError (Option α)}
    (h : x.map (Option.map φ) = x'.map (Option.map φ)) :
    (ofBinding x).Agrees φ (Trace.ofBinding x') := by
  rcases x with e | _ | a <;> rcases x' with e' | _ | a' <;>
    simp only [Except.map, Option.map_none, Option.map_some, reduceCtorEq, Except.ok.injEq,
      Option.some.injEq] at h
  · exact ⟨fun hend => (by cases hend), fun hend => (by cases hend)⟩
  · exact .stop
  · exact .single h

/-- A trace for the value of each of two runs. -/
theorem ofMap {r : Run β} {r' : Run ε} {f : β → Trace α} {f' : ε → Trace α}
    (h : ∀ b b', r.outcome = .ok b → r'.outcome = .ok b' → (f b).Agrees φ (f' b')) :
    (ofRun (f <$> r)).Agrees φ (ofRun (f' <$> r')) := by
  have hwithin : ∀ {η ζ : Type} {r : Run η} {r' : Run ζ} {f : η → Trace α} {f' : ζ → Trace α},
      (∀ b b', r.outcome = .ok b → r'.outcome = .ok b' → (f b).Within φ (f' b')) →
      (ofRun (f <$> r)).Within φ (ofRun (f' <$> r')) := by
    intro η ζ r r' f f' h hend
    rw [finishes_ofRun, Run.outcome_map] at hend
    rw [items_ofRun, items_ofRun, Run.outcome_map, Run.outcome_map]
    cases hr' : r'.outcome with
    | error e =>
      rw [hr'] at hend
      cases hend
    | ok b' =>
      rw [hr'] at hend
      cases hr : r.outcome with
      | error e => exact List.nil_subperm
      | ok b => exact h b b' hr hr' hend
  exact ⟨hwithin fun b b' hb hb' => (h b b' hb hb').within,
    hwithin fun b' b hb' hb => (h b b' hb hb').contains⟩

end Agrees

/-! ### Whether there is an item -/

/-- The first item ends a search, or else the search ends as the trace does. -/
theorem outcome_first (t : Trace α) :
    (t.run (fun _ _ => pure (.done true)) false >>= fun found : ForInStep Bool =>
      (pure found.value : Run Bool)).outcome =
        if t.items.isEmpty then t.drain.outcome.map fun _ => false else .ok true := by
  induction t with
  | stop => rfl
  | fail e => rfl
  | event e t ih =>
    rw [run, bind_assoc, Run.outcome_bind, outcome_drain_event]
    exact ih
  | item a t ih => simp [run, items]

/-- A search that comes to its end without an item has seen the whole trace. -/
theorem of_outcome_first {found : Bool}
    (h : (t.run (fun _ _ => pure (.done true)) false >>= fun found : ForInStep Bool =>
      (pure found.value : Run Bool)).outcome = .ok found) :
    found = !t.items.isEmpty ∧ (t.items = [] → t.Finishes) := by
  rw [outcome_first] at h
  by_cases hnone : t.items.isEmpty = true
  · rw [if_pos hnone] at h
    cases hdrain : t.drain.outcome with
    | error e =>
      rw [hdrain] at h
      cases h
    | ok u =>
      rw [hdrain] at h
      rw [hnone, ← Except.ok.inj h]
      exact ⟨rfl, fun _ => succeeds_drain_iff.mp ⟨u, hdrain⟩⟩
  · rw [if_neg hnone] at h
    rw [← Except.ok.inj h, Bool.eq_false_iff.mpr hnone]
    exact ⟨rfl, fun hnil => (hnone (List.isEmpty_iff.mpr hnil)).elim⟩

theorem Agrees.run_first {φ : α → β} {t' : Trace α} (h : t.Agrees φ t') :
    Run.Agrees (t.run (fun _ _ => pure (.done true)) false >>= fun found => pure found.value)
      (t'.run (fun _ _ => pure (.done true)) false >>= fun found => pure found.value) := by
  have hnone : ∀ {t t' : Trace α}, t.Within φ t' → (t'.items = [] → t'.Finishes) →
      t'.items = [] → t.items = [] := by
    intro t t' h hend ht'
    have hsub := h (hend ht')
    rwa [ht', List.map_nil, List.subperm_nil, List.map_eq_nil_iff] at hsub
  intro b b' hb hb'
  obtain ⟨hvalue, hend⟩ := of_outcome_first hb
  obtain ⟨hvalue', hend'⟩ := of_outcome_first hb'
  rw [hvalue, hvalue']
  congr 1
  rw [Bool.eq_iff_iff, List.isEmpty_iff, List.isEmpty_iff]
  exact ⟨hnone h.contains hend, hnone h.within hend'⟩

end Trace

/-- Without a bound, a search ends as the trace of the body does and collects all items. -/
theorem Context.outcome_rawSolutions {c : Context} (hcap : c.source.options.limit = none) :
    c.rawSolutions.outcome = c.bodyTrace.drain.outcome.map fun _ =>
      { Solutions.ofQuery c.query with rows := c.bodyTrace.items.map (·.solution) } := by
  have hcapped : c.rawSolutions = (c.capped none).rawSolutions := by
    rw [← hcap]
    rfl
  have hcollect : collect none = fun env rows => pure (.yield (env.solution :: rows)) := rfl
  rw [hcapped, rawSolutions_eq_run, hcollect, Trace.run_collect, bind_assoc, Run.outcome_bind]
  cases c.bodyTrace.drain.outcome with
  | error e => rfl
  | ok u => simp [Except.bind, Except.map, ForInStep.value]

theorem Context.rows_rawSolutions {c : Context} {raw : Solutions}
    (hcap : c.source.options.limit = none) (h : c.rawSolutions.outcome = .ok raw) :
    c.bodyTrace.Finishes ∧ raw.rows = c.bodyTrace.items.map (·.solution) := by
  rw [outcome_rawSolutions hcap] at h
  cases hdrain : c.bodyTrace.drain.outcome with
  | error e =>
    rw [hdrain] at h
    cases h
  | ok u =>
    rw [hdrain] at h
    exact ⟨Trace.succeeds_drain_iff.mp ⟨u, hdrain⟩, by rw [← Except.ok.inj h]⟩

end GraphQuery
