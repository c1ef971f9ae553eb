import GraphQuery.Evaluate.Run
import Mathlib.Tactic

/-! Laws of runs. A run that goes through a list until a step asks to stop goes through its parts
one after the other, so nested visits flatten to one visit of the joined lists. -/

namespace GraphQuery.Run

variable {α β σ : Type}

theorem ext {r r' : Run α} (he : r.events = r'.events) (ho : r.outcome = r'.outcome) : r = r' := by
  cases r
  cases r'
  simp_all

instance : LawfulMonad Run := LawfulMonad.mk' Run
  (by
    rintro α ⟨events, outcome⟩
    cases outcome
    · rfl
    · exact ext (List.append_nil _) rfl)
  (by
    intro α β a f
    exact ext (List.nil_append _) rfl)
  (by
    rintro α β γ ⟨events, outcome⟩ f g
    cases outcome with
    | error e => rfl
    | ok a =>
      change andThen (andThen _ f) g = andThen _ fun a => andThen (f a) g
      simp only [andThen]
      cases (f a).outcome
      · rfl
      · exact ext (List.append_assoc _ _ _) rfl)

@[simp] theorem ofExcept_ok (a : α) : ofExcept (.ok a) = (pure a : Run α) := rfl

@[simp] theorem ofExcept_pure (a : α) : ofExcept (pure a) = (pure a : Run α) := rfl

@[simp] theorem outcome_pure (a : α) : (pure a : Run α).outcome = .ok a := rfl

theorem pure_injective {a b : α} (h : (pure a : Run α) = pure b) : a = b :=
  Except.ok.inj (congrArg outcome h)

theorem outcome_bind (r : Run α) (f : α → Run β) :
    (r >>= f).outcome = r.outcome.bind fun a => (f a).outcome := by
  change (andThen r f).outcome = _
  unfold andThen
  cases r.outcome <;> rfl

/-- The value of a run that does not fail. -/
theorem outcome_bind_eq_ok {r : Run α} {f : α → Run β} {b : β}
    (h : (r >>= f).outcome = .ok b) : ∃ a, r.outcome = .ok a ∧ (f a).outcome = .ok b := by
  rw [outcome_bind] at h
  cases ho : r.outcome with
  | error e => rw [ho] at h; cases h
  | ok a => exact ⟨a, rfl, by rwa [ho] at h⟩

theorem outcome_bind_of_ok {r : Run α} {f : α → Run β} {a : α} (h : r.outcome = .ok a) :
    (r >>= f).outcome = (f a).outcome := by
  rw [outcome_bind, h]
  rfl

theorem outcome_map (f : α → β) (r : Run α) : (f <$> r).outcome = r.outcome.map f := by
  rw [map_eq_pure_bind, outcome_bind]
  cases r.outcome <;> rfl

theorem outcome_map_eq_ok {r : Run α} {f : α → β} {b : β} (h : (f <$> r).outcome = .ok b) :
    ∃ a, r.outcome = .ok a ∧ f a = b := by
  rw [map_eq_pure_bind] at h
  obtain ⟨a, ha, h⟩ := outcome_bind_eq_ok h
  exact ⟨a, ha, Except.ok.inj h⟩

theorem bind_eq_bind {r r' : Run α} {f f' : α → Run β} (h : r = r') (hf : ∀ a, f a = f' a) :
    r >>= f = r' >>= f' := by
  rw [h]
  exact bind_congr hf

/-! ### Relations -/

/-- A relation between runs that is kept by going on in related ways with what the first one results
in. -/
structure Congruence (R : ∀ α : Type, Run α → Run α → Prop) : Prop where
  pure : ∀ {α : Type} (a : α), R α (pure a) (pure a)
  bind : ∀ {α β : Type} {r r' : Run α} {f f' : α → Run β}, R α r r' →
    (∀ a, r.outcome = .ok a → R β (f a) (f' a)) → R β (r >>= f) (r' >>= f')

namespace Congruence

variable {R : ∀ α : Type, Run α → Run α → Prop}

theorem mapIdx (hR : Congruence R) {f f' : Nat → α → Run β} {as : List α}
    (h : ∀ i, ∀ a ∈ as, R β (f i a) (f' i a)) (i : Nat) :
    R (List β) (mapIdx f i as) (mapIdx f' i as) := by
  induction as generalizing i with
  | nil => exact hR.pure _
  | cons a as ih =>
    exact hR.bind (h i a (by simp)) fun b _ =>
      hR.bind (ih (fun j b hb => h j b (by simp [hb])) (i + 1)) fun bs _ => hR.pure _

theorem visit (hR : Congruence R) {f f' : Nat → α → σ → Run (ForInStep σ)} {as : List α}
    (h : ∀ i, ∀ a ∈ as, ∀ s, R (ForInStep σ) (f i a s) (f' i a s)) (i : Nat) (s : σ) :
    R (ForInStep σ) (visit f i as s) (visit f' i as s) := by
  induction as generalizing i s with
  | nil => exact hR.pure _
  | cons a as ih =>
    refine hR.bind (h i a (by simp) s) fun step _ => ?_
    cases step with
    | done s => exact hR.pure _
    | yield s => exact ih (fun j b hb => h j b (by simp [hb])) (i + 1) s

end Congruence

theorem bind_congr_of_ok {r : Run α} {f f' : α → Run β} (h : ∀ a, r.outcome = .ok a → f a = f' a) :
    r >>= f = r >>= f' := by
  change andThen r f = andThen r f'
  unfold andThen
  cases ho : r.outcome with
  | error e => rfl
  | ok a => simp only [h a ho]

theorem congruence_eq : Congruence fun _ => Eq where
  pure _ := rfl
  bind h hf := by
    rw [← h]
    exact bind_congr_of_ok hf

/-- Two runs that do not fail, make no events and have the same value. -/
def Same (r r' : Run α) : Prop := ∃ a, r = pure a ∧ r' = pure a

theorem Same.eq {r r' : Run α} (h : Same r r') : r = r' := by
  obtain ⟨a, rfl, rfl⟩ := h
  rfl

theorem congruence_same : Congruence fun _ => Same where
  pure a := ⟨a, rfl, rfl⟩
  bind h hf := by
    obtain ⟨a, rfl, rfl⟩ := h
    rw [pure_bind, pure_bind]
    exact hf a rfl

/-- Whether two runs fail alike, or have values that are related. -/
def Corresponds (R : α → β → Prop) (r : Run α) (r' : Run β) : Prop :=
  match r.outcome, r'.outcome with
  | .ok a, .ok b => R a b
  | .error e, .error e' => e = e'
  | _, _ => False

namespace Corresponds

variable {γ δ : Type} {R : α → β → Prop} {S : γ → δ → Prop} {r : Run α} {r' : Run β}

theorem pure {a : α} {b : β} (h : R a b) : Corresponds R (pure a) (Pure.pure b) := h

theorem of_eq {r' : Run α} (h : r.outcome = r'.outcome) : Corresponds Eq r r' := by
  unfold Corresponds
  rw [h]
  cases r'.outcome <;> rfl

/-- Runs that correspond have the same error or related values. -/
theorem cases (h : Corresponds R r r') :
    (∃ e, r.outcome = .error e ∧ r'.outcome = .error e) ∨
      ∃ a b, r.outcome = .ok a ∧ r'.outcome = .ok b ∧ R a b := by
  unfold Corresponds at h
  rcases ha : r.outcome with e | a <;> rcases hb : r'.outcome with e' | b <;> rw [ha, hb] at h
  · obtain rfl : e = e' := h
    exact .inl ⟨e, rfl, rfl⟩
  · exact h.elim
  · exact h.elim
  · exact .inr ⟨a, b, rfl, rfl, h⟩

theorem bind {f : α → Run γ} {f' : β → Run δ} (h : Corresponds R r r')
    (hf : ∀ a b, R a b → Corresponds S (f a) (f' b)) : Corresponds S (r >>= f) (r' >>= f') := by
  unfold Corresponds
  rw [outcome_bind, outcome_bind]
  rcases h.cases with ⟨e, ha, hb⟩ | ⟨a, b, ha, hb, hab⟩
  · rw [ha, hb]
    exact rfl
  · rw [ha, hb]
    exact hf a b hab

theorem mono {R' : α → β → Prop} (h : Corresponds R r r') (hR : ∀ a b, R a b → R' a b) :
    Corresponds R' r r' := by
  unfold Corresponds
  rcases h.cases with ⟨e, ha, hb⟩ | ⟨a, b, ha, hb, hab⟩
  · rw [ha, hb]
  · rw [ha, hb]
    exact hR a b hab

theorem map_outcome {φ : α → γ} {ψ : β → γ} (h : Corresponds (fun a b => φ a = ψ b) r r') :
    r.outcome.map φ = r'.outcome.map ψ := by
  rcases h.cases with ⟨e, ha, hb⟩ | ⟨a, b, ha, hb, hab⟩
  · rw [ha, hb]
    rfl
  · rw [ha, hb]
    exact congrArg Except.ok hab

theorem of_map {φ : α → γ} {ψ : β → γ} (h : r.outcome.map φ = r'.outcome.map ψ) :
    Corresponds (fun a b => φ a = ψ b) r r' := by
  unfold Corresponds
  rcases ha : r.outcome with e | a <;> rcases hb : r'.outcome with e' | b <;> rw [ha, hb] at h
  · exact Except.error.inj h
  · cases h
  · cases h
  · exact Except.ok.inj h

end Corresponds

/-! ### Visiting a list -/

/-- Goes on with a second visit unless the first asked to stop. -/
def proceed (r : Run (ForInStep σ)) (k : σ → Run (ForInStep σ)) : Run (ForInStep σ) := do
  match ← r with
  | .done s => pure (.done s)
  | .yield s => k s

@[simp] theorem proceed_yield (s : σ) (k : σ → Run (ForInStep σ)) :
    proceed (pure (.yield s)) k = k s := by
  simp [proceed]

@[simp] theorem proceed_done (s : σ) (k : σ → Run (ForInStep σ)) :
    proceed (pure (.done s)) k = pure (.done s) := by
  simp [proceed]

@[simp] theorem proceed_pure (r : Run (ForInStep σ)) : proceed r (fun s => pure (.yield s)) = r := by
  conv_rhs => rw [← bind_pure r]
  exact bind_congr fun step => by cases step <;> rfl

theorem proceed_assoc (r : Run (ForInStep σ)) (k l : σ → Run (ForInStep σ)) :
    proceed (proceed r k) l = proceed r fun s => proceed (k s) l := by
  unfold proceed
  rw [bind_assoc]
  refine bind_congr fun step => ?_
  cases step with
  | done s => exact pure_bind _ _
  | yield s => rfl

theorem bind_proceed (r : Run α) (f : α → Run (ForInStep σ)) (k : σ → Run (ForInStep σ)) :
    proceed (r >>= f) k = r >>= fun a => proceed (f a) k := by
  unfold proceed
  exact bind_assoc _ _ _

/-- Hands the members of a list to a step until it asks to stop. -/
def each (next : α → σ → Run (ForInStep σ)) : List α → σ → Run (ForInStep σ)
  | [], s => pure (.yield s)
  | a :: as, s => proceed (next a s) (each next as)

variable {next : α → σ → Run (ForInStep σ)}

@[simp] theorem each_nil (s : σ) : each next [] s = pure (.yield s) := rfl

theorem each_cons (a : α) (as : List α) (s : σ) :
    each next (a :: as) s = proceed (next a s) (each next as) := rfl

@[simp] theorem each_singleton (a : α) (s : σ) : each next [a] s = next a s := proceed_pure _

theorem each_append (l m : List α) (s : σ) :
    each next (l ++ m) s = proceed (each next l s) (each next m) := by
  induction l generalizing s with
  | nil => simp
  | cons a as ih =>
    rw [List.cons_append, each_cons, each_cons, proceed_assoc]
    exact congrArg _ (funext ih)

theorem each_congr {f g : α → σ → Run (ForInStep σ)} {l : List α} (h : ∀ a ∈ l, ∀ s, f a s = g a s)
    (s : σ) : each f l s = each g l s := by
  induction l generalizing s with
  | nil => rfl
  | cons a as ih =>
    rw [each_cons, each_cons, h a (by simp) s]
    exact congrArg _ (funext fun s => ih (fun b hb => h b (by simp [hb])) s)

theorem each_flatMap {next : β → σ → Run (ForInStep σ)} (f : α → List β) (l : List α) (s : σ) :
    each next (l.flatMap f) s = each (fun a => each next (f a)) l s := by
  induction l generalizing s with
  | nil => rfl
  | cons a as ih =>
    rw [List.flatMap_cons, each_append, each_cons]
    exact congrArg _ (funext ih)

theorem visit_congr {f g : Nat → α → σ → Run (ForInStep σ)} {l : List α}
    (h : ∀ i, ∀ a ∈ l, ∀ s, f i a s = g i a s) (i : Nat) (s : σ) : visit f i l s = visit g i l s := by
  induction l generalizing i s with
  | nil => rfl
  | cons a as ih =>
    rw [visit, visit, h i a (by simp) s]
    refine bind_congr fun step => ?_
    cases step with
    | done s => rfl
    | yield s => exact ih (fun j b hb => h j b (by simp [hb])) (i + 1) s

/-- A visit with places is a visit of the list of members and places. -/
theorem visit_eq_each (f : Nat → α → σ → Run (ForInStep σ)) (l : List α) (i : Nat) (s : σ) :
    visit f i l s = each (fun p => f p.2 p.1) (l.zipIdx i) s := by
  induction l generalizing i s with
  | nil => rfl
  | cons a as ih =>
    rw [List.zipIdx_cons, each_cons]
    refine bind_congr fun step => ?_
    cases step with
    | done s => rfl
    | yield s => exact ih (i + 1) s

/-- A visit that passes at most one thing on for each member. -/
theorem visit_eq_each_filterMap {next : β → σ → Run (ForInStep σ)}
    {f : Nat → α → σ → Run (ForInStep σ)} (g : Nat → α → Option β) (l : List α)
    (h : ∀ i, ∀ a ∈ l, ∀ s, f i a s = each next (g i a).toList s) (i : Nat) (s : σ) :
    visit f i l s = each next ((l.zipIdx i).filterMap fun p => g p.2 p.1) s := by
  rw [visit_eq_each, List.filterMap_eq_flatMap_toList, each_flatMap]
  refine each_congr (fun p hp s => ?_) s
  exact h p.2 p.1 (List.fst_mem_of_mem_zipIdx hp) s

theorem mapIdx_congr {f g : Nat → α → Run β} {as : List α} (h : ∀ i, ∀ a ∈ as, f i a = g i a)
    (i : Nat) : mapIdx f i as = mapIdx g i as := by
  induction as generalizing i with
  | nil => rfl
  | cons a as ih =>
    rw [mapIdx, mapIdx, h i a (by simp), ih fun j b hb => h j b (by simp [hb])]

theorem mapIdx_pure {f : Nat → α → Run β} {g : α → β} {as : List α}
    (h : ∀ i, ∀ a ∈ as, f i a = pure (g a)) (i : Nat) : mapIdx f i as = pure (as.map g) := by
  induction as generalizing i with
  | nil => rfl
  | cons a as ih =>
    rw [mapIdx, h i a List.mem_cons_self, pure_bind,
      ih fun j b hb => h j b (List.mem_cons_of_mem a hb), pure_bind]
    rfl

theorem mapIdx_map {γ : Type} (f : Nat → β → Run γ) (g : α → β) (as : List α) (i : Nat) :
    mapIdx f i (as.map g) = mapIdx (fun i a => f i (g a)) i as := by
  induction as generalizing i with
  | nil => rfl
  | cons a as ih => rw [List.map_cons, mapIdx, mapIdx, ih]

theorem map_mapIdx {γ : Type} (g : β → γ) (f : Nat → α → Run β) (as : List α) (i : Nat) :
    List.map g <$> mapIdx f i as = mapIdx (fun i a => g <$> f i a) i as := by
  induction as generalizing i with
  | nil => rfl
  | cons a as ih =>
    rw [mapIdx, mapIdx, map_bind, bind_map_left]
    refine bind_congr fun b => ?_
    rw [← ih, map_bind, bind_map_left]
    rfl

/-- Mapping makes one result for each member, in order. -/
theorem outcome_mapIdx {f : Nat → α → Run β} {as : List α} {bs : List β} {i : Nat}
    (h : (mapIdx f i as).outcome = .ok bs) :
    bs.length = as.length ∧
      ∀ j a, as[j]? = some a → ∃ b, bs[j]? = some b ∧ (f (i + j) a).outcome = .ok b := by
  induction as generalizing i bs with
  | nil =>
    rw [← Except.ok.inj h]
    exact ⟨rfl, fun j a ha => by simp at ha⟩
  | cons a as ih =>
    obtain ⟨b, hb, h⟩ := outcome_bind_eq_ok h
    obtain ⟨bs', hbs, h⟩ := outcome_bind_eq_ok h
    obtain ⟨hlen, hget⟩ := ih hbs
    rw [← Except.ok.inj h]
    refine ⟨congrArg (· + 1) hlen, fun j a' ha => ?_⟩
    cases j with
    | zero =>
      obtain rfl := Option.some.inj ha
      exact ⟨b, rfl, hb⟩
    | succ j =>
      obtain ⟨b', hb', hf⟩ := hget j a' ha
      exact ⟨b', hb', by rwa [show i + (j + 1) = i + 1 + j by omega]⟩

theorem outcome_mapIdx_of_ok {f : Nat → α → Run β} {as : List α} {bs : List β} {i : Nat}
    (hl : bs.length = as.length)
    (h : ∀ j a b, as[j]? = some a → bs[j]? = some b → (f (i + j) a).outcome = .ok b) :
    (mapIdx f i as).outcome = .ok bs := by
  induction as generalizing i bs with
  | nil => rw [List.length_eq_zero_iff.mp hl]; rfl
  | cons a as ih =>
    cases bs with
    | nil => cases hl
    | cons b bs =>
      have hrest := ih (i := i + 1) (Nat.succ.inj hl) fun j a' b' ha hb => by
        rw [show i + 1 + j = i + (j + 1) by omega]
        exact h (j + 1) a' b' ha hb
      exact (outcome_bind_of_ok (h 0 a b rfl rfl)).trans (outcome_bind_of_ok hrest)

end GraphQuery.Run
