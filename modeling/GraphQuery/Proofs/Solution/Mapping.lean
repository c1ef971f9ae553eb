import GraphQuery.Query.Basic
import GraphQuery.Solution.Basic
import Mathlib.Data.Finmap
import Mathlib.Tactic

/-! Finite mappings from variables to terms, apart from the slots of a query. Two mappings may be
compatible, and one may be part of another. -/

namespace GraphQuery

abbrev Mapping := Finmap fun _ : Variable => Term

namespace Mapping

variable {μ ν ρ : Mapping} {v w : Variable} {t : Term}

@[simp] theorem lookup_union : (μ ∪ ν).lookup v = (μ.lookup v).or (ν.lookup v) := by
  by_cases h : v ∈ μ
  · rw [Finmap.lookup_union_left h]
    obtain ⟨t, ht⟩ := Finmap.mem_iff.mp h
    simp [ht]
  · rw [Finmap.lookup_union_right h, Finmap.lookup_eq_none.mpr h, Option.none_or]

theorem lookup_insert : (μ.insert v t).lookup w = if w = v then some t else μ.lookup w := by
  split
  next h => rw [h, Finmap.lookup_insert]
  next h => exact Finmap.lookup_insert_of_ne μ h

/-! ### Parts -/

/-- Whether a mapping agrees with another one on all that it binds. -/
def IsPart (μ ν : Mapping) : Prop := ∀ v t, μ.lookup v = some t → ν.lookup v = some t

theorem isPart_refl (μ : Mapping) : μ.IsPart μ := fun _ _ h => h

theorem IsPart.trans (h : μ.IsPart ν) (h' : ν.IsPart ρ) : μ.IsPart ρ :=
  fun v t hv => h' v t (h v t hv)

theorem isPart_empty (μ : Mapping) : IsPart ∅ μ := fun v t h => by simp at h

/-! ### Extensions -/

/-- Whether a mapping extends another one to some variables and to no others. -/
structure Extends (μ : Mapping) (vs : List Variable) (ν : Mapping) : Prop where
  isPart : μ.IsPart ν
  bound : ∀ v ∈ vs, v ∈ ν
  only : ∀ v ∈ ν, v ∈ μ ∨ v ∈ vs

theorem extends_nil (μ : Mapping) : μ.Extends [] μ := ⟨μ.isPart_refl, by simp, fun _ h => .inl h⟩

theorem Extends.trans {vs ws : List Variable} (h : μ.Extends vs ν) (h' : ν.Extends ws ρ) :
    μ.Extends (vs ++ ws) ρ where
  isPart := h.isPart.trans h'.isPart
  bound v hv := by
    rcases List.mem_append.mp hv with hv | hv
    · obtain ⟨t, ht⟩ := Finmap.mem_iff.mp (h.bound v hv)
      exact Finmap.mem_of_lookup_eq_some (h'.isPart v t ht)
    · exact h'.bound v hv
  only v hv := by
    rcases h'.only v hv with hv | hv
    · exact (h.only v hv).imp id (List.mem_append_left ws)
    · exact .inr (List.mem_append_right vs hv)

/-- An extension is determined by any mapping that it is a part of. -/
theorem Extends.eq_of_isPart {vs : List Variable} (h : μ.Extends vs ν) (h' : μ.Extends vs ρ)
    (hp : ν.IsPart ρ) : ν = ρ := by
  refine Finmap.ext_lookup fun v => ?_
  by_cases hv : v ∈ ν
  · obtain ⟨t, ht⟩ := Finmap.mem_iff.mp hv
    rw [ht, hp v t ht]
  · have hv' : v ∉ ρ := fun hρ => by
      rcases h'.only v hρ with hm | hm
      · obtain ⟨t, ht⟩ := Finmap.mem_iff.mp hm
        exact hv (Finmap.mem_of_lookup_eq_some (h.isPart v t ht))
      · exact hv (h.bound v hm)
    rw [Finmap.lookup_eq_none.mpr hv, Finmap.lookup_eq_none.mpr hv']

theorem Extends.congr {vs ws : List Variable} (h : μ.Extends vs ν) (hv : ∀ v, v ∈ vs ↔ v ∈ ws) :
    μ.Extends ws ν :=
  ⟨h.isPart, fun v hw => h.bound v ((hv v).mpr hw), fun v hν => (h.only v hν).imp id (hv v).mp⟩

/-! ### Places of patterns -/

/-- The canonical term that a place of a pattern stands for. -/
def term? (μ : Mapping) : NodePattern → Option Term
  | .const t => some t.canonical
  | .var v => μ.lookup v

theorem IsPart.term (h : μ.IsPart ν) {n : NodePattern} (ht : μ.term? n = some t) :
    ν.term? n = some t := by
  cases n with
  | const u => exact ht
  | var v => exact h v t ht

/-! ### Compatible mappings -/

/-- Whether two mappings agree on every variable that both bind. -/
def Compatible (μ ν : Mapping) : Prop := ∀ v ∈ μ.keys, v ∈ ν → μ.lookup v = ν.lookup v

instance : Decidable (Compatible μ ν) :=
  inferInstanceAs (Decidable (∀ v ∈ μ.keys, v ∈ ν → μ.lookup v = ν.lookup v))

/-- Whether some variable is bound by both mappings. -/
def SharesVariable (μ ν : Mapping) : Prop := ∃ v ∈ μ.keys, v ∈ ν

instance : Decidable (SharesVariable μ ν) := inferInstanceAs (Decidable (∃ v ∈ μ.keys, v ∈ ν))

theorem compatible_iff : μ.Compatible ν ↔
    ∀ v t u, μ.lookup v = some t → ν.lookup v = some u → t = u := by
  constructor
  · intro h v t u ht hu
    have := h v (Finmap.mem_keys.mpr (Finmap.mem_of_lookup_eq_some ht))
      (Finmap.mem_of_lookup_eq_some hu)
    rw [ht, hu] at this
    exact Option.some.inj this
  · intro h v hv hv'
    obtain ⟨t, ht⟩ := Finmap.mem_iff.mp (Finmap.mem_keys.mp hv)
    obtain ⟨u, hu⟩ := Finmap.mem_iff.mp hv'
    rw [ht, hu, h v t u ht hu]

theorem sharesVariable_iff : μ.SharesVariable ν ↔
    ∃ v t u, μ.lookup v = some t ∧ ν.lookup v = some u := by
  simp only [SharesVariable, Finmap.mem_keys, Finmap.mem_iff]
  constructor
  · rintro ⟨v, ⟨t, ht⟩, u, hu⟩
    exact ⟨v, t, u, ht, hu⟩
  · rintro ⟨v, t, u, ht, hu⟩
    exact ⟨v, ⟨t, ht⟩, u, hu⟩

@[simp] theorem empty_compatible (μ : Mapping) : Compatible ∅ μ := by
  simp [compatible_iff]

theorem Compatible.isPart_union (h : μ.Compatible ν) : ν.IsPart (μ ∪ ν) := by
  intro v t ht
  rw [lookup_union]
  cases hu : μ.lookup v with
  | none => simpa using ht
  | some u => simp [compatible_iff.mp h v u t hu ht]

theorem isPart_union (μ ν : Mapping) : μ.IsPart (μ ∪ ν) := fun v t ht => by
  simp [ht]

theorem Compatible.of_isPart (hμ : μ.IsPart ρ) (hν : ν.IsPart ρ) : μ.Compatible ν :=
  compatible_iff.mpr fun v t u ht hu =>
    Option.some.inj ((hμ v t ht).symm.trans (hν v u hu))

/-! ### Joins -/

/-- The mapping that binds all that two compatible mappings bind. -/
def join? (μ ν : Mapping) : Option Mapping := if μ.Compatible ν then some (μ ∪ ν) else none

theorem join_eq_some : μ.join? ν = some ρ ↔ μ.Compatible ν ∧ μ ∪ ν = ρ := by
  simp [join?]

@[simp] theorem empty_join (μ : Mapping) : join? ∅ μ = some μ := by
  rw [join_eq_some]
  exact ⟨empty_compatible μ, Finmap.empty_union⟩

theorem lookup_singleton :
    Finmap.lookup w (Finmap.singleton v t : Mapping) = if w = v then some t else none :=
  lookup_insert (μ := ∅)

theorem join_singleton_of_bound {u : Term} (h : μ.lookup v = some t) :
    μ.join? (Finmap.singleton v u) = if t = u then some μ else none := by
  split
  next ht =>
    rw [join_eq_some, compatible_iff]
    refine ⟨fun w x y hx hy => ?_, Finmap.ext_lookup fun w => ?_⟩
    · rw [lookup_singleton] at hy
      split_ifs at hy with hw
      rw [hw, h] at hx
      rw [← Option.some.inj hx, ← Option.some.inj hy, ht]
    · rw [lookup_union, lookup_singleton]
      split_ifs with hw
      · rw [hw, h, Option.some_or]
      · exact Option.or_none
  next ht =>
    rw [join?, if_neg]
    exact fun hc => ht (compatible_iff.mp hc v t u h Finmap.lookup_singleton_eq)

theorem join_singleton_of_free (h : μ.lookup v = none) :
    μ.join? (Finmap.singleton v t) = some (μ.insert v t) := by
  rw [join_eq_some, compatible_iff]
  refine ⟨fun w x y hx hy => ?_, Finmap.ext_lookup fun w => ?_⟩
  · rw [lookup_singleton] at hy
    split_ifs at hy with hw
    rw [hw, h] at hx
    cases hx
  · rw [lookup_union, lookup_singleton, lookup_insert]
    split_ifs with hw
    · rw [hw, h, Option.none_or]
    · exact Option.or_none

/-- Joins can be nested to either side. -/
theorem join_assoc (μ ν ρ : Mapping) :
    (ν.join? ρ).bind (μ.join? ·) = (μ.join? ν).bind (·.join? ρ) := by
  refine Option.ext fun τ => ?_
  simp only [Option.bind_eq_some_iff, join_eq_some]
  constructor
  · rintro ⟨_, ⟨hνρ, rfl⟩, hμ, rfl⟩
    have hp := hμ.isPart_union
    have hμν : μ.Compatible ν :=
      .of_isPart (isPart_union μ _) ((isPart_union ν ρ).trans hp)
    refine ⟨_, ⟨hμν, rfl⟩, compatible_iff.mpr fun v t u ht hu => ?_, Finmap.union_assoc⟩
    have ht' : (μ ∪ (ν ∪ ρ)).lookup v = some t := by
      rw [← Finmap.union_assoc]
      exact isPart_union _ ρ v t ht
    exact Option.some.inj (ht'.symm.trans ((hνρ.isPart_union.trans hp) v u hu))
  · rintro ⟨_, ⟨hμν, rfl⟩, hρ, rfl⟩
    have hp := hρ.isPart_union
    have hl := isPart_union (μ ∪ ν) ρ
    have hνρ : ν.Compatible ρ := .of_isPart (hμν.isPart_union.trans hl) hp
    refine ⟨_, ⟨hνρ, rfl⟩, compatible_iff.mpr fun v t u ht hu => ?_, Finmap.union_assoc.symm⟩
    have ht' := hl v t (isPart_union μ ν v t ht)
    rw [lookup_union] at hu
    cases hn : ν.lookup v with
    | none =>
      rw [hn, Option.none_or] at hu
      exact Option.some.inj (ht'.symm.trans (hp v u hu))
    | some w =>
      rw [hn, Option.some_or] at hu
      exact Option.some.inj (ht'.symm.trans (hl v u (hμν.isPart_union v u (hn.trans hu))))

/-! ### Restrictions -/

/-- What a mapping binds among some variables. -/
def restrict (vs : List Variable) (μ : Mapping) : Mapping :=
  (vs.filterMap fun v => (μ.lookup v).map (Sigma.mk v)).toFinmap

theorem lookup_restrict (vs : List Variable) :
    (μ.restrict vs).lookup v = if v ∈ vs then μ.lookup v else none := by
  rw [restrict, Finmap.dlookup_list_toFinmap]
  induction vs with
  | nil => rfl
  | cons w vs ih =>
    by_cases hvw : v = w
    · subst hvw
      cases hμ : μ.lookup v with
      | none => simpa [hμ] using ih
      | some t => simp [hμ]
    · cases hμ : μ.lookup w with
      | none => simpa [hμ, hvw] using ih
      | some t => simpa [hμ, List.dlookup_cons_ne, hvw] using ih

/-- An extension with a property of the new variables alone is a join with such a mapping. -/
theorem extends_iff_join {vs : List Variable} {P : Mapping → Prop}
    (hP : ∀ μ ν : Mapping, (∀ v ∈ vs, μ.lookup v = ν.lookup v) → (P μ ↔ P ν)) :
    μ.Extends vs ρ ∧ P ρ ↔ ∃ ν, (Extends ∅ vs ν ∧ P ν) ∧ μ.join? ν = some ρ := by
  constructor
  · rintro ⟨hx, hp⟩
    have hl : ∀ v ∈ vs, (ρ.restrict vs).lookup v = ρ.lookup v := fun v hv => by
      rw [lookup_restrict, if_pos hv]
    have hpart : (ρ.restrict vs).IsPart ρ := fun v t ht => by
      rw [lookup_restrict] at ht
      split_ifs at ht
      exact ht
    refine ⟨ρ.restrict vs, ⟨⟨isPart_empty _, fun v hv => ?_, fun v hv => .inr ?_⟩, ?_⟩, ?_⟩
    · obtain ⟨t, ht⟩ := Finmap.mem_iff.mp (hx.bound v hv)
      exact Finmap.mem_of_lookup_eq_some ((hl v hv).trans ht)
    · obtain ⟨t, ht⟩ := Finmap.mem_iff.mp hv
      rw [lookup_restrict] at ht
      split_ifs at ht with hv
      exact hv
    · exact (hP _ _ hl).mpr hp
    · refine join_eq_some.mpr ⟨.of_isPart hx.isPart hpart, Finmap.ext_lookup fun v => ?_⟩
      rw [lookup_union]
      cases hμ : μ.lookup v with
      | some t => rw [hx.isPart v t hμ, Option.some_or]
      | none =>
        rw [Option.none_or, lookup_restrict]
        split_ifs with hv
        · rfl
        · have hn : v ∉ μ := Finmap.lookup_eq_none.mp hμ
          have hρ : v ∉ ρ := fun hρ => (hx.only v hρ).elim hn hv
          exact (Finmap.lookup_eq_none.mpr hρ).symm
  · rintro ⟨ν, ⟨hx, hp⟩, hj⟩
    obtain ⟨hc, rfl⟩ := join_eq_some.mp hj
    have hl : ∀ v ∈ vs, ν.lookup v = (μ ∪ ν).lookup v := fun v hv => by
      obtain ⟨t, ht⟩ := Finmap.mem_iff.mp (hx.bound v hv)
      rw [ht, hc.isPart_union v t ht]
    refine ⟨⟨isPart_union μ ν, fun v hv => ?_, fun v hv => ?_⟩, (hP _ _ hl).mp hp⟩
    · exact Finmap.mem_union.mpr (.inr (hx.bound v hv))
    · refine (Finmap.mem_union.mp hv).imp id fun hν => ?_
      exact (hx.only v hν).resolve_left Finmap.notMem_empty

/-! ### One more binding -/

variable {vs ws : List Variable}

theorem insert_erase (hv : ν.lookup v = some t) : (ν.erase v).insert v t = ν := by
  refine Finmap.ext_lookup fun w => ?_
  rw [lookup_insert]
  split_ifs with hw
  · rw [hw, hv]
  · exact Finmap.lookup_erase_ne hw

theorem erase_insert (hv : v ∉ μ) : (μ.insert v t).erase v = μ := by
  refine Finmap.ext_lookup fun w => ?_
  by_cases hw : w = v
  · rw [hw, Finmap.lookup_erase, Finmap.lookup_eq_none.mpr hv]
  · rw [Finmap.lookup_erase_ne hw, lookup_insert, if_neg hw]

/-- What extends a mapping with one more binding is that binding beside what extends the mapping. -/
theorem extends_insert_iff (hv : v ∉ μ) (hw : ∀ w, w ∈ ws ↔ w ∈ vs ∧ w ≠ v) :
    Extends (μ.insert v t) vs ν ↔ ∃ ρ, μ.Extends ws ρ ∧ ρ.insert v t = ν := by
  constructor
  · intro hx
    have hlookup : ν.lookup v = some t := hx.isPart v t (Finmap.lookup_insert μ)
    refine ⟨ν.erase v, ⟨fun w u hu => ?_, fun w hm => ?_, fun w hm => ?_⟩, insert_erase hlookup⟩
    · have hne : w ≠ v := fun h => hv (h ▸ Finmap.mem_of_lookup_eq_some hu)
      rw [Finmap.lookup_erase_ne hne]
      exact hx.isPart w u (by rwa [lookup_insert, if_neg hne])
    · obtain ⟨hm, hne⟩ := (hw w).mp hm
      exact Finmap.mem_erase.mpr ⟨hne, hx.bound w hm⟩
    · obtain ⟨hne, hm⟩ := Finmap.mem_erase.mp hm
      rcases hx.only w hm with hm | hm
      · exact .inl ((Finmap.mem_insert.mp hm).resolve_left hne)
      · exact .inr ((hw w).mpr ⟨hm, hne⟩)
  · rintro ⟨ρ, hx, rfl⟩
    refine ⟨fun w u hu => ?_, fun w hm => ?_, fun w hm => ?_⟩
    · rw [lookup_insert] at hu ⊢
      split_ifs at hu ⊢ with hwv
      · exact hu
      · exact hx.isPart w u hu
    · rw [Finmap.mem_insert]
      by_cases hwv : w = v
      · exact .inl hwv
      · exact .inr (hx.bound w ((hw w).mpr ⟨hm, hwv⟩))
    · rw [Finmap.mem_insert] at hm ⊢
      rcases hm with rfl | hm
      · exact .inl (.inl rfl)
      · exact (hx.only w hm).imp .inr fun hm => ((hw w).mp hm).1

/-- Extending to a variable is extending a binding of that variable. -/
theorem extends_insert_of_mem (hv : v ∉ μ) (hm : v ∈ vs) :
    Extends (μ.insert v t) vs ν ↔ μ.Extends vs ν ∧ ν.lookup v = some t := by
  constructor
  · intro hx
    refine ⟨⟨fun w u hu => hx.isPart w u ?_, hx.bound, fun w hw => ?_⟩,
      hx.isPart v t (Finmap.lookup_insert μ)⟩
    · have hne : w ≠ v := fun h => hv (h ▸ Finmap.mem_of_lookup_eq_some hu)
      rwa [lookup_insert, if_neg hne]
    · rcases hx.only w hw with hw | hw
      · refine (Finmap.mem_insert.mp hw).symm.imp id ?_
        rintro rfl
        exact hm
      · exact .inr hw
  · rintro ⟨hx, ht⟩
    refine ⟨fun w u hu => ?_, hx.bound, fun w hw => ?_⟩
    · rw [lookup_insert] at hu
      split_ifs at hu with hwv
      · rw [hwv, ht, hu]
      · exact hx.isPart w u hu
    · exact (hx.only w hw).imp (fun hw => Finmap.mem_insert.mpr (.inr hw)) id

/-- Mappings with one more binding each are compatible if both they and the bindings agree. -/
theorem compatible_insert_iff {u : Term} (hμ : v ∉ μ) (hν : v ∉ ν) :
    Compatible (μ.insert v t) (ν.insert v u) ↔ t = u ∧ μ.Compatible ν := by
  simp only [compatible_iff, lookup_insert]
  constructor
  · intro hc
    refine ⟨hc v t u (if_pos rfl) (if_pos rfl), fun w x y hx hy => hc w x y ?_ ?_⟩
    · rwa [if_neg]
      exact fun h => hμ (h ▸ Finmap.mem_of_lookup_eq_some hx)
    · rwa [if_neg]
      exact fun h => hν (h ▸ Finmap.mem_of_lookup_eq_some hy)
  · rintro ⟨rfl, hc⟩ w x y hx hy
    split_ifs at hx hy
    · exact Option.some.inj (hx.symm.trans hy)
    · exact hc w x y hx hy

end Mapping

end GraphQuery
