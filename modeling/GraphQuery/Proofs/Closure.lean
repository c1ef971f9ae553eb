import GraphQuery.Closure
import GraphQuery.Proofs.Evaluate.Environment
import GraphQuery.Proofs.Solution.Submission

/-! What a closure finds. If there is a round for each thing that can be found, everything that
steps lead to is found, each thing once, also where the steps go round in circles. -/

namespace GraphQuery

section Closure

variable {α : Type} [BEq α] {step : α → List α} {n : Nat} {found frontier : List α} {a b : α}

/-- What a round finds that had not been found before. -/
def discovered (step : α → List α) (found frontier : List α) : List α :=
  ((frontier.flatMap step).eraseDups).filter (!found.contains ·)

/-- One round of a closure. -/
theorem closure_succ : closure step (n + 1) found frontier =
    if discovered step found frontier = [] then found
    else closure step n (found ++ discovered step found frontier)
      (discovered step found frontier) := by
  rw [closure, ← discovered]
  split
  next h => rw [if_pos h]
  next h => rw [if_neg h]

theorem subset_closure : found ⊆ closure step n found frontier := by
  induction n generalizing found frontier with
  | zero => exact List.Subset.refl _
  | succ n ih =>
    rw [closure_succ]
    split_ifs
    · exact List.Subset.refl _
    · exact List.Subset.trans (List.subset_append_left _ _) ih

variable [LawfulBEq α]

theorem mem_discovered :
    b ∈ discovered step found frontier ↔ (∃ a ∈ frontier, b ∈ step a) ∧ b ∉ found := by
  simp [discovered]

/-- A step from one thing to another. -/
def Steps (step : α → List α) (a b : α) : Prop := b ∈ step a

/-- Nothing is found but by steps from the frontier. -/
theorem reached_of_mem_closure (hb : b ∈ closure step n found frontier) :
    b ∈ found ∨ ∃ a ∈ frontier, Relation.TransGen (Steps step) a b := by
  induction n generalizing found frontier with
  | zero => exact .inl hb
  | succ n ih =>
    rw [closure_succ] at hb
    have hnew : ∀ c ∈ discovered step found frontier, ∃ a ∈ frontier, Steps step a c :=
      fun c hc => (mem_discovered.mp hc).1
    split_ifs at hb
    · exact .inl hb
    · rcases ih hb with hb | ⟨c, hc, hcb⟩
      · refine (List.mem_append.mp hb).imp id fun hb => ?_
        obtain ⟨a, ha, hab⟩ := hnew b hb
        exact ⟨a, ha, .single hab⟩
      · obtain ⟨a, ha, hac⟩ := hnew c hc
        exact .inr ⟨a, ha, .head hac hcb⟩

theorem closure_subset {all : List α} (hall : ∀ a ∈ all, step a ⊆ all) (hf : found ⊆ all)
    (hs : frontier ⊆ all) : closure step n found frontier ⊆ all := by
  intro b hb
  rcases reached_of_mem_closure hb with hb | ⟨a, ha, hab⟩
  · exact hf hb
  · clear hb
    induction hab with
    | single hab => exact hall a (hs ha) hab
    | tail _ hbc ih => exact hall _ ih hbc

theorem nodup_append_discovered (hf : found.Nodup) :
    (found ++ discovered step found frontier).Nodup := by
  refine hf.append ((nodup_eraseDups _).filter _) fun a ha hb => ?_
  exact (mem_discovered.mp hb).2 ha

theorem nodup_closure (hf : found.Nodup) : (closure step n found frontier).Nodup := by
  induction n generalizing found frontier with
  | zero => exact hf
  | succ n ih =>
    rw [closure_succ]
    split_ifs
    · exact hf
    · exact ih (nodup_append_discovered hf)

/-- A search in progress among `all` that can be found, with rounds enough left: the steps from all
that has been found are found, except from the frontier. -/
structure Searching (step : α → List α) (all : List α) (n : Nat) (found frontier : List α) :
    Prop where
  nodup : found.Nodup
  found_subset : found ⊆ all
  frontier_subset : frontier ⊆ all
  rounds : all.length < n + found.length
  stepped : ∀ a ∈ found, a ∈ frontier ∨ step a ⊆ found

variable {all : List α}

theorem Searching.next (hall : ∀ a ∈ all, step a ⊆ all)
    (h : Searching step all (n + 1) found frontier) (hne : discovered step found frontier ≠ []) :
    Searching step all n (found ++ discovered step found frontier)
      (discovered step found frontier) where
  nodup := nodup_append_discovered h.nodup
  found_subset := by
    refine List.append_subset.mpr ⟨h.found_subset, fun b hb => ?_⟩
    obtain ⟨⟨a, ha, hab⟩, -⟩ := mem_discovered.mp hb
    exact hall a (h.frontier_subset ha) hab
  frontier_subset b hb := by
    obtain ⟨⟨a, ha, hab⟩, -⟩ := mem_discovered.mp hb
    exact hall a (h.frontier_subset ha) hab
  rounds := by
    have hrounds := h.rounds
    have hpos := List.length_pos_iff.mpr hne
    rw [List.length_append]
    omega
  stepped a ha := by
    rcases List.mem_append.mp ha with ha | ha
    · refine .inr fun b hab => ?_
      rw [List.mem_append, mem_discovered]
      by_cases hb : b ∈ found
      · exact .inl hb
      · rcases h.stepped a ha with hf | hs
        · exact .inr ⟨⟨a, hf, hab⟩, hb⟩
        · exact .inl (hs hab)
    · exact .inl ha

omit [BEq α] [LawfulBEq α] in
/-- There is no room for so many things without a repetition. -/
theorem Searching.not_zero (h : Searching step all 0 found frontier) : False := by
  have hle := (h.nodup.subperm h.found_subset).length_le
  have hlt := h.rounds
  omega

/-- More rounds find nothing more. -/
theorem Searching.closure_add (hall : ∀ a ∈ all, step a ⊆ all)
    (h : Searching step all n found frontier) (k : Nat) :
    closure step (n + k) found frontier = closure step n found frontier := by
  induction n generalizing found frontier with
  | zero => exact h.not_zero.elim
  | succ n ih =>
    rw [Nat.add_right_comm, closure_succ, closure_succ]
    split_ifs with hnew
    · rfl
    · exact ih (h.next hall hnew)

/-- In the end the steps from all that has been found are found. -/
theorem Searching.closed (hall : ∀ a ∈ all, step a ⊆ all)
    (h : Searching step all n found frontier)
    (ha : a ∈ closure step n found frontier ∨ a ∈ frontier) :
    step a ⊆ closure step n found frontier := by
  induction n generalizing found frontier with
  | zero => exact h.not_zero.elim
  | succ n ih =>
    rw [closure_succ] at ha ⊢
    have hstep : ∀ a, a ∈ found ∨ a ∈ frontier → ∀ b ∈ step a,
        b ∈ found ∨ b ∈ discovered step found frontier := by
      intro a ha b hab
      by_cases hb : b ∈ found
      · exact .inl hb
      · have hf : a ∈ frontier := by
          rcases ha with ha | ha
          · exact (h.stepped a ha).resolve_right fun hs => hb (hs hab)
          · exact ha
        exact .inr (mem_discovered.mpr ⟨⟨a, hf, hab⟩, hb⟩)
    split_ifs at ha ⊢ with hnew
    · intro b hab
      have := hstep a ha b hab
      rw [hnew] at this
      exact this.resolve_right List.not_mem_nil
    · by_cases hf : a ∈ frontier
      · intro b hab
        exact subset_closure (List.mem_append.mpr (hstep a (.inr hf) b hab))
      · exact ih (h.next hall hnew) (.inl (ha.resolve_right hf))

/-- From a start that is found itself, everything is found that any number of steps leads to. -/
theorem mem_closure_self (hall : ∀ a ∈ all, step a ⊆ all) (ha : a ∈ all) (hn : all.length < n + 1) :
    b ∈ closure step n [a] [a] ↔ Relation.ReflTransGen (Steps step) a b := by
  have hs : Searching step all n [a] [a] :=
    ⟨List.nodup_singleton a, by simpa using ha, by simpa using ha, hn, by simp⟩
  constructor
  · intro hb
    rcases reached_of_mem_closure hb with hb | ⟨c, hc, hcb⟩
    · rw [List.mem_singleton.mp hb]
    · rw [List.mem_singleton.mp hc] at hcb
      exact hcb.to_reflTransGen
  · intro hab
    induction hab with
    | refl => exact subset_closure List.mem_cons_self
    | tail _ hbc ih => exact hs.closed hall (.inl ih) hbc

/-- From a start that is not found yet, everything is found that at least one step leads to. -/
theorem mem_closure_of_start (hall : ∀ a ∈ all, step a ⊆ all) (ha : a ∈ all) (hn : all.length < n) :
    b ∈ closure step n [] [a] ↔ Relation.TransGen (Steps step) a b := by
  have hs : Searching step all n [] [a] :=
    ⟨List.nodup_nil, List.nil_subset _, by simpa using ha, hn, by simp⟩
  constructor
  · intro hb
    rcases reached_of_mem_closure hb with hb | ⟨c, hc, hcb⟩
    · cases hb
    · rwa [List.mem_singleton.mp hc] at hcb
  · intro hab
    induction hab with
    | single hab => exact hs.closed hall (.inr List.mem_cons_self) hab
    | tail _ hbc ih => exact hs.closed hall (.inl ih) hbc

/-! ### Images -/

section Images

variable {β : Type} [BEq β] [LawfulBEq β] {f : α → β} {step' : β → List β}
  (hf : Function.Injective f) (hstep : ∀ a, step' (f a) = (step a).map f)

include hf hstep

theorem discovered_map : discovered step' (found.map f) (frontier.map f) =
    (discovered step found frontier).map f := by
  have hflat : (frontier.map f).flatMap step' = (frontier.flatMap step).map f := by
    rw [List.flatMap_map, List.map_flatMap]
    exact congrArg (List.flatMap · frontier) (funext hstep)
  have hnew : ∀ a, (found.map f).contains (f a) = found.contains a := fun a => by
    rw [Bool.eq_iff_iff, List.contains_iff_mem, List.contains_iff_mem, List.mem_map_of_injective hf]
  rw [discovered, discovered, hflat, eraseDups_map_of_injOn fun _ _ _ _ h => hf h, List.filter_map]
  exact congrArg (fun p => (List.filter p _).map f) (funext fun a => congrArg not (hnew a))

/-- A closure finds the images of what it finds, if steps lead from images to images. -/
theorem closure_map : closure step' n (found.map f) (frontier.map f) =
    (closure step n found frontier).map f := by
  induction n generalizing found frontier with
  | zero => rfl
  | succ n ih =>
    rw [closure_succ, closure_succ, discovered_map hf hstep, ← List.map_append, ih,
      apply_ite (List.map f)]
    exact if_congr List.map_eq_nil_iff rfl rfl

end Images

end Closure

end GraphQuery
