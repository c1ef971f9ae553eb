import GraphQuery.Solution.Sequence
import Mathlib.Data.List.Basic
import Mathlib.Data.Set.Basic

/-! Sorting by an order that is total up to ties on what is sorted. An insertion goes behind what
ties with it, so the result is sorted and keeps the order of what ties. -/

namespace GraphQuery

variable {α β : Type}

/-- An order that is total up to ties on some things. -/
structure TotalOn (order : α → α → Ordering) (S : Set α) : Prop where
  swap : ∀ a ∈ S, ∀ b ∈ S, order b a = (order a b).swap
  trans : ∀ a ∈ S, ∀ b ∈ S, ∀ c ∈ S,
    (order a b).isLE → (order b c).isLE → (order a c).isLE

namespace TotalOn

variable {order : α → α → Ordering} {S T : Set α} {a b c : α}

theorem mono (h : TotalOn order S) (hT : T ⊆ S) : TotalOn order T where
  swap a ha b hb := h.swap a (hT ha) b (hT hb)
  trans a ha b hb c hc := h.trans a (hT ha) b (hT hb) c (hT hc)

theorem self (h : TotalOn order S) (ha : a ∈ S) : order a a = .eq := by
  have hs := h.swap a ha a ha
  cases ho : order a a <;> rw [ho] at hs <;> first | rfl | cases hs

theorem isLE_of_ne_lt (h : TotalOn order S) (ha : a ∈ S) (hb : b ∈ S) (hab : order a b ≠ .lt) :
    (order b a).isLE := by
  rw [h.swap a ha b hb]
  cases ho : order a b with
  | lt => exact absurd ho hab
  | eq | gt => rfl

theorem congr {order' : α → α → Ordering} (h : TotalOn order S)
    (heq : ∀ a ∈ S, ∀ b ∈ S, order' a b = order a b) : TotalOn order' S where
  swap a ha b hb := by rw [heq a ha b hb, heq b hb a ha, h.swap a ha b hb]
  trans a ha b hb c hc hab hbc := by
    rw [heq a ha b hb] at hab
    rw [heq b hb c hc] at hbc
    rw [heq a ha c hc]
    exact h.trans a ha b hb c hc hab hbc

/-- Things are ordered by what they are mapped to. -/
theorem comap {order : β → β → Ordering} {T : Set β} (h : TotalOn order T) {f : α → β}
    (hf : ∀ a ∈ S, f a ∈ T) : TotalOn (fun a b => order (f a) (f b)) S where
  swap a ha b hb := h.swap _ (hf a ha) _ (hf b hb)
  trans a ha b hb c hc := h.trans _ (hf a ha) _ (hf b hb) _ (hf c hc)

theorem reverse (h : TotalOn order S) : TotalOn (fun a b => order b a) S where
  swap a ha b hb := h.swap b hb a ha
  trans a ha b hb c hc hab hbc := h.trans c hc b hb a ha hbc hab

theorem swapped (h : TotalOn order S) : TotalOn (fun a b => (order a b).swap) S :=
  h.reverse.congr fun a ha b hb => (h.swap a ha b hb).symm

theorem lt_of_isLE_of_lt (h : TotalOn order S) (ha : a ∈ S) (hb : b ∈ S) (hc : c ∈ S)
    (hab : (order a b).isLE) (hbc : order b c = .lt) : order a c = .lt := by
  by_contra hac
  have hcb := h.trans c hc a ha b hb (h.isLE_of_ne_lt ha hc hac) hab
  rw [h.swap b hb c hc, hbc] at hcb
  cases hcb

theorem lt_of_lt_of_isLE (h : TotalOn order S) (ha : a ∈ S) (hb : b ∈ S) (hc : c ∈ S)
    (hab : order a b = .lt) (hbc : (order b c).isLE) : order a c = .lt := by
  by_contra hac
  have hba := h.trans b hb c hc a ha hbc (h.isLE_of_ne_lt ha hc hac)
  rw [h.swap a ha b hb, hab] at hba
  cases hba

theorem eq_comm (h : TotalOn order S) (ha : a ∈ S) (hb : b ∈ S) (hab : order a b = .eq) :
    order b a = .eq := by
  rw [h.swap a ha b hb, hab]
  rfl

theorem eq_trans (h : TotalOn order S) (ha : a ∈ S) (hb : b ∈ S) (hc : c ∈ S)
    (hab : order a b = .eq) (hbc : order b c = .eq) : order a c = .eq := by
  have hac := h.trans a ha b hb c hc (by rw [hab]; rfl) (by rw [hbc]; rfl)
  have hca := h.trans c hc b hb a ha (by rw [h.eq_comm hb hc hbc]; rfl)
    (by rw [h.eq_comm ha hb hab]; rfl)
  rw [h.swap a ha c hc] at hca
  cases ho : order a c with
  | lt => rw [ho] at hca; cases hca
  | eq => rfl
  | gt => rw [ho] at hac; cases hac

/-- The second order decides between what ties in the first one. -/
theorem andThen {first second : α → α → Ordering} (h₁ : TotalOn first S)
    (h₂ : TotalOn second S) : TotalOn (fun a b => (first a b).then (second a b)) S where
  swap a ha b hb := by rw [h₁.swap a ha b hb, h₂.swap a ha b hb, Ordering.swap_then]
  trans a ha b hb c hc hab hbc := by
    rw [Ordering.isLE_then_iff_or] at hab hbc ⊢
    rcases hab with hab | ⟨hab, hab'⟩ <;> rcases hbc with hbc | ⟨hbc, hbc'⟩
    · exact .inl (h₁.lt_of_lt_of_isLE ha hb hc hab (by rw [hbc]; rfl))
    · exact .inl (h₁.lt_of_lt_of_isLE ha hb hc hab (by rw [hbc]; rfl))
    · exact .inl (h₁.lt_of_isLE_of_lt ha hb hc (by rw [hab]; rfl) hbc)
    · exact .inr ⟨h₁.eq_trans ha hb hc hab hbc, h₂.trans a ha b hb c hc hab' hbc'⟩

end TotalOn

/-! ### Sorting -/

/-- One list is the other one in order, and what ties is in the order in which it was. -/
structure StablySorted (order : α → α → Ordering) (as bs : List α) : Prop where
  perm : bs.Perm as
  sorted : bs.Pairwise fun a b => (order a b).isLE
  stable : ∀ a ∈ as, bs.filter (order a · == .eq) = as.filter (order a · == .eq)

variable {order : α → α → Ordering} {a b : α} {as bs : List α}

theorem insertSorted_perm (order : α → α → Ordering) (a : α) (bs : List α) :
    (insertSorted order a bs).Perm (a :: bs) := by
  induction bs with
  | nil => exact .refl _
  | cons b bs ih =>
    rw [insertSorted]
    split
    · exact (ih.cons b).trans (.swap a b bs)
    · exact .refl _

theorem mem_insertSorted {c : α} : c ∈ insertSorted order a bs ↔ c = a ∨ c ∈ bs := by
  rw [(insertSorted_perm order a bs).mem_iff, List.mem_cons]

/-- An insertion into a list that is sorted backwards. -/
theorem insertSorted_sorted (h : TotalOn order {c | c ∈ a :: bs})
    (hs : bs.Pairwise fun b c => (order c b).isLE) :
    (insertSorted order a bs).Pairwise fun b c => (order c b).isLE := by
  induction bs with
  | nil => exact List.pairwise_singleton _ a
  | cons b bs ih =>
    obtain ⟨hb, hs⟩ := List.pairwise_cons.mp hs
    have ha : a ∈ {c | c ∈ a :: b :: bs} := List.mem_cons_self
    have hm : b ∈ {c | c ∈ a :: b :: bs} := List.mem_cons_of_mem a List.mem_cons_self
    rw [insertSorted]
    split
    next hab =>
      refine List.pairwise_cons.mpr ⟨fun c hc => ?_, ih (h.mono fun c hc => ?_) hs⟩
      · rcases mem_insertSorted.mp hc with rfl | hc
        · rw [hab]
          rfl
        · exact hb c hc
      · exact (List.mem_cons.mp hc).elim (· ▸ ha) fun hc =>
          List.mem_cons_of_mem a (List.mem_cons_of_mem b hc)
    next hab =>
      have hba := h.isLE_of_ne_lt ha hm hab
      refine List.pairwise_cons.mpr ⟨fun c hc => ?_, List.pairwise_cons.mpr ⟨hb, hs⟩⟩
      rcases List.mem_cons.mp hc with rfl | hc
      · exact hba
      · exact h.trans c (List.mem_cons_of_mem a (List.mem_cons_of_mem b hc)) b hm a ha (hb c hc) hba

/-- An insertion goes in front of all that ties with it; the list is sorted backwards. -/
theorem filter_insertSorted {c : α} (h : TotalOn order {d | d ∈ c :: a :: bs}) :
    (insertSorted order a bs).filter (order c · == .eq) =
      (a :: bs).filter (order c · == .eq) := by
  induction bs with
  | nil => rfl
  | cons b bs ih =>
    have hmem {d : α} (hd : d = c ∨ d = a ∨ d = b ∨ d ∈ bs) :
        d ∈ {d | d ∈ c :: a :: b :: bs} := by
      rcases hd with rfl | rfl | rfl | hd <;> simp [*]
    have ih := ih (h.mono fun d hd => hmem (by simp at hd; tauto))
    rw [insertSorted]
    split
    next hab =>
      rw [List.filter_cons, ih]
      -- What is passed over does not tie with what ties with the insertion.
      by_cases hca : order c a = .eq
      · have hcb := h.lt_of_isLE_of_lt (hmem (.inl rfl)) (hmem (.inr (.inl rfl)))
          (hmem (.inr (.inr (.inl rfl)))) (by rw [hca]; rfl) hab
        simp [hca, hcb]
      · simp [List.filter_cons, hca]
    next => rfl

theorem stableSort_perm (order : α → α → Ordering) (as : List α) :
    (stableSort order as).Perm as := by
  suffices H : ∀ bs : List α,
      (as.foldl (fun sorted a => insertSorted order a sorted) bs).Perm (as.reverse ++ bs) by
    have hp := H []
    rw [List.append_nil] at hp
    exact (List.reverse_perm _).trans (hp.trans (List.reverse_perm as))
  induction as with
  | nil => exact fun bs => .refl _
  | cons a as ih =>
    intro bs
    rw [List.foldl_cons, List.reverse_cons, List.append_assoc]
    exact (ih _).trans ((insertSorted_perm order a bs).append_left _)

theorem stablySorted_stableSort (h : TotalOn order {a | a ∈ as}) :
    StablySorted order as (stableSort order as) := by
  -- The list that has been built is sorted backwards; the invariant is carried from the left.
  suffices H : ∀ bs : List α, TotalOn order {a | a ∈ bs ++ as} →
      bs.Pairwise (fun b c => (order c b).isLE) →
      (as.foldl (fun sorted a => insertSorted order a sorted) bs).Pairwise
        (fun b c => (order c b).isLE) ∧
      ∀ a ∈ bs ++ as, (as.foldl (fun sorted a => insertSorted order a sorted) bs).filter
          (order a · == .eq) = (as.reverse ++ bs).filter (order a · == .eq) by
    obtain ⟨hs, hf⟩ := H [] h .nil
    refine ⟨stableSort_perm order as, List.pairwise_reverse.mpr hs, fun a ha => ?_⟩
    rw [stableSort, List.filter_reverse, hf a ha, List.append_nil, List.filter_reverse,
      List.reverse_reverse]
  clear h
  induction as with
  | nil => exact fun bs _ hs => ⟨hs, fun _ _ => rfl⟩
  | cons a as ih =>
    intro bs h hs
    have hsub : {c | c ∈ insertSorted order a bs ++ as} ⊆ {c | c ∈ bs ++ a :: as} := by
      intro c hc
      rcases List.mem_append.mp hc with hc | hc
      · rcases mem_insertSorted.mp hc with rfl | hc <;> simp [*]
      · simp [hc]
    obtain ⟨hs', hf⟩ := ih (insertSorted order a bs) (h.mono hsub)
      (insertSorted_sorted (h.mono fun c hc => by simp at hc ⊢; tauto) hs)
    rw [List.foldl_cons, List.reverse_cons, List.append_assoc]
    refine ⟨hs', fun c hc => ?_⟩
    have hc' : c ∈ insertSorted order a bs ++ as := by
      simp only [List.mem_append, List.mem_cons, mem_insertSorted] at hc ⊢
      tauto
    rw [hf c hc', List.filter_append, List.filter_append,
      filter_insertSorted (h.mono fun d hd => by
        rcases List.mem_cons.mp hd with rfl | hd
        · exact hc
        · simp at hd ⊢; tauto)]
    rfl

namespace StablySorted

variable {bs' : List α}

/-- There is only one way of sorting stably. -/
theorem eq (h : StablySorted order as bs) (h' : StablySorted order as bs')
    (ht : TotalOn order {a | a ∈ as}) : bs = bs' := by
  suffices H : ∀ bs bs' : List α, TotalOn order {a | a ∈ bs} → bs.Perm bs' →
      bs.Pairwise (fun a b => (order a b).isLE) → bs'.Pairwise (fun a b => (order a b).isLE) →
      (∀ a ∈ bs, bs.filter (order a · == .eq) = bs'.filter (order a · == .eq)) → bs = bs' by
    refine H bs bs' (ht.mono fun a ha => h.perm.mem_iff.mp ha) (h.perm.trans h'.perm.symm) h.sorted
      h'.sorted fun a ha => ?_
    have ha := h.perm.mem_iff.mp ha
    rw [h.stable a ha, h'.stable a ha]
  clear h h' ht
  intro bs
  induction bs with
  | nil => exact fun bs' _ hp _ _ _ => hp.nil_eq
  | cons b bs ih =>
    intro bs' ht hp hs hs' hf
    cases bs' with
    | nil => exact absurd hp.symm.nil_eq (List.cons_ne_nil b bs).symm
    | cons b' bs' =>
      have hb : b ∈ {a | a ∈ b :: bs} := List.mem_cons_self
      have hb' : b' ∈ {a | a ∈ b :: bs} := hp.mem_iff.mpr List.mem_cons_self
      -- Both heads come first, so they tie, and what ties is in the same order on both sides.
      have hle : (order b b').isLE := by
        rcases List.mem_cons.mp hb' with rfl | hm
        · rw [ht.self hb]
          rfl
        · exact (List.pairwise_cons.mp hs).1 b' hm
      have hle' : (order b' b).isLE := by
        rcases List.mem_cons.mp (hp.mem_iff.mp hb) with rfl | hm
        · rw [ht.self hb]
          rfl
        · exact (List.pairwise_cons.mp hs').1 b hm
      have htie : order b b' = .eq := by
        rw [ht.swap b hb b' hb'] at hle'
        cases ho : order b b' with
        | lt => rw [ho] at hle'; cases hle'
        | eq => rfl
        | gt => rw [ho] at hle; cases hle
      have hhead := hf b hb
      rw [List.filter_cons_of_pos (by rw [ht.self hb]; rfl),
        List.filter_cons_of_pos (by rw [htie]; rfl)] at hhead
      obtain rfl := (List.cons.inj hhead).1
      refine congrArg (b :: ·) (ih bs' (ht.mono fun a ha => List.mem_cons_of_mem b ha)
        (List.perm_cons b |>.mp hp) (List.pairwise_cons.mp hs).2 (List.pairwise_cons.mp hs').2
        fun a ha => ?_)
      have htail := hf a (List.mem_cons_of_mem b ha)
      rw [List.filter_cons, List.filter_cons] at htail
      split_ifs at htail
      · exact (List.cons.inj htail).2
      · exact htail

theorem eq_stableSort (h : StablySorted order as bs) (ht : TotalOn order {a | a ∈ as}) :
    bs = stableSort order as :=
  h.eq (stablySorted_stableSort ht) ht

/-- What is sorted stably has the same members, because each of them ties with itself. -/
theorem of_stable (ht : TotalOn order {a | a ∈ as}) (hmem : ∀ a ∈ bs, a ∈ as)
    (sorted : bs.Pairwise fun a b => (order a b).isLE)
    (stable : ∀ a ∈ as, bs.filter (order a · == .eq) = as.filter (order a · == .eq)) :
    StablySorted order as bs where
  perm := by
    classical
    refine List.perm_iff_count.mpr fun a => ?_
    by_cases ha : a ∈ as
    · have hself : (order a a == .eq) = true := by
        rw [ht.self ha]
        rfl
      rw [← List.count_filter (p := (order a · == .eq)) hself, stable a ha,
        List.count_filter (p := (order a · == .eq)) hself]
    · rw [List.count_eq_zero_of_not_mem ha, List.count_eq_zero_of_not_mem fun hb => ha (hmem a hb)]
  sorted := sorted
  stable := stable

end StablySorted

/-- What ties is left as it is. -/
theorem stableSort_of_tie (h : ∀ a b : α, order a b = .eq) (as : List α) :
    stableSort order as = as := by
  have ht : TotalOn order {a | a ∈ as} :=
    ⟨fun a _ b _ => by rw [h, h]; rfl, fun a _ b _ c _ _ _ => by rw [h]; rfl⟩
  have hs : StablySorted order as as :=
    ⟨.refl _, List.pairwise_of_forall fun a b => by rw [h]; rfl, fun _ _ => rfl⟩
  exact (hs.eq_stableSort ht).symm

theorem map_insertSorted {order : β → β → Ordering} (f : α → β) (a : α) (as : List α) :
    (insertSorted (fun a b => order (f a) (f b)) a as).map f =
      insertSorted order (f a) (as.map f) := by
  induction as with
  | nil => rfl
  | cons b as ih =>
    rw [insertSorted, List.map_cons, insertSorted]
    split
    · rw [List.map_cons, ih]
    · rfl

/-- Sorting by what is mapped to is sorting what is mapped to. -/
theorem map_stableSort {order : β → β → Ordering} (f : α → β) (as : List α) :
    (stableSort (fun a b => order (f a) (f b)) as).map f = stableSort order (as.map f) := by
  rw [stableSort, stableSort, List.map_reverse]
  congr 1
  suffices H : ∀ bs : List α,
      (as.foldl (fun sorted a => insertSorted (fun a b => order (f a) (f b)) a sorted) bs).map f =
        (as.map f).foldl (fun sorted a => insertSorted order a sorted) (bs.map f) from H []
  induction as with
  | nil => exact fun _ => rfl
  | cons a as ih =>
    intro bs
    rw [List.foldl_cons, ih, map_insertSorted]
    rfl

/-! ### Choosing -/

/-- Choosing over and over again leaves the least of all. -/
theorem TotalOn.isLE_foldl {pick : α → α → α} {S : Set α} (h : TotalOn order S)
    (hpick : ∀ a ∈ S, ∀ b ∈ S,
      pick a b ∈ S ∧ (order (pick a b) a).isLE ∧ (order (pick a b) b).isLE)
    (has : ∀ b ∈ as, b ∈ S) (ha : a ∈ S) :
    as.foldl pick a ∈ S ∧ ∀ b ∈ a :: as, (order (as.foldl pick a) b).isLE := by
  induction as generalizing a with
  | nil =>
    refine ⟨ha, fun b hb => ?_⟩
    rw [List.mem_singleton.mp hb, List.foldl_nil, h.self ha]
    rfl
  | cons b as ih =>
    have hb := has b List.mem_cons_self
    obtain ⟨hp, hpa, hpb⟩ := hpick a ha b hb
    obtain ⟨hmem, hle⟩ := ih (fun c hc => has c (List.mem_cons_of_mem b hc)) hp
    have hfirst := hle _ List.mem_cons_self
    refine ⟨hmem, fun c hc => ?_⟩
    rcases List.mem_cons.mp hc with rfl | hc
    · exact h.trans _ hmem _ hp _ ha hfirst hpa
    · rcases List.mem_cons.mp hc with rfl | hc
      · exact h.trans _ hmem _ hp _ hb hfirst hpb
      · exact hle c (List.mem_cons_of_mem _ hc)

end GraphQuery
