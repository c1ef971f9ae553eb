import GraphQuery.Proofs.Solution.Sorting
import Mathlib.Tactic

/-! Submitting solutions to a distinct sequence. Of those that project to the same, the first is
kept, so that the projections are what is left without repetitions. -/

namespace GraphQuery

section Lists

variable {α β : Type} [BEq β] {f : α → β}

omit [BEq β] in
/-- Repetitions that a map shows may be left out before it or after it. -/
theorem map_eraseDupsBy_comp (f : α → β) (r : β → β → Bool) (as : List α) :
    (as.eraseDupsBy fun a b => r (f a) (f b)).map f = (as.map f).eraseDupsBy r := by
  suffices H : ∀ bs : List α, (List.eraseDupsBy.loop (fun a b => r (f a) (f b)) as bs).map f =
      List.eraseDupsBy.loop r (as.map f) (bs.map f) from H []
  induction as with
  | nil => exact fun bs => by simp [List.eraseDupsBy.loop]
  | cons a as ih =>
    intro bs
    rw [List.map_cons, List.eraseDupsBy.loop, List.eraseDupsBy.loop, List.any_map]
    simp only [Function.comp_def]
    cases bs.any fun b => r (f a) (f b) with
    | true => exact ih bs
    | false => exact ih (a :: bs)

/-- Without repetitions of what it is mapped to, a list is mapped to a list without repetitions. -/
theorem map_eraseDupsBy (f : α → β) (as : List α) :
    (as.eraseDupsBy fun a b => f a == f b).map f = (as.map f).eraseDups :=
  map_eraseDupsBy_comp f (· == ·) as

omit [BEq β] in
theorem eraseDupsBy_congr_mem {r r' : α → α → Bool} {as : List α}
    (h : ∀ a ∈ as, ∀ b ∈ as, r a b = r' a b) : as.eraseDupsBy r = as.eraseDupsBy r' := by
  cases as with
  | nil => rfl
  | cons a as =>
    have hlength := List.length_filter_le (fun b => decide (r b a = false)) as
    have hfilter : as.filter (fun b => decide (r b a = false)) =
        as.filter fun b => decide (r' b a = false) :=
      List.filter_congr fun b hb => by rw [h b (List.mem_cons_of_mem a hb) a List.mem_cons_self]
    rw [List.eraseDupsBy_cons, List.eraseDupsBy_cons, ← hfilter,
      eraseDupsBy_congr_mem fun x hx y hy =>
        h x (List.mem_cons_of_mem a (List.mem_filter.mp hx).1) y
          (List.mem_cons_of_mem a (List.mem_filter.mp hy).1)]
termination_by as.length
decreasing_by
  have := List.length_filter_le (fun b => !r b a) as
  simp_all

theorem eraseDups_map_of_injOn [BEq α] [LawfulBEq α] [LawfulBEq β] {as : List α}
    (hf : ∀ a ∈ as, ∀ b ∈ as, f a = f b → a = b) : (as.map f).eraseDups = as.eraseDups.map f := by
  rw [← map_eraseDupsBy]
  refine congrArg (List.map f) (eraseDupsBy_congr_mem fun a ha b hb => ?_)
  rw [Bool.eq_iff_iff, beq_iff_eq, beq_iff_eq]
  exact ⟨hf a ha b hb, congrArg f⟩

/-- What is left out is the same whatever else there is. -/
theorem filter_eraseDupsBy [LawfulBEq β] {p : α → Bool} {as : List α}
    (hp : ∀ a ∈ as, ∀ b ∈ as, f a = f b → p a = p b) :
    (as.eraseDupsBy fun a b => f a == f b).filter p =
      (as.filter p).eraseDupsBy fun a b => f a == f b := by
  suffices H : ∀ as bs : List α, (∀ a ∈ as, ∀ b ∈ bs ++ as, f a = f b → p a = p b) →
      (List.eraseDupsBy.loop (fun a b => f a == f b) as bs).filter p =
        List.eraseDupsBy.loop (fun a b => f a == f b) (as.filter p) (bs.filter p) from
    H as [] hp
  clear hp
  intro as
  induction as with
  | nil => exact fun bs _ => by simp [List.eraseDupsBy.loop]
  | cons a as ih =>
    intro bs hp
    have hlater : ∀ c, (c ∈ bs ∨ c = a) → c ∈ bs ++ a :: as := fun c hc => by
      simpa using hc.imp_right .inl
    have hseen : p a = true →
        (bs.filter p).any (fun b => f a == f b) = bs.any fun b => f a == f b := fun hpa => by
      rw [Bool.eq_iff_iff, List.any_eq_true, List.any_eq_true]
      refine ⟨fun ⟨b, hb, hab⟩ => ⟨b, (List.mem_filter.mp hb).1, hab⟩, fun ⟨b, hb, hab⟩ => ?_⟩
      have hpb := hp a List.mem_cons_self b (hlater b (.inl hb)) (eq_of_beq hab)
      exact ⟨b, List.mem_filter.mpr ⟨hb, hpb ▸ hpa⟩, hab⟩
    have hrest : ∀ cs : List α, (∀ c ∈ cs, c ∈ bs ∨ c = a) →
        ∀ x ∈ as, ∀ b ∈ cs ++ as, f x = f b → p x = p b := fun cs hcs x hx b hb =>
      hp x (List.mem_cons_of_mem a hx) b <| (List.mem_append.mp hb).elim
        (fun hb => hlater b (hcs b hb))
        fun hb => List.mem_append_right bs (List.mem_cons_of_mem a hb)
    rw [List.eraseDupsBy.loop, List.filter_cons]
    cases hany : bs.any fun b => f a == f b with
    | true =>
      dsimp only
      rw [ih bs (hrest bs fun c hc => .inl hc)]
      split_ifs with hpa
      · rw [List.eraseDupsBy.loop, hseen hpa, hany]
      · rfl
    | false =>
      dsimp only
      rw [ih (a :: bs) (hrest (a :: bs) fun c hc => (List.mem_cons.mp hc).symm), List.filter_cons]
      split_ifs with hpa
      · rw [List.eraseDupsBy.loop, hseen hpa, hany]
      · rfl

theorem eraseDupsBy_sublist (r : α → α → Bool) (as : List α) : (as.eraseDupsBy r).Sublist as := by
  suffices H : ∀ as bs : List α,
      (List.eraseDupsBy.loop r as bs).Sublist (bs.reverse ++ as) from H as []
  intro as
  induction as with
  | nil => exact fun bs => by simp [List.eraseDupsBy.loop]
  | cons a as ih =>
    intro bs
    rw [List.eraseDupsBy.loop]
    cases bs.any (r a) with
    | true => exact (ih bs).trans ((List.sublist_cons_self a as).append_left _)
    | false => simpa using ih (a :: bs)

/-- Repetitions that tie may be left out before sorting or after it. -/
theorem StablySorted.eraseDupsBy [LawfulBEq β] {order : α → α → Ordering} {as bs : List α}
    (h : StablySorted order as bs) (ht : TotalOn order {a | a ∈ as})
    (htie : ∀ a ∈ as, ∀ b ∈ as, f a = f b → order a b = .eq) :
    StablySorted order (as.eraseDupsBy fun a b => f a == f b)
      (bs.eraseDupsBy fun a b => f a == f b) := by
  have hsub : ∀ {l : List α} {a : α}, a ∈ l.eraseDupsBy (fun a b => f a == f b) → a ∈ l :=
    fun ha => (eraseDupsBy_sublist _ _).subset ha
  have hclass : ∀ c ∈ as, ∀ a ∈ as, ∀ b ∈ as, f a = f b →
      (order c a == .eq) = (order c b == .eq) := fun c hc a ha b hb hab => by
    have hab := htie a ha b hb hab
    refine Bool.eq_iff_iff.mpr ⟨fun hca => ?_, fun hcb => ?_⟩
    · exact beq_iff_eq.mpr (ht.eq_trans hc ha hb (eq_of_beq hca) hab)
    · exact beq_iff_eq.mpr (ht.eq_trans hc hb ha (eq_of_beq hcb) (ht.eq_comm ha hb hab))
  have stable : ∀ c ∈ as, (bs.eraseDupsBy fun a b => f a == f b).filter (order c · == .eq) =
      (as.eraseDupsBy fun a b => f a == f b).filter (order c · == .eq) := fun c hc => by
    rw [filter_eraseDupsBy fun a ha b hb => hclass c hc a (h.perm.mem_iff.mp ha) b
        (h.perm.mem_iff.mp hb), h.stable c hc, filter_eraseDupsBy (hclass c hc)]
  refine .of_stable (ht.mono fun a ha => hsub ha) (fun b hb => ?_)
    (h.sorted.sublist (eraseDupsBy_sublist _ _)) fun c hc => stable c (hsub hc)
  -- A member that is left of the sorted list ties with itself, so it is left of the other one.
  have hb' := h.perm.mem_iff.mp (hsub hb)
  have hmem : b ∈ (bs.eraseDupsBy fun a b => f a == f b).filter (order b · == .eq) :=
    List.mem_filter.mpr ⟨hb, beq_iff_eq.mpr (ht.self hb')⟩
  rw [stable b hb'] at hmem
  exact (List.mem_filter.mp hmem).1

end Lists

namespace Solutions

variable {s : Solutions} {row : Solution}

theorem submit_of_mem (h : s.distinct = true) (hm : row.restrict s.projection ∈ s.seen) :
    s.submit row = (s, false) := by
  simp [submit, h, hm]

theorem submit_of_notMem (h : s.distinct = true) (hm : row.restrict s.projection ∉ s.seen) :
    s.submit row = ({ s with
      rows := s.rows ++ [row], seen := row.restrict s.projection :: s.seen }, true) := by
  simp [submit, h, hm]

/-- Whether two solutions have the same projection. -/
def projectAlike (s : Solutions) (a b : Solution) : Bool :=
  a.restrict s.projection == b.restrict s.projection

/-- Resubmission keeps the first of the solutions with the same projection. -/
theorem rows_resubmit (h : s.distinct = true) :
    s.resubmit.rows = s.rows.eraseDupsBy s.projectAlike := by
  -- What has been seen are the projections of the rows that have been kept, the latest first.
  suffices H : ∀ (rows kept : List Solution) (t : Solutions), t.distinct = true →
      t.projection = s.projection → t.rows = kept.reverse →
      t.seen = kept.map (·.restrict s.projection) →
      (t.submitAll rows).rows = List.eraseDupsBy.loop s.projectAlike rows kept from
    H s.rows [] s.clear h rfl rfl rfl
  intro rows
  induction rows with
  | nil => exact fun kept t _ _ hrows _ => hrows
  | cons r rows ih =>
    intro kept t hd hp hrows hseen
    have hcontains : t.seen.contains (r.restrict t.projection) =
        kept.any (s.projectAlike r) := by
      rw [hseen, hp, List.contains_eq_any_beq, List.any_map]
      rfl
    rw [submitAll, List.foldl_cons, List.eraseDupsBy.loop, submit, if_pos hd]
    dsimp only
    rw [hcontains]
    cases kept.any (s.projectAlike r) with
    | true => exact ih kept t hd hp hrows hseen
    | false =>
      refine ih (r :: kept) _ hd hp ?_ ?_
      · simp [hrows]
      · simp [hseen, hp]

theorem mem_of_mem_submitAll {rows : List Solution} {row : Solution}
    (h : row ∈ (s.submitAll rows).rows) : row ∈ s.rows ∨ row ∈ rows := by
  induction rows generalizing s with
  | nil => exact .inl h
  | cons r rows ih =>
    rcases ih h with h | h
    · unfold submit at h
      dsimp only at h
      split_ifs at h
      · exact .inl h
      all_goals exact (List.mem_append.mp h).imp_right (List.mem_append_left rows)
    · exact .inr (List.mem_cons_of_mem _ h)

/-- Submission changes the rows and what has been seen, and nothing else. -/
theorem exists_submitAll (s : Solutions) (rows : List Solution) :
    ∃ kept seen, s.submitAll rows = { s with rows := kept, seen } := by
  induction rows generalizing s with
  | nil => exact ⟨s.rows, s.seen, rfl⟩
  | cons r rows ih =>
    obtain ⟨kept, seen, h⟩ := ih (s.submit r).1
    refine ⟨kept, seen, h.trans ?_⟩
    unfold submit
    dsimp only
    split_ifs <;> rfl

theorem projection_submitAll (s : Solutions) (rows : List Solution) :
    (s.submitAll rows).projection = s.projection := by
  obtain ⟨kept, seen, h⟩ := s.exists_submitAll rows
  rw [h]

theorem distinct_submitAll (s : Solutions) (rows : List Solution) :
    (s.submitAll rows).distinct = s.distinct := by
  obtain ⟨kept, seen, h⟩ := s.exists_submitAll rows
  rw [h]

theorem vars_resubmit (s : Solutions) : s.resubmit.vars = s.vars := by
  obtain ⟨kept, seen, h⟩ := s.clear.exists_submitAll s.rows
  rw [resubmit, h]
  rfl

theorem projection_resubmit (s : Solutions) : s.resubmit.projection = s.projection :=
  projection_submitAll _ _

end Solutions

end GraphQuery
