import GraphQuery.Proofs.Evaluate.Grouping
import GraphQuery.Proofs.Solution.Sorting
import GraphQuery.Proofs.Solution.Submission

/-! Answers without groups. The solutions of the body are completed by columns, repetitions are left
out, keys are added, and then the rows are sorted and cut. -/

namespace GraphQuery

namespace Run

variable {α β : Type}

theorem forall₂_of_mapIdx {f : Nat → α → Run β} {as : List α} {bs : List β} {i : Nat}
    (h : (mapIdx f i as).outcome = .ok bs) :
    List.Forall₂ (fun a b => ∃ i, (f i a).outcome = .ok b) as bs := by
  induction as generalizing i bs with
  | nil =>
    rw [← Except.ok.inj h]
    exact .nil
  | cons a as ih =>
    obtain ⟨b, hb, h⟩ := outcome_bind_eq_ok h
    obtain ⟨bs', hbs, h⟩ := outcome_bind_eq_ok h
    rw [← Except.ok.inj h]
    exact .cons ⟨i, hb⟩ (ih hbs)

theorem exists_of_mem_mapIdx {f : Nat → α → Run β} {as : List α} {bs : List β} {i : Nat} {b : β}
    (h : (mapIdx f i as).outcome = .ok bs) (hb : b ∈ bs) :
    ∃ j, ∃ a ∈ as, (f j a).outcome = .ok b := by
  have hforall := forall₂_of_mapIdx h
  clear h
  induction hforall with
  | nil => cases hb
  | cons hhead _ ih =>
    obtain ⟨j, hj⟩ := hhead
    rcases List.mem_cons.mp hb with rfl | hb
    · exact ⟨j, _, List.mem_cons_self, hj⟩
    · obtain ⟨j, a, ha, hj⟩ := ih hb
      exact ⟨j, a, List.mem_cons_of_mem _ ha, hj⟩

/-- Runs whose values do not depend on the places of the members. -/
theorem eq_map_of_mapIdx {f : Nat → α → Run β} {g : α → β} {as : List α} {bs : List β} {i : Nat}
    (h : (mapIdx f i as).outcome = .ok bs)
    (hf : ∀ i, ∀ a ∈ as, ∀ b, (f i a).outcome = .ok b → b = g a) : bs = as.map g := by
  have hforall := forall₂_of_mapIdx h
  clear h
  induction hforall with
  | nil => rfl
  | cons hb _ ih =>
    obtain ⟨i, hb⟩ := hb
    rw [List.map_cons, hf i _ List.mem_cons_self _ hb,
      ih fun i a ha => hf i a (List.mem_cons_of_mem _ ha)]

end Run

namespace Solution

theorem restrict_of_slots {a b : Solution} (h : a.slots = b.slots) (slots : List Nat) :
    a.restrict slots = b.restrict slots := by
  unfold restrict get?
  rw [h]

end Solution

namespace Context

variable {c : Context} {raw selected ans : Solutions} {keyed : List Solution}

/-- The rows of a sequence, without those that project to the same as an earlier one if the query is
distinct. -/
def uniqueRows (c : Context) (s : Solutions) : List Solution :=
  if c.query.distinct then s.rows.eraseDupsBy s.projectAlike else s.rows

/-- Rows in the order of their keys. -/
def sortedRows (c : Context) (rows : List Solution) : List Solution :=
  if c.query.orderBy.isEmpty then rows else stableSort (compareRows c.query.orderBy) rows

theorem sortedRows_perm (c : Context) (rows : List Solution) : (c.sortedRows rows).Perm rows := by
  unfold sortedRows
  split_ifs
  · exact .refl _
  · exact stableSort_perm _ rows

/-- What an answer without groups is made of: the solutions of the body, those with columns, and
those that are left with their keys. -/
structure Completes (c : Context) (raw selected : Solutions) (keyed : List Solution)
    (ans : Solutions) : Prop where
  body : c.rawSolutions.outcome = .ok raw
  select : (c.selectRows raw).outcome = .ok selected
  keys : (Run.mapIdx (fun i s => c.keys s none i) 0 (c.uniqueRows selected)).outcome = .ok keyed
  selected_projection : selected.projection = c.query.projectedSlots
  projection : ans.projection = c.query.projectedSlots
  rows : ans.rows = (c.query.limit.map ((c.sortedRows keyed).drop c.query.offset).take).getD
    ((c.sortedRows keyed).drop c.query.offset)

theorem rawSolutions_ofQuery (h : c.rawSolutions.outcome = .ok raw) :
    raw = { Solutions.ofQuery c.query with rows := raw.rows } := by
  obtain ⟨rows, -, h⟩ := Run.outcome_bind_eq_ok h
  rw [← Except.ok.inj h]

theorem selectRows_ofQuery (hraw : raw = { Solutions.ofQuery c.query with rows := raw.rows })
    (h : (c.selectRows raw).outcome = .ok selected) :
    selected = { Solutions.ofQuery c.query with rows := selected.rows } := by
  unfold selectRows at h
  split_ifs at h
  · rwa [← Except.ok.inj h]
  · obtain ⟨kept, -, h⟩ := Run.outcome_bind_eq_ok h
    rw [← Except.ok.inj h, hraw]
    rfl

/-- An answer without groups is made in these steps. -/
theorem exists_completes (hagg : c.query.isAggregate = false) (h : c.answer.outcome = .ok ans) :
    ∃ raw selected keyed, c.Completes raw selected keyed ans := by
  obtain ⟨raw, hbody, h⟩ := Run.outcome_bind_eq_ok h
  obtain ⟨rows, hcomplete, h⟩ := Run.outcome_bind_eq_ok h
  obtain ⟨selected, hselect, hcomplete⟩ := Run.outcome_bind_eq_ok hcomplete
  obtain ⟨keyed, hkeys, hcomplete⟩ := Run.outcome_bind_eq_ok hcomplete
  rw [hagg, if_neg Bool.false_ne_true, pure_bind] at h
  have hselected := selectRows_ofQuery (rawSolutions_ofQuery hbody) hselect
  have hunique : (if c.query.distinct && !c.query.isAggregate then selected.resubmit
      else selected).rows = c.uniqueRows selected := by
    rw [hagg, Bool.not_false, Bool.and_true, uniqueRows]
    split_ifs with hd
    · exact Solutions.rows_resubmit (by rw [hselected]; exact hd)
    · rfl
  have hprojection : selected.projection = c.query.projectedSlots := by
    rw [hselected]
    rfl
  have hunmoved : (if c.query.distinct && !c.query.isAggregate then selected.resubmit
      else selected).projection = selected.projection := by
    split_ifs
    · exact selected.projection_resubmit
    · rfl
  refine ⟨raw, selected, keyed, hbody, hselect, hunique ▸ hkeys, hprojection, ?_, ?_⟩
  · rw [← Except.ok.inj h, ← Except.ok.inj hcomplete, ← hprojection]
    refine Eq.trans ?_ hunmoved
    dsimp only [Solutions.slice, Solutions.sortBy]
    split_ifs <;> rfl
  · rw [← Except.ok.inj h, ← Except.ok.inj hcomplete, sortedRows]
    dsimp only [Solutions.slice, Solutions.sortBy]
    split_ifs <;> rfl

namespace Completes

variable (h : c.Completes raw selected keyed ans)

include h

/-- Keys do not change what is projected. -/
theorem map_restrict_keyed (slots : List Nat) :
    keyed.map (·.restrict slots) = (c.uniqueRows selected).map (·.restrict slots) := by
  have hforall := Run.forall₂_of_mapIdx h.keys
  generalize c.uniqueRows selected = rows at hforall
  clear h
  induction hforall with
  | nil => rfl
  | cons hkeys _ ih =>
    obtain ⟨i, hkeys⟩ := hkeys
    rw [List.map_cons, List.map_cons, ih, Solution.restrict_of_slots (slots_of_keys hkeys)]

theorem map_restrict_uniqueRows :
    (c.uniqueRows selected).map (·.restrict c.query.projectedSlots) =
      if c.query.distinct then (selected.rows.map (·.restrict c.query.projectedSlots)).eraseDups
      else selected.rows.map (·.restrict c.query.projectedSlots) := by
  unfold uniqueRows
  split_ifs
  · rw [← map_eraseDupsBy]
    unfold Solutions.projectAlike
    rw [h.selected_projection]
  · rfl

/-- The projected rows of an answer that is not cut, up to their order. -/
theorem projected_perm (hoffset : c.query.offset = 0) (hlimit : c.query.limit = none) :
    (ans.rows.map (·.restrict ans.projection)).Perm
      (if c.query.distinct then (selected.rows.map (·.restrict c.query.projectedSlots)).eraseDups
        else selected.rows.map (·.restrict c.query.projectedSlots)) := by
  have hrows := h.rows
  rw [hoffset, hlimit, List.drop_zero, Option.map_none, Option.getD_none] at hrows
  rw [hrows, h.projection, ← h.map_restrict_uniqueRows, ← h.map_restrict_keyed]
  exact (c.sortedRows_perm keyed).map _

end Completes

end Context

end GraphQuery
