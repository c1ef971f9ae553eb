import GraphQuery.Proofs.Evaluate.Accord
import GraphQuery.Proofs.Evaluate.Tuning

/-! Distinct queries. A distinct query has the rows of the same query that is not distinct, less
those whose projections were there before. Rows without groups are left out before they get their
keys, rows of groups after their conditions have been tested. -/

namespace GraphQuery

namespace Solutions

variable {s d p : Solutions}

/-- The rows as far as they are projected. -/
def projectedRows (s : Solutions) : List (List (Option Term)) := s.rows.map (·.restrict s.projection)

theorem projectedRows_resubmit (h : s.distinct = true) :
    s.resubmit.projectedRows = s.projectedRows.eraseDups := by
  unfold projectedRows
  rw [rows_resubmit h, projection_resubmit, ← map_eraseDupsBy]
  rfl

/-- The same rows in a sequence that is distinct and in one that is not. -/
structure Twins (d p : Solutions) : Prop where
  eq : d = { p with distinct := true }
  plain : p.distinct = false

namespace Twins

variable (h : Twins d p)

include h

theorem distinct : d.distinct = true := by rw [h.eq]

theorem projectedRows_eq : d.projectedRows = p.projectedRows := by
  rw [h.eq]
  rfl

theorem rows_eq : d.rows = p.rows := by rw [h.eq]

theorem withRows (rows : List Solution) :
    Twins { d.clear with rows } { p.clear with rows } :=
  ⟨by rw [h.eq]; rfl, h.plain⟩

theorem projectedRows_resubmit : d.resubmit.projectedRows = p.projectedRows.eraseDups := by
  rw [Solutions.projectedRows_resubmit h.distinct, h.projectedRows_eq]

/-- Rows that are submitted to both are kept by one of them, and only once by the other one. -/
theorem projectedRows_submitAll (rows : List Solution) :
    (d.clear.submitAll rows).projectedRows = (p.clear.submitAll rows).projectedRows.eraseDups := by
  have hd : d.clear.submitAll rows = Solutions.resubmit { d.clear with rows } := rfl
  have hplain : p.clear.distinct = false := h.plain
  have hp : (p.clear.submitAll rows).projectedRows =
      Solutions.projectedRows { p.clear with rows } := by
    unfold projectedRows
    rw [projection_submitAll, Context.rows_submitAll hplain]
    rfl
  rw [hd, hp, (h.withRows rows).projectedRows_resubmit]

end Twins

end Solutions

namespace Context

open Solutions (Twins)

variable {c : Context} {d p : Solutions}

/-- The same evaluation for a query that is distinct or not. -/
def distinctly (c : Context) (distinct : Bool) : Context :=
  c.tuned c.source.options.limit distinct

theorem rawSolutions_distinctly :
    ((c.distinctly true).rawSolutions).Corresponds Twins (c.distinctly false).rawSolutions := by
  unfold rawSolutions
  refine (Run.Corresponds.of_eq ?_).bind fun rows rows' h => .pure ?_
  · rw [distinctly, distinctly, solutions_tuned, solutions_tuned]
    rfl
  · subst h
    exact ⟨rfl, rfl⟩

theorem selectRows_distinctly (h : Twins d p) :
    ((c.distinctly true).selectRows d).Corresponds Twins ((c.distinctly false).selectRows p) := by
  have hselect : ∀ distinct, (c.distinctly distinct).query.select = c.query.select := fun _ => rfl
  unfold selectRows
  rw [hselect, hselect]
  split_ifs
  · exact .pure h
  · refine (Run.Corresponds.of_eq ?_).bind fun kept kept' hkept => .pure ?_
    · simp only [distinctly, select_tuned, h.rows_eq]
    · subst hkept
      exact h.withRows _

/-! ### Groups -/

/-- Rows are not left out before they are grouped. -/
theorem complete_distinctly_of_groups (hagg : c.query.isAggregate = true) (h : Twins d p) :
    ((c.distinctly true).complete d).Corresponds Twins ((c.distinctly false).complete p) := by
  have hkept : ∀ distinct (s : Solutions), (if (c.distinctly distinct).query.distinct &&
      !(c.distinctly distinct).query.isAggregate then s.resubmit else s) = s := fun distinct s => by
    have hagg : (c.distinctly distinct).query.isAggregate = true := hagg
    simp [hagg]
  refine (selectRows_distinctly h).bind fun d p h => ?_
  simp only [hkept]
  refine (Run.Corresponds.of_eq ?_).bind fun keyed keyed' hkeyed => .pure ?_
  · simp only [distinctly, keys_tuned, h.rows_eq]
  · subst hkeyed
    exact ⟨by rw [h.eq], h.plain⟩

/-- The rows of groups are left out as they are submitted. -/
theorem grouped_distinctly (h : Twins d p) : ((c.distinctly true).grouped d).Corresponds
    (fun d p => d.projectedRows = p.projectedRows.eraseDups) ((c.distinctly false).grouped p) := by
  refine (Run.Corresponds.of_eq ?_).bind fun kept kept' hkept => .pure ?_
  · simp only [distinctly, groupRow_tuned, h.rows_eq]
    rfl
  · subst hkept
    exact h.projectedRows_submitAll _

/-! ### Rows without groups -/

/-- Without anything to sort or group by, keys are no more than empty. -/
theorem mapIdx_keys (horder : c.query.orderBy = []) (hgroup : c.query.groupBy = [])
    (rows : List Solution) (i : Nat) : Run.mapIdx (fun i r => c.keys r none i) i rows =
      pure (rows.map fun r => { slots := r.slots }) := by
  refine Run.mapIdx_pure (fun i r _ => ?_) i
  simp [keys, horder, hgroup, Run.mapIdx]

theorem complete_distinctly_of_rows (horder : c.query.orderBy = [])
    (hagg : c.query.isAggregate = false) (h : Twins d p) :
    ((c.distinctly true).complete d).Corresponds
      (fun d p => d.projectedRows = p.projectedRows.eraseDups)
      ((c.distinctly false).complete p) := by
  have hgroup : c.query.groupBy = [] := by simp_all [Query.isAggregate]
  have hkept : ∀ distinct (s : Solutions), (if (c.distinctly distinct).query.distinct &&
      !(c.distinctly distinct).query.isAggregate then s.resubmit else s) =
        if distinct then s.resubmit else s := fun distinct s => by
    have hagg : (c.distinctly distinct).query.isAggregate = false := hagg
    rw [hagg, Bool.not_false, Bool.and_true]
    rfl
  have hkeyed : ∀ s : Solutions, Solutions.projectedRows { s with
      rows := s.rows.map fun r => { slots := r.slots } } = s.projectedRows := fun s => by
    rw [Solutions.projectedRows, List.map_map]
    rfl
  refine (selectRows_distinctly h).bind fun d p h => ?_
  simp only [hkept, if_true, Bool.false_eq_true, if_false]
  rw [mapIdx_keys (c := c.distinctly true) horder hgroup,
    mapIdx_keys (c := c.distinctly false) horder hgroup, pure_bind, pure_bind]
  refine .pure ?_
  rw [hkeyed, hkeyed]
  exact h.projectedRows_resubmit

/-! ### Answers -/

/-- An answer that is neither sorted nor cut. -/
theorem answer_of_uncut (horder : c.query.orderBy = []) (hoffset : c.query.offset = 0)
    (hlimit : c.query.limit = none) : c.answer = (do
      let rows ← c.complete (← c.rawSolutions)
      if c.query.isAggregate then c.grouped rows else pure rows) := by
  have hslice : ∀ s : Solutions, s.slice 0 none = s := fun _ => rfl
  unfold answer
  simp [horder, hoffset, hlimit, hslice]

theorem answer_distinctly (horder : c.query.orderBy = []) (hoffset : c.query.offset = 0)
    (hlimit : c.query.limit = none) : (c.distinctly true).answer.Corresponds
      (fun d p => d.projectedRows = p.projectedRows.eraseDups) (c.distinctly false).answer := by
  rw [answer_of_uncut (c := c.distinctly true) horder hoffset hlimit,
    answer_of_uncut (c := c.distinctly false) horder hoffset hlimit]
  refine rawSolutions_distinctly.bind fun d p h => ?_
  have hsame : ∀ distinct, (c.distinctly distinct).query.isAggregate = c.query.isAggregate :=
    fun _ => rfl
  rw [hsame, hsame]
  cases hagg : c.query.isAggregate with
  | true => exact (complete_distinctly_of_groups hagg h).bind fun _ _ h => grouped_distinctly h
  | false => exact (complete_distinctly_of_rows horder hagg h).bind fun _ _ h => .pure h

end Context

namespace Processor

/-- Of the projected rows of a query that is neither sorted nor cut, the distinct query keeps the
first of those that are the same, in the order that there is without it. So it has each row once
and loses none. -/
theorem evaluate_distinctly (p : Processor) (q : Query) (horder : q.orderBy = [])
    (hoffset : q.offset = 0) (hlimit : q.limit = none) :
    (p.evaluate (q.distinctly true)).outcome.map Solutions.projectedRows =
        (p.evaluate (q.distinctly false)).outcome.map (·.projectedRows.eraseDups) ∧
      ∀ d, (p.evaluate (q.distinctly true)).outcome = .ok d → d.projectedRows.Nodup ∧
        ∃ s, (p.evaluate (q.distinctly false)).outcome = .ok s ∧
          ∀ row, row ∈ d.projectedRows ↔ row ∈ s.projectedRows := by
  have hanswer := Context.answer_distinctly (c := { p.scope q with source := p.source }) horder
    hoffset hlimit
  refine ⟨hanswer.map_outcome, fun d hd => ?_⟩
  rcases hanswer.cases with ⟨e, hd', -⟩ | ⟨d', s, hd', hs, hrows⟩
  · cases hd.symm.trans hd'
  · obtain rfl := Except.ok.inj (hd'.symm.trans hd)
    rw [hrows]
    exact ⟨nodup_eraseDups _, s, hs, fun row => List.mem_eraseDups⟩

/-- Two of three rows are the same as far as they are projected, and the first of them is kept. -/
theorem evaluate_distinctly_of_three :
    let term (name : String) : Option Term := some (.iri ⟨name⟩)
    let q : Query := .ofParts
      { body := .values [⟨"x"⟩, ⟨"y"⟩]
          [[term "a", term "b"], [term "c", none], [term "a", term "d"]]
        project := some [⟨"x"⟩] }
    let p : Processor := { source := { store := {} } }
    (p.evaluate (q.distinctly true)).outcome.map Solutions.projectedRows =
        (p.evaluate (q.distinctly false)).outcome.map (·.projectedRows.eraseDups) ∧
      ∃ d s, (p.evaluate (q.distinctly true)).outcome = .ok d ∧
        (p.evaluate (q.distinctly false)).outcome = .ok s ∧
        s.projectedRows = [[term "a"], [term "c"], [term "a"]] ∧
        d.projectedRows = [[term "a"], [term "c"]] ∧ d.projectedRows.Nodup := by
  intro term q p
  obtain ⟨hrows, hdistinct⟩ := p.evaluate_distinctly q rfl rfl rfl
  have hd : (p.evaluate (q.distinctly true)).outcome.toOption.map Solutions.projectedRows =
      some [[term "a"], [term "c"]] := by decide +kernel
  have hs : (p.evaluate (q.distinctly false)).outcome.toOption.map Solutions.projectedRows =
      some [[term "a"], [term "c"], [term "a"]] := by decide +kernel
  obtain ⟨d, hd, hdrows⟩ := exists_of_toOption hd
  obtain ⟨s, hs, hsrows⟩ := exists_of_toOption hs
  exact ⟨hrows, d, s, hd, hs, hsrows, hdrows, (hdistinct d hd).1⟩

end Processor

end GraphQuery
