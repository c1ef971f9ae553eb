import GraphQuery.Proofs.Evaluate.Paging
import GraphQuery.Proofs.Evaluate.Recompletion
import GraphQuery.Proofs.Evaluate.Reordering

/-! Answers gathered row by row. As far as only the rows of an answer count, and not the events on
the way to them, each solution of the body is completed on its own, unless it comes to a snapshot,
which would tell its place. The rows with their columns go through the same steps then, wherever the
columns come from. -/

namespace GraphQuery

section Gather

variable {α β γ : Type} {f f' : α → Option (List β)} {as bs : List α}

/-- What is made of the members of a list, one after the other, if something is made of each. -/
def gather (f : α → Option (List β)) : List α → Option (List β)
  | [] => some []
  | a :: as => (f a).bind fun bs => (gather f as).map (bs ++ ·)

@[simp] theorem gather_singleton (f : α → Option (List β)) (a : α) : gather f [a] = f a := by
  rw [gather, gather]
  cases f a <;> simp

theorem gather_append (f : α → Option (List β)) (as bs : List α) :
    gather f (as ++ bs) = (gather f as).bind fun xs => (gather f bs).map (xs ++ ·) := by
  induction as with
  | nil => simp [gather]
  | cons a as ih =>
    rw [List.cons_append, gather, gather, ih]
    cases f a with
    | none => rfl
    | some xs =>
      cases gather f as with
      | none => rfl
      | some ys => cases gather f bs <;> simp

/-- What is made of what is made of the members. -/
theorem gather_bind (f : α → Option (List β)) (g : β → Option (List γ)) (as : List α) :
    (gather f as).bind (gather g) = gather (fun a => (f a).bind (gather g)) as := by
  induction as with
  | nil => rfl
  | cons a as ih =>
    rw [gather, gather, ← ih]
    cases f a with
    | none => rfl
    | some xs =>
      cases gather f as with
      | none =>
        have hnone : (gather g xs).bind (fun _ => (none : Option (List γ))) = none :=
          Option.bind_eq_none_iff.mpr fun _ _ => rfl
        exact hnone.symm
      | some ys => exact gather_append g xs ys

theorem gather_congr (h : ∀ a ∈ as, f a = f' a) : gather f as = gather f' as := by
  induction as with
  | nil => rfl
  | cons a as ih =>
    obtain ⟨ha, has⟩ := List.forall_mem_cons.mp h
    rw [gather, gather, ha, ih has]

theorem gather_map (f : β → Option (List γ)) (g : α → β) (as : List α) :
    gather f (as.map g) = gather (fun a => f (g a)) as := by
  induction as with
  | nil => rfl
  | cons a as ih => rw [List.map_cons, gather, gather, ih]

theorem map_gather (f : α → Option (List β)) (g : β → γ) (as : List α) :
    (gather f as).map (List.map g) = gather (fun a => (f a).map (List.map g)) as := by
  induction as with
  | nil => rfl
  | cons a as ih =>
    rw [gather, gather, ← ih]
    cases f a with
    | none => rfl
    | some xs => cases gather f as <;> simp

theorem gather_some (g : α → β) (as : List α) :
    gather (fun a => some [g a]) as = some (as.map g) := by
  induction as with
  | nil => rfl
  | cons a as ih => simp [gather, ih]

theorem gather_mapM (f : α → Option (Option β)) (as : List α) :
    (as.mapM f).map (List.filterMap id) = gather (fun a => (f a).map Option.toList) as := by
  induction as with
  | nil => rfl
  | cons a as ih =>
    rw [gather, ← ih, List.mapM_cons]
    cases f a with
    | none => rfl
    | some o => cases as.mapM f <;> cases o <;> rfl

/-- Each of the things made is made of some member. -/
theorem exists_of_gather {b : β} {bs : List β} (h : gather f as = some bs) (hb : b ∈ bs) :
    ∃ a ∈ as, ∃ xs, f a = some xs ∧ b ∈ xs := by
  induction as generalizing bs with
  | nil =>
    obtain rfl := Option.some.inj h
    cases hb
  | cons a as ih =>
    obtain ⟨xs, hxs, h⟩ := Option.bind_eq_some_iff.mp h
    obtain ⟨ys, hys, rfl⟩ := Option.map_eq_some_iff.mp h
    rcases List.mem_append.mp hb with hb | hb
    · exact ⟨a, List.mem_cons_self, xs, hxs, hb⟩
    · obtain ⟨a', ha', hmade⟩ := ih hys hb
      exact ⟨a', List.mem_cons_of_mem a ha', hmade⟩

end Gather

/-! ### Runs and traces -/

namespace Run

variable {α β : Type}

/-- What a run results in, if it comes to its end. -/
def value? (r : Run α) : Option α := r.outcome.toOption

theorem value_eq_some {r : Run α} {a : α} : r.value? = some a ↔ r.outcome = .ok a := by
  unfold value?
  cases r.outcome <;> simp [Except.toOption]

@[simp] theorem value_pure (a : α) : (pure a : Run α).value? = some a := rfl

theorem value_bind (r : Run α) (f : α → Run β) :
    (r >>= f).value? = r.value?.bind fun a => (f a).value? := by
  unfold value?
  rw [outcome_bind]
  cases r.outcome <;> rfl

theorem value_map (f : α → β) (r : Run α) : (f <$> r).value? = r.value?.map f := by
  unfold value?
  rw [outcome_map]
  cases r.outcome <;> rfl

/-- Runs for the members of a list, if their values do not depend on the places. -/
theorem value_mapIdx {f : Nat → α → Run β} {g : α → Option β} {as : List α}
    (h : ∀ i, ∀ a ∈ as, (f i a).value? = g a) (i : Nat) : (mapIdx f i as).value? = as.mapM g := by
  induction as generalizing i with
  | nil => rfl
  | cons a as ih =>
    have has : ∀ i, ∀ a ∈ as, (f i a).value? = g a := fun i b hb =>
      h i b (List.mem_cons_of_mem a hb)
    rw [mapIdx, value_bind, h i a List.mem_cons_self, List.mapM_cons]
    refine Option.bind_congr fun b _ => ?_
    rw [value_bind, ih has]
    rfl

end Run

namespace Trace

variable {α β : Type} {t : Trace α} {as : List α}

/-- The items of a trace that comes to its end. -/
def collected : Trace α → Option (List α)
  | stop => some []
  | fail _ => none
  | event _ t => t.collected
  | item a t => t.collected.map (a :: ·)

theorem collected_append (t u : Trace α) :
    (t.append u).collected = t.collected.bind fun as => u.collected.map (as ++ ·) := by
  induction t with
  | stop => simp [append, collected]
  | fail e => rfl
  | event e t ih => exact ih
  | item a t ih =>
    rw [append, collected, collected, ih]
    cases t.collected with
    | none => rfl
    | some as => cases u.collected <;> rfl

theorem collected_bind (t : Trace α) (f : α → Trace β) :
    (t.bind f).collected = t.collected.bind (gather fun a => (f a).collected) := by
  induction t with
  | stop => rfl
  | fail e => rfl
  | event e t ih => exact ih
  | item a t ih =>
    rw [bind, collected_append, ih, collected]
    cases t.collected with
    | none => cases (f a).collected <;> rfl
    | some as => rfl

theorem collected_map (f : α → β) (t : Trace α) :
    (t.map f).collected = t.collected.map (List.map f) := by
  induction t with
  | stop => rfl
  | fail e => rfl
  | event e t ih => exact ih
  | item a t ih =>
    rw [map, collected, collected, ih]
    cases t.collected <;> rfl

theorem collected_eq (t : Trace α) : t.collected = t.drain.value?.map fun _ => t.items := by
  induction t with
  | stop => rfl
  | fail e => rfl
  | event e t ih =>
    rw [collected, drain, Run.value_bind, ih]
    rfl
  | item a t ih =>
    rw [collected, drain, ih]
    cases t.drain.value? <;> rfl

theorem mem_items_of_collected {a : α} (h : t.collected = some as) (ha : a ∈ as) : a ∈ t.items := by
  rw [collected_eq] at h
  obtain ⟨-, -, rfl⟩ := Option.map_eq_some_iff.mp h
  exact ha

theorem collected_ofRun (f : β → Trace α) (r : Run β) :
    (ofRun (f <$> r)).collected = r.value?.bind fun b => (f b).collected := by
  rw [ofRun_map, Run.value?]
  induction r.events with
  | nil => cases r.outcome <;> rfl
  | cons e es ih => exact ih

end Trace

/-! ### Rows -/

namespace Context

variable {c : Context}

/-- What the columns make of a solution. -/
def selected? (c : Context) (s : Solution) : Option (List Solution) :=
  (c.select s none 0).value?.map Option.toList

/-- The solutions of the body with their columns. -/
def selectedRows (c : Context) : Option (List Solution) :=
  c.bodyTrace.collected.bind (gather fun m => c.selected? m.solution)

/-- The first of some sorted rows that a query asks for. -/
def cut (c : Context) (rows : List Solution) : List Solution :=
  let rest := rows.drop c.query.offset
  (c.query.limit.map rest.take).getD rest

/-- Rows with their keys, or the row of the group that all of them form. -/
def merged (c : Context) (keyed : List Solution) : Run (List Solution) :=
  if c.query.isAggregate then Option.toList <$> c.groupRow 0 keyed else pure keyed

/-- What is left to do with the rows once they have their columns, if they form at most one
group. -/
def remainder (c : Context) (rows : List Solution) : Run (List Solution) := do
  let unique := if c.query.isAggregate then rows
    else c.uniqueRows { Solutions.ofQuery c.query with rows }
  let keyed ← Run.mapIdx (fun i s => c.keys s none i) 0 unique
  let done ← c.merged keyed
  pure (c.cut (c.sortedRows done))

theorem rows_finish (rows : Solutions) : (c.finish rows).rows = c.cut (c.sortedRows rows.rows) := by
  have hsorted : (rows.sortBy (compareRows c.query.orderBy)).rows = c.sortedRows rows.rows := by
    unfold sortedRows
    split_ifs with h
    · rw [sortBy_of_keyless h]
    · rfl
  rw [finish, Solutions.slice, hsorted]
  rfl

/-- A group of all rows has one row at most. -/
theorem rows_grouped (hgroup : c.query.groupBy = []) (rows : Solutions) :
    (·.rows) <$> c.grouped rows = Option.toList <$> c.groupRow 0 rows.rows := by
  have hone : ∀ r : Option Solution, (rows.clear.submitAll ([r].filterMap id)).rows = r.toList := by
    intro r
    cases r with
    | none => rfl
    | some s =>
      have hnew : s.restrict rows.clear.projection ∉ rows.clear.seen := List.not_mem_nil
      change (rows.clear.submit s).1.rows = [s]
      cases hd : rows.clear.distinct with
      | false => rw [Solutions.submit, if_neg (by simp [hd])]; rfl
      | true => rw [Solutions.submit_of_notMem hd hnew]; rfl
  unfold grouped
  rw [hgroup, List.isEmpty_nil, if_pos rfl, map_bind, Run.mapIdx, Run.mapIdx, bind_assoc,
    map_eq_pure_bind]
  refine bind_congr fun r => ?_
  simp only [pure_bind, map_pure, hone]

/-- The rows of an answer are what is left to do with the rows that have their columns. -/
theorem rows_answer (hgroup : c.query.groupBy = []) :
    (·.rows) <$> c.answer = (do
      let selected ← c.selectRows (← c.rawSolutions)
      c.remainder selected.rows) := by
  rw [answer_eq_finish, completed, ← comp_map, map_bind]
  refine Run.bind_congr_of_ok fun raw hraw => ?_
  rw [complete, bind_assoc, map_bind]
  refine Run.bind_congr_of_ok fun selected hselected => ?_
  have heq := selectRows_ofQuery (rawSolutions_ofQuery hraw) hselected
  have hunique : (if c.query.distinct && !c.query.isAggregate then selected.resubmit
      else selected).rows = if c.query.isAggregate then selected.rows
        else c.uniqueRows { Solutions.ofQuery c.query with rows := selected.rows } := by
    rw [← heq, uniqueRows]
    cases c.query.isAggregate with
    | true => simp
    | false =>
      cases hd : c.query.distinct with
      | true => exact Solutions.rows_resubmit (by rw [heq]; exact hd)
      | false => rfl
  dsimp only
  generalize (if c.query.distinct && !c.query.isAggregate then selected.resubmit
    else selected) = unique at hunique ⊢
  rw [bind_assoc, map_bind, hunique, remainder]
  refine bind_congr fun keyed => ?_
  have hmerged : (·.rows) <$> (if c.query.isAggregate then c.grouped { unique with rows := keyed }
      else pure { unique with rows := keyed }) = c.merged keyed := by
    unfold merged
    split_ifs
    · exact rows_grouped hgroup _
    · rfl
  have hfinish : (·.rows) ∘ c.finish = (fun done => c.cut (c.sortedRows done)) ∘ (·.rows) :=
    funext rows_finish
  rw [pure_bind, hfinish, comp_map, hmerged, map_eq_pure_bind]

/-- The solutions of the body are collected from its trace. -/
theorem value_rawSolutions (hcap : c.source.options.limit = none) :
    c.rawSolutions.value? = c.bodyTrace.collected.map fun ms =>
      { Solutions.ofQuery c.query with rows := ms.map (·.solution) } := by
  rw [Run.value?, outcome_rawSolutions hcap, Trace.collected_eq, Run.value?]
  cases c.bodyTrace.drain.outcome <;> rfl

/-- Columns that come to no snapshot are computed alike in every row. -/
theorem selectFrom_row {items : List SelectItem}
    (hsystem : ∀ item ∈ items, ∀ target, ¬ c.Reaches item.expr.requests (.snapshot target))
    (row row' i i' : Nat) (s : Solution) :
    c.selectFrom none row i items s = c.selectFrom none row' i' items s := by
  induction items generalizing i i' s with
  | nil => rfl
  | cons item items ih =>
    obtain ⟨hitem, hitems⟩ := List.forall_mem_cons.mp hsystem
    have hvalue : ∀ s, c.evaluate item.expr (rowEnvironment .column row i s none) =
        c.evaluate item.expr (rowEnvironment .column row' i' s none) := fun s =>
      evaluate_row hitem (fun _ _ => rfl) _ _ _ _ _ _
    simp only [selectFrom, Option.isSome_none, Bool.false_eq_true, if_false, hvalue,
      ih hitems (i + 1) (i' + 1)]

/-- The columns are computed for each solution on its own. -/
theorem value_selectRows (hsystem : ∀ item ∈ c.query.select, ∀ target,
      ¬ c.Reaches item.expr.requests (.snapshot target)) (rows : List Solution) :
    (c.selectRows { Solutions.ofQuery c.query with rows }).value? =
      (gather c.selected? rows).map fun rows => { Solutions.ofQuery c.query with rows } := by
  unfold selectRows
  split_ifs with hempty
  · have hselected : ∀ s, c.selected? s = some [s] := fun s => by
      rw [selected?, select, List.isEmpty_iff.mp hempty]
      rfl
    rw [funext hselected, gather_some, List.map_id']
    rfl
  · rw [Run.value_bind, Run.value_mapIdx (g := fun s => (c.select s none 0).value?) fun i s _ => by
      rw [select, selectFrom_row hsystem i 0 0 0, select]]
    have hgather : gather c.selected? rows = _ := (gather_mapM _ rows).symm
    rw [hgather, Option.map_map]
    cases rows.mapM fun s => (c.select s none 0).value? <;> rfl

/-- The rows of an answer, without the events on the way. -/
theorem value_answer (hcap : c.source.options.limit = none) (hgroup : c.query.groupBy = [])
    (hsystem : ∀ item ∈ c.query.select, ∀ target,
      ¬ c.Reaches item.expr.requests (.snapshot target)) :
    c.answer.value?.map (·.rows) = c.selectedRows.bind fun rows => (c.remainder rows).value? := by
  rw [← Run.value_map, rows_answer hgroup, Run.value_bind, value_rawSolutions hcap, selectedRows,
    Option.bind_assoc, Option.bind_map]
  refine Option.bind_congr fun ms _ => ?_
  rw [Function.comp_apply, Run.value_bind, value_selectRows hsystem, Option.bind_map, gather_map]
  rfl

end Context

end GraphQuery
