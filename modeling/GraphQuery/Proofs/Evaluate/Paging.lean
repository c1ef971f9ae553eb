import GraphQuery.Proofs.Evaluate.Accord
import GraphQuery.Proofs.Evaluate.Answer
import GraphQuery.Proofs.Evaluate.Tuning
import GraphQuery.Proofs.Value.Order

/-! Sorted pages. Rows are completed and grouped without a look at the place and the number of those
that are asked for. They are then sorted by their keys, stably, and a page is cut from them. So all
pages of a query are cut from the same rows in the same order, and pages that follow one another
join to a longer one. -/

namespace GraphQuery

/-- The same query, for other places of the rows that are asked for. -/
def Query.page (q : Query) (offset : Nat) (limit : Option Nat) : Query :=
  { q with offset, limit }

theorem Query.retunes_page (q : Query) (offset : Nat) (limit : Option Nat) :
    (q.page offset limit).Retunes q where
  vars := (List.append_nil _).symm
  patterns := rfl
  functions := rfl
  fromDefault := rfl
  fromNamed := rfl
  body := rfl
  select := rfl
  groupBy := rfl
  having := rfl
  orderBy := rfl

/-! ### Comparing rows -/

/-- Compares two values of a key, the other way round if the key is descending. -/
def OrderKey.compare (k : OrderKey) (a b : Option Term) : Ordering :=
  if k.descending then (compareKey a b).swap else compareKey a b

/-- How the values of two rows compare, key by key. -/
def comparisons (keys : List OrderKey) (as bs : List (Option Term)) : List Ordering :=
  (keys.zip (as.zip bs)).map fun (k, a, b) => k.compare a b

/-- The first difference decides. -/
theorem compareKeys_eq_find (keys : List OrderKey) (as bs : List (Option Term)) :
    compareKeys keys as bs = ((comparisons keys as bs).find? (· ≠ .eq)).getD .eq := by
  induction keys generalizing as bs with
  | nil => rfl
  | cons k keys ih =>
    cases as with
    | nil => rfl
    | cons a as =>
      cases bs with
      | nil => rfl
      | cons b bs =>
        have hcons : comparisons (k :: keys) (a :: as) (b :: bs) =
            k.compare a b :: comparisons keys as bs := rfl
        have hstep : compareKeys (k :: keys) (a :: as) (b :: bs) =
            (k.compare a b).then (compareKeys keys as bs) := rfl
        rw [hstep, hcons, ih, List.find?_cons]
        cases k.compare a b <;> rfl

theorem compareKeys_eq_eq (keys : List OrderKey) (as bs : List (Option Term)) :
    compareKeys keys as bs = .eq ↔ ∀ o ∈ comparisons keys as bs, o = .eq := by
  rw [compareKeys_eq_find]
  cases h : (comparisons keys as bs).find? (· ≠ .eq) with
  | none =>
    have hall := List.find?_eq_none.mp h
    exact ⟨fun _ o ho => by simpa using hall o ho, fun _ => rfl⟩
  | some o =>
    have hne : o ≠ .eq := by simpa using List.find?_some h
    exact ⟨fun he => absurd he hne, fun hall => absurd (hall o (List.mem_of_find?_eq_some h)) hne⟩

/-! ### Slices -/

/-- Slices of some sizes that follow one another: where each of them starts, and its size. -/
def slices : Nat → List Nat → List (Nat × Nat)
  | _, [] => []
  | offset, size :: sizes => (offset, size) :: slices (offset + size) sizes

theorem flatMap_slices {α : Type} (as : List α) (offset : Nat) (sizes : List Nat) :
    (slices offset sizes).flatMap (fun p => (as.drop p.1).take p.2) =
      (as.drop offset).take sizes.sum := by
  induction sizes generalizing offset with
  | nil => simp [slices]
  | cons size sizes ih =>
    rw [slices, List.flatMap_cons, ih, List.sum_cons, List.take_add, List.drop_drop]

namespace Solutions

variable {s : Solutions}

/-- A slice has the rows at some places, counted from the first of them. -/
theorem getElem?_slice (offset : Nat) (limit : Option Nat) (i : Nat) :
    (s.slice offset limit).rows[i]? = if limit.all (i < ·) then s.rows[offset + i]? else none := by
  cases limit with
  | none => exact List.getElem?_drop
  | some n =>
    have htake : (s.slice offset (some n)).rows = (s.rows.drop offset).take n := rfl
    rw [htake, List.getElem?_take, List.getElem?_drop, Option.all_some]
    exact if_congr (decide_eq_true_iff).symm rfl rfl

end Solutions

/-! ### Keys -/

namespace Context

variable {c : Context} {raw rows : Solutions} {s s' : Solution}

/-- Whether a row has a value, or none, for each key that rows are sorted by. -/
def Keyed (c : Context) (s : Solution) : Prop := s.orderKeys.length = c.query.orderBy.length

theorem keyed_of_keys {group : Option (List Solution)} {row : Nat}
    (h : (c.keys s group row).outcome = .ok s') : c.Keyed s' := by
  obtain ⟨orderKeys, horder, h⟩ := Run.outcome_bind_eq_ok h
  obtain ⟨groupKeys, -, h⟩ := Run.outcome_bind_eq_ok h
  rw [← Except.ok.inj h]
  exact (Run.outcome_mapIdx horder).1

theorem keyed_of_complete (h : (c.complete raw).outcome = .ok rows) :
    ∀ r ∈ rows.rows, c.Keyed r := by
  obtain ⟨selected, -, h⟩ := Run.outcome_bind_eq_ok h
  obtain ⟨keyed, hkeyed, h⟩ := Run.outcome_bind_eq_ok h
  rw [← Except.ok.inj h]
  intro r hr
  obtain ⟨i, s, -, hkeys⟩ := Run.exists_of_mem_mapIdx hkeyed hr
  exact keyed_of_keys hkeys

theorem keyed_of_groupRow {row : Nat} {group : List Solution}
    (h : (c.groupRow row group).outcome = .ok (some s)) : c.Keyed s := by
  obtain ⟨selected, -, h⟩ := Run.outcome_bind_eq_ok h
  cases selected with
  | none => cases h
  | some first =>
    obtain ⟨holds, -, h⟩ := Run.outcome_bind_eq_ok h
    cases holds with
    | false => cases h
    | true =>
      obtain ⟨keyed, hkeys, h⟩ := Run.outcome_bind_eq_ok h
      rw [← Option.some.inj (Except.ok.inj h)]
      exact keyed_of_keys hkeys

theorem keyed_of_grouped (h : (c.grouped raw).outcome = .ok rows) : ∀ r ∈ rows.rows, c.Keyed r := by
  obtain ⟨kept, hkept, h⟩ := Run.outcome_bind_eq_ok h
  rw [← Except.ok.inj h]
  intro r hr
  rcases Solutions.mem_of_mem_submitAll hr with hr | hr
  · cases hr
  · obtain ⟨o, ho, hsome⟩ := List.mem_filterMap.mp hr
    obtain ⟨i, group, -, hrow⟩ := Run.exists_of_mem_mapIdx hkept ho
    exact keyed_of_groupRow (hrow.trans (congrArg Except.ok hsome))

/-! ### Completed rows -/

/-- The rows of a query before they are sorted and cut, one for a solution or for a group. -/
def completed (c : Context) : Run Solutions := do
  let rows ← c.complete (← c.rawSolutions)
  if c.query.isAggregate then c.grouped rows else pure rows

/-- Sorts completed rows and cuts the page from them that is asked for. -/
def finish (c : Context) (rows : Solutions) : Solutions :=
  (rows.sortBy (compareRows c.query.orderBy)).slice c.query.offset c.query.limit

theorem keyed_of_completed (h : c.completed.outcome = .ok rows) : ∀ r ∈ rows.rows, c.Keyed r := by
  obtain ⟨raw, -, h⟩ := Run.outcome_bind_eq_ok h
  obtain ⟨done, hdone, h⟩ := Run.outcome_bind_eq_ok h
  split_ifs at h
  · exact keyed_of_grouped h
  · rw [← Except.ok.inj h]
    exact keyed_of_complete hdone

/-- Without keys all rows tie, so that sorting leaves them as they are. -/
theorem sortBy_of_keyless (h : c.query.orderBy.isEmpty = true) (rows : Solutions) :
    rows.sortBy (compareRows c.query.orderBy) = rows := by
  have htie : ∀ a b : Solution, compareRows c.query.orderBy a b = .eq := fun a b => by
    rw [List.isEmpty_iff.mp h]
    rfl
  rw [Solutions.sortBy, stableSort_of_tie htie]

theorem answer_eq_finish (c : Context) : c.answer = c.finish <$> c.completed := by
  have hfinish : ∀ rows : Solutions, Solutions.slice (if c.query.orderBy.isEmpty then rows
      else rows.sortBy (compareRows c.query.orderBy)) c.query.offset c.query.limit =
        c.finish rows := fun rows => by
    split_ifs with h
    · rw [finish, sortBy_of_keyless h]
    · rfl
  unfold answer completed
  simp only [map_eq_pure_bind, bind_assoc, hfinish]
  refine bind_congr fun raw => bind_congr fun done => ?_
  split_ifs <;> rfl

/-! ### Pages -/

/-- The same evaluation, for another page. -/
def paged (c : Context) (offset : Nat) (limit : Option Nat) : Context :=
  c.withQuery (c.query.page offset limit) c.source.options.limit

/-- The page that a query asks for is a page as any other one. -/
example (c : Context) : c.paged c.query.offset c.query.limit = c := rfl

section

variable (c : Context) (offset : Nat) (limit : Option Nat)

theorem rawSolutions_paged : (c.paged offset limit).rawSolutions = c.rawSolutions := by
  have hq := (c.query.retunes_page offset limit).toWidens
  rw [paged, rawSolutions_padded hq rfl, rawSolutions_eq, ← comp_map]
  refine congrArg (· <$> _) (funext fun rows => ?_)
  simp only [Function.comp_apply, List.length_nil, Solution.padded_zero, List.map_id']
  rfl

theorem selectRows_paged (rows : Solutions) :
    (c.paged offset limit).selectRows rows = c.selectRows rows := by
  unfold selectRows
  simp only [paged, select_retuned (c.query.retunes_page offset limit)]
  rfl

theorem complete_paged (rows : Solutions) :
    (c.paged offset limit).complete rows = c.complete rows := by
  unfold complete
  rw [selectRows_paged]
  simp only [paged, keys_retuned (c.query.retunes_page offset limit)]
  rfl

theorem grouped_paged (rows : Solutions) :
    (c.paged offset limit).grouped rows = c.grouped rows := by
  unfold grouped
  simp only [paged, groupRow_retuned (c.query.retunes_page offset limit)]
  rfl

/-- The page that is asked for does not count for the rows that it is cut from. -/
theorem completed_paged : (c.paged offset limit).completed = c.completed := by
  unfold completed
  rw [rawSolutions_paged]
  refine bind_congr fun raw => ?_
  rw [complete_paged]
  refine bind_congr fun done => ?_
  rw [grouped_paged]
  rfl

/-- The page of some rows. -/
theorem answer_paged {rows : Solutions} (h : c.completed.outcome = .ok rows) :
    (c.paged offset limit).answer.outcome = .ok
      ((rows.sortBy (compareRows c.query.orderBy)).slice offset limit) := by
  rw [answer_eq_finish, completed_paged, Run.outcome_map, h]
  rfl

end

variable {c : Context} {rows : Solutions}

/-- Pages that follow one another join to one page. -/
theorem exists_pages (h : c.completed.outcome = .ok rows) (offset : Nat) (sizes : List Nat) :
    ∃ found : List Solutions,
      List.Forall₂ (fun p page => (c.paged p.1 (some p.2)).answer.outcome = .ok page)
        (slices offset sizes) found ∧
      found.flatMap (·.rows) =
        ((stableSort (compareRows c.query.orderBy) rows.rows).drop offset).take sizes.sum := by
  refine ⟨(slices offset sizes).map fun p =>
    (rows.sortBy (compareRows c.query.orderBy)).slice p.1 (some p.2), ?_, ?_⟩
  · rw [List.forall₂_map_right_iff]
    exact List.forall₂_same.mpr fun p _ => c.answer_paged p.1 (some p.2) h
  · rw [List.flatMap_map]
    exact flatMap_slices _ offset sizes

/-- The rows of a query are sorted and cut. They are compared key by key until the first difference,
which orders them if the terms of each key are ordered. There is only one way to sort them so that
those that tie on all keys stay in their order, and a page has the rows at its places. So pages that
follow one another join to a longer one, and with a last one without a limit to all rows. -/
theorem answer_sorted (h : c.completed.outcome = .ok rows)
    (horder : ∀ i : Nat, TotalOn Term.sortOrder
      {t | ∃ r ∈ rows.rows, r.orderKeys[i]? = some (some t)}) :
    let order := compareRows c.query.orderBy
    (∀ a b, order a b =
        ((comparisons c.query.orderBy a.orderKeys b.orderKeys).find? (· ≠ .eq)).getD .eq ∧
      (order a b = .eq ↔ ∀ o ∈ comparisons c.query.orderBy a.orderKeys b.orderKeys, o = .eq)) ∧
    TotalOn order {r | r ∈ rows.rows} ∧
    ∃ sorted, StablySorted order rows.rows sorted ∧
      (∀ sorted', StablySorted order rows.rows sorted' → sorted' = sorted) ∧
      (∀ offset limit, ∃ page, (c.paged offset limit).answer.outcome = .ok page ∧
        page = { rows with rows := page.rows } ∧
        ∀ i : Nat, page.rows[i]? = if limit.all (i < ·) then sorted[offset + i]? else none) ∧
      ∀ offset sizes, ∃ found last,
        List.Forall₂ (fun p page => (c.paged p.1 (some p.2)).answer.outcome = .ok page)
          (slices offset sizes) found ∧
        (c.paged (offset + sizes.sum) none).answer.outcome = .ok last ∧
        found.flatMap (·.rows) = (sorted.drop offset).take sizes.sum ∧
        found.flatMap (·.rows) ++ last.rows = sorted.drop offset := by
  intro order
  have htotal : TotalOn order {r | r ∈ rows.rows} := totalOn_compareRows c.query.orderBy
    (keyed_of_completed h) fun i => Term.totalOn_iff_circleFree.mp (horder i)
  have hsorted := stablySorted_stableSort htotal
  refine ⟨fun a b => ⟨compareKeys_eq_find _ _ _, compareKeys_eq_eq _ _ _⟩, htotal,
    stableSort order rows.rows, hsorted, fun sorted' h' => h'.eq hsorted htotal,
    fun offset limit =>
      ⟨_, c.answer_paged offset limit h, rfl, Solutions.getElem?_slice offset limit⟩,
    fun offset sizes => ?_⟩
  obtain ⟨found, hfound, hrows⟩ := exists_pages h offset sizes
  refine ⟨found, _, hfound, c.answer_paged (offset + sizes.sum) none h, hrows, ?_⟩
  have hlast : ((rows.sortBy order).slice (offset + sizes.sum) none).rows =
      ((stableSort order rows.rows).drop offset).drop sizes.sum := by
    rw [List.drop_drop]
    rfl
  rw [hrows, hlast, List.take_append_drop]

/-- Of three rows, one has no value for the first key, and the other two tie. The pages of one row
each are the rows from the last to the first, because the key is descending. -/
theorem answer_sorted_of_three :
    let term (name : String) : Option Term := some (.iri ⟨name⟩)
    let query : Query := .ofParts
      { body := .values [⟨"x"⟩, ⟨"y"⟩]
          [[none, term "a"], [term "b", term "c"], [term "b", term "d"]]
        orderBy := [⟨.var ⟨"x"⟩, true⟩] }
    let c : Context := { query, source := { store := {} } }
    ∃ rows, c.completed.outcome = .ok rows ∧
      (∀ i : Nat, TotalOn Term.sortOrder
        {t | ∃ r ∈ rows.rows, r.orderKeys[i]? = some (some t)}) ∧
      ∃ sorted, StablySorted (compareRows query.orderBy) rows.rows sorted ∧
        sorted.map (·.slots) = [[term "b", term "c"], [term "b", term "d"], [none, term "a"]] ∧
        ∃ page, (c.paged 1 (some 1)).answer.outcome = .ok page ∧
          page.rows.map (·.slots) = [[term "b", term "d"]] := by
  intro term query c
  have hkeys : c.completed.outcome.toOption.map (·.rows.map (·.orderKeys)) =
      some [[none], [term "b"], [term "b"]] := by decide +kernel
  have hall : (c.paged 0 none).answer.outcome.toOption.map (·.rows.map (·.slots)) =
      some [[term "b", term "c"], [term "b", term "d"], [none, term "a"]] := by decide +kernel
  have hone : (c.paged 1 (some 1)).answer.outcome.toOption.map (·.rows.map (·.slots)) =
      some [[term "b", term "d"]] := by decide +kernel
  obtain ⟨rows, h, hkeys⟩ := exists_of_toOption hkeys
  obtain ⟨all, hans, hall⟩ := exists_of_toOption hall
  obtain ⟨one, hone', hone⟩ := exists_of_toOption hone
  have hrank : ∀ ks ∈ [[none], [term "b"], [term "b"]], ∀ k ∈ ks, ∀ t ∈ k, t.rank ≠ 2 := by
    decide +kernel
  have horder : ∀ i : Nat, TotalOn Term.sortOrder
      {t | ∃ r ∈ rows.rows, r.orderKeys[i]? = some (some t)} := fun i =>
    Term.totalOn_of_rank fun t ⟨r, hr, ht⟩ =>
      hrank r.orderKeys (hkeys ▸ List.mem_map_of_mem hr) _ (List.mem_of_getElem? ht) t rfl
  obtain ⟨-, -, sorted, hsorted, -, hpages, -⟩ := answer_sorted h horder
  obtain ⟨page, hpage, -, hplaces⟩ := hpages 0 none
  obtain rfl := Except.ok.inj (hans.symm.trans hpage)
  have hwhole : all.rows = sorted := List.ext_getElem? fun i => by simpa using hplaces i
  exact ⟨rows, h, horder, sorted, hsorted, hwhole ▸ hall, one, hone', hone⟩

end Context

end GraphQuery
