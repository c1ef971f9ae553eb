import GraphQuery.Proofs.Evaluate.Distinct
import GraphQuery.Proofs.Evaluate.Reads

/-! Completing solutions once more. Columns are computed in the order of their declaration, so that one
that reads ahead finds the later ones unbound at first and bound once all are computed. Rows that are
completed once more are the same exactly if each column has no value then, or the one that is bound;
that call sites have found their definitions in the meantime does not matter. -/

namespace GraphQuery

/-! ### What call sites find -/

namespace Remembered

theorem get_remember_of_get {r : Remembered} {site site' : Nat} {d d' : Definition}
    (h : r.get? site = some d) : (r.remember site' d').get? site = some d := by
  unfold remember
  split_ifs with hs
  · exact h
  · have hne : site ≠ site' := fun he => hs (by rw [← he, h]; rfl)
    rw [get?, List.lookup_cons, beq_false_of_ne hne]
    exact h

/-- Nothing is forgotten. -/
theorem get_addEvents_of_get {r : Remembered} (es : List Event) {site : Nat} {d : Definition}
    (h : r.get? site = some d) : (r.addEvents es).get? site = some d := by
  induction es generalizing r with
  | nil => exact h
  | cons e es ih =>
    cases e with
    | existence pattern holds => exact ih h
    | resolved site' d' => exact ih (get_remember_of_get h)

theorem length_addEvents (r : Remembered) (es : List Event) :
    r.sites.length ≤ (r.addEvents es).sites.length := by
  induction es generalizing r with
  | nil => exact le_rfl
  | cons e es ih =>
    cases e with
    | existence pattern holds => exact ih r
    | resolved site d =>
      refine le_trans ?_ (ih (r.remember site d))
      unfold remember
      split_ifs
      · exact le_rfl
      · exact Nat.le_succ _

end Remembered

/-- Whether all calls from one site that an evaluation may come to find the same. -/
def Scope.Unambiguous (c : Scope) : Prop :=
  ∀ {site count count' : Nat} {name name' : Iri}, c.ComesTo (.call site name count) →
    c.ComesTo (.call site name' count') → c.finds site name count = c.finds site name' count'

theorem Run.Repeats.outcome_eq {F : Nat → Definition → Prop} {α : Type} {run run' : Run α} {a : α}
    (h : Run.Repeats F run run') (ho : run'.outcome = .ok a) : run.outcome = .ok a := by
  rcases h.outcome with ht | hsame
  · cases ho.symm.trans ht
  · exact hsame.trans ho

namespace Context

variable {c : Context}

/-- The same evaluation once call sites remember what they have found. -/
def after (c : Context) (es : List Event) : Context := c.remembering (c.remembered.addEvents es)

@[simp] theorem query_after (c : Context) (es : List Event) : (c.after es).query = c.query := rfl

theorem finds_after (hc : c.Unambiguous) {es : List Event}
    (hes : ∀ site d, .resolved site d ∈ es → c.FindsAmong c.ComesTo site d) {site count : Nat}
    {name : Iri} (ha : c.ComesTo (.call site name count)) :
    (c.after es).finds site name count = c.finds site name count := by
  change ((c.remembered.addEvents es).get? site).or (c.lookup name count) = _
  cases hs : (c.remembered.addEvents es).get? site with
  | some d =>
    rcases Remembered.get_addEvents hs with hd | hm
    · rw [Scope.finds, hd]
    · obtain ⟨name', count', ha', hd⟩ := hes site d hm
      rw [Option.some_or, hc ha ha', hd]
  | none =>
    have hnone : c.remembered.get? site = none := by
      cases hd : c.remembered.get? site with
      | none => rfl
      | some d => cases (Remembered.get_addEvents_of_get es hd).symm.trans hs
    rw [Scope.finds, hnone]

/-- What call sites find while rows are completed makes no difference afterwards. -/
theorem whole_after_complete (hc : c.Unambiguous) (rows : Solutions) :
    Follows.Whole (fun _ => Run.Repeats (c.FindsAmong c.ComesTo)) c.ComesTo c
      (c.remembered.addEvents (c.complete rows).events) := by
  have hbefore : Follows.Whole (fun _ => Run.Repeats (c.FindsAmong c.ComesTo)) c.ComesTo c
      c.remembered := repeats_whole c.closed_comesTo (fun _ => rfl) le_rfl
  have hfound := (complete_related hbefore (fun a ha => .query ha) rows).found
  exact repeats_whole c.closed_comesTo (finds_after hc hfound)
    (Remembered.length_addEvents _ _)

end Context

/-! ### Submitting once more -/

namespace Solutions

variable {s s' : Solutions}

/-- Whether a sequence is as if it had been emptied and its rows had been submitted since. -/
structure Submitted (s : Solutions) : Prop where
  nodup : s.distinct = true → s.projectedRows.Nodup
  seen : s.seen = if s.distinct then s.projectedRows.reverse else []

/-- As long as rows are submitted only, a sequence remembers their projections, the latest first. -/
theorem seen_submitAll (hd : s.distinct = true) (hs : s.seen = s.projectedRows.reverse)
    (rows : List Solution) : (s.submitAll rows).seen = (s.submitAll rows).projectedRows.reverse := by
  induction rows generalizing s with
  | nil => exact hs
  | cons r rows ih =>
    rw [submitAll, List.foldl_cons]
    by_cases hm : r.restrict s.projection ∈ s.seen
    · rw [submit_of_mem hd hm]
      exact ih hd hs
    · rw [submit_of_notMem hd hm]
      exact ih (s := { s with rows := s.rows ++ [r], seen := r.restrict s.projection :: s.seen }) hd
        (by simp [projectedRows, hs])

theorem resubmit_of_plain (hd : s.distinct = false) : s.resubmit = { s with seen := [] } :=
  (Context.submitAll_of_plain (s := s.clear) hd s.rows).trans (by simp [clear])

theorem submitted_resubmit (s : Solutions) : s.resubmit.Submitted := by
  cases hd : s.distinct with
  | false =>
    rw [resubmit_of_plain hd]
    exact ⟨fun h => (Bool.false_ne_true (hd.symm.trans h)).elim, by simp [hd]⟩
  | true =>
    have hdistinct : s.resubmit.distinct = true := (distinct_submitAll s.clear s.rows).trans hd
    refine ⟨fun _ => ?_, ?_⟩
    · rw [projectedRows_resubmit hd]
      exact nodup_eraseDups _
    · rw [hdistinct, if_pos rfl]
      exact seen_submitAll (s := s.clear) hd rfl s.rows

/-- Submitting the rows once more changes nothing then. -/
theorem Submitted.resubmit_eq (h : s.Submitted) : s.resubmit = s := by
  cases hd : s.distinct with
  | false =>
    have hseen : s.seen = [] := by simpa [hd] using h.seen
    rw [resubmit_of_plain hd, ← hseen]
  | true =>
    obtain ⟨kept, seen, hs⟩ := s.clear.exists_submitAll s.rows
    have hresubmit : s.resubmit = { s with rows := kept, seen } := hs
    -- As many rows are kept as there are.
    have hlength : s.projectedRows.eraseDups.length = s.projectedRows.length :=
      ((List.perm_ext_iff_of_nodup (nodup_eraseDups _) (h.nodup hd)).mpr fun _ =>
        List.mem_eraseDups).length_eq
    have hrows : s.resubmit.rows = s.rows := by
      rw [rows_resubmit hd]
      refine (eraseDupsBy_sublist _ _).eq_of_length ?_
      rw [← projectedRows_resubmit hd, projectedRows, projectedRows, List.length_map,
        List.length_map, rows_resubmit hd] at hlength
      exact hlength
    have hkept : kept = s.rows := by rw [← hrows, hresubmit]
    have hseen : seen = s.seen := by
      have hagain := s.submitted_resubmit.seen
      rw [hresubmit, hkept] at hagain
      exact hagain.trans h.seen.symm
    rw [hresubmit, hkept, hseen]

theorem Submitted.of_slots (h : s.Submitted) {rows : List Solution}
    (hrows : rows.map (·.slots) = s.rows.map (·.slots)) : Submitted { s with rows } := by
  have hsame : projectedRows { s with rows } = s.projectedRows := by
    have hrestrict : (fun r : Solution => r.restrict s.projection) =
        (fun slots : List (Option Term) => s.projection.map fun i => (slots[i]?).join) ∘ (·.slots) :=
      rfl
    rw [projectedRows, projectedRows, hrestrict, ← List.map_map, ← List.map_map, hrows]
  exact ⟨fun hd => hsame ▸ h.nodup hd, hsame ▸ h.seen⟩

end Solutions

namespace Context

variable {c : Context} {row i : Nat} {item : SelectItem} {items : List SelectItem}
  {s s' : Solution} {e : Expr} {v : Variable}

/-! ### Columns -/

/-- The run of a column in a row. -/
abbrev runColumn (c : Context) (row i : Nat) (s : Solution) (item : SelectItem) : Run (Option Term) :=
  c.evaluate item.expr (rowEnvironment .column row i s none)

/-- Whether a column has no value in a row, or the one that is bound there. -/
def Confirms (c : Context) (row i : Nat) (s : Solution) (item : SelectItem) : Prop :=
  ∃ t, (c.runColumn row i s item).outcome = .ok t ∧
    ∀ u ∈ t, c.query.read item.target s = some u.canonical

/-- Whether columns read their own variables and those of later columns only where these are bound. -/
def LooksBack (c : Context) : List SelectItem → Solution → Prop
  | [], _ => True
  | item :: items, s =>
    (∀ later ∈ item :: items, c.Reads item.expr later.target →
      (c.query.read later.target s).isSome) ∧ LooksBack c items s

/-- What is bound more does not matter. -/
theorem LooksBack.mono (hl : c.LooksBack items s)
    (h : ∀ v, (c.query.read v s).isSome → (c.query.read v s').isSome) : c.LooksBack items s' := by
  induction items with
  | nil => trivial
  | cons item items ih => exact ⟨fun later hm hr => h _ (hl.1 later hm hr), ih hl.2⟩

/-- What has a value is bound to it, and nothing else is bound anew. -/
theorem read_of_bindColumn {t : Option Term} (hv : v ∈ c.query.vars)
    (h : c.bindColumn v t s = some s') :
    (∀ u ∈ t, c.query.read v s' = some u.canonical) ∧
      ∀ w, (w ≠ v ∨ (c.query.read w s).isSome) → c.query.read w s' = c.query.read w s := by
  unfold bindColumn at h
  cases t with
  | none =>
    obtain rfl := Option.some.inj h
    exact ⟨fun _ hu => (by cases hu), fun _ _ => rfl⟩
  | some u =>
    cases hcurrent : c.query.read v s with
    | none =>
      simp only [Option.map_some, hcurrent] at h
      obtain rfl := Option.some.inj h
      refine ⟨fun u' hu' => ?_, fun w hw => ?_⟩
      · rw [Query.read_put hv, if_pos rfl, Option.some.inj hu']
      · rw [Query.read_put hv, if_neg]
        rintro rfl
        simp [hcurrent] at hw
    | some current =>
      simp only [Option.map_some, hcurrent] at h
      split_ifs at h with hu
      obtain rfl := Option.some.inj h
      exact ⟨fun u' hu' => by rw [hcurrent, hu, Option.some.inj hu'], fun _ _ => rfl⟩

/-- Nothing is bound anew if the value is there. -/
theorem bindColumn_of_read {t : Option Term} (h : ∀ u ∈ t, c.query.read v s = some u.canonical) :
    c.bindColumn v t s = some s := by
  unfold bindColumn
  cases t with
  | none => rfl
  | some u => simp only [Option.map_some, h u rfl, if_true]

/-- The steps for the first one of some columns. -/
theorem exists_selectFrom (hplain : item.isAggregate = false) (hv : item.target ∈ c.query.vars)
    (h : (c.selectFrom none row i (item :: items) s).outcome = .ok (some s')) :
    ∃ t next, (c.runColumn row i s item).outcome = .ok t ∧
      c.bindColumn item.target t s = some next ∧
      (c.selectFrom none row (i + 1) items next).outcome = .ok (some s') := by
  rw [selectFrom_eq hv (by simp [hplain])] at h
  obtain ⟨t, ht, h⟩ := Run.outcome_bind_eq_ok h
  cases hnext : c.bindColumn item.target t s with
  | none =>
    rw [hnext] at h
    cases h
  | some next =>
    rw [hnext] at h
    exact ⟨t, next, ht, hnext, h⟩

section

variable (hplain : ∀ item ∈ items, item.isAggregate = false)
  (hv : ∀ item ∈ items, item.target ∈ c.query.vars)

include hplain hv

/-- What is bound stays bound, and no other variables than those of columns are bound. -/
theorem read_of_selectFrom (h : (c.selectFrom none row i items s).outcome = .ok (some s'))
    (hkeep : (∀ item ∈ items, v ≠ item.target) ∨ (c.query.read v s).isSome) :
    c.query.read v s' = c.query.read v s := by
  induction items generalizing i s with
  | nil => rw [Option.some.inj (Except.ok.inj h)]
  | cons item items ih =>
    obtain ⟨hitem, hplain⟩ := List.forall_mem_cons.mp hplain
    obtain ⟨htarget, hv⟩ := List.forall_mem_cons.mp hv
    obtain ⟨t, next, -, hnext, h⟩ := exists_selectFrom hitem htarget h
    have hread := (read_of_bindColumn htarget hnext).2 v
      (hkeep.imp_left fun hne => hne item List.mem_cons_self)
    rw [ih hplain hv h, hread]
    rw [hread]
    exact hkeep.imp_left fun hne x hx => hne x (List.mem_cons_of_mem _ hx)

/-- A row whose columns are confirmed is left as it is. -/
theorem selectFrom_of_confirms
    (hc : ∀ k item, items[k]? = some item → c.Confirms row (i + k) s item) :
    (c.selectFrom none row i items s).outcome = .ok (some s) := by
  induction items generalizing i with
  | nil => rfl
  | cons item items ih =>
    obtain ⟨hitem, hplain⟩ := List.forall_mem_cons.mp hplain
    obtain ⟨htarget, hv⟩ := List.forall_mem_cons.mp hv
    obtain ⟨t, ht, hbound⟩ := hc 0 item rfl
    have hrest := ih hplain hv fun k item' hk => by
      rw [show i + 1 + k = i + (k + 1) by omega]
      exact hc (k + 1) item' hk
    rw [selectFrom_eq htarget (by simp [hitem])]
    refine (Run.outcome_bind_of_ok ht).trans ?_
    rw [bindColumn_of_read hbound]
    exact hrest

/-- Only a row whose columns are confirmed keeps what it binds. -/
theorem confirms_of_selectFrom (h : (c.selectFrom none row i items s).outcome = .ok (some s'))
    (hs : s'.slots = s.slots) {k : Nat} (hk : items[k]? = some item) :
    c.Confirms row (i + k) s item := by
  induction items generalizing i k with
  | nil => cases hk
  | cons first items ih =>
    obtain ⟨hfirst, hplain⟩ := List.forall_mem_cons.mp hplain
    obtain ⟨htarget, hv⟩ := List.forall_mem_cons.mp hv
    obtain ⟨t, next, ht, hnext, hrest⟩ := exists_selectFrom hfirst htarget h
    have hbound : ∀ u ∈ t, c.query.read first.target s = some u.canonical := fun u hu => by
      have hvalue := (read_of_bindColumn htarget hnext).1 u hu
      rw [← hvalue, ← Query.read_congr hs]
      exact read_of_selectFrom hplain hv hrest (.inr (by rw [hvalue]; rfl))
    cases k with
    | zero =>
      obtain rfl := Option.some.inj hk
      exact ⟨t, ht, hbound⟩
    | succ k =>
      obtain rfl := Option.some.inj (hnext.symm.trans (bindColumn_of_read hbound))
      rw [show i + (k + 1) = i + 1 + k by omega]
      exact ih hplain hv hrest hk

/-- Columns that look back are confirmed once all are computed. -/
theorem confirms_of_looksBack (hsystem : ∀ item ∈ items, ∀ target,
      ¬ c.Reaches item.expr.requests (.snapshot target)) (hl : c.LooksBack items s)
    (h : (c.selectFrom none row i items s).outcome = .ok (some s')) {k : Nat}
    (hk : items[k]? = some item) (row' i' : Nat) : c.Confirms row' i' s' item := by
  induction items generalizing i s k with
  | nil => cases hk
  | cons first items ih =>
    have hread := fun v => read_of_selectFrom (v := v) hplain hv h
    obtain ⟨hfirst, hplain⟩ := List.forall_mem_cons.mp hplain
    obtain ⟨htarget, hv⟩ := List.forall_mem_cons.mp hv
    obtain ⟨hnone, hsystem⟩ := List.forall_mem_cons.mp hsystem
    obtain ⟨t, next, ht, hnext, hrest⟩ := exists_selectFrom hfirst htarget h
    obtain ⟨hvalue, hframe⟩ := read_of_bindColumn htarget hnext
    cases k with
    | zero =>
      obtain rfl := Option.some.inj hk
      refine ⟨t, ?_, fun u hu => ?_⟩
      · rw [← ht]
        refine congrArg Run.outcome (evaluate_row hnone (fun v hreads => hread v ?_) _ _ _ _ _ _)
        by_cases hlater : ∃ x ∈ first :: items, v = x.target
        · obtain ⟨x, hx, rfl⟩ := hlater
          exact .inr (hl.1 x hx hreads)
        · exact .inl fun x hx he => hlater ⟨x, hx, he⟩
      · rw [read_of_selectFrom hplain hv hrest (.inr (by rw [hvalue u hu]; rfl)), hvalue u hu]
    | succ k =>
      refine ih hplain hv hsystem (hl.2.mono fun v hbound => ?_) hrest hk
      rwa [hframe v (.inr hbound)]

end

/-! ### Rows -/

variable {rows selected done : Solutions}

/-- Whether each column is confirmed in each row. -/
def Confirmed (c : Context) (rows : Solutions) : Prop :=
  ∀ row s, rows.rows[row]? = some s → ∀ i item, c.query.select[i]? = some item →
    c.Confirms row i s item

/-- The rows that are left if the query is distinct. -/
def uniquely (c : Context) (s : Solutions) : Solutions :=
  if c.query.distinct then s.resubmit else s

/-- The steps of a completion. -/
structure CompletesIn (c : Context) (rows selected done : Solutions) : Prop where
  select : (c.selectRows rows).outcome = .ok selected
  keys : (Run.mapIdx (fun i s => c.keys s none i) 0 (c.uniquely selected).rows).outcome =
    .ok done.rows
  eq : done = { c.uniquely selected with rows := done.rows }

theorem complete_iff (hagg : c.query.isAggregate = false) :
    (c.complete rows).outcome = .ok done ↔ ∃ selected, c.CompletesIn rows selected done := by
  have hunique : ∀ selected : Solutions,
      (if c.query.distinct && !c.query.isAggregate then selected.resubmit else selected) =
        c.uniquely selected := fun selected => by
    rw [hagg, Bool.not_false, Bool.and_true, uniquely]
  unfold complete
  simp only [hunique]
  constructor
  · intro h
    obtain ⟨selected, hselect, h⟩ := Run.outcome_bind_eq_ok h
    obtain ⟨keyed, hkeys, h⟩ := Run.outcome_bind_eq_ok h
    obtain rfl := Except.ok.inj h
    exact ⟨selected, hselect, hkeys, rfl⟩
  · rintro ⟨selected, hselect, hkeys, heq⟩
    rw [Run.outcome_bind_of_ok hselect, Run.outcome_bind_of_ok hkeys, heq]
    rfl

theorem plain_of_isAggregate (hagg : c.query.isAggregate = false) :
    ∀ item ∈ c.query.select, item.isAggregate = false := by
  simp only [Query.isAggregate, Bool.or_eq_false_iff, List.any_eq_false, Bool.not_eq_true] at hagg
  exact hagg.1.2

/-- The steps of computing the columns of all rows. -/
theorem exists_selectRows (h : (c.selectRows rows).outcome = .ok selected) :
    c.query.select = [] ∧ selected = rows ∨
      ∃ kept, (Run.mapIdx (fun i s => c.select s none i) 0 rows.rows).outcome = .ok kept ∧
        selected = { rows with rows := kept.filterMap id, seen := [] } := by
  unfold selectRows at h
  split_ifs at h with hempty
  · exact .inl ⟨List.isEmpty_iff.mp hempty, (Except.ok.inj h).symm⟩
  · obtain ⟨kept, hkept, h⟩ := Run.outcome_bind_eq_ok h
    exact .inr ⟨kept, hkept, (Except.ok.inj h).symm⟩

theorem rows_uniquely_sublist (s : Solutions) : (c.uniquely s).rows.Sublist s.rows := by
  unfold uniquely
  split_ifs
  · cases hd : s.distinct with
    | true =>
      rw [Solutions.rows_resubmit hd]
      exact eraseDupsBy_sublist _ _
    | false => rw [Solutions.resubmit_of_plain hd]
  · exact .refl _

namespace CompletesIn

variable (h : c.CompletesIn rows selected done)

include h

theorem slots_eq : done.rows.map (·.slots) = (c.uniquely selected).rows.map (·.slots) := by
  obtain ⟨hlength, hget⟩ := Run.outcome_mapIdx h.keys
  refine List.ext_getElem? fun i => ?_
  rw [List.getElem?_map, List.getElem?_map]
  cases hs : (c.uniquely selected).rows[i]? with
  | none =>
    rw [List.getElem?_eq_none (hlength.le.trans (List.getElem?_eq_none_iff.mp hs))]
  | some s =>
    obtain ⟨d, hd, hkeys⟩ := hget i s hs
    rw [hd, Option.map_some, Option.map_some, slots_of_keys hkeys]

/-- Each completed row binds what a row of the given ones binds once its columns are computed. -/
theorem exists_select {s : Solution} (hs : s ∈ done.rows) (hne : c.query.select ≠ []) :
    ∃ r ∈ rows.rows, ∃ i s', (c.select r none i).outcome = .ok (some s') ∧ s'.slots = s.slots := by
  obtain ⟨s', hs', hslots⟩ := List.mem_map.mp (h.slots_eq ▸ List.mem_map_of_mem hs)
  rcases exists_selectRows h.select with ⟨hnil, -⟩ | ⟨kept, hkept, rfl⟩
  · exact absurd hnil hne
  obtain ⟨o, ho, rfl⟩ := List.mem_filterMap.mp ((rows_uniquely_sublist _).subset hs')
  obtain ⟨i, hi⟩ := List.mem_iff_getElem?.mp ho
  obtain ⟨hlength, hget⟩ := Run.outcome_mapIdx hkept
  have hlt : i < rows.rows.length := hlength ▸ (List.getElem?_eq_some_iff.mp hi).1
  obtain ⟨o', ho', hselect⟩ := hget i _ (List.getElem?_eq_getElem hlt)
  obtain rfl := Option.some.inj (hi.symm.trans ho')
  exact ⟨_, List.getElem_mem hlt, _, s', hselect, hslots⟩

/-- Completed rows are left in place if nothing is refused of what is submitted once more. -/
theorem uniquely_eq : c.uniquely done = done := by
  unfold uniquely
  split_ifs with hd
  · refine Solutions.Submitted.resubmit_eq ?_
    have hunique : c.uniquely selected = selected.resubmit := if_pos hd
    rw [h.eq, hunique]
    exact selected.submitted_resubmit.of_slots (hunique ▸ h.slots_eq)
  · rfl

theorem uniquely_clear (hne : c.query.select ≠ []) : c.uniquely { done with seen := [] } = done := by
  have hsame : c.uniquely { done with seen := [] } = c.uniquely done ∨ done.seen = [] := by
    unfold uniquely
    split_ifs with hd
    · exact .inl rfl
    · have hunique : c.uniquely selected = selected := if_neg hd
      rcases exists_selectRows h.select with ⟨hnil, -⟩ | ⟨kept, -, hselected⟩
      · exact absurd hnil hne
      · rw [h.eq, hunique, hselected]
        exact .inr rfl
  rcases hsame with hsame | hseen
  · rw [hsame, h.uniquely_eq]
  · have hdone : { done with seen := [] } = done := by rw [← hseen]
    rw [hdone, h.uniquely_eq]

end CompletesIn

/-! ### Once more -/

section

variable {es : List Event}
  (hW : Follows.Whole (fun _ => Run.Repeats (c.FindsAmong c.ComesTo)) c.ComesTo c
    (c.remembered.addEvents es))

include hW

theorem keys_again (h : (c.keys s none row).outcome = .ok s') :
    ((c.after es).keys s' none row).outcome = .ok s' := by
  have hrun : (c.after es).keys s' none row = (c.after es).keys s none row := by
    obtain ⟨orderKeys, -, h⟩ := Run.outcome_bind_eq_ok h
    obtain ⟨groupKeys, -, h⟩ := Run.outcome_bind_eq_ok h
    rw [← Except.ok.inj h]
    rfl
  rw [hrun]
  exact (keys_related hW (fun a ha => .query ha) s none row).outcome_eq h

theorem Confirms.again (he : ∀ a ∈ item.expr.requests, c.ComesTo a)
    (h : c.Confirms row i s item) : (c.after es).Confirms row i s item := by
  obtain ⟨t, ht, hbound⟩ := h
  exact ⟨t, (hW.eval item.expr _ he).outcome_eq ht, hbound⟩

/-- Confirmed rows are completed to themselves. -/
theorem CompletesIn.again (h : c.CompletesIn rows selected done)
    (hplain : ∀ item ∈ c.query.select, item.isAggregate = false)
    (hc : (c.after es).Confirmed done) : ∃ selected', (c.after es).CompletesIn done selected' done := by
  have hkeys : (Run.mapIdx (fun i s => (c.after es).keys s none i) 0 done.rows).outcome =
      .ok done.rows := by
    obtain ⟨hlength, hget⟩ := Run.outcome_mapIdx h.keys
    refine Run.outcome_mapIdx_of_ok rfl fun j s s' hs hs' => ?_
    obtain rfl := Option.some.inj (hs.symm.trans hs')
    have hlt : j < (c.uniquely selected).rows.length :=
      hlength ▸ (List.getElem?_eq_some_iff.mp hs).1
    obtain ⟨d, hd, hrun⟩ := hget j _ (List.getElem?_eq_getElem hlt)
    obtain rfl := Option.some.inj (hs.symm.trans hd)
    exact keys_again hW hrun
  have hsteps : ∀ {selected'}, ((c.after es).selectRows done).outcome = .ok selected' →
      c.uniquely selected' = done → (c.after es).CompletesIn done selected' done := by
    intro selected' hselect hunique
    have hunique : (c.after es).uniquely selected' = done := hunique
    exact ⟨hselect, by rwa [hunique], by rw [hunique]⟩
  by_cases hne : c.query.select = []
  · refine ⟨done, hsteps ?_ h.uniquely_eq⟩
    rw [selectRows, query_after, if_pos (List.isEmpty_iff.mpr hne)]
    rfl
  · have hkept : (Run.mapIdx (fun i s => (c.after es).select s none i) 0 done.rows).outcome =
        .ok (done.rows.map some) := by
      refine Run.outcome_mapIdx_of_ok (List.length_map _) fun j s o hs ho => ?_
      rw [List.getElem?_map, hs, Option.map_some] at ho
      rw [← Option.some.inj ho, Nat.zero_add]
      refine selectFrom_of_confirms hplain (fun item hm => Query.target_mem hm) fun k item hk => ?_
      rw [Nat.zero_add]
      exact hc j s hs k item hk
    have hall : (done.rows.map some).filterMap id = done.rows := by simp
    refine ⟨{ done with seen := [] }, hsteps ?_ (h.uniquely_clear hne)⟩
    rw [selectRows, query_after, if_neg fun hempty => hne (List.isEmpty_iff.mp hempty),
      Run.outcome_bind_of_ok hkept, hall]
    rfl

end

/-- Only confirmed rows are completed to themselves. -/
theorem CompletesIn.confirmed (h : c.CompletesIn done selected done)
    (hplain : ∀ item ∈ c.query.select, item.isAggregate = false) : c.Confirmed done := by
  intro j s hs i item hi
  rcases exists_selectRows h.select with ⟨hnil, -⟩ | ⟨kept, hkept, hselected⟩
  · rw [hnil] at hi
    cases hi
  obtain ⟨hlength, hget⟩ := Run.outcome_mapIdx hkept
  obtain ⟨hkeyed, hkeys⟩ := Run.outcome_mapIdx h.keys
  -- No row is lost, since as many are left in the end.
  have hsublist : (c.uniquely selected).rows.Sublist (kept.filterMap id) := by
    have hrows : selected.rows = kept.filterMap id := by rw [hselected]
    exact hrows ▸ rows_uniquely_sublist selected
  have hle : (kept.filterMap id).length ≤ kept.length := List.length_filterMap_le _ _
  have hge := hsublist.length_le
  have hrows := hsublist.eq_of_length_le (by omega)
  have hsome : ∀ o ∈ kept, o.isSome :=
    List.reduceOption_length_eq_iff.mp (by rw [List.reduceOption]; omega)
  obtain ⟨kept, rfl⟩ := exists_map_some hsome
  rw [List.filterMap_map, Function.id_comp, List.filterMap_some] at hrows
  obtain ⟨o, ho, hselect⟩ := hget j s hs
  rw [List.getElem?_map] at ho
  obtain ⟨s', hs', rfl⟩ := Option.map_eq_some_iff.mp ho
  obtain ⟨d, hd, hrun⟩ := hkeys j s' (by rw [hrows, hs'])
  obtain rfl := Option.some.inj (hs.symm.trans hd)
  rw [Nat.zero_add] at hselect
  have hc := confirms_of_selectFrom hplain (fun item hm => Query.target_mem hm) hselect
    (slots_of_keys hrun).symm hi
  rwa [Nat.zero_add] at hc

/-- Completed rows are confirmed if the columns look back. -/
theorem CompletesIn.confirmed_of_looksBack (h : c.CompletesIn rows selected done)
    (hplain : ∀ item ∈ c.query.select, item.isAggregate = false)
    (hsystem : ∀ target, ¬ c.ComesTo (.snapshot target))
    (hl : ∀ s ∈ rows.rows, c.LooksBack c.query.select s) : c.Confirmed done := by
  intro j s hs i item hi
  have hne : c.query.select ≠ [] := List.ne_nil_of_mem (List.mem_of_getElem? hi)
  obtain ⟨r, hr, i', s', hselect, hslots⟩ := h.exists_select (List.mem_of_getElem? hs) hne
  have hnone : ∀ item ∈ c.query.select, ∀ target,
      ¬ c.Reaches item.expr.requests (.snapshot target) := fun item hm target ha =>
    hsystem target (.of_reaches (fun a => Query.mem_requests_of_select hm) ha)
  have hc := confirms_of_looksBack hplain (fun item hm => Query.target_mem hm) hnone (hl r hr)
    hselect hi j i
  obtain ⟨t, ht, hbound⟩ := hc
  refine ⟨t, ?_, fun u hu => ?_⟩
  · have hrow : rowEnvironment .column j i s none = rowEnvironment .column j i s' none := by
      rw [rowEnvironment, rowEnvironment, Environment.ofSolution, Environment.ofSolution, hslots]
    rw [runColumn, hrow]
    exact ht
  · rw [← Query.read_congr hslots]
    exact hbound u hu

/-- Completed rows are completed to themselves exactly if each column, computed over each row once
more, has no value or the one that is bound there. They are if columns read their own variables and
those of later columns only where these are bound from the start. -/
theorem complete_complete (hcalls : c.Unambiguous) (hagg : c.query.isAggregate = false)
    (h : (c.complete rows).outcome = .ok done) :
    let again := c.after (c.complete rows).events
    ((again.complete done).outcome = .ok done ↔ again.Confirmed done) ∧
      ((∀ target, ¬ c.ComesTo (.snapshot target)) →
        (∀ s ∈ rows.rows, c.LooksBack c.query.select s) →
          (again.complete done).outcome = .ok done) := by
  intro again
  have hplain := plain_of_isAggregate hagg
  have hW := whole_after_complete hcalls rows
  have hagg' : again.query.isAggregate = false := hagg
  obtain ⟨selected, hsteps⟩ := (complete_iff hagg).mp h
  have hconfirmed : again.Confirmed done → (again.complete done).outcome = .ok done := fun hc =>
    (complete_iff hagg').mpr (hsteps.again hW hplain hc)
  refine ⟨⟨fun hdone => ?_, hconfirmed⟩, fun hsystem hl => hconfirmed fun j s hs i item hi => ?_⟩
  · obtain ⟨selected', hagain⟩ := (complete_iff hagg').mp hdone
    exact hagain.confirmed hplain
  · exact (hsteps.confirmed_of_looksBack hplain hsystem hl j s hs i item hi).again hW fun a ha =>
      .query (Query.mem_requests_of_select (List.mem_of_getElem? hi) ha)

/-- A function is computed, and then a column that reads the first one. -/
theorem complete_complete_of_function :
    let f : Definition := ⟨⟨"f"⟩, [⟨"p"⟩], .coalesce [.var ⟨"p"⟩, .var ⟨"z"⟩]⟩
    let c : Context :=
      { query := .ofParts
          { select := [⟨⟨"x"⟩, .extension 0 ⟨"f"⟩ [.var ⟨"z"⟩]⟩,
              ⟨⟨"y"⟩, .coalesce [.var ⟨"x"⟩, .const (.iri ⟨"b"⟩)]⟩],
            distinct := true, functions := .ofList [f] },
        source := { store := {} } }
    let rows : Solutions := { Solutions.ofQuery c.query with
      rows := [{ slots := [some (.iri ⟨"a"⟩)] }, { slots := [some (.iri ⟨"a"⟩), none] }, {}] }
    ∃ done, (c.complete rows).outcome = .ok done ∧
      done.rows.map (·.slots) = [[some (.iri ⟨"a"⟩), some (.iri ⟨"a"⟩), some (.iri ⟨"a"⟩)],
        [none, none, some (.iri ⟨"b"⟩)]] ∧
      ((c.after (c.complete rows).events).complete done).outcome = .ok done := by
  intro f c rows
  have hcomes : ∀ r, c.ComesTo r → r = .call 0 ⟨"f"⟩ 1 := by
    intro r hr
    induction hr with
    | query hr => exact List.mem_singleton.mp hr
    | existence _ _ _ ih => cases ih
    | call _ hd hr ih =>
      cases ih
      obtain rfl : f = _ := Option.some.inj hd
      cases hr
  have hcalls : c.Unambiguous := by
    intro site count count' name name' ha ha'
    cases hcomes _ ha
    cases hcomes _ ha'
    rfl
  have hreads : ∀ item ∈ c.query.select, ∀ v, c.Reads item.expr v →
      v ∈ item.expr.vars ++ f.body.vars := by
    intro item hm v hr
    have hstart : ∀ r ∈ item.expr.requests, r ∈ c.query.requests := fun r =>
      Query.mem_requests_of_select hm
    cases hr with
    | mention hv => exact List.mem_append_left _ hv
    | pattern ha => cases hcomes _ (.of_reaches hstart ha)
    | body ha hd hv =>
      cases hcomes _ (.of_reaches hstart ha)
      obtain rfl : f = _ := Option.some.inj hd
      exact List.mem_append_right _ hv
  have hl : ∀ s, c.LooksBack c.query.select s := by
    refine fun s => ⟨fun later hm hr => ?_, fun later hm hr => ?_, trivial⟩
    · refine absurd (hreads _ List.mem_cons_self _ hr) ?_
      clear hr
      revert later
      decide
    · refine absurd (hreads _ (List.mem_cons_of_mem _ List.mem_cons_self) _ hr) ?_
      clear hr
      revert later
      decide
  have hrows : (c.complete rows).outcome.toOption.map (·.rows.map (·.slots)) =
      some [[some (.iri ⟨"a"⟩), some (.iri ⟨"a"⟩), some (.iri ⟨"a"⟩)],
        [none, none, some (.iri ⟨"b"⟩)]] := by
    decide +kernel
  cases hdone : (c.complete rows).outcome with
  | error e =>
    rw [hdone] at hrows
    cases hrows
  | ok done =>
    rw [hdone] at hrows
    have hsystem : ∀ target, ¬ c.ComesTo (.snapshot target) := fun target ha => by
      cases hcomes _ ha
    exact ⟨done, rfl, Option.some.inj hrows,
      (complete_complete hcalls (by decide) hdone).2 hsystem fun s _ => hl s⟩

/-- A column reads a later one, which is bound only once all are computed. -/
theorem not_complete_complete :
    ¬ ∀ (c : Context) (rows done : Solutions), c.Unambiguous → c.query.isAggregate = false →
      (∀ target, ¬ c.ComesTo (.snapshot target)) → (c.complete rows).outcome = .ok done →
        ((c.after (c.complete rows).events).complete done).outcome = .ok done := by
  intro h
  let c : Context :=
    { query := .ofParts
        { select := [⟨⟨"x"⟩, .coalesce [.var ⟨"y"⟩, .const (.iri ⟨"a"⟩)]⟩,
            ⟨⟨"y"⟩, .const (.iri ⟨"b"⟩)⟩] },
      source := { store := {} } }
  let rows : Solutions := { Solutions.ofQuery c.query with rows := [.unbound 2] }
  have hrows : (c.complete rows).outcome.toOption.map (·.rows.map (·.slots)) =
      some [[some (.iri ⟨"b"⟩), some (.iri ⟨"a"⟩)]] := by
    decide +kernel
  have hagain : ((c.complete rows).outcome.toOption.bind fun done =>
      ((c.after (c.complete rows).events).complete done).outcome.toOption.map
        (·.rows.map (·.slots))) = some [] := by
    decide +kernel
  cases hdone : (c.complete rows).outcome with
  | error e =>
    rw [hdone] at hrows
    cases hrows
  | ok done =>
    rw [hdone] at hrows hagain
    have hnone : ∀ r, ¬ c.ComesTo r := Scope.not_comesTo rfl
    have hsame := h c rows done (fun ha => absurd ha (hnone _)) (by decide) (fun _ => hnone _) hdone
    dsimp only [Except.toOption, Option.bind_some] at hagain
    rw [hsame] at hagain
    cases hrows.symm.trans hagain

end Context

end GraphQuery
