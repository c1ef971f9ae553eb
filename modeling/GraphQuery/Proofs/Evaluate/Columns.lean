import GraphQuery.Evaluate.Grouping
import GraphQuery.Proofs.Evaluate.Coincidence
import GraphQuery.Proofs.Evaluate.Environment

/-! Computed columns. They are computed for each solution, without the aggregates, and once more
over the group of the solution, when the columns of the first time are still bound. A group keeps
its row exactly if the second time leads to no other value than the first. -/

namespace GraphQuery

/-! ### Variables of solutions -/

namespace Solution

variable {s : Solution} {i j : Nat} {t : Option Term}

theorem slots_set (h : i < s.slots.length) : (s.set i t).slots = s.slots.set i t := by
  simp [set, Nat.sub_eq_zero_of_le h]

/-- A slot that is set is there, and other slots are as they were. -/
theorem get_set : (s.set i t).get? j = if j = i then t else s.get? j := by
  rw [get?, set, List.getElem?_set]
  by_cases hj : j = i
  · have hlength : i < s.slots.length + (i + 1 - s.slots.length) := by omega
    simp [hj, hlength]
  · rw [if_neg (Ne.symm hj), if_neg hj, get?, List.getElem?_append]
    split_ifs with hlt
    · rfl
    · rw [List.getElem?_eq_none (not_lt.mp hlt), List.getElem?_replicate]
      split_ifs <;> rfl

theorem set_get (h : i < s.slots.length) (ht : s.get? i = t) : s.set i t = s := by
  have hs : s.slots.set i t = s.slots := by
    rw [← ht, get?, List.getElem?_eq_getElem h]
    exact List.set_getElem_self h
  have hset : s.set i t = { s with slots := (s.set i t).slots } := rfl
  rw [hset, slots_set h, hs]

/-- One slot for each variable of a query. -/
def Fits (q : Query) (s : Solution) : Prop := s.slots.length = q.vars.length

end Solution

namespace Query

variable {q : Query} {s s' : Solution} {v w : Variable} {t : Option Term}

/-- What a solution binds a variable to. -/
def read (q : Query) (v : Variable) (s : Solution) : Option Term := (q.slot? v).bind s.get?

/-- A solution with something else for a variable. -/
def put (q : Query) (v : Variable) (t : Option Term) (s : Solution) : Solution :=
  (q.slot? v).elim s (s.set · t)

theorem fits_put (hs : s.Fits q) : (q.put v t s).Fits q := by
  unfold put
  cases hi : q.slot? v with
  | none => exact hs
  | some i =>
    have hlt : i < s.slots.length := hs ▸ slot_lt hi
    rw [Option.elim_some, Solution.Fits, Solution.slots_set hlt, List.length_set]
    exact hs

theorem read_put (hv : v ∈ q.vars) :
    q.read w (q.put v t s) = if w = v then t else q.read w s := by
  obtain ⟨i, hi⟩ := exists_slot hv
  rw [put, hi, Option.elim_some]
  unfold read
  cases hj : q.slot? w with
  | none =>
    have hne : w ≠ v := fun h => by simp [h, hi] at hj
    simp [hne]
  | some j =>
    have hij : j = i ↔ w = v :=
      ⟨fun h => slot_injective hj (h ▸ hi), fun h => Option.some.inj (hj.symm.trans (h ▸ hi))⟩
    simp only [Option.bind_some, Solution.get_set, hij]

theorem put_read (hs : s.Fits q) (ht : q.read v s = t) : q.put v t s = s := by
  unfold put
  cases hi : q.slot? v with
  | none => rfl
  | some i =>
    rw [read, hi, Option.bind_some] at ht
    exact Solution.set_get (hs ▸ slot_lt hi) ht

theorem slots_eq_of_read (hs : s.Fits q) (hs' : s'.Fits q) (h : ∀ v, q.read v s = q.read v s') :
    s.slots = s'.slots := by
  refine List.ext_getElem (hs.trans hs'.symm) fun i hi hi' => ?_
  have hlt : i < q.vars.length := hs ▸ hi
  have := h q.vars[i]
  rw [read, read, slot_eq_some.mpr (List.getElem?_eq_getElem hlt)] at this
  simpa [Solution.get?, hi, hi'] using this

theorem read_congr (h : s.slots = s'.slots) : q.read v s = q.read v s' := by
  have hget : s.get? = s'.get? := funext fun _ => by rw [Solution.get?, Solution.get?, h]
  rw [read, read, hget]

theorem get_rowEnvironment (stage : Context.Stage) (row i : Nat) (group : Option (List Solution)) :
    (Context.rowEnvironment stage row i s group).get? q v = q.read v s :=
  Environment.get_eq_binding rfl

end Query

namespace Context

/-! ### Computing columns -/

/-- The value of the `i`-th column, if it has one. -/
def columnValue (c : Context) (group : Option (List Solution)) (row i : Nat) (e : Expr)
    (s : Solution) : Option Term :=
  let stage := if group.isSome then Stage.groupColumn else .column
  (c.evaluate e (rowEnvironment stage row i s group)).outcome.toOption.join.map Term.canonical

/-- The columns from one on, each computed over a group beside the earlier ones. -/
def columnsFrom (c : Context) (group : List Solution) (row : Nat) :
    Nat → List SelectItem → Solution → Solution
  | _, [], s => s
  | i, item :: rest, s =>
    columnsFrom c group row (i + 1) rest
      (c.query.put item.target (c.columnValue (some group) row i item.expr s) s)

/-- Whether two values are the same as far as there are two. -/
def Concur (t u : Option Term) : Prop := ∀ a ∈ t, ∀ b ∈ u, a = b

/-- Whether each column from one on gets its value although later columns, and the column itself,
are bound already. The first solution has the earlier columns only, the second has the others as
well. -/
def SettlesFrom (c : Context) (group : List Solution) (row : Nat) :
    Nat → List SelectItem → Solution → Solution → Prop
  | _, [], _, _ => True
  | i, item :: rest, s, s' =>
    let t := c.columnValue (some group) row i item.expr s
    let left := c.query.read item.target s'
    let again := c.columnValue (some group) row i item.expr s'
    (Concur left again ∧ left.or again = t) ∧
      SettlesFrom c group row (i + 1) rest (c.query.put item.target t s)
        (c.query.put item.target t s')

/-- Whether columns are variables of the query, no two of them the same. -/
def Columns (q : Query) (items : List SelectItem) : Prop :=
  (items.map (·.target)).Nodup ∧ ∀ item ∈ items, item.target ∈ q.vars

variable {c : Context} {group : Option (List Solution)} {row i : Nat} {item : SelectItem}
  {items rest : List SelectItem} {s s' : Solution} {r : Option Solution}

theorem Columns.tail (h : Columns c.query (item :: rest)) : Columns c.query rest :=
  ⟨(List.nodup_cons.mp h.1).2, fun x hx => h.2 x (List.mem_cons_of_mem _ hx)⟩

theorem Columns.ne_target (h : Columns c.query (item :: rest)) {x : SelectItem} (hx : x ∈ rest) :
    x.target ≠ item.target := fun he =>
  (List.nodup_cons.mp h.1).1 (List.mem_map.mpr ⟨x, hx, he⟩)

/-- What a row binds once a column has been computed, unless the row is lost. -/
def bindColumn (c : Context) (v : Variable) (t : Option Term) (s : Solution) : Option Solution :=
  match t.map Term.canonical, c.query.read v s with
  | none, _ => some s
  | some t, none => some (c.query.put v (some t) s)
  | some t, some current => if current = t then some s else none

/-- One column is computed, and the others over what the row binds then. -/
theorem selectFrom_eq (hv : item.target ∈ c.query.vars)
    (hg : (group.isNone && item.isAggregate) = false) :
    c.selectFrom group row i (item :: rest) s =
      (c.evaluate item.expr (rowEnvironment (if group.isSome then .groupColumn else .column) row i s
        group) >>= fun t => (c.bindColumn item.target t s).elim (pure none)
          (c.selectFrom group row (i + 1) rest)) := by
  obtain ⟨slot, hslot⟩ := Query.exists_slot hv
  rw [selectFrom, if_neg (by simp [hg])]
  simp only [hslot]
  refine bind_congr fun t => ?_
  have hread : c.query.read item.target s = s.get? slot := by
    rw [Query.read, hslot, Option.bind_some]
  unfold bindColumn
  rw [hread]
  cases t with
  | none => rfl
  | some t =>
    cases s.get? slot with
    | none => simp only [Option.map_some, Query.put, hslot, Option.elim_some]
    | some current =>
      dsimp only [Option.map_some]
      split_ifs <;> rfl

/-- One column: it keeps the value that it has, or gets the one that is computed, and there is no
solution if the two are different. -/
theorem selectFrom_cons (hs : s.Fits c.query) (hc : Columns c.query (item :: rest))
    (hg : (group.isNone && item.isAggregate) = false)
    (h : (c.selectFrom group row i (item :: rest) s).outcome = .ok r) :
    let left := c.query.read item.target s
    let again := c.columnValue group row i item.expr s
    Concur left again ∧ (c.selectFrom group row (i + 1) rest
      (c.query.put item.target (left.or again) s)).outcome = .ok r ∨
    ¬ Concur left again ∧ r = none := by
  intro left again
  rw [selectFrom_eq (hc.2 item List.mem_cons_self) hg] at h
  obtain ⟨t, ht, h⟩ := Run.outcome_bind_eq_ok h
  have hagain : again = t.map Term.canonical := by
    simp only [again, columnValue, ht, Except.toOption, Option.join_some]
  rw [bindColumn, ← hagain] at h
  cases hu : again with
  | none =>
    rw [hu] at h
    refine .inl ⟨by simp [Concur], ?_⟩
    rwa [Option.or_none, Query.put_read hs rfl]
  | some u =>
    cases hl : left with
    | none =>
      rw [hu, show c.query.read item.target s = none from hl] at h
      exact .inl ⟨by simp [Concur], h⟩
    | some t' =>
      rw [hu, show c.query.read item.target s = some t' from hl] at h
      dsimp only at h
      split_ifs at h with htu
      · refine .inl ⟨by simp [Concur, htu], ?_⟩
        rwa [Option.some_or, Query.put_read hs hl]
      · exact .inr ⟨by simpa [Concur] using htu, (Except.ok.inj h).symm⟩

/-- Computing columns changes nothing else. -/
theorem selectFrom_frame (hs : s.Fits c.query) (hc : Columns c.query items)
    (h : (c.selectFrom group row i items s).outcome = .ok (some s')) :
    s'.Fits c.query ∧ (∀ v, (∀ item ∈ items, v ≠ item.target) →
      c.query.read v s' = c.query.read v s) := by
  induction items generalizing i s with
  | nil =>
    obtain rfl := Option.some.inj (Except.ok.inj h)
    exact ⟨hs, fun _ _ => rfl⟩
  | cons item rest ih =>
    by_cases hg : (group.isNone && item.isAggregate) = true
    · rw [selectFrom, if_pos hg] at h
      obtain ⟨hf, hr⟩ := ih hs hc.tail h
      exact ⟨hf, fun v hv => hr v fun x hx => hv x (List.mem_cons_of_mem _ hx)⟩
    · rcases selectFrom_cons hs hc (Bool.eq_false_of_not_eq_true hg) h with ⟨-, h⟩ | ⟨-, h⟩
      · obtain ⟨hf, hr⟩ := ih (Query.fits_put hs) hc.tail h
        refine ⟨hf, fun v hv => ?_⟩
        obtain ⟨hne, hv⟩ := List.forall_mem_cons.mp hv
        rw [hr v hv, Query.read_put (hc.2 item List.mem_cons_self), if_neg hne]
      · cases h

theorem columnsFrom_frame {group : List Solution} (hs : s.Fits c.query)
    (hc : Columns c.query items) :
    (c.columnsFrom group row i items s).Fits c.query ∧ ∀ v, (∀ item ∈ items, v ≠ item.target) →
      c.query.read v (c.columnsFrom group row i items s) = c.query.read v s := by
  induction items generalizing i s with
  | nil => exact ⟨hs, fun _ _ => rfl⟩
  | cons item rest ih =>
    obtain ⟨hf, hr⟩ := ih (Query.fits_put hs) hc.tail
    refine ⟨hf, fun v hv => ?_⟩
    obtain ⟨hne, hv⟩ := List.forall_mem_cons.mp hv
    exact (hr v hv).trans <| by
      rw [Query.read_put (hc.2 item List.mem_cons_self), if_neg hne]

/-- Columns that are free are computed without losing the solution. -/
theorem selectFrom_of_free (hs : s.Fits c.query) (hc : Columns c.query items)
    (hf : ∀ item ∈ items, c.query.read item.target s = none)
    (h : (c.selectFrom group row i items s).outcome = .ok r) : r.isSome := by
  induction items generalizing i s with
  | nil =>
    rw [← Except.ok.inj h]
    rfl
  | cons item rest ih =>
    obtain ⟨hi, hf⟩ := List.forall_mem_cons.mp hf
    by_cases hg : (group.isNone && item.isAggregate) = true
    · rw [selectFrom, if_pos hg] at h
      exact ih hs hc.tail hf h
    · rcases selectFrom_cons hs hc (Bool.eq_false_of_not_eq_true hg) h with ⟨-, h⟩ | ⟨hn, -⟩
      · refine ih (Query.fits_put hs) hc.tail (fun x hx => ?_) h
        rw [Query.read_put (hc.2 item List.mem_cons_self), if_neg (hc.ne_target hx), hf x hx]
      · exact absurd (by simp [Concur, hi]) hn

/-! ### Columns of groups -/

/-- The columns computed beside what is left of the first time are those that a group should have
exactly if each of them settles. -/
theorem selectFrom_eq_iff {group : List Solution} (hs : s.Fits c.query) (hs' : s'.Fits c.query)
    (hc : Columns c.query items)
    (hb : ∀ v, (∀ item ∈ items, v ≠ item.target) → c.query.read v s = c.query.read v s')
    (h : (c.selectFrom (some group) row i items s').outcome = .ok r) :
    r.map (·.slots) = some (c.columnsFrom group row i items s).slots ↔
      c.SettlesFrom group row i items s s' := by
  induction items generalizing i s s' with
  | nil =>
    rw [← Except.ok.inj h, columnsFrom, SettlesFrom]
    simpa using Query.slots_eq_of_read hs' hs fun v => (hb v (by simp)).symm
  | cons item rest ih =>
    have hv := hc.2 item List.mem_cons_self
    rw [columnsFrom, SettlesFrom]
    set t := c.columnValue (some group) row i item.expr s
    have hfree : ∀ x ∈ rest, item.target ≠ x.target := fun x hx => (hc.ne_target hx).symm
    rcases selectFrom_cons hs' hc rfl h with ⟨hcon, h⟩ | ⟨hcon, rfl⟩
    · by_cases ht : (c.query.read item.target s').or
          (c.columnValue (some group) row i item.expr s') = t
      · rw [ht] at h
        rw [ih (Query.fits_put hs) (Query.fits_put hs') hc.tail (fun v hr => ?_) h]
        · exact ⟨fun hset => ⟨⟨hcon, ht⟩, hset⟩, fun hset => hset.2⟩
        · rw [Query.read_put hv, Query.read_put hv]
          split_ifs with hvt
          · rfl
          · exact hb v (List.forall_mem_cons.mpr ⟨hvt, hr⟩)
      -- the column keeps its value to the end, so the rows differ in it
      · refine ⟨fun hr => ?_, fun hset => absurd hset.1.2 ht⟩
        obtain ⟨s₁, rfl, hs₁⟩ := Option.map_eq_some_iff.mp hr
        have hr₁ := (selectFrom_frame (Query.fits_put hs') hc.tail h).2 item.target hfree
        have hr₂ : c.query.read item.target
            (c.columnsFrom group row (i + 1) rest (c.query.put item.target t s)) =
              c.query.read item.target (c.query.put item.target t s) :=
          (columnsFrom_frame (Query.fits_put hs) hc.tail).2 item.target hfree
        rw [Query.read_put hv, if_pos rfl] at hr₁
        rw [Query.read_put hv, if_pos rfl, ← Query.read_congr hs₁, hr₁] at hr₂
        exact absurd hr₂ ht
    · exact ⟨fun hr => (by cases hr), fun hset => absurd hset.1.1 hcon⟩

/-- Columns that are free when they are computed over a group settle. -/
theorem settlesFrom_of_free {group : List Solution} (hs : s.Fits c.query)
    (hc : Columns c.query items) (hf : ∀ item ∈ items, c.query.read item.target s = none) :
    c.SettlesFrom group row i items s s := by
  induction items generalizing i s with
  | nil => trivial
  | cons item rest ih =>
    obtain ⟨hi, hf⟩ := List.forall_mem_cons.mp hf
    refine ⟨by simp [Concur, hi], ih (Query.fits_put hs) hc.tail fun x hx => ?_⟩
    rw [Query.read_put (hc.2 item List.mem_cons_self), if_neg (hc.ne_target hx), hf x hx]

/-! ### Columns that do not depend on the order -/

/-- Whether columns are computed from values alone, none of them from itself or a later one, and
those without an aggregate from none of the variables of aggregates. -/
structure Independent (aggregates : Variable → Prop) (items : List SelectItem) : Prop where
  pure : ∀ a ∈ items, a.expr.isPure = true
  own : ∀ a ∈ items, a.target ∉ a.expr.vars
  later : items.Pairwise fun a b => b.target ∉ a.expr.vars
  reads : ∀ a ∈ items, a.isAggregate = false → ∀ v ∈ a.expr.vars, ¬ aggregates v
  aggregate : ∀ a ∈ items, a.isAggregate = true → aggregates a.target

theorem columnValue_congr {group' : Option (List Solution)} {row' i' : Nat} {e : Expr}
    (hp : e.isPure = true) (hv : ∀ v ∈ e.vars, c.query.read v s = c.query.read v s')
    (hg : e.isAggregate = true → group = group') :
    c.columnValue group row i e s = c.columnValue group' row' i' e s' := by
  have ha : ∀ stage stage', Environment.Agree c.query e (rowEnvironment stage row i s group)
      (rowEnvironment stage' row' i' s' group') := fun stage stage' =>
    ⟨fun v hm => by rw [Query.get_rowEnvironment, Query.get_rowEnvironment, hv v hm], hg⟩
  rw [columnValue, columnValue, evaluate, evaluate, (Expr.eval_same e _ _ hp (ha _ _)).eq]

variable {A : Variable → Prop}

theorem Independent.tail (h : Independent A (item :: rest)) : Independent A rest where
  pure a ha := h.pure a (List.mem_cons_of_mem _ ha)
  own a ha := h.own a (List.mem_cons_of_mem _ ha)
  later := (List.pairwise_cons.mp h.later).2
  reads a ha := h.reads a (List.mem_cons_of_mem _ ha)
  aggregate a ha := h.aggregate a (List.mem_cons_of_mem _ ha)

theorem Independent.ne_target (h : Independent A (item :: rest)) {v : Variable}
    (hv : v ∈ item.expr.vars) : ∀ x ∈ item :: rest, v ≠ x.target :=
  List.forall_mem_cons.mpr ⟨fun he => h.own item List.mem_cons_self (he ▸ hv),
    fun x hx he => (List.pairwise_cons.mp h.later).1 x hx (he ▸ hv)⟩

/-- Columns that do not depend on the order settle. -/
theorem Independent.settlesFrom {group : List Solution} {row₁ : Nat} {p f : Solution}
    (hi : Independent A items) (hc : Columns c.query items) (hp : p.Fits c.query)
    (hs : s.Fits c.query) (hs' : s'.Fits c.query)
    (hfree : ∀ item ∈ items, c.query.read item.target p = none)
    (hps : ∀ v, ¬ A v → (∀ item ∈ items, v ≠ item.target) → c.query.read v p = c.query.read v s)
    (hss : ∀ v, (∀ item ∈ items, v ≠ item.target) → c.query.read v s = c.query.read v s')
    (hf : (c.selectFrom none row₁ i items p).outcome = .ok (some f))
    (hfs : ∀ item ∈ items, c.query.read item.target s' = c.query.read item.target f) :
    c.SettlesFrom group row i items s s' := by
  induction items generalizing i p s s' with
  | nil => trivial
  | cons item rest ih =>
    have hv := hc.2 item List.mem_cons_self
    have hpure := hi.pure item List.mem_cons_self
    obtain ⟨hfi, hfs⟩ := List.forall_mem_cons.mp hfs
    obtain ⟨hfreei, hfree⟩ := List.forall_mem_cons.mp hfree
    have hrest : ∀ x ∈ rest, item.target ≠ x.target := fun x hx => (hc.ne_target hx).symm
    rw [SettlesFrom]
    set t := c.columnValue (some group) row i item.expr s with ht
    have hagain : c.columnValue (some group) row i item.expr s' = t :=
      columnValue_congr hpure (fun v hm => (hss v (hi.ne_target hm)).symm) fun _ => rfl
    have hssNext : ∀ v, (∀ x ∈ rest, v ≠ x.target) →
        c.query.read v (c.query.put item.target t s) =
          c.query.read v (c.query.put item.target t s') := fun v hr => by
      rw [Query.read_put hv, Query.read_put hv]
      split_ifs with hvt
      · rfl
      · exact hss v (List.forall_mem_cons.mpr ⟨hvt, hr⟩)
    have hfsNext : ∀ x ∈ rest, c.query.read x.target (c.query.put item.target t s') =
        c.query.read x.target f := fun x hx => by
      rw [Query.read_put hv, if_neg (hc.ne_target hx), hfs x hx]
    rw [hagain]
    by_cases hagg : item.isAggregate = true
    -- the first time, an aggregate is left out
    · rw [selectFrom, if_pos (by simp [hagg])] at hf
      have hnone : c.query.read item.target s' = none := by
        rw [hfi, (selectFrom_frame hp hc.tail hf).2 _ hrest, hfreei]
      rw [hnone]
      refine ⟨⟨by simp [Concur], Option.none_or⟩, ih hi.tail hc.tail hp (Query.fits_put hs)
        (Query.fits_put hs') hfree (fun v hA hr => ?_) hssNext hf hfsNext⟩
      have hne : v ≠ item.target := fun he => hA (he ▸ hi.aggregate item List.mem_cons_self hagg)
      rw [Query.read_put hv, if_neg hne]
      exact hps v hA (List.forall_mem_cons.mpr ⟨hne, hr⟩)
    -- the first time, another column has the value that it has for the group
    · have hagg : item.isAggregate = false := Bool.eq_false_of_not_eq_true hagg
      obtain ⟨-, hf⟩ | ⟨hn, -⟩ := selectFrom_cons hp hc (by simp [hagg]) hf
      · have hvalue : c.columnValue none row₁ i item.expr p = t :=
          columnValue_congr hpure
            (fun v hm => hps v (hi.reads item List.mem_cons_self hagg v hm) (hi.ne_target hm))
            fun ha => absurd ha (by simpa [SelectItem.isAggregate] using hagg)
        rw [hfreei, Option.none_or, hvalue] at hf
        have hleft : c.query.read item.target s' = t := by
          rw [hfi, (selectFrom_frame (Query.fits_put hp) hc.tail hf).2 _ hrest,
            Query.read_put hv, if_pos rfl]
        rw [hleft]
        refine ⟨⟨fun a ha b hb => Option.mem_unique ha hb, Option.or_self⟩, ih hi.tail hc.tail
          (Query.fits_put hp) (Query.fits_put hs) (Query.fits_put hs') (fun x hx => ?_)
          (fun v hA hr => ?_) hssNext hf hfsNext⟩
        · rw [Query.read_put hv, if_neg (hc.ne_target hx), hfree x hx]
        · rw [Query.read_put hv, Query.read_put hv]
          split_ifs with hvt
          · rfl
          · exact hps v hA (List.forall_mem_cons.mpr ⟨hvt, hr⟩)
      · exact absurd (by simp [Concur, hfreei]) hn

end Context

end GraphQuery
