import GraphQuery.Proofs.Solution.Submission

/-! What a distinct sequence refuses. It remembers the projections of what was submitted since it
was emptied last. These are the projections of its rows only as long as no row is added without
submission and none is cut off. -/

namespace GraphQuery.Solutions

/-- What may be done to a sequence. -/
inductive Operation where
  | submit (row : Solution)
  | add (row : Solution)
  | resubmit
  | take
  | sortBy (order : Solution → Solution → Ordering)
  | slice (offset : Nat) (limit : Option Nat)

namespace Operation

/-- Whether the sequence is emptied, be it to submit its rows again. -/
def Empties : Operation → Prop
  | resubmit | take => True
  | submit _ | add _ | sortBy _ | slice _ _ => False

/-- Whether rows come in by submission only and leave only all together. -/
def Submits : Operation → Prop
  | submit _ | resubmit | take | sortBy _ => True
  | add _ | slice _ _ => False

end Operation

variable {s : Solutions} {row : Solution} {rows earlier : List Solution} {op : Operation}

def perform (s : Solutions) : Operation → Solutions
  | .submit row => (s.submit row).1
  | .add row => s.add row
  | .resubmit => s.resubmit
  | .take => s.clear
  | .sortBy order => s.sortBy order
  | .slice offset limit => s.slice offset limit

def after (s : Solutions) (ops : List Operation) : Solutions := ops.foldl perform s

/-- What was submitted since the sequence was emptied last, if one more operation is done. -/
def submittedBy (s : Solutions) (earlier : List Solution) : Operation → List Solution
  | .submit row => earlier ++ [row]
  | .resubmit => s.rows
  | .take => []
  | .add _ | .sortBy _ | .slice _ _ => earlier

/-- What was submitted since the sequence was emptied last, after some more operations. -/
def submitted (s : Solutions) (earlier : List Solution) : List Operation → List Solution
  | [] => earlier
  | op :: ops => (s.perform op).submitted (s.submittedBy earlier op) ops

/-- The empty sequence that refuses duplicates. -/
def fresh (vars : List Variable) (projection : List Nat) : Solutions :=
  { vars, projection, distinct := true }

/-- Whether submission refuses what projects to the same as a row that is there, and appends
everything else. -/
structure RefusesDuplicate (s : Solutions) (row : Solution) : Prop where
  refuses : (∃ r ∈ s.rows, r.restrict s.projection = row.restrict s.projection) →
    s.submit row = (s, false)
  appends : (¬ ∃ r ∈ s.rows, r.restrict s.projection = row.restrict s.projection) →
    ∃ seen, s.submit row = ({ s with rows := s.rows ++ [row], seen }, true)

/-! ### What is remembered -/

/-- Whether the projections that are remembered are those of some solutions. -/
def Remembers (s : Solutions) (rows : List Solution) : Prop :=
  ∀ key, key ∈ s.seen ↔ ∃ r ∈ rows, r.restrict s.projection = key

theorem remembers_fresh (vars : List Variable) (projection : List Nat) :
    (fresh vars projection).Remembers [] := by simp [Remembers, fresh]

theorem remembers_clear (s : Solutions) : s.clear.Remembers [] := by simp [Remembers, clear]

theorem projection_submit (s : Solutions) (row : Solution) :
    (s.submit row).1.projection = s.projection :=
  projection_submitAll s [row]

theorem distinct_perform (s : Solutions) (op : Operation) :
    (s.perform op).distinct = s.distinct := by
  cases op with
  | submit row => exact distinct_submitAll s [row]
  | resubmit => exact distinct_submitAll s.clear s.rows
  | add row => rfl
  | take => rfl
  | sortBy order => rfl
  | slice offset limit => rfl

theorem projection_perform (s : Solutions) (op : Operation) :
    (s.perform op).projection = s.projection := by
  cases op with
  | submit row => exact projection_submit s row
  | resubmit => exact projection_resubmit s
  | add row => rfl
  | take => rfl
  | sortBy order => rfl
  | slice offset limit => rfl

/-- What is submitted is remembered, whether it is refused or not. -/
theorem Remembers.submit (h : s.Remembers rows) (hd : s.distinct = true) (row : Solution) :
    (s.submit row).1.Remembers (rows ++ [row]) := by
  intro key
  have happend : (∃ r ∈ rows ++ [row], r.restrict s.projection = key) ↔
      (∃ r ∈ rows, r.restrict s.projection = key) ∨ row.restrict s.projection = key := by
    simp [or_and_right, exists_or]
  rw [projection_submit, happend, ← h key]
  by_cases hm : row.restrict s.projection ∈ s.seen
  · rw [submit_of_mem hd hm]
    exact (or_iff_left_of_imp fun hkey => hkey ▸ hm).symm
  · rw [submit_of_notMem hd hm]
    show key ∈ row.restrict s.projection :: s.seen ↔ _
    rw [List.mem_cons, or_comm, eq_comm (a := key)]

theorem Remembers.submitAll (h : s.Remembers earlier) (hd : s.distinct = true)
    (rows : List Solution) : (s.submitAll rows).Remembers (earlier ++ rows) := by
  induction rows generalizing s earlier with
  | nil => simpa [Solutions.submitAll] using h
  | cons r rows ih =>
    rw [List.append_cons]
    apply ih (h.submit hd r)
    rw [← hd]
    exact s.distinct_perform (.submit r)

theorem Remembers.perform (h : s.Remembers earlier) (hd : s.distinct = true) (op : Operation) :
    (s.perform op).Remembers (s.submittedBy earlier op) := by
  cases op with
  | submit row => exact h.submit hd row
  | resubmit => exact s.remembers_clear.submitAll hd s.rows
  | take => exact s.remembers_clear
  | add row => exact h
  | sortBy order => exact h
  | slice offset limit => exact h

theorem Remembers.after (h : s.Remembers earlier) (hd : s.distinct = true)
    (ops : List Operation) : (s.after ops).Remembers (s.submitted earlier ops) := by
  induction ops generalizing s earlier with
  | nil => exact h
  | cons op ops ih => exact ih (h.perform hd op) ((s.distinct_perform op).trans hd)

theorem distinct_after (s : Solutions) (ops : List Operation) :
    (s.after ops).distinct = s.distinct := by
  induction ops generalizing s with
  | nil => rfl
  | cons op ops ih => exact (ih _).trans (s.distinct_perform op)

theorem projection_after (s : Solutions) (ops : List Operation) :
    (s.after ops).projection = s.projection := by
  induction ops generalizing s with
  | nil => rfl
  | cons op ops ih => exact (ih _).trans (s.projection_perform op)

theorem after_append (s : Solutions) (ops ops' : List Operation) :
    s.after (ops ++ ops') = (s.after ops).after ops' :=
  List.foldl_append

/-- A sequence refuses duplicates as far as what it remembers projects like its rows. -/
theorem Remembers.refusesDuplicate_iff (h : s.Remembers rows) (hd : s.distinct = true) :
    s.RefusesDuplicate row ↔
      ((∃ r ∈ rows, r.restrict s.projection = row.restrict s.projection) ↔
        ∃ r ∈ s.rows, r.restrict s.projection = row.restrict s.projection) := by
  rw [← h]
  constructor
  · intro hs
    by_cases hr : ∃ r ∈ s.rows, r.restrict s.projection = row.restrict s.projection
    · refine iff_of_true (of_not_not fun hm => ?_) hr
      have := (submit_of_notMem hd hm).symm.trans (hs.refuses hr)
      simp at this
    · refine iff_of_false (fun hm => ?_) hr
      obtain ⟨seen, happ⟩ := hs.appends hr
      have := (submit_of_mem hd hm).symm.trans happ
      simp at this
  · intro hiff
    exact ⟨fun hr => submit_of_mem hd (hiff.mpr hr),
      fun hr => ⟨_, submit_of_notMem hd fun hm => hr (hiff.mp hm)⟩⟩

/-! ### Sequences that remember their rows -/

/-- Submission keeps what is remembered and what is there alike. -/
theorem remembers_rows_submit (h : s.Remembers s.rows) (hd : s.distinct = true) (row : Solution) :
    (s.submit row).1.Remembers (s.submit row).1.rows := by
  by_cases hm : row.restrict s.projection ∈ s.seen
  · rw [submit_of_mem hd hm]
    exact h
  · have happ := h.submit hd row
    rw [submit_of_notMem hd hm] at happ ⊢
    exact happ

theorem remembers_rows_submitAll (h : s.Remembers s.rows) (hd : s.distinct = true)
    (rows : List Solution) : (s.submitAll rows).Remembers (s.submitAll rows).rows := by
  induction rows generalizing s with
  | nil => exact h
  | cons r rows ih =>
    exact ih (remembers_rows_submit h hd r) ((s.distinct_perform (.submit r)).trans hd)

theorem remembers_rows_of_empties (hd : s.distinct = true) (hop : op.Empties) :
    (s.perform op).Remembers (s.perform op).rows := by
  cases op with
  | resubmit => exact remembers_rows_submitAll s.remembers_clear hd s.rows
  | take => exact s.remembers_clear
  | submit row => exact hop.elim
  | add row => exact hop.elim
  | sortBy order => exact hop.elim
  | slice offset limit => exact hop.elim

theorem remembers_rows_perform (h : s.Remembers s.rows) (hd : s.distinct = true)
    (hop : op.Submits) : (s.perform op).Remembers (s.perform op).rows := by
  cases op with
  | submit row => exact remembers_rows_submit h hd row
  | resubmit => exact remembers_rows_of_empties hd trivial
  | take => exact remembers_rows_of_empties hd trivial
  | sortBy order =>
    intro key
    rw [perform, sortBy, h key]
    simp only [(stableSort_perm order s.rows).mem_iff]
  | add row => exact hop.elim
  | slice offset limit => exact hop.elim

theorem remembers_rows_after (h : s.Remembers s.rows) (hd : s.distinct = true)
    {ops : List Operation} (hops : ∀ op ∈ ops, op.Submits) :
    (s.after ops).Remembers (s.after ops).rows := by
  induction ops generalizing s with
  | nil => exact h
  | cons op ops ih =>
    exact ih (remembers_rows_perform h hd (hops op List.mem_cons_self))
      ((s.distinct_perform op).trans hd) fun op' h' => hops op' (List.mem_cons_of_mem op h')

/-- A sequence that is new or has just been emptied remembers its rows. -/
theorem remembers_rows_of_getLast (vars : List Variable) (projection : List Nat)
    {ops : List Operation} (hops : ∀ op ∈ ops.getLast?, op.Empties) :
    ((fresh vars projection).after ops).Remembers ((fresh vars projection).after ops).rows := by
  induction ops using List.reverseRecOn with
  | nil => exact remembers_fresh vars projection
  | append_singleton ops op _ =>
    rw [after_append]
    apply remembers_rows_of_empties
    · exact distinct_after _ ops
    · exact hops op (by simp)

/-- What a distinct sequence does with a submission after any operations. It refuses what projects
to the same as something submitted since it was emptied last, so that it refuses exactly the
duplicates of its rows if the rows project to the same as what was submitted since; this is so
after every submission, resubmission, taking and sorting, whatever was done before it was emptied
last. -/
theorem refusesDuplicate_after (vars : List Variable) (projection : List Nat) :
    (∀ ops row, ((fresh vars projection).after ops).RefusesDuplicate row ↔
      ((∃ r ∈ (fresh vars projection).submitted [] ops,
          r.restrict projection = row.restrict projection) ↔
        ∃ r ∈ ((fresh vars projection).after ops).rows,
          r.restrict projection = row.restrict projection)) ∧
    ∀ before since, (∀ op ∈ before.getLast?, Operation.Empties op) →
      (∀ op ∈ since, Operation.Submits op) →
      ∀ row, ((fresh vars projection).after (before ++ since)).RefusesDuplicate row := by
  constructor
  · intro ops row
    have h := (remembers_fresh vars projection).after rfl ops
    rw [h.refusesDuplicate_iff (distinct_after _ ops), projection_after]
    rfl
  · intro before since hbefore hsince row
    have hd : ((fresh vars projection).after before).distinct = true := distinct_after _ before
    rw [after_append, Remembers.refusesDuplicate_iff _ ((distinct_after _ since).trans hd)]
    exact remembers_rows_after (remembers_rows_of_getLast vars projection hbefore) hd hsince

/-- A row that is added without submission stays unknown until the rows are submitted again. -/
theorem refusesDuplicate_after_of_resubmit :
    ((fresh [⟨"x"⟩] [0]).after [.add ⟨[some (.blank "a")], [], []⟩, .resubmit,
      .submit ⟨[some (.blank "b")], [], []⟩]).RefusesDuplicate ⟨[some (.blank "a")], [], []⟩ := by
  refine (refusesDuplicate_after [⟨"x"⟩] [0]).2 [.add _, .resubmit] [.submit _] ?_ ?_ _
  · intro op hop
    obtain rfl : Operation.resubmit = op := by simpa using hop
    trivial
  · intro op hop
    obtain rfl := List.mem_singleton.mp hop
    trivial

/-- A row that is added without submission is not refused afterwards, and a row that has been cut
off is. -/
theorem not_refusesDuplicate :
    ¬ ((fresh [⟨"x"⟩] [0]).after [.add ⟨[some (.blank "a")], [], []⟩]).RefusesDuplicate
        ⟨[some (.blank "a")], [], []⟩ ∧
      ¬ ((fresh [⟨"x"⟩] [0]).after [.submit ⟨[some (.blank "a")], [], []⟩,
        .slice 1 none]).RefusesDuplicate ⟨[some (.blank "a")], [], []⟩ := by
  constructor
  · intro h
    have hnew : (Solutions.submit _ _).2 = false :=
      congrArg Prod.snd (h.refuses ⟨_, List.mem_cons_self, rfl⟩)
    revert hnew
    decide
  · intro h
    obtain ⟨seen, happ⟩ := h.appends (by rintro ⟨r, hr, -⟩; cases hr)
    have hnew : (Solutions.submit _ _).2 = true := congrArg Prod.snd happ
    revert hnew
    decide

end GraphQuery.Solutions
