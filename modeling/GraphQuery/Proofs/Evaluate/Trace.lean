import GraphQuery.Proofs.Evaluate.Run

/-! What is handed on one by one, until the end or an error, with the events on the way. A run of
a trace gives its items to a step until the step asks to stop. -/

namespace GraphQuery

inductive Trace (α : Type) where
  | stop
  | fail (e : QueryError)
  | event (e : Event) (rest : Trace α)
  | item (a : α) (rest : Trace α)

namespace Trace

variable {α β σ : Type}

/-- Goes on with a second trace where the first one ends. -/
def append : Trace α → Trace α → Trace α
  | stop, u => u
  | fail e, _ => fail e
  | event e t, u => event e (t.append u)
  | item a t, u => item a (t.append u)

/-- Replaces each item by a trace. -/
def bind : Trace α → (α → Trace β) → Trace β
  | stop, _ => stop
  | fail e, _ => fail e
  | event e t, f => event e (t.bind f)
  | item a t, f => (f a).append (t.bind f)

def single (a : α) : Trace α := item a stop

/-- The items up to the end or an error. -/
def items : Trace α → List α
  | stop | fail _ => []
  | event _ t => t.items
  | item a t => a :: t.items

/-- The trace that an outcome stands for. -/
def ofOutcome : Except QueryError (Trace α) → Trace α
  | .error e => fail e
  | .ok t => t

/-- Makes the events of a run and goes on with the trace that it results in. -/
def ofRun (r : Run (Trace α)) : Trace α := r.events.foldr event (ofOutcome r.outcome)

/-- The trace of a binding, which may fail or conflict. -/
def ofBinding : Except QueryError (Option α) → Trace α
  | .error e => fail e
  | .ok none => stop
  | .ok (some a) => single a

/-- The traces of the members of a list, one after the other. -/
def visit (f : Nat → α → Trace β) : Nat → List α → Trace β
  | _, [] => stop
  | i, a :: as => (f i a).append (visit f (i + 1) as)

/-- One more item at the end if there is no other. -/
def orElse (t : Trace α) (a : α) : Trace α := if t.items.isEmpty then t.append (single a) else t

/-- What remains of a trace without its items. -/
def drain : Trace α → Run Unit
  | stop => pure ()
  | fail e => Run.fail e
  | event e t => do
    Run.emit e
    t.drain
  | item _ t => t.drain

/-- Gives the items to a step until it asks to stop. -/
def run (next : α → σ → Run (ForInStep σ)) : Trace α → σ → Run (ForInStep σ)
  | stop, s => pure (.yield s)
  | fail e, _ => Run.fail e
  | event e t, s => do
    Run.emit e
    t.run next s
  | item a t, s => Run.proceed (next a s) (t.run next)

/-! ### Items -/

variable {a : α} {b : β} {t u : Trace α} {f : α → Trace β}

theorem mem_of_append (h : a ∈ (t.append u).items) : a ∈ t.items ∨ a ∈ u.items := by
  induction t with
  | stop => exact .inr h
  | fail e => cases h
  | event e t ih => exact ih h
  | item a' t ih =>
    rcases List.mem_cons.mp h with rfl | h
    · exact .inl List.mem_cons_self
    · exact (ih h).imp (List.mem_cons_of_mem _) id

theorem mem_of_bind (h : b ∈ (t.bind f).items) : ∃ a ∈ t.items, b ∈ (f a).items := by
  induction t with
  | stop => cases h
  | fail e => cases h
  | event e t ih => exact ih h
  | item a t ih =>
    rcases mem_of_append h with h | h
    · exact ⟨a, List.mem_cons_self, h⟩
    · obtain ⟨a', ha', hb⟩ := ih h
      exact ⟨a', List.mem_cons_of_mem _ ha', hb⟩

theorem mem_of_ofRun {r : Run (Trace α)} (h : a ∈ (ofRun r).items) :
    ∃ t, r.outcome = .ok t ∧ a ∈ t.items := by
  obtain ⟨events, outcome⟩ := r
  induction events with
  | nil =>
    cases outcome with
    | error e => cases h
    | ok t => exact ⟨t, rfl, h⟩
  | cons e events ih => exact ih h

theorem mem_of_ofBinding {x : Except QueryError (Option α)} (h : a ∈ (ofBinding x).items) :
    x = .ok (some a) := by
  rcases x with e | _ | a'
  · cases h
  · cases h
  · rw [List.mem_singleton.mp h]

theorem mem_of_visit {f : Nat → α → Trace β} {i : Nat} {as : List α}
    (h : b ∈ (visit f i as).items) : ∃ j, ∃ a ∈ as, b ∈ (f j a).items := by
  induction as generalizing i with
  | nil => cases h
  | cons a as ih =>
    rcases mem_of_append h with h | h
    · exact ⟨i, a, List.mem_cons_self, h⟩
    · obtain ⟨j, a', ha', hb⟩ := ih h
      exact ⟨j, a', List.mem_cons_of_mem _ ha', hb⟩

theorem mem_of_orElse {a' : α} (h : a ∈ (t.orElse a').items) : a ∈ t.items ∨ a = a' := by
  unfold orElse at h
  split_ifs at h
  · exact (mem_of_append h).imp id List.mem_singleton.mp
  · exact .inl h

/-! ### Runs -/

variable {next next' : α → σ → Run (ForInStep σ)}

@[simp] theorem run_single (a : α) (s : σ) : (single a).run next s = next a s := Run.proceed_pure _

/-- Only what is done with the items counts. -/
theorem run_congr (h : ∀ a ∈ t.items, ∀ s, next a s = next' a s) (s : σ) :
    t.run next s = t.run next' s := by
  induction t generalizing s with
  | stop => rfl
  | fail e => rfl
  | event e t ih => exact bind_congr fun _ => ih h s
  | item a t ih =>
    obtain ⟨ha, ht⟩ := List.forall_mem_cons.mp h
    rw [run, run, ha s]
    exact congrArg _ (funext (ih ht))

theorem run_append (t u : Trace α) (s : σ) :
    (t.append u).run next s = Run.proceed (t.run next s) (u.run next) := by
  induction t generalizing s with
  | stop => simp [append, run]
  | fail e => rfl
  | event e t ih =>
    rw [append, run, run, Run.bind_proceed]
    exact bind_congr fun _ => ih s
  | item a t ih =>
    rw [append, run, run, Run.proceed_assoc]
    exact congrArg _ (funext ih)

theorem run_bind {next : β → σ → Run (ForInStep σ)} (t : Trace α) (s : σ) :
    (t.bind f).run next s = t.run (fun a => (f a).run next) s := by
  induction t generalizing s with
  | stop => rfl
  | fail e => rfl
  | event e t ih => exact bind_congr fun _ => ih s
  | item a t ih =>
    rw [bind, run_append, run]
    exact congrArg _ (funext ih)

theorem run_ofRun (r : Run (Trace α)) (s : σ) :
    (ofRun r).run next s = r >>= fun t => t.run next s := by
  obtain ⟨events, outcome⟩ := r
  induction events with
  | nil =>
    cases outcome with
    | error e => rfl
    | ok t => rfl
  | cons e events ih =>
    change (Run.emit e >>= fun _ => (ofRun ⟨events, outcome⟩).run next s) = _
    rw [ih]
    cases outcome <;> rfl

theorem run_ofBinding (x : Except QueryError (Option α)) (s : σ) :
    (ofBinding x).run next s = Run.ofExcept x >>= fun r => (r.elim stop single).run next s := by
  rcases x with e | _ | a
  · rfl
  · rfl
  · rfl

theorem visit_eq_run {g : Nat → β → σ → Run (ForInStep σ)} {f : Nat → β → Trace α} {bs : List β}
    (h : ∀ i, ∀ b ∈ bs, ∀ s, g i b s = (f i b).run next s) (i : Nat) (s : σ) :
    Run.visit g i bs s = (visit f i bs).run next s := by
  induction bs generalizing i s with
  | nil => rfl
  | cons b bs ih =>
    rw [Run.visit, visit, run_append, h i b List.mem_cons_self s]
    refine bind_congr fun step => ?_
    cases step with
    | done s => rfl
    | yield s => exact ih (fun j b hb => h j b (List.mem_cons_of_mem _ hb)) (i + 1) s

/-- Collecting all items makes the events of the trace. -/
theorem run_collect (g : α → β) (t : Trace α) (found : List β) :
    t.run (fun a found => pure (.yield (g a :: found))) found =
      t.drain >>= fun _ => pure (.yield ((t.items.map g).reverse ++ found)) := by
  induction t generalizing found with
  | stop => rfl
  | fail e => rfl
  | event e t ih =>
    rw [run, drain, bind_assoc]
    exact bind_congr fun _ => ih found
  | item a t ih =>
    rw [run, Run.proceed_yield, ih, drain]
    simp [items]

/-! ### Whether there was an item -/

/-- A step's answer together with whether there was an item. -/
def marked (found : Bool) : ForInStep σ → ForInStep (Bool × σ)
  | .done s => .done (true, s)
  | .yield s => .yield (found, s)

/-- Does a step, and remembers that there was an item. -/
def mark (next : α → σ → Run (ForInStep σ)) (a : α) (state : Bool × σ) :
    Run (ForInStep (Bool × σ)) := do
  pure (marked true (← next a state.2))

theorem run_mark (t : Trace α) (found : Bool) (s : σ) :
    t.run (mark next) (found, s) =
      t.run next s >>= fun step => pure (marked (found || !t.items.isEmpty) step) := by
  induction t generalizing found s with
  | stop => simp [run, items, marked]
  | fail e => rfl
  | event e t ih =>
    rw [run, run, bind_assoc]
    exact bind_congr fun _ => ih found s
  | item a t ih =>
    simp only [run, Run.proceed, mark, bind_assoc]
    refine bind_congr fun step => ?_
    cases step with
    | done s => simp [marked]
    | yield s => simp [marked, ih, items]

/-! ### Images -/

section Images

variable {γ τ : Type}

/-- Replaces each item. -/
def map (f : α → β) : Trace α → Trace β
  | stop => stop
  | fail e => fail e
  | event e t => event e (t.map f)
  | item a t => item (f a) (t.map f)

theorem map_append (f : α → β) (t u : Trace α) : (t.append u).map f = (t.map f).append (u.map f) := by
  induction t with
  | stop | fail e => rfl
  | event e t ih => exact congrArg (event e) ih
  | item a t ih => exact congrArg (item (f a)) ih

theorem map_of_bind (g : β → γ) (t : Trace α) (f : α → Trace β) :
    (t.bind f).map g = t.bind fun a => (f a).map g := by
  induction t with
  | stop | fail e => rfl
  | event e t ih => exact congrArg (event e) ih
  | item a t ih => rw [bind, bind, map_append, ih]

theorem bind_of_map (g : α → β) (t : Trace α) (f : β → Trace γ) :
    (t.map g).bind f = t.bind fun a => f (g a) := by
  induction t with
  | stop | fail e => rfl
  | event e t ih => exact congrArg (event e) ih
  | item a t ih => rw [map, bind, bind, ih]

theorem bind_congr_of_mem {t : Trace α} {f g : α → Trace β} (h : ∀ a ∈ t.items, f a = g a) :
    t.bind f = t.bind g := by
  induction t with
  | stop | fail e => rfl
  | event e t ih => exact congrArg (event e) (ih h)
  | item a t ih =>
    obtain ⟨ha, ht⟩ := List.forall_mem_cons.mp h
    rw [bind, bind, ha, ih ht]

theorem items_map (f : α → β) (t : Trace α) : (t.map f).items = t.items.map f := by
  induction t with
  | stop | fail e => rfl
  | event e t ih => exact ih
  | item a t ih => exact congrArg (f a :: ·) ih

theorem drain_map (f : α → β) (t : Trace α) : (t.map f).drain = t.drain := by
  induction t with
  | stop | fail e => rfl
  | event e t ih => exact congrArg (Run.emit e >>= fun _ => ·) ih
  | item a t ih => exact ih

theorem ofRun_map (f : α → Trace β) (r : Run α) :
    ofRun (f <$> r) = r.events.foldr event (ofOutcome (r.outcome.map f)) := by
  obtain ⟨events, outcome⟩ := r
  cases outcome with
  | error e => rfl
  | ok a =>
    change (events ++ []).foldr event (f a) = _
    rw [List.append_nil]
    rfl

theorem map_ofRun (g : β → γ) (f : α → Trace β) (r : Run α) :
    (ofRun (f <$> r)).map g = ofRun ((fun a => (f a).map g) <$> r) := by
  rw [ofRun_map, ofRun_map]
  induction r.events with
  | nil => cases r.outcome <;> rfl
  | cons e events ih => exact congrArg (event e) ih

theorem map_ofBinding (f : α → β) (x : Except QueryError (Option α)) :
    (ofBinding x).map f = ofBinding (x.map (Option.map f)) := by
  rcases x with e | _ | a <;> rfl

theorem map_visit (g : β → γ) (f : Nat → α → Trace β) (i : Nat) (as : List α) :
    (visit f i as).map g = visit (fun i a => (f i a).map g) i as := by
  induction as generalizing i with
  | nil => rfl
  | cons a as ih => rw [visit, visit, map_append, ih]

theorem visit_map (g : α → β) (f : Nat → β → Trace γ) (i : Nat) (as : List α) :
    visit f i (as.map g) = visit (fun i a => f i (g a)) i as := by
  induction as generalizing i with
  | nil => rfl
  | cons a as ih => rw [List.map_cons, visit, visit, ih]

theorem visit_congr {f g : Nat → α → Trace β} {as : List α} (h : ∀ i, ∀ a ∈ as, f i a = g i a)
    (i : Nat) : visit f i as = visit g i as := by
  induction as generalizing i with
  | nil => rfl
  | cons a as ih =>
    rw [visit, visit, h i a List.mem_cons_self, ih fun j b hb => h j b (List.mem_cons_of_mem _ hb)]

theorem map_orElse (f : α → β) (t : Trace α) (a : α) :
    (t.orElse a).map f = (t.map f).orElse (f a) := by
  have hempty : (t.map f).items.isEmpty = t.items.isEmpty := by rw [items_map, List.isEmpty_map]
  rw [orElse, orElse, hempty]
  split_ifs
  · exact map_append f t (single a)
  · rfl

theorem map_id' (t : Trace α) : t.map (fun a => a) = t := by
  induction t with
  | stop | fail e => rfl
  | event e t ih => exact congrArg (event e) ih
  | item a t ih => exact congrArg (item a) ih

/-- The same answer of a step with another state. -/
def stepMap (g : σ → τ) : ForInStep σ → ForInStep τ
  | .done s => .done (g s)
  | .yield s => .yield (g s)

theorem value_stepMap (g : σ → τ) (step : ForInStep σ) : (stepMap g step).value = g step.value := by
  cases step <;> rfl

/-- A step that makes of images of items and states the images of what another step makes. -/
theorem run_map {next : α → σ → Run (ForInStep σ)} {next' : β → τ → Run (ForInStep τ)} (f : α → β)
    (g : σ → τ) (h : ∀ a s, next' (f a) (g s) = stepMap g <$> next a s) (t : Trace α) (s : σ) :
    (t.map f).run next' (g s) = stepMap g <$> t.run next s := by
  induction t generalizing s with
  | stop => exact (map_pure _ _).symm
  | fail e => rfl
  | event e t ih =>
    rw [map, run, run, map_bind]
    exact bind_congr fun _ => ih s
  | item a t ih =>
    rw [map, run, run, Run.proceed, Run.proceed, h, bind_map_left, map_bind]
    refine bind_congr fun step => ?_
    cases step with
    | done s => exact (map_pure _ _).symm
    | yield s => exact ih s

end Images

end Trace

end GraphQuery
