import GraphQuery.Proofs.Value.Objects

/-! Snapshots taken on other ways. If ways are replaced one to one, so are the snapshots that were
taken on them, and nothing else of a term can be seen to change. -/

namespace GraphQuery

/-- Other ways for those that lead on from a start, which lead on alike. -/
structure Rerouting where
  start : List Nat
  way : List Nat → List Nat
  injective : Function.Injective way
  cons : ∀ (i : Nat) {trail : List Nat}, start <:+ trail → way (i :: trail) = i :: way trail
  other : ∀ {trail : List Nat}, ¬ start <:+ trail → way trail = trail

namespace Rerouting

/-- The way with some choices in between. -/
def detourWay (start between trail : List Nat) : List Nat :=
  if start <:+ trail then trail.take (trail.length - start.length) ++ (between ++ start) else trail

theorem detourWay_append (start between ahead : List Nat) :
    detourWay start between (ahead ++ start) = ahead ++ (between ++ start) := by
  rw [detourWay, if_pos (List.suffix_append _ _), List.length_append, Nat.add_sub_cancel,
    List.take_left]

theorem detourWay_injective (start between : List Nat) :
    Function.Injective (detourWay start between) := by
  have hcases : ∀ trail, (∃ ahead, trail = ahead ++ start ∧
      detourWay start between trail = ahead ++ (between ++ start)) ∨
        ¬ start <:+ trail ∧ detourWay start between trail = trail := fun trail => by
    by_cases h : start <:+ trail
    · obtain ⟨ahead, rfl⟩ := h
      exact .inl ⟨ahead, rfl, detourWay_append start between ahead⟩
    · exact .inr ⟨h, if_neg h⟩
  intro a b hab
  rcases hcases a with ⟨x, rfl, hx⟩ | ⟨ha, hx⟩ <;> rcases hcases b with ⟨y, rfl, hy⟩ | ⟨hb, hy⟩ <;>
    rw [hx, hy] at hab
  · rw [List.append_cancel_right hab]
  · exact (hb ⟨x ++ between, by rw [← hab, List.append_assoc]⟩).elim
  · exact (ha ⟨y ++ between, by rw [hab, List.append_assoc]⟩).elim
  · exact hab

/-- A detour at the start of the ways ahead. -/
def detour (start between : List Nat) : Rerouting where
  start
  way := detourWay start between
  injective := detourWay_injective start between
  cons i trail h := by
    obtain ⟨ahead, rfl⟩ := h
    rw [← List.cons_append, detourWay_append, detourWay_append, List.cons_append]
  other h := if_neg h

theorem way_detour (start between : List Nat) :
    (detour start between).way start = between ++ start :=
  detourWay_append start between []

end Rerouting

namespace Term

/-- The same term with its snapshots taken on other ways. -/
def rerouted (r : Rerouting) : Term → Term
  | iri name => iri name
  | blank label => blank label
  | literal l => literal l
  | object label key => object label key
  | snapshot label trail names values => snapshot label (r.way trail) names (listRerouted values)
where
  listRerouted : List Term → List Term
    | [] => []
    | t :: ts => t.rerouted r :: listRerouted ts

variable {r : Rerouting}

theorem listRerouted_eq (ts : List Term) : rerouted.listRerouted r ts = ts.map (rerouted r) := by
  induction ts with
  | nil => rfl
  | cons t ts ih => rw [rerouted.listRerouted, ih, List.map_cons]

@[simp] theorem rerouted_snapshot (label : String) (trail : List Nat) (names : List Variable)
    (values : List Term) : (snapshot label trail names values).rerouted r =
      snapshot label (r.way trail) names (values.map (rerouted r)) := by
  rw [rerouted, listRerouted_eq]

theorem eq_of_map_eq {α β : Type} {f : α → β} {as bs : List α}
    (hf : ∀ a ∈ as, ∀ b, f a = f b → a = b) (h : as.map f = bs.map f) : as = bs := by
  induction as generalizing bs with
  | nil => exact (List.map_eq_nil_iff.mp h.symm).symm
  | cons a as ih =>
    cases bs with
    | nil => cases h
    | cons b bs =>
      obtain ⟨ha, has⟩ := List.forall_mem_cons.mp hf
      obtain ⟨hab, hbs⟩ := List.cons.inj h
      rw [ha b hab, ih has hbs]

/-- Different terms stay different. -/
theorem eq_of_rerouted_eq (t u : Term) (h : t.rerouted r = u.rerouted r) : t = u := by
  cases t with
  | snapshot label trail names values =>
    cases u with
    | snapshot label' trail' names' values' =>
      simp only [rerouted_snapshot, snapshot.injEq] at h
      obtain ⟨rfl, htrail, rfl, hvalues⟩ := h
      obtain rfl := r.injective htrail
      have heq : values = values' := eq_of_map_eq (fun a ha b =>
        have := List.sizeOf_lt_of_mem ha
        eq_of_rerouted_eq a b) hvalues
      rw [heq]
    | _ => simp [rerouted] at h
  | _ => cases u <;> first | exact h | simp [rerouted] at h
termination_by sizeOf t

/-- Snapshots on other ways cannot be seen to be others. -/
theorem exchanges_rerouted (r : Rerouting) : Exchanges (rerouted r) where
  injective t u := eq_of_rerouted_eq t u
  plain {t} ht := by
    cases t with
    | iri | blank | literal => rfl
    | object | snapshot => cases ht
  label t := by cases t <;> rfl

/-- The ways on which the snapshots in a term were taken. -/
def trails : Term → List (List Nat)
  | snapshot _ trail _ values => trail :: listTrails values
  | _ => []
where
  listTrails : List Term → List (List Nat)
    | [] => []
    | t :: ts => t.trails ++ listTrails ts

theorem mem_listTrails {ts : List Term} {trail : List Nat} :
    trail ∈ trails.listTrails ts ↔ ∃ t ∈ ts, trail ∈ t.trails := by
  induction ts with
  | nil => simp [trails.listTrails]
  | cons t ts ih => simp [trails.listTrails, ih]

/-- Whether no snapshot in a term was taken on a way that leads on from another one. -/
def IsBefore (trail : List Nat) (t : Term) : Prop := ∀ way ∈ t.trails, ¬ trail <:+ way

/-- Earlier snapshots stay what they are. -/
theorem rerouted_eq_self (t : Term) (ht : t.IsBefore r.start) : t.rerouted r = t := by
  cases t with
  | iri | blank | literal | object => rfl
  | snapshot label trail names values =>
    have hvalues : ∀ u ∈ values, u.rerouted r = u := fun u hu =>
      have := List.sizeOf_lt_of_mem hu
      rerouted_eq_self u fun way hw =>
        ht way (List.mem_cons_of_mem _ (mem_listTrails.mpr ⟨u, hu, hw⟩))
    rw [rerouted_snapshot, r.other (ht trail List.mem_cons_self), List.map_congr_left hvalues,
      List.map_id']
termination_by sizeOf t

end Term

end GraphQuery
