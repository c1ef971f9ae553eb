import GraphQuery.Proofs.Term.Canonical
import GraphQuery.Value.Aggregate

/-! What operators see of objects: their labels, and which of them are the same. If objects are
exchanged for others of the same labels, all operators have the same results, up to the exchange. -/

namespace GraphQuery

namespace Term

/-- Whether terms are exchanged so that nothing but objects changes, and different objects become
different ones of the same labels. -/
structure Exchanges (τ : Term → Term) : Prop where
  injective : Function.Injective τ
  plain : ∀ {t : Term}, t.isObject = false → τ t = t
  label : ∀ t : Term, (τ t).objectLabel? = t.objectLabel?

theorem exchanges_id : Exchanges id where
  injective := Function.injective_id
  plain _ := rfl
  label _ := rfl

theorem isObject_eq (t : Term) : t.isObject = t.objectLabel?.isSome := by
  cases t <;> rfl

theorem canonical_of_isObject {t : Term} (ht : t.isObject = true) : t.canonical = t := by
  cases t with
  | literal => cases ht
  | iri | blank | object | snapshot => rfl

namespace Exchanges

variable {τ : Term → Term} (hτ : Exchanges τ)

include hτ

theorem isObject (t : Term) : (τ t).isObject = t.isObject := by
  rw [isObject_eq, isObject_eq, hτ.label]

/-- An exchange leaves alone what is no object, and makes objects of objects. -/
theorem eq_or_isObject (t : Term) : τ t = t ∨ t.isObject = true ∧ (τ t).isObject = true := by
  cases ht : t.isObject with
  | false => exact .inl (hτ.plain ht)
  | true => exact .inr ⟨rfl, (hτ.isObject t).trans ht⟩

/-- What is the same for all objects does not change. -/
theorem eq_of_object {α : Type} {f : Term → α} {x : α} (ho : ∀ label key, f (.object label key) = x)
    (hs : ∀ label trail names values, f (.snapshot label trail names values) = x) (t : Term) :
    f (τ t) = f t := by
  have hf : ∀ t : Term, t.isObject = true → f t = x := fun t ht => by
    cases t with
    | iri | blank | literal => cases ht
    | object label key => exact ho label key
    | snapshot label trail names values => exact hs label trail names values
  rcases hτ.eq_or_isObject t with h | ⟨h, h'⟩
  · rw [h]
  · rw [hf _ h, hf _ h']

theorem ofBool (b : Bool) : τ (.ofBool b) = .ofBool b := hτ.plain rfl

theorem canonical (t : Term) : (τ t).canonical = τ t.canonical := by
  rcases hτ.eq_or_isObject t with h | ⟨h, h'⟩
  · cases t with
    | literal l => exact (congrArg Term.canonical h).trans (hτ.plain rfl).symm
    | iri | blank | object | snapshot => exact (congrArg Term.canonical h).trans h.symm
  · rw [canonical_of_isObject h, canonical_of_isObject h']

theorem value (t : Term) : Value.ofTerm (τ t) = Value.ofTerm t :=
  hτ.eq_of_object (x := .object) (fun _ _ => rfl) (fun _ _ _ _ => rfl) t

theorem truth (t : Term) : (τ t).truth? = t.truth? := congrArg Value.truth? (hτ.value t)

theorem numeric (t : Term) : (τ t).numeric? = t.numeric? := congrArg Value.numeric? (hτ.value t)

theorem compare (a b : Term) : (τ a).compare? (τ b) = a.compare? b :=
  congrArg₂ Value.compare? (hτ.value a) (hτ.value b)

theorem lexical (t : Term) : (τ t).lexical? = t.lexical? :=
  hτ.eq_of_object (x := none) (fun _ _ => rfl) (fun _ _ _ _ => rfl) t

theorem rank (t : Term) : (τ t).rank = t.rank :=
  hτ.eq_of_object (x := 3) (fun _ _ => rfl) (fun _ _ _ _ => rfl) t

theorem string (t : Term) : (τ t).string? = t.string? := congrArg Value.string? (hτ.value t)

theorem plainText (t : Term) : (τ t).plain? = t.plain? := by
  rw [plain?, plain?, hτ.string]

theorem integer (t : Term) : (τ t).integer? = t.integer? := by
  rw [integer?, integer?, hτ.numeric]

theorem literalOf (t : Term) : (τ t).literal? = t.literal? :=
  hτ.eq_of_object (x := none) (fun _ _ => rfl) (fun _ _ _ _ => rfl) t

theorem iriOf (t : Term) : (τ t).iri? = t.iri? :=
  hτ.eq_of_object (x := none) (fun _ _ => rfl) (fun _ _ _ _ => rfl) t

theorem isIri (t : Term) : (τ t).isIri = t.isIri :=
  hτ.eq_of_object (x := false) (fun _ _ => rfl) (fun _ _ _ _ => rfl) t

theorem isBlank (t : Term) : (τ t).isBlank = t.isBlank :=
  hτ.eq_of_object (x := false) (fun _ _ => rfl) (fun _ _ _ _ => rfl) t

theorem isLiteral (t : Term) : (τ t).isLiteral = t.isLiteral :=
  hτ.eq_of_object (x := false) (fun _ _ => rfl) (fun _ _ _ _ => rfl) t

theorem toIri (t : Term) : Builtin.toIri (τ t) = Builtin.toIri t :=
  hτ.eq_of_object (x := none) (fun _ _ => rfl) (fun _ _ _ _ => rfl) t

theorem beq (a b : Term) : (τ a == τ b) = (a == b) := by
  rw [Bool.eq_iff_iff, beq_iff_eq, beq_iff_eq, hτ.injective.eq_iff]

end Exchanges

/-- Objects are sorted by their labels, and behind all other terms. -/
theorem sortOrder_of_isObject {a b : Term} (h : a.isObject = true ∨ b.isObject = true) :
    a.sortOrder b = match a.objectLabel?, b.objectLabel? with
      | some x, some y => Ord.compare x y
      | _, _ => Ord.compare a.rank b.rank := by
  cases a <;> cases b <;> first | rfl | simp [isObject] at h

end Term

/-! ### Results -/

/-- Whether there is no object as a result. -/
def Plain (x : Option Term) : Prop := ∀ t, x = some t → t.isObject = false

namespace Plain

variable {α : Type} {x y : Option Term}

theorem none : Plain none := fun _ h => by cases h

theorem some {t : Term} (ht : t.isObject = false) : Plain (some t) := fun _ h => by
  rwa [← Option.some.inj h]

theorem bind {o : Option α} {f : α → Option Term} (hf : ∀ a, Plain (f a)) : Plain (o.bind f) := by
  cases o with
  | none => exact none
  | some a => exact hf a

theorem map {o : Option α} {f : α → Term} (hf : ∀ a, (f a).isObject = false) :
    Plain (o.map f) := by
  cases o with
  | none => exact none
  | some a => exact some (hf a)

theorem ite {p : Prop} [Decidable p] (hx : Plain x) (hy : Plain y) :
    Plain (if p then x else y) := by
  split_ifs
  · exact hx
  · exact hy

end Plain

theorem BinaryOp.plain_apply (op : BinaryOp) (a b : Term) : Plain (op.apply a b) := by
  cases op with
  | sameTerm => exact .some rfl
  | equal | greater | greaterOrEqual | less | lessOrEqual => exact .map fun _ => rfl
  | add | subtract | multiply | divide =>
    exact .bind fun _ => .bind fun _ => .bind fun _ => .some rfl

theorem UnaryOp.plain_apply (op : UnaryOp) (a : Term) : Plain (op.apply a) := by
  refine .bind fun n => ?_
  cases op with
  | plus => exact .some rfl
  | minus => exact .bind fun _ => .some rfl

namespace Builtin

theorem isObject_ofText (text : String) (language : Option String) :
    (ofText text language).isObject = false := by
  cases language <;> rfl

theorem plain_slice (source start : Term) (length : Option Term) :
    Plain (slice source start length) := by
  refine .bind fun _ => .bind fun _ => ?_
  cases length with
  | none => exact .ite .none (.some (isObject_ofText _ _))
  | some t => exact .bind fun _ => .ite .none (.some (isObject_ofText _ _))

theorem plain_search (text pattern : Term) (flags : Option Term) :
    Plain (search text pattern flags) := by
  refine .bind fun _ => .bind fun _ => ?_
  cases flags with
  | none => exact .bind (o := Regex.ofPattern? _ _) fun _ => .some rfl
  | some t => exact .bind fun _ => .bind fun _ => .some rfl

theorem plain_toIri (t : Term) : Plain (toIri t) := by
  unfold toIri
  split
  · exact .some rfl
  · exact .bind fun _ => .ite (.some rfl) .none

/-- What is computed is a name or a literal. -/
theorem plain_apply (f : Builtin) (ts : List Term) : Plain (f.apply ts) := by
  unfold apply
  simp only [mapText, concatenate, onNumber, withDatatype, withLanguage, Option.bind_eq_bind]
  split
  all_goals with_reducible first
    | exact .none
    | exact plain_slice _ _ _
    | exact plain_search _ _ _
    | exact plain_toIri _
    | refine .map fun _ => ?_
    | refine .bind fun _ => .bind fun _ => .ite (.some ?_) .none
    | refine .bind fun _ => .bind fun _ => .some ?_
    | refine .bind fun _ => .some ?_
    | refine .some ?_
  all_goals first
    | rfl
    | exact isObject_ofText _ _

end Builtin

namespace Term.Exchanges

variable {τ : Term → Term} (hτ : Exchanges τ)

include hτ

theorem map_of_plain {x : Option Term} (hx : Plain x) : x.map τ = x := by
  cases x with
  | none => rfl
  | some t => exact congrArg some (hτ.plain (hx t rfl))

omit hτ in
theorem mapM {α : Type} {f : Term → Option α} (hf : ∀ t, f (τ t) = f t) (ts : List Term) :
    (ts.map τ).mapM f = ts.mapM f := by
  rw [List.mapM_map]
  exact congrArg (ts.mapM ·) (funext hf)

theorem same (a b : Term) : (τ a).same (τ b) = a.same b := by
  rw [Bool.eq_iff_iff, same_iff, same_iff, hτ.canonical, hτ.canonical, hτ.injective.eq_iff]

theorem equal (a b : Term) : (τ a).equal? (τ b) = a.equal? b := by
  rw [equal?, equal?, hτ.same, hτ.value, hτ.value]

theorem sortOrder (a b : Term) : (τ a).sortOrder (τ b) = a.sortOrder b := by
  by_cases h : a.isObject = true ∨ b.isObject = true
  · have h' : (τ a).isObject = true ∨ (τ b).isObject = true := by rwa [hτ.isObject, hτ.isObject]
    rw [sortOrder_of_isObject h, sortOrder_of_isObject h', hτ.label, hτ.label, hτ.rank, hτ.rank]
  · rw [not_or, Bool.not_eq_true, Bool.not_eq_true] at h
    rw [hτ.plain h.1, hτ.plain h.2]

theorem apply_binary (op : BinaryOp) (a b : Term) :
    op.apply (τ a) (τ b) = (op.apply a b).map τ := by
  rw [hτ.map_of_plain (op.plain_apply a b)]
  simp only [BinaryOp.apply, hτ.equal, hτ.same, hτ.compare, hτ.numeric]

theorem apply_unary (op : UnaryOp) (a : Term) : op.apply (τ a) = (op.apply a).map τ := by
  rw [hτ.map_of_plain (op.plain_apply a)]
  simp only [UnaryOp.apply, hτ.numeric]

theorem apply_builtin (f : Builtin) (ts : List Term) :
    f.apply (ts.map τ) = (f.apply ts).map τ := by
  rw [hτ.map_of_plain (f.plain_apply ts)]
  cases f with
  | concat =>
    rw [Builtin.apply, Builtin.apply, Builtin.concatenate, Builtin.concatenate, mapM hτ.string]
  | _ =>
    rcases ts with _ | ⟨t, _ | ⟨u, _ | ⟨v, _ | _⟩⟩⟩ <;>
      simp only [List.map_cons, List.map_nil, Builtin.apply, Builtin.slice, Builtin.search,
        Builtin.compatible?, Builtin.mapText, Builtin.onNumber, Builtin.withLanguage,
        Builtin.withDatatype, hτ.string, hτ.plainText, hτ.integer, hτ.numeric, hτ.lexical,
        hτ.literalOf, hτ.iriOf, hτ.isIri, hτ.isBlank, hτ.isLiteral, hτ.toIri]

/-! ### Groups -/

theorem distinctTerms (ts : List Term) :
    SetFunction.distinctTerms (ts.map τ) = (SetFunction.distinctTerms ts).map τ := by
  unfold SetFunction.distinctTerms
  rw [List.foldl_map]
  change List.foldl _ (List.map τ []) ts = _
  refine List.foldl_hom (List.map τ) fun seen t => ?_
  have hany : (seen.map τ).any (·.same (τ t)) = seen.any (·.same t) := by
    rw [List.any_map]
    exact congrArg seen.any (funext fun u => hτ.same u t)
  rw [hany]
  split_ifs
  · rfl
  · rw [List.map_append, List.map_singleton]

theorem least (ts : List Term) :
    SetFunction.least? (ts.map τ) = (SetFunction.least? ts).map τ := by
  cases ts with
  | nil => rfl
  | cons t ts =>
    refine congrArg some ?_
    rw [List.foldl_map]
    refine List.foldl_hom τ fun a b => ?_
    rw [hτ.sortOrder, apply_ite τ]

theorem greatest (ts : List Term) :
    SetFunction.greatest? (ts.map τ) = (SetFunction.greatest? ts).map τ := by
  cases ts with
  | nil => rfl
  | cons t ts =>
    refine congrArg some ?_
    rw [List.foldl_map]
    refine List.foldl_hom τ fun a b => ?_
    rw [hτ.sortOrder, apply_ite τ]

theorem sumOf (ts : List Term) : SetFunction.sumOf (ts.map τ) = SetFunction.sumOf ts := by
  unfold SetFunction.sumOf
  rw [List.foldlM_map]
  simp only [hτ.numeric]

theorem average (ts : List Term) : SetFunction.average (ts.map τ) = SetFunction.average ts := by
  rw [SetFunction.average, SetFunction.average, List.length_map, hτ.sumOf]

/-- What a set function takes from its members is exchanged with them. -/
theorem applyTo (f : SetFunction) (ts : List Term) :
    f.applyTo (ts.map τ) = (f.applyTo ts).map τ := by
  cases f with
  | min => exact hτ.least ts
  | max => exact hτ.greatest ts
  | sample => exact List.head?_map
  | count =>
    rw [SetFunction.applyTo, SetFunction.applyTo, List.length_map]
    exact (hτ.map_of_plain (.map fun _ => rfl)).symm
  | sum =>
    rw [SetFunction.applyTo, SetFunction.applyTo, hτ.sumOf]
    exact (hτ.map_of_plain (.map fun _ => rfl)).symm
  | avg =>
    rw [SetFunction.applyTo, SetFunction.applyTo, hτ.average, List.isEmpty_map]
    exact (hτ.map_of_plain (.ite (.some rfl) (.map fun _ => rfl))).symm
  | groupConcat =>
    rw [SetFunction.applyTo, SetFunction.applyTo, mapM hτ.lexical]
    exact (hτ.map_of_plain (.map fun _ => rfl)).symm
  | conjunction =>
    rw [SetFunction.applyTo, SetFunction.applyTo, mapM hτ.truth]
    exact (hτ.map_of_plain (.map fun _ => rfl)).symm

theorem apply_setFunction (f : SetFunction) (distinct : Bool) (members : List (Option Term)) :
    f.apply distinct (members.map (Option.map τ)) = (f.apply distinct members).map τ := by
  have hvalues : (members.map (Option.map τ)).filterMap id = (members.filterMap id).map τ := by
    rw [List.filterMap_map, List.map_filterMap]
    rfl
  unfold SetFunction.apply
  rw [hvalues, ← hτ.applyTo]
  cases distinct with
  | false => rfl
  | true => exact congrArg f.applyTo (hτ.distinctTerms _)

end Term.Exchanges

end GraphQuery
