import GraphQuery.Proofs.Value.Order

/-! Equality and order of terms agree. The value of a term depends on its canonical form alone, so
terms that are the same have one value, and the order of two values is that they are equal exactly
if their equality holds. What all operators say of two terms is therefore one of three cases, or
there is no order at all. -/

namespace GraphQuery

/-! ### The values of terms that are the same -/

namespace Value

/-- What is read from a canonical form is what was read from the literal, so it has the value of
the literal. -/
theorem ofTyped_rendered {α : Type} {read : String → Option α} {render : α → String}
    {value : α → Value} {datatype : Iri} {lexical : String}
    (hr : ∀ a, read lexical = some a → read (render a) = some a)
    (hv : ∀ text, ofTyped text datatype = ((read text).map value).getD other) :
    ofTyped (((read lexical).map render).getD lexical) datatype = ofTyped lexical datatype := by
  cases ha : read lexical with
  | none => rfl
  | some a => rw [Option.map_some, Option.getD_some, hv, hv, ha, hr a ha]

theorem ofTyped_canonicalForm (lexical : String) (datatype : Iri) :
    ofTyped ((canonicalForm? datatype lexical).getD lexical) datatype = ofTyped lexical datatype := by
  unfold canonicalForm?
  split_ifs with h h h h h h
  · exact ofTyped_rendered (fun a _ => Integer.read_render a) fun _ => by rw [h]; rfl
  · exact ofTyped_rendered (fun a _ => Decimal.read_render a) fun _ => by rw [h]; rfl
  · exact ofTyped_rendered (fun a _ => Binary.read_render a) fun _ => by rw [h]; rfl
  · exact ofTyped_rendered (fun a _ => Binary.read_render a) fun _ => by rw [h]; rfl
  · exact ofTyped_rendered (fun b _ => by cases b <;> rfl) fun _ => by rw [h]; rfl
  · exact ofTyped_rendered (fun _ ha => DateTime.read_render_of_read ha) fun _ => by rw [h]; rfl
  · rfl

theorem ofTerm_canonical (t : Term) : ofTerm t.canonical = ofTerm t := by
  cases t with
  | literal l =>
    cases l with
    | typed lexical datatype => exact ofTyped_canonicalForm lexical datatype
    | tagged lexical language => rfl
  | iri | blank | object | snapshot => rfl

theorem ofTerm_eq_of_same {a b : Term} (h : a.same b = true) : ofTerm a = ofTerm b := by
  rw [← ofTerm_canonical a, (Term.same_iff a b).mp h, ofTerm_canonical]

/-! ### Equality and order of values -/

/-- Values with an order are equal if neither comes before the other, and only then. -/
theorem equal_of_compare {v w : Value} {o : Ordering} (h : v.compare? w = some o) :
    v.equal? w = some (o == .eq) := by
  cases v <;> cases w <;> first | cases h; done | skip
  case numeric.numeric x y =>
    simp only [compare?] at h
    rw [equal?, h]
    rfl
  case string.string s l t m =>
    obtain ⟨rfl, rfl⟩ : l = m ∧ Ord.compare s t = o := by simpa [compare?] using h
    rw [equal?, beq_self_eq_true, Bool.and_true]
    refine congrArg some (Bool.eq_iff_iff.mpr ?_)
    rw [beq_iff_eq, beq_iff_eq, Std.LawfulEqOrd.compare_eq_iff_eq]
  case boolean.boolean b c =>
    obtain rfl := Option.some.inj h
    cases b <;> cases c <;> rfl
  case dateTime.dateTime s t =>
    simp only [compare?] at h
    rw [equal?, DateTime.equal]
    refine congrArg some ?_
    rcases DateTime.compare_eq_some h with ⟨hs, rfl⟩ | ⟨hs, hfar⟩
    · rw [hs, beq_self_eq_true, Bool.true_and]
      refine Bool.eq_iff_iff.mpr ?_
      obtain ⟨⟨m, hm⟩, p⟩ := s
      obtain ⟨⟨n, hn⟩, q⟩ := t
      rw [beq_iff_eq, beq_iff_eq, compare_eq_iff_eq, Decimal.mk.injEq]
    · rw [beq_false_of_ne hs, Bool.false_and]
      rcases hfar with ⟨rfl, -⟩ | ⟨rfl, -⟩ <;> rfl

theorem equal_comm (v w : Value) : v.equal? w = w.equal? v := by
  cases v <;> cases w
  case numeric.numeric x y =>
    rw [equal?, equal?, x.compare_swap y]
    rcases x.compare y with _ | _ | _ | _ <;> rfl
  case string.string s l t m => rw [equal?, equal?, Bool.beq_comm, Bool.beq_comm (a := l)]
  case boolean.boolean b c => rw [equal?, equal?, Bool.beq_comm]
  case dateTime.dateTime s t =>
    rw [equal?, equal?, DateTime.equal, DateTime.equal, Bool.beq_comm, Bool.beq_comm (a := s.seconds)]
  all_goals rfl

/-- A value is not less or greater than itself. -/
theorem eq_of_compare_self {v : Value} {o : Ordering} (h : v.compare? v = some o) : o = .eq := by
  have hswap := compare_swap v v
  rw [h, Option.map_some, Option.some.injEq] at hswap
  cases o <;> first | rfl | cases hswap

end Value

/-! ### Equality and order of terms -/

namespace Term

variable {a b : Term} {o : Ordering}

theorem compare_swap (a b : Term) : b.compare? a = (a.compare? b).map Ordering.swap :=
  Value.compare_swap _ _

theorem equal_of_same (h : a.same b = true) : a.equal? b = some true := by
  rw [equal?, if_pos h]

theorem equal_comm (a b : Term) : a.equal? b = b.equal? a := by
  have hs : a.same b = b.same a := by
    rw [Bool.eq_iff_iff, same_iff, same_iff, eq_comm]
  rw [equal?, equal?, hs, Value.equal_comm]

/-- Terms with an order are equal if neither comes before the other, and only then: those that are
the same have one value, so that equality by form and by value do not part. -/
theorem equal_of_compare (h : a.compare? b = some o) : a.equal? b = some (o == .eq) := by
  unfold equal?
  split_ifs with hs
  · rw [compare?, Value.ofTerm_eq_of_same hs] at h
    rw [Value.eq_of_compare_self h]
    rfl
  · exact Value.equal_of_compare h

/-- What the operators say of two terms with an order, of which exactly one of three cases
holds. -/
structure Compares (a b : Term) (lt eq gt : Bool) : Prop where
  one : [lt, eq, gt].count true = 1
  less : BinaryOp.less.apply a b = some (.ofBool lt)
  equal : BinaryOp.equal.apply a b = some (.ofBool eq)
  greater : BinaryOp.greater.apply a b = some (.ofBool gt)
  lessOrEqual : BinaryOp.lessOrEqual.apply a b = some (.ofBool (lt || eq))
  greaterOrEqual : BinaryOp.greaterOrEqual.apply a b = some (.ofBool (gt || eq))

theorem compares_of_compare (h : a.compare? b = some o) :
    Compares a b (o == .lt) (o == .eq) (o == .gt) where
  one := by cases o <;> rfl
  less := by simp only [BinaryOp.apply, h]; cases o <;> rfl
  equal := by simp only [BinaryOp.apply, equal_of_compare h, Option.map_some]
  greater := by simp only [BinaryOp.apply, h]; cases o <;> rfl
  lessOrEqual := by simp only [BinaryOp.apply, h]; cases o <;> rfl
  greaterOrEqual := by simp only [BinaryOp.apply, h]; cases o <;> rfl

end Term

/-! ### Operators -/

namespace BinaryOp

/-- The operators that ask for an order. -/
def ordering : List BinaryOp := [less, lessOrEqual, greater, greaterOrEqual]

/-- The operator that asks the same with its operands exchanged. -/
def mirror : BinaryOp → BinaryOp
  | less => greater
  | greater => less
  | lessOrEqual => greaterOrEqual
  | greaterOrEqual => lessOrEqual
  | op => op

/-- An operator that asks for an order has a value only if there is one. -/
theorem exists_compare {op : BinaryOp} (hop : op ∈ ordering) {a b : Term}
    (h : (op.apply a b).isSome = true) : ∃ o, a.compare? b = some o := by
  refine Option.isSome_iff_exists.mp ?_
  simp only [ordering, List.mem_cons, List.not_mem_nil, or_false] at hop
  rcases hop with rfl | rfl | rfl | rfl <;> simpa [apply] using h

/-- The operators that compare terms agree. If one of those that ask for an order has a value, then
all of them have one, and so has equality: one of less, equal and greater is true and the others
are false, and the remaining two are made up from them. With their operands exchanged, the
operators say the mirror image, be it that they have no value. And terms that are the same are
equal. -/
theorem comparisons_agree (a b : Term) :
    (∀ op ∈ ordering, (op.apply a b).isSome = true →
      ∃ lt eq gt, Term.Compares a b lt eq gt) ∧
    (∀ op ∈ equal :: ordering, op.mirror.apply b a = op.apply a b) ∧
    (a.same b = true → equal.apply a b = some (.ofBool true)) := by
  refine ⟨fun op hop h => ?_, fun op hop => ?_, fun h => ?_⟩
  · obtain ⟨o, ho⟩ := exists_compare hop h
    exact ⟨_, _, _, Term.compares_of_compare ho⟩
  · rcases List.mem_cons.mp hop with rfl | hop
    · exact congrArg (Option.map Term.ofBool) (Term.equal_comm b a)
    · simp only [ordering, List.mem_cons, List.not_mem_nil, or_false] at hop
      rcases hop with rfl | rfl | rfl | rfl <;>
        · simp only [mirror, apply, Term.compare_swap a b, Option.map_map]
          refine congrArg (Option.map · _) (funext fun o => ?_)
          cases o <;> rfl
  · rw [apply, Term.equal_of_same h, Option.map_some]

end BinaryOp

end GraphQuery
