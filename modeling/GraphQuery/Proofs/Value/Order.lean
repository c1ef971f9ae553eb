import GraphQuery.Evaluate.Answer
import GraphQuery.Proofs.Number.Order
import GraphQuery.Proofs.Solution.Sorting
import GraphQuery.Proofs.Term.Canonical

/-! The order of sorting. Blank nodes, names and objects are ordered by kind and name, and literals
part by part; but literals whose values are comparable are ordered by value instead. The order can
be turned round without exception. It is transitive on some terms exactly if no three literals
among them lead round in a circle, of which there are three kinds: numbers of which one is rounded
to be compared, points in time too near to the last or first one to be moved by fourteen hours, and
a literal that stands between two others in its parts while these compare by value the other way
round. -/

namespace GraphQuery

/-! ### Parts -/

namespace Term

theorem compareLanguage_eq (l m : Option String) : compareLanguage l m = Ord.compare l m := by
  cases l <;> cases m <;> rfl

/-- The parts of a literal in the order in which they are compared. -/
theorem compareParts_eq (a b : Literal) :
    compareParts a b = compareLex (compareOn fun l : Literal => l.datatype.text)
      (compareLex (compareOn Literal.language) (compareOn Literal.lexical)) a b := by
  rw [compareParts, compareLanguage_eq]
  rfl

instance : Std.TransCmp compareParts := by
  rw [show compareParts = _ from funext fun a => funext fun b => compareParts_eq a b]
  infer_instance

theorem compareParts_swap (a b : Literal) : compareParts b a = (compareParts a b).swap :=
  Std.OrientedCmp.eq_swap

theorem compareParts_eq_eq {a b : Literal} : compareParts a b = .eq ↔ a = b := by
  constructor
  · intro h
    simp only [compareParts, compareLanguage_eq, Ordering.then_eq_eq,
      Std.LawfulEqOrd.compare_eq_iff_eq] at h
    obtain ⟨hd, hl, hx⟩ := h
    cases a <;> cases b <;> simp_all [Literal.datatype, Literal.language, Literal.lexical]
    exact congrArg Iri.mk hd
  · rintro rfl
    exact Std.ReflCmp.compare_self

theorem compareParts_lt {a b : Literal} (h : (compareParts a b).isLE) (hne : a ≠ b) :
    compareParts a b = .lt := by
  cases ho : compareParts a b with
  | lt => rfl
  | eq => exact absurd (compareParts_eq_eq.mp ho) hne
  | gt => rw [ho] at h; cases h

end Term

/-! ### Values -/

namespace DateTime

theorem units_add {a b c : Decimal} (h : a.add b = some c) : c.units = a.units + b.units := by
  unfold Decimal.add Decimal.ofUnits? at h
  split at h <;> cases h
  rfl

theorem units_sub {a b c : Decimal} (h : a.sub b = some c) : c.units = a.units - b.units := by
  unfold Decimal.sub Decimal.ofUnits? at h
  split at h <;> cases h
  rfl

/-- A number that compares alike with both ends of an interval is outside of it. -/
theorem outside_of_compare {x lower upper : Int} {o : Ordering} (h : lower < upper)
    (hl : Ord.compare x lower = o) (hu : Ord.compare x upper = o) :
    (o = .lt ∧ x < lower) ∨ (o = .gt ∧ upper < x) := by
  cases o with
  | lt => exact .inl ⟨rfl, compare_lt_iff_lt.mp hl⟩
  | eq =>
    have h₁ := compare_eq_iff_eq.mp hl
    have h₂ := compare_eq_iff_eq.mp hu
    omega
  | gt => exact .inr ⟨rfl, compare_gt_iff_gt.mp hu⟩

/-- Points are compared by their seconds; one with and one without offset have to be more than
fourteen hours apart. -/
theorem compare_eq_some {a b : DateTime} {o : Ordering} (h : a.compare b = some o) :
    (a.offset.isSome = b.offset.isSome ∧ o = Ord.compare a.seconds.units b.seconds.units) ∨
    (a.offset.isSome ≠ b.offset.isSome ∧
      ((o = .lt ∧ a.seconds.units + widest.units < b.seconds.units) ∨
        (o = .gt ∧ b.seconds.units + widest.units < a.seconds.units))) := by
  have hpos : 0 < widest.units := by decide
  unfold compare at h
  split at h
  next hs => exact .inl ⟨hs, (Option.some.inj h).symm⟩
  next hs =>
    refine .inr ⟨hs, ?_⟩
    split at h
    next later earlier hends =>
      split at h
      next heq =>
        subst heq
        split at hends
        · -- The first point has the offset, and the second one is moved.
          obtain ⟨hl, he⟩ := Prod.mk.inj hends
          rw [h] at hl he
          obtain ⟨u, hu, hou⟩ := Option.map_eq_some_iff.mp hl
          obtain ⟨l, hl, hol⟩ := Option.map_eq_some_iff.mp he
          have := units_add hu
          have := units_sub hl
          rcases outside_of_compare (by omega) hol hou with ⟨ho, _⟩ | ⟨ho, _⟩
          · exact .inl ⟨ho, by omega⟩
          · exact .inr ⟨ho, by omega⟩
        · obtain ⟨hl, he⟩ := Prod.mk.inj hends
          rw [h] at hl he
          obtain ⟨u, hu, hou⟩ := Option.map_eq_some_iff.mp hl
          obtain ⟨l, hl, hol⟩ := Option.map_eq_some_iff.mp he
          have := units_add hu
          have := units_sub hl
          have hswap {x : Int} (hx : Ord.compare x b.seconds.units = o) :
              Ord.compare b.seconds.units x = o.swap := by
            rw [← hx]
            exact Std.OrientedOrd.eq_swap
          rcases outside_of_compare (by omega) (hswap hol) (hswap hou) with ⟨ho, _⟩ | ⟨ho, _⟩
          · exact .inr ⟨by cases o <;> cases ho; rfl, by omega⟩
          · exact .inl ⟨by cases o <;> cases ho; rfl, by omega⟩
      next => cases h

theorem compare_swap (a b : DateTime) : b.compare a = (a.compare b).map Ordering.swap := by
  have hswap (x y : Int) : Ord.compare y x = (Ord.compare x y).swap := Std.OrientedOrd.eq_swap
  unfold compare
  by_cases hs : a.offset.isSome = b.offset.isSome
  · rw [if_pos hs, if_pos hs.symm, Option.map_some]
    exact congrArg some (hswap ..)
  · rw [if_neg hs, if_neg (Ne.symm hs)]
    have hflip (x : Option Decimal) (y : Decimal) :
        x.map (fun z => z.compare y) = (x.map y.compare).map Ordering.swap := by
      cases x with
      | none => rfl
      | some z => exact congrArg some (hswap ..)
    have hends (x y : Option Ordering) :
        (if x.map Ordering.swap = y.map Ordering.swap then x.map Ordering.swap else none) =
          (if x = y then x else none).map Ordering.swap := by
      rcases x with _ | _ | _ | _ <;> rcases y with _ | _ | _ | _ <;> rfl
    have hback (x : Option Ordering) : (x.map Ordering.swap).map Ordering.swap = x := by
      rcases x with _ | _ | _ | _ <;> rfl
    cases ha : a.offset.isSome <;> cases hb : b.offset.isSome
    · exact absurd (ha.trans hb.symm) hs
    · simp only [hflip, hends, hback, if_true, Bool.false_eq_true, if_false]
    · simp only [hflip, hends, if_true, Bool.false_eq_true, if_false]
    · exact absurd (ha.trans hb.symm) hs

/-- A point that can be moved both ways is comparable with all that are moved past it. -/
theorem edge_of_compare {r s t : DateTime} {o₁ o₂ : Ordering} (h₁ : r.compare s = some o₁)
    (h₂ : s.compare t = some o₂) (hrs : o₁.isLE) (hst : o₂.isLE) (hrt : r.compare t = none) :
    t.seconds.add widest = none ∨ r.seconds.sub widest = none := by
  have hpos : 0 < widest.units := by decide
  have hr := r.seconds.fits
  have ht := t.seconds.fits
  have hdiffer : r.offset.isSome ≠ t.offset.isSome := by
    intro h
    rw [compare, if_pos h] at hrt
    cases hrt
  have hapart : r.seconds.units + widest.units < t.seconds.units := by
    rcases compare_eq_some h₁ with ⟨hs₁, rfl⟩ | ⟨-, ⟨rfl, hlt₁⟩ | ⟨rfl, -⟩⟩
    · have hle₁ := Std.isLE_compare.mp hrs
      rcases compare_eq_some h₂ with ⟨hs₂, -⟩ | ⟨-, ⟨rfl, hlt₂⟩ | ⟨rfl, -⟩⟩
      · exact absurd (hs₁.trans hs₂) hdiffer
      · omega
      · cases hst
    · rcases compare_eq_some h₂ with ⟨-, rfl⟩ | ⟨-, ⟨rfl, hlt₂⟩ | ⟨rfl, -⟩⟩
      · have hle₂ := Std.isLE_compare.mp hst
        omega
      · omega
      · cases hst
    · cases hrs
  -- The point with offset stays, and the other one is moved towards it and away from it.
  by_contra hmoved
  push Not at hmoved
  obtain ⟨u, hu⟩ := Option.ne_none_iff_exists'.mp hmoved.1
  obtain ⟨l, hl⟩ := Option.ne_none_iff_exists'.mp hmoved.2
  have hlt {x y : Decimal} (h : x.units < y.units) : x.compare y = .lt := compare_lt_iff_lt.mpr h
  obtain ⟨v, hv⟩ : ∃ v, r.seconds.add widest = some v :=
    ⟨_, dif_pos (by unfold Decimal.Fits at *; omega)⟩
  obtain ⟨w, hw⟩ : ∃ w, t.seconds.sub widest = some w :=
    ⟨_, dif_pos (by unfold Decimal.Fits at *; omega)⟩
  have hu' := units_add hu
  have hl' := units_sub hl
  have hv' := units_add hv
  have hw' := units_sub hw
  have hru : r.seconds.compare u = .lt := hlt (by omega)
  have hrw : r.seconds.compare w = .lt := hlt (by omega)
  have hlt' : l.compare t.seconds = .lt := hlt (by omega)
  have hvt : v.compare t.seconds = .lt := hlt (by omega)
  unfold compare at hrt
  rw [if_neg hdiffer, hu, hl, hv, hw] at hrt
  cases ho : r.offset.isSome <;>
    simp [ho, hru, hrw, hlt', hvt] at hrt

/-- The order is transitive among points that are comparable. -/
theorem compare_trans {r s t : DateTime} {o₁ o₂ o₃ : Ordering} (h₁ : r.compare s = some o₁)
    (h₂ : s.compare t = some o₂) (h₃ : r.compare t = some o₃) (hrs : o₁.isLE) (hst : o₂.isLE) :
    o₃.isLE := by
  have hpos : 0 < widest.units := by decide
  have hle {a b : DateTime} {o : Ordering} (h : a.compare b = some o) (ho : o.isLE) :
      a.seconds.units ≤ b.seconds.units := by
    rcases compare_eq_some h with ⟨-, rfl⟩ | ⟨-, ⟨-, hlt⟩ | ⟨rfl, -⟩⟩
    · exact Std.isLE_compare.mp ho
    · omega
    · cases ho
  have hrs := hle h₁ hrs
  have hst := hle h₂ hst
  rcases compare_eq_some h₃ with ⟨-, rfl⟩ | ⟨-, ⟨rfl, -⟩ | ⟨-, hlt⟩⟩
  · exact Std.isLE_compare.mpr (hrs.trans hst)
  · rfl
  · omega

end DateTime

namespace Value

theorem compare_swap (v w : Value) : w.compare? v = (v.compare? w).map Ordering.swap := by
  cases v <;> cases w
  case numeric.numeric x y => exact x.compare_swap y
  case dateTime.dateTime s t => exact s.compare_swap t
  case boolean.boolean b c => cases b <;> cases c <;> rfl
  case string.string s l t m =>
    rw [compare?, compare?]
    by_cases h : l = m
    · rw [if_pos h, if_pos h.symm]
      exact congrArg some Std.OrientedOrd.eq_swap
    · rw [if_neg h, if_neg (Ne.symm h)]
      rfl
  all_goals rfl

/-- Two values that are comparable with a third one are comparable, unless all are points in
time. -/
theorem comparable_trans {u v w : Value} (huv : (u.compare? v).isSome)
    (hvw : (v.compare? w).isSome) :
    (u.compare? w).isSome ∨ ∃ r s t, u = dateTime r ∧ v = dateTime s ∧ w = dateTime t := by
  cases u <;> cases v <;> first | cases huv; done | skip
  all_goals cases w <;> first | cases hvw; done | skip
  case numeric.numeric.numeric x y z =>
    simp only [compare?, Numeric.compare_isSome, Bool.and_eq_true] at huv hvw ⊢
    exact .inl ⟨huv.1, hvw.2⟩
  case boolean.boolean.boolean => exact .inl rfl
  case dateTime.dateTime.dateTime r s t => exact .inr ⟨r, s, t, rfl, rfl, rfl⟩
  case string.string.string s l t m u n =>
    simp only [compare?, Option.isSome_ite] at huv hvw ⊢
    exact .inl (huv.trans hvw)

/-- Comparable values are ordered, unless they are numbers of which some are rounded. -/
theorem compare_trans {u v w : Value} {o₁ o₂ o₃ : Ordering} (h₁ : u.compare? v = some o₁)
    (h₂ : v.compare? w = some o₂) (h₃ : u.compare? w = some o₃) (huv : o₁.isLE) (hvw : o₂.isLE) :
    o₃.isLE ∨ ∃ x y z, u = numeric x ∧ v = numeric y ∧ w = numeric z ∧
      Numeric.Mixed [x, y, z] := by
  cases u <;> cases v <;> first | cases h₁; done | skip
  all_goals cases w <;> first | cases h₂; done | skip
  case numeric.numeric.numeric x y z =>
    exact (Numeric.compare_trans h₁ h₂ h₃ huv hvw).imp id fun hm => ⟨x, y, z, rfl, rfl, rfl, hm⟩
  case boolean.boolean.boolean =>
    obtain rfl := Option.some.inj h₁
    obtain rfl := Option.some.inj h₂
    obtain rfl := Option.some.inj h₃
    exact .inl (Std.TransOrd.isLE_trans huv hvw)
  case string.string.string s l t m u n =>
    simp only [compare?, Option.ite_none_right_eq_some, Option.some.injEq] at h₁ h₂ h₃
    obtain ⟨-, rfl⟩ := h₁
    obtain ⟨-, rfl⟩ := h₂
    obtain ⟨-, rfl⟩ := h₃
    exact .inl (Std.TransOrd.isLE_trans huv hvw)
  case dateTime.dateTime.dateTime r s t =>
    exact .inl (DateTime.compare_trans h₁ h₂ h₃ huv hvw)

end Value

/-! ### Circles of literals -/

namespace Literal

/-- The order of two literals by value, if they are comparable. -/
def compare? (a b : Literal) : Option Ordering :=
  (Value.ofLiteral a).compare? (Value.ofLiteral b)

theorem compare_swap (a b : Literal) : b.compare? a = (a.compare? b).map Ordering.swap :=
  Value.compare_swap _ _

theorem sortOrder_literal (a b : Literal) :
    (Term.literal a).sortOrder (.literal b) = (a.compare? b).getD (Term.compareParts a b) := rfl

/-- Three literals of which each one does not come after the next, and the last comes before the
first. -/
inductive Circular (a b c : Literal) : Prop where
  /-- Some of the numbers are rounded to be compared with others, which are not. -/
  | numbers (mixed : ∃ x y z, Value.ofLiteral a = .numeric x ∧ Value.ofLiteral b = .numeric y ∧
        Value.ofLiteral c = .numeric z ∧ Numeric.Mixed [x, y, z])
      (hab : (a.compare? b).any Ordering.isLE) (hbc : (b.compare? c).any Ordering.isLE)
      (hca : c.compare? a = some .lt)
  /-- One of the points in time cannot be moved by fourteen hours to be compared with another. -/
  | times (edge : ∃ r s t, Value.ofLiteral a = .dateTime r ∧ Value.ofLiteral b = .dateTime s ∧
        Value.ofLiteral c = .dateTime t ∧ (t.seconds.add DateTime.widest = none ∨
          r.seconds.sub DateTime.widest = none))
      (hab : (a.compare? b).any Ordering.isLE) (hbc : (b.compare? c).any Ordering.isLE)
      (hac : a.compare? c = none) (hca : Term.compareParts c a = .lt)
  /-- Two literals are ordered by value, and the third one is comparable with none of them and
  stands in between in its parts, of which the order is the other way round. -/
  | between (hab : (a.compare? b).any Ordering.isLE) (hbc : b.compare? c = none)
      (hac : a.compare? c = none) (hbc' : Term.compareParts b c = .lt)
      (hca : Term.compareParts c a = .lt)

theorem isLE_of_any {a b : Literal} (h : (a.compare? b).any Ordering.isLE) :
    ((Term.literal a).sortOrder (.literal b)).isLE := by
  rw [sortOrder_literal]
  cases ho : a.compare? b with
  | none => rw [ho] at h; cases h
  | some o => rw [ho] at h; exact h

theorem sortOrder_of_none {a b : Literal} (h : a.compare? b = none) :
    (Term.literal a).sortOrder (.literal b) = Term.compareParts a b := by
  rw [sortOrder_literal, h, Option.getD_none]

/-- Going round a circle, the order comes back to where it started. -/
theorem Circular.leads {a b c : Literal} (h : Circular a b c) :
    ((Term.literal a).sortOrder (.literal b)).isLE ∧
      ((Term.literal b).sortOrder (.literal c)).isLE ∧
      (Term.literal c).sortOrder (.literal a) = .lt := by
  cases h with
  | numbers _ hab hbc hca =>
    exact ⟨isLE_of_any hab, isLE_of_any hbc, by rw [sortOrder_literal, hca, Option.getD_some]⟩
  | times _ hab hbc hac hca =>
    have hca' : c.compare? a = none := by rw [compare_swap, hac, Option.map_none]
    exact ⟨isLE_of_any hab, isLE_of_any hbc, by rw [sortOrder_of_none hca', hca]⟩
  | between hab hbc hac hbc' hca =>
    have hca' : c.compare? a = none := by rw [compare_swap, hac, Option.map_none]
    exact ⟨isLE_of_any hab, by rw [sortOrder_of_none hbc, hbc']; rfl,
      by rw [sortOrder_of_none hca', hca]⟩

theorem compare_eq_none_comm {a b : Literal} : b.compare? a = none ↔ a.compare? b = none := by
  rw [compare_swap, Option.map_eq_none_iff]

/-- Two literals that are comparable with one between them, and not with each other, are points in
time. -/
theorem circular_of_two {a b c : Literal} (hab : (a.compare? b).any Ordering.isLE)
    (hbc : (b.compare? c).any Ordering.isLE) (hac : a.compare? c = none)
    (hca : (Term.compareParts c a).isLE) : Circular a b c := by
  obtain ⟨o₁, h₁, hab'⟩ := (Option.any_eq_true ..).mp hab
  obtain ⟨o₂, h₂, hbc'⟩ := (Option.any_eq_true ..).mp hbc
  rcases Value.comparable_trans (Option.isSome_of_eq_some h₁) (Option.isSome_of_eq_some h₂)
    with h | ⟨r, s, t, hr, hs, ht⟩
  · rw [← compare?, hac] at h
    cases h
  · rw [compare?, hr, hs] at h₁
    rw [compare?, hs, ht] at h₂
    have hrt : r.compare t = none := by rwa [compare?, hr, ht] at hac
    refine .times ⟨r, s, t, hr, hs, ht, DateTime.edge_of_compare h₁ h₂ hab' hbc' hrt⟩ hab hbc hac
      (Term.compareParts_lt hca ?_)
    rintro rfl
    rw [compare?, hr, Value.compare?, DateTime.compare, if_pos rfl] at hac
    cases hac

/-- A literal that is comparable with none of two comparable ones is neither of them. -/
theorem circular_of_one {a b c : Literal} (hab : (a.compare? b).any Ordering.isLE)
    (hbc : b.compare? c = none) (hac : a.compare? c = none) (hbc' : (Term.compareParts b c).isLE)
    (hca : (Term.compareParts c a).isLE) : Circular a b c := by
  refine .between hab hbc hac (Term.compareParts_lt hbc' ?_) (Term.compareParts_lt hca ?_)
  · rintro rfl
    rw [hac] at hab
    cases hab
  · rintro rfl
    rw [compare_eq_none_comm.mp hbc] at hab
    cases hab

/-- Wherever the order is not transitive there is a circle. -/
theorem exists_circular {a b c : Literal}
    (hab : ((Term.literal a).sortOrder (.literal b)).isLE)
    (hbc : ((Term.literal b).sortOrder (.literal c)).isLE)
    (hca : (Term.literal c).sortOrder (.literal a) = .lt) :
    Circular a b c ∨ Circular b c a ∨ Circular c a b := by
  have hle {x y : Literal} {o : Ordering} (h : x.compare? y = some o)
      (ho : ((Term.literal x).sortOrder (.literal y)).isLE) : (x.compare? y).any Ordering.isLE := by
    rw [sortOrder_literal, h] at ho
    rw [h]
    exact ho
  have hparts {x y : Literal} (h : x.compare? y = none)
      (ho : ((Term.literal x).sortOrder (.literal y)).isLE) : (Term.compareParts x y).isLE := by
    rwa [sortOrder_of_none h] at ho
  have hca' : ((Term.literal c).sortOrder (.literal a)).isLE := by rw [hca]; rfl
  -- How many of the three pairs are comparable tells which circle it is, and where it starts.
  cases hv₁ : a.compare? b <;> cases hv₂ : b.compare? c <;> cases hv₃ : c.compare? a
  case none.none.none =>
    have h := Std.TransCmp.isLE_trans (hparts hv₁ hab) (hparts hv₂ hbc)
    rw [sortOrder_of_none hv₃] at hca
    rw [Term.compareParts_swap, hca] at h
    cases h
  case some.none.none =>
    exact .inl (circular_of_one (hle hv₁ hab) hv₂ (compare_eq_none_comm.mp hv₃)
      (hparts hv₂ hbc) (hparts hv₃ hca'))
  case none.some.none =>
    exact .inr (.inl (circular_of_one (hle hv₂ hbc) hv₃ (compare_eq_none_comm.mp hv₁)
      (hparts hv₃ hca') (hparts hv₁ hab)))
  case none.none.some =>
    exact .inr (.inr (circular_of_one (hle hv₃ hca') hv₁ (compare_eq_none_comm.mp hv₂)
      (hparts hv₁ hab) (hparts hv₂ hbc)))
  case some.some.none =>
    exact .inl (circular_of_two (hle hv₁ hab) (hle hv₂ hbc) (compare_eq_none_comm.mp hv₃)
      (hparts hv₃ hca'))
  case none.some.some =>
    exact .inr (.inl (circular_of_two (hle hv₂ hbc) (hle hv₃ hca') (compare_eq_none_comm.mp hv₁)
      (hparts hv₁ hab)))
  case some.none.some =>
    exact .inr (.inr (circular_of_two (hle hv₃ hca') (hle hv₁ hab) (compare_eq_none_comm.mp hv₂)
      (hparts hv₂ hbc)))
  case some.some.some o₁ o₂ o₃ =>
    rw [sortOrder_literal, hv₁] at hab
    rw [sortOrder_literal, hv₂] at hbc
    rw [sortOrder_literal, hv₃, Option.getD_some] at hca
    subst hca
    have hv₃' : a.compare? c = some .gt := by rw [compare_swap, hv₃]; rfl
    rcases Value.compare_trans hv₁ hv₂ hv₃' hab hbc with h | h
    · cases h
    · exact .inl (.numbers h (by rw [hv₁]; exact hab) (by rw [hv₂]; exact hbc) hv₃)

end Literal

/-! ### Terms -/

namespace Term

/-- What terms of one kind, other than literals, are ordered by. -/
def label : Term → String
  | blank x => x
  | iri x => x.text
  | literal _ => ""
  | object x _ | snapshot x _ _ _ => x

theorem sortOrder_of_rank_ne {a b : Term} (h : a.rank ≠ b.rank) :
    a.sortOrder b = Ord.compare a.rank b.rank := by
  cases a <;> cases b <;> first | rfl | exact absurd rfl h

theorem sortOrder_of_rank_eq {a b : Term} (h : a.rank = b.rank) (ha : a.rank ≠ 2) :
    a.sortOrder b = Ord.compare a.label b.label := by
  cases a <;> cases b <;> first | rfl | cases h; done | exact absurd rfl ha

theorem exists_literal {a : Term} (h : a.rank = 2) : ∃ l, a = literal l := by
  cases a <;> first | exact ⟨_, rfl⟩ | cases h

theorem sortOrder_swap (a b : Term) : b.sortOrder a = (a.sortOrder b).swap := by
  by_cases h : a.rank = b.rank
  · by_cases ha : a.rank = 2
    · obtain ⟨l, rfl⟩ := exists_literal ha
      obtain ⟨m, rfl⟩ := exists_literal (h ▸ ha)
      rw [Literal.sortOrder_literal, Literal.sortOrder_literal, Literal.compare_swap]
      cases l.compare? m with
      | some => rfl
      | none => exact compareParts_swap l m
    · rw [sortOrder_of_rank_eq h ha, sortOrder_of_rank_eq h.symm (h ▸ ha)]
      exact Std.OrientedOrd.eq_swap
  · rw [sortOrder_of_rank_ne h, sortOrder_of_rank_ne (Ne.symm h)]
    exact Std.OrientedOrd.eq_swap

theorem sortOrder_self (a : Term) : a.sortOrder a = .eq := by
  have h := a.sortOrder_swap a
  cases ho : a.sortOrder a <;> rw [ho] at h <;> first | rfl | cases h

theorem rank_le_of_isLE {a b : Term} (h : (a.sortOrder b).isLE) : a.rank ≤ b.rank := by
  by_cases hr : a.rank = b.rank
  · exact hr.le
  · rw [sortOrder_of_rank_ne hr] at h
    exact Std.isLE_compare.mp h

/-- No three literals among some terms lead round in a circle. -/
def CircleFree (S : Set Term) : Prop :=
  ∀ a b c : Literal, literal a ∈ S → literal b ∈ S → literal c ∈ S → ¬ Literal.Circular a b c

/-- The order is transitive exactly where there is no circle. -/
theorem totalOn_iff_circleFree {S : Set Term} : TotalOn sortOrder S ↔ CircleFree S := by
  constructor
  · intro h a b c ha hb hc hcircle
    obtain ⟨hab, hbc, hca⟩ := hcircle.leads
    have hac := h.trans _ ha _ hb _ hc hab hbc
    rw [sortOrder_swap, hca] at hac
    cases hac
  · refine fun h => ⟨fun a _ b _ => a.sortOrder_swap b, fun a ha b hb c hc hab hbc => ?_⟩
    have hr₁ := rank_le_of_isLE hab
    have hr₂ := rank_le_of_isLE hbc
    by_cases hr : a.rank = c.rank
    · have hr₁ : a.rank = b.rank := by omega
      have hr₂ : b.rank = c.rank := by omega
      by_cases hlit : a.rank = 2
      · obtain ⟨x, rfl⟩ := exists_literal hlit
        obtain ⟨y, rfl⟩ := exists_literal (hr₁ ▸ hlit)
        obtain ⟨z, rfl⟩ := exists_literal (hr ▸ hlit)
        by_contra hac
        have hca : (literal z).sortOrder (literal x) = .lt := by
          rw [sortOrder_swap]
          cases ho : (literal x).sortOrder (literal z) <;> simp [ho] at hac ⊢
        rcases Literal.exists_circular hab hbc hca with hcircle | hcircle | hcircle
        · exact h x y z ha hb hc hcircle
        · exact h y z x hb hc ha hcircle
        · exact h z x y hc ha hb hcircle
      · rw [sortOrder_of_rank_eq hr₁ hlit] at hab
        rw [sortOrder_of_rank_eq hr₂ (hr₁ ▸ hlit)] at hbc
        rw [sortOrder_of_rank_eq hr hlit]
        exact Std.TransOrd.isLE_trans hab hbc
    · rw [sortOrder_of_rank_ne hr]
      exact Std.isLE_compare.mpr (hr₁.trans hr₂)

/-- Only literals lead round in circles. -/
theorem totalOn_of_rank {S : Set Term} (h : ∀ t ∈ S, t.rank ≠ 2) : TotalOn sortOrder S :=
  totalOn_iff_circleFree.mpr fun _ _ _ ha => (h _ ha rfl).elim

/-- Nine comes before ten, ten before a form that is no number, and this one before nine. -/
example : let number (form : String) : Term := literal (.typed form Iri.xsdInteger)
    (number "9").sortOrder (number "10") = .lt ∧ (number "10").sortOrder (number "5x") = .lt ∧
      (number "5x").sortOrder (number "9") = .lt := by
  decide +kernel

end Term

/-! ### Groups -/

namespace SetFunction

theorem isLE_least {ts : List Term} (h : TotalOn Term.sortOrder {t | t ∈ ts}) (hts : ts ≠ []) :
    ∃ lo, least? ts = some lo ∧ ∀ u ∈ ts, (lo.sortOrder u).isLE := by
  cases ts with
  | nil => exact absurd rfl hts
  | cons t ts =>
    refine ⟨_, rfl, (h.isLE_foldl (fun a ha b hb => ?_)
      (fun b hb => List.mem_cons_of_mem t hb) List.mem_cons_self).2⟩
    have hself (a : Term) : (a.sortOrder a).isLE := by rw [a.sortOrder_self]; rfl
    split_ifs with hab
    · exact ⟨hb, by rw [Term.sortOrder_swap, hab]; rfl, hself b⟩
    · exact ⟨ha, hself a, Ordering.isLE_iff_ne_gt.mpr hab⟩

theorem isLE_greatest {ts : List Term} (h : TotalOn Term.sortOrder {t | t ∈ ts}) (hts : ts ≠ []) :
    ∃ hi, greatest? ts = some hi ∧ ∀ u ∈ ts, (u.sortOrder hi).isLE := by
  cases ts with
  | nil => exact absurd rfl hts
  | cons t ts =>
    refine ⟨_, rfl, (h.reverse.isLE_foldl (fun a ha b hb => ?_)
      (fun b hb => List.mem_cons_of_mem t hb) List.mem_cons_self).2⟩
    have hself (a : Term) : (a.sortOrder a).isLE := by rw [a.sortOrder_self]; rfl
    split_ifs with hab
    · exact ⟨ha, hself a, by rw [Term.sortOrder_swap, hab]; rfl⟩
    · exact ⟨hb, Ordering.isLE_iff_ne_gt.mpr hab, hself b⟩

theorem distinctTerms_concat (ts : List Term) (t : Term) : distinctTerms (ts ++ [t]) =
    if (distinctTerms ts).any (·.same t) then distinctTerms ts else distinctTerms ts ++ [t] := by
  rw [distinctTerms, List.foldl_append, List.foldl_cons, List.foldl_nil, ← distinctTerms]

theorem distinctTerms_subset (ts : List Term) : distinctTerms ts ⊆ ts := by
  induction ts using List.reverseRecOn with
  | nil => exact List.Subset.refl _
  | append_singleton ts t ih =>
    rw [distinctTerms_concat]
    split_ifs
    · exact List.Subset.trans ih (List.subset_append_left ts [t])
    · exact List.append_subset.mpr
        ⟨List.Subset.trans ih (List.subset_append_left ts [t]), List.subset_append_right ts [t]⟩

/-- Among canonical terms only repetitions are left out. -/
theorem mem_distinctTerms {ts : List Term} (h : ∀ t ∈ ts, t.canonical = t) {t : Term} :
    t ∈ distinctTerms ts ↔ t ∈ ts := by
  refine ⟨fun ht => distinctTerms_subset ts ht, fun ht => ?_⟩
  induction ts using List.reverseRecOn with
  | nil => exact ht
  | append_singleton ts u ih =>
    have ih := ih fun t ht => h t (List.mem_append_left [u] ht)
    rw [distinctTerms_concat]
    rw [List.mem_append, List.mem_singleton] at ht
    split_ifs with hany
    · obtain ⟨w, hw, hsame⟩ := List.any_eq_true.mp hany
      have hwu : w = u := by
        rwa [Term.same_iff, h u (by simp),
          h w (List.mem_append_left [u] (distinctTerms_subset ts hw))] at hsame
      exact ht.elim ih fun ht => by rwa [ht, ← hwu]
    · exact List.mem_append.mpr (ht.imp ih fun ht => List.mem_singleton.mpr ht)

/-- The least and the greatest value of a group are below and above all of its values. -/
theorem bounds_of_circleFree {distinct : Bool} {members : List (Option Term)}
    (h : Term.CircleFree {t | some t ∈ members}) (hmem : ∃ t, some t ∈ members)
    (hcanonical : distinct → ∀ t, some t ∈ members → t.canonical = t) :
    ∃ lo hi, min.apply distinct members = some lo ∧ max.apply distinct members = some hi ∧
      ∀ t, some t ∈ members → (lo.sortOrder t).isLE ∧ (t.sortOrder hi).isLE := by
  set values := if distinct then distinctTerms (members.filterMap id) else members.filterMap id
    with hvalues
  have hin (t : Term) : t ∈ values ↔ some t ∈ members := by
    have hmembers : t ∈ members.filterMap id ↔ some t ∈ members := by simp
    rw [hvalues]
    split_ifs with hd
    · rw [mem_distinctTerms fun t ht => hcanonical hd t (by simpa using ht), hmembers]
    · exact hmembers
  obtain ⟨t, ht⟩ := hmem
  have hne : values ≠ [] := List.ne_nil_of_mem ((hin t).mpr ht)
  have htotal : TotalOn Term.sortOrder {t | t ∈ values} :=
    (Term.totalOn_iff_circleFree.mpr h).mono fun t ht => (hin t).mp ht
  obtain ⟨lo, hlo, hle⟩ := isLE_least htotal hne
  obtain ⟨hi, hhi, hge⟩ := isLE_greatest htotal hne
  exact ⟨lo, hi, hlo, hhi, fun t ht => ⟨hle t ((hin t).mpr ht), hge t ((hin t).mpr ht)⟩⟩

end SetFunction

/-! ### Rows -/

theorem totalOn_compareKey {S : Set Term} (h : Term.CircleFree S) :
    TotalOn compareKey {k | ∀ t, k = some t → t ∈ S} where
  swap a _ b _ := by
    cases a <;> cases b <;> first | rfl | exact Term.sortOrder_swap ..
  trans a ha b hb c hc hab hbc := by
    cases a with
    | none => cases c <;> rfl
    | some t =>
      cases b with
      | none => cases hab
      | some u =>
        cases c with
        | none => cases hbc
        | some v =>
          exact (Term.totalOn_iff_circleFree.mpr h).trans t (ha t rfl) u (hb u rfl) v (hc v rfl)
            hab hbc

/-- Rows are ordered by their keys if the terms of each key do not lead round in a circle. -/
theorem totalOn_compareKeys (keys : List OrderKey) {K : Set (List (Option Term))}
    (hlength : ∀ as ∈ K, as.length = keys.length)
    (h : ∀ i : Nat, Term.CircleFree {t | ∃ as ∈ K, as[i]? = some (some t)}) :
    TotalOn (compareKeys keys) K := by
  induction keys generalizing K with
  | nil => exact ⟨fun _ _ _ _ => rfl, fun _ _ _ _ _ _ _ _ => rfl⟩
  | cons k keys ih =>
    have hcons {as : List (Option Term)} (has : as ∈ K) : as = as.head?.join :: as.tail := by
      cases as with
      | nil => cases hlength _ has
      | cons a as => cases a <;> rfl
    have htail := ih (K := List.tail '' K)
      (by
        rintro _ ⟨as, has, rfl⟩
        rw [List.length_tail, hlength as has, List.length_cons, Nat.add_sub_cancel])
      (fun i a b c ⟨_, ⟨as, has, rfl⟩, ha⟩ ⟨_, ⟨bs, hbs, rfl⟩, hb⟩ ⟨_, ⟨cs, hcs, rfl⟩, hc⟩ =>
        h (i + 1) a b c ⟨as, has, by rwa [List.getElem?_tail] at ha⟩
          ⟨bs, hbs, by rwa [List.getElem?_tail] at hb⟩
          ⟨cs, hcs, by rwa [List.getElem?_tail] at hc⟩)
    have hhead : TotalOn (fun a b => if k.descending then (compareKey a b).swap
        else compareKey a b) {a | ∀ t, a = some t → ∃ as ∈ K, as[0]? = some (some t)} := by
      cases k.descending
      · exact totalOn_compareKey (h 0)
      · exact (totalOn_compareKey (h 0)).swapped
    refine ((hhead.comap (S := K) (f := fun as => as.head?.join) fun as has t ht => ?_).andThen
      (htail.comap (S := K) (f := List.tail) fun as has => ⟨as, has, rfl⟩)).congr
      fun as has bs hbs => ?_
    · refine ⟨as, has, ?_⟩
      rw [hcons has, ht]
      rfl
    · conv_lhs => rw [hcons has, hcons hbs]
      rfl

theorem totalOn_compareRows (keys : List OrderKey) {rows : List Solution}
    (hlength : ∀ r ∈ rows, r.orderKeys.length = keys.length)
    (h : ∀ i : Nat, Term.CircleFree {t | ∃ r ∈ rows, r.orderKeys[i]? = some (some t)}) :
    TotalOn (compareRows keys) {r | r ∈ rows} := by
  refine (totalOn_compareKeys keys (K := {as | ∃ r ∈ rows, r.orderKeys = as}) ?_ ?_).comap
    fun r hr => ⟨r, hr, rfl⟩
  · rintro _ ⟨r, hr, rfl⟩
    exact hlength r hr
  · rintro i a b c ⟨_, ⟨r, hr, rfl⟩, ha⟩ ⟨_, ⟨s, hs, rfl⟩, hb⟩ ⟨_, ⟨t, ht, rfl⟩, hc⟩
    exact h i a b c ⟨r, hr, ha⟩ ⟨s, hs, hb⟩ ⟨t, ht, hc⟩

/-! ### The order of sorting -/

namespace Term

/-- Literals that are comparable with each other do not lead round in a circle, unless some are
rounded to be compared. -/
theorem circleFree_of_comparable {S : Set Term}
    (h : ∀ a b, literal a ∈ S → literal b ∈ S → a.compare? b ≠ none)
    (hn : (∀ a x, literal a ∈ S → Value.ofLiteral a = .numeric x → x.units? = none) ∨
      ∀ a x, literal a ∈ S → Value.ofLiteral a = .numeric x → x.units? ≠ none) : CircleFree S := by
  intro a b c ha hb hc hcircle
  cases hcircle with
  | numbers mixed =>
    obtain ⟨x, y, z, hx, hy, hz, ⟨u, hu, hnone⟩, ⟨v, hv, hsome⟩⟩ := mixed
    have hall {w : Numeric} (hw : w ∈ [x, y, z]) :
        ∃ d, literal d ∈ S ∧ Value.ofLiteral d = .numeric w := by
      simp only [List.mem_cons, List.not_mem_nil, or_false] at hw
      rcases hw with rfl | rfl | rfl
      exacts [⟨a, ha, hx⟩, ⟨b, hb, hy⟩, ⟨c, hc, hz⟩]
    rcases hn with hn | hn
    · obtain ⟨d, hd, hv⟩ := hall hv
      exact hsome (hn d v hd hv)
    · obtain ⟨d, hd, hu⟩ := hall hu
      exact hn d u hd hu hnone
  | times _ _ _ hac => exact h a c ha hc hac
  | between _ hbc => exact h b c hb hc hbc

/-- The order can be turned round, and each term ties with itself. On some terms it is transitive
exactly if no three literals among them lead round in a circle, and then it orders groups and
rows. -/
theorem sortOrder_total (S : Set Term) :
    (∀ a b : Term, b.sortOrder a = (a.sortOrder b).swap) ∧
    (∀ a : Term, a.sortOrder a = .eq) ∧
    (TotalOn sortOrder S ↔ CircleFree S) ∧
    (∀ (distinct : Bool) (members : List (Option Term)),
      CircleFree {t | some t ∈ members} → (∃ t, some t ∈ members) →
      (distinct → ∀ t, some t ∈ members → t.canonical = t) →
      ∃ lo hi, SetFunction.min.apply distinct members = some lo ∧
        SetFunction.max.apply distinct members = some hi ∧
        ∀ t, some t ∈ members → (lo.sortOrder t).isLE ∧ (t.sortOrder hi).isLE) ∧
    ∀ (keys : List OrderKey) (rows : List Solution),
      (∀ r ∈ rows, r.orderKeys.length = keys.length) →
      (∀ i : Nat, CircleFree {t | ∃ r ∈ rows, r.orderKeys[i]? = some (some t)}) →
      TotalOn (compareRows keys) {r | r ∈ rows} :=
  ⟨sortOrder_swap, sortOrder_self, totalOn_iff_circleFree,
    fun _ _ h hmem hcanonical => SetFunction.bounds_of_circleFree h hmem hcanonical,
    fun keys _ hlength h => totalOn_compareRows keys hlength h⟩

/-- An integer that a single cannot hold ties with its neighbour, as a single, which ties with the
same neighbour as an integer. -/
theorem not_sortOrder_trans : ¬ ∀ a b c : Term,
    (a.sortOrder b).isLE → (b.sortOrder c).isLE → (a.sortOrder c).isLE := by
  intro h
  have h := h (literal (.typed "16777217" Iri.xsdInteger))
    (literal (.typed "16777216" Iri.xsdFloat)) (literal (.typed "16777216" Iri.xsdInteger))
    (by decide +kernel) (by decide +kernel)
  revert h
  decide +kernel

end Term

end GraphQuery
