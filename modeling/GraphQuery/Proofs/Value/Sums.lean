import GraphQuery.Proofs.Value.Order

/-! Sums of integers and decimals. Each step of a sum is checked: it has to fit 64 bits as long as
there are integers only, and 128 bits from the first decimal on. What the numbers add up to does not
depend on their order, but whether all running sums fit does. -/

namespace GraphQuery

namespace Numeric

variable {a b n : Numeric} {ns ns' : List Numeric}

/-! ### Exact numbers -/

/-- Whether a number is an integer or a decimal. -/
def IsExact (n : Numeric) : Prop := n.units?.isSome

def units (n : Numeric) : Int := n.units?.getD 0

def isWhole : Numeric → Bool
  | integer _ => true
  | decimal _ | float _ | double _ => false

/-- The integer or the decimal of so many units of 10⁻¹⁸, if it fits. -/
def ofExact? (whole : Bool) (units : Int) : Option Numeric :=
  if whole then (Integer.ofInt? (units / Decimal.one)).map integer
  else (Decimal.ofUnits? units).map decimal

theorem dvd_units (h : n.isWhole = true) : Decimal.one ∣ n.units := by
  cases n with
  | integer a => exact Dvd.intro_left a.toInt rfl
  | decimal a => cases h
  | float a => cases h
  | double a => cases h

/-- An addition is exact, in the later of the two types. -/
theorem add_eq_ofExact (ha : a.IsExact) (hb : b.IsExact) :
    a.add b = ofExact? (a.isWhole && b.isWhole) (a.units + b.units) := by
  cases a with
  | integer x =>
    cases b with
    | integer y =>
      have hunits : (x.toInt * Decimal.one + y.toInt * Decimal.one) / Decimal.one =
          x.toInt + y.toInt := by
        rw [← add_mul, Int.mul_ediv_cancel _ (by decide)]
      show (Integer.ofInt? (x.toInt + y.toInt)).map integer = _
      rw [← hunits]
      rfl
    | decimal y => rfl
    | float y => cases hb
    | double y => cases hb
  | decimal x =>
    cases b with
    | integer y => rfl
    | decimal y => rfl
    | float y => cases hb
    | double y => cases hb
  | float x => cases ha
  | double x => cases ha

theorem of_ofExact {whole : Bool} {units : Int} (h : ofExact? whole units = some n)
    (hdvd : whole = true → Decimal.one ∣ units) :
    n.IsExact ∧ n.isWhole = whole ∧ n.units = units := by
  cases whole with
  | false =>
    obtain ⟨d, hd, rfl⟩ := Option.map_eq_some_iff.mp h
    unfold Decimal.ofUnits? at hd
    split_ifs at hd
    cases hd
    exact ⟨rfl, rfl, rfl⟩
  | true =>
    obtain ⟨k, rfl⟩ := hdvd rfl
    obtain ⟨i, hi, rfl⟩ := Option.map_eq_some_iff.mp h
    rw [Int.mul_ediv_cancel_left _ (by decide), Integer.ofInt?] at hi
    split_ifs at hi with hfits
    cases hi
    refine ⟨rfl, rfl, ?_⟩
    show (Int64.ofInt k).toInt * Decimal.one = Decimal.one * k
    unfold Integer.bound at hfits
    rw [Int64.toInt_ofInt_of_le (by omega) (by omega), mul_comm]

/-! ### Running sums -/

/-- What exact numbers add up to, if that fits. -/
def total? (ns : List Numeric) : Option Numeric :=
  ofExact? (ns.all isWhole) (ns.map units).sum

/-- Whether all running sums fit. -/
def runsFit (ns : List Numeric) : Bool := ns.inits.all fun run => (total? run).isSome

/-- The order does not matter for the total. -/
theorem total_perm (h : ns.Perm ns') : total? ns = total? ns' := by
  rw [total?, total?, h.all_eq, (h.map units).sum_eq]

theorem runsFit_concat (ns : List Numeric) (n : Numeric) :
    runsFit (ns ++ [n]) = (runsFit ns && (total? (ns ++ [n])).isSome) := by
  simp [runsFit, List.inits_append]

theorem isSome_total_of_runsFit (h : runsFit ns = true) : (total? ns).isSome := by
  refine List.all_eq_true.mp h ns ?_
  rw [List.mem_inits]

/-- One more number is added to a total. -/
theorem add_total {total : Numeric} (h : total? ns = some total) (hn : n.IsExact) :
    total.add n = total? (ns ++ [n]) := by
  have hdvd : ns.all isWhole = true → Decimal.one ∣ (ns.map units).sum := fun hall =>
    List.dvd_sum fun u hu => by
      obtain ⟨m, hm, rfl⟩ := List.mem_map.mp hu
      exact dvd_units (List.all_eq_true.mp hall m hm)
  obtain ⟨hexact, hwhole, hunits⟩ := of_ofExact h hdvd
  rw [add_eq_ofExact hexact hn, hwhole, hunits, total?]
  simp

end Numeric

/-! ### Sums of terms -/

namespace Term

variable {lexical : String} {datatype : Iri} {t : Term} {n : Numeric}

/-- Whether a term is a literal of a type of integers, or of decimals; its lexical form may be
anything. -/
def IsExact (t : Term) : Prop :=
  ∃ lexical datatype, t = .literal (.typed lexical datatype) ∧
    (datatype ∈ Iri.integerTypes ∨ datatype = Iri.xsdDecimal)

theorem numeric_of_integer (h : datatype ∈ Iri.integerTypes) :
    (literal (.typed lexical datatype)).numeric? = (Integer.read? lexical).map .integer := by
  have hne : ∀ d ∈ Iri.integerTypes, d ≠ Iri.xsdString ∧ d ≠ Iri.xsdBoolean := by decide
  show (Value.ofTyped lexical datatype).numeric? = _
  rw [Value.ofTyped, if_neg (hne _ h).1, if_neg (hne _ h).2,
    if_pos (List.contains_iff_mem.mpr h)]
  cases Integer.read? lexical <;> rfl

theorem numeric_of_decimal :
    (literal (.typed lexical Iri.xsdDecimal)).numeric? = (Decimal.read? lexical).map .decimal := by
  show (Value.ofTyped lexical Iri.xsdDecimal).numeric? = _
  rw [Value.ofTyped, if_neg (by decide), if_neg (by decide), if_neg (by decide),
    if_pos (by decide)]
  cases Decimal.read? lexical <;> rfl

theorem IsExact.numeric (h : t.IsExact) (hn : t.numeric? = some n) : n.IsExact := by
  obtain ⟨lexical, datatype, rfl, htype | rfl⟩ := h
  · rw [numeric_of_integer htype] at hn
    obtain ⟨i, -, rfl⟩ := Option.map_eq_some_iff.mp hn
    rfl
  · rw [numeric_of_decimal] at hn
    obtain ⟨d, -, rfl⟩ := Option.map_eq_some_iff.mp hn
    rfl

/-- The canonical form of a number is the same number. -/
theorem IsExact.numeric_canonical (h : t.IsExact) : t.canonical.numeric? = t.numeric? := by
  obtain ⟨lexical, datatype, rfl, htype⟩ := h
  show (literal (.typed ((canonicalForm? datatype lexical).getD lexical) datatype)).numeric? = _
  cases hform : canonicalForm? datatype lexical with
  | none => rfl
  | some form =>
    unfold canonicalForm? at hform
    rw [Option.getD_some]
    split_ifs at hform with hinteger hdecimal hdouble hfloat hboolean hdateTime
    · subst hinteger
      obtain ⟨i, hi, rfl⟩ := Option.map_eq_some_iff.mp hform
      rw [numeric_of_integer (by decide), numeric_of_integer (by decide), Integer.read_render, hi]
    · subst hdecimal
      obtain ⟨d, hd, rfl⟩ := Option.map_eq_some_iff.mp hform
      rw [numeric_of_decimal, numeric_of_decimal, Decimal.read_render, hd]
    · subst hdouble
      exact absurd htype (by decide)
    · subst hfloat
      exact absurd htype (by decide)
    · subst hboolean
      exact absurd htype (by decide)
    · subst hdateTime
      exact absurd htype (by decide)

end Term

namespace SetFunction

variable {ts ts' : List Term} {members members' : List (Option Term)} {distinct : Bool}

def numbers (ts : List Term) : List Numeric := ts.filterMap Term.numeric?

/-- Whether all terms are numbers, but some of their running sums does not fit. -/
def overflows (ts : List Term) : Bool :=
  ts.all (·.numeric?.isSome) && !Numeric.runsFit (numbers ts)

theorem sumOf_concat (ts : List Term) (t : Term) :
    sumOf (ts ++ [t]) = (sumOf ts).bind fun sum => t.numeric?.bind sum.add := by
  simp [sumOf, List.foldlM_append]

/-- A sum of integers and decimals is their total if all of them are numbers and all running sums
fit, and there is no sum otherwise. -/
theorem sumOf_eq (h : ∀ t ∈ ts, t.IsExact) :
    sumOf ts = if ts.all (·.numeric?.isSome) && Numeric.runsFit (numbers ts) then
      Numeric.total? (numbers ts) else none := by
  induction ts using List.reverseRecOn with
  | nil => rfl
  | append_singleton ts t ih =>
    rw [sumOf_concat, ih fun t ht => h t (List.mem_append_left _ ht), List.all_append]
    cases hn : t.numeric? with
    | none => simp [hn]
    | some n =>
      have hnumbers : numbers (ts ++ [t]) = numbers ts ++ [n] := by simp [numbers, hn]
      rw [hnumbers, Numeric.runsFit_concat]
      cases hall : ts.all (·.numeric?.isSome) with
      | false => simp
      | true =>
        cases hfit : Numeric.runsFit (numbers ts) with
        | false => simp
        | true =>
          obtain ⟨total, htotal⟩ :=
            Option.isSome_iff_exists.mp (Numeric.isSome_total_of_runsFit hfit)
          have hadd := Numeric.add_total htotal ((h t (by simp)).numeric hn)
          rw [← hadd]
          simp [htotal, hn]

/-! ### Distinct terms -/

/-- Of the terms that are the same, one is kept. -/
theorem nodup_distinctTerms (ts : List Term) : ((distinctTerms ts).map Term.canonical).Nodup := by
  induction ts using List.reverseRecOn with
  | nil => exact List.nodup_nil
  | append_singleton ts t ih =>
    rw [distinctTerms_concat]
    split_ifs with hany
    · exact ih
    · rw [List.map_append, List.map_singleton]
      refine List.nodup_append.mpr ⟨ih, List.nodup_singleton _, fun c hc d hd hcd => hany ?_⟩
      obtain ⟨u, hu, rfl⟩ := List.mem_map.mp hc
      rw [List.mem_singleton.mp hd] at hcd
      exact List.any_eq_true.mpr ⟨u, hu, (Term.same_iff u t).mpr hcd⟩

theorem mem_map_distinctTerms {ts : List Term} {c : Term} :
    c ∈ (distinctTerms ts).map Term.canonical ↔ c ∈ ts.map Term.canonical := by
  induction ts using List.reverseRecOn with
  | nil => rfl
  | append_singleton ts t ih =>
    rw [distinctTerms_concat, List.map_append, List.mem_append, ← ih, List.map_singleton,
      List.mem_singleton]
    split_ifs with hany
    · refine (or_iff_left_of_imp fun hc => ?_).symm
      obtain ⟨u, hu, hsame⟩ := List.any_eq_true.mp hany
      exact List.mem_map.mpr ⟨u, hu, by rw [hc, ← Term.same_iff u t, hsame]⟩
    · rw [List.map_append, List.mem_append, List.map_singleton, List.mem_singleton]

theorem map_distinctTerms_perm (h : ts.Perm ts') :
    ((distinctTerms ts).map Term.canonical).Perm ((distinctTerms ts').map Term.canonical) := by
  refine (List.perm_ext_iff_of_nodup (nodup_distinctTerms ts) (nodup_distinctTerms ts')).mpr ?_
  intro c
  rw [mem_map_distinctTerms, mem_map_distinctTerms]
  exact (h.map Term.canonical).mem_iff

/-- The terms that count. -/
def counted (distinct : Bool) (members : List (Option Term)) : List Term :=
  if distinct then distinctTerms (members.filterMap id) else members.filterMap id

theorem mem_of_mem_counted {t : Term} (h : t ∈ counted distinct members) : some t ∈ members := by
  have hin : ∀ u ∈ members.filterMap id, some u ∈ members := fun u hu => by simpa using hu
  unfold counted at h
  split_ifs at h
  · exact hin t (distinctTerms_subset _ h)
  · exact hin t h

/-- The numbers that count are the same in any order. -/
theorem map_numeric_counted_perm (distinct : Bool) (h : members.Perm members')
    (hexact : ∀ t, some t ∈ members → t.IsExact) :
    ((counted distinct members).map Term.numeric?).Perm
      ((counted distinct members').map Term.numeric?) := by
  have hcanonical : ∀ ms : List (Option Term), (∀ t, some t ∈ ms → t.IsExact) →
      (counted distinct ms).map Term.numeric? =
        ((counted distinct ms).map Term.canonical).map Term.numeric? := fun ms hms => by
    rw [List.map_map]
    exact List.map_congr_left fun t ht => (hms t (mem_of_mem_counted ht)).numeric_canonical.symm
  rw [hcanonical members hexact, hcanonical members' fun t ht => hexact t (h.mem_iff.mpr ht)]
  refine List.Perm.map _ ?_
  unfold counted
  cases distinct with
  | true => exact map_distinctTerms_perm (h.filterMap id)
  | false => exact (h.filterMap id).map Term.canonical

/-! ### Order -/

theorem numbers_eq (ts : List Term) : numbers ts = (ts.map Term.numeric?).filterMap id := by
  rw [numbers, List.filterMap_map]
  rfl

theorem sumOf_of_overflows (hexact : ∀ t ∈ ts, t.IsExact) (h : overflows ts = true) :
    sumOf ts = none := by
  rw [overflows, Bool.and_eq_true, Bool.not_eq_true'] at h
  rw [sumOf_eq hexact, h.2, Bool.and_false]
  rfl

/-- Two sums of the same numbers are equal unless one of them overflows and the other does not, and
so is all that is made of them. -/
theorem map_sumOf_eq_iff {β : Type} (f : Numeric → β)
    (h : (ts.map Term.numeric?).Perm (ts'.map Term.numeric?)) (hexact : ∀ t ∈ ts, t.IsExact)
    (hexact' : ∀ t ∈ ts', t.IsExact) :
    (sumOf ts).map f = (sumOf ts').map f ↔ overflows ts = overflows ts' := by
  have hall : ts.all (·.numeric?.isSome) = ts'.all (·.numeric?.isSome) := by
    have hmap := h.all_eq (f := Option.isSome)
    rw [List.all_map, List.all_map] at hmap
    exact hmap
  have htotal : Numeric.total? (numbers ts) = Numeric.total? (numbers ts') := by
    rw [numbers_eq, numbers_eq]
    exact Numeric.total_perm (h.filterMap id)
  rw [sumOf_eq hexact, sumOf_eq hexact', overflows, overflows, hall, htotal]
  cases ts'.all (·.numeric?.isSome) with
  | false => simp
  | true =>
    have hsome : Numeric.runsFit (numbers ts) = true ∨ Numeric.runsFit (numbers ts') = true →
        Numeric.total? (numbers ts') ≠ none := by
      rintro (hfit | hfit)
      · exact htotal ▸ Option.isSome_iff_ne_none.mp (Numeric.isSome_total_of_runsFit hfit)
      · exact Option.isSome_iff_ne_none.mp (Numeric.isSome_total_of_runsFit hfit)
    cases hfit : Numeric.runsFit (numbers ts) with
    | true =>
      cases hfit' : Numeric.runsFit (numbers ts') with
      | true => simp
      | false => simpa using hsome (.inl hfit)
    | false =>
      cases hfit' : Numeric.runsFit (numbers ts') with
      | true => simpa using hsome (.inr hfit')
      | false => simp

theorem avg_apply (distinct : Bool) (members : List (Option Term)) :
    avg.apply distinct members =
      if (counted distinct members).length = 0 then some (.literal (.ofInt64 0))
      else (average (counted distinct members)).map fun n => .literal n.toLiteral := by
  simp only [List.length_eq_zero_iff, ← List.isEmpty_iff]
  rfl

theorem avg_of_overflows (hexact : ∀ t ∈ counted distinct members, t.IsExact)
    (h : overflows (counted distinct members) = true) : avg.apply distinct members = none := by
  have hne : (counted distinct members).length ≠ 0 := fun hnil => by
    rw [List.length_eq_zero_iff.mp hnil] at h
    exact absurd h (by decide)
  rw [avg_apply, if_neg hne, average, sumOf_of_overflows hexact h]
  cases Integer.ofInt? (counted distinct members).length <;> rfl

/-- The sum and the average of integers and decimals in two orders. The sums agree, or there is none
in both orders, exactly if running sums overflow in both orders or in none; the averages do so then
as well, and otherwise only if there is none in both orders. -/
theorem sum_perm (distinct : Bool) (h : members.Perm members')
    (hexact : ∀ t, some t ∈ members → t.IsExact) :
    (sum.apply distinct members = sum.apply distinct members' ↔
      (overflows (counted distinct members) = overflows (counted distinct members'))) ∧
    (avg.apply distinct members = avg.apply distinct members' ↔
      (overflows (counted distinct members) = overflows (counted distinct members') ∨
        avg.apply distinct members = none ∧ avg.apply distinct members' = none)) := by
  have hexact' : ∀ t, some t ∈ members' → t.IsExact := fun t ht => hexact t (h.mem_iff.mpr ht)
  have hperm := map_numeric_counted_perm distinct h hexact
  have hin : ∀ t ∈ counted distinct members, t.IsExact :=
    fun t ht => hexact t (mem_of_mem_counted ht)
  have hin' : ∀ t ∈ counted distinct members', t.IsExact :=
    fun t ht => hexact' t (mem_of_mem_counted ht)
  have hlength : (counted distinct members).length = (counted distinct members').length := by
    simpa using hperm.length_eq
  refine ⟨map_sumOf_eq_iff _ hperm hin hin', ?_⟩
  constructor
  · intro heq
    cases hover : overflows (counted distinct members) with
    | true =>
      have hnone := avg_of_overflows hin hover
      exact .inr ⟨hnone, heq ▸ hnone⟩
    | false =>
      cases hover' : overflows (counted distinct members') with
      | true =>
        have hnone := avg_of_overflows hin' hover'
        exact .inr ⟨heq.trans hnone, hnone⟩
      | false => exact .inl rfl
  · rintro (hover | ⟨hnone, hnone'⟩)
    · have hsum : sumOf (counted distinct members) = sumOf (counted distinct members') := by
        simpa using (map_sumOf_eq_iff id hperm hin hin').mpr hover
      rw [avg_apply, avg_apply, average, average, hsum, hlength]
    · rw [hnone, hnone']

/-- Two forms of one number and a decimal in two orders. -/
theorem sum_perm_of_repeated :
    let one : Option Term := some (.literal (.typed "1" Iri.xsdInteger))
    let padded : Option Term := some (.literal (.typed "01" Iri.xsdInteger))
    let half : Option Term := some (.literal (.typed "0.5" Iri.xsdDecimal))
    sum.apply true [one, none, half, padded] = sum.apply true [half, padded, one, none] ∧
      avg.apply true [one, none, half, padded] = avg.apply true [half, padded, one, none] := by
  intro one padded half
  have hperm : [one, none, half, padded].Perm [half, padded, one, none] := by decide
  have hexact : ∀ t, some t ∈ [one, none, half, padded] → t.IsExact := by
    intro t ht
    simp only [List.mem_cons, List.not_mem_nil, or_false, reduceCtorEq, false_or] at ht
    rcases ht with ht | ht | ht
    · exact ⟨_, _, Option.some.inj ht, .inl (by decide)⟩
    · exact ⟨_, _, Option.some.inj ht, .inr rfl⟩
    · exact ⟨_, _, Option.some.inj ht, .inl (by decide)⟩
  obtain ⟨hsum, havg⟩ := sum_perm true hperm hexact
  exact ⟨hsum.mpr (by decide +kernel), havg.mpr (.inl (by decide +kernel))⟩

/-- The greatest integer and two that cancel out add up in one order and not in another one. -/
theorem not_sum_perm :
    let greatest : Option Term := some (.literal (.typed "9223372036854775807" Iri.xsdInteger))
    let one : Option Term := some (.literal (.typed "1" Iri.xsdInteger))
    let minusOne : Option Term := some (.literal (.typed "-1" Iri.xsdInteger))
    [greatest, one, minusOne].Perm [one, minusOne, greatest] ∧
      ¬ sum.apply false [greatest, one, minusOne] = sum.apply false [one, minusOne, greatest] ∧
      ¬ avg.apply false [greatest, one, minusOne] = avg.apply false [one, minusOne, greatest] := by
  decide +kernel

end SetFunction

end GraphQuery
