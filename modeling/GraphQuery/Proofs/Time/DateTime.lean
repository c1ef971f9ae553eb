import GraphQuery.Time.DateTime
import GraphQuery.Proofs.Number.Decimal

/-! Points in time that are read, written and read again. Each day number is the number of its
date, and the year of a point that was read fits the year of its written form, so what is read
from the written form is the same point. -/

namespace GraphQuery

/-! ### Dates -/

namespace Calendar

theorem daysBeforeMonth_succ (year : Int) {month : Nat} (h : 1 ≤ month) :
    daysBeforeMonth year (month + 1) = daysBeforeMonth year month + daysInMonth year month := by
  obtain ⟨n, rfl⟩ : ∃ n, month = n + 1 := ⟨month - 1, by omega⟩
  have hf : ∀ (l : List Nat) (d : Nat), l.foldr (fun m days => daysInMonth year m + days) d =
      l.foldr (fun m days => daysInMonth year m + days) 0 + d := by
    intro l d
    induction l with
    | nil => simp
    | cons m l ih => simp only [List.foldr_cons, ih]; omega
  simp only [daysBeforeMonth, Nat.add_sub_cancel, List.range'_concat, List.foldr_append,
    List.foldr_cons, List.foldr_nil]
  rw [hf]
  simp [Nat.add_comm]

/-- The month and day of the `n`-th day after the start of a month. -/
theorem monthAndDay_range (year : Int) (month count n : Nat) (h : 1 ≤ month) :
    daysBeforeMonth year (monthAndDay year (List.range' month (count + 1)) n).1 +
      (monthAndDay year (List.range' month (count + 1)) n).2 = daysBeforeMonth year month + n + 1 := by
  induction count generalizing month n with
  | zero => simp [monthAndDay]; omega
  | succ count ih =>
    have hr : List.range' month (count + 2) =
        month :: (month + 1) :: List.range' (month + 1 + 1) count := rfl
    have ih := ih (month + 1) (n - daysInMonth year month) (by omega)
    rw [daysBeforeMonth_succ year h] at ih
    rw [List.range'_succ] at ih
    rw [hr, monthAndDay]
    split
    · dsimp only
      omega
    · omega
    · simp

/-- The days before a year that is given by its era, century, group of four and place therein. -/
theorem daysBeforeYear_parts {era century four year : Int} (hc : 0 ≤ century ∧ century ≤ 3)
    (hf : 0 ≤ four ∧ four ≤ 24) (hy : 0 ≤ year ∧ year ≤ 3) :
    daysBeforeYear (400 * era + 100 * century + 4 * four + year + 1) =
      146097 * era + 36524 * century + 1461 * four + 365 * year := by
  have h4 : (400 * era + 100 * century + 4 * four + year) / 4 = 100 * era + 25 * century + four := by
    omega
  have h100 : (400 * era + 100 * century + 4 * four + year) / 100 = 4 * era + century := by omega
  have h400 : (400 * era + 100 * century + 4 * four + year) / 400 = era := by omega
  rw [daysBeforeYear, Int.add_sub_cancel, h4, h100, h400]
  ring

theorem daysBeforeYear_yearOf_le (n : Int) : daysBeforeYear (yearOf n) ≤ n := by
  have hera := Int.emod_add_mul_ediv n 146097
  have hcentury : 0 ≤ min 3 (n % 146097 / 36524) ∧ min 3 (n % 146097 / 36524) ≤ 3 := by omega
  generalize hc : min 3 (n % 146097 / 36524) = century at hcentury
  have hin : 0 ≤ n % 146097 - 36524 * century ∧ n % 146097 - 36524 * century < 36525 := by omega
  have hfour := Int.emod_add_mul_ediv (n % 146097 - 36524 * century) 1461
  have hyear : yearOf n = 400 * (n / 146097) + 100 * century +
      4 * ((n % 146097 - 36524 * century) / 1461) +
      min 3 ((n % 146097 - 36524 * century) % 1461 / 365) + 1 := by
    rw [← hc]
    rfl
  rw [hyear, daysBeforeYear_parts hcentury (by omega) (by omega)]
  omega

theorem dayNumber_dateOf (n : Int) :
    dayNumber (dateOf n).1 (dateOf n).2.1 (dateOf n).2.2 = n := by
  have hy := daysBeforeYear_yearOf_le n
  have hm := monthAndDay_range (yearOf n) 1 11 (n - daysBeforeYear (yearOf n)).toNat le_rfl
  simp only [dayNumber, dateOf]
  have h1 : daysBeforeMonth (yearOf n) 1 = 0 := rfl
  simp only [Nat.reduceAdd] at hm
  omega

theorem daysBeforeYear_succ (year : Int) :
    daysBeforeYear (year + 1) = daysBeforeYear year + if isLeap year then 366 else 365 := by
  simp only [daysBeforeYear, isLeap, Bool.and_eq_true, Bool.or_eq_true, decide_eq_true_eq]
  split_ifs <;> omega

theorem daysBeforeMonth_thirteen (year : Int) :
    daysBeforeMonth year 13 = if isLeap year then 366 else 365 := by
  simp only [daysBeforeMonth, daysInMonth, List.range'_succ, List.range'_zero, List.foldr_cons,
    List.foldr_nil]
  split <;> rfl

theorem lt_daysBeforeYear_yearOf (n : Int) : n < daysBeforeYear (yearOf n + 1) := by
  have hera := Int.emod_add_mul_ediv n 146097
  have hcentury : 0 ≤ min 3 (n % 146097 / 36524) ∧ min 3 (n % 146097 / 36524) ≤ 3 := by omega
  generalize hc : min 3 (n % 146097 / 36524) = century at hcentury
  have hin : 0 ≤ n % 146097 - 36524 * century ∧ n % 146097 - 36524 * century < 36525 := by omega
  have hfour := Int.emod_add_mul_ediv (n % 146097 - 36524 * century) 1461
  have hyear : yearOf n + 1 = 400 * (n / 146097) + 100 * century +
      4 * ((n % 146097 - 36524 * century) / 1461) +
      min 3 ((n % 146097 - 36524 * century) % 1461 / 365) + 1 + 1 := by
    rw [← hc]
    rfl
  rw [hyear, daysBeforeYear_succ, daysBeforeYear_parts hcentury (by omega) (by omega)]
  simp only [isLeap, Bool.and_eq_true, Bool.or_eq_true, decide_eq_true_eq]
  split_ifs with hleap
  · omega
  · omega

/-- A day of a year falls into one of its months. -/
theorem monthAndDay_mem (year : Int) (month count n : Nat)
    (h : daysBeforeMonth year month + n < daysBeforeMonth year (month + count + 1))
    (hm : 1 ≤ month) :
    let date := monthAndDay year (List.range' month (count + 1)) n
    (month ≤ date.1 ∧ date.1 ≤ month + count) ∧ 1 ≤ date.2 ∧ date.2 ≤ daysInMonth year date.1 := by
  induction count generalizing month n with
  | zero =>
    rw [daysBeforeMonth_succ year hm] at h
    simp only [List.range'_succ, List.range'_zero, monthAndDay]
    omega
  | succ count ih =>
    have hr : List.range' month (count + 2) =
        month :: (month + 1) :: List.range' (month + 1 + 1) count := rfl
    have hsucc := daysBeforeMonth_succ year hm
    rw [hr, monthAndDay]
    split
    · dsimp only
      omega
    · have ih := ih (month + 1) (n - daysInMonth year month)
        (by rw [show month + 1 + count + 1 = month + (count + 1) + 1 by omega]; omega) (by omega)
      rw [List.range'_succ] at ih
      dsimp only at ih ⊢
      omega
    · simp

/-- A date has a month of the year and a day of the month. -/
theorem dateOf_mem (n : Int) : (1 ≤ (dateOf n).2.1 ∧ (dateOf n).2.1 ≤ 12) ∧ 1 ≤ (dateOf n).2.2 ∧
    (dateOf n).2.2 ≤ daysInMonth (dateOf n).1 (dateOf n).2.1 := by
  have hlow := daysBeforeYear_yearOf_le n
  have hhigh := lt_daysBeforeYear_yearOf n
  rw [daysBeforeYear_succ] at hhigh
  refine monthAndDay_mem (yearOf n) 1 11 _ ?_ le_rfl
  have h1 : daysBeforeMonth (yearOf n) 1 = 0 := rfl
  rw [h1, daysBeforeMonth_thirteen]
  split_ifs at hhigh ⊢ <;> omega

theorem daysInMonth_le (year : Int) (month : Nat) : daysInMonth year month ≤ 31 := by
  unfold daysInMonth
  grind

theorem yearOf_bounds (n : Int) : min n 0 - 2 ≤ yearOf n ∧ yearOf n ≤ max n 0 + 2 := by
  simp only [yearOf]
  omega

end Calendar

/-! ### Points in time -/

namespace DateTime

/-- The text goes on with something else than a digit, or ends. -/
def Ends (cs : List Char) : Prop := ∀ c ∈ cs.head?, c.isDigit = false

theorem ends_cons {c : Char} (h : c.isDigit = false) (cs : List Char) : Ends (c :: cs) := by
  rintro d hd
  rw [← Option.mem_some_iff.mp hd]
  exact h

theorem padded_append_eq_cons (width n : Nat) (rest : List Char) (hw : 0 < width) :
    ∃ c cs, Digits.padded width n ++ rest = c :: cs ∧ c.isDigit := by
  have hl : 0 < (Digits.padded width n).length := by rw [Digits.length_padded]; omega
  obtain ⟨c, cs, he⟩ := List.exists_cons_of_length_pos hl
  exact ⟨c, cs ++ rest, by rw [he]; rfl, Digits.isDigit_padded width n c (by simp [he])⟩

theorem ofUnits_eq_some {n : Int} {a : Decimal} (h : Decimal.ofUnits? n = some a) :
    a.units = n := by
  rw [Decimal.ofUnits?] at h
  split at h
  · cases h
    rfl
  · cases h

/-- The number of seconds that a text stands for, once it has been cut off. -/
def readMagnitude (whole text rest : List Char) : Option (Decimal × List Char) :=
  ((Decimal.readMagnitude? text).bind fun n => Decimal.ofUnits? n).bind fun second =>
    if whole.length = 2 ∧ second.units < 60 * Decimal.one then some (second, rest) else none

theorem readSecond_whole {cs whole rest : List Char} (hs : Digits.span cs = (whole, rest))
    (hp : rest.head? ≠ some '.') : readSecond cs = readMagnitude whole whole rest := by
  unfold readSecond readMagnitude
  simp only [hs, Option.bind_eq_bind]
  split
  · simp at hp
  · simp only [Option.bind_some]

theorem readSecond_fraction {cs whole more fraction rest : List Char}
    (hs : Digits.span cs = (whole, '.' :: more)) (hs' : Digits.span more = (fraction, rest))
    (hf : fraction.isEmpty = false) :
    readSecond cs = readMagnitude whole (whole ++ '.' :: fraction) rest := by
  unfold readSecond readMagnitude
  simp only [hs, hs', hf, Bool.false_eq_true, if_false, Option.bind_eq_bind, Option.bind_some]

theorem ofParts_units {year : Int} {month day hour minute : Nat} {second : Decimal}
    {offset : Option Int} {t : DateTime}
    (h : ofParts? year month day hour minute second offset = some t) :
    t.offset = offset ∧ t.seconds.units =
      (86400 * Calendar.dayNumber year month day + 3600 * hour + 60 * (minute - offset.getD 0)) *
        Decimal.one + second.units := by
  simp only [ofParts?, Option.bind_eq_bind, Option.bind_eq_some_iff, Option.some.injEq] at h
  obtain ⟨whole, hw, seconds, hs, rfl⟩ := h
  refine ⟨rfl, ?_⟩
  rw [ofUnits_eq_some hs, ofUnits_eq_some hw]

/-- What follows the seconds does not go on with them. -/
theorem ends_offset (offset : Option Int) :
    Ends ((offset.map renderOffset).getD []) ∧
      ((offset.map renderOffset).getD []).head? ≠ some '.' := by
  cases offset with
  | none => simp [Ends]
  | some o =>
    simp only [Option.map_some, Option.getD_some, renderOffset]
    split
    · simp [Ends]
    · split <;> simp [Ends]

theorem expect_self (c : Char) (cs : List Char) : expect c (c :: cs) = some cs := if_pos rfl

theorem length_padded_two {n : Nat} (h : n < 100) : (Digits.padded 2 n).length = 2 := by
  rw [Digits.length_padded]
  rcases eq_or_ne n 0 with rfl | h0
  · rfl
  · exact max_eq_left ((Digits.length_ofNat_le_iff h0).mpr h)

theorem readTwo_of_le {greatest n : Nat} {rest : List Char} (hr : Ends rest) (hn : n ≤ greatest)
    (hg : n < 100) : readTwo greatest (Digits.padded 2 n ++ rest) = some (n, rest) := by
  simp only [readTwo, Digits.span_append (Digits.isDigit_padded 2 n) hr, Digits.toNat_padded]
  exact if_pos ⟨length_padded_two hg, hn⟩

/-- A number with more than four digits does not start with a zero. -/
theorem head_padded_four {n : Nat} (h : 4 < (Digits.padded 4 n).length) :
    (Digits.padded 4 n).head? ≠ some '0' := by
  rw [Digits.length_padded] at h
  have hlen : 4 < (Digits.ofNat n).length := by omega
  have hpad : Digits.padded 4 n = Digits.ofNat n := by
    rw [Digits.padded, Nat.sub_eq_zero_of_le hlen.le]
    rfl
  have h0 : n ≠ 0 := by
    rintro rfl
    exact absurd hlen (by decide)
  rw [hpad]
  intro hhead
  obtain ⟨cs, hcs⟩ := List.head?_eq_some_iff.mp hhead
  have hlow := Digits.pow_length_le h0
  have hhigh := Digits.toNat_lt cs fun c hc => Digits.isDigit_ofNat n c (hcs ▸ List.mem_cons_of_mem _ hc)
  have hval : Digits.toNat cs = n := by
    rw [← Digits.toNat_ofNat n, hcs]
    exact ((Digits.toNat_append ['0'] cs).trans (by simp [Digits.toNat, Digits.value])).symm
  rw [hcs, List.length_cons, Nat.add_sub_cancel] at hlow
  omega

theorem readYear_of_fits {y : Int} {rest : List Char} (hr : Ends rest)
    (hy : -Integer.bound < y ∧ y < Integer.bound) :
    readYear ((if y < 0 then ['-'] else []) ++ (Digits.padded 4 y.natAbs ++ rest)) =
      some (y, rest) := by
  have hs := Digits.span_append (Digits.isDigit_padded 4 y.natAbs) hr
  have hv := Digits.toNat_padded 4 y.natAbs
  have hdigits : ¬ ((Digits.padded 4 y.natAbs).length < 4 ∨
      (4 < (Digits.padded 4 y.natAbs).length ∧ (Digits.padded 4 y.natAbs).head? = some '0')) := by
    rintro (h | ⟨h, hhead⟩)
    · rw [Digits.length_padded] at h
      omega
    · exact head_padded_four h hhead
  have hfits : Integer.ofInt? (y.natAbs : Int) = some (Int64.ofInt y.natAbs) := if_pos (by omega)
  have hint := Integer.ofInt_toInt hfits
  by_cases hneg : y < 0
  · simp only [if_pos hneg, List.cons_append, List.nil_append, readYear, hs, if_neg hdigits, hv,
      hfits, Option.map_some, hint, if_true, Option.some.injEq, Prod.mk.injEq, and_true]
    omega
  · obtain ⟨c, cs, he, hc⟩ := padded_append_eq_cons 4 y.natAbs rest (by decide)
    rw [if_neg hneg, List.nil_append, he]
    rw [he] at hs
    unfold readYear
    dsimp only
    split
    · simp_all
    · simp only [hs, if_neg hdigits, hv, hfits, Option.map_some, hint, Bool.false_eq_true, if_false,
        Option.some.injEq, Prod.mk.injEq, and_true]
      omega

theorem length_ofNat_le {n k : Nat} (hk : 0 < k) (h : n < 10 ^ k) : (Digits.ofNat n).length ≤ k := by
  rcases eq_or_ne n 0 with rfl | h0
  · exact hk
  · exact (Digits.length_ofNat_le_iff h0).mpr h

/-- The seconds of a minute have two digits before the point. -/
theorem exists_renderSecond {units : Nat} (h : units < 60 * 10 ^ 18) : ∃ whole fraction,
    renderSecond units = Positional.point whole fraction ∧
      Positional.Written units (-18) whole fraction ∧ whole.length = 2 := by
  have hneg : ¬ (0 : Int) ≤ -18 := by decide
  have hlen : (Positional.split units 18).1.length = max 19 (Digits.ofNat units).length - 18 := by
    rw [Positional.split, List.splitAt_eq, ← Digits.length_padded]
    simp
  have hw : Positional.Written units (-18) (Positional.split units 18).1 _ :=
    Positional.written_split units hneg
  have he : Positional.render units (-18) = Positional.point (Positional.split units 18).1 _ :=
    Positional.render_of_neg units hneg
  rw [renderSecond, he]
  by_cases hten : units < 10 ^ 19
  · have hdigits := length_ofNat_le (by decide) hten
    refine ⟨_, _, ?_, hw.zero_cons, ?_⟩
    · refine (if_pos hten).trans ?_
      unfold Positional.point
      split <;> rfl
    · rw [List.length_cons, hlen]
      omega
  · have hdigits : (Digits.ofNat units).length ≤ 20 := length_ofNat_le (by decide) (by omega)
    have hmore := mt (Digits.length_ofNat_le_iff (k := 19) (by omega)).mp hten
    refine ⟨_, _, if_neg hten, hw, ?_⟩
    rw [hlen]
    omega

theorem readMagnitude_of_lt {whole text rest : List Char} {units : Nat}
    (hm : Decimal.readMagnitude? text = some units) (hw : whole.length = 2) {a : Decimal}
    (ha : a.units = units) (h : a.units < 60 * Decimal.one) :
    readMagnitude whole text rest = some (a, rest) := by
  rw [readMagnitude, hm, Option.bind_some, ← ha, Decimal.ofUnits_units, Option.bind_some,
    if_pos ⟨hw, h⟩]

theorem readSecond_of_lt {units : Nat} {a : Decimal} {rest : List Char} (hr : Ends rest)
    (hp : rest.head? ≠ some '.') (ha : a.units = units) (h : a.units < 60 * Decimal.one) :
    readSecond (renderSecond units ++ rest) = some (a, rest) := by
  obtain ⟨whole, fraction, he, hw, hlen⟩ :=
    exists_renderSecond (show units < 60 * 10 ^ 18 by unfold Decimal.one at h; omega)
  have hm := Decimal.readMagnitude_point hw
  rw [he]
  by_cases hf : fraction = []
  · subst hf
    rw [Positional.point, if_pos List.isEmpty_nil] at hm ⊢
    rw [readSecond_whole (Digits.span_append hw.digit_whole hr) hp]
    exact readMagnitude_of_lt hm hlen ha h
  · have hne : fraction.isEmpty = false := by simp [hf]
    have hs : Digits.span (whole ++ '.' :: fraction ++ rest) = (whole, '.' :: (fraction ++ rest)) := by
      rw [List.append_assoc]
      exact Digits.span_append hw.digit_whole (ends_cons rfl _)
    rw [Positional.point, if_neg (by simp [hf])] at hm ⊢
    rw [readSecond_fraction hs (Digits.span_append hw.digit_fraction hr) hne]
    exact readMagnitude_of_lt hm hlen ha h

/-- Fourteen hours at most, in minutes. -/
def OffsetFits (offset : Int) : Prop := -840 ≤ offset ∧ offset ≤ 840

/-- Reads the hours and minutes of an offset. -/
def readHours (negative : Bool) (cs : List Char) : Option (Int × List Char) :=
  (readTwo 14 cs).bind fun hours => (expect ':' hours.2).bind fun cs =>
    (readTwo 59 cs).bind fun minutes => if hours.1 = 14 ∧ minutes.1 ≠ 0 then none
      else some (if negative then -((hours.1 : Int) * 60 + minutes.1)
        else hours.1 * 60 + minutes.1, minutes.2)

theorem readHours_of_le {n : Nat} (hn : n ≤ 840) (negative : Bool) :
    readHours negative (Digits.padded 2 (n / 60) ++ ':' :: Digits.padded 2 (n % 60)) =
      some (if negative then -(n : Int) else n, []) := by
  have hhours : readTwo 14 (Digits.padded 2 (n / 60) ++ ':' :: Digits.padded 2 (n % 60)) =
      some (n / 60, ':' :: Digits.padded 2 (n % 60)) :=
    readTwo_of_le (ends_cons rfl _) (by omega) (by omega)
  have hminutes : readTwo 59 (Digits.padded 2 (n % 60)) = some (n % 60, []) := by
    have hr : Ends [] := by simp [Ends]
    simpa using readTwo_of_le hr (show n % 60 ≤ 59 by omega) (by omega)
  have hvalue : ((n / 60 : Nat) : Int) * 60 + (n % 60 : Nat) = n := by omega
  rw [readHours, hhours, Option.bind_some, expect_self, Option.bind_some, hminutes,
    Option.bind_some, if_neg (by omega), hvalue]

theorem offsetFits_of_readHours {negative : Bool} {cs more : List Char} {offset : Int}
    (h : readHours negative cs = some (offset, more)) : OffsetFits offset := by
  simp only [readHours, Option.bind_eq_some_iff, Prod.exists] at h
  obtain ⟨hours, cs₁, hh, cs₂, -, minutes, cs₃, hm, hi⟩ := h
  have hhours : hours ≤ 14 := by
    unfold readTwo at hh
    simp only [Option.ite_none_right_eq_some, Option.some.injEq, Prod.mk.injEq] at hh
    omega
  have hminutes : minutes ≤ 59 := by
    unfold readTwo at hm
    simp only [Option.ite_none_right_eq_some, Option.some.injEq, Prod.mk.injEq] at hm
    omega
  simp only [Option.ite_none_left_eq_some, Option.some.injEq, Prod.mk.injEq] at hi
  unfold OffsetFits
  cases negative <;> simp only [Bool.false_eq_true, if_false, if_true] at hi <;> omega

theorem readOffset_of_fits {offset : Int} (h : OffsetFits offset) :
    readOffset (renderOffset offset) = some (offset, []) := by
  unfold OffsetFits at h
  by_cases h0 : offset = 0
  · subst h0
    rfl
  · rw [renderOffset, if_neg h0]
    by_cases hneg : offset < 0
    · rw [if_pos hneg]
      refine (readHours_of_le (n := offset.natAbs) (by omega) true).trans ?_
      rw [if_pos rfl, show -(offset.natAbs : Int) = offset by omega]
    · rw [if_neg hneg]
      refine (readHours_of_le (n := offset.natAbs) (by omega) false).trans ?_
      rw [if_neg Bool.false_ne_true, show (offset.natAbs : Int) = offset by omega]

theorem offsetFits_of_read {cs more : List Char} {offset : Int}
    (h : readOffset cs = some (offset, more)) : OffsetFits offset := by
  unfold readOffset at h
  split at h
  · cases h
    unfold OffsetFits
    decide
  · exact offsetFits_of_readHours h

/-- What a point in time that was read is made of. -/
structure Proper (t : DateTime) : Prop where
  offset : ∀ o, t.offset = some o → OffsetFits o
  minutes : Decimal.Fits (60 * (t.seconds.units / (60 * Decimal.one)) * Decimal.one)

theorem proper_of_parts {year : Int} {month day hour minute : Nat} {second : Decimal}
    {offset : Option Int} {t : DateTime} (ho : ∀ o, offset = some o → OffsetFits o)
    (hs : 0 ≤ second.units ∧ second.units < 60 * Decimal.one)
    (h : ofParts? year month day hour minute second offset = some t) : t.Proper := by
  obtain ⟨hoff, hunits⟩ := ofParts_units h
  refine ⟨hoff ▸ ho, ?_⟩
  simp only [ofParts?, Option.bind_eq_bind, Option.bind_eq_some_iff] at h
  obtain ⟨whole, hw, -⟩ := h
  have hfits := ofUnits_eq_some hw ▸ whole.fits
  have hminutes : t.seconds.units / (60 * Decimal.one) =
      1440 * Calendar.dayNumber year month day + 60 * hour + (minute - offset.getD 0) := by
    unfold Decimal.one at hs hunits ⊢
    omega
  rw [hminutes]
  convert hfits using 1
  ring

theorem second_of_readMagnitude {whole text rest more : List Char} {a : Decimal}
    (h : readMagnitude whole text rest = some (a, more)) :
    0 ≤ a.units ∧ a.units < 60 * Decimal.one := by
  simp only [readMagnitude, Option.bind_eq_some_iff, Option.ite_none_right_eq_some,
    Option.some.injEq, Prod.mk.injEq] at h
  obtain ⟨second, ⟨n, -, hn⟩, ⟨-, hlt⟩, rfl, -⟩ := h
  refine ⟨?_, hlt⟩
  rw [ofUnits_eq_some hn]
  exact Int.natCast_nonneg n

theorem second_of_read {cs more : List Char} {a : Decimal}
    (h : readSecond cs = some (a, more)) : 0 ≤ a.units ∧ a.units < 60 * Decimal.one := by
  unfold readSecond at h
  dsimp only at h
  split at h
  · split_ifs at h
    · cases h
    · exact second_of_readMagnitude h
  · exact second_of_readMagnitude h

theorem proper_of_readChars {cs : List Char} {t : DateTime} (h : readChars? cs = some t) :
    t.Proper := by
  simp only [readChars?, Option.bind_eq_bind, Option.bind_eq_some_iff, Prod.exists] at h
  obtain ⟨year, cs₀, -, cs₁, -, month, cs₂, -, cs₃, -, day, cs₄, -, cs₅, -, hour, cs₆, -, cs₇, -,
    minute, cs₈, -, cs₉, -, second, cs₁₀, hsecond, hrest⟩ := h
  have hs := second_of_read hsecond
  split_ifs at hrest
  · exact proper_of_parts (fun o ho => by cases ho) hs hrest
  · simp only [Option.bind_eq_some_iff, Prod.exists, Option.ite_none_right_eq_some] at hrest
    obtain ⟨offset, more, hoffset, -, hparts⟩ := hrest
    refine proper_of_parts (fun o ho => ?_) hs hparts
    rw [← Option.some.inj ho]
    exact offsetFits_of_read hoffset

/-- The local parts of a point in time make it up. -/
theorem ofParts_of_proper {t : DateTime} (ht : t.Proper) {second : Decimal}
    (hs : second.units =
      ((t.seconds.units + 60 * t.offset.getD 0 * Decimal.one) % (60 * Decimal.one)).toNat) :
    let minutes := (t.seconds.units + 60 * t.offset.getD 0 * Decimal.one) / (60 * Decimal.one)
    let date := Calendar.dateOf (minutes / 1440)
    ofParts? date.1 date.2.1 date.2.2 ((minutes % 1440).toNat / 60) ((minutes % 1440).toNat % 60)
      second t.offset = some t := by
  intro minutes date
  have hwhole : 86400 * Calendar.dayNumber date.1 date.2.1 date.2.2 +
      3600 * ((minutes % 1440).toNat / 60 : Nat) +
        60 * (((minutes % 1440).toNat % 60 : Nat) - t.offset.getD 0) =
      60 * (t.seconds.units / (60 * Decimal.one)) := by
    rw [Calendar.dayNumber_dateOf]
    simp only [minutes]
    unfold Decimal.one
    omega
  have hfits := ht.minutes
  have hsum : 60 * (t.seconds.units / (60 * Decimal.one)) * Decimal.one + second.units =
      t.seconds.units := by
    rw [hs]
    unfold Decimal.one
    omega
  rw [ofParts?, hwhole, Decimal.ofInt?, Decimal.ofUnits?, dif_pos hfits, Option.bind_eq_bind,
    Option.bind_some, Decimal.add]
  dsimp only
  rw [hsum, Decimal.ofUnits_units]
  rfl

theorem offset_of_read {offset : Option Int} (ho : ∀ o, offset = some o → OffsetFits o)
    (P : Option Int → Option DateTime) :
    (if ((offset.map renderOffset).getD []).isEmpty then P none
      else (readOffset ((offset.map renderOffset).getD [])).bind fun (o, cs) =>
        if cs.isEmpty then P (some o) else none) = P offset := by
  cases offset with
  | none => rfl
  | some o =>
    have hne : (renderOffset o).isEmpty = false := by
      rw [renderOffset]
      split <;> rfl
    simp only [Option.map_some, Option.getD_some, hne, Bool.false_eq_true, if_false,
      readOffset_of_fits (ho o rfl), Option.bind_some, List.isEmpty_nil, if_true]

/-- Parts that are written one after the other are read. -/
theorem readChars_parts {year : Int} {month day hour minute units : Nat} {second : Decimal}
    {offset : Option Int} (hyear : -Integer.bound < year ∧ year < Integer.bound)
    (hmonth : 1 ≤ month ∧ month ≤ 12) (hday : 1 ≤ day ∧ day ≤ Calendar.daysInMonth year month)
    (hhour : hour < 24) (hminute : minute < 60) (hs : second.units = units)
    (hlt : second.units < 60 * Decimal.one) (ho : ∀ o, offset = some o → OffsetFits o) :
    readChars? ((if year < 0 then ['-'] else []) ++ (Digits.padded 4 year.natAbs ++
      '-' :: (Digits.padded 2 month ++ '-' :: (Digits.padded 2 day ++ 'T' :: (Digits.padded 2 hour ++
        ':' :: (Digits.padded 2 minute ++ ':' :: (renderSecond units ++
          (offset.map renderOffset).getD []))))))) =
      ofParts? year month day hour minute second offset := by
  obtain ⟨he, hp⟩ := ends_offset offset
  have hlength := Calendar.daysInMonth_le year month
  rw [readChars?, readYear_of_fits (ends_cons rfl _) hyear]
  simp only [Option.bind_eq_bind, Option.bind_some, expect_self]
  rw [readTwo_of_le (ends_cons rfl _) hmonth.2 (by omega), Option.bind_some, expect_self,
    Option.bind_some, readTwo_of_le (ends_cons rfl _) (by omega) (by omega), Option.bind_some,
    expect_self, Option.bind_some, readTwo_of_le (ends_cons rfl _) (by omega) (by omega),
    Option.bind_some, expect_self, Option.bind_some,
    readTwo_of_le (ends_cons rfl _) (by omega) (by omega), Option.bind_some, expect_self,
    Option.bind_some, readSecond_of_lt he hp hs hlt, Option.bind_some]
  dsimp only
  rw [if_neg (by omega), if_neg (by omega)]
  exact offset_of_read ho _

theorem exists_second (n : Int) :
    ∃ a : Decimal, a.units = ((n % (60 * Decimal.one)).toNat : Int) := by
  have hfits : Decimal.Fits ((n % (60 * Decimal.one)).toNat : Int) := by
    unfold Decimal.Fits Decimal.bound Decimal.one
    omega
  exact ⟨⟨_, hfits⟩, rfl⟩

/-- A point in time that was read is written as a text that reads as it again. -/
theorem readChars_of_proper {t : DateTime} (ht : t.Proper) :
    readChars? t.renderChars = some t := by
  have hunits := t.seconds.fits
  have hoffset : OffsetFits (t.offset.getD 0) := by
    cases ho : t.offset with
    | none =>
      unfold OffsetFits
      decide
    | some o => exact ht.offset o ho
  have hdays : -10 ^ 18 ≤ (t.seconds.units + 60 * t.offset.getD 0 * Decimal.one) /
      (60 * Decimal.one) / 1440 ∧ (t.seconds.units + 60 * t.offset.getD 0 * Decimal.one) /
        (60 * Decimal.one) / 1440 ≤ 10 ^ 18 := by
    unfold OffsetFits at hoffset
    unfold Decimal.Fits Decimal.bound at hunits
    unfold Decimal.one
    omega
  obtain ⟨second, hs⟩ := exists_second (t.seconds.units + 60 * t.offset.getD 0 * Decimal.one)
  have hyear := Calendar.yearOf_bounds
    ((t.seconds.units + 60 * t.offset.getD 0 * Decimal.one) / (60 * Decimal.one) / 1440)
  obtain ⟨hmonth, hday⟩ := Calendar.dateOf_mem
    ((t.seconds.units + 60 * t.offset.getD 0 * Decimal.one) / (60 * Decimal.one) / 1440)
  have hbound : -Integer.bound < (Calendar.dateOf ((t.seconds.units + 60 * t.offset.getD 0 *
      Decimal.one) / (60 * Decimal.one) / 1440)).1 ∧ (Calendar.dateOf ((t.seconds.units +
        60 * t.offset.getD 0 * Decimal.one) / (60 * Decimal.one) / 1440)).1 < Integer.bound := by
    rw [Calendar.dateOf]
    unfold Integer.bound
    omega
  simp only [renderChars, List.append_assoc, List.cons_append]
  rw [readChars_parts hbound hmonth hday (by omega) (by omega) hs
    (by rw [hs]; unfold Decimal.one; omega) ht.offset]
  exact ofParts_of_proper ht hs

/-- What was read can be written and read again. -/
theorem read_render_of_read {s : String} {t : DateTime} (h : read? s = some t) :
    read? t.render = some t := by
  rw [read?, render, String.toList_ofList]
  exact readChars_of_proper (proper_of_readChars h)

end DateTime

end GraphQuery
