import GraphQuery.Number.Numeric
import GraphQuery.Proofs.Number.Binary
import Mathlib.Order.Compare
import Mathlib.Algebra.Order.Ring.Rat

/-! The order of numbers. Floating point numbers are compared by their exact values, which a
single keeps when it becomes a double; integers and decimals are compared by their units. So the
order is total up to ties among the ones and among the others, but a number that is rounded to be
compared may tie with numbers that differ. -/

namespace GraphQuery

namespace Binary

variable {f g : Format}

/-- The exact value of a number. -/
def value? : Binary f → Option (WithBot (WithTop ℚ))
  | nan => none
  | infinite true => some ⊥
  | infinite false => some ((⊤ : WithTop ℚ) : WithBot (WithTop ℚ))
  | finite s m e _ => some (((if s then -((m : ℚ) * 2 ^ e) else m * 2 ^ e : ℚ) :
      WithTop ℚ) : WithBot (WithTop ℚ))

theorem signed_mul_zpow (s : Bool) (m : Nat) {e unit : Int} (h : unit ≤ e) :
    (signed s m e unit : ℚ) * 2 ^ unit = if s then -((m : ℚ) * 2 ^ e) else m * 2 ^ e := by
  have hp : (2 : ℚ) ^ (e - unit).toNat * 2 ^ unit = 2 ^ e := by
    rw [← zpow_natCast, ← zpow_add₀ two_ne_zero]
    congr 1
    omega
  cases s
  · simp [signed, mul_assoc, hp]
  · simp [signed, mul_assoc, hp]

theorem compare_signed (s t : Bool) (m n : Nat) (e e' : Int) :
    Ord.compare (signed s m e (min e e')) (signed t n e' (min e e')) =
      cmp (if s then -((m : ℚ) * 2 ^ e) else m * 2 ^ e)
        (if t then -((n : ℚ) * 2 ^ e') else n * 2 ^ e') := by
  rw [← signed_mul_zpow s m (min_le_left e e'), ← signed_mul_zpow t n (min_le_right e e'),
    cmp_mul_pos_right (zpow_pos two_pos _), (Int.cast_strictMono (R := ℚ)).cmp_map_eq,
    cmp_eq_compare]

/-- Numbers are compared by value. -/
theorem compare_eq (a b : Binary f) :
    a.compare b = a.value?.bind fun x => b.value?.map fun y => cmp x y := by
  cases a with
  | nan => rfl
  | infinite s =>
    cases b with
    | nan => cases s <;> rfl
    | infinite t => cases s <;> cases t <;> simp [compare, value?, cmp, cmpUsing]
    | finite t n e' h =>
      cases s
      · simp [compare, value?, cmp, cmpUsing, WithTop.coe_ne_top]
      · simp [compare, value?, cmp, cmpUsing]
  | finite s m e h =>
    cases b with
    | nan => rfl
    | infinite t =>
      cases t
      · simp [compare, value?, cmp, cmpUsing]
      · simp [compare, value?, cmp, cmpUsing]
    | finite t n e' h' =>
      rw [compare, value?, value?, Option.bind_some, Option.map_some, compare_signed,
        WithBot.coe_strictMono.cmp_map_eq, WithTop.coe_strictMono.cmp_map_eq]

theorem value_isSome (a : Binary f) : a.value?.isSome = !a.isNaN := by
  cases a with
  | nan => rfl
  | infinite s => cases s <;> rfl
  | finite => rfl

theorem compare_swap (a b : Binary f) : b.compare a = (a.compare b).map Ordering.swap := by
  rw [compare_eq, compare_eq]
  cases a.value? with
  | none => cases b.value? <;> rfl
  | some x =>
    cases b.value? with
    | none => rfl
    | some y => exact congrArg some (cmp_swap x y).symm

theorem compare_trans {a b c : Binary f} {o₁ o₂ o₃ : Ordering} (h₁ : a.compare b = some o₁)
    (h₂ : b.compare c = some o₂) (h₃ : a.compare c = some o₃) (hab : o₁.isLE) (hbc : o₂.isLE) :
    o₃.isLE := by
  rw [compare_eq] at h₁ h₂ h₃
  cases ha : a.value? with
  | none => rw [ha] at h₁; cases h₁
  | some x =>
    cases hb : b.value? with
    | none => rw [ha, hb] at h₁; cases h₁
    | some y =>
      cases hc : c.value? with
      | none => rw [hb, hc] at h₂; cases h₂
      | some z =>
        rw [ha, hb] at h₁
        rw [hb, hc] at h₂
        rw [ha, hc] at h₃
        obtain rfl : cmp x y = o₁ := Option.some.inj h₁
        obtain rfl : cmp y z = o₂ := Option.some.inj h₂
        obtain rfl : cmp x z = o₃ := Option.some.inj h₃
        rw [Ordering.isLE_iff_ne_gt, cmp_eq_gt_iff, not_lt] at hab hbc ⊢
        exact hab.trans hbc

theorem compare_isSome (a b : Binary f) : (a.compare b).isSome = (!a.isNaN && !b.isNaN) := by
  rw [compare_eq, ← value_isSome, ← value_isSome]
  cases a.value? <;> cases b.value? <;> rfl

/-! ### Rounding -/

theorem isNaN_ofParts (s : Bool) (m : Nat) (e : Int) : (ofParts f s m e).isNaN = false := by
  unfold ofParts
  split <;> rfl

theorem isNaN_ofRatio (s : Bool) (num den : Nat) : (ofRatio f s num den).isNaN = false := by
  unfold ofRatio
  dsimp only
  split_ifs <;> exact isNaN_ofParts ..

theorem isNaN_convert (a : Binary f) : (a.convert g).isNaN = a.isNaN := by
  cases a with
  | nan | infinite => rfl
  | finite => exact isNaN_ofRatio ..

/-- Whether quotients by a number are numbers. -/
def isDivisor : Binary f → Bool
  | finite _ m _ _ => m != 0
  | _ => false

theorem isNaN_div {a b : Binary f} (ha : a.isNaN = false) (hb : b.isDivisor = true) :
    (a.div b).isNaN = false := by
  cases b with
  | nan | infinite => cases hb
  | finite t n e' h' =>
    cases a with
    | nan => cases ha
    | infinite => rfl
    | finite s m e h =>
      rw [div, if_neg (bne_iff_ne.mp hb)]
      exact isNaN_ofRatio ..

/-- A mantissa of a single is one of a double once it is shifted up. -/
theorem exists_holds_double {m : Nat} {e : Int} (h : Format.single.Holds m e) (hm : m ≠ 0) :
    ∃ m' e', Format.double.Holds m' e' ∧ m' ≠ 0 ∧ (m' : ℚ) * 2 ^ e' = m * 2 ^ e := by
  obtain ⟨hlt, hlow, hhigh, -⟩ := h
  have hlog : m.log2 < 24 := (Nat.log2_lt hm).mpr hlt
  have hle : 2 ^ m.log2 ≤ m := Nat.log2_self_le hm
  have hlt' : m < 2 ^ (m.log2 + 1) := Nat.lt_log2_self
  set k := 52 - m.log2 with hk
  have hpow : 2 ^ m.log2 * 2 ^ k = 2 ^ 52 := by rw [← pow_add]; congr 1; omega
  have hpow' : 2 ^ (m.log2 + 1) * 2 ^ k = 2 ^ 53 := by rw [← pow_add]; congr 1; omega
  refine ⟨m * 2 ^ k, e - k, ⟨?_, ?_, ?_, .inl ?_⟩, ?_, ?_⟩
  · exact lt_of_lt_of_eq (Nat.mul_lt_mul_of_pos_right hlt' (Nat.two_pow_pos k)) hpow'
  · simp only [Format.lowest, Format.single, Format.double] at hlow ⊢
    omega
  · simp only [Format.highest, Format.single, Format.double] at hhigh ⊢
    omega
  · have := Nat.mul_le_mul_right (2 ^ k) hle
    simp only [Format.double, Nat.pow_eq]
    omega
  · exact Nat.mul_ne_zero hm (Nat.two_pow_pos k).ne'
  · rw [Nat.cast_mul, mul_assoc, Nat.cast_pow, Nat.cast_ofNat, ← zpow_natCast,
      ← zpow_add₀ two_ne_zero]
    congr 2
    omega

/-- A single keeps its value when it becomes a double. -/
theorem value_convert_double (a : Single) : (a.convert .double).value? = a.value? := by
  cases a with
  | nan => rfl
  | infinite s => cases s <;> rfl
  | finite s m e h =>
    by_cases hm : m = 0
    · have hzero : Format.double.Holds 0 Format.double.lowest := by decide
      subst hm
      cases s <;> simp [convert, ofScaled, ofRatio, ofParts, value?, hzero]
    · obtain ⟨m', e', h', hm', hv⟩ := exists_holds_double h hm
      have hden (n : Int) : 0 < Nat.pow 2 (-n).toNat := Nat.two_pow_pos _
      have hratio : m * Nat.pow 2 e.toNat * Nat.pow 2 (-e').toNat =
          m' * Nat.pow 2 e'.toNat * Nat.pow 2 (-e).toNat := by
        have hq := hv.symm
        rw [← ratio_eq, ← ratio_eq, div_eq_div_iff (Nat.cast_ne_zero.mpr (hden e).ne')
          (Nat.cast_ne_zero.mpr (hden e').ne')] at hq
        exact_mod_cast hq
      rw [convert, ofScaled, ofRatio_congr s (hden e) (hden e') hratio, ofRatio_exact s h' hm',
        value?, value?, hv]

end Binary

/-! ### Numbers -/

namespace Decimal

theorem reduced_scale (fuel k : Nat) (units : Int) :
    ∃ j ≤ k, (reduced fuel units (10 ^ k)).2 = 10 ^ j := by
  induction fuel generalizing units k with
  | zero => exact ⟨k, le_refl k, rfl⟩
  | succ fuel ih =>
    rw [reduced]
    split
    next h =>
      cases k with
      | zero => exact absurd rfl h.1
      | succ k =>
        rw [pow_succ, Nat.mul_div_cancel _ (by decide)]
        obtain ⟨j, hj, h⟩ := ih k (units / 10)
        exact ⟨j, Nat.le_succ_of_le hj, h⟩
    · exact ⟨k, le_refl k, rfl⟩

theorem toDouble_eq (a : Decimal) :
    a.toDouble = (Binary.ofInt .double (reduced 18 a.units (10 ^ 18)).1).div
      (Binary.ofInt .double (reduced 18 a.units (10 ^ 18)).2) := rfl

theorem isDivisor_scale : ∀ j ∈ List.range 19,
    (Binary.ofInt .double ((10 ^ j : Nat) : Int)).isDivisor = true := by
  decide +kernel

/-- The scale is a number of the format, so the quotient is a number. -/
theorem isNaN_toDouble (a : Decimal) : a.toDouble.isNaN = false := by
  obtain ⟨j, hj, hscale⟩ := reduced_scale 18 18 a.units
  rw [toDouble_eq, hscale]
  exact Binary.isNaN_div (Binary.isNaN_ofRatio ..)
    (isDivisor_scale j (List.mem_range.mpr (Nat.lt_succ_of_le hj)))

end Decimal

namespace Numeric

/-- The units of 10⁻¹⁸ of a number that is no floating point number. -/
def units? : Numeric → Option Int
  | integer a => some (a.toInt * Decimal.one)
  | decimal a => some a.units
  | float _ | double _ => none

theorem compare_of_units {x y : Numeric} {m n : Int} (hx : x.units? = some m)
    (hy : y.units? = some n) : x.compare y = some (Ord.compare m n) := by
  have hone : 0 < Decimal.one := by decide
  cases x <;> cases y <;> cases hx <;> cases hy
  case integer.integer a b =>
    rw [compare, promote]
    simp only [Option.some.injEq]
    rw [← cmp_eq_compare, ← cmp_eq_compare, cmp_mul_pos_right hone]
  all_goals rfl

/-- Numbers of which none has units are compared as doubles. -/
theorem compare_of_floating {x y : Numeric} (hx : x.units? = none) (hy : y.units? = none) :
    x.compare y = x.toDouble.compare y.toDouble := by
  cases x <;> cases y <;> first | cases hx; done | cases hy; done | skip
  case float.float a b =>
    change a.compare b = (a.convert .double).compare (b.convert .double)
    rw [Binary.compare_eq, Binary.compare_eq, Binary.value_convert_double,
      Binary.value_convert_double]
  all_goals rfl

/-- The same two numbers the other way round. -/
def Pair.swap : Pair → Pair
  | integers a b => integers b a
  | decimals a b => decimals b a
  | floats a b => floats b a
  | doubles a b => doubles b a

theorem promote_swap (x y : Numeric) : promote y x = (promote x y).swap := by
  cases x <;> cases y <;> rfl

theorem compare_swap (x y : Numeric) : y.compare x = (x.compare y).map Ordering.swap := by
  rw [compare, compare, promote_swap]
  cases promote x y with
  | integers a b | decimals a b =>
    simp only [Pair.swap, Decimal.compare, Option.map_some, Option.some.injEq]
    exact Std.OrientedOrd.eq_swap
  | floats a b | doubles a b => exact Binary.compare_swap a b

theorem isNaN_toDouble (x : Numeric) : x.toDouble.isNaN = x.isNaN := by
  cases x with
  | integer => exact Binary.isNaN_ofRatio ..
  | decimal a => exact a.isNaN_toDouble
  | float a => exact a.isNaN_convert
  | double => rfl

/-- Exactly the numbers other than NaN are comparable. -/
theorem compare_isSome (x y : Numeric) : (x.compare y).isSome = (!x.isNaN && !y.isNaN) := by
  have hint (n : Int64) : (Binary.ofInt .single n.toInt).isNaN = false := Binary.isNaN_ofRatio ..
  have hdec (d : Decimal) : d.toSingle.isNaN = false :=
    (Binary.isNaN_convert _).trans d.isNaN_toDouble
  have hdouble := isNaN_toDouble
  rw [compare]
  cases x <;> cases y <;>
    simp only [promote, Binary.compare_isSome, hint, hdec, hdouble, isNaN, Option.isSome_some] <;>
    rfl

/-- Whether some of the numbers are floating point numbers and some are not. -/
def Mixed (xs : List Numeric) : Prop :=
  (∃ x ∈ xs, x.units? = none) ∧ ∃ x ∈ xs, x.units? ≠ none

/-- The order is transitive among floating point numbers, and among the others. -/
theorem compare_trans {x y z : Numeric} {o₁ o₂ o₃ : Ordering} (h₁ : x.compare y = some o₁)
    (h₂ : y.compare z = some o₂) (h₃ : x.compare z = some o₃) (hxy : o₁.isLE) (hyz : o₂.isLE) :
    o₃.isLE ∨ Mixed [x, y, z] := by
  by_cases hm : Mixed [x, y, z]
  · exact .inr hm
  · refine .inl ?_
    rcases not_and_or.mp hm with hm | hm
    · -- All of them have units.
      push Not at hm
      have hsome {w : Numeric} (hw : w ∈ [x, y, z]) := Option.ne_none_iff_exists'.mp (hm w hw)
      obtain ⟨k, hx⟩ := hsome (w := x) (by simp)
      obtain ⟨m, hy⟩ := hsome (w := y) (by simp)
      obtain ⟨n, hz⟩ := hsome (w := z) (by simp)
      obtain rfl := Option.some.inj ((compare_of_units hx hy).symm.trans h₁)
      obtain rfl := Option.some.inj ((compare_of_units hy hz).symm.trans h₂)
      obtain rfl := Option.some.inj ((compare_of_units hx hz).symm.trans h₃)
      exact Std.TransOrd.isLE_trans hxy hyz
    · push Not at hm
      have hx := hm x (by simp)
      have hy := hm y (by simp)
      have hz := hm z (by simp)
      rw [compare_of_floating hx hy] at h₁
      rw [compare_of_floating hy hz] at h₂
      rw [compare_of_floating hx hz] at h₃
      exact Binary.compare_trans h₁ h₂ h₃ hxy hyz

end Numeric

end GraphQuery
