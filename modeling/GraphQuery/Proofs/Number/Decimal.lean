import GraphQuery.Number.Decimal
import GraphQuery.Proofs.Text.Digits
import Mathlib.Data.List.DropRight

/-! Whole numbers and decimals that are written and read back. A number in positional notation is
a row of digits with an optional fraction that does not end in a zero, and its digits together
with the length of the fraction give its value. -/

namespace GraphQuery

/-! ### Whole numbers -/

namespace Integer

theorem ofInt_toInt {n : Int} {i : Int64} (h : ofInt? n = some i) : i.toInt = n := by
  simp only [ofInt?, Option.ite_none_right_eq_some, Option.some.injEq] at h
  obtain ⟨hb, rfl⟩ := h
  unfold bound at hb
  exact Int64.toInt_ofInt_of_le (by simp; omega) (by simp; omega)

/-- A length that fits into 64 bits has an integer. -/
theorem ofInt_length {n : Nat} (hn : n < 2 ^ 63) :
    ∃ i : Int64, ofInt? n = some i ∧ i.toInt = n := by
  have hi : ofInt? n = some (Int64.ofInt n) := if_pos (by unfold bound; omega)
  exact ⟨_, hi, ofInt_toInt hi⟩

theorem readChars_ofNat (n : Nat) : readChars? (Digits.ofNat n) = some (Int.ofNat n) := by
  have hd := Digits.isDigit_ofNat n
  have hr := Digits.read_ofNat n
  cases h : Digits.ofNat n with
  | nil => exact absurd h (Digits.ofNat_ne_nil n)
  | cons c cs =>
    rw [h] at hd hr
    have hc : c.isDigit := hd c (by simp)
    simp only [readChars?]
    split
    · simp_all
    · simp_all
    · simp [hr]

theorem readChars_renderChars (n : Int) : readChars? (renderChars n) = some n := by
  by_cases h : n < 0
  · simp only [renderChars, if_pos h, readChars?, Digits.read_ofNat, Option.map_some]
    congr 1
    simp only [Int.ofNat_eq_natCast]
    omega
  · simp only [renderChars, if_neg h, readChars_ofNat]
    congr 1
    simp only [Int.ofNat_eq_natCast]
    omega

theorem read_render (n : Int64) : read? (render n) = some n := by
  have h₁ := Int64.le_toInt n
  have h₂ := Int64.toInt_lt n
  simp only [read?, render, String.toList_ofList, readChars_renderChars, Option.bind_some]
  rw [ofInt?, if_pos (by unfold bound; omega), Int64.ofInt_toInt]

end Integer

/-! ### Positional notation -/

namespace Positional

/-- The digits before and after a point, which is left out if nothing follows it. -/
def point (whole fraction : List Char) : List Char :=
  if fraction.isEmpty then whole else whole ++ '.' :: fraction

theorem trimZeros_append (cs : List Char) :
    ∃ k, cs = trimZeros cs ++ List.replicate k '0' := by
  have h := List.takeWhile_append_dropWhile (p := (· == '0')) (l := cs.reverse)
  have hz : cs.reverse.takeWhile (· == '0') =
      List.replicate (cs.reverse.takeWhile (· == '0')).length '0' := by
    rw [List.eq_replicate_iff]
    exact ⟨rfl, fun c hc => by simpa using List.mem_takeWhile_imp hc⟩
  refine ⟨(cs.reverse.takeWhile (· == '0')).length, ?_⟩
  have := congrArg List.reverse h
  rw [List.reverse_append, List.reverse_reverse, hz, List.reverse_replicate] at this
  simpa [trimZeros] using this.symm

theorem trimZeros_trimZeros (cs : List Char) : trimZeros (trimZeros cs) = trimZeros cs :=
  List.rdropWhile_idempotent (· == '0') cs

/-- What is written for `digits · 10 ^ exponent` has these digits. -/
structure Written (digits : Nat) (exponent : Int) (whole fraction : List Char) : Prop where
  digit_whole : ∀ c ∈ whole, c.isDigit
  digit_fraction : ∀ c ∈ fraction, c.isDigit
  whole_ne_nil : whole ≠ []
  trimmed : trimZeros fraction = fraction
  length_le : fraction.length ≤ (-exponent).toNat
  value : Digits.toNat (whole ++ fraction) * 10 ^ ((-exponent).toNat - fraction.length) =
    digits * 10 ^ exponent.toNat

theorem split_append (digits places : Nat) :
    (split digits places).1 ++ (split digits places).2 = Digits.padded (places + 1) digits := by
  simp [split, List.splitAt_eq]

theorem length_split (digits places : Nat) :
    (split digits places).2.length = places ∧ (split digits places).1 ≠ [] := by
  have h := Digits.length_padded (places + 1) digits
  have h₁ : places + 1 ≤ (Digits.padded (places + 1) digits).length := h ▸ le_max_left _ _
  simp only [split, List.splitAt_eq, List.length_drop, ne_eq, List.take_eq_nil_iff]
  refine ⟨by omega, ?_⟩
  rintro (h0 | h0)
  · omega
  · rw [h0] at h₁
    simp at h₁

theorem written_split (digits : Nat) {exponent : Int} (h : ¬ 0 ≤ exponent) :
    Written digits exponent (split digits (-exponent).toNat).1
      (trimZeros (split digits (-exponent).toNat).2) := by
  have ha := split_append digits (-exponent).toNat
  have hp := Digits.isDigit_padded ((-exponent).toNat + 1) digits
  have hv := Digits.toNat_padded ((-exponent).toNat + 1) digits
  obtain ⟨hl, hn⟩ := length_split digits (-exponent).toNat
  obtain ⟨k, hk⟩ := trimZeros_append (split digits (-exponent).toNat).2
  have hlen : (trimZeros (split digits (-exponent).toNat).2).length + k = (-exponent).toNat := by
    simpa [hl] using (congrArg List.length hk).symm
  rw [← ha] at hp hv
  exact {
    digit_whole := fun c hc => hp c (by simp [hc])
    digit_fraction := fun c hc => hp c (by rw [List.mem_append, hk]; simp [hc])
    whole_ne_nil := hn
    trimmed := trimZeros_trimZeros _
    length_le := by omega
    value := by
      have he : exponent.toNat = 0 := by omega
      rw [hk, ← List.append_assoc, Digits.toNat_append, Digits.toNat_replicate_zero,
        List.length_replicate] at hv
      rw [he, show (-exponent).toNat - _ = k from by omega]
      simpa using hv }

theorem render_of_neg (digits : Nat) {exponent : Int} (h : ¬ 0 ≤ exponent) :
    render digits exponent = point (split digits (-exponent).toNat).1
      (trimZeros (split digits (-exponent).toNat).2) := by
  simp [render, h, point]

theorem written_render (digits : Nat) (exponent : Int) :
    ∃ whole fraction, render digits exponent = point whole fraction ∧
      Written digits exponent whole fraction := by
  by_cases h : 0 ≤ exponent
  · refine ⟨Digits.ofNat (digits * 10 ^ exponent.toNat), [], by simp [render, h, point], ?_⟩
    have h0 : (-exponent).toNat = 0 := by omega
    exact {
      digit_whole := Digits.isDigit_ofNat _
      digit_fraction := by simp
      whole_ne_nil := Digits.ofNat_ne_nil _
      trimmed := rfl
      length_le := by simp
      value := by simp [Digits.toNat_ofNat, h0] }
  · exact ⟨_, _, render_of_neg digits h, written_split digits h⟩

namespace Written

variable {digits : Nat} {exponent : Int} {whole fraction : List Char}

theorem zero_cons (h : Written digits exponent whole fraction) :
    Written digits exponent ('0' :: whole) fraction where
  digit_whole := by
    intro c hc
    rcases List.mem_cons.mp hc with rfl | hc
    · rfl
    · exact h.digit_whole c hc
  digit_fraction := h.digit_fraction
  whole_ne_nil := by simp
  trimmed := h.trimmed
  length_le := h.length_le
  value := h.value

/-- What is written starts with a digit, and so with no sign. -/
theorem exists_cons (h : Written digits exponent whole fraction) :
    ∃ c cs, point whole fraction = c :: cs ∧ c.isDigit := by
  obtain ⟨c, cs, rfl⟩ := List.exists_cons_of_ne_nil h.whole_ne_nil
  have hc := h.digit_whole c (by simp)
  unfold point
  split
  · exact ⟨c, cs, rfl, hc⟩
  · exact ⟨c, cs ++ '.' :: fraction, rfl, hc⟩

theorem span_point (h : Written digits exponent whole fraction) :
    Digits.span (point whole fraction) =
      (whole, if fraction.isEmpty then [] else '.' :: fraction) := by
  unfold point
  split
  · exact Digits.span_of_digits h.digit_whole
  · exact Digits.span_append h.digit_whole (by simp)

end Written

end Positional

/-! ### Decimals -/

namespace Decimal

theorem readMagnitude_point {digits : Nat} {whole fraction : List Char}
    (h : Positional.Written digits (-18) whole fraction) :
    readMagnitude? (Positional.point whole fraction) = some digits := by
  have hv := h.value
  have hn : whole.isEmpty = false := by simp [h.whole_ne_nil]
  simp only [readMagnitude?, h.span_point]
  by_cases hf : fraction = []
  · subst hf
    simpa [hn] using hv
  · have hd : fraction.all Char.isDigit := List.all_eq_true.mpr h.digit_fraction
    have hl : fraction.length ≤ 18 := h.length_le
    simpa [hf, hn, h.trimmed, hd, hl] using hv

theorem ofUnits_units (a : Decimal) : ofUnits? a.units = some a := by
  rw [ofUnits?, dif_pos a.fits]

theorem read_render (a : Decimal) : read? a.render = some a := by
  obtain ⟨whole, fraction, hr, hw⟩ := Positional.written_render a.units.natAbs (-18)
  have hm := readMagnitude_point hw
  rw [read?, render, String.toList_ofList, renderChars]
  by_cases h : a.units < 0
  · have hu : -(a.units.natAbs : Int) = a.units := by omega
    simp only [if_pos h, hr, hm, Option.bind_some, hu, ofUnits_units]
  · have hu : (a.units.natAbs : Int) = a.units := by omega
    obtain ⟨c, cs, he, hc⟩ := hw.exists_cons
    simp only [if_neg h, hr]
    rw [he] at hm ⊢
    split
    · simp_all
    · simp_all
    · rw [hm, Option.bind_some, hu, ofUnits_units]

end Decimal

end GraphQuery
