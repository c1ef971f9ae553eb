import GraphQuery.Number.Shortest
import GraphQuery.Proofs.Number.Decimal
import Mathlib.Data.Int.Log

/-! Floating point numbers that are written and read back. Rounding a ratio depends on its value
alone, and numbers of the format are rounded to themselves; so the digits that are written, which
either were found to read back or are exact, give the number. -/

namespace GraphQuery.Binary

variable {f : Format}

/-! ### Ratios -/

theorem zpow_eq_div {b : ℚ} (hb : b ≠ 0) (e : Int) : b ^ e = b ^ e.toNat / b ^ (-e).toNat := by
  rw [← zpow_natCast, ← zpow_natCast, ← zpow_sub₀ hb]
  congr 1
  omega

theorem magnitude_eq_log {num den : Nat} (hn : num ≠ 0) (hd : den ≠ 0) :
    magnitude num den = Int.log 2 ((num : ℚ) / den) := by
  have hd0 : (0 : ℚ) < den := by exact_mod_cast Nat.pos_of_ne_zero hd
  have hq : (0 : ℚ) < (num : ℚ) / den := div_pos (by exact_mod_cast Nat.pos_of_ne_zero hn) hd0
  have log_eq : ∀ {e : Int}, (2 : ℚ) ^ e ≤ (num : ℚ) / den → (num : ℚ) / den < 2 ^ (e + 1) →
      e = Int.log 2 ((num : ℚ) / den) := by
    intro e h₁ h₂
    apply le_antisymm
    · exact (Int.zpow_le_iff_le_log (by norm_num) hq).mp (by exact_mod_cast h₁)
    · have := (Int.lt_zpow_iff_log_lt (b := 2) (by norm_num) hq).mp (by exact_mod_cast h₂)
      omega
  have hn₁ : (2 : ℚ) ^ (num.log2 : Int) ≤ num := by exact_mod_cast Nat.log2_self_le hn
  have hn₂ : (num : ℚ) < 2 ^ (num.log2 + 1 : Int) := by exact_mod_cast Nat.lt_log2_self (n := num)
  have hd₁ : (2 : ℚ) ^ (den.log2 : Int) ≤ den := by exact_mod_cast Nat.log2_self_le hd
  have hd₂ : (den : ℚ) < 2 ^ (den.log2 + 1 : Int) := by exact_mod_cast Nat.lt_log2_self (n := den)
  have hlow : (2 : ℚ) ^ ((num.log2 : Int) - den.log2 - 1) ≤ (num : ℚ) / den := by
    rw [le_div_iff₀ hd0]
    calc (2 : ℚ) ^ ((num.log2 : Int) - den.log2 - 1) * den
        ≤ 2 ^ ((num.log2 : Int) - den.log2 - 1) * 2 ^ (den.log2 + 1 : Int) := by gcongr
      _ = 2 ^ (num.log2 : Int) := by rw [← zpow_add₀ (by norm_num)]; congr 1; omega
      _ ≤ num := hn₁
  have hhigh : (num : ℚ) / den < 2 ^ ((num.log2 : Int) - den.log2 + 1) := by
    rw [div_lt_iff₀ hd0]
    calc (num : ℚ) < 2 ^ (num.log2 + 1 : Int) := hn₂
      _ = 2 ^ ((num.log2 : Int) - den.log2 + 1) * 2 ^ (den.log2 : Int) := by
        rw [← zpow_add₀ (by norm_num)]; congr 1; omega
      _ ≤ 2 ^ ((num.log2 : Int) - den.log2 + 1) * den := by gcongr
  have htest : ∀ e : Int, den * Nat.pow 2 e.toNat ≤ num * Nat.pow 2 (-e).toNat ↔
      (2 : ℚ) ^ e ≤ (num : ℚ) / den := by
    intro e
    rw [zpow_eq_div (by norm_num), div_le_div_iff₀ (by positivity) hd0, ← Nat.cast_le (α := ℚ),
      mul_comm (2 ^ e.toNat : ℚ)]
    simp
  simp only [magnitude]
  split
  next h => exact log_eq ((htest _).mp h) hhigh
  next h =>
    refine log_eq hlow ?_
    rw [sub_add_cancel]
    exact lt_of_not_ge fun hge => h ((htest _).mpr hge)

theorem nearest_mul (num den k : Nat) (hk : 0 < k) :
    nearest (num * k) (den * k) = nearest num den := by
  have hq : num * k / (den * k) = num / den := Nat.mul_div_mul_right _ _ hk
  have hr : num * k % (den * k) = num % den * k := Nat.mul_mod_mul_right _ _ _
  have hlt : den * k < 2 * (num % den * k) ↔ den < 2 * (num % den) := by
    rw [← Nat.mul_assoc]; exact Nat.mul_lt_mul_right hk
  have heq : 2 * (num % den * k) = den * k ↔ 2 * (num % den) = den := by
    rw [← Nat.mul_assoc]; exact Nat.mul_left_inj hk.ne'
  simp only [nearest, hq, hr, hlt, heq]

/-- Equal ratios have the same nearest number. -/
theorem nearest_congr {num den num' den' : Nat} (hd : 0 < den) (hd' : 0 < den')
    (h : num * den' = num' * den) : nearest num den = nearest num' den' := by
  rw [← nearest_mul num den den' hd', h, Nat.mul_comm den, nearest_mul _ _ _ hd]

/-- Equal ratios are rounded alike. -/
theorem ofRatio_congr (s : Bool) {num den num' den' : Nat} (hd : 0 < den) (hd' : 0 < den')
    (h : num * den' = num' * den) : ofRatio f s num den = ofRatio f s num' den' := by
  have hz : num = 0 ↔ num' = 0 := by
    constructor
    · rintro rfl
      exact (Nat.mul_eq_zero.mp (by simpa using h.symm)).resolve_right hd.ne'
    · rintro rfl
      exact (Nat.mul_eq_zero.mp (by simpa using h)).resolve_right hd'.ne'
  by_cases h0 : num = 0
  · rw [ofRatio, ofRatio, if_pos h0, if_pos (hz.mp h0)]
  · have hm : magnitude num den = magnitude num' den' := by
      rw [magnitude_eq_log h0 hd.ne', magnitude_eq_log (fun h' => h0 (hz.mpr h')) hd'.ne']
      congr 1
      rw [div_eq_div_iff (by positivity) (by positivity)]
      exact_mod_cast h
    have hn : ∀ e : Int, nearest (num * Nat.pow 2 (-e).toNat) (den * Nat.pow 2 e.toNat) =
        nearest (num' * Nat.pow 2 (-e).toNat) (den' * Nat.pow 2 e.toNat) := by
      intro e
      apply nearest_congr
      · exact Nat.mul_pos hd (Nat.pow_pos (by decide))
      · exact Nat.mul_pos hd' (Nat.pow_pos (by decide))
      · calc num * Nat.pow 2 (-e).toNat * (den' * Nat.pow 2 e.toNat)
            = num * den' * (Nat.pow 2 (-e).toNat * Nat.pow 2 e.toNat) := by ring
          _ = num' * den * (Nat.pow 2 (-e).toNat * Nat.pow 2 e.toNat) := by rw [h]
          _ = num' * Nat.pow 2 (-e).toNat * (den * Nat.pow 2 e.toNat) := by ring
    simp only [ofRatio, if_neg h0, if_neg fun h' => h0 (hz.mpr h'), hm, hn]

/-! ### Exact numbers -/

theorem nearest_exact (n : Nat) {k : Nat} (hk : 0 < k) : nearest (n * k) k = n := by
  simp [nearest, Nat.mul_div_cancel _ hk]
  omega

/-- The ratio of a number of the format. -/
theorem ratio_eq (m : Nat) (e : Int) :
    ((m * Nat.pow 2 e.toNat : Nat) : ℚ) / (Nat.pow 2 (-e).toNat : Nat) = m * 2 ^ e := by
  rw [zpow_eq_div (by norm_num) e, mul_div_assoc']
  simp

theorem le_precision_of_holds {m : Nat} {e : Int} (h : f.Holds m e) (hm : m ≠ 0) :
    max f.lowest (Int.log 2 ((m : ℚ) * 2 ^ e) + 1 - f.precision) = e := by
  obtain ⟨hlt, hlow, -, hfull⟩ := h
  have hm0 : (0 : ℚ) < m := by exact_mod_cast Nat.pos_of_ne_zero hm
  have hq : (0 : ℚ) < (m : ℚ) * 2 ^ e := by positivity
  have hlog : Int.log 2 ((m : ℚ) * 2 ^ e) < f.precision + e := by
    rw [← Int.lt_zpow_iff_log_lt (by norm_num) hq, Nat.cast_ofNat, zpow_add₀ (by norm_num)]
    gcongr
    exact_mod_cast hlt
  rcases hfull with hfull | rfl
  · have : (f.precision : Int) - 1 + e ≤ Int.log 2 ((m : ℚ) * 2 ^ e) := by
      rw [← Int.zpow_le_iff_le_log (by norm_num) hq, Nat.cast_ofNat, zpow_add₀ (by norm_num)]
      gcongr
      rw [zpow_sub₀ (by norm_num), zpow_one, div_le_iff₀ (by norm_num), mul_comm]
      exact_mod_cast hfull
    omega
  · omega

/-- A number of the format is rounded to itself. -/
theorem ofRatio_exact (s : Bool) {m : Nat} {e : Int} (h : f.Holds m e) (hm : m ≠ 0) :
    ofRatio f s (m * Nat.pow 2 e.toNat) (Nat.pow 2 (-e).toNat) = .finite s m e h := by
  have h2 : ∀ n, 0 < Nat.pow 2 n := fun n => Nat.pow_pos (by decide)
  have h0 : m * Nat.pow 2 e.toNat ≠ 0 := Nat.mul_ne_zero hm (h2 _).ne'
  have he : max f.lowest (magnitude (m * Nat.pow 2 e.toNat) (Nat.pow 2 (-e).toNat) + 1 -
      f.precision) = e := by
    rw [magnitude_eq_log h0 (h2 _).ne', ratio_eq, le_precision_of_holds h hm]
  have hn : nearest (m * Nat.pow 2 e.toNat * Nat.pow 2 (-e).toNat)
      (Nat.pow 2 (-e).toNat * Nat.pow 2 e.toNat) = m := by
    rw [Nat.mul_assoc, Nat.mul_comm (Nat.pow 2 e.toNat)]
    exact nearest_exact m (Nat.mul_pos (h2 _) (h2 _))
  simp only [ofRatio, if_neg h0, he, hn]
  rw [if_neg h.1.ne, ofParts, dif_pos h]

/-! ### Decimal digits -/

theorem ofDecimal_mul_pow (s : Bool) (digits k : Nat) (exponent : Int) :
    ofDecimal f s (digits * 10 ^ k) (exponent - k) = ofDecimal f s digits exponent := by
  have hp : 0 < 10 ^ k := by positivity
  by_cases h0 : digits = 0
  · simp [ofDecimal, h0]
  · have ht : ((Digits.ofNat (digits * 10 ^ k)).length + (exponent - k) : Int) =
        (Digits.ofNat digits).length + exponent := by
      rw [Digits.length_ofNat_mul_pow h0]
      push_cast
      ring
    have hr : ofRatio f s (digits * 10 ^ k * Nat.pow 10 (exponent - k).toNat)
          (Nat.pow 10 (-(exponent - k)).toNat) =
        ofRatio f s (digits * Nat.pow 10 exponent.toNat) (Nat.pow 10 (-exponent).toNat) := by
      apply ofRatio_congr s (Nat.pow_pos (by decide)) (Nat.pow_pos (by decide))
      have he : k + (exponent - k).toNat + (-exponent).toNat =
          exponent.toNat + (-(exponent - k)).toNat := by omega
      simp only [Nat.pow_eq, Nat.mul_assoc, ← pow_add, he]
    simp only [ofDecimal, ht, hr, Nat.mul_eq_zero, hp.ne', or_false]

theorem digits_le {digits : Nat} (h : digits ≠ 0) (exponent : Int) :
    (10 : ℚ) ^ ((Digits.ofNat digits).length + exponent - 1 : Int) ≤ digits * 10 ^ exponent := by
  have hl := Digits.length_ofNat_pos digits
  have hd : ((10 ^ ((Digits.ofNat digits).length - 1) : Nat) : ℚ) ≤ digits := by
    exact_mod_cast Digits.pow_length_le h
  rw [show ((Digits.ofNat digits).length + exponent - 1 : Int) =
    (((Digits.ofNat digits).length - 1 : Nat) : Int) + exponent by omega, zpow_add₀ (by norm_num)]
  gcongr
  simpa using hd

theorem digits_lt (digits : Nat) (exponent : Int) :
    (digits : ℚ) * 10 ^ exponent < 10 ^ ((Digits.ofNat digits).length + exponent : Int) := by
  rw [zpow_add₀ (by norm_num)]
  gcongr
  exact_mod_cast Digits.lt_pow_length digits

/-- Digits of the exact value of a number are not out of range. -/
theorem ofDecimal_exact (s : Bool) {m : Nat} {e : Int} (h : f.Holds m e) (hm : m ≠ 0)
    {digits : Nat} {exponent : Int} (hv : (digits : ℚ) * 10 ^ exponent = m * 2 ^ e) :
    ofDecimal f s digits exponent = .finite s m e h := by
  have hm0 : (0 : ℚ) < m := by exact_mod_cast Nat.pos_of_ne_zero hm
  have hd : digits ≠ 0 := by
    rintro rfl
    have : (0 : ℚ) < m * 2 ^ e := by positivity
    simp [← hv] at this
  have hlow : (2 : ℚ) ^ f.lowest ≤ m * 2 ^ e := by
    calc (2 : ℚ) ^ f.lowest ≤ 2 ^ e := zpow_le_zpow_right₀ (by norm_num) h.2.1
      _ ≤ m * 2 ^ e := le_mul_of_one_le_left (by positivity) (by exact_mod_cast hm0)
  have hhigh : (m : ℚ) * 2 ^ e < 2 ^ (f.maxExponent + 1 : Int) := by
    calc (m : ℚ) * 2 ^ e < 2 ^ f.precision * 2 ^ e := by gcongr; exact_mod_cast h.1
      _ ≤ 2 ^ f.precision * 2 ^ f.highest := by
        gcongr
        · norm_num
        · exact h.2.2.1
      _ = 2 ^ (f.maxExponent + 1 : Int) := by
        rw [← zpow_natCast, ← zpow_add₀ (by norm_num), Format.highest]
        congr 1
        ring
  have hsmall : ¬((Digits.ofNat digits).length + exponent <
      -(f.maxExponent + f.precision : Int)) := by
    intro ht
    apply lt_irrefl ((2 : ℚ) ^ f.lowest)
    calc (2 : ℚ) ^ f.lowest ≤ digits * 10 ^ exponent := hv ▸ hlow
      _ < 10 ^ ((Digits.ofNat digits).length + exponent : Int) := digits_lt _ _
      _ ≤ 10 ^ (-((f.maxExponent + f.precision : Nat) : Int)) :=
        zpow_le_zpow_right₀ (by norm_num) (by push_cast; omega)
      _ ≤ 2 ^ (-((f.maxExponent + f.precision : Nat) : Int)) := by
        rw [zpow_neg, zpow_neg, zpow_natCast, zpow_natCast]
        gcongr
        norm_num
      _ ≤ 2 ^ f.lowest := zpow_le_zpow_right₀ (by norm_num) (by unfold Format.lowest; omega)
  have hlarge : ¬((f.maxExponent : Int) + 1 < (Digits.ofNat digits).length + exponent) := by
    intro ht
    apply lt_irrefl ((10 : ℚ) ^ (f.maxExponent + 1 : Int))
    calc (10 : ℚ) ^ (f.maxExponent + 1 : Int)
        ≤ 10 ^ ((Digits.ofNat digits).length + exponent - 1 : Int) :=
          zpow_le_zpow_right₀ (by norm_num) (by omega)
      _ ≤ digits * 10 ^ exponent := digits_le hd _
      _ < 2 ^ (f.maxExponent + 1 : Int) := hv ▸ hhigh
      _ ≤ 10 ^ (f.maxExponent + 1 : Int) := by
        rw [show (f.maxExponent + 1 : Int) = ((f.maxExponent + 1 : Nat) : Int) by push_cast; rfl,
          zpow_natCast, zpow_natCast]
        gcongr
        norm_num
  rw [ofDecimal, if_neg (by simpa [hd] using hsmall), if_neg hlarge, ← ofRatio_exact s h hm]
  refine ofRatio_congr s (Nat.pow_pos (by decide)) (Nat.pow_pos (by decide)) ?_
  rw [zpow_eq_div (by norm_num) exponent, zpow_eq_div (by norm_num) e, mul_div_assoc',
    mul_div_assoc', div_eq_div_iff (by positivity) (by positivity)] at hv
  exact_mod_cast hv

theorem mem_candidates {x : Binary f} {s : Bool} {num den count : Nat} {found : Nat × Int}
    (h : found ∈ candidates x s num den count) : ofDecimal f s found.1 found.2 = x := by
  simp only [candidates, List.mem_filter, beq_iff_eq] at h
  exact h.2

/-- The shortest digits read back as the number. -/
theorem ofDecimal_shortest (s : Bool) {m : Nat} {e : Int} (h : f.Holds m e) (hm : m ≠ 0) :
    ofDecimal f s (shortest (.finite s m e h) s m e).1 (shortest (.finite s m e h) s m e).2 =
      .finite s m e h := by
  rw [shortest]
  split
  next found hf =>
    obtain ⟨count, -, hc⟩ := List.exists_of_findSome?_eq_some hf
    exact mem_candidates (List.mem_of_head? hc)
  next =>
    apply ofDecimal_exact s h hm
    have hmin : min e 0 = -((-e).toNat : Int) := by omega
    have h10 : (10 : ℚ) ^ (-e).toNat = 2 ^ (-e).toNat * 5 ^ (-e).toNat := by
      rw [← mul_pow]
      norm_num
    rw [hmin, zpow_neg, zpow_natCast, h10, zpow_eq_div (by norm_num) e]
    field_simp
    simp only [Nat.pow_eq]
    push_cast
    ring

/-! ### Writing and reading -/

theorem toLower_of_isDigit {c : Char} (h : c.isDigit) : c.toLower = c := by
  simp only [Char.isDigit, Bool.and_eq_true, decide_eq_true_eq, UInt32.le_iff_toNat_le] at h
  have h57 : c.toNat ≤ 57 := h.2
  refine dif_neg ?_
  rintro ⟨h65, -⟩
  have : 65 ≤ c.toNat := UInt32.le_iff_toNat_le.mp h65
  omega

/-- A text that starts with a digit is none of the names of infinity and NaN. -/
theorem word_ne {c : Char} (cs : List Char) (h : c.isDigit) {d : Char} (hd : d.isDigit = false)
    (ds : List Char) : (String.ofList ((c :: cs).map Char.toLower) == String.ofList (d :: ds)) = false := by
  rw [beq_eq_false_iff_ne]
  intro he
  have := congrArg String.toList he
  simp only [String.toList_ofList, List.map_cons, List.cons.injEq, toLower_of_isDigit h] at this
  rw [this.1, hd] at h
  contradiction

theorem readMagnitude_point (s : Bool) {digits : Nat} {exponent : Int} {whole fraction : List Char}
    (h : Positional.Written digits exponent whole fraction) :
    readMagnitude? f s (Positional.point whole fraction) = some (ofDecimal f s digits exponent) := by
  have hn : whole.isEmpty = false := by simp [h.whole_ne_nil]
  have hl := h.length_le
  have hd : ofDecimal f s (Digits.toNat (whole ++ fraction)) (0 - fraction.length) =
      ofDecimal f s digits exponent := by
    rw [← ofDecimal_mul_pow s _ ((-exponent).toNat - fraction.length), h.value,
      ← ofDecimal_mul_pow s digits exponent.toNat exponent]
    congr 1
    omega
  obtain ⟨c, cs, he, hc⟩ := h.exists_cons
  have hs := h.span_point
  rw [he] at hs ⊢
  simp only [readMagnitude?, word_ne cs hc (d := 'i') rfl ['n', 'f'],
    word_ne cs hc (d := 'i') rfl ['n', 'f', 'i', 'n', 'i', 't', 'y'],
    word_ne cs hc (d := 'n') rfl ['a', 'n'], hs]
  by_cases hf : fraction = []
  · subst hf
    simpa [hn, readExponent?] using hd
  · have hsp : Digits.span fraction = (fraction, []) := Digits.span_of_digits h.digit_fraction
    simpa [hf, hn, hsp, readExponent?] using hd

theorem written_zero : Positional.Written 0 0 ['0'] [] where
  digit_whole := by simp
  digit_fraction := by simp
  whole_ne_nil := by simp
  trimmed := rfl
  length_le := by simp
  value := rfl

theorem ofDecimal_zero (s : Bool) {e : Int} (h : f.Holds 0 e) :
    ofDecimal f s 0 0 = finite s 0 e h := by
  have he : e = f.lowest := by
    rcases h.2.2.2 with h0 | h0
    · exact absurd h0 (by simp)
    · exact h0
  subst he
  rw [ofDecimal, if_pos (Or.inl rfl), ofParts, dif_pos h]

/-- What is written for a number, after its sign, has its digits. -/
theorem exists_written (s : Bool) {m : Nat} {e : Int} (h : f.Holds m e) :
    ∃ whole fraction digits exponent, Positional.Written digits exponent whole fraction ∧
      (finite s m e h).renderChars =
        (if s then '-' :: Positional.point whole fraction else Positional.point whole fraction) ∧
      ofDecimal f s digits exponent = finite s m e h := by
  by_cases hm : m = 0
  · subst hm
    exact ⟨['0'], [], 0, 0, written_zero, rfl, ofDecimal_zero s h⟩
  · obtain ⟨whole, fraction, hr, hw⟩ := Positional.written_render
      (shortest (.finite s m e h) s m e).1 (shortest (.finite s m e h) s m e).2
    refine ⟨whole, fraction, _, _, hw, ?_, ofDecimal_shortest s h hm⟩
    simp only [renderChars, if_neg hm, hr]

theorem read_render (x : Binary f) : read? f x.render = some x := by
  rw [read?, render, String.toList_ofList]
  cases x with
  | nan => rfl
  | infinite s => cases s <;> rfl
  | finite s m e h =>
    obtain ⟨whole, fraction, digits, exponent, hw, hr, hv⟩ := exists_written s h
    have hm := readMagnitude_point (f := f) s hw
    rw [hr]
    cases s with
    | true => simp only [if_true, hm, hv]
    | false =>
      obtain ⟨c, cs, he, hc⟩ := hw.exists_cons
      simp only [Bool.false_eq_true, if_false]
      rw [he] at hm ⊢
      split
      · simp_all
      · simp_all
      · rw [hm, hv]

end GraphQuery.Binary
