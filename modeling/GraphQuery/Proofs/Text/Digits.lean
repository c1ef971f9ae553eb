import GraphQuery.Text.Digits
import Mathlib.Tactic

/-! Digits that are written and read back. A number is written with digits only, without leading
zeros, and reading what was written gives the number. -/

namespace GraphQuery.Digits

theorem value_char {d : Nat} (h : d < 10) : value (char d) = d := by
  revert d; decide

theorem isDigit_char {d : Nat} (h : d < 10) : (char d).isDigit := by
  revert d; decide

/-! ### Values of rows of digits -/

theorem foldl_value (cs : List Char) (n : Nat) :
    cs.foldl (fun n c => 10 * n + value c) n = n * 10 ^ cs.length + toNat cs := by
  induction cs generalizing n with
  | nil => simp [toNat]
  | cons c cs ih =>
    simp only [toNat, List.foldl_cons, List.length_cons]
    rw [ih, ih (10 * 0 + value c)]
    ring

theorem toNat_append (as bs : List Char) :
    toNat (as ++ bs) = toNat as * 10 ^ bs.length + toNat bs := by
  rw [toNat, List.foldl_append, foldl_value]
  rfl

theorem toNat_replicate_zero (n : Nat) : toNat (List.replicate n '0') = 0 := by
  induction n with
  | zero => rfl
  | succ n ih => simpa [toNat, List.replicate_succ, value] using ih

theorem toNat_lt (cs : List Char) (h : ∀ c ∈ cs, c.isDigit) : toNat cs < 10 ^ cs.length := by
  induction cs using List.reverseRecOn with
  | nil => simp [toNat]
  | append_singleton cs c ih =>
    have hc := h c (by simp)
    have ih := ih fun d hd => h d (by simp [hd])
    have hv : value c ≤ 9 := by
      simp only [Char.isDigit, Bool.and_eq_true, decide_eq_true_eq, UInt32.le_iff_toNat_le] at hc
      have : c.toNat ≤ 57 := hc.2
      simp only [value]
      omega
    rw [toNat_append]
    simp only [toNat, List.foldl_cons, List.foldl_nil, List.length_append, List.length_singleton,
      pow_succ] at ih ⊢
    omega

/-! ### Writing -/

theorem prepend_append (fuel n : Nat) (rest : List Char) :
    prepend fuel n rest = prepend fuel n [] ++ rest := by
  induction fuel generalizing n rest with
  | zero => rfl
  | succ fuel ih =>
    simp only [prepend]
    split
    · rfl
    · rw [ih, ih _ [_], List.append_assoc]
      rfl

theorem prepend_of_lt {fuel fuel' n : Nat} (rest : List Char) (h : n < fuel) (h' : n < fuel') :
    prepend fuel n rest = prepend fuel' n rest := by
  induction fuel generalizing fuel' n rest with
  | zero => omega
  | succ fuel ih =>
    obtain _ | fuel' := fuel'
    · omega
    · simp only [prepend]
      split
      · rfl
      · exact ih _ (by omega) (by omega)

theorem ofNat_of_lt {n : Nat} (h : n < 10) : ofNat n = [char n] := by
  simp [ofNat, prepend, h]

theorem ofNat_of_le {n : Nat} (h : 10 ≤ n) : ofNat n = ofNat (n / 10) ++ [char (n % 10)] := by
  rw [ofNat, prepend, if_neg (by omega), prepend_append,
    prepend_of_lt [] (by omega) (Nat.lt_succ_self _)]
  rfl

theorem toNat_ofNat (n : Nat) : toNat (ofNat n) = n := by
  induction n using Nat.strong_induction_on with
  | _ n ih =>
    by_cases h : n < 10
    · simp [ofNat_of_lt h, toNat, value_char h]
    · rw [ofNat_of_le (by omega), toNat_append, ih _ (by omega)]
      simp only [toNat, List.length_singleton, List.foldl_cons, List.foldl_nil,
        value_char (Nat.mod_lt n (by decide : 10 > 0))]
      omega

theorem isDigit_ofNat (n : Nat) : ∀ c ∈ ofNat n, c.isDigit := by
  induction n using Nat.strong_induction_on with
  | _ n ih =>
    intro c hc
    by_cases h : n < 10
    · rw [ofNat_of_lt h, List.mem_singleton] at hc
      exact hc ▸ isDigit_char h
    · rw [ofNat_of_le (by omega), List.mem_append, List.mem_singleton] at hc
      rcases hc with hc | rfl
      · exact ih _ (by omega) c hc
      · exact isDigit_char (Nat.mod_lt _ (by decide))

theorem ofNat_ne_nil (n : Nat) : ofNat n ≠ [] := by
  by_cases h : n < 10
  · simp [ofNat_of_lt h]
  · simp [ofNat_of_le (n := n) (by omega)]

theorem length_ofNat_pos (n : Nat) : 0 < (ofNat n).length :=
  List.length_pos_iff.mpr (ofNat_ne_nil n)

/-- A number is below ten to the power of the number of its digits. -/
theorem lt_pow_length (n : Nat) : n < 10 ^ (ofNat n).length := by
  simpa [toNat_ofNat] using toNat_lt (ofNat n) (isDigit_ofNat n)

/-- Only zero is written with a leading zero. -/
theorem pow_length_le {n : Nat} (h : n ≠ 0) : 10 ^ ((ofNat n).length - 1) ≤ n := by
  induction n using Nat.strong_induction_on with
  | _ n ih =>
    by_cases hn : n < 10
    · simp [ofNat_of_lt hn]; omega
    · have := ih (n / 10) (by omega) (by omega)
      have hl := length_ofNat_pos (n / 10)
      rw [ofNat_of_le (by omega), List.length_append, List.length_singleton, Nat.add_sub_cancel]
      obtain ⟨k, hk⟩ : ∃ k, (ofNat (n / 10)).length = k + 1 := ⟨_, (Nat.sub_add_cancel hl).symm⟩
      rw [hk, Nat.add_sub_cancel] at this
      rw [hk, pow_succ]
      omega

theorem length_ofNat_le_iff {n k : Nat} (h : n ≠ 0) : (ofNat n).length ≤ k ↔ n < 10 ^ k := by
  constructor
  · intro hk
    exact (lt_pow_length n).trans_le (Nat.pow_le_pow_right (by decide) hk)
  · intro hk
    by_contra hlt
    have := (Nat.pow_le_pow_right (n := 10) (by decide) (by omega :
      k ≤ (ofNat n).length - 1)).trans (pow_length_le h)
    omega

/-- Each factor of ten is one more digit. -/
theorem length_ofNat_mul_pow {n : Nat} (h : n ≠ 0) (k : Nat) :
    (ofNat (n * 10 ^ k)).length = (ofNat n).length + k := by
  have hp : 0 < 10 ^ k := by positivity
  have h0 : n * 10 ^ k ≠ 0 := Nat.mul_ne_zero h hp.ne'
  apply le_antisymm
  · rw [length_ofNat_le_iff h0, pow_add]
    exact Nat.mul_lt_mul_of_pos_right (lt_pow_length n) hp
  · by_contra hlt
    have hlt : (ofNat (n * 10 ^ k)).length ≤ ((ofNat n).length - 1) + k := by
      have := length_ofNat_pos n; omega
    rw [length_ofNat_le_iff h0, pow_add] at hlt
    have := pow_length_le h
    have := Nat.lt_of_mul_lt_mul_right hlt
    omega

/-! ### Reading -/

theorem span_append {ds rest : List Char} (h : ∀ c ∈ ds, c.isDigit)
    (hr : ∀ c ∈ rest.head?, c.isDigit = false) : span (ds ++ rest) = (ds, rest) := by
  rw [span, List.span_eq_takeWhile_dropWhile, List.takeWhile_append_of_pos h,
    List.dropWhile_append_of_pos h]
  cases rest with
  | nil => simp
  | cons c rest =>
    have hc : c.isDigit = false := hr c rfl
    simp [hc]

theorem span_of_digits {ds : List Char} (h : ∀ c ∈ ds, c.isDigit) : span ds = (ds, []) := by
  have := span_append h (by simp : ∀ c ∈ ([] : List Char).head?, c.isDigit = false)
  rwa [List.append_nil] at this

theorem read_ofNat (n : Nat) : read? (ofNat n) = some n := by
  have hd : (ofNat n).all Char.isDigit := List.all_eq_true.mpr (isDigit_ofNat n)
  have hn : (ofNat n).isEmpty = false := by simp [ofNat_ne_nil]
  simp [read?, hd, hn, toNat_ofNat]

/-! ### Padding -/

theorem isDigit_padded (width n : Nat) : ∀ c ∈ padded width n, c.isDigit := by
  intro c hc
  rw [padded, List.mem_append] at hc
  rcases hc with hc | hc
  · rw [List.eq_of_mem_replicate hc]; rfl
  · exact isDigit_ofNat n c hc

theorem toNat_padded (width n : Nat) : toNat (padded width n) = n := by
  rw [padded, toNat_append, toNat_replicate_zero, toNat_ofNat, Nat.zero_mul, Nat.zero_add]

theorem length_padded (width n : Nat) : (padded width n).length = max width (ofNat n).length := by
  simp only [padded, List.length_append, List.length_replicate]
  omega

end GraphQuery.Digits
