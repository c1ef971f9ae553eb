import GraphQuery.Language.Tag
import Mathlib.Tactic

/-! Matching a language tag against a range is a comparison of prefixes: apart from the range `*`,
the tag is the range in some case, or goes on with a hyphen after it. -/

namespace GraphQuery.Language

/-- Equality of texts up to the case of the letters of ASCII. -/
def EqUpToCase (a b : List Char) : Prop := a.map Char.toLower = b.map Char.toLower

/-- Whether a text that follows a part begins a new one. -/
def EndsPart (rest : List Char) : Prop := rest = [] ∨ ∃ more, rest = '-' :: more

/-! ### Texts up to case -/

namespace EqUpToCase

theorem trans {a b c : List Char} (h : EqUpToCase a b) (h' : EqUpToCase b c) : EqUpToCase a c :=
  Eq.trans h h'

@[simp]
theorem nil_right {a : List Char} : EqUpToCase a [] ↔ a = [] := by simp [EqUpToCase]

theorem cons_right {a cs : List Char} {c : Char} :
    EqUpToCase a (c :: cs) ↔
      ∃ d ds, a = d :: ds ∧ d.toLower = c.toLower ∧ EqUpToCase ds cs := by
  cases a <;> simp [EqUpToCase]

/-- A text that is equal to one in two pieces is in two such pieces itself. -/
theorem append_right {a b c : List Char} :
    EqUpToCase a (b ++ c) ↔ ∃ p q, a = p ++ q ∧ EqUpToCase p b ∧ EqUpToCase q c := by
  simp only [EqUpToCase, List.map_append, List.map_eq_append_iff]

end EqUpToCase

theorem toLower_eq_hyphen {c : Char} : c.toLower = '-' ↔ c = '-' := by
  constructor
  · intro h
    by_cases hc : c.val ≥ 'A'.val ∧ c.val ≤ 'Z'.val
    · -- a capital letter becomes a small one, and a hyphen is none
      have hv : c.toLower.val = c.val + ('a'.val - 'A'.val) := congrArg Char.val (dif_pos hc)
      have h65 : 65 ≤ c.val.toNat := UInt32.le_iff_toNat_le.mp hc.1
      have h90 : c.val.toNat ≤ 90 := UInt32.le_iff_toNat_le.mp hc.2
      have h32 : ('a'.val - 'A'.val).toNat = 32 := rfl
      have h45 : ('-' : Char).val.toNat = 45 := rfl
      rw [h] at hv
      rw [hv, UInt32.toNat_add, h32] at h45
      omega
    · exact (dif_neg hc).symm.trans h
  · rintro rfl
    rfl

/-- Only a hyphen is a hyphen up to case. -/
theorem EqUpToCase.endsPart {a b : List Char} (h : EqUpToCase a b) (hb : EndsPart b) :
    EndsPart a := by
  rcases hb with rfl | ⟨more, rfl⟩
  · exact .inl (nil_right.1 h)
  · obtain ⟨d, ds, rfl, hd, -⟩ := cons_right.1 h
    exact .inr ⟨ds, by rw [toLower_eq_hyphen.1 hd]⟩

theorem EndsPart.append {a b : List Char} (ha : EndsPart a) (hb : EndsPart b) :
    EndsPart (a ++ b) := by
  rcases ha with rfl | ⟨more, rfl⟩
  · exact hb
  · exact .inr ⟨more ++ b, rfl⟩

/-! ### The parts of a text -/

theorem parts_ne_nil (cs : List Char) : parts cs ≠ [] := by
  cases cs with
  | nil => simp [parts]
  | cons c cs =>
    simp only [parts]
    split
    · split <;> simp
    · simp

@[simp]
theorem parts_nil : parts [] = [[]] := rfl

@[simp]
theorem parts_hyphen (cs : List Char) : parts ('-' :: cs) = [] :: parts cs := by
  obtain ⟨p, ps, h⟩ := List.exists_cons_of_ne_nil (parts_ne_nil cs)
  simp [parts, h]

theorem parts_cons_of_ne {c : Char} (h : c ≠ '-') (cs : List Char) :
    ∃ p ps, parts cs = p :: ps ∧ parts (c :: cs) = (c :: p) :: ps := by
  obtain ⟨p, ps, hp⟩ := List.exists_cons_of_ne_nil (parts_ne_nil cs)
  exact ⟨p, ps, hp, by simp [parts, hp, h]⟩

/-- The first part of a text is empty if the text is, or begins with a hyphen. -/
theorem startsWith_parts_nil (tag : List Char) :
    startsWith [[]] (parts tag) ↔ EndsPart tag := by
  cases tag with
  | nil => simp [startsWith, EndsPart]
  | cons c cs =>
    by_cases hc : c = '-'
    · simp [hc, startsWith, EndsPart]
    · obtain ⟨p, ps, -, h⟩ := parts_cons_of_ne hc cs
      simp [h, startsWith, EndsPart, hc]

/-- The parts of a range are the first parts of a tag if the tag is the range, up to case, and then
something that begins a new part. -/
theorem startsWith_parts (range tag : List Char) :
    startsWith (parts range) (parts tag) ↔
      ∃ first rest, tag = first ++ rest ∧ EqUpToCase first range ∧ EndsPart rest := by
  induction range generalizing tag with
  | nil => simp [startsWith_parts_nil]
  | cons r rs ih =>
    have hcons : (∃ first rest, tag = first ++ rest ∧ EqUpToCase first (r :: rs) ∧ EndsPart rest) ↔
        ∃ t ts, tag = t :: ts ∧ t.toLower = r.toLower ∧ startsWith (parts rs) (parts ts) := by
      simp only [ih, EqUpToCase.cons_right]
      constructor
      · rintro ⟨-, rest, rfl, ⟨t, first, rfl, ht, hf⟩, hr⟩
        exact ⟨t, first ++ rest, rfl, ht, first, rest, rfl, hf, hr⟩
      · rintro ⟨t, -, rfl, ht, first, rest, rfl, hf, hr⟩
        exact ⟨t :: first, rest, rfl, ⟨t, first, rfl, ht, hf⟩, hr⟩
    rw [hcons]
    -- a hyphen ends a part of the range and has to end the part of the tag
    obtain rfl | hr := eq_or_ne r '-'
    · cases tag with
      | nil =>
        obtain ⟨p, ps, hp⟩ := List.exists_cons_of_ne_nil (parts_ne_nil rs)
        simp [hp, startsWith]
      | cons t ts =>
        have hhyphen : Char.toLower '-' = '-' := rfl
        obtain rfl | ht := eq_or_ne t '-'
        · simp [startsWith]
        · obtain ⟨q, qs, -, hq⟩ := parts_cons_of_ne ht ts
          simp [hq, startsWith, ht, hhyphen, toLower_eq_hyphen]
    · obtain ⟨p, ps, hp, hrp⟩ := parts_cons_of_ne hr rs
      cases tag with
      | nil => simp [hrp, startsWith]
      | cons t ts =>
        obtain rfl | ht := eq_or_ne t '-'
        · have hrl : ¬ '-' = r.toLower := fun h => hr (toLower_eq_hyphen.1 h.symm)
          simp [hrp, startsWith, hrl]
        · obtain ⟨q, qs, hq, htq⟩ := parts_cons_of_ne ht ts
          simp [hrp, htq, hp, hq, startsWith, and_assoc, @eq_comm _ t.toLower]

/-! ### Matching -/

theorem matches_of_ne_star {tag range : String} (h : range ≠ "*") :
    «matches» tag range ↔
      ∃ first rest, tag.toList = first ++ rest ∧ EqUpToCase first range.toList ∧ EndsPart rest := by
  rw [«matches», if_neg h, startsWith_parts]

/-- What is left of a tag after a range that matches it ends a part, and so does what is left of
this range after a wider one. -/
theorem matches_trans {tag range wider : String} (h : range ≠ "*") (h' : wider ≠ "*")
    (ht : «matches» tag range) (hr : «matches» range wider) : «matches» tag wider := by
  obtain ⟨first, rest, htag, hfirst, hrest⟩ := (matches_of_ne_star h).1 ht
  obtain ⟨p, q, hrange, hp, hq⟩ := (matches_of_ne_star h').1 hr
  rw [hrange] at hfirst
  obtain ⟨p', q', rfl, hp', hq'⟩ := EqUpToCase.append_right.1 hfirst
  refine (matches_of_ne_star h').2 ⟨p', q' ++ rest, ?_, hp'.trans hp, ?_⟩
  · rw [htag, List.append_assoc]
  · exact (hq'.endsPart hq).append hrest

/-- Matching filters by a range as basic filtering does: `*` takes every tag but the empty one, and
any other range takes the tags that are equal to it up to case, or have a prefix that is and that a
hyphen follows. Narrowing a range that is not `*` narrows what it takes. -/
theorem matches_basic_filtering :
    (∀ tag range : String, «matches» tag range ↔
      (range = "*" ∧ tag ≠ "") ∨
      (range ≠ "*" ∧ EqUpToCase tag.toList range.toList) ∨
      (range ≠ "*" ∧ ∃ first rest, tag.toList = first ++ '-' :: rest ∧
        EqUpToCase first range.toList)) ∧
    ∀ tag range wider : String, range ≠ "*" → wider ≠ "*" →
      «matches» tag range → «matches» range wider → «matches» tag wider := by
  refine ⟨fun tag range => ?_, fun tag range wider => matches_trans⟩
  by_cases h : range = "*"
  · simp [«matches», h]
  · rw [matches_of_ne_star h]
    simp only [h, false_and, not_false_eq_true, true_and, false_or, ne_eq]
    constructor
    · rintro ⟨first, -, htag, hfirst, rfl | ⟨more, rfl⟩⟩
      · rw [List.append_nil] at htag
        exact .inl (htag ▸ hfirst)
      · exact .inr ⟨first, more, htag, hfirst⟩
    · rintro (heq | ⟨first, more, htag, hfirst⟩)
      · exact ⟨tag.toList, [], by simp, heq, .inl rfl⟩
      · exact ⟨first, '-' :: more, htag, hfirst, .inr ⟨more, rfl⟩⟩

theorem matches_basic_filtering_subtag :
    («matches» "de-CH-1996" "de-ch" ∧ «matches» "de-ch" "DE") ∧ «matches» "de-CH-1996" "DE" ∧
      ¬ «matches» "deu" "de" :=
  have h : «matches» "de-CH-1996" "de-ch" ∧ «matches» "de-ch" "DE" := by decide
  ⟨h, matches_basic_filtering.2 _ "de-ch" _ (by decide) (by decide) h.1 h.2, by decide⟩

end GraphQuery.Language
