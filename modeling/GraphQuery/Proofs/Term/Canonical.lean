import GraphQuery.Term.Canonical
import GraphQuery.Proofs.Number.Binary
import GraphQuery.Proofs.Time.DateTime

/-! Canonical terms are left as they are. Each of the six datatypes reads what it writes, so the
canonical form of a canonical form is the form itself, and two terms are the same exactly if they
have one canonical term. -/

namespace GraphQuery

/-- A canonical form is its own canonical form. -/
theorem canonicalForm_of_canonicalForm {datatype : Iri} {lexical form : String}
    (h : canonicalForm? datatype lexical = some form) :
    canonicalForm? datatype form = some form := by
  have hread {α : Type} {read : String → Option α} {render : α → String}
      (hr : ∀ a, read lexical = some a → read (render a) = some a)
      (h : (read lexical).map render = some form) : (read form).map render = some form := by
    obtain ⟨a, ha, rfl⟩ := Option.map_eq_some_iff.mp h
    rw [hr a ha, Option.map_some]
  unfold canonicalForm? at h ⊢
  split_ifs at h ⊢
  · exact hread (fun a _ => Integer.read_render a) h
  · exact hread (fun a _ => Decimal.read_render a) h
  · exact hread (fun a _ => Binary.read_render a) h
  · exact hread (fun a _ => Binary.read_render a) h
  · exact hread (fun b _ => by cases b <;> rfl) h
  · exact hread (fun _ ha => DateTime.read_render_of_read ha) h

theorem canonicalForm_canonicalForm (datatype : Iri) (lexical : String) :
    (canonicalForm? datatype ((canonicalForm? datatype lexical).getD lexical)).getD
        ((canonicalForm? datatype lexical).getD lexical) =
      (canonicalForm? datatype lexical).getD lexical := by
  cases h : canonicalForm? datatype lexical with
  | none => rw [Option.getD_none, h, Option.getD_none]
  | some form => rw [Option.getD_some, canonicalForm_of_canonicalForm h, Option.getD_some]

theorem canonicalForm_langString (lexical : String) :
    canonicalForm? Iri.langString lexical = none := by
  unfold canonicalForm?
  repeat rw [if_neg (by decide)]

/-- Two lexical forms of one datatype have the same canonical form if they have one at all and
agree in it, or are equal. -/
theorem getD_canonicalForm_eq_iff {datatype : Iri} {a b : String} :
    (canonicalForm? datatype a).getD a = (canonicalForm? datatype b).getD b ↔
      a = b ∨ ∃ form, canonicalForm? datatype a = some form ∧
        canonicalForm? datatype b = some form := by
  constructor
  · intro h
    cases ha : canonicalForm? datatype a with
    | none =>
      cases hb : canonicalForm? datatype b with
      | none => simpa [ha, hb] using h
      | some y =>
        -- A form without canonical form is not the canonical form of another.
        rw [ha, hb, Option.getD_none, Option.getD_some] at h
        rw [h, canonicalForm_of_canonicalForm hb] at ha
        cases ha
    | some x =>
      rw [ha, Option.getD_some] at h
      cases hb : canonicalForm? datatype b with
      | none =>
        rw [hb, Option.getD_none] at h
        rw [← h, canonicalForm_of_canonicalForm ha] at hb
        cases hb
      | some y => exact .inr ⟨x, rfl, by rw [h, hb, Option.getD_some]⟩
  · rintro (rfl | ⟨form, ha, hb⟩)
    · rfl
    · rw [ha, hb, Option.getD_some, Option.getD_some]

theorem Literal.canonical_canonical (l : Literal) : l.canonical.canonical = l.canonical := by
  cases l with
  | typed lexical datatype =>
    simp only [Literal.canonical, canonicalForm_canonicalForm]
  | tagged lexical language => rfl

namespace Term

@[simp] theorem canonical_canonical (t : Term) : t.canonical.canonical = t.canonical := by
  cases t with
  | literal l => simp only [canonical, Literal.canonical_canonical]
  | iri _ | blank _ | object _ _ | snapshot _ _ _ _ => rfl

/-- A term in the form in which nodes hold it. -/
def IsCanonical (t : Term) : Prop := t.canonical = t

theorem isCanonical_canonical (t : Term) : t.canonical.IsCanonical := canonical_canonical t

theorem same_literal_iff (a b : Literal) :
    same (literal a) (literal b) ↔ a.canonical = b.canonical := by
  cases a with
  | typed x d =>
    cases b with
    | typed y e =>
      by_cases hd : d = e
      · subst hd
        simp only [same, Literal.canonical, Literal.datatype, Literal.language,
          Literal.canonicalForm?, Literal.lexical, Bool.or_eq_true, Bool.and_eq_true, beq_self_eq_true,
          true_and, beq_iff_eq, Literal.typed.injEq, and_true, getD_canonicalForm_eq_iff]
        refine or_congr_right ?_
        cases canonicalForm? d x with
        | none => simp
        | some form =>
          cases canonicalForm? d y with
          | none => simp
          | some _ => simpa using eq_comm
      · simp [same, Literal.canonical, Literal.datatype, hd]
    | tagged y m => simp [same, Literal.canonical, Literal.language]
  | tagged x l =>
    cases b with
    | typed y e => simp [same, Literal.canonical, Literal.language]
    | tagged y m =>
      simp [same, Literal.canonical, Literal.canonicalForm?, Literal.datatype,
        canonicalForm_langString]

/-- Terms are the same exactly if they have one canonical term. -/
theorem same_iff (a b : Term) : a.same b ↔ a.canonical = b.canonical := by
  cases a with
  | literal a =>
    cases b with
    | literal b => simpa [canonical] using same_literal_iff a b
    | iri _ | blank _ | object _ _ | snapshot _ _ _ _ => simp [same, canonical]
  | iri _ | blank _ | object _ _ | snapshot _ _ _ _ => cases b <;> simp [same, canonical]

end Term

end GraphQuery
