import GraphQuery.Value.Builtin
import GraphQuery.Proofs.Value.Sums

/-! Strings that are cut and joined. The two pieces of a string at a position have the characters
of the string between them and its language each, so joining them gives the string back, and
strings may be joined in groups first, whatever languages they have. -/

namespace GraphQuery

open Builtin

/-! ### Strings -/

theorem Value.string_ofTyped {lexical text : String} {datatype : Iri} {language : Option String}
    (h : (ofTyped lexical datatype).string? = some (text, language)) :
    lexical = text ∧ datatype = Iri.xsdString ∧ language = none := by
  have hmap {α : Type} (o : Option α) (f : α → Value) (hf : ∀ a, (f a).string? = none) :
      ((o.map f).getD other).string? ≠ some (text, language) := by
    cases o with
    | none => simp [string?]
    | some a => simp [hf]
  unfold ofTyped at h
  split_ifs at h with hstring
  · obtain ⟨rfl, rfl⟩ : lexical = text ∧ none = language := by
      simpa only [Option.getD_some, string?, Option.some.injEq, Prod.mk.injEq] using h
    exact ⟨rfl, hstring, rfl⟩
  any_goals exact absurd h (hmap _ _ fun _ => rfl)
  cases h

/-- A term that is a string is built from its text and its language. -/
theorem Term.string_eq_some_iff {s : Term} {text : String} {language : Option String} :
    s.string? = some (text, language) ↔ s = ofText text language := by
  constructor
  · intro h
    cases s with
    | literal l =>
      cases l with
      | typed lexical datatype =>
        obtain ⟨rfl, rfl, rfl⟩ := Value.string_ofTyped h
        rfl
      | tagged lexical tag =>
        cases h
        rfl
    | iri _ | blank _ | object _ _ | snapshot _ _ _ _ => cases h
  · rintro rfl
    cases language <;> rfl

@[simp]
theorem Term.string_ofText (text : String) (language : Option String) :
    (ofText text language).string? = some (text, language) :=
  string_eq_some_iff.2 rfl

@[simp]
theorem Term.integer_ofInt64 (n : Int64) : (literal (.ofInt64 n)).integer? = some n.toInt := by
  rw [integer?, Literal.ofInt64, numeric_of_integer (by decide), Integer.read_render]
  rfl

namespace Builtin

/-! ### Cutting -/

theorem apply_strLen (t : Term) : strLen.apply [t] = t.string?.bind fun s =>
    (Integer.ofInt? s.1.toList.length).map fun n => .literal (.ofInt64 n) := by
  simp only [apply, Option.map_eq_bind]
  rfl

theorem apply_strLen_ofText (text : String) (language : Option String)
    (h : text.length < 2 ^ 63) :
    ∃ n : Int64, strLen.apply [ofText text language] = some (.literal (.ofInt64 n)) ∧
      n.toInt = text.length := by
  obtain ⟨n, hn, htoInt⟩ := Integer.ofInt_length h
  refine ⟨n, ?_, htoInt⟩
  rw [apply_strLen, Term.string_ofText, Option.bind_some, String.length_toList, hn]
  rfl

/-- A piece from the first character on. -/
theorem apply_subStr_front {one length : Term} {k : Nat} (hone : one.integer? = some 1)
    (hlength : length.integer? = some (k : Int)) (text : String) (language : Option String) :
    subStr.apply [ofText text language, one, length] =
      some (ofText (String.ofList (text.toList.take k)) language) := by
  simp [apply, slice, hone, hlength]

theorem apply_subStr_back {start : Term} {k : Nat} (hstart : start.integer? = some (k + 1 : Int))
    (text : String) (language : Option String) :
    subStr.apply [ofText text language, start] =
      some (ofText (String.ofList (text.toList.drop k)) language) := by
  have hpos : ¬ (k + 1 : Int) < 1 := by omega
  simp [apply, slice, hstart, hpos]

/-! ### Joining -/

theorem commonLanguage_eq_some_iff {ls : List (Option String)} {l : String} :
    commonLanguage ls = some l ↔ ls ≠ [] ∧ ∀ m ∈ ls, m = some l := by
  cases ls with
  | nil => simp [commonLanguage]
  | cons m ls =>
    simp only [commonLanguage, Option.ite_none_right_eq_some, List.all_eq_true, beq_iff_eq, ne_eq,
      reduceCtorEq, not_false_eq_true, true_and, List.forall_mem_cons]
    constructor
    · rintro ⟨hall, rfl⟩
      exact ⟨rfl, hall⟩
    · rintro ⟨rfl, hall⟩
      exact ⟨hall, rfl⟩

/-- The languages that groups share agree in what all members share. -/
theorem commonLanguage_map {groups : List (List (Option String))} (h : ∀ g ∈ groups, g ≠ []) :
    commonLanguage (groups.map commonLanguage) = commonLanguage groups.flatten := by
  ext l
  have hne : groups.flatten ≠ [] ↔ groups ≠ [] := by
    rw [ne_eq, ne_eq, not_iff_not, List.flatten_eq_nil_iff]
    constructor
    · intro hall
      exact List.eq_nil_iff_forall_not_mem.2 fun g hg => h g hg (hall g hg)
    · rintro rfl g hg
      cases hg
  simp only [commonLanguage_eq_some_iff, hne, List.forall_mem_map, List.mem_flatten, ne_eq,
    List.map_eq_nil_iff]
  refine and_congr_right fun _ => ⟨fun hall m => ?_, fun hall g hg => ⟨h g hg, fun m hm => ?_⟩⟩
  · rintro ⟨g, hg, hm⟩
    exact (hall g hg).2 m hm
  · exact hall m ⟨g, hg, hm⟩

/-- The string of a text and a language. -/
def ofPiece (p : String × Option String) : Term := ofText p.1 p.2

/-- The texts of pieces one after the other, with the language that the pieces share. -/
def joinPieces (ps : List (String × Option String)) : String × Option String :=
  (String.join (ps.map Prod.fst), commonLanguage (ps.map Prod.snd))

theorem mapM_map_eq_some {α β γ : Type} {f : β → Option γ} {g : α → β} {h : α → γ}
    (hf : ∀ a, f (g a) = some (h a)) (as : List α) : (as.map g).mapM f = some (as.map h) := by
  induction as with
  | nil => rfl
  | cons a as ih =>
    rw [List.map_cons, List.mapM_cons, hf, ih]
    rfl

theorem concatenate_map_ofPiece (ps : List (String × Option String)) :
    concatenate (ps.map ofPiece) = some (ofPiece (joinPieces ps)) := by
  have hstrings : (ps.map ofPiece).mapM Term.string? = some (ps.map id) :=
    mapM_map_eq_some (fun p : String × Option String => Term.string_ofText p.1 p.2) ps
  rw [concatenate, hstrings, List.map_id]
  rfl

theorem join_map_join (groups : List (List String)) :
    String.join (groups.map String.join) = String.join groups.flatten := by
  induction groups with
  | nil => rfl
  | cons g groups ih => simp [ih, String.join_append]

theorem joinPieces_map_joinPieces {groups : List (List (String × Option String))}
    (h : ∀ g ∈ groups, g ≠ []) : joinPieces (groups.map joinPieces) = joinPieces groups.flatten := by
  have hne : ∀ ls ∈ groups.map (·.map Prod.snd), ls ≠ [] := by simpa using h
  have htexts := join_map_join (groups.map (·.map Prod.fst))
  have hlanguages := commonLanguage_map hne
  rw [List.map_map, ← List.map_flatten] at htexts hlanguages
  simp only [joinPieces, List.map_map]
  exact Prod.ext htexts hlanguages

/-- Groups of strings are groups of pieces. -/
theorem exists_map_ofPiece {groups : List (List Term)}
    (h : ∀ g ∈ groups, ∀ t ∈ g, t.string?.isSome) :
    ∃ pieces : List (List (String × Option String)), pieces.map (·.map ofPiece) = groups := by
  show groups ∈ Set.range (List.map (List.map ofPiece))
  rw [Set.range_list_map]
  intro g hg
  rw [Set.range_list_map]
  intro t ht
  obtain ⟨p, hp⟩ := Option.isSome_iff_exists.1 (h g hg t ht)
  exact ⟨p, (Term.string_eq_some_iff.1 hp).symm⟩

theorem concatenate_groups {groups : List (List Term)} (hne : ∀ g ∈ groups, g ≠ [])
    (hstrings : ∀ g ∈ groups, ∀ t ∈ g, t.string?.isSome) :
    ∃ joined whole, groups.mapM concatenate = some joined ∧ concatenate joined = some whole ∧
      concatenate groups.flatten = some whole := by
  obtain ⟨pieces, rfl⟩ := exists_map_ofPiece hstrings
  have hne : ∀ g ∈ pieces, g ≠ [] := by simpa using hne
  refine ⟨(pieces.map joinPieces).map ofPiece, ofPiece (joinPieces pieces.flatten), ?_, ?_, ?_⟩
  · rw [List.map_map]
    exact mapM_map_eq_some concatenate_map_ofPiece pieces
  · rw [concatenate_map_ofPiece, joinPieces_map_joinPieces hne]
  · rw [← List.map_flatten, concatenate_map_ofPiece]

theorem concatenate_pair (a b : String) (language : Option String) :
    concatenate [ofText a language, ofText b language] = some (ofText (a ++ b) language) := by
  have hjoin : joinPieces [(a, language), (b, language)] = (a ++ b, language) := by
    simp [joinPieces, commonLanguage]
  exact (concatenate_map_ofPiece [(a, language), (b, language)]).trans (by rw [hjoin]; rfl)

/-- Cutting a string at a position and joining the pieces gives the string back, with its
language: the first piece has as many characters as were asked for, or all there are, and the other
one the rest. (A number of characters is counted if it fits into 64 bits.) And strings may be
joined in groups that are not empty before the groups are joined. -/
theorem concat_subStr :
    (∀ (s : Term) (text : String) (language : Option String) (one length start : Term) (k : Nat),
      s.string? = some (text, language) → one.integer? = some 1 →
      length.integer? = some (k : Int) → start.integer? = some (k + 1 : Int) →
      ∃ front back, subStr.apply [s, one, length] = some front ∧
        subStr.apply [s, start] = some back ∧ concat.apply [front, back] = some s ∧
        (text.length < 2 ^ 63 → ∃ n m r : Int64,
          strLen.apply [s] = some (.literal (.ofInt64 n)) ∧
          strLen.apply [front] = some (.literal (.ofInt64 m)) ∧
          strLen.apply [back] = some (.literal (.ofInt64 r)) ∧
          m.toInt = min (k : Int) n.toInt ∧ m.toInt + r.toInt = n.toInt)) ∧
    ∀ chunks : List (List Term), (∀ chunk ∈ chunks, chunk ≠ []) →
      (∀ chunk ∈ chunks, ∀ t ∈ chunk, t.string?.isSome) →
      ∃ joined whole, chunks.mapM concat.apply = some joined ∧ concat.apply joined = some whole ∧
        concat.apply chunks.flatten = some whole := by
  refine ⟨fun s text language one length start k hs hone hlength hstart => ?_,
    fun chunks => concatenate_groups⟩
  obtain rfl := Term.string_eq_some_iff.1 hs
  refine ⟨_, _, apply_subStr_front hone hlength text language,
    apply_subStr_back hstart text language, ?_, fun hfits => ?_⟩
  · show concatenate _ = _
    rw [concatenate_pair, ← String.ofList_append, List.take_append_drop, String.ofList_toList]
  have htake : (String.ofList (text.toList.take k)).length = min k text.length := by
    rw [String.length_ofList, List.length_take, String.length_toList]
  have hdrop : (String.ofList (text.toList.drop k)).length = text.length - k := by
    rw [String.length_ofList, List.length_drop, String.length_toList]
  obtain ⟨n, hn, hnlength⟩ := apply_strLen_ofText text language hfits
  obtain ⟨m, hm, hmlength⟩ := apply_strLen_ofText (String.ofList (text.toList.take k)) language
    (by omega)
  obtain ⟨r, hr, hrlength⟩ := apply_strLen_ofText (String.ofList (text.toList.drop k)) language
    (by omega)
  exact ⟨n, m, r, hn, hm, hr, by omega, by omega⟩

theorem concat_subStr_tagged :
    let s := ofText "chöre" (some "de")
    let number (n : Int64) : Term := .literal (.ofInt64 n)
    (∃ front back, subStr.apply [s, number 1, number 3] = some front ∧
      subStr.apply [s, number 4] = some back ∧ concat.apply [front, back] = some s) ∧
    ∃ joined whole, [[s, s], [ofText "x" none]].mapM concat.apply = some joined ∧
      concat.apply joined = some whole ∧ concat.apply [s, s, ofText "x" none] = some whole := by
  refine ⟨?_, concat_subStr.2 [[_, _], [_]] (by simp) (by simp)⟩
  obtain ⟨front, back, hfront, hback, hs, -⟩ := concat_subStr.1 (ofText "chöre" (some "de"))
    "chöre" (some "de") (.literal (.ofInt64 1)) (.literal (.ofInt64 3)) (.literal (.ofInt64 4)) 3
    (Term.string_ofText _ _) (Term.integer_ofInt64 1) (Term.integer_ofInt64 3)
    (Term.integer_ofInt64 4)
  exact ⟨front, back, hfront, hback, hs⟩

end Builtin

end GraphQuery
