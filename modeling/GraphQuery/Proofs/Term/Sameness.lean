import GraphQuery.Proofs.Evaluate.Environment
import GraphQuery.Proofs.Solution.Duplicates
import GraphQuery.Proofs.Store.Contents
import GraphQuery.Proofs.Value.Sums

/-! Terms that are the same cannot be told apart. Being the same is being equal in canonical form,
and everything that is built from terms keeps them in that form: nodes, edges, solutions, the
numbers of a dictionary, and what is remembered of the rows of a distinct sequence. -/

namespace GraphQuery

/-! ### What is built from terms -/

/-- The node of a term, with its number if it comes from a store. -/
def Node.built (t : Term) : Option Nat → Node
  | none => .ofTerm t
  | some id => .numbered t id

/-- The dictionary that numbers some terms in their order. -/
def Dictionary.ofTerms (known : List Term) : Dictionary :=
  known.foldl (fun d t => (d.encode t).1) {}

/-- The solution that binds its slots to the nodes of some terms. -/
def Solution.ofTerms (ts : List (Option Term)) : Solution :=
  { slots := ts.map (Option.map fun t => (Node.ofTerm t).term) }

/-- Whether a relation is the identity of terms for everything that is built from them. -/
structure Term.IsIdentity (same : Term → Term → Prop) : Prop where
  equivalence : Equivalence same
  node : ∀ a b i j, (Node.built a i == Node.built b j) = true ↔ same a b
  edge : ∀ s p o s' p' o' i j k i' j' k',
    ((⟨.built s i, .built p j, .built o k⟩ : Edge) == ⟨.built s' i', .built p' j', .built o' k'⟩) =
      true ↔ same s s' ∧ same p p' ∧ same o o'
  occurrence : ∀ e e' g g' i j,
    ((⟨e, g.map (Node.built · i)⟩ : Occurrence) == ⟨e', g'.map (Node.built · j)⟩) = true ↔
      (e == e') = true ∧ Option.Rel same g g'
  solution : ∀ ts us, (Solution.ofTerms ts == Solution.ofTerms us) = true ↔
    List.Forall₂ (Option.Rel same) ts us
  compatible : ∀ ts us, (Solution.ofTerms ts).compatible (.ofTerms us) = true ↔
    ∀ t u, (some t, some u) ∈ ts.zip us → same t u
  /-- A term has a number if one that is the same was numbered. -/
  known : ∀ known t, ((Dictionary.ofTerms known).id? t).isSome = true ↔ ∃ u ∈ known, same u t
  /-- Only terms that are the same have one number. -/
  number : ∀ known a b, (Dictionary.ofTerms known).id? a = (Dictionary.ofTerms known).id? b ↔
    same a b ∨ (Dictionary.ofTerms known).id? a = none ∧ (Dictionary.ofTerms known).id? b = none
  /-- Looking for a term as it is before looking for its canonical form finds nothing else. -/
  raw : ∀ known t, ((Dictionary.ofTerms known).terms.idxOf? t).or
    ((Dictionary.ofTerms known).terms.idxOf? t.canonical) = (Dictionary.ofTerms known).id? t
  /-- A node is found by its term, whatever number it carries. -/
  resolve : ∀ known t i,
    (Dictionary.ofTerms known).resolve? (.built t i) = (Dictionary.ofTerms known).id? t
  encode : ∀ known a b, ((Dictionary.ofTerms (known ++ [a])).encode b).2 =
    ((Dictionary.ofTerms known).encode a).2 ↔ same a b
  /-- A distinct sequence refuses a row if one that is the same in all projected slots was
  submitted before. -/
  refused : ∀ vars projection (rows : List (List (Option Term))) ts,
    (((Solutions.fresh vars projection).submitAll (rows.map .ofTerms)).submit (.ofTerms ts)).2 =
      false ↔ ∃ us ∈ rows, ∀ i ∈ projection, Option.Rel same (us[i]?).join (ts[i]?).join
  /-- Distinct values are one of each, whichever of them come in. -/
  distinct : ∀ ts us, List.Forall₂ same ts us →
    List.Forall₂ same (SetFunction.distinctTerms ts) (SetFunction.distinctTerms us)
  apart : ∀ ts, (SetFunction.distinctTerms ts).Pairwise fun t u => ¬ same t u
  kept : ∀ ts, ∀ t ∈ ts, ∃ u ∈ SetFunction.distinctTerms ts, same u t

/-! ### Terms and nodes -/

namespace Term

theorem equivalence_same : Equivalence fun a b : Term => a.same b = true where
  refl a := (same_iff a a).mpr rfl
  symm h := (same_iff _ _).mpr ((same_iff _ _).mp h).symm
  trans h h' := (same_iff _ _).mpr (((same_iff _ _).mp h).trans ((same_iff _ _).mp h'))

/-- Optional terms are the same if they are equal in canonical form. -/
theorem rel_same_iff {t u : Option Term} :
    Option.Rel (fun a b : Term => a.same b = true) t u ↔ t.map canonical = u.map canonical := by
  cases t <;> cases u <;> simp [same_iff]

theorem forall₂_rel_same_iff {ts us : List (Option Term)} :
    List.Forall₂ (Option.Rel fun a b : Term => a.same b = true) ts us ↔
      ts.map (Option.map canonical) = us.map (Option.map canonical) := by
  rw [← List.forall₂_eq_eq_eq, List.forall₂_map_left_iff, List.forall₂_map_right_iff]
  exact iff_of_eq (congrArg (List.Forall₂ · ts us) (funext₂ fun _ _ => propext rel_same_iff))

end Term

namespace Node

@[simp] theorem term_built (t : Term) (i : Option Nat) : (built t i).term = t.canonical := by
  cases i <;> rfl

theorem beq_iff {m n : Node} : (m == n) = true ↔ m.term = n.term := beq_iff_eq (α := Term)

theorem built_beq_iff {a b : Term} {i j : Option Nat} :
    (built a i == built b j) = true ↔ a.same b = true := by
  rw [beq_iff, term_built, term_built, Term.same_iff]

end Node

theorem Edge.beq_iff {e f : Edge} : (e == f) = true ↔
    (e.subject == f.subject) = true ∧ (e.predicate == f.predicate) = true ∧
      (e.object == f.object) = true := by
  rw [← Bool.and_eq_true, ← Bool.and_eq_true]
  rfl

theorem Occurrence.beq_iff {o p : Occurrence} : (o == p) = true ↔
    (o.edge == p.edge) = true ∧ (o.graph == p.graph) = true := by
  rw [← Bool.and_eq_true]
  rfl

theorem Solution.slots_ofTerms (ts : List (Option Term)) :
    (ofTerms ts).slots = ts.map (Option.map Term.canonical) := rfl

theorem Solution.get_ofTerms (ts : List (Option Term)) (i : Nat) :
    (ofTerms ts).get? i = (ts[i]?).join.map Term.canonical := by
  rw [get?, slots_ofTerms, List.getElem?_map]
  rcases ts[i]? with _ | _ | _ <;> rfl

theorem Solution.compatible_ofTerms {ts us : List (Option Term)} :
    (ofTerms ts).compatible (ofTerms us) = true ↔
      ∀ t u, (some t, some u) ∈ ts.zip us → t.canonical = u.canonical := by
  rw [compatible_iff, slots_ofTerms, slots_ofTerms, List.zip_map]
  constructor
  · intro h t u hm
    exact h _ _ (List.mem_map_of_mem (f := Prod.map _ _) hm)
  · intro h t u hm
    obtain ⟨⟨x, y⟩, hxy, he⟩ := List.mem_map.mp hm
    obtain ⟨hx, hy⟩ := Prod.mk.inj he
    obtain ⟨a, rfl, rfl⟩ := Option.map_eq_some_iff.mp hx
    obtain ⟨b, rfl, rfl⟩ := Option.map_eq_some_iff.mp hy
    exact h a b hxy

/-! ### Dictionaries -/

namespace Dictionary

variable {d : Dictionary} {known : List Term} {a b t : Term}

theorem ofTerms_concat (known : List Term) (t : Term) :
    ofTerms (known ++ [t]) = ((ofTerms known).encode t).1 := by
  rw [ofTerms, List.foldl_append]
  rfl

theorem valid_ofTerms (known : List Term) : (ofTerms known).Valid := by
  induction known using List.reverseRecOn with
  | nil => exact ⟨List.nodup_nil, fun t ht => by cases ht⟩
  | append_singleton known t ih =>
    rw [ofTerms_concat]
    exact ih.encode t

theorem mem_encode (d : Dictionary) (t u : Term) :
    u ∈ (d.encode t).1.terms ↔ u ∈ d.terms ∨ u = t.canonical := by
  unfold encode
  cases h : d.id? t with
  | some i =>
    obtain ⟨hl, hi, -⟩ := List.idxOf?_eq_some_iff.mp h
    refine (or_iff_left_of_imp fun hu => ?_).symm
    rw [hu, ← hi]
    exact List.getElem_mem hl
  | none => simp

theorem mem_ofTerms {u : Term} : u ∈ (ofTerms known).terms ↔ ∃ t ∈ known, t.canonical = u := by
  induction known using List.reverseRecOn with
  | nil => simp [ofTerms]
  | append_singleton known t ih =>
    rw [ofTerms_concat, mem_encode, ih]
    simp [or_and_right, exists_or, eq_comm (a := u)]

theorem isSome_id_iff : (d.id? t).isSome = true ↔ t.canonical ∈ d.terms := by
  rw [← not_iff_not, Bool.not_eq_true, Option.isSome_eq_false_iff, Option.isNone_iff_eq_none, id?,
    List.idxOf?_eq_none_iff]

/-- Terms that have one number are the same. -/
theorem id_eq_iff (h : d.Valid) :
    d.id? a = d.id? b ↔ a.same b = true ∨ d.id? a = none ∧ d.id? b = none := by
  rw [Term.same_iff]
  constructor
  · intro hab
    cases ha : d.id? a with
    | none => exact .inr ⟨rfl, hab ▸ ha⟩
    | some i =>
      have hb : d.term? i = some b.canonical := h.id_eq_some.mp (hab ▸ ha)
      exact .inl (Option.some.inj ((h.id_eq_some.mp ha).symm.trans hb))
  · rintro (hab | ⟨ha, hb⟩)
    · rw [id?, id?, hab]
    · rw [ha, hb]

/-- What stands in a dictionary as it is stands there in canonical form. -/
theorem Valid.raw_eq (h : d.Valid) (t : Term) :
    (d.terms.idxOf? t).or (d.terms.idxOf? t.canonical) = d.id? t := by
  cases ht : d.terms.idxOf? t with
  | none => rfl
  | some i =>
    have hmem : t ∈ d.terms := List.mem_of_getElem? (h.idxOf_eq_some.mp ht)
    rw [Option.some_or, id?, h.canonical t hmem, ht]

theorem Valid.id_encode (h : d.Valid) (t : Term) : (d.encode t).1.id? t = some (d.encode t).2 :=
  (h.encode t).id_eq_some.mpr (h.term_encode t)

/-- A term gets a number that was given out if the term that it was given to is the same. -/
theorem Valid.encode_eq_iff (h : d.Valid) :
    ((d.encode a).1.encode b).2 = (d.encode a).2 ↔ a.same b = true := by
  have ha := h.term_encode a
  have hb := (h.encode a).term_encode b
  rw [Term.same_iff]
  constructor
  · intro he
    have hkept := term_of_prefix ((d.encode a).1.prefix_encode b) ha
    rw [← he, hb] at hkept
    exact (Option.some.inj hkept).symm
  · intro hab
    rw [Dictionary.encode, (h.encode a).id_eq_some.mpr (hab ▸ ha)]

end Dictionary

/-! ### Duplicates -/

/-- What a new sequence refuses after some submissions. -/
theorem Solutions.submit_fresh_eq_false_iff {vars : List Variable} {projection : List Nat}
    {rows : List Solution} {row : Solution} :
    (((fresh vars projection).submitAll rows).submit row).2 = false ↔
      ∃ r ∈ rows, r.restrict projection = row.restrict projection := by
  set s := (fresh vars projection).submitAll rows with hs
  have hp : s.projection = projection := projection_submitAll _ rows
  have hd : s.distinct = true := distinct_submitAll _ rows
  have hseen := (remembers_fresh vars projection).submitAll rfl rows (row.restrict s.projection)
  rw [← hs, hp] at hseen
  refine Iff.trans ?_ hseen
  rw [← hp]
  by_cases hm : row.restrict s.projection ∈ s.seen
  · rw [submit_of_mem hd hm]
    exact iff_of_true rfl hm
  · rw [submit_of_notMem hd hm]
    exact iff_of_false (by simp) hm

namespace SetFunction

/-- Terms that are the same occur among the same terms. -/
theorem any_same_congr {xs ys : List Term} {t u : Term}
    (hxy : List.Forall₂ (fun a b : Term => a.same b = true) xs ys) (htu : t.same u = true) :
    xs.any (·.same t) = ys.any (·.same u) := by
  induction hxy with
  | nil => rfl
  | cons hx _ ih =>
    rw [List.any_cons, List.any_cons, ih]
    refine congrArg (· || _) (Bool.eq_iff_iff.mpr ?_)
    rw [Term.same_iff, Term.same_iff, (Term.same_iff _ _).mp hx, (Term.same_iff _ _).mp htu]

/-- Which terms are kept depends on their canonical forms alone. -/
theorem forall₂_distinctTerms {ts us : List Term}
    (h : List.Forall₂ (fun a b : Term => a.same b = true) ts us) :
    List.Forall₂ (fun a b : Term => a.same b = true) (distinctTerms ts) (distinctTerms us) := by
  -- What was kept before is the same on both sides, and grows by the same terms.
  have hfold : ∀ {xs ys : List Term}, List.Forall₂ (fun a b : Term => a.same b = true) xs ys →
      List.Forall₂ (fun a b : Term => a.same b = true)
        (ts.foldl (fun seen t => if seen.any (·.same t) then seen else seen ++ [t]) xs)
        (us.foldl (fun seen t => if seen.any (·.same t) then seen else seen ++ [t]) ys) := by
    induction h with
    | nil => exact id
    | cons htu _ ih =>
      intro xs ys hxy
      apply ih
      dsimp only
      rw [any_same_congr hxy htu]
      split_ifs
      · exact hxy
      · exact List.rel_append hxy (.cons htu .nil)
  exact hfold .nil

end SetFunction

/-- Being the same is equality in canonical form, which is reached in one step, and nothing that is
built from terms tells apart terms that are the same, or takes others for the same. -/
theorem Term.isIdentity_same :
    (∀ a b : Term, a.same b = true ↔ a.canonical = b.canonical) ∧
      (∀ t : Term, t.canonical.canonical = t.canonical) ∧
      IsIdentity fun a b => a.same b = true := by
  refine ⟨same_iff, canonical_canonical, ?_⟩
  exact {
    equivalence := equivalence_same
    node a b i j := Node.built_beq_iff
    edge s p o s' p' o' i j k i' j' k' := by
      rw [Edge.beq_iff, Node.built_beq_iff, Node.built_beq_iff, Node.built_beq_iff]
    occurrence e e' g g' i j := by
      rw [Occurrence.beq_iff]
      refine and_congr_right fun _ => ?_
      cases g <;> cases g' <;> simp [Node.built_beq_iff]
    solution ts us := by
      rw [forall₂_rel_same_iff]
      exact beq_iff_eq (α := List (Option Term))
    compatible ts us := by
      simp only [Solution.compatible_ofTerms, same_iff]
    known known t := by
      simp only [Dictionary.isSome_id_iff, Dictionary.mem_ofTerms, same_iff]
    number known a b := Dictionary.id_eq_iff (Dictionary.valid_ofTerms known)
    raw known t := (Dictionary.valid_ofTerms known).raw_eq t
    resolve known t i := by
      rw [(Dictionary.valid_ofTerms known).resolve_eq, Node.term_built]
      rfl
    encode known a b := by
      rw [Dictionary.ofTerms_concat]
      exact (Dictionary.valid_ofTerms known).encode_eq_iff
    refused vars projection rows ts := by
      rw [Solutions.submit_fresh_eq_false_iff]
      simp [Solution.restrict, Solution.get_ofTerms, rel_same_iff]
    distinct ts us := SetFunction.forall₂_distinctTerms
    apart ts := by
      refine (List.pairwise_map.mp (SetFunction.nodup_distinctTerms ts)).imp fun h hs => ?_
      exact h ((same_iff _ _).mp hs)
    kept ts t ht := by
      obtain ⟨u, hu, hut⟩ := List.mem_map.mp
        (SetFunction.mem_map_distinctTerms.mpr (List.mem_map_of_mem ht))
      exact ⟨u, hu, (same_iff u t).mpr hut⟩ }

end GraphQuery
