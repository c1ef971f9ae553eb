import GraphQuery.Algebra.Lowering
import GraphQuery.Algebra.Scope
import GraphQuery.Evaluate.Expression
import GraphQuery.Proofs.Query.Variables
import GraphQuery.Proofs.Solution.Mapping

/-! The meaning of the algebra, from the bottom up: each operation turns bags of mappings into a
bag of mappings. A bag is a list whose order does not count. -/

namespace GraphQuery

/-! ### Expressions -/

namespace AlgebraExpr

/-- The variables that an expression reads. -/
def vars : AlgebraExpr → List Variable
  | const _ | existence _ => []
  | var v | bound v => [v]
  | or a b | and a b | binary _ a b => a.vars ++ b.vars
  | not a | unary _ a => a.vars
  | member a list => a.vars ++ listVariables list
  | cond test yes no => test.vars ++ yes.vars ++ no.vars
  | coalesce args | call _ args => listVariables args
where
  listVariables : List AlgebraExpr → List Variable
    | [] => []
    | a :: as => a.vars ++ listVariables as

/-- Whether an expression asks for no pattern and calls nothing that is defined elsewhere. -/
def isPlain : AlgebraExpr → Bool
  | const _ | var _ | bound _ => true
  | existence _ => false
  | or a b | and a b | binary _ a b => a.isPlain && b.isPlain
  | not a | unary _ a => a.isPlain
  | member a list => a.isPlain && allPlain list
  | cond test yes no => test.isPlain && yes.isPlain && no.isPlain
  | coalesce args => allPlain args
  | call (.custom _) _ => false
  | call (.builtin _) args | call (.missing _) args => allPlain args
where
  allPlain : List AlgebraExpr → Bool
    | [] => true
    | a :: as => a.isPlain && allPlain as

end AlgebraExpr

/-- The environment in which a mapping gives the variables of a query their values. -/
def Mapping.environment (q : Query) (μ : Mapping) : Environment :=
  { bindings := q.vars.map fun v => μ.lookup v }

/-- Nothing but the values of variables is there to be evaluated. -/
def Hooks.idle : Hooks where
  body _ _ := pure none
  hasSolution _ _ := pure false

/-- The value of an expression under a mapping. -/
def Expr.valueAt (c : Scope) (e : Expr) (μ : Mapping) : Option Term :=
  ((e.eval c .idle (μ.environment c.query)).outcome.toOption).join

namespace AlgebraExpr

def valueAt (c : Scope) (a : AlgebraExpr) (μ : Mapping) : Option Term :=
  match a.lower.run {} with
  | .ok (e, _) => e.valueAt c μ
  | .error _ => none

/-- Whether a condition is true under a mapping; without a value it is not. -/
def holdsAt (c : Scope) (a : AlgebraExpr) (μ : Mapping) : Bool :=
  ((a.valueAt c μ).bind Term.truth?).getD false

end AlgebraExpr

/-! ### Operations on bags -/

namespace Bag

def join (l r : List Mapping) : List Mapping := l.flatMap fun μ => r.filterMap (μ.join? ·)

/-- Joins that meet a condition, and the mappings on the left that have none. -/
def leftJoin (holds : Mapping → Bool) (l r : List Mapping) : List Mapping :=
  (join l r).filter holds ++ l.filter fun μ => !(r.filterMap (μ.join? ·)).any holds

/-- Leaves out what is compatible with a mapping on the right and shares a variable with it. -/
def minus (l r : List Mapping) : List Mapping :=
  l.filter fun μ => !r.any fun ν => μ.Compatible ν && μ.SharesVariable ν

def extend (v : Variable) (value : Mapping → Option Term) (l : List Mapping) : List Mapping :=
  l.map fun μ => (value μ).elim μ fun t => μ.insert v t.canonical

/-- All ways to assign terms to variables. -/
def assignments (ts : List Term) : List Variable → List Mapping
  | [] => [∅]
  | v :: vs => (assignments ts vs).flatMap fun μ => ts.map fun t => μ.insert v t

/-- The terms of some quads, each once. -/
def terms (facts : List Quad) : List Term :=
  (facts.flatMap fun r => [r.subject, r.predicate, r.object]).dedup

end Bag

/-- The term that a place of a triple stands for; a blank node stands for none. -/
def Mapping.place? (μ : Mapping) : TermPattern → Option Term
  | .var v => μ.lookup v
  | .const t => some t.canonical
  | .blank _ => none

/-- Whether a triple is one of some quads, in whatever graph. -/
def TriplePattern.holdsIn (facts : List Quad) (μ : Mapping) (t : TriplePattern) : Bool :=
  facts.any fun r => μ.place? t.subject = some r.subject ∧ μ.term? t.predicate = some r.predicate ∧
    μ.place? t.object = some r.object

namespace Bag

/-- The mappings of exactly the variables of some triples that make all of them hold. -/
def basic (facts : List Quad) (triples : List TriplePattern) : List Mapping :=
  (assignments (terms facts) (triples.flatMap TriplePattern.vars).dedup).filter fun μ =>
    triples.all (·.holdsIn facts μ)

/-- Joins a mapping with the bindings of a row. -/
def bindRow : List (Variable × Option Term) → Mapping → Option Mapping
  | [], μ => some μ
  | (_, none) :: rest, μ => bindRow rest μ
  | (v, some t) :: rest, μ => (μ.join? (Finmap.singleton v t.canonical)).bind (bindRow rest)

def values (vs : List Variable) (rows : List (List (Option Term))) : List Mapping :=
  rows.filterMap fun row => bindRow (vs.zip row) ∅

end Bag

/-- The bag of mappings that a pattern stands for, given the stored quads. Patterns of other kinds
have none. -/
def Algebra.bag (c : Scope) (facts : List Quad) : Algebra → List Mapping
  | basic triples => Bag.basic facts triples
  | join l r => Bag.join (l.bag c facts) (r.bag c facts)
  | leftJoin l r condition =>
    Bag.leftJoin (fun μ => condition.all (·.holdsAt c μ)) (l.bag c facts) (r.bag c facts)
  | filter condition inner => (inner.bag c facts).filter fun μ => condition.holdsAt c μ
  | union l r => l.bag c facts ++ r.bag c facts
  | extend inner v e => Bag.extend v (fun μ => e.valueAt c μ) (inner.bag c facts)
  | minus l r => Bag.minus (l.bag c facts) (r.bag c facts)
  | values vs rows => Bag.values vs rows
  | path _ _ _ | graph _ _ | orderBy _ _ | project _ _ | distinct _ | reduced _ | slice _ _ _
  | group _ _ _ | service _ _ _ => []

/-! ### Fragments -/

namespace Algebra

/-- Patterns that can be solved from any bindings: what they are filtered by is bound by
themselves. -/
inductive Positive (c : Scope) (facts : List Quad) : Algebra → Prop
  | basic (triples : List TriplePattern)
      (h : ∀ t ∈ triples, ∀ label, t.subject ≠ .blank label ∧ t.object ≠ .blank label) :
      Positive c facts (.basic triples)
  | values (vs : List Variable) (rows : List (List (Option Term))) :
      Positive c facts (.values vs rows)
  | join (l r : Algebra) : Positive c facts l → Positive c facts r → Positive c facts (.join l r)
  | union (l r : Algebra) : Positive c facts l → Positive c facts r → Positive c facts (.union l r)
  | filter (e : AlgebraExpr) (inner : Algebra) (he : e.isPlain = true)
      (hb : ∀ μ ∈ inner.bag c facts, ∀ v ∈ e.vars, v ∈ μ) :
      Positive c facts inner → Positive c facts (.filter e inner)

/-- Patterns that are solved from nothing, and grow to the left. -/
inductive Spine (c : Scope) (facts : List Quad) : Algebra → Prop
  | positive (a : Algebra) : Positive c facts a → Spine c facts a
  | join (l r : Algebra) : Spine c facts l → Positive c facts r → Spine c facts (.join l r)
  | leftJoin (l r : Algebra) (condition : Option AlgebraExpr)
      (he : ∀ e, condition = some e → e.isPlain = true) :
      Spine c facts l → Positive c facts r → Spine c facts (.leftJoin l r condition)
  | minus (l r : Algebra) : Spine c facts l → Positive c facts r → Spine c facts (.minus l r)
  | filter (e : AlgebraExpr) (inner : Algebra) (he : e.isPlain = true) :
      Spine c facts inner → Spine c facts (.filter e inner)
  | extend (inner : Algebra) (v : Variable) (e : AlgebraExpr) (he : e.isPlain = true)
      (hv : v ∉ inner.scope) : Spine c facts inner → Spine c facts (.extend inner v e)

end Algebra

/-! ### Basic patterns -/

theorem TermPattern.eq_var_of_mem {n : TermPattern} {v : Variable} (h : v ∈ n.vars) :
    n = .var v := by
  cases n with
  | var w => rw [List.mem_singleton.mp h]
  | blank _ | const _ => cases h

theorem Mapping.place_congr {μ ν : Mapping} {n : TermPattern}
    (h : ∀ v ∈ n.vars, μ.lookup v = ν.lookup v) : μ.place? n = ν.place? n := by
  cases n with
  | var v => exact h v List.mem_cons_self
  | blank _ | const _ => rfl

theorem Mapping.term_congr {μ ν : Mapping} {n : NodePattern}
    (h : ∀ v ∈ n.vars, μ.lookup v = ν.lookup v) : μ.term? n = ν.term? n := by
  cases n with
  | var v => exact h v List.mem_cons_self
  | const _ => rfl

theorem TriplePattern.holdsIn_congr {facts : List Quad} {μ ν : Mapping} {t : TriplePattern}
    (h : ∀ v ∈ t.vars, μ.lookup v = ν.lookup v) : t.holdsIn facts μ = t.holdsIn facts ν := by
  simp only [vars, List.mem_append] at h
  rw [holdsIn, holdsIn, Mapping.place_congr fun v hv => h v (.inl (.inl hv)),
    Mapping.term_congr fun v hv => h v (.inl (.inr hv)),
    Mapping.place_congr fun v hv => h v (.inr hv)]

namespace Bag

variable {ts : List Term} {vs : List Variable} {μ ν : Mapping}

theorem mem_assignments (hvs : vs.Nodup) :
    μ ∈ assignments ts vs ↔
      Mapping.Extends ∅ vs μ ∧ ∀ v t, μ.lookup v = some t → t ∈ ts := by
  induction vs generalizing μ with
  | nil =>
    rw [assignments, List.mem_singleton]
    constructor
    · rintro rfl
      exact ⟨Mapping.extends_nil _, by simp⟩
    · rintro ⟨h, -⟩
      exact (Mapping.extends_nil ∅).eq_of_isPart h (Mapping.isPart_empty _) |>.symm
  | cons v vs ih =>
    obtain ⟨hv, hvs⟩ := List.nodup_cons.mp hvs
    simp only [assignments, List.mem_flatMap, List.mem_map, ih hvs]
    constructor
    · rintro ⟨ν, ⟨hx, ht⟩, t, htm, rfl⟩
      refine ⟨⟨Mapping.isPart_empty _, fun w hw => ?_, fun w hw => .inr ?_⟩, fun w u hw => ?_⟩
      · rcases List.mem_cons.mp hw with rfl | hw
        · exact Finmap.mem_insert.mpr (.inl rfl)
        · exact Finmap.mem_insert.mpr (.inr (hx.bound w hw))
      · rcases Finmap.mem_insert.mp hw with rfl | hw
        · exact List.mem_cons_self
        · exact List.mem_cons_of_mem _ ((hx.only w hw).resolve_left Finmap.notMem_empty)
      · rw [Mapping.lookup_insert] at hw
        split_ifs at hw
        · exact Option.some.inj hw ▸ htm
        · exact ht w u hw
    · rintro ⟨hx, ht⟩
      obtain ⟨t, hvt⟩ := Finmap.mem_iff.mp (hx.bound v List.mem_cons_self)
      have hl : ∀ w, (μ.restrict vs).lookup w = if w ∈ vs then μ.lookup w else none :=
        fun w => Mapping.lookup_restrict vs
      refine ⟨μ.restrict vs, ⟨⟨Mapping.isPart_empty _, fun w hw => ?_, fun w hw => .inr ?_⟩,
        fun w u hw => ?_⟩, t, ht v t hvt, Finmap.ext_lookup fun w => ?_⟩
      · obtain ⟨u, hu⟩ := Finmap.mem_iff.mp (hx.bound w (List.mem_cons_of_mem _ hw))
        exact Finmap.mem_of_lookup_eq_some (by rw [hl, if_pos hw, hu])
      · obtain ⟨u, hu⟩ := Finmap.mem_iff.mp hw
        rw [hl] at hu
        split_ifs at hu with hw
        exact hw
      · rw [hl] at hw
        split_ifs at hw
        exact ht w u hw
      · rw [Mapping.lookup_insert, hl]
        split_ifs with h₁ h₂
        · rw [h₁, hvt]
        · rfl
        · have hw : w ∉ μ := fun hw => by
            rcases List.mem_cons.mp ((hx.only w hw).resolve_left Finmap.notMem_empty) with h | h
            · exact h₁ h
            · exact h₂ h
          exact (Finmap.lookup_eq_none.mpr hw).symm

theorem nodup_assignments (hts : ts.Nodup) (hvs : vs.Nodup) : (assignments ts vs).Nodup := by
  induction vs with
  | nil => exact List.nodup_singleton _
  | cons v vs ih =>
    obtain ⟨hv, hvs⟩ := List.nodup_cons.mp hvs
    have hfree : ∀ μ ∈ assignments ts vs, μ.lookup v = none := fun μ hμ =>
      Finmap.lookup_eq_none.mpr fun hm =>
        hv ((((mem_assignments hvs).mp hμ).1.only v hm).resolve_left Finmap.notMem_empty)
    refine List.nodup_flatMap.mpr ⟨fun μ _ => hts.map fun t u htu => ?_, ?_⟩
    · have := congrArg (Finmap.lookup v) htu
      simpa [Finmap.lookup_insert] using this
    · refine (ih hvs).imp_of_mem fun {μ ν} hμ hν hne => ?_
      rw [Function.onFun, List.disjoint_left]
      rintro ρ hρ hρ'
      obtain ⟨t, -, rfl⟩ := List.mem_map.mp hρ
      obtain ⟨u, -, hu⟩ := List.mem_map.mp hρ'
      refine hne (Finmap.ext_lookup fun w => ?_)
      by_cases hw : w = v
      · rw [hw, hfree μ hμ, hfree ν hν]
      · have := congrArg (Finmap.lookup w) hu
        rwa [Finmap.lookup_insert_of_ne _ hw, Finmap.lookup_insert_of_ne _ hw, eq_comm] at this

theorem mem_terms {facts : List Quad} {t : Term} :
    t ∈ terms facts ↔ ∃ r ∈ facts, t = r.subject ∨ t = r.predicate ∨ t = r.object := by
  simp [terms]

theorem mem_basic {facts : List Quad} {triples : List TriplePattern} :
    μ ∈ basic facts triples ↔ Mapping.Extends ∅ (triples.flatMap TriplePattern.vars) μ ∧
      ∀ t ∈ triples, t.holdsIn facts μ = true := by
  rw [basic, List.mem_filter, mem_assignments (List.nodup_dedup _), List.all_eq_true]
  constructor
  · rintro ⟨⟨hx, -⟩, hh⟩
    exact ⟨hx.congr fun v => List.mem_dedup, hh⟩
  · rintro ⟨hx, hh⟩
    refine ⟨⟨hx.congr fun v => List.mem_dedup.symm, fun v t hv => ?_⟩, hh⟩
    have hm := (hx.only v (Finmap.mem_of_lookup_eq_some hv)).resolve_left Finmap.notMem_empty
    obtain ⟨p, hp, hvp⟩ := List.mem_flatMap.mp hm
    have hhp := hh p hp
    simp only [TriplePattern.holdsIn, List.any_eq_true, decide_eq_true_eq] at hhp
    obtain ⟨r, hr, hs, hpr, ho⟩ := hhp
    refine mem_terms.mpr ⟨r, hr, ?_⟩
    simp only [TriplePattern.vars, List.mem_append] at hvp
    rcases hvp with (h | h) | h
    · rw [TermPattern.eq_var_of_mem h] at hs
      exact .inl (Option.some.inj (hv.symm.trans hs))
    · rw [NodePattern.eq_var_of_mem h] at hpr
      exact .inr (.inl (Option.some.inj (hv.symm.trans hpr)))
    · rw [TermPattern.eq_var_of_mem h] at ho
      exact .inr (.inr (Option.some.inj (hv.symm.trans ho)))

theorem nodup_basic {facts : List Quad} {triples : List TriplePattern} :
    (basic facts triples).Nodup :=
  (nodup_assignments (List.nodup_dedup _) (List.nodup_dedup _)).filter _

/-- The joins with a basic pattern are the extensions that make all its triples hold. -/
theorem mem_filterMap_basic {facts : List Quad} {triples : List TriplePattern} :
    ν ∈ (basic facts triples).filterMap (μ.join? ·) ↔
      μ.Extends (triples.flatMap TriplePattern.vars) ν ∧
        ∀ t ∈ triples, t.holdsIn facts ν = true := by
  have hlocal : ∀ μ ν : Mapping, (∀ v ∈ triples.flatMap TriplePattern.vars,
      μ.lookup v = ν.lookup v) → ((∀ t ∈ triples, t.holdsIn facts μ = true) ↔
        ∀ t ∈ triples, t.holdsIn facts ν = true) := fun μ ν hμν =>
    forall₂_congr fun t ht => by
      rw [TriplePattern.holdsIn_congr fun v hv => hμν v (List.mem_flatMap.mpr ⟨t, ht, hv⟩)]
  rw [Mapping.extends_iff_join hlocal]
  simp only [List.mem_filterMap, mem_basic]

theorem nodup_filterMap_basic {facts : List Quad} {triples : List TriplePattern} :
    ((basic facts triples).filterMap (μ.join? ·)).Nodup := by
  refine List.pairwise_filterMap.mpr (nodup_basic.imp_of_mem
    fun {ν ρ} hν hρ hne τ hτ τ' hτ' he => ?_)
  obtain ⟨hc, rfl⟩ := Mapping.join_eq_some.mp hτ
  obtain ⟨hc', hτ'⟩ := Mapping.join_eq_some.mp hτ'
  have hx := (mem_basic.mp hν).1
  have hx' := (mem_basic.mp hρ).1
  refine hne (Finmap.ext_lookup fun v => ?_)
  have hν := hc.isPart_union
  have hρ := hc'.isPart_union
  rw [hτ', ← he] at hρ
  by_cases hv : v ∈ triples.flatMap TriplePattern.vars
  · obtain ⟨t, ht⟩ := Finmap.mem_iff.mp (hx.bound v hv)
    obtain ⟨u, hu⟩ := Finmap.mem_iff.mp (hx'.bound v hv)
    rw [ht, hu, ← hν v t ht, hρ v u hu]
  · have hn : ∀ {ν : Mapping}, Mapping.Extends ∅ (triples.flatMap TriplePattern.vars) ν → v ∉ ν :=
      fun hx hm => hv ((hx.only v hm).resolve_left Finmap.notMem_empty)
    rw [Finmap.lookup_eq_none.mpr (hn hx), Finmap.lookup_eq_none.mpr (hn hx')]

/-! ### Rows -/

/-- Binding a row is joining with what the row binds from nothing. -/
theorem bindRow_eq_join (cells : List (Variable × Option Term)) (μ : Mapping) :
    bindRow cells μ = (bindRow cells ∅).bind (μ.join? ·) := by
  induction cells generalizing μ with
  | nil => simp [bindRow, Mapping.join?, Mapping.compatible_iff]
  | cons cell cells ih =>
    obtain ⟨v, t⟩ := cell
    cases t with
    | none => exact ih μ
    | some t =>
      simp only [bindRow, Mapping.empty_join, Option.bind_some]
      rw [ih (Finmap.singleton v t.canonical), Option.bind_assoc]
      simp only [Mapping.join_assoc]
      rw [Option.bind_comm]
      exact congrArg _ (funext fun ρ => ih ρ)

/-! ### Left joins -/

/-- Members with their matches in turn, or by themselves if they have none, are all matches and
all members without one. -/
theorem flatMap_perm_filter {α : Type} (f : α → List α) (p : α → Bool) (l : List α) :
    (l.flatMap fun a => if (f a).any p then (f a).filter p else [a]).Perm
      ((l.flatMap f).filter p ++ l.filter fun a => !(f a).any p) := by
  induction l with
  | nil => exact .nil
  | cons a l ih =>
    rw [List.flatMap_cons, List.flatMap_cons, List.filter_append, List.append_assoc]
    cases h : (f a).any p with
    | true =>
      rw [List.filter_cons_of_neg (by simp [h]), if_pos rfl]
      exact ih.append_left _
    | false =>
      have hnil : (f a).filter p = [] := by
        rw [List.filter_eq_nil_iff]
        exact fun b hb hpb => by
          rw [List.any_eq_true.mpr ⟨b, hb, hpb⟩] at h
          cases h
      rw [List.filter_cons_of_pos (by simp [h]), if_neg Bool.false_ne_true, hnil, List.nil_append]
      exact (ih.cons a).trans List.perm_middle.symm

theorem leftJoin_perm (holds : Mapping → Bool) (l r : List Mapping) :
    (l.flatMap fun μ => if (r.filterMap (μ.join? ·)).any holds
      then (r.filterMap (μ.join? ·)).filter holds else [μ]).Perm (leftJoin holds l r) :=
  flatMap_perm_filter (fun μ => r.filterMap (μ.join? ·)) holds l

/-! ### Variables -/

variable {v : Variable}

theorem mem_of_join {ρ : Mapping} (h : μ.join? ν = some ρ) (hv : v ∈ ρ) : v ∈ μ ∨ v ∈ ν := by
  obtain ⟨-, rfl⟩ := Mapping.join_eq_some.mp h
  exact Finmap.mem_union.mp hv

theorem exists_join_of_mem {l r : List Mapping} (h : ν ∈ join l r) :
    ∃ μ ∈ l, ∃ ρ ∈ r, μ.join? ρ = some ν := by
  obtain ⟨μ, hμ, hν⟩ := List.mem_flatMap.mp h
  obtain ⟨ρ, hρ, hj⟩ := List.mem_filterMap.mp hν
  exact ⟨μ, hμ, ρ, hρ, hj⟩

theorem mem_of_bindRow {cells : List (Variable × Option Term)} (h : bindRow cells μ = some ν)
    (hv : v ∈ ν) : v ∈ μ ∨ v ∈ cells.map (·.1) := by
  induction cells generalizing μ with
  | nil =>
    obtain rfl := Option.some.inj h
    exact .inl hv
  | cons cell cells ih =>
    obtain ⟨w, t⟩ := cell
    cases t with
    | none => exact (ih h).imp id (List.mem_cons_of_mem _)
    | some t =>
      obtain ⟨ρ, hρ, h⟩ := Option.bind_eq_some_iff.mp h
      rcases ih h with hm | hm
      · refine (mem_of_join hρ hm).imp id fun hm => ?_
        rw [(Finmap.mem_singleton v w _).mp hm]
        exact List.mem_cons_self
      · exact .inr (List.mem_cons_of_mem _ hm)

end Bag

namespace Algebra

variable {c : Scope} {facts : List Quad} {a : Algebra} {μ : Mapping} {v : Variable}

/-- The mappings of a pattern bind no variables but those in its scope. -/
theorem Positive.mem_scope (h : a.Positive c facts) (hμ : μ ∈ a.bag c facts) (hv : v ∈ μ) :
    v ∈ a.scope := by
  induction h generalizing μ with
  | basic triples =>
    exact ((Bag.mem_basic.mp hμ).1.only v hv).resolve_left Finmap.notMem_empty
  | values vs rows =>
    obtain ⟨row, -, hr⟩ := List.mem_filterMap.mp hμ
    have := (Bag.mem_of_bindRow hr hv).resolve_left Finmap.notMem_empty
    obtain ⟨⟨w, t⟩, hw, rfl⟩ := List.mem_map.mp this
    exact (List.of_mem_zip hw).1
  | join l r _ _ ihl ihr =>
    obtain ⟨ν, hν, ρ, hρ, hj⟩ := Bag.exists_join_of_mem hμ
    rcases Bag.mem_of_join hj hv with hv | hv
    · exact List.mem_append_left _ (ihl hν hv)
    · exact List.mem_append_right _ (ihr hρ hv)
  | union l r _ _ ihl ihr =>
    rcases List.mem_append.mp hμ with hμ | hμ
    · exact List.mem_append_left _ (ihl hμ hv)
    · exact List.mem_append_right _ (ihr hμ hv)
  | filter e inner _ _ _ ih => exact ih (List.mem_filter.mp hμ).1 hv

theorem Spine.mem_scope (h : a.Spine c facts) (hμ : μ ∈ a.bag c facts) (hv : v ∈ μ) :
    v ∈ a.scope := by
  induction h generalizing μ with
  | positive a ha => exact ha.mem_scope hμ hv
  | join l r _ hr ihl =>
    obtain ⟨ν, hν, ρ, hρ, hj⟩ := Bag.exists_join_of_mem hμ
    rcases Bag.mem_of_join hj hv with hv | hv
    · exact List.mem_append_left _ (ihl hν hv)
    · exact List.mem_append_right _ (hr.mem_scope hρ hv)
  | leftJoin l r condition _ _ hr ihl =>
    rcases List.mem_append.mp hμ with hμ | hμ
    · obtain ⟨ν, hν, ρ, hρ, hj⟩ := Bag.exists_join_of_mem (List.mem_filter.mp hμ).1
      rcases Bag.mem_of_join hj hv with hv | hv
      · exact List.mem_append_left _ (ihl hν hv)
      · exact List.mem_append_right _ (hr.mem_scope hρ hv)
    · exact List.mem_append_left _ (ihl (List.mem_filter.mp hμ).1 hv)
  | minus l r _ _ ihl => exact ihl (List.mem_filter.mp hμ).1 hv
  | filter e inner _ _ ih => exact ih (List.mem_filter.mp hμ).1 hv
  | extend inner w e _ _ _ ih =>
    obtain ⟨ν, hν, rfl⟩ := List.mem_map.mp hμ
    cases he : e.valueAt c ν with
    | none =>
      simp only [he, Option.elim_none] at hv
      exact List.mem_cons_of_mem _ (ih hν hv)
    | some t =>
      simp only [he, Option.elim_some] at hv
      rcases Finmap.mem_insert.mp hv with rfl | hv
      · exact List.mem_cons_self
      · exact List.mem_cons_of_mem _ (ih hν hv)

end Algebra

end GraphQuery
