import GraphQuery.Proofs.Evaluate.Search
import GraphQuery.Proofs.Evaluate.Walk
import GraphQuery.Proofs.Store.Contents

/-! Reversed paths. A walk along the reversed path is a walk backwards, and a walk backwards leads
from one node to another exactly if the walk forwards leads from the other one to it, whatever graph
is in force. -/

namespace GraphQuery

/-! ### Steps -/

theorem Position.reverse_reverse (position : Position) : position.reverse.reverse = position := by
  cases position <;> rfl

namespace Path

variable {p : Path}

theorem isStep_reverse (h : p.isStep = true) : p.reverse.isStep = true := by
  cases p with
  | predicate | negated => rfl
  | inverse p => exact h
  | _ => cases h

theorem effectiveIndex_reverse (h : p.isStep = true) (position : Position) :
    Source.effectiveIndex p.reverse position = (Source.effectiveIndex p position).reverse := by
  cases p with
  | predicate | negated => rfl
  | inverse p => exact (Position.reverse_reverse _).symm
  | _ => cases h

end Path

namespace Source

variable {s : Source} {g : Ground} {t u : Term} {p q : Path} {backwards : Bool}

/-- A reversed step follows the same edges from their other ends. -/
theorem mem_stepFrom_inverse (hs : s.store.Valid) {step : Path} (ht : t.IsCanonical)
    (hu : u.IsCanonical) : u ∈ s.stepFrom g (.inverse step) t ↔ t ∈ s.stepFrom g step u := by
  rw [mem_stepFrom hs, mem_stepFrom hs, effectiveIndex, Position.reverse_reverse, ht, hu]
  exact exists_congr fun r => and_congr_right fun _ => and_congr_right fun _ =>
    and_congr_right fun _ => and_comm

/-! ### Walks -/

/-- Walking the reversed path is walking backwards, with the same nodes in the same order. -/
theorem reach_reverse (s : Source) (g : Ground) (p : Path) (backwards : Bool) :
    s.reach g p.reverse backwards = s.reach g p (!backwards) := by
  induction p generalizing backwards with
  | predicate | negated =>
    funext t
    rfl
  | inverse p =>
    funext t
    rw [reach, Bool.not_not]
    rfl
  | seq p q ihp ihq =>
    funext t
    rw [Path.reverse, reach, reach, ihp, ihp, ihq, ihq]
    cases backwards <;> rfl
  | alt p q ihp ihq =>
    funext t
    rw [Path.reverse, reach, reach, ihp, ihq]
  | zeroOrMore p ih | oneOrMore p ih | zeroOrOne p ih =>
    funext t
    rw [Path.reverse, reach, reach, ih]

/-- A walk leads back from where it leads to. -/
theorem mem_reach_back (hs : s.store.Valid) (p : Path) (backwards : Bool) (ht : t.IsCanonical)
    (hu : u ∈ s.reach g p backwards t) : t ∈ s.reach g p (!backwards) u := by
  have hc : ∀ {p : Path} {backwards a b}, a.IsCanonical → b ∈ s.reach g p backwards a →
      b.IsCanonical := isCanonical_of_mem_reach hs
  have hsteps : ∀ {p : Path} {backwards}, (∀ {t u}, t.IsCanonical → u ∈ s.reach g p backwards t →
      t ∈ s.reach g p (!backwards) u) → ∀ a b, a.IsCanonical → Steps (s.reach g p backwards) a b →
        Function.swap (Steps (s.reach g p !backwards)) a b ∧ b.IsCanonical :=
    fun hp a b ha hab => ⟨hp ha hab, hc ha hab⟩
  induction p generalizing backwards t u with
  | predicate | negated =>
    have huc := hc ht hu
    cases backwards
    · exact (mem_stepFrom_inverse hs huc ht).mpr hu
    · exact (mem_stepFrom_inverse hs ht huc).mp hu
  | inverse p ih => exact ih (!backwards) ht hu
  | seq p q ihp ihq =>
    rw [reach] at hu ⊢
    cases backwards
    all_goals
      simp only [Bool.not_false, Bool.not_true, if_true, Bool.false_eq_true, if_false,
        List.mem_eraseDups, List.mem_flatMap] at hu ⊢
      obtain ⟨m, hm, hu⟩ := hu
    · exact ⟨m, ihq false (hc ht hm) hu, ihp false ht hm⟩
    · exact ⟨m, ihp true (hc ht hm) hu, ihq true ht hm⟩
  | alt p q ihp ihq =>
    rw [reach, List.mem_eraseDups, List.mem_append] at hu ⊢
    exact hu.imp (ihp backwards ht ·) (ihq backwards ht ·)
  | zeroOrOne p ih =>
    rw [reach, List.mem_eraseDups, List.mem_cons] at hu ⊢
    exact hu.imp Eq.symm (ih backwards ht ·)
  | zeroOrMore p ih =>
    rw [mem_reach_zeroOrMore hs] at hu ⊢
    -- each step of the closure leads back, so the whole way does, from its end
    have hback : Relation.ReflTransGen (Function.swap (Steps (s.reach g p !backwards))) t u :=
      (reflTransGen_of_on (hsteps (ih backwards)) ht hu).1
    exact Relation.reflTransGen_swap.mp hback
  | oneOrMore p ih =>
    rw [mem_reach_oneOrMore hs] at hu ⊢
    have hback : Relation.TransGen (Function.swap (Steps (s.reach g p !backwards))) t u :=
      (transGen_of_on (hsteps (ih backwards)) ht hu).1
    exact Relation.transGen_swap.mp hback

theorem mem_reach_iff_back (hs : s.store.Valid) (ht : t.IsCanonical) (hu : u.IsCanonical) :
    u ∈ s.reach g p backwards t ↔ t ∈ s.reach g p (!backwards) u := by
  refine ⟨mem_reach_back hs p backwards ht, fun h => ?_⟩
  have hback := mem_reach_back hs p (!backwards) hu h
  rwa [Bool.not_not] at hback

/-- The reversed path is the converse: it leads from one node to another exactly if the path leads
from the other one to it, in any store and whatever graph is in force. Reversed twice, a path leads
to the same nodes in the same order, and a reversed step is a step that starts from the other end of
its edges. -/
theorem follow_reverse (entailment : Bool) (history : List Insertion) (options : Options)
    (hierarchical : Bool) (g : Ground) (p : Path) :
    let s : Source := ⟨.after entailment history, options, hierarchical⟩
    (∀ x y : Term, y.canonical ∈ s.follow g p x.canonical ↔
      x.canonical ∈ s.follow g p.reverse y.canonical) ∧
    s.follow g p.reverse.reverse = s.follow g p ∧
    (p.isStep = true → p.reverse.isStep = true ∧
      effectiveIndex p.reverse .subject = (effectiveIndex p .subject).reverse ∧
      effectiveIndex p.reverse .subject ≠ effectiveIndex p .subject) := by
  intro s
  have hs : s.store.Valid := (Store.contains_after entailment history).valid
  refine ⟨fun x y => ?_, ?_, fun hstep => ⟨Path.isStep_reverse hstep, ?_, ?_⟩⟩
  · rw [(follow_eq_reach p).1, (follow_eq_reach p).2]
    exact mem_reach_iff_back hs x.isCanonical_canonical y.isCanonical_canonical
  · rw [(follow_eq_reach p.reverse).2, reach_reverse, (follow_eq_reach p).1]
    rfl
  · exact Path.effectiveIndex_reverse hstep .subject
  · rw [Path.effectiveIndex_reverse hstep]
    rcases isEnd_effectiveIndex p with h | h <;> rw [h] <;> decide

theorem follow_reverse_of_step :
    let a : Term := .iri ⟨"a"⟩
    let b : Term := .iri ⟨"b"⟩
    let p : Path := .inverse (.predicate ⟨"p"⟩)
    let s : Source := ⟨.after false [.extend [⟨a, .iri ⟨"p"⟩, b, none⟩]], {}, false⟩
    let pattern : PathPattern := ⟨.const b, p, .const a⟩
    let q : Query := .ofParts { body := .path pattern }
    let g : Ground := ⟨q, .initial q, pattern⟩
    p.isStep = true ∧ a ∈ s.follow g p b ∧ b ∈ s.follow g p.reverse a ∧
      effectiveIndex p.reverse .subject ≠ effectiveIndex p .subject := by
  intro a b p s pattern q g
  obtain ⟨hconverse, -, hstep⟩ := follow_reverse false [.extend [⟨a, .iri ⟨"p"⟩, b, none⟩]] {} false
    g p
  have hab : a ∈ s.follow g p b := by
    rw [(follow_eq_reach p).1]
    decide
  exact ⟨rfl, hab, (hconverse b a).mp hab, (hstep rfl).2.2⟩

end Source

end GraphQuery
