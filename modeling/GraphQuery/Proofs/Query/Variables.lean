import GraphQuery.Evaluate.Environment
import GraphQuery.Proofs.Query.Requests

/-! The variables of expressions and patterns, and local values in their places. What mentions no
variable with a local value stays as it is. -/

namespace GraphQuery

namespace Locals

/-- The local bindings of all other variables. -/
def without (l : Locals) (v : Variable) : Locals := l.filter (·.1 ≠ v)

theorem get_nil (v : Variable) : get? [] v = none := rfl

theorem get_without (l : Locals) (v w : Variable) :
    (l.without v).get? w = if w = v then none else l.get? w := by
  rw [get?, get?, without, ← List.filter_reverse, List.find?_filter]
  split
  next h =>
    subst h
    rw [Option.map_eq_none_iff, List.find?_eq_none]
    simp
  next h =>
    congr 2
    funext b
    by_cases hb : b.1 = w
    · simp [hb, h]
    · simp [hb]

theorem get_push (l : Locals) (v w : Variable) (t : Term) :
    (l.push v t).get? w = if v = w then some t else l.get? w := by
  by_cases h : v = w <;> simp [get?, push, h]

theorem get_append (l m : Locals) (v : Variable) :
    get? (l ++ m) v = (m.get? v).or (l.get? v) := by
  rw [get?, get?, get?, List.reverse_append, List.find?_append, Option.map_or]

theorem get_map (l : Locals) (f : Term → Term) (v : Variable) :
    get? (l.map fun b => (b.1, f b.2)) v = (l.get? v).map f := by
  rw [get?, get?, ← List.map_reverse, List.find?_map, Option.map_map, Option.map_map]
  rfl

theorem get_eq_none {l : Locals} {v : Variable} : l.get? v = none ↔ v ∉ l.map (·.1) := by
  rw [get?, Option.map_eq_none_iff, List.find?_eq_none, List.mem_map]
  exact ⟨fun h ⟨b, hb, hv⟩ => h b (List.mem_reverse.mpr hb) (beq_iff_eq.mpr hv),
    fun h b hb hv => h ⟨b, List.mem_reverse.mp hb, beq_iff_eq.mp hv⟩⟩

/-- A local value belongs to one of the bindings. -/
theorem mem_of_get {l : Locals} {v : Variable} {t : Term} (h : l.get? v = some t) :
    (v, t) ∈ l := by
  obtain ⟨⟨w, u⟩, hf, rfl⟩ := Option.map_eq_some_iff.mp h
  obtain rfl : w = v := by simpa using List.find?_some hf
  exact List.mem_reverse.mp (List.mem_of_find?_eq_some hf)

end Locals

/-! ### Expressions -/

namespace Expr

/-- An expression with constants as the local values of variables. -/
def enclose (l : Locals) (e : Expr) : Expr := l.foldr (fun b e => letIn b.1 (const b.2) e) e

/-- An expression with local values in the places of their variables. The argument of an aggregate
is read from the solutions of a group, where nothing is local. Patterns and functions that are asked
for are not part of the expression, so for them the values remain local. -/
def substitute : Expr → Locals → Expr
  | const t, _ => const t
  | var v, l => (l.get? v).elim (var v) const
  | and args, l => and (substituteAll args l)
  | or args, l => or (substituteAll args l)
  | not a, l => not (a.substitute l)
  | binary op a b, l => binary op (a.substitute l) (b.substitute l)
  | unary op a, l => unary op (a.substitute l)
  | member a list, l => member (a.substitute l) (substituteAll list l)
  | bound v, l => (l.get? v).elim (bound v) fun _ => const (.ofBool true)
  | coalesce args, l => coalesce (substituteAll args l)
  | cond test yes no, l => cond (test.substitute l) (yes.substitute l) (substituteOption no l)
  | letIn v value body, l => letIn v (value.substitute l) (body.substitute (l.without v))
  | existence id, l => enclose l (existence id)
  | aggregate f argument distinct, _ => aggregate f argument distinct
  | call f args, l => call f (substituteAll args l)
  | extension site name args, l => enclose l (extension site name (substituteAll args l))
  | system target, _ => system target
where
  substituteAll : List Expr → Locals → List Expr
    | [], _ => []
    | a :: as, l => a.substitute l :: substituteAll as l
  substituteOption : Option Expr → Locals → Option Expr
    | none, _ => none
    | some a, l => some (a.substitute l)

theorem forall₂_substituteAll {R : Expr → Expr → Prop} {as : List Expr} {l : Locals}
    (h : ∀ a ∈ as, R a (a.substitute l)) : List.Forall₂ R as (substitute.substituteAll as l) := by
  induction as with
  | nil => exact .nil
  | cons a as ih =>
    obtain ⟨ha, has⟩ := List.forall_mem_cons.mp h
    exact .cons ha (ih has)

theorem mem_listVariables {as : List Expr} {v : Variable} :
    v ∈ vars.listVariables as ↔ ∃ a ∈ as, v ∈ a.vars := by
  induction as with
  | nil => simp [vars.listVariables]
  | cons a as ih => simp [vars.listVariables, ih]

theorem mem_requests_letIn {v : Variable} {value body : Expr} {r : Request}
    (hr : r ∈ body.requests) : r ∈ (letIn v value body).requests := by
  rw [requests, if_neg (by simp [List.ne_nil_of_mem hr])]
  exact List.mem_append_right _ (List.mem_cons_of_mem _ hr)

/-- Nothing is replaced where no variable has a local value. -/
theorem substitute_eq_self (e : Expr) (l : Locals) (h : ∀ v ∈ e.vars, l.get? v = none)
    (hr : ∀ r ∈ e.requests, l = []) : e.substitute l = e := by
  have hall : ∀ as : List Expr, sizeOf as < sizeOf e →
      (∀ v ∈ vars.listVariables as, l.get? v = none) →
      (∀ r ∈ requests.listRequests as, l = []) → substitute.substituteAll as l = as := by
    intro as hsz hv hr
    have hsame : ∀ a ∈ as, a = a.substitute l := fun a hm =>
      have := List.sizeOf_lt_of_mem hm
      (substitute_eq_self a l (fun v hva => hv v (mem_listVariables.mpr ⟨a, hm, hva⟩))
        fun r hra => hr r (mem_listRequests.mpr ⟨a, hm, hra⟩)).symm
    exact (List.forall₂_eq_eq_eq ▸ forall₂_substituteAll hsame).symm
  cases e with
  | const | aggregate | system => rfl
  | existence id =>
    obtain rfl := hr _ List.mem_cons_self
    rfl
  | extension site name args =>
    obtain rfl := hr _ List.mem_cons_self
    rw [substitute, hall args (by simp) h fun _ _ => rfl]
    rfl
  | var v | bound v => rw [substitute, h v (by simp [vars]), Option.elim_none]
  | and args | or args | coalesce args | call f args => rw [substitute, hall args (by simp) h hr]
  | not a | unary op a => rw [substitute, substitute_eq_self a l h hr]
  | binary op a b =>
    obtain ⟨ha, hb⟩ := List.forall_mem_append.mp h
    obtain ⟨hra, hrb⟩ := List.forall_mem_append.mp hr
    rw [substitute, substitute_eq_self a l ha hra, substitute_eq_self b l hb hrb]
  | member a list =>
    obtain ⟨ha, hl⟩ := List.forall_mem_append.mp h
    obtain ⟨hra, hrl⟩ := List.forall_mem_append.mp hr
    rw [substitute, substitute_eq_self a l ha hra, hall list (by simp) hl hrl]
  | cond test yes no =>
    obtain ⟨hty, hn⟩ := List.forall_mem_append.mp h
    obtain ⟨ht, hy⟩ := List.forall_mem_append.mp hty
    obtain ⟨hrty, hrn⟩ := List.forall_mem_append.mp hr
    obtain ⟨hrt, hry⟩ := List.forall_mem_append.mp hrty
    rw [substitute, substitute_eq_self test l ht hrt, substitute_eq_self yes l hy hry]
    cases no with
    | none => rfl
    | some a => rw [substitute.substituteOption, substitute_eq_self a l hn hrn]
  | letIn v value body =>
    obtain ⟨hv, hb⟩ := List.forall_mem_append.mp h
    have hbody : ∀ w ∈ body.vars, (l.without v).get? w = none := fun w hw => by
      rw [Locals.get_without, hb w hw, ite_self]
    have hrbody : ∀ r ∈ body.requests, l.without v = [] := fun r hm => by
      rw [hr r (mem_requests_letIn hm)]
      rfl
    rw [substitute, substitute_eq_self value l hv (List.forall_mem_append.mp hr).1,
      substitute_eq_self body _ hbody hrbody]
termination_by sizeOf e

/-- Without local values nothing is replaced. -/
theorem substitute_nil (e : Expr) : e.substitute [] = e :=
  e.substitute_eq_self [] (fun v _ => Locals.get_nil v) fun _ _ => rfl

end Expr

/-! ### Patterns -/

/-- A place with the local value of its variable, if there is one. -/
def NodePattern.substitute (l : Locals) : NodePattern → NodePattern
  | var v => (l.get? v).elim (var v) const
  | const t => const t

def EdgePattern.substitute (l : Locals) (e : EdgePattern) : EdgePattern :=
  ⟨e.subject.substitute l, e.predicate.substitute l, e.object.substitute l⟩

def PathPattern.substitute (l : Locals) (p : PathPattern) : PathPattern :=
  ⟨p.subject.substitute l, p.path, p.object.substitute l⟩

/-- A pattern with local values in the places of their variables. -/
def Pattern.substitute (l : Locals) : Pattern → Pattern
  | edge e => edge (e.substitute l)
  | path p => path (p.substitute l)
  | sequence items => sequence (substituteAll l items)
  | optional left right condition =>
    optional (left.substitute l) (right.substitute l) (condition.map (·.substitute l))
  | union left right => union (left.substitute l) (right.substitute l)
  | minus left right => minus (left.substitute l) (right.substitute l)
  | filter e => filter (e.substitute l)
  | bind v e => bind v (e.substitute l)
  | graph name inner => graph (name.substitute l) (inner.substitute l)
  | values vs rows => values vs rows
where
  substituteAll (l : Locals) : List Pattern → List Pattern
    | [] => []
    | p :: ps => p.substitute l :: substituteAll l ps

section

variable {l : Locals} {v : Variable} {t : Term}

theorem NodePattern.forall_mem_vars {P : Variable → Prop} : (∀ w ∈ (var v).vars, P w) ↔ P v := by
  simp [vars, asVariable]

theorem NodePattern.eq_var_of_mem {n : NodePattern} (h : v ∈ n.vars) : n = var v := by
  cases n with
  | const t => cases h
  | var w => rw [List.mem_singleton.mp h]

theorem NodePattern.substitute_of_local (h : l.get? v = some t) :
    (var v).substitute l = const t := by
  rw [substitute, h, Option.elim_some]

theorem NodePattern.substitute_of_free (h : l.get? v = none) : (var v).substitute l = var v := by
  rw [substitute, h, Option.elim_none]

theorem NodePattern.substitute_eq_self {n : NodePattern} (h : ∀ v ∈ n.vars, l.get? v = none) :
    n.substitute l = n := by
  cases n with
  | const t => rfl
  | var v => exact substitute_of_free (h v (by simp [vars, asVariable]))

@[simp] theorem NodePattern.substitute_nil (n : NodePattern) : n.substitute [] = n :=
  substitute_eq_self fun v _ => Locals.get_nil v

end

namespace Pattern

variable {l : Locals}

theorem substituteAll_eq_map (ps : List Pattern) :
    substitute.substituteAll l ps = ps.map (substitute l) := by
  induction ps with
  | nil => rfl
  | cons p ps ih => rw [substitute.substituteAll, ih, List.map_cons]

theorem mem_listVariables {ps : List Pattern} {v : Variable} :
    v ∈ vars.listVariables ps ↔ ∃ p ∈ ps, v ∈ p.vars := by
  induction ps with
  | nil => simp [vars.listVariables]
  | cons p ps ih => simp [vars.listVariables, ih]

theorem listContainsPath_iff {ps : List Pattern} :
    containsPath.listContainsPath ps = true ↔ ∃ p ∈ ps, p.containsPath = true := by
  induction ps with
  | nil => simp [containsPath.listContainsPath]
  | cons p ps ih => simp [containsPath.listContainsPath, ih]

theorem substitute_eq_self (p : Pattern) (h : ∀ v ∈ p.vars, l.get? v = none)
    (hr : ∀ r ∈ p.requests, l = []) : p.substitute l = p := by
  cases p with
  | edge e =>
    obtain ⟨hsp, ho⟩ := List.forall_mem_append.mp h
    obtain ⟨hs, hp⟩ := List.forall_mem_append.mp hsp
    simp only [substitute, EdgePattern.substitute, NodePattern.substitute_eq_self hs,
      NodePattern.substitute_eq_self hp, NodePattern.substitute_eq_self ho]
  | path p =>
    obtain ⟨hs, ho⟩ := List.forall_mem_append.mp h
    simp only [substitute, PathPattern.substitute, NodePattern.substitute_eq_self hs,
      NodePattern.substitute_eq_self ho]
  | sequence items =>
    have hitems : ∀ p ∈ items, p.substitute l = id p := fun p hm =>
      have := List.sizeOf_lt_of_mem hm
      substitute_eq_self p (fun v hv => h v (mem_listVariables.mpr ⟨p, hm, hv⟩))
        fun r hrp => hr r (mem_listRequests.mpr ⟨p, hm, hrp⟩)
    rw [substitute, substituteAll_eq_map, List.map_congr_left hitems, List.map_id]
  | optional left right condition =>
    obtain ⟨hlr, hc⟩ := List.forall_mem_append.mp h
    obtain ⟨hl, hr'⟩ := List.forall_mem_append.mp hlr
    obtain ⟨hrlr, hrc⟩ := List.forall_mem_append.mp hr
    obtain ⟨hrl, hrr⟩ := List.forall_mem_append.mp hrlr
    rw [substitute, substitute_eq_self left hl hrl, substitute_eq_self right hr' hrr]
    cases condition with
    | none => rfl
    | some e => rw [Option.map_some, e.substitute_eq_self l hc hrc]
  | union left right | minus left right =>
    obtain ⟨hl, hr'⟩ := List.forall_mem_append.mp h
    obtain ⟨hrl, hrr⟩ := List.forall_mem_append.mp hr
    rw [substitute, substitute_eq_self left hl hrl, substitute_eq_self right hr' hrr]
  | filter e => rw [substitute, e.substitute_eq_self l h hr]
  | bind v e => rw [substitute, e.substitute_eq_self l (List.forall_mem_append.mp h).1 hr]
  | graph name inner =>
    obtain ⟨hn, hi⟩ := List.forall_mem_append.mp h
    rw [substitute, NodePattern.substitute_eq_self hn, substitute_eq_self inner hi hr]
  | values => rfl
termination_by sizeOf p

/-- Without local values nothing is replaced. -/
theorem substitute_nil (p : Pattern) : p.substitute [] = p :=
  p.substitute_eq_self (fun v _ => Locals.get_nil v) fun _ _ => rfl

theorem containsPath_substitute (p : Pattern) : (p.substitute l).containsPath = p.containsPath := by
  cases p with
  | edge | path | filter | bind | values => rfl
  | sequence items =>
    have hmem : (∃ p' ∈ items.map (substitute l), p'.containsPath = true) ↔
        ∃ p ∈ items, p.containsPath = true := by
      simp only [List.mem_map, exists_exists_and_eq_and]
      refine exists_congr fun p => and_congr_right fun hm => ?_
      have := List.sizeOf_lt_of_mem hm
      rw [containsPath_substitute p]
    rw [substitute, containsPath, containsPath, Bool.eq_iff_iff, listContainsPath_iff,
      listContainsPath_iff, substituteAll_eq_map, hmem]
  | optional left right condition =>
    rw [substitute, containsPath, containsPath, containsPath_substitute left,
      containsPath_substitute right]
  | union left right | minus left right =>
    rw [substitute, containsPath, containsPath, containsPath_substitute left,
      containsPath_substitute right]
  | graph name inner => exact containsPath_substitute inner
termination_by sizeOf p

end Pattern

end GraphQuery
