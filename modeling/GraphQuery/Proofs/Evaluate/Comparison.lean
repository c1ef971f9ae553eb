import GraphQuery.Proofs.Evaluate.Trail

/-! Two evaluations of a query side by side, on two stores and over two lists of graphs. Traces may be
compared in any way that the ways of putting traces together keep. If edges, paths and graphs compare
wherever they are come to, then so does all that patterns hand on, and what is asked for on the way
is answered alike. -/

namespace GraphQuery

/-- A comparison of traces of environments that disregards the ways on which these are reached and is
kept by all that patterns make of traces. Runs that traces depend on are related by `R`. -/
structure Trace.Comparison (R : ∀ α : Type, Run α → Run α → Prop)
    (T : Trace Environment → Trace Environment → Prop) : Prop where
  runs : Run.Congruence R
  refl : ∀ {α : Type} (r : Run α), R α r r
  stop : T .stop .stop
  fail : ∀ e, T (.fail e) (.fail e)
  single : ∀ {a b : Environment}, a.withoutTrail = b.withoutTrail → T (.single a) (.single b)
  append : ∀ {t t' u u'}, T t t' → T u u' → T (t.append u) (t'.append u')
  bind : ∀ {t t'} {f f' : Environment → Trace Environment}, T t t' →
    (∀ a ∈ t.items, ∀ b ∈ t'.items, a.withoutTrail = b.withoutTrail → T (f a) (f' b)) →
      T (t.bind f) (t'.bind f')
  orElse : ∀ {t t'} {a b : Environment}, T t t' → a.withoutTrail = b.withoutTrail →
    T (t.orElse a) (t'.orElse b)
  ofMap : ∀ {β : Type} {r r' : Run β} {f f' : β → Trace Environment}, R β r r' →
    (∀ x, r.outcome = .ok x → r'.outcome = .ok x → T (f x) (f' x)) →
      T (.ofRun (f <$> r)) (.ofRun (f' <$> r'))
  drain : ∀ {t t'}, T t t' → R Unit t.drain t'.drain
  any : ∀ {t t'}, T t t' → t.drain.outcome = .ok () → t'.drain.outcome = .ok () →
    ∀ P : Environment → Bool, (∀ a, P a.withoutTrail = P a) → t.items.any P = t'.items.any P
  first : ∀ {t t'}, T t t' →
    R Bool (t.run (fun _ _ => pure (.done true)) false >>= fun found => pure found.value)
      (t'.run (fun _ _ => pure (.done true)) false >>= fun found => pure found.value)

namespace Trace.Comparison

variable {R : ∀ α : Type, Run α → Run α → Prop} {T : Trace Environment → Trace Environment → Prop}
  {a b : Environment}

section

variable (hT : Trace.Comparison R T)

include hT

theorem ofBinding {x x' : Except QueryError (Option Environment)}
    (h : x.map (Option.map Environment.withoutTrail) = x'.map (Option.map Environment.withoutTrail)) :
    T (.ofBinding x) (.ofBinding x') := by
  cases Environment.alike_of_map h with
  | error e => exact hT.fail e
  | none => exact hT.stop
  | some hab => exact hT.single hab

theorem bindings {x x' : Except QueryError (Option Environment)}
    (h : x.map (Option.map Environment.withoutTrail) = x'.map (Option.map Environment.withoutTrail))
    (i i' : Nat) : T (.ofBinding (x.map (·.map (·.choose i))))
      (.ofBinding (x'.map (·.map (·.choose i')))) := by
  refine hT.ofBinding (Eq.trans (Eq.trans ?_ h) ?_)
  · rcases x with e | _ | a <;> rfl
  · rcases x' with e | _ | a <;> rfl

theorem bind? (q : Query) (v : Variable) (t : Term) (hab : a.withoutTrail = b.withoutTrail) :
    T (.ofBinding (a.bind? q v t)) (.ofBinding (b.bind? q v t)) := by
  refine hT.ofBinding ?_
  rw [← Context.bind_withoutTrail, ← Context.bind_withoutTrail, hab]

theorem keepIf (hab : a.withoutTrail = b.withoutTrail) (holds : Bool) :
    T (Pattern.keepIf a holds) (Pattern.keepIf b holds) := by
  cases holds
  · exact hT.stop
  · exact hT.single hab

/-- Visiting the members of one list. -/
theorem visit {β : Type} {bs : List β} {f f' : Nat → β → Trace Environment}
    (h : ∀ i i', ∀ b ∈ bs, T (f i b) (f' i' b)) (i i' : Nat) :
    T (.visit f i bs) (.visit f' i' bs) := by
  induction bs generalizing i i' with
  | nil => exact hT.stop
  | cons b bs ih =>
    exact hT.append (h i i' b List.mem_cons_self)
      (ih (fun i i' b hb => h i i' b (List.mem_cons_of_mem _ hb)) (i + 1) (i' + 1))

end

end Trace.Comparison

namespace Context

variable {c : Context} {s : Source} {d n : List Term}

/-- The same evaluation on another store and over other graphs. -/
def alongside (c : Context) (s : Source) (fromDefault fromNamed : List Term) : Context :=
  { c.toScope.restrictedTo fromDefault fromNamed with source := s }

theorem bindRow_alongside (row : List (Variable × Option Term)) (env : Environment) :
    (c.alongside s d n).bindRow row env = c.bindRow row env := by
  induction row generalizing env with
  | nil => rfl
  | cons cell row ih =>
    obtain ⟨v, _ | t⟩ := cell
    · exact ih env
    · simp only [bindRow, ih]
      rfl

/-! ### Paths -/

section Paths

variable {R : ∀ α : Type, Run α → Run α → Prop} {T : Trace Environment → Trace Environment → Prop}
  {a b : Environment}

theorem compare_ends (hT : Trace.Comparison R T) (target : NodePattern) (reached : List Term)
    (hab : a.withoutTrail = b.withoutTrail) :
    T (c.traceEnds target reached a) ((c.alongside s d n).traceEnds target reached b) := by
  refine hT.visit (fun i i' t _ => ?_) 0 0
  cases target with
  | const u =>
    dsimp only
    split_ifs
    · exact hT.single hab
    · exact hT.stop
  | var v => exact hT.bind? c.query v t hab

/-- Paths compare if they are walked from the same starts to the same ends. -/
theorem compare_path (hT : Trace.Comparison R T) {p : PathPattern}
    (hwalk : (c.alongside s d n).walk p a = c.walk p a)
    (hreach : ∀ m, s.reach ⟨c.query.restrictedTo d n, m, p⟩ p.path =
      c.source.reach ⟨c.query, m, p⟩ p.path) (hab : a.withoutTrail = b.withoutTrail) :
    T (c.tracePath p a) ((c.alongside s d n).tracePath p b) := by
  obtain ⟨trail, rfl⟩ := Environment.exists_trail hab
  have hwalk' : (c.alongside s d n).walk p { a with trail } = c.walk p a := hwalk
  unfold tracePath
  rw [hwalk']
  refine hT.visit (fun i i' t _ => hT.bind (hT.ofBinding ?_) fun m _ m' _ hmm' => ?_) 0 0
  · change (c.bindStart _ t (a.choose i)).map _ = (c.bindStart _ t ({ a with trail }.choose i')).map _
    rw [← bindStart_withoutTrail, ← bindStart_withoutTrail]
    rfl
  · have hsame : s.reach ⟨c.query.restrictedTo d n, m', p⟩ p.path =
        c.source.reach ⟨c.query, m, p⟩ p.path := by
      rw [hreach]
      funext backwards
      rw [← reach_withoutTrail, ← hmm', reach_withoutTrail]
    change T _ ((c.alongside s d n).traceEnds _
      (s.reach ⟨c.query.restrictedTo d n, m', p⟩ p.path _ t) m')
    rw [hsame]
    exact compare_ends hT _ _ hmm'

end Paths

/-! ### Patterns -/

/-- Whether a property of patterns and environments passes on to the parts of a pattern in the
environments that they are solved in, where the setting is one of `K`. -/
structure PassesOn (c : Context) (K : Setting) (I : Pattern → Environment → Prop) : Prop where
  setting : ∀ {p a}, I p a → K.At a
  kept : ∀ {p a}, I p a → ∀ h, ∀ m ∈ (p.trace c h a).items, K.At m
  choose : ∀ {p a}, I p a → ∀ i, I p (a.choose i)
  head : ∀ {p ps a}, I (.sequence (p :: ps)) a → I p a
  tail : ∀ {p ps a}, I (.sequence (p :: ps)) a →
    ∀ h, ∀ m ∈ (p.trace c h a).items, I (.sequence ps) m
  left : ∀ {l r x a}, I (.optional l r x) a → I l a
  right : ∀ {l r x a}, I (.optional l r x) a → ∀ h, ∀ m ∈ (l.trace c h a).items, I r m
  union : ∀ {l r a}, I (.union l r) a → I l a ∧ I r a
  minus : ∀ {l r a}, I (.minus l r) a → I l a ∧ I r (Pattern.apart c a)
  inside : ∀ {g p a}, I (.graph g p) a → I p (a.under (some g))
  within : ∀ {v p a}, I (.graph (.var v) p) a → ∀ i t m,
    ((a.under (some (.var v))).choose i).bind? c.query v t = .ok (some m) → I p m

/-- What passes on without anything to know. -/
theorem passesOn_any (c : Context) : c.PassesOn .any fun _ _ => True where
  setting _ := trivial
  kept _ _ _ _ := trivial
  choose _ _ := trivial
  head _ := trivial
  tail _ _ _ _ := trivial
  left _ := trivial
  right _ _ _ _ := trivial
  union _ := ⟨trivial, trivial⟩
  minus _ := ⟨trivial, trivial⟩
  inside _ := trivial
  within _ _ _ _ _ := trivial

/-- Whether edges, paths and graphs compare wherever a property holds that passes on. -/
structure Compares (T : Trace Environment → Trace Environment → Prop) (c : Context) (s : Source)
    (d n : List Term) (K : Setting) (I : Pattern → Environment → Prop) : Prop
    extends c.PassesOn K I where
  edge : ∀ {e a b}, I (.edge e) a → a.withoutTrail = b.withoutTrail → ∀ h h',
    T ((Pattern.edge e).trace c h a) ((Pattern.edge e).trace (c.alongside s d n) h' b)
  path : ∀ {p a b}, I (.path p) a → a.withoutTrail = b.withoutTrail →
    T (c.tracePath p a) ((c.alongside s d n).tracePath p b)
  graphs : ∀ {v p a} {f f' : Nat → Node → Trace Environment}, I (.graph (.var v) p) a →
    (∀ i i' g g', g.term = g'.term → T (f i g) (f' i' g')) →
      T (.visit f 0 (c.source.namedGraphs c.query.fromNamed)) (.visit f' 0 (s.namedGraphs n))

end Context

section

variable {R : ∀ α : Type, Run α → Run α → Prop} {T : Trace Environment → Trace Environment → Prop}
  {c : Context} {s : Source} {d n : List Term} {K : Setting} {A : Request → Prop} {h h' : Hooks}
  {I : Pattern → Environment → Prop} {a b : Environment}

theorem Expr.related_test (hR : Run.Congruence R) (hrefl : ∀ {α : Type} (r : Run α), R α r r)
    (hh : Hooks.RelatedUpToTrail R K c.toScope A h h') {e : Expr} (he : ∀ r ∈ e.requests, A r)
    (hab : a.withoutTrail = b.withoutTrail) (hk : K.At a) :
    R Bool (e.test c.toScope h a) (e.test (c.alongside s d n).toScope h' b) :=
  hR.bind (hh.eval hR hrefl he hab hk) fun _ _ => hR.pure _

namespace Pattern

theorem compare_traceAll (hT : Trace.Comparison R T) (ha : c.Compares T s d n K I)
    {ps : List Pattern}
    (hps : ∀ p ∈ ps, ∀ {a b : Environment}, a.withoutTrail = b.withoutTrail → I p a →
      T (p.trace c h a) (p.trace (c.alongside s d n) h' b))
    {a b : Environment} (hab : a.withoutTrail = b.withoutTrail) (hi : I (.sequence ps) a) :
    T (trace.traceAll c h ps a) (trace.traceAll (c.alongside s d n) h' ps b) := by
  induction ps generalizing a b with
  | nil =>
    rw [trace.traceAll, trace.traceAll]
    exact hT.single hab
  | cons p ps ih =>
    obtain ⟨hp, hps⟩ := List.forall_mem_cons.mp hps
    rw [trace.traceAll, trace.traceAll]
    exact hT.bind (hp hab (ha.head hi)) fun m hm m' _ hmm' => ih hps hmm' (ha.tail hi h m hm)

/-- What a pattern hands on compares in both evaluations, wherever its parts do. -/
theorem compare_trace (hT : Trace.Comparison R T) (ha : c.Compares T s d n K I)
    (hh : Hooks.RelatedUpToTrail R K c.toScope A h h') (p : Pattern) (hp : ∀ r ∈ p.requests, A r)
    {a b : Environment} (hab : a.withoutTrail = b.withoutTrail) (hi : I p a) :
    T (p.trace c h a) (p.trace (c.alongside s d n) h' b) := by
  have hchoose : ∀ i, (a.choose i).withoutTrail = (b.choose i).withoutTrail := fun _ => hab
  cases p with
  | edge e => exact ha.edge hi hab h h'
  | path p =>
    rw [trace, trace]
    exact ha.path hi hab
  | sequence items =>
    rw [trace, trace]
    refine compare_traceAll hT ha (fun p hm a b hab hi => ?_) hab hi
    have := List.sizeOf_lt_of_mem hm
    exact compare_trace hT ha hh p (fun r hr => hp r (mem_listRequests.mpr ⟨p, hm, hr⟩)) hab hi
  | optional left right condition =>
    simp only [requests, List.mem_append] at hp
    rw [trace, trace]
    refine hT.bind (compare_trace hT ha hh left (fun r hr => hp r (.inl (.inl hr))) hab
      (ha.left hi)) fun m hm m' _ hmm' => hT.orElse ?_ hmm'
    have hmatched : I right (m.choose 0) := ha.choose (ha.right hi h m hm) 0
    have hright : T (right.trace c h (m.choose 0))
        (right.trace (c.alongside s d n) h' (m'.choose 0)) :=
      compare_trace hT ha hh right (fun r hr => hp r (.inl (.inr hr))) hmm' hmatched
    refine hT.bind hright fun o ho o' _ hoo' => hT.ofMap ?_ fun holds _ _ => hT.keepIf hoo' holds
    cases condition with
    | none => exact hT.refl _
    | some e =>
      exact Expr.related_test hT.runs hT.refl hh (fun r hr => hp r (.inr hr)) hoo'
        (ha.kept hmatched h o ho)
  | union left right =>
    simp only [requests, List.mem_append] at hp
    obtain ⟨hleft, hright⟩ := ha.union hi
    rw [trace, trace]
    have hl := compare_trace hT ha hh left (fun r hr => hp r (.inl hr)) (hchoose 0)
      (ha.choose hleft 0)
    have hr := compare_trace hT ha hh right (fun r hr => hp r (.inr hr)) (hchoose 1)
      (ha.choose hright 1)
    exact hT.append hl hr
  | minus left right =>
    simp only [requests, List.mem_append] at hp
    obtain ⟨hl, hr⟩ := ha.minus hi
    have hapart : (apart c a).withoutTrail = (apart (c.alongside s d n) b).withoutTrail :=
      Environment.eq_of_withoutTrail (fun e => (apart c e).withoutTrail) (fun _ => rfl) hab
    have hright := compare_trace hT ha hh right (fun r hr => hp r (.inr hr)) hapart hr
    have hleft := compare_trace hT ha hh left (fun r hr => hp r (.inl hr)) (hchoose 1)
      (ha.choose hl 1)
    rw [trace, trace]
    refine hT.ofMap (hT.drain hright) fun _ hdrain hdrain' =>
      hT.bind hleft fun m _ m' _ hmm' => ?_
    have hsolution : m.solution = m'.solution :=
      Environment.eq_of_withoutTrail (·.solution) (fun _ => rfl) hmm'
    rw [hsolution, hT.any hright hdrain hdrain' (fun other =>
      m'.solution.sharesSlot other.solution && m'.solution.compatible other.solution) fun _ => rfl]
    exact hT.keepIf hmm' _
  | filter e =>
    rw [trace, trace]
    exact hT.ofMap (Expr.related_test hT.runs hT.refl hh hp (hchoose 0)
      (ha.setting (ha.choose hi 0))) fun holds _ _ => hT.keepIf (hchoose 1) holds
  | bind v e =>
    rw [trace, trace]
    refine hT.ofMap (hh.eval hT.runs hT.refl hp (hchoose 0) (ha.setting (ha.choose hi 0)))
      fun t _ _ => ?_
    cases t with
    | none => exact hT.single hab
    | some t => exact hT.bind? c.query v t.canonical (hchoose 1)
  | graph name inner =>
    have hin : ∀ {m m' : Environment}, m.withoutTrail = m'.withoutTrail → I inner m →
        T (inner.trace c h m) (inner.trace (c.alongside s d n) h' m') :=
      fun hmm' hm => compare_trace hT ha hh inner hp hmm' hm
    have hinside : (a.under (some name)).withoutTrail = (b.under (some name)).withoutTrail :=
      congrArg (fun e : Environment => { e with graph := some name }) hab
    cases name with
    | const t =>
      rw [trace, trace]
      exact hin hinside (ha.inside hi)
    | var v =>
      have hget : a.get? c.query v = b.get? (c.alongside s d n).query v :=
        Environment.eq_of_withoutTrail (·.get? c.query v) (fun _ => rfl) hab
      rw [trace, trace, hget]
      split_ifs
      · refine ha.graphs hi fun i i' g g' hg => ?_
        have hbind : T
            (.ofBinding (((a.under (some (.var v))).choose i).bind? c.query v g.term))
            (.ofBinding (((b.under (some (.var v))).choose i').bind? c.query v g'.term)) :=
          hg ▸ hT.bind? c.query v g.term hinside
        exact hT.bind hbind fun m hm m' _ hmm' =>
          hin hmm' (ha.within hi i g.term m (Trace.mem_of_ofBinding hm))
      · exact hin hinside (ha.inside hi)
  | values vs rows =>
    rw [trace, trace]
    refine hT.visit (fun i i' row _ => hT.bindings ?_ i i') 0 0
    rw [Context.bindRow_alongside, ← Context.bindRow_withoutTrail, ← Context.bindRow_withoutTrail,
      hab]
termination_by sizeOf p

end Pattern

end

/-! ### References -/

/-- What some requests lead to, through the patterns and the definitions that are found. -/
inductive Scope.Reaches (c : Scope) (start : List Request) : Request → Prop
  | start {r : Request} (hr : r ∈ start) : Reaches c start r
  | existence {id : Nat} {p : Pattern} {r : Request} (h : Reaches c start (.existence id))
    (hp : c.query.pattern? id = some p) (hr : r ∈ p.requests) : Reaches c start r
  | call {site count : Nat} {name : Iri} {d : Definition} {r : Request}
    (h : Reaches c start (.call site name count)) (hd : c.finds site name count = some d)
    (hr : r ∈ d.body.requests) : Reaches c start r

theorem Scope.closed_reaches (c : Scope) (start : List Request) : c.Closed (c.Reaches start) :=
  ⟨fun ha hp _ hm => .existence ha hp hm, fun ha hd _ hm => .call ha hd hm⟩

theorem Scope.ComesTo.of_reaches {c : Scope} {start : List Request} {r : Request}
    (hs : ∀ r ∈ start, r ∈ c.query.requests) (h : c.Reaches start r) : c.ComesTo r := by
  induction h with
  | start hr => exact .query (hs _ hr)
  | existence _ hp hr ih => exact .existence ih hp hr
  | call _ hd hr ih => exact .call ih hd hr

namespace Context

variable {R : ∀ α : Type, Run α → Run α → Prop} {T : Trace Environment → Trace Environment → Prop}
  {c : Context} {s : Source} {d n : List Term} {K : Setting} {start : List Request}
  {I : Pattern → Environment → Prop}

/-- However deep the references go. -/
theorem hooks_compare (hT : Trace.Comparison R T) (ha : c.Compares T s d n K I)
    (hsystem : ∀ target, ¬ c.Reaches start (.snapshot target))
    (hpatterns : ∀ {id p}, c.Reaches start (.existence id) → c.query.pattern? id = some p →
      ∀ {a}, K.At a → I p (a.restored c.query)) (depth : Nat) :
    Hooks.RelatedUpToTrail R K c.toScope (c.Reaches start) (c.hooks depth)
      ((c.alongside s d n).hooks depth) := by
  induction depth with
  | zero => exact ⟨hsystem, fun _ _ _ _ _ _ => hT.refl _, fun _ _ _ _ _ _ => hT.refl _⟩
  | succ depth ih =>
    refine ⟨hsystem, fun {id p} hr hp a b hab hk => ?_,
      fun {site name count f} hr hf a b hab hk => ?_⟩
    · rw [hasSolution_eq, hasSolution_eq, Pattern.solve_eq_run, Pattern.solve_eq_run]
      exact hT.first (Pattern.compare_trace hT ha ih p (fun r hm => .existence hr hp hm)
        (Environment.restored_upToTrail c.query hab) (hpatterns hr hp hk))
    · exact ih.eval hT.runs hT.refl (fun r hm => .call hr hf hm) hab hk

/-! ### Columns -/

/-- The columns of a row do not depend on its place. -/
theorem related_selectFrom (hR : Run.Congruence R) (hrefl : ∀ {α : Type} (r : Run α), R α r r)
    (row row' i : Nat) {items : List SelectItem}
    (hi : ∀ item ∈ items, ∀ (stage : Stage) (row row' i : Nat) (r : Solution),
      R (Option Term) (c.evaluate item.expr (rowEnvironment stage row i r none))
        ((c.alongside s d n).evaluate item.expr (rowEnvironment stage row' i r none)))
    (r : Solution) :
    R (Option Solution) (c.selectFrom none row i items r)
      ((c.alongside s d n).selectFrom none row' i items r) := by
  induction items generalizing i r with
  | nil => exact hR.pure _
  | cons item items ih =>
    obtain ⟨hitem, hitems⟩ := List.forall_mem_cons.mp hi
    have hslot : (c.alongside s d n).query.slot? item.target = c.query.slot? item.target := rfl
    rw [selectFrom, selectFrom, hslot]
    by_cases hskip : ((none : Option (List Solution)).isNone && item.isAggregate) = true
    · rw [if_pos hskip, if_pos hskip]
      exact ih (i + 1) hitems r
    · rw [if_neg hskip, if_neg hskip]
      cases c.query.slot? item.target with
      | none => exact hrefl _
      | some slot =>
        refine hR.bind (hitem _ row row' i r) fun t _ => ?_
        cases t.map Term.canonical with
        | none => exact ih (i + 1) hitems r
        | some t =>
          dsimp only
          cases r.get? slot with
          | none => exact ih (i + 1) hitems _
          | some current =>
            dsimp only
            split_ifs
            · exact ih (i + 1) hitems r
            · exact hR.pure _

end Context

end GraphQuery
