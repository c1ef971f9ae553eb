import GraphQuery.Query.Error
import GraphQuery.Query.Function

/-! Runs of an evaluation: a result or an error, together with the events on the way. What happens
after an event does not depend on it. -/

namespace GraphQuery

inductive Event where
  /-- It was found out whether a registered pattern has a solution. -/
  | existence (pattern : Nat) (holds : Bool)
  /-- A call site found its definition. -/
  | resolved (site : Nat) (d : Definition)

structure Run (α : Type) where
  events : List Event
  outcome : Except QueryError α

namespace Run

variable {α β σ : Type}

/-- The events of the first run come first; there is no second run after an error. -/
def andThen (r : Run α) (f : α → Run β) : Run β :=
  match r.outcome with
  | .error e => ⟨r.events, .error e⟩
  | .ok a => ⟨r.events ++ (f a).events, (f a).outcome⟩

instance : Monad Run where
  pure a := ⟨[], .ok a⟩
  bind := andThen

def fail (e : QueryError) : Run α := ⟨[], .error e⟩

def ofExcept (x : Except QueryError α) : Run α := ⟨[], x⟩

def emit (e : Event) : Run Unit := ⟨[e], .ok ()⟩

/-- Goes through a list until a step asks to stop; each member comes with its place. -/
def visit (f : Nat → α → σ → Run (ForInStep σ)) : Nat → List α → σ → Run (ForInStep σ)
  | _, [], s => pure (.yield s)
  | i, a :: as, s => do
    match ← f i a s with
    | .done s => pure (.done s)
    | .yield s => visit f (i + 1) as s

/-- Maps a list; each member comes with its place. -/
def mapIdx (f : Nat → α → Run β) : Nat → List α → Run (List β)
  | _, [] => pure []
  | i, a :: as => do
    let b ← f i a
    let bs ← mapIdx f (i + 1) as
    pure (b :: bs)

end Run

/-- Whether a registered pattern has a solution, as far as the events tell. -/
def Event.existence? : Event → Option (Nat × Bool)
  | existence pattern holds => some (pattern, holds)
  | resolved _ _ => none

/-- Adds the definitions that call sites found. -/
def Remembered.addEvents (r : Remembered) (events : List Event) : Remembered :=
  events.foldl (fun r e => match e with
    | .resolved site d => r.remember site d
    | .existence _ _ => r) r

end GraphQuery
