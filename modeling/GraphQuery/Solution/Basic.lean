import GraphQuery.Term.Basic

/-! Solutions: the terms bound to the slots of a query, with the keys by which solutions are sorted
and grouped. The keys do not take part in comparing solutions. -/

namespace GraphQuery

structure Solution where
  slots : List (Option Term) := []
  orderKeys : List (Option Term) := []
  groupKeys : List (Option Term) := []

namespace Solution

instance : BEq Solution := ⟨fun a b => a.slots == b.slots⟩

/-- A solution that binds none of its slots. -/
def unbound (length : Nat) : Solution := { slots := List.replicate length none }

def get? (s : Solution) (slot : Nat) : Option Term := (s.slots[slot]?).join

/-- Sets a slot; a solution that is too short is filled up first. -/
def set (s : Solution) (slot : Nat) (t : Option Term) : Solution :=
  { s with slots := (s.slots ++ List.replicate (slot + 1 - s.slots.length) none).set slot t }

/-- Whether two solutions agree on every slot that both bind. -/
def compatible (a b : Solution) : Bool :=
  (a.slots.zip b.slots).all fun
    | (some t, some u) => t == u
    | _ => true

/-- Whether some slot is bound by both solutions. -/
def sharesSlot (a b : Solution) : Bool :=
  (a.slots.zip b.slots).any fun (t, u) => t.isSome && u.isSome

/-- The terms bound to some slots. -/
def restrict (s : Solution) (slots : List Nat) : List (Option Term) := slots.map s.get?

end Solution

end GraphQuery
