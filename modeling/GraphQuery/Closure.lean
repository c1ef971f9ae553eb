/-! What can be reached by repeated steps, in the order of discovery. -/

namespace GraphQuery

/-- Takes up to `n` rounds of steps from a frontier, as long as a round finds something new; what
has been found before comes first. -/
def closure {α : Type} [BEq α] (step : α → List α) : (n : Nat) → (found frontier : List α) → List α
  | 0, found, _ => found
  | n + 1, found, frontier =>
    match ((frontier.flatMap step).eraseDups).filter (!found.contains ·) with
    | [] => found
    | new => closure step n (found ++ new) new

end GraphQuery
