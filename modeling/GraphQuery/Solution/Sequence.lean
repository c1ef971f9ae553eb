import GraphQuery.Query.Basic
import GraphQuery.Solution.Basic

/-! Sequences of solutions. A distinct sequence remembers the projections of what was submitted
to it, and refuses what projects to the same. -/

namespace GraphQuery

/-- Inserts behind everything that is not greater, into a list that is sorted backwards. -/
def insertSorted {α : Type} (order : α → α → Ordering) (a : α) : List α → List α
  | [] => [a]
  | b :: bs => if order a b = .lt then b :: insertSorted order a bs else a :: b :: bs

/-- Sorts and keeps the order of what compares equal. -/
def stableSort {α : Type} (order : α → α → Ordering) (as : List α) : List α :=
  (as.foldl (fun sorted a => insertSorted order a sorted) []).reverse

structure Solutions where
  vars : List Variable
  /-- The slots of the projected variables. -/
  projection : List Nat
  distinct : Bool
  rows : List Solution := []
  seen : List (List (Option Term)) := []

namespace Solutions

/-- The empty sequence for the solutions of a query. -/
def ofQuery (q : Query) : Solutions :=
  { vars := q.vars, projection := q.projectedSlots, distinct := q.distinct }

/-- Appends a solution whatever was submitted before. -/
def add (s : Solutions) (row : Solution) : Solutions := { s with rows := s.rows ++ [row] }

/-- Appends a solution unless it is refused; the second component tells which. -/
def submit (s : Solutions) (row : Solution) : Solutions × Bool :=
  if s.distinct then
    let key := row.restrict s.projection
    if s.seen.contains key then (s, false)
    else ({ s with rows := s.rows ++ [row], seen := key :: s.seen }, true)
  else (s.add row, true)

/-- Removes all solutions and forgets what was submitted. -/
def clear (s : Solutions) : Solutions := { s with rows := [], seen := [] }

def submitAll (s : Solutions) (rows : List Solution) : Solutions :=
  rows.foldl (fun s row => (s.submit row).1) s

/-- Submits all solutions again, which keeps the first of those with the same projection. -/
def resubmit (s : Solutions) : Solutions := s.clear.submitAll s.rows

def projected (s : Solutions) : List Variable := s.projection.filterMap (s.vars[·]?)

def value? (s : Solutions) (row : Nat) (v : Variable) : Option Term := do
  (← s.rows[row]?).get? (← s.vars.idxOf? v)

def sortBy (s : Solutions) (order : Solution → Solution → Ordering) : Solutions :=
  { s with rows := stableSort order s.rows }

/-- Keeps at most `limit` solutions after the first `offset` ones. -/
def slice (s : Solutions) (offset : Nat) (limit : Option Nat) : Solutions :=
  let rest := s.rows.drop offset
  { s with rows := (limit.map rest.take).getD rest }

/-- The projected variables and their values, row by row. -/
def table (s : Solutions) : String :=
  let line (cells : List String) := "|" ++ String.join (cells.map fun cell => " " ++ cell ++ " |")
  let row (r : Solution) :=
    line ((r.restrict s.projection).map fun t => (t.map Term.render).getD "")
  "\n".intercalate (line (s.projected.map Variable.render) :: s.rows.map row)

end Solutions

end GraphQuery
