import GraphQuery.Text.CaseTable
import GraphQuery.Text.ClassTable

/-! Upper and lower case of texts in all scripts. A character may become several, and sigma at
the end of a word has a lower case of its own. -/

namespace GraphQuery

namespace CharClass

/-- Whether a number lies in one of the ranges. -/
def holds (ranges : List (Nat × Nat)) (n : Nat) : Bool := ranges.any fun (a, b) => a ≤ n && n ≤ b

def isDigit (c : Char) : Bool := holds ClassTable.digit c.toNat

def isSpace (c : Char) : Bool := holds ClassTable.space c.toNat

def isWord (c : Char) : Bool := holds ClassTable.word c.toNat

end CharClass

namespace Case

/-- The number that a table of runs assigns to `n`. -/
def mapped? (table : List (Nat × Nat × Nat × Int)) (n : Nat) : Option Nat :=
  table.findSome? fun (first, last, step, distance) =>
    if first ≤ n && n ≤ last && (n - first) % step == 0 then some (n + distance).toNat else none

def mapChar (table : List (Nat × Nat × Nat × Int)) (c : Char) : Char :=
  match mapped? table c.toNat with
  | some n => Char.ofNat n
  | none => c

/-- The form of a character in which case is ignored. -/
def fold (c : Char) : Char := mapChar CaseTable.folded c

def upperChar (c : Char) : List Char :=
  match CaseTable.expanded.lookup c.toNat with
  | some ns => ns.map Char.ofNat
  | none => [mapChar CaseTable.upper c]

def upper (cs : List Char) : List Char := cs.flatMap upperChar

/-- Whether a word goes on after signs that do not end it. -/
def continues (cs : List Char) : Bool :=
  match cs.dropWhile fun c => CharClass.holds ClassTable.ignorable c.toNat with
  | c :: _ => CharClass.holds ClassTable.cased c.toNat
  | [] => false

/-- Lower case after the characters `before`, the last of them first. -/
def lowerFrom (before : List Char) : List Char → List Char
  | [] => []
  | c :: cs =>
    let here :=
      if c = 'Σ' then if continues before && !continues cs then ['ς'] else ['σ']
      else if c = 'İ' then ['i', Char.ofNat 0x307]
      else [mapChar CaseTable.lower c]
    here ++ lowerFrom (c :: before) cs

def lower (cs : List Char) : List Char := lowerFrom [] cs

end Case

end GraphQuery
