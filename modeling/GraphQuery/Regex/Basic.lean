import GraphQuery.Closure
import GraphQuery.Text.Case

/-! Regular expressions over characters, and where their matches end. -/

namespace GraphQuery

/-- A set of characters. -/
inductive CharSet where
  | range (first last : Char)
  | digit
  | space
  | word
  | union (parts : List CharSet)
  | both (a b : CharSet)
  | complement (a : CharSet)
  /-- The characters that differ only in case from one of the set. -/
  | anyCase (a : CharSet)

namespace CharSet

/-- The characters that are equal to `c` if case is ignored. -/
def sameFold (c : Char) : List Char :=
  let folded := Case.fold c
  c :: folded :: CaseTable.folded.filterMap fun (first, last, step, distance) =>
    let n := (folded.toNat - distance).toNat
    if first ≤ n && n ≤ last && (n - first) % step == 0 then some (Char.ofNat n) else none

def contains : CharSet → Char → Bool
  | range first last, c => first ≤ c && c ≤ last
  | digit, c => CharClass.isDigit c
  | space, c => CharClass.isSpace c
  | word, c => CharClass.isWord c
  | union parts, c => anyContains parts c
  | both a b, c => a.contains c && b.contains c
  | complement a, c => !a.contains c
  | anyCase a, c => (sameFold c).any a.contains
where
  anyContains : List CharSet → Char → Bool
    | [], _ => false
    | a :: as, c => a.contains c || anyContains as c

def empty : CharSet := union []

def single (c : Char) : CharSet := range c c

/-- The characters of one set that are not in the other. -/
def minus (a b : CharSet) : CharSet := both a (complement b)

/-- The characters of exactly one of two sets. -/
def differing (a b : CharSet) : CharSet := union [minus a b, minus b a]

end CharSet

/-- A condition on the place between two characters. -/
inductive Boundary where
  | textStart
  | textEnd
  | lineStart
  | lineEnd
  | word
  | noWord
  | wordStart
  | wordEnd
deriving DecidableEq

def Boundary.holds (before after : Option Char) : Boundary → Bool
  | textStart => before.isNone
  | textEnd => after.isNone
  | lineStart => before.all (· == '\n')
  | lineEnd => after.all (· == '\n')
  | word => before.any CharClass.isWord != after.any CharClass.isWord
  | noWord => before.any CharClass.isWord == after.any CharClass.isWord
  | wordStart => !before.any CharClass.isWord && after.any CharClass.isWord
  | wordEnd => before.any CharClass.isWord && !after.any CharClass.isWord

inductive Regex where
  | nothing
  | one (set : CharSet)
  | boundary (condition : Boundary)
  | seq (a b : Regex)
  | alt (a b : Regex)
  /-- At least `least` times, and at most `most` times if there is a bound. -/
  | repeated (a : Regex) (least : Nat) (most : Option Nat)

namespace Regex

/-- The number of states that the expression unfolds to. -/
def size : Regex → Nat
  | nothing => 0
  | one _ | boundary _ => 1
  | seq a b => a.size + b.size
  | alt a b => a.size + b.size + 1
  | repeated a least most => (a.size + 1) * max 1 (max least (most.getD 0))

/-- The places reached in exactly `n` steps. -/
def afterSteps (step : Nat → List Nat) : Nat → List Nat → List Nat
  | 0, places => places
  | _ + 1, [] => []
  | n + 1, places => afterSteps step n (places.flatMap step).eraseDups

/-- The places in a text at which a match that starts at a place can end. -/
def ends (text : Array Char) : Regex → Nat → List Nat
  | nothing, i => [i]
  | one set, i => if text[i]?.any set.contains then [i + 1] else []
  | boundary condition, i =>
    let before := if i = 0 then none else text[i - 1]?
    if condition.holds before text[i]? then [i] else []
  | seq a b, i => ((a.ends text i).flatMap (b.ends text)).eraseDups
  | alt a b, i => (a.ends text i ++ b.ends text i).eraseDups
  | repeated a least most, i =>
    let reached := afterSteps (a.ends text) least [i]
    let more := match most with
      | some n => n - least
      | none => text.size + 1
    closure (a.ends text) more reached reached

/-- Whether some part of a text matches. -/
def isMatch (r : Regex) (text : String) : Bool :=
  let text := text.toList.toArray
  (List.range (text.size + 1)).any fun i => !(r.ends text i).isEmpty

end Regex

end GraphQuery
