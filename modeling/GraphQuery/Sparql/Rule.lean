import GraphQuery.Algebra.Basic
import GraphQuery.Text.Digits

/-! Reading of query texts by ordered choice. An alternative that fails gives the text back, but
not what else it has noted: the labels it has seen, the aggregates it has met and the names it has
made up stay. -/

namespace GraphQuery.Sparql

/-- The text ahead, and what has been noted so far. -/
structure Reading where
  text : List Char
  base : Option String := none
  /-- The names that stand for the beginnings of other names, the newest first. -/
  namespaces : List (String × String) := []
  /-- The labels of blank nodes in groups that have ended. -/
  usedLabels : List String := []
  groupLabels : List String := []
  /-- The aggregates of the select clauses that have not ended, the innermost clause first. -/
  aggregates : List (List (Variable × AlgebraAggregate)) := []
  /-- How many names have been made up. -/
  invented : Nat := 0

abbrev Rule := OptionT (StateM Reading)

namespace Rule

variable {α β : Type}

def remaining : Rule (List Char) := fun s => (some s.text, s)

/-- Goes on with the rest that a function leaves of the text, if it accepts the text. -/
def scan (f : List Char → Option (α × List Char)) : Rule α := fun s =>
  match f s.text with
  | some (a, rest) => (some a, { s with text := rest })
  | none => (none, s)

/-- Changes what has been noted. -/
def note (f : Reading → Reading) : Rule Unit := fun s => (some (), f s)

def noted (f : Reading → α) : Rule α := fun s => (some (f s), s)

def ofOption : Option α → Rule α
  | some a => pure a
  | none => failure

/-! ### Choice -/

/-- Gives the text back instead of failing. -/
def attempt (p : Rule α) : Rule (Option α) := fun s =>
  match p s with
  | (some a, t) => (some (some a), t)
  | (none, t) => (some none, { t with text := s.text })

def or (p q : Rule α) : Rule α := do
  match ← attempt p with
  | some a => pure a
  | none => q

/-- The first alternative that succeeds. -/
def firstOf : List (Rule α) → Rule α
  | [] => failure
  | p :: ps => p.or (firstOf ps)

/-! ### Repetition -/

/-- Takes up to `n` times what is there. -/
def upTo (p : Rule α) : Nat → Rule (List α)
  | 0 => pure []
  | n + 1 => do
    match ← attempt p with
    | some a => (a :: ·) <$> upTo p n
    | none => pure []

/-- Takes what is there as often as possible; a text has no more items than characters. -/
def many (p : Rule α) : Rule (List α) := fun s => upTo p s.text.length s

def many1 (p : Rule α) : Rule (List α) := do
  let a ← p
  (a :: ·) <$> many p

/-- One item or more with separators between them. -/
def separated (separator : Rule Unit) (p : Rule α) : Rule (List α) := do
  let a ← p
  (a :: ·) <$> many (do separator; p)

/-- The items of a row folded from the left. -/
def foldRow (separator : Rule Unit) (combine : α → α → α) (p : Rule α) : Rule α := do
  let a ← p
  let rest ← many (do separator; p)
  pure (rest.foldl combine a)

/-! ### Characters -/

def satisfy (f : Char → Bool) : Rule Unit := scan fun
  | c :: cs => if f c then some ((), cs) else none
  | [] => none

def char (c : Char) : Rule Unit := satisfy (· == c)

/-- Succeeds if no such character is ahead. -/
def notAhead (f : Char → Bool) : Rule Unit := do
  match ← remaining with
  | c :: _ => if f c then failure else pure ()
  | [] => pure ()

def atEnd : Rule Unit := do
  if (← remaining).isEmpty then pure () else failure

/-- The characters that a rule takes. -/
def taken (p : Rule Unit) : Rule (List Char) := do
  let before ← remaining
  p
  let after ← remaining
  pure (before.take (before.length - after.length))

/-- Characters of a class, as many as there are. -/
def skipWhile (f : Char → Bool) : Rule Unit := scan fun cs => some ((), cs.dropWhile f)

/-- The rest of a text behind a word, with or without regard to case. -/
def behind? (anyCase : Bool) : List Char → List Char → Option (List Char)
  | [], cs => some cs
  | w :: ws, c :: cs =>
    if w = c ∨ (anyCase ∧ w.toLower = c.toLower) then behind? anyCase ws cs else none
  | _ :: _, [] => none

def symbol (s : String) : Rule Unit := scan fun cs => (behind? false s.toList cs).map ((), ·)

/-- A word of the language in any case; other letters may follow it. -/
def word (w : String) : Rule Unit := scan fun cs => (behind? true w.toList cs).map ((), ·)

/-! ### Space -/

def isBlank (c : Char) : Bool := c == ' ' || c == '\t' || c == '\n' || c == '\r'

/-- Leaves out blanks and comments, which end with their line. -/
def skipSpace : (comment : Bool) → List Char → List Char
  | _, [] => []
  | true, c :: cs => if c == '\n' || c == '\r' then skipSpace false cs else skipSpace true cs
  | false, c :: cs =>
    if isBlank c then skipSpace false cs else if c == '#' then skipSpace true cs else c :: cs

def space : Rule Unit := scan fun cs => some ((), skipSpace false cs)

/-- Leaves out the space behind an item. -/
def spaced (p : Rule α) : Rule α := do
  let a ← p
  space
  pure a

/-- An item between two symbols, with space around it. -/
def between (left right : String) (p : Rule α) : Rule α := do
  symbol left
  space
  let a ← p
  space
  symbol right
  pure a

/-- Two symbols with only blanks between them. -/
def emptyPair (left right : Char) : Rule Unit := do
  char left
  skipWhile isBlank
  char right

/-! ### Made-up names -/

/-- A name that no text can spell. -/
def inventName : Rule String := do
  let n ← noted Reading.invented
  note fun s => { s with invented := n + 1 }
  pure ("#" ++ String.ofList (Digits.ofNat n))

def inventVariable : Rule Variable := Variable.mk <$> inventName

def inventBlank : Rule TermPattern := TermPattern.blank <$> inventName

end Rule

end GraphQuery.Sparql
