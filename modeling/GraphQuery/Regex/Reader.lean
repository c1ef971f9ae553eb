import GraphQuery.Regex.Basic
import GraphQuery.Text.Digits
import GraphQuery.Text.Hexadecimal

/-! The notation of regular expressions. There are no references back and no conditions on what
follows; a pattern that uses them, or is not well formed, stands for no expression. -/

namespace GraphQuery.Regex

structure Flags where
  anyCase : Bool := false
  lines : Bool := false
  dotAll : Bool := false
  spaced : Bool := false

/-- Characters that have a meaning of their own in a pattern. -/
def isMeta (c : Char) : Bool := "\\.+*?()|[]{}^$#&-~".toList.contains c

/-- A pattern for a text as it stands. -/
def quoteText (cs : List Char) : List Char :=
  cs.flatMap fun c => if isMeta c then ['\\', c] else [c]

/-- Leaves out white space and comments in a spaced pattern. -/
def skipSpace (f : Flags) (cs : List Char) : List Char :=
  if f.spaced then go false cs else cs
where
  go : Bool → List Char → List Char
    | _, [] => []
    | true, c :: cs => go (c != '\n') cs
    | false, c :: cs =>
      if c == '#' then go true cs else if CharClass.isSpace c then go false cs else c :: cs

/-! ### Escapes -/

inductive Escape where
  | char (c : Char)
  | set (s : CharSet)
  | boundary (b : Boundary)

/-- Reads hexadecimal digits, in braces or a fixed number of them. -/
def readHex (width : Nat) : List Char → Option (Char × List Char)
  | '{' :: cs =>
    match cs.span (· != '}') with
    | (digits, '}' :: rest) =>
      if digits.isEmpty then none else (Hexadecimal.char? digits).map fun c => (c, rest)
    | _ => none
  | cs =>
    if (cs.take width).length = width then
      (Hexadecimal.char? (cs.take width)).map fun c => (c, cs.drop width)
    else none

/-- Reads what follows a backslash. -/
def readEscape : List Char → Option (Escape × List Char)
  | [] => none
  | c :: cs =>
    match c with
    | 'd' => some (.set .digit, cs)
    | 'D' => some (.set (.complement .digit), cs)
    | 's' => some (.set .space, cs)
    | 'S' => some (.set (.complement .space), cs)
    | 'w' => some (.set .word, cs)
    | 'W' => some (.set (.complement .word), cs)
    | 'A' => some (.boundary .textStart, cs)
    | 'z' => some (.boundary .textEnd, cs)
    | 'b' => some (.boundary .word, cs)
    | 'B' => some (.boundary .noWord, cs)
    | '<' => some (.boundary .wordStart, cs)
    | '>' => some (.boundary .wordEnd, cs)
    | 'a' => some (.char '\x07', cs)
    | 'f' => some (.char '\x0c', cs)
    | 't' => some (.char '\t', cs)
    | 'n' => some (.char '\n', cs)
    | 'r' => some (.char '\r', cs)
    | 'v' => some (.char '\x0b', cs)
    | 'x' => (readHex 2 cs).map fun (c, cs) => (.char c, cs)
    | 'u' => (readHex 4 cs).map fun (c, cs) => (.char c, cs)
    | 'U' => (readHex 8 cs).map fun (c, cs) => (.char c, cs)
    | c => if c.toNat < 128 && !c.isAlphanum then some (.char c, cs) else none

/-! ### Classes in brackets -/

def namedSets : List (String × CharSet) :=
  let small := CharSet.range 'a' 'z'
  let capital := CharSet.range 'A' 'Z'
  let decimal := CharSet.range '0' '9'
  [("alnum", .union [decimal, capital, small]), ("alpha", .union [capital, small]),
    ("ascii", .range '\x00' '\x7f'), ("blank", .union [.single '\t', .single ' ']),
    ("cntrl", .union [.range '\x00' '\x1f', .single '\x7f']), ("digit", decimal),
    ("graph", .range '!' '~'), ("lower", small), ("print", .range ' ' '~'),
    ("punct",
      .union [.range '!' '/', .range ':' '@', .range '[' (Char.ofNat 96), .range '\x7b' '~']),
    ("space", .union [.range '\t' '\r', .single ' ']), ("upper", capital),
    ("word", .union [decimal, capital, small, .single '_']),
    ("xdigit", .union [decimal, .range 'A' 'F', .range 'a' 'f'])]

/-- Reads a set named between colons, after the opening bracket. -/
def readNamed : List Char → Option (CharSet × List Char)
  | ':' :: cs =>
    let (negated, cs) := match cs with
      | '^' :: cs => (true, cs)
      | cs => (false, cs)
    match cs.span (· != ':') with
    | (name, ':' :: ']' :: rest) =>
      (namedSets.lookup (String.ofList name)).map fun s =>
        (if negated then .complement s else s, rest)
    | _ => none
  | _ => none

/-- How the items of a class are combined with those before them. -/
inductive Combination where
  | intersection
  | difference
  | symmetric

def Combination.apply : Combination → CharSet → CharSet → CharSet
  | intersection, a, b => .both a b
  | difference, a, b => .minus a b
  | symmetric, a, b => .differing a b

/-- The items read so far, the last one first, after those in front of an operator. -/
def closeItems (before : Option (CharSet × Combination)) (items : List CharSet) : CharSet :=
  match before with
  | none => .union items.reverse
  | some (a, op) => op.apply a (.union items.reverse)

/-- Reads the character or set of one item of a class. -/
def readItem : List Char → Option (Escape × List Char)
  | '\\' :: cs =>
    match readEscape cs with
    | some (.boundary _, _) | none => none
    | some item => some item
  | c :: cs => some (.char c, cs)
  | [] => none

def foldSet (f : Flags) (s : CharSet) : CharSet := if f.anyCase then .anyCase s else s

/-- Reads the items of a class and its closing bracket. -/
def readItems (f : Flags) : Nat → Option (CharSet × Combination) → List CharSet → List Char →
    Option (CharSet × List Char)
  | 0, _, _, _ => none
  | fuel + 1, before, items, cs =>
    match skipSpace f cs with
    | [] => none
    | ']' :: cs => some (closeItems before items, cs)
    | '&' :: '&' :: cs => readItems f fuel (some (closeItems before items, .intersection)) [] cs
    | '-' :: '-' :: cs => readItems f fuel (some (closeItems before items, .difference)) [] cs
    | '~' :: '~' :: cs => readItems f fuel (some (closeItems before items, .symmetric)) [] cs
    | '[' :: cs =>
      match readNamed cs with
      | some (s, cs) => readItems f fuel before (s :: items) cs
      | none => do
        let (s, cs) ← readClass fuel cs
        readItems f fuel before (s :: items) cs
    | cs => do
      let (item, cs) ← readItem cs
      match item, skipSpace f cs with
      | .char a, '-' :: rest =>
        match skipSpace f rest with
        | ']' :: _ | '-' :: _ => readItems f fuel before (.single a :: items) ('-' :: rest)
        | rest =>
          match ← readItem rest with
          | (.char b, cs) =>
            if a ≤ b then readItems f fuel before (.range a b :: items) cs else none
          | _ => none
      | .char a, cs => readItems f fuel before (.single a :: items) cs
      | .set s, cs => readItems f fuel before (s :: items) cs
      | .boundary _, _ => none
where
  /-- Reads a class after its opening bracket; hyphens and a closing bracket at the front stand
  for themselves. -/
  readClass : Nat → List Char → Option (CharSet × List Char)
    | 0, _ => none
    | fuel + 1, cs => do
      let (negated, cs) := match skipSpace f cs with
        | '^' :: cs => (true, skipSpace f cs)
        | cs => (false, cs)
      let (hyphens, cs) := cs.span (· == '-')
      let (front, cs) := match hyphens, cs with
        | [], ']' :: cs => ([CharSet.single ']'], cs)
        | [], cs => ([], cs)
        | _, cs => ([CharSet.single '-'], cs)
      let (s, cs) ← readItems f fuel none front cs
      let s := foldSet f s
      some (if negated then .complement s else s, cs)

/-! ### Expressions -/

def join : List Regex → Regex
  | [] => .nothing
  | [r] => r
  | r :: rs => rs.foldl (fun later r => .seq r later) r

/-- The alternatives read so far and the last of them, each given backwards. -/
def closeAlternatives (alternatives : List Regex) (items : List Regex) : Regex :=
  alternatives.foldl (fun later a => .alt a later) (join items)

/-- Reads the counts of a repetition after its opening brace. -/
def readCounts (f : Flags) (cs : List Char) : Option (Nat × Option Nat × List Char) := do
  let (least, cs) := Digits.span (skipSpace f cs)
  let least ← Digits.read? least
  match skipSpace f cs with
  | '\x7d' :: cs => some (least, some least, cs)
  | ',' :: cs =>
    match skipSpace f cs with
    | '\x7d' :: cs => some (least, none, cs)
    | cs =>
      let (most, cs) := Digits.span cs
      let most ← Digits.read? most
      match skipSpace f cs with
      | '\x7d' :: cs => if least ≤ most then some (least, some most, cs) else none
      | _ => none
  | _ => none

/-- Reads flags up to a colon or a closing parenthesis, which is left. -/
def readFlags : Bool → Flags → List Char → Option (Flags × List Char)
  | _, f, ':' :: cs => some (f, ':' :: cs)
  | _, f, ')' :: cs => some (f, ')' :: cs)
  | on, f, c :: cs =>
    match c with
    | 'i' => readFlags on { f with anyCase := on } cs
    | 'm' => readFlags on { f with lines := on } cs
    | 's' => readFlags on { f with dotAll := on } cs
    | 'x' => readFlags on { f with spaced := on } cs
    | 'U' | 'u' => readFlags on f cs
    | '-' => if on then readFlags false f cs else none
    | _ => none
  | _, _, [] => none

/-- The start of a group: the flags inside, or only flags for what follows. -/
inductive GroupStart where
  | body (f : Flags) (rest : List Char)
  | flags (f : Flags) (rest : List Char)

def readGroupName : List Char → Option (List Char)
  | c :: cs =>
    if c.isAlpha || c == '_' then
      match (c :: cs).span (fun c => c.isAlphanum || c == '_' || c == '.') with
      | (_, '>' :: rest) => some rest
      | _ => none
    else none
  | [] => none

def readGroupStart (f : Flags) : List Char → Option GroupStart
  | '?' :: 'P' :: '<' :: cs => (readGroupName cs).map (.body f)
  | '?' :: '<' :: cs => (readGroupName cs).map (.body f)
  | '?' :: cs =>
    match readFlags true f cs with
    | some (g, ':' :: rest) => some (.body g rest)
    | some (g, ')' :: rest) => if cs.head? == some ')' then none else some (.flags g rest)
    | _ => none
  | cs => some (.body f cs)

def skipLazy (f : Flags) (cs : List Char) : List Char :=
  match skipSpace f cs with
  | '?' :: cs => cs
  | _ => cs

def literal (f : Flags) (c : Char) : Regex := .one (foldSet f (.single c))

/-- Reads alternatives up to the end or a closing parenthesis, which is left. -/
def readAlternatives : Nat → Flags → (alternatives items : List Regex) → List Char →
    Option (Regex × List Char)
  | 0, _, _, _, _ => none
  | fuel + 1, f, alternatives, items, cs =>
    let add (r : Regex) (cs : List Char) := readAlternatives fuel f alternatives (r :: items) cs
    let again (least : Nat) (most : Option Nat) (cs : List Char) :=
      match items with
      | [] => none
      | r :: items =>
        readAlternatives fuel f alternatives (.repeated r least most :: items) (skipLazy f cs)
    match skipSpace f cs with
    | [] => some (closeAlternatives alternatives items, [])
    | ')' :: cs => some (closeAlternatives alternatives items, ')' :: cs)
    | '|' :: cs => readAlternatives fuel f (join items :: alternatives) [] cs
    | '*' :: cs => again 0 none cs
    | '+' :: cs => again 1 none cs
    | '?' :: cs => again 0 (some 1) cs
    | '\x7b' :: cs => do
      let (least, most, cs) ← readCounts f cs
      again least most cs
    | '(' :: cs =>
      match readGroupStart f cs with
      | some (.body g cs) =>
        match readAlternatives fuel g [] [] cs with
        | some (r, ')' :: cs) => add r cs
        | _ => none
      | some (.flags g cs) => readAlternatives fuel g alternatives items cs
      | none => none
    | '[' :: cs => do
      let (s, cs) ← readItems.readClass f (2 * cs.length + 2) cs
      add (.one s) cs
    | '.' :: cs =>
      add (.one (if f.dotAll then .complement .empty else .complement (.single '\n'))) cs
    | '^' :: cs => add (.boundary (if f.lines then .lineStart else .textStart)) cs
    | '$' :: cs => add (.boundary (if f.lines then .lineEnd else .textEnd)) cs
    | '\\' :: cs => do
      match ← readEscape cs with
      | (.char c, cs) => add (literal f c) cs
      | (.set s, cs) => add (.one s) cs
      | (.boundary b, cs) => add (.boundary b) cs
    | c :: cs => add (literal f c) cs

/-- The greatest number of states of an expression that is accepted. -/
def sizeLimit : Nat := 40000

def read? (f : Flags) (pattern : List Char) : Option Regex :=
  match readAlternatives (2 * pattern.length + 2) f [] [] pattern with
  | some (r, []) => if r.size ≤ sizeLimit then some r else none
  | _ => none

/-- The expression of a pattern under flags given as letters; `q` takes the pattern as it
stands. -/
def ofPattern? (pattern flags : String) : Option Regex := do
  let letters := flags.toList
  let f ← letters.foldlM (fun (f : Flags) c => match c with
    | 's' => some { f with dotAll := true }
    | 'm' => some { f with lines := true }
    | 'i' => some { f with anyCase := true }
    | 'x' => some { f with spaced := true }
    | 'q' => some f
    | _ => none) {}
  read? f (if letters.contains 'q' then quoteText pattern.toList else pattern.toList)

end GraphQuery.Regex
