import GraphQuery.Text.Hexadecimal
import GraphQuery.Text.Digits

/-! The syntax of resource names. A reference is cut into its five parts first, and then each part
is checked for the characters that it may hold. -/

namespace GraphQuery.Iri

/-- A reference with the delimiters taken off. -/
structure Reference where
  scheme : Option (List Char)
  authority : Option (List Char)
  path : List Char
  query : Option (List Char)
  fragment : Option (List Char)

/-! ### Cutting -/

/-- The text before the first of some characters, and the text from there on. -/
def cutAt (stops : List Char) (cs : List Char) : List Char × List Char :=
  cs.span fun c => !stops.contains c

def isSchemeChar (c : Char) : Bool := c.isAlphanum || c == '+' || c == '-' || c == '.'

/-- A scheme starts with a letter and ends at a colon. -/
def cutScheme (cs : List Char) : Option (List Char) × List Char :=
  let (name, rest) := cs.span isSchemeChar
  match name, rest with
  | c :: _, ':' :: rest => if c.isAlpha then (some name, rest) else (none, cs)
  | _, _ => (none, cs)

def cutAuthority : List Char → Option (List Char) × List Char
  | '/' :: '/' :: cs =>
    let (authority, rest) := cutAt ['/', '?', '#'] cs
    (some authority, rest)
  | cs => (none, cs)

/-- The text after a mark at the front, up to the next stop. -/
def cutAfter (mark : Char) (stops : List Char) : List Char → Option (List Char) × List Char
  | c :: cs =>
    if c = mark then
      let (part, rest) := cutAt stops cs
      (some part, rest)
    else (none, c :: cs)
  | [] => (none, [])

def Reference.cut (cs : List Char) : Reference :=
  let (scheme, cs) := cutScheme cs
  let (authority, cs) := cutAuthority cs
  let (path, cs) := cutAt ['?', '#'] cs
  let (query, cs) := cutAfter '?' ['#'] cs
  let (fragment, _) := cutAfter '#' [] cs
  { scheme, authority, path, query, fragment }

/-! ### Checking -/

/-- Whether a character outside of ASCII may stand in every part. -/
def isForeign (c : Char) : Bool :=
  let n := c.toNat
  (0xA0 ≤ n && n ≤ 0xD7FF) || (0xF900 ≤ n && n ≤ 0xFDCF) || (0xFDF0 ≤ n && n ≤ 0xFFEF)
    || (0x10000 ≤ n && n ≤ 0xEFFFD && n % 0x10000 ≤ 0xFFFD && !(0xE0000 ≤ n && n < 0xE1000))

/-- Whether a character is for private use, which only a query may hold. -/
def isPrivate (c : Char) : Bool :=
  let n := c.toNat
  (0xE000 ≤ n && n ≤ 0xF8FF) || (0xF0000 ≤ n && n ≤ 0xFFFFD) || (0x100000 ≤ n && n ≤ 0x10FFFD)

def isPlain (c : Char) : Bool :=
  c.isAlphanum || "-._~!$&'()*+,;=".toList.contains c || isForeign c

/-- Whether a text holds allowed characters only; others are written as two hexadecimal digits
after a percent sign. -/
def allAllowed (allowed : Char → Bool) : List Char → Bool
  | '%' :: a :: b :: cs => Hexadecimal.isDigit a && Hexadecimal.isDigit b && allAllowed allowed cs
  | c :: cs => c != '%' && allowed c && allAllowed allowed cs
  | [] => true

def isPathChar (c : Char) : Bool := isPlain c || c == ':' || c == '@' || c == '/'

def isFragmentChar (c : Char) : Bool := isPathChar c || c == '?'

def isQueryChar (c : Char) : Bool := isFragmentChar c || isPrivate c

/-- A number of one to four hexadecimal digits. -/
def isGroup (cs : List Char) : Bool := !cs.isEmpty && cs.length ≤ 4 && cs.all Hexadecimal.isDigit

/-- A number below 256 without leading zeros. -/
def isOctet (cs : List Char) : Bool :=
  cs.length ≤ 3 && (cs.length == 1 || cs.head? != some '0') &&
    ((Digits.read? cs).any fun n => n ≤ 255)

/-- The pieces of a text between the occurrences of a character. -/
def pieces (c : Char) : List Char → List (List Char)
  | [] => [[]]
  | d :: cs =>
    match pieces c cs with
    | p :: ps => if d = c then [] :: p :: ps else (d :: p) :: ps
    | [] => [[d]]

/-- The number of groups that a row of pieces stands for, if it is well formed: the last one may
be an address of four octets, which counts twice. -/
def groupCount? (last : Bool) : List (List Char) → Option Nat
  | [] => some 0
  | [p] =>
    if isGroup p then some 1
    else
      let octets := pieces '.' p
      if last ∧ octets.length = 4 ∧ octets.all isOctet then some 2 else none
  | p :: ps => if isGroup p then (groupCount? last ps).map (· + 1) else none

/-- Cuts a text at the first pair of colons. -/
def cutDoubleColon : List Char → Option (List Char × List Char)
  | ':' :: ':' :: cs => some ([], cs)
  | c :: cs => (cutDoubleColon cs).map fun (a, b) => (c :: a, b)
  | [] => none

/-- The groups of a side of a pair of colons; an empty side has none. -/
def sideCount? (last : Bool) (cs : List Char) : Option Nat :=
  if cs.isEmpty then some 0 else groupCount? last (pieces ':' cs)

/-- An address of eight groups, of which a run may be left out between two colons. -/
def isAddress (cs : List Char) : Bool :=
  match cutDoubleColon cs with
  | none => groupCount? true (pieces ':' cs) == some 8
  | some (left, right) =>
    match sideCount? false left, sideCount? true right with
    | some m, some n => m + n ≤ 7
    | _, _ => false

/-- An address of a later version names it in front of a dot. -/
def isFutureAddress (cs : List Char) : Bool :=
  match cs with
  | v :: cs =>
    let (version, rest) := cs.span Hexadecimal.isDigit
    (v == 'v' || v == 'V') && !version.isEmpty &&
      match rest with
      | '.' :: rest => !rest.isEmpty && rest.all fun c => (isPlain c && !isForeign c) || c == ':'
      | _ => false
  | [] => false

/-- An optional port after a host. -/
def isPort : List Char → Bool
  | [] => true
  | c :: cs => c == ':' && cs.all Char.isDigit

def isHost (cs : List Char) : Bool :=
  match cs with
  | '[' :: cs =>
    match cutAt [']'] cs with
    | (address, ']' :: rest) => (isAddress address || isFutureAddress address) && isPort rest
    | _ => false
  | cs =>
    let (name, rest) := cutAt [':'] cs
    allAllowed isPlain name && isPort rest

/-- A host with an optional port and optional user information in front of it. -/
def isAuthority (cs : List Char) : Bool :=
  match cutAt ['@', '['] cs with
  | (user, '@' :: host) => allAllowed (fun c => isPlain c || c == ':') user && isHost host
  | _ => isHost cs

def Reference.valid (r : Reference) : Bool :=
  r.authority.all isAuthority && allAllowed isPathChar r.path &&
    r.query.all (allAllowed isQueryChar) && r.fragment.all (allAllowed isFragmentChar)

/-- Whether a text is a name on its own, without a base. -/
def isAbsolute (text : String) : Bool :=
  let r := Reference.cut text.toList
  r.scheme.isSome && r.valid

/-! ### Resolving -/

/-- Leaves out the last part of a path, which is given backwards; the front part stays. -/
def dropLast : List (List Char) → List (List Char)
  | _ :: p :: ps => p :: ps
  | _ => [[]]

/-- Appends parts to a path, which is given backwards: a dot adds none, and two dots take one
back. -/
def walk (path : List (List Char)) : List (List Char) → List (List Char)
  | [] => path
  | [p] =>
    if p = ['.', '.'] then [] :: dropLast path
    else if p = ['.'] then [] :: path
    else p :: path
  | p :: ps =>
    if p = ['.', '.'] then walk (dropLast path) ps
    else if p = ['.'] then walk path ps
    else walk (p :: path) ps

/-- The path that is reached from the parts of a base. -/
def walkFrom (base : List (List Char)) (path : List Char) : List Char :=
  let parts := pieces '/' path
  let backwards := match base.reverse, parts with
    | [], p :: ps => walk [p] ps
    | base, ps => walk base ps
  ['/'].intercalate backwards.reverse

/-- The reference seen from a base that is a name on its own. -/
def Reference.resolve (base r : Reference) : Reference :=
  if r.scheme.isSome then { r with path := walkFrom [] r.path }
  else if r.authority.isSome then { r with scheme := base.scheme, path := walkFrom [] r.path }
  else
    let onBase := { r with scheme := base.scheme, authority := base.authority }
    match r.path with
    | [] => { onBase with path := base.path, query := r.query.or base.query }
    | '/' :: _ => { onBase with path := walkFrom [] r.path }
    | path =>
      let front := (pieces '/' base.path).dropLast
      let front := if front.isEmpty && base.authority.isSome then [[]] else front
      { onBase with path := walkFrom front path }

def Reference.text (r : Reference) : String :=
  String.ofList <|
    ((r.scheme.map (· ++ [':'])).getD []) ++ ((r.authority.map (['/', '/'] ++ ·)).getD [])
      ++ r.path ++ ((r.query.map ('?' :: ·)).getD []) ++ ((r.fragment.map ('#' :: ·)).getD [])

/-- The name that a text stands for, with or without a base. Without one it is kept as it is. -/
def parse? (base : Option String) (text : String) : Option String :=
  let r := Reference.cut text.toList
  match base with
  | none => if isAbsolute text then some text else none
  | some base =>
    if r.valid && text.toList.head? != some ':' then
      some ((Reference.cut base.toList).resolve r).text
    else none

end GraphQuery.Iri
