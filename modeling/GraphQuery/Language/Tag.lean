/-! Language tags: the rules of their syntax, and matching them against a range. -/

namespace GraphQuery.Language

/-- Tags that are valid although they do not follow the rules. -/
def irregular : List String :=
  ["art-lojban", "cel-gaulish", "en-gb-oed", "i-ami", "i-bnn", "i-default", "i-enochian", "i-hak",
    "i-klingon", "i-lux", "i-mingo", "i-navajo", "i-pwn", "i-tao", "i-tay", "i-tsu", "no-bok",
    "no-nyn", "sgn-be-fr", "sgn-be-nl", "sgn-ch-de", "zh-guoyu", "zh-hakka", "zh-min",
    "zh-min-nan", "zh-xiang"]

/-- What the last part of a tag was. Extensions and private parts may not be empty, and a short
language may be followed by up to three extended ones. -/
inductive Part where
  | start
  | language (extended : Nat)
  | longLanguage
  | script
  | region
  | extension (empty : Bool)
  | privateUse (empty : Bool)
deriving DecidableEq

def isAlpha (s : List Char) : Bool := s.all Char.isAlpha

def isAlphanum (s : List Char) : Bool := s.all Char.isAlphanum

/-- Whether a part may name a variant: variants are longer than regions, or start with a digit. -/
def isVariant (s : List Char) : Bool :=
  match s with
  | c :: _ => (c.isAlpha && 5 ≤ s.length) || (c.isDigit && 4 ≤ s.length)
  | [] => false

/-- Reads the next part of a tag. -/
def Part.next (before : Part) (s : List Char) : Option Part :=
  if s.isEmpty ∨ 8 < s.length then none
  else match before with
    | start =>
      if s.length < 2 ∨ !isAlpha s then none
      else some (if s.length < 4 then language 0 else longLanguage)
    | privateUse _ => if isAlphanum s then some (privateUse false) else none
    | _ =>
      if s.length = 1 ∧ isAlphanum s then
        if before = extension true then none
        else some (if s = ['x'] ∨ s = ['X'] then privateUse true else extension true)
      else match before with
        | extension _ => if isAlphanum s then some (extension false) else none
        | language n =>
          if s.length = 3 ∧ isAlpha s then if n < 3 then some (language (n + 1)) else none
          else afterLanguage s
        | longLanguage => afterLanguage s
        | script => afterScript s
        | _ => if isVariant s then some region else none
where
  afterScript (s : List Char) : Option Part :=
    if (s.length = 2 ∧ isAlpha s) ∨ (s.length = 3 ∧ s.all Char.isDigit) ∨ isVariant s then
      some region
    else none
  afterLanguage (s : List Char) : Option Part :=
    if s.length = 4 ∧ isAlpha s then some script else afterScript s

/-- Cuts a text at its hyphens. -/
def parts : List Char → List (List Char)
  | [] => [[]]
  | c :: cs =>
    match parts cs with
    | p :: ps => if c = '-' then [] :: p :: ps else (c :: p) :: ps
    | [] => [[c]]

def isTag (text : String) : Bool :=
  let cs := text.toList.map Char.toLower
  if irregular.contains (String.ofList cs) then true
  else match cs with
    | 'x' :: '-' :: rest => !rest.isEmpty && rest.all fun c => c.isAlphanum || c == '-'
    | _ =>
      match (parts cs).foldlM Part.next Part.start with
      | none | some (.extension true) | some (.privateUse true) => false
      | some _ => true

/-- Whether the parts of a range are the first parts of a tag, in any case. -/
def startsWith : (range tag : List (List Char)) → Bool
  | [], _ => true
  | _ :: _, [] => false
  | r :: rs, t :: ts => r.map Char.toLower == t.map Char.toLower && startsWith rs ts

/-- The range `*` matches every tag but the empty one. -/
def «matches» (tag range : String) : Bool :=
  if range = "*" then tag ≠ "" else startsWith (parts range.toList) (parts tag.toList)

end GraphQuery.Language
