import GraphQuery.Algebra.Lowering
import GraphQuery.Evaluate.Answer
import GraphQuery.Sparql.Query

/-! Answers to query texts. -/

namespace GraphQuery

inductive QueryAnswer where
  | solutions (s : Solutions)
  | boolean (b : Bool)

/-- The query that a text stands for, with calls numbered from `site` on. -/
def Query.ofText (text : String) (site : Nat) : Except QueryError Query :=
  match AlgebraQuery.ofText? text with
  | some q => q.lower site
  | none => .error .malformed

/-- A store with what it takes to answer queries on it. -/
structure Processor where
  source : Source
  registry : Registry := {}
  remembered : Remembered := {}
  /-- The first number for calls in texts; the registry uses those below it. -/
  firstSite : Nat := 0

namespace Processor

def evaluate (p : Processor) (q : Query) : Run Solutions :=
  Context.answer
    { query := q, source := p.source, registry := p.registry, remembered := p.remembered }

/-- Reads a text, lowers it and evaluates the query. -/
def query (p : Processor) (text : String) : Except QueryError QueryAnswer :=
  match AlgebraQuery.ofText? text with
  | none => .error .malformed
  | some a => do
    let q ← a.lower p.firstSite
    let s ← (p.evaluate q).outcome
    pure (if a.form = .ask then .boolean (!s.rows.isEmpty) else .solutions s)

end Processor

/-! ### Names for display -/

/-- A variable that a text cannot name. -/
def Variable.isInvented (v : Variable) : Bool := v.name.toList.contains '#'

/-- A short name for an invented variable, counted in the order of declaration; other variables
keep their names. -/
def Query.displayName (q : Query) (v : Variable) : Variable :=
  match (q.vars.filter Variable.isInvented).idxOf? v with
  | some i => ⟨"_g" ++ String.ofList (Digits.ofNat i)⟩
  | none => v

end GraphQuery
