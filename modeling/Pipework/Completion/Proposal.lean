import Pipework.Text.Affix

/-! Proposals, the explanations that go with them, and their order. -/

namespace Pipework.Completion

/-- One way to go on, as the whole text that results. -/
structure Proposal where
  text : String
  explanation : Option String := none
  deriving DecidableEq, Repr

/-- The text up to the first full stop that a space follows, or all of it. -/
def firstSentence : List Char → List Char
  | [] => []
  | [c] => [c]
  | c :: d :: cs => if c = '.' ∧ d = ' ' then [c] else c :: firstSentence (d :: cs)

/-- Nothing at detail 0, the first sentence at 1, and all from 2 on. -/
def explain (description : String) (detail : Nat) : Option String :=
  let cs := Text.trim description.toList
  if detail = 0 || cs.isEmpty then none
  else if detail = 1 then some (String.ofList (firstSentence cs))
  else some (String.ofList cs)

/-! ## Order -/

/-- Shorter texts, in bytes, come first; texts of equal length are ordered by their characters. -/
def before (a b : String) : Bool :=
  decide (a.utf8ByteSize < b.utf8ByteSize) || (a.utf8ByteSize == b.utf8ByteSize && decide (a < b))

/-- A text that is there already keeps its first explanation. -/
def insert (ranked : List Proposal) (p : Proposal) : List Proposal :=
  match ranked with
  | [] => [p]
  | q :: rest =>
    if p.text = q.text then q :: rest
    else if before p.text q.text then p :: q :: rest
    else q :: insert rest p

/-- Orders proposals, each text once and what was typed not at all, and keeps the first ones. -/
def rank (typed : String) (proposals : List Proposal) (limit : Nat) : List Proposal :=
  ((proposals.filter fun p => p.text != typed).foldl insert []).take limit

end Pipework.Completion
