import Pipework.Argument
import Pipework.Parser

/-! Arguments as they are written: `--`, a dotted name, `=` and a value, with no white space inside
and some before. -/

namespace Pipework.Argument

open Token Pipework.Parser

def dottedRest : Parser (Option String) := do
  if (← peekKind) != .dot then return none
  requireAdjacent .noWhitespaceInDottedName
  let _ ← next
  if !(← peek).isName then unexpected "identifier"
  requireAdjacent .noWhitespaceInDottedName
  return some ("." ++ (← next).text)

/-- A name, or names joined by dots. -/
def dottedName : Parser String := do
  if !(← peek).isName then unexpected "identifier"
  let first ← next
  return first.text ++ String.join (← many dottedRest)

def argument? : Parser (Option Argument) := do
  let dashes ← peek
  if dashes.kind != .doubleMinus then return none
  if ← adjacent then refuseHere .expectedWhitespaceAfterAppBeforeArgument []
  let _ ← next
  if (← hasNext) then requireAdjacent .noWhitespaceBeforeArgName
  let name ← dottedName
  if (← peekKind) == .equals then requireAdjacent .noWhitespaceBeforeArgEquals
  let _ ← eat .equals
  let value ← peek
  match value.kind with
  | .identifier text | .number text | .literal text =>
    requireAdjacent .noWhitespaceBeforeArgValue
    let _ ← next
    return some ⟨name, text, dashes.start, value.stop⟩
  | _ => refuseHere .expectedArgumentValue [value.text]

def arguments : Parser (List Argument) := many argument?

end Pipework.Argument
