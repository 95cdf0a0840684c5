import Pipework.Completion.Context
import Pipework.Token.Lexer

/-! Completion of tasks. Where an app can stand is seen from the last tokens alone. -/

namespace Pipework.Completion.Task

open Token

/-- What is put between a token and an app that may follow it. -/
def gapAfter : Kind → Option String
  | .andAnd | .doublePipe => some " "
  | .lt | .arrow | .lparen => some ""
  | _ => none

/-- A name after these tokens, last first, is an app's, and not the label of a jump or a value. -/
def startsApp : List Kind → Bool
  | [] => true
  | .colon :: before => before.head? != some .arrow
  | kind :: _ => (gapAfter kind).isSome

variable (ctx : Context) (apps : List Registration)

def proposeAll (lead : String) : List Proposal :=
  apps.map fun r => ctx.proposal (lead ++ r.name) r.description

/-- Apps whose names go on from the name that the text ends with. -/
def finishName (typed : String) (name : Token) (before : List Kind) : List Proposal :=
  match name.kind, Text.splitAtByte? name.start typed.toList with
  | .identifier text, some (lead, _) =>
    if name.stop = typed.utf8ByteSize && startsApp before then
      proposeAll ctx (apps.filter fun r => Text.startsWith r.name text) (String.ofList lead)
    else []
  | _, _ => []

/-- Proposals after some tokens, last first. -/
def proposeAfter (typed : String) : List Token → List Proposal
  | [] => proposeAll ctx apps ""
  | last :: before =>
    match gapAfter last.kind with
    | some gap => proposeAll ctx apps (Text.withoutTrailingBlanks typed ++ gap)
    | none => finishName ctx apps typed last (before.map Token.kind)

def gather (typed : String) : Except LookupFault (List Proposal) := do
  match tokenize typed with
  | .error _ => return []
  | .ok tokens =>
    let apps ← ctx.registry.allOf [.task]
    return proposeAfter ctx apps typed (tokens.filter fun t => t.kind != .eof).reverse

def complete (typed : String) : List Proposal :=
  match gather ctx typed with
  | .ok proposals => rank typed proposals ctx.config.maxProposals
  | .error _ => []

end Pipework.Completion.Task
