import Pipework.Argument.Parser
import Pipework.Task.Basic
import Pipework.Text.Name
import Pipework.Token.Lexer

/-! Reading tasks:

    task        = sequence [; or a new line] sequence ... [;]
    sequence    = element && element ...
    element     = ( sequence ) or [label:] split or [label:] app transitions
    split       = < sequence || sequence ... >
    app         = name arguments
    transition  = number or * or quoted status, then -> and :label or [label:] app

A sequence in parentheses becomes a part of the one around it. -/

namespace Pipework.Task

namespace Read

open Token Pipework.Parser

/-! ## Apps and transitions -/

/-- A name with the colon that makes it a label. -/
def label? : Parser (Option Label) := do
  if !(← peek).isName || (← secondKind) != some .colon then return none
  let name ← next
  requireAdjacent .noWhitespaceBetweenLabelNameAndColon
  let colon ← next
  return some ⟨name.text, name.start, colon.stop⟩

def appName : Parser Token := do
  let token ← peek
  if token.isName then next
  else if token.kind == .arrow then refuseHere .taskArrowShouldBePrecededByCode []
  else refuseHere .expectedAppname [token.text]

/-- The arguments of an app, which only `appMode` admits. -/
def arguments (appMode : Bool) : Parser (List Argument) := do
  if (← peekKind) != .doubleMinus then return []
  if !appMode then refuseHere .taskArgumentsNotAllowedUnlessInAppMode []
  Argument.arguments

/-- An app, so far without transitions. -/
def plainApp (appMode : Bool) (label : Option Label) : Parser App := do
  let name ← appName
  let arguments ← arguments appMode
  return { label, name := name.text, arguments, transitions := [],
           start := (label.map Label.start).getD name.start, stop := ← previousStop }

/-- The condition of a transition, of which the arrow follows. -/
def condition? : Parser (Option Condition) := do
  let token ← peek
  let arrowFollows := (← secondKind) == some .arrow
  match token.kind with
  | .arrow => refuseHere .taskArrowShouldBePrecededByCode []
  | .number code => return if arrowFollows then some (.exitCode code) else none
  | .identifier text =>
    if arrowFollows then refuseHere .taskUnquotedTransitionCheckMustBeNumber [text]
    return none
  | .star =>
    if arrowFollows then return some (.exitCode "*")
    missingArrow token
  | .literal status =>
    if arrowFollows then return some (.exitStatus status)
    missingArrow token
  | _ => return none
where
  missingArrow (token : Token) : Parser (Option Condition) := do
    let second := (← get).peekAt 1
    refuse ((second.map Token.start).getD token.stop) .taskMissingTransitionArrow []

def target (appMode : Bool) : Parser Target := do
  if (← eatIf .colon).isSome then
    if !(← peek).isName then unexpected "label"
    return .label (← next).text
  let label ← label?
  return .app (← plainApp appMode label)

def transition? (appMode : Bool) : Parser (Option Transition) := do
  let start := (← peek).start
  let some condition ← condition? | return none
  let _ ← next
  let _ ← next
  let target ← target appMode
  return some ⟨condition, target, start, ← previousStop⟩

def app (appMode : Bool) (label : Option Label) : Parser App := do
  let app ← plainApp appMode label
  let transitions ← many (transition? appMode)
  return { app with transitions, stop := (transitions.getLast?.map Transition.stop).getD app.stop }

/-! ## Sequences

`inner` reads a sequence one level further down. -/

def branch? (inner : Parser Sequence) : Parser (Option Sequence) := do
  if (← eatIf .doublePipe).isSome then return some (← inner)
  return none

def split (inner : Parser Sequence) (label : Option Label) : Parser Split := do
  let lt ← eat .lt
  let first ← inner
  let rest ← many (branch? inner)
  let token ← peek
  match token.kind with
  | .gt =>
    let gt ← next
    return ⟨label, first :: rest, (label.map Label.start).getD lt.start, gt.stop⟩
  | .pipe => refuseHere .taskDoubleOrRequired []
  | _ => refuseHere .taskUnterminatedSplit [token.text]

/-- The label of an element; a group cannot have one, and no element can have two. -/
def elementLabel : Parser (Option Label) := do
  let some label ← label? | return none
  if let some second ← label? then refuse second.start .noDoubleLabels []
  if (← peekKind) == .lparen then refuse label.start .taskNoLabelsOnParens []
  return some label

/-- An element, or the elements of a group. -/
def elements (appMode : Bool) (inner : Parser Sequence) : Parser (List Element) := do
  if (← eatIf .lparen).isSome then
    let group ← inner
    let _ ← eat .rparen
    return group.elements
  let label ← elementLabel
  if (← peekKind) == .lt then return [.split (← split inner label)]
  return [.app (← app appMode label)]

def joinedElements? (appMode : Bool) (inner : Parser Sequence) :
    Parser (Option (List Element)) := do
  if (← eatIf .andAnd).isSome then return some (← elements appMode inner)
  return none

def sequenceWith (appMode : Bool) (inner : Parser Sequence) : Parser Sequence := do
  let start := (← peek).start
  let first ← elements appMode inner
  let rest ← many (joinedElements? appMode inner)
  return ⟨first ++ rest.flatten, start, ← previousStop⟩

/-- How many sequences can be open at a time, each within the one before. -/
def maxDepth : Nat := 256

/-- A sequence within which `levels - 1` more can be open. -/
def sequence (appMode : Bool) : Nat → Parser Sequence
  | 0 => refuseHere .taskNestingTooDeep [toString maxDepth]
  | levels + 1 => sequenceWith appMode (sequence appMode levels)

/-! ## Tasks -/

/-- The next token stands on a later line than the one just passed. -/
def startsLine (c : Cursor) : Bool :=
  match c.behind, c.ahead with
  | last :: _, next :: _ => last.span.line < next.span.line
  | _, _ => false

/-- Passes what separates a sequence from the next one, if there is one. -/
def separator? : Parser Bool := do
  if !(← hasNext) then return false
  if (← eatIf .semicolon).isSome then hasNext
  else if startsLine (← get) then return true
  else refuseHere .taskMoreInput [(← get).remainingText]

def topSequence (appMode : Bool) : Parser Sequence := do
  let sequence ← sequence appMode maxDepth
  checkpoint
  return sequence

def nextSequence? (appMode : Bool) : Parser (Option Sequence) := do
  if ← separator? then return some (← topSequence appMode)
  return none

def requireLegalName : Option String → Parser Unit
  | some name => if Text.isLegalName name then return else refuse 0 .illegalTaskName [name]
  | none => return

def definition (name : Option String) (appMode : Bool) : Parser Task := do
  requireLegalName name
  let first ← topSequence appMode
  let rest ← many (nextSequence? appMode)
  return { name, text := (← get).expression, sequences := first :: rest }

end Read

/-- Reads a task without checking it as a whole. -/
def parseUnchecked (name : Option String) (appMode : Bool) (text : String) : Except Fault Task := do
  let tokens ← Token.tokenize text
  let (task, _) ← (Read.definition name appMode).run (.ofTokens text tokens)
  return task

end Pipework.Task
