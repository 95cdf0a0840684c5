import Pipework.Completion.Context

/-! Proposals for a text that is a stream already. White space at its end tells whether its last app
may still be going on or the next element comes. -/

namespace Pipework.Completion

inductive Expansion where
  | unfinishedAppName
  | appOptions
  | pipeIntoOtherApps
  | valueHint
  deriving DecidableEq, Repr

namespace Expansion

def all : List Expansion := [.unfinishedAppName, .appOptions, .pipeIntoOtherApps, .valueHint]

def name : Expansion → String
  | .unfinishedAppName => "unfinished-app-name"
  | .appOptions => "app-options"
  | .pipeIntoOtherApps => "pipe-into-other-apps"
  | .valueHint => "value-hint"

variable (ctx : Context) (typed : String) (stream : Stream) (last : Stream.App)

def endsBlank (typed : String) : Bool := Text.endsBlank typed.toList

/-- Apps whose names go on from the name typed last. -/
def finishName : Found := do
  if endsBlank typed || !last.arguments.isEmpty then return []
  let some lead := Text.dropEnd? typed last.name | return []
  let registrations ← ctx.registry.allOf (lastRoles stream)
  return (registrations.filter fun r => Text.startsWith r.name last.name).map fun r =>
    ctx.proposal (lead ++ r.name) r.description

/-- Options of the last app that are not set. -/
def addOption : Found := do
  let some r ← ctx.registration last.name (lastRole stream) | return []
  let head := Text.withoutTrailingBlanks typed
  return (r.options.filter fun o => (last.argument? o.name).isNone).map fun o =>
    ctx.proposal (head ++ " --" ++ o.name ++ "=") o.description

/-- The last app has an output by its registration. -/
def canFeed : Except LookupFault Bool := do
  if (← ctx.registry.find last.name .processor).isSome then return true
  if startsWithLast stream then return (← ctx.registry.find last.name .source).isSome
  return false

/-- Apps to pipe into, labelled where their names are taken. -/
def pipe : Found := do
  if !endsBlank typed || stream.unbound then return []
  if !(← canFeed ctx stream last) then return []
  let head := Text.withoutTrailingBlanks typed
  let registrations ← ctx.registry.allOf (nextRoles stream)
  return registrations.filterMap fun r =>
    (ctx.autoLabel r.name stream.labelNames).map fun app =>
      ctx.proposal (head ++ " | " ++ app) r.description

/-- Values that go on from the value typed last. -/
def finishValue : Found := do
  if endsBlank typed then return []
  let some argument := last.arguments.getLast? | return []
  let setting := "--" ++ argument.name ++ "="
  let some before := Text.dropEnd? typed (setting ++ argument.value) | return []
  let some r ← ctx.registration last.name (lastRole stream) | return []
  let some option := r.option? argument.name | return []
  return (option.valueHints.filter fun h => Text.startsWith h argument.value).map fun h =>
    ctx.proposal (before ++ setting ++ h) option.description

/-- What a strategy proposes; nothing once the stream is closed. -/
def propose (e : Expansion) : Found :=
  match openLast? stream with
  | none => .ok []
  | some last =>
    match e with
    | .unfinishedAppName => finishName ctx typed stream last
    | .appOptions => addOption ctx typed stream last
    | .pipeIntoOtherApps => pipe ctx typed stream last
    | .valueHint => finishValue ctx typed stream last

end Expansion

end Pipework.Completion
