import Pipework.Completion.Context
import Pipework.Completion.Shape

/-! Proposals for a text that is not a stream. A strategy is for one shape of text, together with the
reason for which the text was refused; where none applies, only a missing app name at the end of
the text is helped. -/

namespace Pipework.Completion

inductive Recovery where
  | tapOnDestination
  | tapOnStream
  | unfinishedOptionName
  | optionValueHint
  deriving DecidableEq, Repr

namespace Recovery

/-- In the order in which they are tried. -/
def all : List Recovery := [.tapOnDestination, .tapOnStream, .unfinishedOptionName, .optionValueHint]

def name : Recovery → String
  | .tapOnDestination => "tap-on-destination"
  | .tapOnStream => "tap-on-stream"
  | .unfinishedOptionName => "unfinished-option-name"
  | .optionValueHint => "option-value-hint"

/-- The reasons that a strategy is for. -/
def reasons : Recovery → List Message
  | .tapOnDestination => [.expectedStreamNameAfterLabelColon, .outOfData]
  | .tapOnStream => [.expectedWhitespaceAfterLabelColon, .expectedAppname]
  | .unfinishedOptionName => [.missingCharacter, .outOfData, .notExpectedToken]
  | .optionValueHint => [.expectedArgumentValue]

/-- The shapes that a strategy is for. -/
def fits (r : Recovery) (typed : List Char) : Bool :=
  match r with
  | .tapOnDestination => (destinationTap? typed).isSome
  | .tapOnStream => (longTap? typed).isSome || startsLongTap typed
  | .unfinishedOptionName => (unfinishedOption? typed).isSome
  | .optionValueHint => (optionWithoutValue? typed).isSome

def applies (r : Recovery) (typed : String) (fault : Pipework.Fault) : Bool :=
  r.reasons.contains fault.message && r.fits typed.toList

variable (ctx : Context)

/-! ## Taps -/

/-- Streams whose names go on from what was typed. -/
def tapStreams (lead : String) (tap : TapShape) : Found := do
  if tap.label.isSome then return []
  let streams ← ctx.store.all
  return (streams.filter fun s => Text.startsWith s.name tap.stream).map fun s =>
    ctx.proposal (lead ++ s.name) (s.description.getD s.text)

def tapDescription (stream : StoredStream) (app : StoredApp) : String :=
  "Tap the output of " ++ app.role.name ++ " app '" ++ app.name ++ "' in stream '" ++ stream.name ++
    "'."

/-- Apps of the stream that was typed. -/
def tapApps (lead : String) (tap : TapShape) : Found := do
  if tap.stream.isEmpty then return []
  let some stream ← ctx.store.find tap.stream | return []
  let apps ← ctx.store.apps stream
  return (apps.filter fun a => Text.startsWith a.label (tap.label.getD "")).map fun a =>
    ctx.proposal (lead ++ stream.name ++ "." ++ a.label) (tapDescription stream a)

/-- The streams are added before the apps are looked up. -/
def tap (lead : String) (tap : TapShape) : Search :=
  (Search.ofFound (tapStreams ctx lead tap)).andThen (.ofFound (tapApps ctx lead tap))

/-! ## Options -/

/-- The last app of a text that is a stream and not closed, with its registration. -/
def lastRegistration (head : String) :
    Except LookupFault (Option (Stream.App × Registration)) := do
  match Stream.parse head with
  | .error _ => return none
  | .ok stream =>
    let some last := openLast? stream | return none
    return (← ctx.registration last.name (lastRole stream)).map fun r => (last, r)

/-- Options that go on from the name typed and are not set. -/
def finishOption (shape : OptionShape) : Found := do
  let some (last, r) ← lastRegistration ctx shape.head | return []
  let options := r.options.filter fun o =>
    Text.startsWith o.name shape.option && (last.argument? o.name).isNone
  return options.map fun o => ctx.proposal (shape.head ++ " --" ++ o.name ++ "=") o.description

def addValue (typed : String) (shape : OptionShape) : Found := do
  let some (_, r) ← lastRegistration ctx shape.head | return []
  let some option := r.option? shape.option | return []
  return option.valueHints.map fun h => ctx.proposal (typed ++ h) option.description

/-! ## Proposals -/

/-- What a strategy does; nothing for a text of another shape. -/
def search (r : Recovery) (typed : String) : Search :=
  match r with
  | .tapOnDestination =>
    match destinationTap? typed.toList with
    | some shape => tap ctx ":" shape
    | none => { added := [] }
  | .tapOnStream =>
    match longTap? typed.toList with
    | some shape => tap ctx longTapLead shape
    | none => { added := [ctx.proposal longTapLead "Tap into the output of an existing stream."] }
  | .unfinishedOptionName =>
    match unfinishedOption? typed.toList with
    | some shape => .ofFound (finishOption ctx shape)
    | none => { added := [] }
  | .optionValueHint =>
    match optionWithoutValue? typed.toList with
    | some shape => .ofFound (addValue ctx typed shape)
    | none => { added := [] }

/-- What a strategy proposes. -/
def propose (r : Recovery) (typed : String) : Found := (search ctx r typed).found

/-! ## Missing app names -/

/-- What may follow a text without trailing white space, and the text before its last separator. -/
def expectedAfter (head : String) : Option (List Role × String) :=
  if head.isEmpty then some ([.source], "")
  else if let some before := Text.dropEnd? head "||" then some (unboundRoles, before)
  else if let some before := Text.dropEnd? head "|" then some (downstreamRoles, before)
  else if let some before := Text.dropEnd? head ">" then some (downstreamRoles, before)
  else none

/-- The labels of a text that is a stream. -/
def labelsOf (text : String) : List String :=
  match Stream.parse (Text.withoutTrailingBlanks text) with
  | .ok stream => stream.labelNames
  | .error _ => []

/-- Apps that may stand at the end of the text, where an app name is missing. -/
def missingApp (typed : String) (fault : Pipework.Fault) : Found := do
  if fault.message != .expectedAppname || fault.offset < typed.utf8ByteSize then return []
  let head := Text.withoutTrailingBlanks typed
  let some (roles, before) := expectedAfter head | return []
  let used := labelsOf before
  let registrations ← ctx.registry.allOf roles
  return registrations.filterMap fun r =>
    (ctx.autoLabel r.name used).map fun app =>
      ctx.proposal (if head.isEmpty then app else head ++ " " ++ app) r.description

end Recovery

end Pipework.Completion
