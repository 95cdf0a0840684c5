import Pipework.Argument.Parser
import Pipework.Stream.Basic
import Pipework.Text.Name
import Pipework.Token.Lexer

/-! Reading streams:

    stream   = [name =] [channel >] apps [> channel] or [name =] channel > channel
    apps     = app | app | ... or app || app || ...
    app      = [label:] name arguments
    channel  = :name.name... or queue:name or topic:name or tap:stream:name[.label] -/

namespace Pipework.Stream

/-! ## Labels -/

/-- One clash for every app whose label an app before it has. -/
def clashesAfter (before : List App) : List App → List LabelClash
  | [] => []
  | a :: rest =>
    let others := clashesAfter (before ++ [a]) rest
    match before.find? fun b => b.labelName == a.labelName with
    | none => others
    | some first => ⟨a.labelName, first.name, first.start, a.name, a.start⟩ :: others

def clashes (s : Stream) : List LabelClash := clashesAfter [] s.apps

namespace Read

open Token Pipework.Parser

/-! ## Channels -/

def isComponent : Kind → Bool
  | .identifier _ | .number _ | .star | .slash | .hash => true
  | _ => false

/-- One more token of a component that has begun. -/
def componentRest : Parser (Option String) := do
  if isComponent (← peekKind) && (← adjacent) then return some (← next).text
  return none

def component : Parser String := do
  let first ← next
  return first.text ++ String.join (← many componentRest)

def dottedComponent : Parser (Option String) := do
  if (← peekKind) != .dot || !(← adjacent) then return none
  let _ ← next
  let token ← peek
  if token.kind == .eof then unexpected "destination name"
  requireAdjacent .noWhitespaceInDestinationDefinition
  if !isComponent token.kind then refuseHere .unexpectedDataInDestinationName [token.text]
  return some (← component)

/-- The channel that a destination's components name. As a source, two of them tap a stream. -/
def channelOf (isSource : Bool) : List String → Channel
  | [stream, label] =>
    if isSource then .tap stream (some label) else .destination (".".intercalate [stream, label])
  | components => .destination (".".intercalate components)

/-- A channel with its start and its end. -/
abbrev Placed := Channel × Nat × Nat

def destination (isSource : Bool) : Parser Placed := do
  let colon ← eat .colon
  if !isComponent (← peekKind) then refuseHere .expectedStreamNameAfterLabelColon []
  requireAdjacent .noWhitespaceInDestinationDefinition
  let first ← component
  let rest ← many dottedComponent
  if (← peekKind) == .colon && (← adjacent) then
    refuseHere .unexpectedDataInDestinationName [":"]
  return (channelOf isSource (first :: rest), colon.start, ← previousStop)

/-- A keyword of the long form of channels, and the colon right after it. -/
def startsKeyword (c : Cursor) : Bool :=
  match c.peekAt 1 with
  | some colon =>
    (c.peek.kind == .identifier "queue" || c.peek.kind == .identifier "topic" ||
      c.peek.kind == .identifier "tap") && colon.kind == .colon && colon.start == c.peek.stop
  | none => false

def colonName : Parser (Option String) := do
  if (← peekKind) != .colon then return none
  requireAdjacent .noWhitespaceInChannelDefinition
  let _ ← next
  if !(← peek).isName then unexpected "channel name"
  requireAdjacent .noWhitespaceInChannelDefinition
  return some (← next).text

def tapLabel : Parser (Option String) := do
  if (← peekKind) != .dot || !(← adjacent) then return none
  let _ ← next
  if !(← peek).isName then unexpected "label"
  requireAdjacent .noWhitespaceInChannelDefinition
  return some (← next).text

/-- The channel of the long form that starts with the keyword `first`. -/
def keywordChannel (isSource : Bool) (first : Token) (names : List String) : Parser Channel := do
  if first.text = "tap" then
    if !isSource then refuse first.start .expectedChannelPrefixQueueTopic ["tap"]
    match names with
    | scope :: stream :: more =>
      if scope ≠ "stream" then refuse first.start .notAllowedToTapThat [scope]
      return .tap (":".intercalate (stream :: more)) (← tapLabel)
    | _ => refuse first.start .tapNeedsThreeComponents []
  else
    match Channel.Kind.ofName? first.text with
    | none =>
      refuse first.start
        (if isSource then .expectedChannelPrefixQueueTopicTap else .expectedChannelPrefixQueueTopic)
        [first.text]
    | some kind =>
      if names.isEmpty then unexpected "channel name"
      if (← peekKind) == .dot && (← adjacent) then refuseHere .channelIndexingNotAllowed []
      return .named kind (":".intercalate names)

def keyword (isSource : Bool) : Parser Placed := do
  let first ← next
  let names ← many colonName
  let channel ← keywordChannel isSource first names
  return (channel, first.start, ← previousStop)

def startsChannel : Parser Bool := return (← get).peek.kind == .colon || startsKeyword (← get)

def channel (isSource : Bool) : Parser Placed := do
  if (← peekKind) == .colon then destination isSource else keyword isSource

/-- A `>` comes before any pipe. -/
def gtBeforePipe : List Token → Bool
  | [] => false
  | t :: ts =>
    match t.kind with
    | .gt => true
    | .pipe | .doublePipe | .eof => false
    | _ => gtBeforePipe ts

/-- At the start of a stream, a keyword and a colon can also be a label. -/
def startsSource : Parser Bool := do
  let c ← get
  return c.peek.kind == .colon || (startsKeyword c && gtBeforePipe c.ahead)

def source? : Parser (Option Endpoint) := do
  if !(← startsSource) then return none
  let (channel, start, stop) ← channel true
  let gt ← eat .gt
  return some ⟨channel, start, stop, gt.start⟩

def sink? : Parser (Option Endpoint) := do
  let some gt ← eatIf .gt | return none
  if !(← startsChannel) then refuseHere .expectedDestinationPrefix [(← peek).text]
  let (channel, start, stop) ← channel false
  return some ⟨channel, start, stop, gt.start⟩

/-! ## Apps -/

def appName : Parser Token := do
  let token ← peek
  if token.isName then next else refuseHere .expectedAppname [token.text]

def endsLabel : Parser Bool := return (← peekKind) == .colon && (← adjacent)

/-- The label of an app, if it has one, and the token of its name. -/
def labelledName : Parser (Option Label × Token) := do
  let first ← appName
  if !(← endsLabel) then return (none, first)
  let colon ← next
  if (← hasNext) && (← adjacent) then refuseHere .expectedWhitespaceAfterLabelColon []
  let name ← appName
  if ← endsLabel then refuse name.start .noDoubleLabels []
  return (some ⟨first.text, first.start, colon.stop⟩, name)

def app : Parser App := do
  let (label, name) ← labelledName
  let arguments ← Argument.arguments
  return { label, name := name.text, arguments := arguments.foldl Argument.insert [],
           start := (label.map Label.start).getD name.start,
           stop := (arguments.getLast?.map Argument.stop).getD name.stop }

/-- An app after one more separator, which has to be the one used before. -/
def separatedApp (separator : Kind) : Parser (Option App) := do
  let token ← peek
  if token.kind != .pipe && token.kind != .doublePipe then return none
  if token.kind != separator then refuseHere .dontMixPipeAndDoublepipe []
  let _ ← next
  let start := (← peek).start
  if (← peekKind) == .colon then
    let _ ← destination false
    refuse start .destinationsUnsupportedHere []
  let app ← app
  checkpoint
  return some app

/-- Apps, and whether they are separated by double pipes. -/
def apps : Parser (List App × Bool) := do
  let first ← app
  checkpoint
  let separator ← peekKind
  let rest ← many (separatedApp separator)
  return (first :: rest, separator == .doublePipe)

/-! ## Streams -/

def inlineName : Parser (Option String) := do
  if (← peek).isName && (← secondKind) == some .equals then
    let name ← next
    let _ ← next
    return some name.text
  return none

/-- What follows the source: a sink alone, or apps and perhaps a sink. -/
def appsAndSink (source : Option Endpoint) : Parser (List App × Bool × Option Endpoint) := do
  match source, ← startsChannel with
  | some source, true =>
    let (channel, start, stop) ← channel false
    return ([.bridge source.gt], false, some ⟨channel, start, stop, source.gt⟩)
  | _, _ =>
    let (apps, unbound) ← apps
    let token ← peek
    if (← hasNext) && token.kind != .gt then
      refuseHere .unexpectedDataAfterStreamdef [token.text]
    return (apps, unbound, ← sink?)

/-- Apps that are not connected cannot have a channel. -/
def requireBound (unbound : Bool) (source sink : Option Endpoint) : Parser Unit :=
  if unbound then
    match source, sink with
    | some source, _ => refuse source.start .dontUseDoublepipeWithChannels []
    | none, some sink => refuse sink.gt .dontUseDoublepipeWithChannels []
    | none, none => return
  else return

def body : Parser Stream := do
  let name ← inlineName
  let source ← source?
  checkpoint
  let (apps, unbound, sink) ← appsAndSink source
  requireBound unbound source sink
  if ← hasNext then refuseHere .moreInput [(← get).remainingText]
  return { name, text := (← get).expression, apps, source, sink, unbound }

/-! ## Names -/

/-- Reports all clashes at once, at the first of them. -/
def requireUniqueLabels (s : Stream) : Parser Unit := fun c =>
  match s.clashes with
  | [] => .ok ((), c)
  | clash :: rest =>
    .error { c.fault clash.secondOffset .duplicateLabel clash.inserts with
      clashes := clash :: rest }

def requireLegalName : Option String → Parser Unit
  | some name =>
    if Text.isLegalName name then return else refuse 0 .illegalStreamName [name]
  | none => return

/-- A stream; `name` is its name unless its text gives one. -/
def definition (name : Option String) : Parser Stream := do
  let stream ← body
  let stream := { stream with name := stream.name <|> name }
  requireLegalName stream.name
  requireUniqueLabels stream
  return stream

end Read

def parseNamed (name : Option String) (text : String) : Except Fault Stream := do
  let tokens ← Token.tokenize text
  let (stream, _) ← (Read.definition name).run (.ofTokens text tokens)
  return stream

def parse (text : String) : Except Fault Stream := parseNamed none text

end Pipework.Stream
