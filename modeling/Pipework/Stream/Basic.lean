import Pipework.Argument
import Pipework.Channel
import Pipework.Role

/-! Streams: apps in a row, each feeding the next, with a channel before the first and after the
last if wanted; or apps side by side that are not connected. -/

namespace Pipework

namespace Stream

structure App where
  label : Option Label
  name : String
  /-- In the order in which they are first given; no name twice. -/
  arguments : List Argument
  start : Nat
  stop : Nat
  deriving DecidableEq, Repr

/-- What an app is called within its stream: its label, or else its name. -/
def App.labelName (a : App) : String := (a.label.map Label.name).getD a.name

def App.argument? (a : App) (name : String) : Option String := Argument.value? a.arguments name

def App.properties (a : App) : List (String × String) := Argument.properties a.arguments

/-- A channel at one end of a stream, and where the `>` stands that joins it. -/
structure Endpoint where
  channel : Channel
  start : Nat
  stop : Nat
  gt : Nat
  deriving DecidableEq, Repr

end Stream

structure Stream where
  name : Option String
  /-- The text that the stream was read from. -/
  text : String
  apps : List Stream.App
  source : Option Stream.Endpoint
  sink : Option Stream.Endpoint
  /-- The apps are not connected. -/
  unbound : Bool
  deriving DecidableEq, Repr

namespace Stream

def labelNames (s : Stream) : List String := s.apps.map App.labelName

def app? (s : Stream) (label : String) : Option App := s.apps.find? fun a => a.labelName == label

/-! ## Bridges -/

/-- The app that stands for the direct connection of two channels. -/
def App.bridge (gt : Nat) : App :=
  { label := none, name := "bridge", arguments := [], start := gt, stop := gt + 1 }

def App.isBridge (a : App) : Bool := a.label.isNone && a.name == "bridge" && a.arguments.isEmpty

def isBridge (s : Stream) : Bool :=
  s.source.isSome && s.sink.isSome &&
    match s.apps with
    | [a] => a.isBridge
    | _ => false

/-! ## Connections -/

/-- How one side of an app is connected. -/
inductive Binding where
  | unset
  | pipe (peer : String)
  | channel (channel : Channel)
  deriving DecidableEq, Repr

structure Bindings where
  input : Binding
  output : Binding
  deriving DecidableEq, Repr

def Binding.ofEndpoint : Option Endpoint → Binding
  | none => .unset
  | some e => .channel e.channel

/-- The bindings of apps in a row, given what feeds the first and what the last feeds. -/
def bindingsFrom (input output : Binding) : List App → List Bindings
  | [] => []
  | [_] => [⟨input, output⟩]
  | a :: b :: rest =>
    ⟨input, .pipe b.labelName⟩ :: bindingsFrom (.pipe a.labelName) output (b :: rest)

def bindings (s : Stream) : List Bindings :=
  if s.unbound then s.apps.map fun _ => ⟨.unset, .unset⟩
  else bindingsFrom (.ofEndpoint s.source) (.ofEndpoint s.sink) s.apps

/-- The role of an app that has an input or an output or both. -/
def roleOf (b : Bindings) : Role :=
  if b.input = .unset then .source else if b.output = .unset then .sink else .processor

def roles (s : Stream) : List Role :=
  if s.unbound then s.apps.map fun _ => .app else s.bindings.map roleOf

/-! ## Shape -/

def App.withoutPosition (a : App) : App :=
  { label := a.label.map Label.withoutPosition, name := a.name,
    arguments := a.arguments.map Argument.withoutPosition, start := 0, stop := 0 }

def Endpoint.withoutPosition (e : Endpoint) : Endpoint := ⟨e.channel, 0, 0, 0⟩

/-- The stream without its text and every offset. -/
def withoutPositions (s : Stream) : Stream :=
  { name := s.name, text := "", apps := s.apps.map App.withoutPosition,
    source := s.source.map Endpoint.withoutPosition, sink := s.sink.map Endpoint.withoutPosition,
    unbound := s.unbound }

def sameShape (a b : Stream) : Bool := a.withoutPositions == b.withoutPositions

end Stream

end Pipework
