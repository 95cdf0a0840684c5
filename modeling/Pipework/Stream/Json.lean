import Pipework.Argument.Json
import Pipework.Stream.Basic

/-! Streams as JSON. -/

namespace Pipework

def Channel.toJson : Channel → Json
  | .destination name => .tagged "Destination" (.object [("name", .text name)])
  | .tap stream label =>
    .tagged "Tap" (.object [("stream", .text stream), ("label", .ofOption .text label)])
  | .named kind name =>
    .tagged "Named" (.object [("kind", .text kind.name), ("name", .text name)])

namespace Stream

def Endpoint.toJson (e : Endpoint) : Json :=
  .object [
    ("channel", .object [("reference", e.channel.toJson), ("start", .number e.start),
      ("end", .number e.stop)]),
    ("gt_offset", .number e.gt)]

def App.toJson (a : App) : Json :=
  .object [("label", .ofOption Label.toJson a.label), ("name", .text a.name),
    ("arguments", .ofList Argument.toJson a.arguments), ("start", .number a.start),
    ("end", .number a.stop)]

def toJson (s : Stream) : Json :=
  .object [("name", .ofOption .text s.name), ("dsl", .text s.text),
    ("apps", .ofList App.toJson s.apps), ("source_channel", .ofOption Endpoint.toJson s.source),
    ("sink_channel", .ofOption Endpoint.toJson s.sink), ("apps_unbound", .bool s.unbound)]

end Stream

end Pipework
