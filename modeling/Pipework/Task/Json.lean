import Pipework.Argument.Json
import Pipework.Task.Basic

/-! Tasks as JSON. -/

namespace Pipework.Task

def Condition.toJson : Condition → Json
  | .exitCode text => .tagged "ExitCode" (.text text)
  | .exitStatus text => .tagged "ExitStatus" (.text text)

mutual

def App.toJson : App → Json
  | ⟨label, name, arguments, transitions, start, stop⟩ =>
    .object [("label", .ofOption Label.toJson label), ("name", .text name),
      ("arguments", .ofList Argument.toJson arguments),
      ("transitions", .list (transitionsToJson transitions)), ("start", .number start),
      ("end", .number stop)]

def Transition.toJson : Transition → Json
  | ⟨condition, target, start, stop⟩ =>
    .object [("condition", condition.toJson), ("target", target.toJson), ("start", .number start),
      ("end", .number stop)]

def Target.toJson : Target → Json
  | .label name => .tagged "Label" (.text name)
  | .app a => .tagged "App" a.toJson

def transitionsToJson : List Transition → List Json
  | [] => []
  | t :: ts => t.toJson :: transitionsToJson ts

end

mutual

def Split.toJson : Split → Json
  | ⟨label, branches, start, stop⟩ =>
    .object [("label", .ofOption Label.toJson label), ("branches", .list (branchesToJson branches)),
      ("start", .number start), ("end", .number stop)]

def Sequence.toJson : Sequence → Json
  | ⟨elements, start, stop⟩ =>
    .object [("elements", .list (elementsToJson elements)), ("start", .number start),
      ("end", .number stop)]

def Element.toJson : Element → Json
  | .app a => .tagged "App" a.toJson
  | .split s => .tagged "Split" s.toJson

def elementsToJson : List Element → List Json
  | [] => []
  | e :: es => e.toJson :: elementsToJson es

def branchesToJson : List Sequence → List Json
  | [] => []
  | s :: ss => s.toJson :: branchesToJson ss

end

def toJson (t : Task) : Json :=
  .object [("name", .ofOption .text t.name), ("dsl", .text t.text),
    ("sequences", .ofList Sequence.toJson t.sequences)]

end Pipework.Task
