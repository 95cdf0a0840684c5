import Pipework.Argument
import Pipework.Json

/-! Labels and arguments as JSON. -/

namespace Pipework

def Label.toJson (l : Label) : Json :=
  .object [("label", .text l.name), ("start", .number l.start), ("end", .number l.stop)]

def Argument.toJson (a : Argument) : Json :=
  .object [("name", .text a.name), ("value", .text a.value), ("start", .number a.start),
    ("end", .number a.stop)]

end Pipework
