import Pipework.Argument
import Pipework.Text.Quoted

/-! Labels and arguments as they are written. -/

namespace Pipework

def Label.render : Option Label → String
  | none => ""
  | some l => l.name ++ ": "

def Argument.render (a : Argument) : String := " --" ++ a.name ++ "=" ++ Text.quoteValue a.value

def Argument.renderAll (arguments : List Argument) : String :=
  String.join (arguments.map Argument.render)

end Pipework
