import Pipework.Argument.Printer
import Pipework.Task.Basic

/-! The one spelling of a task: a line for each sequence, no parentheses, and no name. -/

namespace Pipework.Task

/-- A code stands as it is, a status in quotes. -/
def Condition.render : Condition → String
  | .exitCode text => text
  | .exitStatus text => Text.quoteStatus text

mutual

def App.render : App → String
  | ⟨label, name, arguments, transitions, _, _⟩ =>
    Label.render label ++ name ++ Argument.renderAll arguments ++ renderTransitions transitions

def Transition.render : Transition → String
  | ⟨condition, target, _, _⟩ => " " ++ condition.render ++ "->" ++ target.render

def Target.render : Target → String
  | .label name => ":" ++ name
  | .app a => a.render

def renderTransitions : List Transition → String
  | [] => ""
  | t :: ts => t.render ++ renderTransitions ts

end

mutual

def Split.render : Split → String
  | ⟨label, branches, _, _⟩ =>
    Label.render label ++ "<" ++ " || ".intercalate (renderBranches branches) ++ ">"

def Sequence.render : Sequence → String
  | ⟨elements, _, _⟩ => " && ".intercalate (renderElements elements)

def Element.render : Element → String
  | .app a => a.render
  | .split s => s.render

def renderElements : List Element → List String
  | [] => []
  | e :: es => e.render :: renderElements es

def renderBranches : List Sequence → List String
  | [] => []
  | s :: ss => s.render :: renderBranches ss

end

def render (t : Task) : String := "\n".intercalate (t.sequences.map Sequence.render)

end Pipework.Task
