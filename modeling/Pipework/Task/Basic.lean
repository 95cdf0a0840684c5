import Pipework.Argument

/-! Tasks: sequences of apps and splits. The first sequence is where a task starts; the others are
reached by transitions only. -/

namespace Pipework

namespace Task

/-- When a transition is taken: on an exit code, on any (`*`), or on a status. -/
inductive Condition where
  | exitCode (text : String)
  | exitStatus (text : String)
  deriving DecidableEq, Repr

def Condition.text : Condition → String
  | .exitCode text | .exitStatus text => text

def Condition.isWildcard : Condition → Bool
  | .exitCode text => text == "*"
  | .exitStatus _ => false

mutual

structure App where
  label : Option Label
  name : String
  arguments : List Argument
  transitions : List Transition
  start : Nat
  stop : Nat

structure Transition where
  condition : Condition
  target : Target
  start : Nat
  stop : Nat

inductive Target where
  /-- A jump to a labelled app, split or sequence. -/
  | label (name : String)
  /-- An app to run, or one of the names that end a task. -/
  | app (app : App)

end

mutual

/-- Branches that run side by side. -/
structure Split where
  label : Option Label
  branches : List Sequence
  start : Nat
  stop : Nat

/-- Elements that run one after the other. -/
structure Sequence where
  elements : List Element
  start : Nat
  stop : Nat

inductive Element where
  | app (app : App)
  | split (split : Split)

end

def endTarget : String := "$END"

def failTarget : String := "$FAIL"

/-- The names that end a task rather than run an app. -/
def isMarker (name : String) : Bool := name == endTarget || name == failTarget

namespace App

def labelName (a : App) : String := (a.label.map Label.name).getD a.name

def argument? (a : App) (name : String) : Option String := Argument.value? a.arguments name

end App

namespace Target

def app? : Target → Option App
  | .label _ => none
  | .app a => some a

def label? : Target → Option String
  | .label name => some name
  | .app _ => none

def isEnd (t : Target) : Bool := t.app?.any fun a => a.name == endTarget

def isFail (t : Target) : Bool := t.app?.any fun a => a.name == failTarget

end Target

def Split.labelName? (s : Split) : Option String := s.label.map Label.name

namespace Element

def label : Element → Option Label
  | .app a => a.label
  | .split s => s.label

def start : Element → Nat
  | .app a => a.start
  | .split s => s.start

end Element

/-- A sequence is named by the label of its first element. -/
def Sequence.label? (s : Sequence) : Option String :=
  s.elements.head?.bind fun e => e.label.map Label.name

end Task

structure Task where
  name : Option String
  /-- The text that the task was read from. -/
  text : String
  sequences : List Task.Sequence

namespace Task

/-- A task of one app that leads nowhere else. -/
def isSingleApp (t : Task) : Bool :=
  match t.sequences with
  | [⟨[.app a], _, _⟩] => a.transitions.isEmpty
  | _ => false

end Task

end Pipework
