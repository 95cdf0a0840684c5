import Pipework.Fault
import Pipework.Task.Parser
import Pipework.Task.Walk

/-! What a task has to satisfy as a whole: splits have two branches or more, sequences after the
first have labels, labels and the names of unlabelled apps are all different, and transitions lead
to labels that are there. The first fault on a walk through the task is reported. -/

namespace Pipework.Task

/-- How an element of a flow is known: by its label, or by its app's name. -/
inductive KeyKind where
  | label
  | appName
  deriving DecidableEq, Repr

/-- Why a key cannot be given twice, by how it is known first and second. -/
def KeyKind.clash : KeyKind → KeyKind → Message
  | .label, .label => .taskValidationDuplicateLabel
  | .appName, .appName => .taskValidationAppNameAlreadyInUse
  | .appName, .label => .taskValidationLabelClashesWithTaskappName
  | .label, .appName => .taskValidationAppNameClashesWithLabel

/-- What a walk has found so far. -/
structure Survey where
  text : String
  keys : List (String × KeyKind) := []
  /-- The labels that transitions lead to, and where. -/
  jumps : List (String × Nat) := []
  fault : Option Fault := none

namespace Survey

def fail (s : Survey) (offset : Nat) (message : Message) (inserts : List String) : Survey :=
  { s with fault := s.fault <|> some { expression := s.text, offset, message, inserts } }

def register (s : Survey) (key : String) (kind : KeyKind) (offset : Nat) : Survey :=
  match s.keys.lookup key with
  | none => { s with keys := (key, kind) :: s.keys }
  | some first => s.fail offset (first.clash kind) [key]

def enterSequence (s : Survey) (sequence : Sequence) : Option Nat → Survey
  | some (_ + 1) =>
    if sequence.label?.isNone then
      s.fail sequence.start .taskValidationSecondarySequencesMustBeNamed []
    else s
  | _ => s

def enterSplit (s : Survey) (split : Split) : Survey :=
  let s :=
    if split.branches.length < 2 then s.fail split.start .taskValidationSplitWithOneFlow [] else s
  match split.label with
  | some label => s.register label.name .label label.start
  | none => s

def enterApp (s : Survey) (app : App) : Survey :=
  match app.label with
  | some label => s.register label.name .label label.start
  | none => s.register app.name .appName app.start

def enterTransition (s : Survey) (transition : Transition) : Survey :=
  match transition.target.label? with
  | some label => { s with jumps := s.jumps ++ [(label, transition.start)] }
  | none => s

def step (s : Survey) : Node → Survey
  | .task _ => s
  | .sequence sequence index => s.enterSequence sequence index
  | .split split => s.enterSplit split
  | .app app => s.enterApp app
  | .transition transition => s.enterTransition transition

/-- Once all labels are known, a jump to any other text is a fault. -/
def finish (s : Survey) : Survey :=
  match s.jumps.find? fun j => s.keys.lookup j.1 != some .label with
  | some (label, offset) => s.fail offset .taskValidationTransitionTargetLabelUndefined [label]
  | none => s

end Survey

def survey (t : Task) : Survey :=
  ((Event.entered t.events).foldl Survey.step { text := t.text }).finish

def validate (t : Task) : Except Fault Unit :=
  match t.survey.fault with
  | some fault => .error fault
  | none => .ok ()

/-- How a task is read. -/
structure Options where
  name : Option String := none
  /-- Apps can have arguments. -/
  appMode : Bool := true
  /-- The task is checked as a whole. -/
  validate : Bool := true

def parseWith (options : Options) (text : String) : Except Fault Task := do
  let task ← parseUnchecked options.name options.appMode text
  if options.validate then task.validate
  return task

def parse (text : String) : Except Fault Task := parseWith {} text

end Pipework.Task
