import Pipework.Task.Basic
import Pipework.Walk

/-! Walks through a task: its sequences in order, and their elements from left to right. -/

namespace Pipework.Task

inductive Node where
  | task (t : Task)
  /-- The index is that of a sequence of the task itself; a branch has none. -/
  | sequence (s : Sequence) (index : Option Nat)
  | split (s : Split)
  /-- An app of a flow, not the target of a transition. -/
  | app (a : App)
  | transition (t : Transition)

def App.walk (descends : Node → Bool) (a : App) : List (Event Node) :=
  Event.around descends (.app a)
    (a.transitions.flatMap fun t => Event.around descends (.transition t) [])

mutual

def Sequence.walk (descends : Node → Bool) (index : Option Nat) : Sequence → List (Event Node)
  | ⟨elements, start, stop⟩ =>
    Event.around descends (.sequence ⟨elements, start, stop⟩ index) (walkElements descends elements)

def Split.walk (descends : Node → Bool) : Split → List (Event Node)
  | ⟨label, branches, start, stop⟩ =>
    Event.around descends (.split ⟨label, branches, start, stop⟩) (walkBranches descends branches)

def Element.walk (descends : Node → Bool) : Element → List (Event Node)
  | .app a => a.walk descends
  | .split s => s.walk descends

def walkElements (descends : Node → Bool) : List Element → List (Event Node)
  | [] => []
  | e :: es => e.walk descends ++ walkElements descends es

def walkBranches (descends : Node → Bool) : List Sequence → List (Event Node)
  | [] => []
  | s :: ss => s.walk descends none ++ walkBranches descends ss

end

def walkSequences (descends : Node → Bool) (index : Nat) : List Sequence → List (Event Node)
  | [] => []
  | s :: ss => s.walk descends (some index) ++ walkSequences descends (index + 1) ss

def walk (descends : Node → Bool) (t : Task) : List (Event Node) :=
  Event.around descends (.task t) (walkSequences descends 0 t.sequences)

/-- The walk that skips nothing. -/
def events (t : Task) : List (Event Node) := t.walk fun _ => true

/-! ## Apps -/

/-- An app and the apps it can lead to; the markers are none. -/
def Node.apps : Node → List App
  | .app a => [a]
  | .transition t => (t.target.app?.filter fun a => !isMarker a.name).toList
  | _ => []

/-- All apps, in the order of the walk. -/
def allApps (t : Task) : List App := (Event.entered t.events).flatMap Node.apps

/-- Each app name once, where it first occurs. -/
def appNames (t : Task) : List String := (t.allApps.map App.name).eraseDups

end Pipework.Task
