import Pipework.Graph.Basic
import Pipework.Task.Printer

/-! A graph written as the text of a task, from left to right along its links. Plain links give flows
and splits, links with a condition the transitions of apps. -/

namespace Pipework.Graph

open Pipework.Task

/-- The text so far, the nodes of flows that are in it, last first, and the heads of the sequences
that have lines of their own, in the order of these. -/
structure Writing where
  text : String := ""
  visited : List Nat := []
  queued : List Nat := []

abbrev Write := StateM Writing

def put (text : String) : Write Unit := modify fun w => { w with text := w.text ++ text }

/-- Marks a node of a flow as written. -/
def mark (id : Nat) : Write Unit := modify fun w => { w with visited := id :: w.visited }

def enqueue (id : Nat) : Write Unit :=
  modify fun w => if id ∈ w.queued then w else { w with queued := w.queued ++ [id] }

/-- Parts a piece from the ones before it. -/
def separate (separator : String) (first : Bool) : Write Unit :=
  if first then return else put separator

/-! ## Apps -/

def writeLabel : Option String → Write Unit
  | none => return
  | some label => do
    put label
    put ": "

def writeProperty : String × String → Write Unit
  | (name, value) => do
    put " --"
    put name
    put "="
    put (Text.quoteValue value)

/-- An app without its transitions. -/
def writePlainApp (n : Node) : Write Unit := do
  writeLabel n.label
  put n.name
  n.properties.forM writeProperty

/-- The label by which a transition leads to a node of a flow, if it does. The flow that a node heads
is to be written on a line of its own. -/
def jumpLabel (g : Graph) (n : Node) : Write (Option String) :=
  match n.label with
  | none => return none
  | some label => do
    if !(g.predecessors n.id).isEmpty then
      return some label
    else if g.headsSequence n.id then
      enqueue n.id
      return some label
    else
      return none

def writeTarget (g : Graph) (n : Node) : Write Unit := do
  if n.isMarker then
    put n.name
  else
    match ← jumpLabel g n with
    | some label =>
      put ":"
      put label
    | none => writePlainApp n

def writeTransition (g : Graph) : Condition × Node → Write Unit
  | (condition, target) => do
    put " "
    put condition.render
    put "->"
    writeTarget g target

def writeApp (g : Graph) (n : Node) : Write Unit := do
  writePlainApp n
  (g.transitions n.id).forM (writeTransition g)

/-! ## Flows -/

/-- One branch from each entry. -/
def writeBranches (branch : Nat → Write Unit) (first : Bool) : List Nat → Write Unit
  | [] => return
  | entry :: entries => do
    separate " || " first
    branch entry
    writeBranches branch false entries

/-- A split with a branch from each entry; gives the node at which the branches join. `flow` writes
the flow from a node up to another. -/
def writeSplit (g : Graph) (flow : Nat → Option Nat → Write Unit) (entries : List Nat) :
    Write (Option Nat) := do
  let join := g.joinOf entries
  put "<"
  writeBranches (fun entry => flow entry join) true entries
  put ">"
  return join

/-- The flow from `entries` on, up to `stop`, to the end, or to a node that has been written. With
`first`, nothing of the flow has been written yet. -/
def writeWithin (g : Graph) : Nat → Bool → List Nat → Option Nat → Write Unit
  | 0, _, _, _ => return
  | _, _, [], _ => return
  | fuel + 1, first, [id], stop => do
    if some id = stop then return
    let some node := g.node? id | return
    if node.name = endName || id ∈ (← get).visited then return
    mark id
    let successors := g.successors id
    if node.isSync then
      if successors.length > 1 then
        separate " && " first
        writeLabel node.label
        let join ← writeSplit g (fun entry => writeWithin g fuel true [entry]) successors
        writeWithin g fuel false join.toList stop
      else writeWithin g fuel first successors stop
    else
      separate " && " first
      writeApp g node
      writeWithin g fuel false successors stop
  | fuel + 1, first, entries, stop => do
    separate " && " first
    let join ← writeSplit g (fun entry => writeWithin g fuel true [entry]) entries
    writeWithin g fuel false join.toList stop

/-- At every second step in depth a node is written that was not written before, so the nodes bound
the depth. -/
def writeFlow (g : Graph) (entries : List Nat) : Write Unit :=
  writeWithin g (2 * (g.nodes.length + 2)) true entries none

/-- The lines of the heads from a position on. Writing one can add heads, each node once. -/
def writeLines (g : Graph) : Nat → Nat → Write Unit
  | 0, _ => return
  | fuel + 1, index => do
    match (← get).queued[index]? with
    | none => return
    | some head =>
      put "\n"
      writeFlow g [head]
      writeLines g fuel (index + 1)

def writeAll (g : Graph) (start : Node) : Write Unit := do
  writeFlow g (g.successors start.id)
  writeLines g g.nodes.length 0

/-- A graph without a start has no text. -/
def render (g : Graph) : String :=
  match g.named? startName with
  | none => ""
  | some start => ((writeAll g start).run {}).2.text

end Pipework.Graph
