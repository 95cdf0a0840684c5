import Pipework.Graph.Basic

/-! Reading a graph back: the task that it shows. Plain links give flows and splits, links with a
condition the transitions of apps. What is read back has no positions, so all of them are zero. -/

namespace Pipework.Graph

open Pipework.Task

/-- The nodes read so far, last first, and the heads of the sequences that transitions lead to. -/
structure Reading where
  visited : List Nat := []
  heads : List Nat := []

abbrev Read := StateM Reading

def visit (id : Nat) : Read Unit := modify fun r => { r with visited := id :: r.visited }

def addHead (id : Nat) : Read Unit :=
  modify fun r => if id ∈ r.heads then r else { r with heads := r.heads ++ [id] }

/-! ## Apps -/

def Node.toLabel (n : Node) : Option Label := n.label.map fun name => ⟨name, 0, 0⟩

def Node.toApp (n : Node) (transitions : List Transition) : App :=
  { label := n.toLabel, name := n.name,
    arguments := n.properties.map fun (name, value) => ⟨name, value, 0, 0⟩,
    transitions, start := 0, stop := 0 }

/-- What a transition to a node leads to: a marker, a label in a flow, or an app of its own. -/
def readTarget (g : Graph) (n : Node) : Read Target := do
  if n.isMarker then return .app ({ n with label := none, properties := [] }.toApp [])
  match n.label with
  | none => return .app (n.toApp [])
  | some label =>
    if !(g.predecessors n.id).isEmpty then return .label label
    if !g.headsSequence n.id then return .app (n.toApp [])
    addHead n.id
    return .label label

def readTransition (g : Graph) (t : Condition × Node) : Read Transition := do
  return ⟨t.1, ← readTarget g t.2, 0, 0⟩

def readApp (g : Graph) (n : Node) : Read App := do
  return n.toApp (← (g.transitions n.id).mapM (readTransition g))

/-! ## Flows -/

/-- A split with a branch from each entry, and the node at which the branches join. `flow` reads the
elements from some entries up to a node. -/
def readSplit (g : Graph) (flow : List Nat → Option Nat → Read (List Element))
    (label : Option Label) (entries : List Nat) : Read (Element × Option Nat) := do
  let join := g.joinOf entries
  let branches ← entries.mapM fun entry => flow [entry] join
  return (.split ⟨label, branches.map fun elements => ⟨elements, 0, 0⟩, 0, 0⟩, join)

/-- The elements of the flow from `entries` on, up to `stop`, to the end, or to a node that has been
read. -/
def flowWithin (g : Graph) : Nat → List Nat → Option Nat → Read (List Element)
  | 0, _, _ => return []
  | _, [], _ => return []
  | fuel + 1, [id], stop => do
    if some id = stop then return []
    let some node := g.node? id | return []
    if node.name = endName || id ∈ (← get).visited then return []
    visit id
    let successors := g.successors id
    if node.isSync then
      if successors.length > 1 then
        let (split, join) ← readSplit g (flowWithin g fuel) node.toLabel successors
        return split :: (← flowWithin g fuel join.toList stop)
      else flowWithin g fuel successors stop
    else
      let app ← readApp g node
      return .app app :: (← flowWithin g fuel successors stop)
  | fuel + 1, entries, stop => do
    let (split, join) ← readSplit g (flowWithin g fuel) none entries
    return split :: (← flowWithin g fuel join.toList stop)

/-- At every second step in depth a node is read that was not read before, so the nodes bound the
depth. -/
def readFlow (g : Graph) (entries : List Nat) : Read Sequence := do
  return ⟨← flowWithin g (2 * (g.nodes.length + 2)) entries none, 0, 0⟩

/-- The sequences of the heads from a position on. Reading one can add heads, each node once. -/
def readHeads (g : Graph) : Nat → Nat → Read (List Sequence)
  | 0, _ => return []
  | fuel + 1, index => do
    match (← get).heads[index]? with
    | none => return []
    | some head => return (← readFlow g [head]) :: (← readHeads g fuel (index + 1))

def readAll (g : Graph) (start : Node) : Read (List Sequence) := do
  let first ← readFlow g (g.successors start.id)
  return first :: (← readHeads g g.nodes.length 0)

/-- A graph without a start shows nothing. -/
def readback (g : Graph) : Task where
  name := none
  text := ""
  sequences :=
    match g.named? startName with
    | none => []
    | some start => ((readAll g start).run {}).1

end Pipework.Graph
