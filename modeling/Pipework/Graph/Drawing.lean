import Pipework.Graph.Basic

/-! Drawing a task as a graph. The first sequence becomes a path from the start node to the end
node; each further sequence is drawn when a jump to its label is resolved. -/

namespace Pipework.Graph

open Pipework.Task

/-- A transition to a label, which is drawn once the label's node is known. -/
structure Jump where
  source : Nat
  condition : Condition
  label : String
  deriving DecidableEq, Repr

/-- A graph while it is drawn. -/
structure Drawing where
  graph : Graph := {}
  endNode : Option Nat := none
  /-- The nodes of labels; the first node of a label is the one that counts. -/
  labels : List (String × Nat) := []
  /-- The apps drawn as targets of transitions. Transitions to equal apps share a node. -/
  targets : List (Node × Nat) := []
  /-- In the order in which they are to be resolved. -/
  jumps : List Jump := []

abbrev Draw := StateM Drawing

def addNode (name : String) (label : Option String) (properties : List (String × String)) :
    Draw Nat := do
  let id := (← get).graph.nodes.length
  modify fun d =>
    { d with graph := { d.graph with nodes := d.graph.nodes ++ [⟨id, name, label, properties⟩] } }
  return id

def addLink (link : Link) : Draw Unit :=
  modify fun d => { d with graph := { d.graph with links := d.graph.links ++ [link] } }

/-- Links the open ends of a flow to a node. -/
def join (ends : List Nat) (id : Nat) : Draw Unit :=
  ends.forM fun source => addLink { source, target := id }

def registerLabel (label : Option String) (id : Nat) : Draw Unit :=
  match label with
  | none => return
  | some name => modify fun d =>
    if (d.labels.lookup name).isSome then d else { d with labels := d.labels ++ [(name, id)] }

/-- The node of a name, made if there is none. -/
def nodeNamed (name : String) : Draw Nat := do
  match (← get).graph.named? name with
  | some node => return node.id
  | none => addNode name none []

/-- The one node at which the task ends. -/
def theEnd : Draw Nat := do
  match (← get).endNode with
  | some id => return id
  | none =>
    let id ← addNode endName none []
    modify fun d => { d with endNode := some id }
    return id

/-! ## Transitions -/

/-- The node of a target app, and whether it is a new one. -/
def targetNode (app : App) : Draw (Nat × Bool) := do
  let key : Node := ⟨0, app.name, app.label.map Label.name, Argument.properties app.arguments⟩
  match (← get).targets.lookup key with
  | some id => return (id, false)
  | none =>
    let id ← addNode key.name key.label key.properties
    modify fun d => { d with targets := d.targets ++ [(key, id)] }
    return (id, true)

/-- Draws a transition from a node. A new target app is one more open end of the flow. -/
def drawTransition (source : Nat) (t : Transition) : Draw (List Nat) := do
  match t.target with
  | .label label =>
    modify fun d => { d with jumps := d.jumps ++ [⟨source, t.condition, label⟩] }
    return []
  | .app app =>
    if isMarker app.name then
      addLink ⟨source, ← nodeNamed app.name, some t.condition⟩
      return []
    let (target, isNew) ← targetNode app
    addLink ⟨source, target, some t.condition⟩
    return if isNew then [target] else []

/-! ## Flows

A flow is drawn from its open ends, which its next element is to follow. -/

/-- Draws an app after the given ends; gives its node and the open ends of its transitions. -/
def drawApp (ends : List Nat) (app : App) : Draw (Nat × List Nat) := do
  let label := app.label.map Label.name
  let id ← addNode app.name label (Argument.properties app.arguments)
  registerLabel label id
  join ends id
  let exits ← app.transitions.mapM (drawTransition id)
  return (id, exits.flatten)

mutual

/-- Draws a sequence after the given ends; gives the ends of its last element and of its
transitions. -/
def drawSequence (ends : List Nat) : Sequence → Draw (List Nat)
  | ⟨elements, _, _⟩ => do
    let (ends, exits) ← drawElements ends elements
    return ends ++ exits

def drawElements (ends : List Nat) : List Element → Draw (List Nat × List Nat)
  | [] => return (ends, [])
  | e :: es => do
    let (ends, first) ← drawElement ends e
    let (ends, rest) ← drawElements ends es
    return (ends, first ++ rest)

/-- The ends of the element, and the open ends of its transitions. -/
def drawElement (ends : List Nat) : Element → Draw (List Nat × List Nat)
  | .app app => do
    let (id, exits) ← drawApp ends app
    return ([id], exits)
  | .split split => do
    return (← drawSplit ends split, [])

def drawSplit (ends : List Nat) : Split → Draw (List Nat)
  | ⟨label, branches, _, _⟩ => do
    let name := label.map Label.name
    let fork ← addNode syncName name []
    registerLabel name fork
    join ends fork
    drawBranches fork branches

def drawBranches (fork : Nat) : List Sequence → Draw (List Nat)
  | [] => return []
  | b :: bs => do
    let ends ← drawSequence [fork] b
    return ends ++ (← drawBranches fork bs)

end

/-- Draws a sequence of the task itself and links its ends to the end. -/
def drawWhole (ends : List Nat) (sequence : Sequence) : Draw Unit := do
  let ends ← drawSequence ends sequence
  join ends (← theEnd)

/-! ## Jumps -/

/-- Resolves a jump; a label that is not drawn yet is looked for among the secondary sequences. -/
def resolve (secondary : List Sequence) (jump : Jump) : Draw Unit := do
  if ((← get).labels.lookup jump.label).isNone then
    if let some sequence := secondary.find? fun s => s.label? == some jump.label then
      drawWhole [] sequence
  if let some target := (← get).labels.lookup jump.label then
    addLink ⟨jump.source, target, some jump.condition⟩

/-- Each sequence is drawn once at most, so the transitions of the task bound the jumps. -/
def resolveWithin (secondary : List Sequence) : Nat → Draw Unit
  | 0 => return
  | fuel + 1 => do
    match (← get).jumps with
    | [] => return
    | jump :: rest =>
      modify fun d => { d with jumps := rest }
      resolve secondary jump
      resolveWithin secondary fuel

mutual

def countTransitions : Sequence → Nat
  | ⟨elements, _, _⟩ => countInElements elements

def countInElements : List Element → Nat
  | [] => 0
  | .app a :: es => a.transitions.length + countInElements es
  | .split s :: es => countInSplit s + countInElements es

def countInSplit : Split → Nat
  | ⟨_, branches, _, _⟩ => countInBranches branches

def countInBranches : List Sequence → Nat
  | [] => 0
  | b :: bs => countTransitions b + countInBranches bs

end

def drawTask (t : Task) : Draw Unit := do
  match t.sequences with
  | [] => return
  | first :: secondary =>
    let start ← addNode startName none []
    drawWhole [start] first
    resolveWithin secondary (countInBranches t.sequences)

def ofTask (t : Task) : Graph := ((drawTask t).run {}).2.graph

end Pipework.Graph
