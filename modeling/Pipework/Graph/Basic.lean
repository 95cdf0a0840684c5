import Pipework.Task.Basic

/-! Tasks as nodes and links. A plain link leads from an element of a flow to the next, to each
branch of a split and on from it; a link with a condition is a transition. -/

namespace Pipework

namespace Graph

structure Node where
  id : Nat
  /-- An app's name, or one of the reserved names below. -/
  name : String
  label : Option String := none
  properties : List (String × String) := []
  deriving DecidableEq, Repr

structure Link where
  source : Nat
  target : Nat
  condition : Option Task.Condition := none
  deriving DecidableEq, Repr

def startName : String := "START"

def endName : String := "END"

/-- The name of the nodes where a flow forks. -/
def syncName : String := "SYNC"

def Node.isSync (n : Node) : Bool := n.name == syncName

def Node.isMarker (n : Node) : Bool := Task.isMarker n.name

def Link.isTransition (l : Link) : Bool := l.condition.isSome

end Graph

structure Graph where
  nodes : List Graph.Node := []
  links : List Graph.Link := []
  deriving DecidableEq, Repr

namespace Graph

def node? (g : Graph) (id : Nat) : Option Node := g.nodes.find? fun n => n.id == id

def named? (g : Graph) (name : String) : Option Node := g.nodes.find? fun n => n.name == name

/-- Where the plain links from a node lead, in the order of the links. -/
def successors (g : Graph) (id : Nat) : List Nat :=
  (g.links.filter fun l => l.source == id && !l.isTransition).map Link.target

def predecessors (g : Graph) (id : Nat) : List Nat :=
  (g.links.filter fun l => l.target == id && !l.isTransition).map Link.source

/-- The conditions of the transitions from a node, each with the node it leads to. -/
def transitions (g : Graph) (id : Nat) : List (Task.Condition × Node) :=
  (g.links.filter fun l => l.source == id).filterMap fun l => do
    return (← l.condition, ← g.node? l.target)

/-! ## Reachability -/

/-- Adds to `seen` what the pending nodes lead to. Each plain link makes its target pending once at
most, so the links bound the search. -/
def explore (g : Graph) : Nat → List Nat → List Nat → List Nat
  | 0, _, seen => seen
  | _, [], seen => seen
  | fuel + 1, id :: pending, seen =>
    if id ∈ seen then explore g fuel pending seen
    else explore g fuel (pending ++ g.successors id) (id :: seen)

/-- The nodes to which one or more plain links lead from a node, last found first. -/
def reachable (g : Graph) (id : Nat) : List Nat :=
  explore g (2 * g.links.length + 1) (g.successors id) []

/-- Where the flows from all entries meet: a node reached by each of them from which all other such
nodes can be reached. On a cycle there can be more than one; the search may take any of them. -/
def joinOf (g : Graph) (entries : List Nat) : Option Nat :=
  match entries.map g.reachable with
  | [] => none
  | first :: rest =>
    let common := first.filter fun id => rest.all fun r => r.contains id
    common.find? fun candidate =>
      let onward := g.reachable candidate
      common.all fun other => other == candidate || onward.contains other

/-- A labelled node that no plain link leads to, with a successor that only it leads to, was drawn
from a sequence of its own. -/
def headsSequence (g : Graph) (id : Nat) : Bool :=
  (g.predecessors id).isEmpty &&
    (g.successors id).any fun next => (g.predecessors next).all fun source => source == id

end Graph

end Pipework
