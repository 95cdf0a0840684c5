/-! Walks through a definition as sequences of events. Every node is entered and then left; what
lies below a node comes between the two, unless the walk skips it. -/

namespace Pipework

inductive Event (α : Type) where
  | enter (node : α)
  | leave (node : α)
  deriving DecidableEq, Repr

namespace Event

variable {α : Type}

/-- The events of a node and of all that lies below it. -/
def around (descends : α → Bool) (node : α) (below : List (Event α)) : List (Event α) :=
  .enter node :: (if descends node then below else []) ++ [.leave node]

def entered : List (Event α) → List α :=
  List.filterMap fun
    | .enter node => some node
    | .leave _ => none

end Event

end Pipework
