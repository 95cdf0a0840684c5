import Pipework.Task.Walk

/-! How many apps a task starts side by side at most. An app counts for the innermost split around
it; a task with an app outside of every split has a fan-out of 1 at least. -/

namespace Pipework.Task

/-- The apps counted so far in each open split, innermost first, and the largest count so far. -/
structure FanOut where
  openSplits : List Nat := []
  largest : Nat := 0
  deriving DecidableEq, Repr

namespace FanOut

def step (f : FanOut) : Event Node → FanOut
  | .enter (.task _) => {}
  | .enter (.split _) => { f with openSplits := 0 :: f.openSplits }
  | .leave (.split _) =>
    match f.openSplits with
    | [] => f
    | count :: outer => ⟨outer, max f.largest count⟩
  | .enter (.app _) =>
    match f.openSplits with
    | [] => { f with largest := max f.largest 1 }
    | count :: outer => { f with openSplits := (count + 1) :: outer }
  | _ => f

/-- Measures a task; what was measured before is forgotten. -/
def measure (f : FanOut) (t : Task) : FanOut := t.events.foldl step f

end FanOut

def maxFanOut (t : Task) : Nat := (FanOut.measure {} t).largest

end Pipework.Task
