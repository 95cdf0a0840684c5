import Pipework.Completion.Basic
import Pipework.Completion.Task
import Pipework.Config.Reader
import Pipework.Main
import Pipework.Proofs.Completion.Continuation
import Pipework.Proofs.Completion.Explaining
import Pipework.Proofs.Completion.NextApp
import Pipework.Proofs.Completion.Piping
import Pipework.Proofs.Completion.Suffixes
import Pipework.Proofs.Completion.Taps
import Pipework.Proofs.Completion.TaskApps
import Pipework.Proofs.Completion.Triggers
import Pipework.Proofs.Extents
import Pipework.Proofs.Graph.Coverage
import Pipework.Proofs.Graph.Joining
import Pipework.Proofs.Graph.OnDemand
import Pipework.Proofs.Graph.RoundTrip
import Pipework.Proofs.Graph.Transitions
import Pipework.Proofs.Layout
import Pipework.Proofs.Location
import Pipework.Proofs.Placement
import Pipework.Proofs.Pruning
import Pipework.Proofs.SingleApp
import Pipework.Proofs.Stream.Clashes
import Pipework.Proofs.Stream.InlineName
import Pipework.Proofs.Stream.Invariants
import Pipework.Proofs.Stream.RoundTrip
import Pipework.Proofs.Task.AppMode
import Pipework.Proofs.Task.Checkpoint
import Pipework.Proofs.Task.Depth
import Pipework.Proofs.Task.FanOut
import Pipework.Proofs.Task.WellFormed
import Pipework.Proofs.Task.Writable
import Pipework.Proofs.Token.Moves
import Pipework.Proofs.Token.Position
import Pipework.Proofs.Token.Quoting
import Pipework.Proofs.Token.Spaced
import Pipework.Sample
import Pipework.Stream.Walk
import Pipework.Task.Shape
