import Pipework.Stream.Basic
import Pipework.Walk

/-! Walks through a stream: the source, the apps with their arguments, the sink. -/

namespace Pipework.Stream

inductive Node where
  | stream (s : Stream)
  | source (e : Endpoint)
  | app (a : App)
  | argument (a : Argument)
  | sink (e : Endpoint)
  deriving DecidableEq, Repr

def App.walk (descends : Node → Bool) (a : App) : List (Event Node) :=
  Event.around descends (.app a)
    (a.arguments.flatMap fun x => Event.around descends (.argument x) [])

def walk (descends : Node → Bool) (s : Stream) : List (Event Node) :=
  Event.around descends (.stream s)
    ((s.source.toList.flatMap fun e => Event.around descends (.source e) []) ++
      s.apps.flatMap (App.walk descends) ++
      s.sink.toList.flatMap fun e => Event.around descends (.sink e) [])

end Pipework.Stream
