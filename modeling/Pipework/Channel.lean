/-! What a stream can read from or write to in place of an app. -/

namespace Pipework

namespace Channel

inductive Kind where
  | queue
  | topic
  deriving DecidableEq, Repr

def Kind.name : Kind → String
  | .queue => "queue"
  | .topic => "topic"

def Kind.ofName? (text : String) : Option Kind :=
  if text = "queue" then some .queue else if text = "topic" then some .topic else none

end Channel

inductive Channel where
  | destination (name : String)
  /-- The output of a labelled app of a stream; without a label, that of its last app. -/
  | tap (stream : String) (label : Option String)
  | named (kind : Channel.Kind) (name : String)
  deriving DecidableEq, Repr

/-- A tap on a labelled app has the short form of a destination. -/
def Channel.render : Channel → String
  | .destination name => ":" ++ name
  | .tap stream (some label) => ":" ++ stream ++ "." ++ label
  | .tap stream none => "tap:stream:" ++ stream
  | .named kind name => kind.name ++ ":" ++ name

end Pipework
