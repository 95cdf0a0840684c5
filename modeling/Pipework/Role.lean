/-! The roles that an app can have in a definition. -/

namespace Pipework

inductive Role where
  /-- Only at the start of a stream. -/
  | source
  | processor
  /-- Only at the end of a stream. -/
  | sink
  | task
  /-- A member of a list of apps that are not connected. -/
  | app
  deriving DecidableEq, Repr

namespace Role

def name : Role → String
  | .source => "source"
  | .processor => "processor"
  | .sink => "sink"
  | .task => "task"
  | .app => "app"

def all : List Role := [.source, .processor, .sink, .task, .app]

def ofName? (text : String) : Option Role := all.find? fun r => r.name == text

end Role

end Pipework
