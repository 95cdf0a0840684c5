import Pipework.Registry
import Pipework.Stream.Parser

/-! The streams that are stored, and the apps they consist of. -/

namespace Pipework

structure StoredStream where
  name : String
  text : String
  description : Option String := none
  deriving DecidableEq, Repr

/-- An app of a stored stream. -/
structure StoredApp where
  name : String
  label : String
  role : Role
  properties : List (String × String)
  deriving DecidableEq, Repr

def StoredApp.property? (a : StoredApp) (key : String) : Option String := a.properties.lookup key

/-- The apps of a stream under their labels. -/
def Stream.storedApps (s : Stream) : List StoredApp :=
  (s.apps.zip s.roles).map fun (a, role) => ⟨a.name, a.labelName, role, a.properties⟩

/-- The apps of a stored stream, whose text has to be readable. -/
def StoredStream.apps (s : StoredStream) : Except LookupFault (List StoredApp) :=
  match Stream.parseNamed (some s.name) s.text with
  | .ok stream => .ok stream.storedApps
  | .error fault => .error (.corrupt s.name fault.text)

/-- Where streams are looked up. Every look-up can fail. -/
structure Store where
  find : String → Except LookupFault (Option StoredStream)
  all : Except LookupFault (List StoredStream)
  apps : StoredStream → Except LookupFault (List StoredApp)

namespace Store

def ofList (streams : List StoredStream) : Store where
  find name := .ok (streams.find? fun s => s.name == name)
  all := .ok streams
  apps := StoredStream.apps

/-- A store that cannot be reached. -/
def unreachable : Store where
  find _ := .error (.unavailable "streams" "connection refused")
  all := .error (.unavailable "streams" "connection refused")
  apps _ := .error (.unavailable "streams" "connection refused")

end Store

end Pipework
