import Pipework.Completion.Proposal
import Pipework.Config.Basic
import Pipework.Store

/-! What the strategies of completion work with. -/

namespace Pipework.Completion

/-- Why a strategy has no result, or completion does not start. -/
inductive Fault where
  | lookup (fault : LookupFault)
  | unreadable (fault : Pipework.Fault)
  | config (invalid : Config.Invalid)
  | unknownStrategy (name : String)
  deriving DecidableEq, Repr

def Fault.message : Fault → String
  | .lookup fault => "Lookup failed: " ++ fault.message
  | .unreadable fault => "Failed to parse: " ++ fault.text
  | .config invalid => "Invalid completion config: " ++ invalid.message
  | .unknownStrategy name => "Unknown completion strategy '" ++ name ++ "'"

/-- Where strategies look things up. -/
structure Collaborators where
  store : Store
  registry : Registry

structure Context extends Collaborators where
  config : Config := {}
  detail : Nat := 0

/-- What a strategy finds, in the order in which it finds it. -/
abbrev Found := Except LookupFault (List Proposal)

/-- The course of a strategy: what it adds, and the look-up that puts an end to it, if one does. -/
structure Search where
  added : List Proposal
  failure : Option LookupFault := none
  deriving DecidableEq, Repr

namespace Search

def ofFound : Found → Search
  | .ok proposals => { added := proposals }
  | .error fault => { added := [], failure := some fault }

/-- Goes on with another search, unless the first has come to an end. -/
def andThen (s next : Search) : Search :=
  match s.failure with
  | some _ => s
  | none => { next with added := s.added ++ next.added }

/-- What was added counts only if no look-up failed. -/
def found (s : Search) : Found :=
  match s.failure with
  | some fault => .error fault
  | none => .ok s.added

end Search

namespace Context

def proposal (ctx : Context) (text description : String) : Proposal :=
  ⟨text, explain description ctx.detail⟩

/-- The registration of a name in a role, or else the first of that name in any role. -/
def registration (ctx : Context) (name : String) (role : Role) :
    Except LookupFault (Option Registration) := do
  match ← ctx.registry.find name role with
  | some r => return some r
  | none => return (← ctx.registry.all).find? fun r => r.name == name

end Context

/-! ## Labels -/

def numbered (name : String) (n : Nat) : String := name ++ toString n

/-- The first of some consecutive numbers that makes an unused label. -/
def seekSuffix (used : List String) (name : String) : Nat → Nat → Option Nat
  | 0, _ => none
  | fuel + 1, n => if used.contains (numbered name n) then seekSuffix used name fuel (n + 1) else some n

def maxSuffix : Nat := 4294967295

/-- Of as many consecutive labels as are used, and one more, one is unused. -/
def freeSuffix (used : List String) (name : String) (start : Nat) : Option Nat :=
  seekSuffix used name (min (used.length + 1) (maxSuffix + 1 - start)) start

/-- An app under a label that is not used: its own name, or else its name with a number behind. -/
def Context.autoLabel (ctx : Context) (name : String) (used : List String) : Option String :=
  if used.contains name then
    (freeSuffix used name ctx.config.labelSuffixStart).map fun n => numbered name n ++ ": " ++ name
  else some name

/-! ## Roles -/

def unboundRoles : List Role := [.source, .processor, .sink, .app]

def downstreamRoles : List Role := [.processor, .sink]

/-- The roles of apps that can follow. -/
def nextRoles (s : Stream) : List Role := if s.unbound then unboundRoles else downstreamRoles

/-- The last app is the first as well, and no channel comes before it. -/
def startsWithLast (s : Stream) : Bool := s.apps.length == 1 && s.source.isNone

/-- The roles that the last app can have where it stands. -/
def lastRoles (s : Stream) : List Role :=
  if s.unbound then unboundRoles else if startsWithLast s then [.source] else downstreamRoles

/-- The role to look the last app up in. -/
def lastRole (s : Stream) : Role := (lastRoles s).headD .app

/-- The last app, unless a sink or a bridge closes the stream. -/
def openLast? (s : Stream) : Option Stream.App :=
  if s.sink.isSome || s.isBridge then none else s.apps.getLast?

end Pipework.Completion
