import Pipework.Role

/-! The apps that are registered, with what is known of their options. -/

namespace Pipework

inductive OptionType where
  | string
  | integer
  | boolean
  | enumeration
  deriving DecidableEq, Repr

def OptionType.name : OptionType → String
  | .string => "string"
  | .integer => "integer"
  | .boolean => "boolean"
  | .enumeration => "enumeration"

def OptionType.ofName? (text : String) : Option OptionType :=
  [OptionType.string, .integer, .boolean, .enumeration].find? fun t => t.name == text

structure AppOption where
  name : String
  description : String
  type : OptionType
  default : Option String := none
  hints : List String := []
  deriving DecidableEq, Repr

/-- The values to offer: the option's own hints, or else those that its type has. -/
def AppOption.valueHints (o : AppOption) : List String :=
  if o.hints.isEmpty then
    match o.type with
    | .boolean => ["false", "true"]
    | _ => []
  else o.hints

structure Registration where
  name : String
  role : Role
  description : String
  options : List AppOption := []
  deriving DecidableEq, Repr

def Registration.option? (r : Registration) (name : String) : Option AppOption :=
  r.options.find? fun o => o.name == name

/-- Why nothing could be looked up. -/
inductive LookupFault where
  | unavailable (resource reason : String)
  /-- A stored definition that cannot be read. -/
  | corrupt (name reason : String)
  deriving DecidableEq, Repr

def LookupFault.message : LookupFault → String
  | .unavailable resource reason => "Repository unavailable: " ++ resource ++ ": " ++ reason
  | .corrupt name reason => "Stored definition " ++ name ++ " is unreadable: " ++ reason

/-- Where registrations are looked up. Every look-up can fail. -/
structure Registry where
  find : String → Role → Except LookupFault (Option Registration)
  all : Except LookupFault (List Registration)

namespace Registry

/-- The registrations in any of the roles, in the order of the registry. -/
def allOf (r : Registry) (roles : List Role) : Except LookupFault (List Registration) :=
  r.all.map fun registrations => registrations.filter fun x => roles.contains x.role

def ofList (registrations : List Registration) : Registry where
  find name role := .ok (registrations.find? fun r => r.name == name && r.role == role)
  all := .ok registrations

/-- A registry that cannot be reached. -/
def unreachable : Registry where
  find _ _ := .error (.unavailable "apps" "connection refused")
  all := .error (.unavailable "apps" "connection refused")

end Registry

end Pipework
