import Pipework.Text.Affix

/-! The settings of completion. -/

namespace Pipework

structure Config where
  /-- How many proposals are given at most. -/
  maxProposals : Nat := 50
  /-- The names of the strategies that are not used. -/
  disabled : List String := []
  /-- The first number that is tried behind the name of a repeated app. -/
  labelSuffixStart : Nat := 2
  deriving DecidableEq, Repr

namespace Config

/-- A setting with a value that it cannot have. -/
structure Invalid where
  field : String
  reason : String
  deriving DecidableEq, Repr

def Invalid.message (i : Invalid) : String :=
  "Invalid config value for " ++ i.field ++ ": " ++ i.reason

/-- Checks names in order, each for being empty and then for having been listed. -/
def checkNames (before : List String) : List String → Except Invalid Unit
  | [] => .ok ()
  | name :: rest =>
    if (Text.trim name.toList).isEmpty then
      .error ⟨"disabled_strategies", "must not contain empty names"⟩
    else if before.contains name then
      .error ⟨"disabled_strategies", "'" ++ name ++ "' listed twice"⟩
    else checkNames (name :: before) rest

def validate (c : Config) : Except Invalid Unit :=
  if c.maxProposals = 0 then .error ⟨"max_proposals", "must be > 0"⟩
  else if c.labelSuffixStart < 2 then .error ⟨"label_suffix_start", "must be >= 2"⟩
  else checkNames [] c.disabled

def isDisabled (c : Config) (strategy : String) : Bool := c.disabled.contains strategy

end Config

end Pipework
