import Pipework.Text.Alphanumeric

/-! Names: letters, numbers, `_` and `$`, with hyphens after the first character. -/

namespace Pipework.Text

/-- What an app name, a label or an option may start with in a definition. -/
def startsName (c : Char) : Bool := isAlphanumeric c || c == '_' || c == '$'

def startsLegalName (c : Char) : Bool := isLetterOrNumber c || c == '_' || c == '$'

/-- The names that a stream or a task may be stored under. -/
def isLegalName (name : String) : Bool :=
  match name.toList with
  | [] => false
  | c :: cs => startsLegalName c && cs.all fun d => startsLegalName d || d == '-'

end Pipework.Text
