import Pipework.Text.Blank

/-! Values and statuses as they are written, quoted with single quotes. -/

namespace Pipework.Text

/-- A quote inside the text is doubled. -/
def quote (value : List Char) : List Char :=
  '\'' :: value.flatMap (fun c => if c = '\'' then [c, c] else [c]) ++ ['\'']

/-- Without quotes, these would end a value or be taken for quotes. -/
def needsQuotes (c : Char) : Bool :=
  isBlank c || c == '\'' || c == '"' || c == '|' || c == ';' || c == '>'

/-- A value is quoted only where it would not be read back as it is. -/
def quoteValue (value : String) : String :=
  let cs := value.toList
  if cs.isEmpty || cs.any needsQuotes then String.ofList (quote cs) else value

def quoteStatus (status : String) : String := String.ofList (quote status.toList)

end Pipework.Text
