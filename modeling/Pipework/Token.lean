/-! Tokens of stream and task definitions. -/

namespace Pipework

namespace Token

inductive Kind where
  | pipe | doublePipe | andAnd | colon | dot | gt | lt | doubleMinus | arrow | equals
  | lparen | rparen | star | slash | hash | semicolon
  | identifier (text : String)
  | number (text : String)
  /-- Quoted text, without its quotes and with doubled quotes made single. -/
  | literal (text : String)
  | eof
  deriving DecidableEq, Repr

namespace Kind

/-- The symbol of an operator, the text of any other token. -/
def symbol : Kind → String
  | .pipe => "|"
  | .doublePipe => "||"
  | .andAnd => "&&"
  | .colon => ":"
  | .dot => "."
  | .gt => ">"
  | .lt => "<"
  | .doubleMinus => "--"
  | .arrow => "->"
  | .equals => "="
  | .lparen => "("
  | .rparen => ")"
  | .star => "*"
  | .slash => "/"
  | .hash => "#"
  | .semicolon => ";"
  | .identifier text | .number text | .literal text => text
  | .eof => ""

def isName : Kind → Bool
  | .identifier _ | .number _ => true
  | _ => false

/-- The kind without its text. -/
def variant : Kind → Kind
  | .identifier _ => .identifier ""
  | .number _ => .number ""
  | .literal _ => .literal ""
  | kind => kind

/-- Kinds are of one sort when they differ in their texts at most. -/
def sameSort (a b : Kind) : Bool := a.variant == b.variant

end Kind

/-- Where a token stands: bytes, and the line and column of its first character, both from 1. -/
structure Span where
  start : Nat
  stop : Nat
  line : Nat := 1
  column : Nat := 1
  deriving DecidableEq, Repr

end Token

structure Token where
  kind : Token.Kind
  span : Token.Span
  deriving DecidableEq, Repr

namespace Token

def text (t : Token) : String := t.kind.symbol

def isName (t : Token) : Bool := t.kind.isName

def start (t : Token) : Nat := t.span.start

def stop (t : Token) : Nat := t.span.stop

/-- The end of a source of the given byte length. -/
def endOf (length : Nat) : Token := ⟨.eof, { start := length, stop := length }⟩

end Token

end Pipework
