import Pipework.Graph.Drawing
import Pipework.Graph.Writer
import Pipework.Stream.Json
import Pipework.Stream.Parser
import Pipework.Stream.Printer
import Pipework.Task.FanOut
import Pipework.Task.Json
import Pipework.Task.Printer
import Pipework.Task.Validation
import Pipework.Text.Affix
import Pipework.Text.Printable

/-! The report on one definition: its tokens, its structure, and its one spelling, or what is wrong
with it. -/

namespace Pipework.Trace

/-- What a run of the program leaves behind. -/
structure Outcome where
  status : Nat
  out : String
  err : String
  deriving DecidableEq, Repr

def unlines (lines : List String) : String := String.join (lines.map fun l => l ++ "\n")

def usage : String := unlines [
  "Usage: cargo run --bin trace_parser [--task] <definition>",
  "",
  "Examples:",
  "  cargo run --bin trace_parser 'http --port=8080 | log'",
  "  cargo run --bin trace_parser --task '<a || b> && c'"]

def rule : String := "─────────────────────────────────────────────────────────────"

def doubleRule : String := "═══════════════════════════════════════════════════════════════"

def header (isTask : Bool) (definition : String) : List String := [
  "╔" ++ doubleRule,
  "║ " ++ (if isTask then "TASK" else "STREAM") ++ " DEFINITION TRACER",
  "╚" ++ doubleRule,
  "",
  "📝 INPUT:",
  definition,
  ""]

/-! ## Faults -/

def fault (f : Fault) : List String :=
  ["❌ Parse error:", f.display] ++
    (f.checkpoint.map fun offset => "   last good offset: " ++ toString offset).toList

/-! ## Tokens -/

def kindName : Token.Kind → String
  | .pipe => "Pipe"
  | .doublePipe => "DoublePipe"
  | .andAnd => "AndAnd"
  | .colon => "Colon"
  | .dot => "Dot"
  | .gt => "Gt"
  | .lt => "Lt"
  | .doubleMinus => "DoubleMinus"
  | .arrow => "Arrow"
  | .equals => "Equals"
  | .lparen => "LParen"
  | .rparen => "RParen"
  | .star => "Star"
  | .slash => "Slash"
  | .hash => "Hash"
  | .semicolon => "Semicolon"
  | .identifier text => "Identifier(" ++ Text.quoteVisible text ++ ")"
  | .number text => "Number(" ++ Text.quoteVisible text ++ ")"
  | .literal text => "Literal(" ++ Text.quoteVisible text ++ ")"
  | .eof => "Eof"

def padding (s : String) : String := String.ofList (List.replicate (4 - s.length) ' ')

/-- The offsets of a token are set in columns of four. -/
def tokenLine (t : Token) : String :=
  let start := toString t.start
  let stop := toString t.stop
  "  " ++ padding start ++ start ++ ".." ++ stop ++ padding stop ++ " " ++ kindName t.kind

def tokens (definition : String) : List String :=
  ["🔍 TOKENS:", rule] ++
    (match Token.tokenize definition with
      | .ok tokens => tokens.map tokenLine
      | .error f => fault f) ++
    [""]

/-! ## Structure -/

def structureOf (json : Json) : List String := ["🌳 AST:", rule, json.pretty, ""]

def spelling (text : String) : List String :=
  ["🔄 ROUND-TRIP:", rule, text, "", "✅ Parse succeeded!"]

def graph (t : Pipework.Task) : List String :=
  let g := Graph.ofTask t
  ["🕸  GRAPH: " ++ toString g.nodes.length ++ " nodes, " ++ toString g.links.length ++ " links",
    rule, g.render, ""]

def stream (definition : String) : List String :=
  match Stream.parse definition with
  | .error f => fault f
  | .ok s => structureOf s.toJson ++ spelling s.render

def task (definition : String) : List String :=
  match Task.parse definition with
  | .error f => fault f
  | .ok t =>
    structureOf t.toJson ++ ["Max fan-out: " ++ toString t.maxFanOut, ""] ++ graph t ++
      spelling t.render

def report (isTask : Bool) (definition : String) : String :=
  unlines (header isTask definition ++ tokens definition ++
    if isTask then task definition else stream definition)

/-- The definition is all arguments but the flag for tasks, joined by spaces. -/
def run (arguments : List String) : Outcome :=
  let definition := " ".intercalate (arguments.filter fun a => a != "--task")
  if (Text.trim definition.toList).isEmpty then ⟨1, "", usage⟩
  else ⟨0, report (arguments.contains "--task") definition, ""⟩

end Pipework.Trace
