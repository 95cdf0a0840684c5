import Pipework.Message
import Pipework.Text.Bytes

/-! The refusal of a definition: which reason, where in the text, and how far the text was good.
Offsets count bytes; columns count characters. -/

namespace Pipework

/-- Two apps of a stream under one label: the first that has it, and a later one. -/
structure LabelClash where
  label : String
  firstApp : String
  firstOffset : Nat
  secondApp : String
  secondOffset : Nat
  deriving DecidableEq, Repr

def LabelClash.inserts (c : LabelClash) : List String :=
  [c.label, c.firstApp, toString c.firstOffset, c.secondApp, toString c.secondOffset]

structure Fault where
  expression : String
  offset : Nat
  message : Message
  inserts : List String
  /-- Where the part that was read without a fault ends. -/
  checkpoint : Option Nat := none
  clashes : List LabelClash := []
  deriving DecidableEq, Repr

namespace Text

def untilNewline (cs : List Char) : List Char := cs.takeWhile (· != '\n')

def lastLine (cs : List Char) : List Char := (untilNewline cs.reverse).reverse

end Text

namespace Fault

def isLexical (f : Fault) : Bool := f.message.kind == .lexical

def text (f : Fault) : String := f.message.format f.offset f.inserts

/-- The text before the fault and the text from it on. An offset past the end or inside a character
stands for the end. -/
def split (f : Fault) : List Char × List Char :=
  let source := f.expression.toList
  (Text.splitAtByte? f.offset source).getD (source, [])

/-- Counted from 1. -/
def line (f : Fault) : Nat := f.split.1.count '\n' + 1

/-- Counted from 1, in characters. -/
def column (f : Fault) : Nat := (Text.lastLine f.split.1).length + 1

/-- The line of the fault, and under it a caret at its column. -/
def excerpt (f : Fault) : String :=
  let (before, after) := f.split
  let start := Text.lastLine before
  String.ofList
    (start ++ Text.untilNewline after ++ '\n' :: List.replicate start.length ' ' ++ ['^'])

def display (f : Fault) : String := f.text ++ "\n" ++ f.excerpt

theorem split_append (f : Fault) : f.split.1 ++ f.split.2 = f.expression.toList := by
  simp only [split]
  cases h : Text.splitAtByte? f.offset f.expression.toList with
  | none => simp
  | some p => simpa using (Text.splitAtByte?_eq_some h).1

end Fault

end Pipework
