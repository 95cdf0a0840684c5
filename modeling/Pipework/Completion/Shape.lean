import Pipework.Text.Blank
import Pipework.Text.Word

/-! The shapes of unfinished texts that recovery knows. -/

namespace Pipework.Completion

open Text

/-! ## Taps -/

/-- What has been typed of a tap: a stream, and a label if there is a dot. -/
structure TapShape where
  stream : String
  label : Option String
  deriving DecidableEq, Repr

def isTapChar (c : Char) : Bool := isWord c || c == '$' || c == '-'

def tapShape? (cs : List Char) : Option TapShape :=
  let stream := String.ofList (cs.takeWhile isTapChar)
  match cs.dropWhile isTapChar with
  | [] => some ⟨stream, none⟩
  | c :: label =>
    if c = '.' ∧ label.all isTapChar then some ⟨stream, some (String.ofList label)⟩ else none

/-- A colon and a tap. -/
def destinationTap? (typed : List Char) : Option TapShape :=
  match typed with
  | ':' :: rest => tapShape? rest
  | _ => none

def longTapLead : String := "tap:stream:"

/-- The long form of a tap. -/
def longTap? (typed : List Char) : Option TapShape :=
  let lead := longTapLead.toList
  if lead.isPrefixOf typed then tapShape? (typed.drop lead.length) else none

/-- The lead of the long form as far as it has been typed, from its first colon on. -/
def startsLongTap (typed : List Char) : Bool :=
  4 ≤ typed.length && typed.isPrefixOf longTapLead.toList

/-! ## Options -/

def isOptionChar (c : Char) : Bool := isWord c || c == '.' || c == '-'

/-- The part of a text before its last white space, and what follows that. The first part has to
be there and to be on one line. -/
def lastPart? (typed : List Char) : Option (List Char × List Char) :=
  let part := (typed.reverse.takeWhile fun c => !isBlank c).reverse
  let before := typed.take (typed.length - part.length)
  let head := trimEnd before
  if head.isEmpty || head.contains '\n' || !endsBlank before then none else some (head, part)

/-- An option that has been begun behind some text. -/
structure OptionShape where
  head : String
  option : String
  deriving DecidableEq, Repr

/-- One or two dashes, and as much of a name as there is. -/
def unfinishedOption? (typed : List Char) : Option OptionShape := do
  let (head, part) ← lastPart? typed
  let name ← match part with
    | '-' :: '-' :: name => some name
    | '-' :: name => some name
    | _ => none
  if name.all isOptionChar then some ⟨String.ofList head, String.ofList name⟩ else none

/-- Two dashes, a name and `=`, but no value yet. -/
def optionWithoutValue? (typed : List Char) : Option OptionShape := do
  let (head, part) ← lastPart? typed
  let setting ← match part with
    | '-' :: '-' :: setting => some setting
    | _ => none
  let name := setting.dropLast
  if setting.getLast? = some '=' ∧ !name.isEmpty ∧ name.all isOptionChar then
    some ⟨String.ofList head, String.ofList name⟩
  else none

end Pipework.Completion
