import Pipework.Fault
import Pipework.Token

/-! A place among the tokens of a text. The tokens passed lie behind it, last first; the next one
and those after it lie ahead, and the last of them is `eof`, which is never passed. -/

namespace Pipework.Token

structure Cursor where
  expression : String
  behind : List Token
  ahead : List Token
  /-- Where the text that is known to be good ends. -/
  good : Nat := 0
  deriving DecidableEq, Repr

def terminated (length : Nat) : List Token → List Token
  | [] => [endOf length]
  | [t] => if t.kind = .eof then [t] else [t, endOf length]
  | t :: ts => t :: terminated length ts

namespace Cursor

def ofTokens (expression : String) (tokens : List Token) : Cursor :=
  { expression, behind := [], ahead := terminated expression.utf8ByteSize tokens }

/-- All tokens, in the order of the text. -/
def tokens (c : Cursor) : List Token := c.behind.reverse ++ c.ahead

/-! ## Looking -/

def peek (c : Cursor) : Token := c.ahead.headD (endOf c.expression.utf8ByteSize)

/-- The token at a distance from the next one; a negative distance looks back. -/
def peekAt (c : Cursor) : Int → Option Token
  | .ofNat n => c.ahead[n]?
  | .negSucc n => c.behind[n]?

def peekIs (c : Cursor) (kind : Kind) : Bool := c.peek.kind.sameSort kind

def lookAhead (c : Cursor) (distance : Int) (kind : Kind) : Bool :=
  (c.peekAt distance).any fun t => t.kind.sameSort kind

def hasNext (c : Cursor) : Bool := c.peek.kind != .eof

/-- Where the token just passed ends. -/
def previousStop (c : Cursor) : Nat := (c.behind.head?.map Token.stop).getD 0

/-- The next token starts where the one just passed ends. -/
def adjacent (c : Cursor) : Bool :=
  match c.behind, c.ahead with
  | last :: _, next :: _ => last.stop == next.start
  | _, _ => false

def position (c : Cursor) : Nat := c.behind.length

/-- The text from the next token on. -/
def remainingText (c : Cursor) : String :=
  match Text.splitAtByte? c.peek.start c.expression.toList with
  | some (_, rest) => String.ofList rest
  | none => ""

/-! ## Moving -/

def next (c : Cursor) : Token × Cursor :=
  match c.ahead with
  | [] => (c.peek, c)
  | t :: ts =>
    if t.kind = .eof then (t, c) else (t, { c with behind := t :: c.behind, ahead := ts })

def eatIf (c : Cursor) (kind : Kind) : Option Token × Cursor :=
  if c.peekIs kind then (some c.next.1, c.next.2) else (none, c)

/-- Moves to a position counted from the first token, at most to the last one. -/
def rewind (c : Cursor) (position : Nat) : Cursor :=
  let n := min position (c.tokens.length - 1)
  { c with behind := (c.tokens.take n).reverse, ahead := c.tokens.drop n }

/-- Declares the text up to here good. -/
def checkpoint (c : Cursor) : Cursor := { c with good := c.previousStop }

@[simp] theorem tokens_next (c : Cursor) : c.next.2.tokens = c.tokens := by
  simp only [next]
  split
  · rfl
  · next h => split <;> simp [tokens, h]

@[simp] theorem tokens_rewind (c : Cursor) (n : Nat) : (c.rewind n).tokens = c.tokens := by
  simp [rewind, tokens]

@[simp] theorem tokens_checkpoint (c : Cursor) : c.checkpoint.tokens = c.tokens := rfl

/-! ## Faults -/

def fault (c : Cursor) (offset : Nat) (message : Message) (inserts : List String) : Fault :=
  { expression := c.expression, offset, message, inserts, checkpoint := some c.good }

/-- The fault of finding the next token where `expected` should be. -/
def unexpected (c : Cursor) (expected : String) : Fault :=
  if c.peek.kind = .eof then c.fault c.peek.start .outOfData []
  else c.fault c.peek.start .notExpectedToken [expected, c.peek.text]

/-- Passes the next token if it is of the kind that is needed here. -/
def expect (c : Cursor) (kind : Kind) : Except Fault Token × Cursor :=
  if c.peekIs kind then (.ok c.next.1, c.next.2) else (.error (c.unexpected kind.symbol), c)

/-- The same where a fault ends the run, so that no cursor is left with it. -/
def eat (c : Cursor) (kind : Kind) : Except Fault (Token × Cursor) :=
  match c.expect kind with
  | (.ok t, d) => .ok (t, d)
  | (.error fault, _) => .error fault

theorem eat_eq (c : Cursor) (kind : Kind) : c.eat kind =
    if c.peekIs kind then .ok c.next else .error (c.unexpected kind.symbol) := by
  unfold eat expect
  cases c.peekIs kind <;> rfl

end Cursor

end Pipework.Token
