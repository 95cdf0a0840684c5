import Pipework.Token.Cursor

/-! Parsers over the tokens ahead of a cursor. A parser either moves the cursor and gives a result,
or refuses the text with a fault. -/

namespace Pipework

open Token

abbrev Parser := StateT Cursor (Except Fault)

namespace Parser

variable {α : Type}

/-! ## Looking -/

def peek : Parser Token := return (← get).peek

def peekKind : Parser Kind := return (← get).peek.kind

/-- The kind of the token after the next one. -/
def secondKind : Parser (Option Kind) := return ((← get).peekAt 1).map Token.kind

def adjacent : Parser Bool := return (← get).adjacent

def hasNext : Parser Bool := return (← get).hasNext

def previousStop : Parser Nat := return (← get).previousStop

/-! ## Refusing -/

def refuse (offset : Nat) (message : Message) (inserts : List String) : Parser α := fun c =>
  .error (c.fault offset message inserts)

/-- Refuses at the next token. -/
def refuseHere (message : Message) (inserts : List String) : Parser α := fun c =>
  .error (c.fault c.peek.start message inserts)

def unexpected (expected : String) : Parser α := fun c => .error (c.unexpected expected)

/-- Refuses at the next token unless it is adjacent to the one before. -/
def requireAdjacent (message : Message) : Parser Unit := do
  if ← adjacent then return
  refuseHere message []

/-! ## Moving -/

def next : Parser Token := fun c => .ok c.next

def eat (kind : Kind) : Parser Token := fun c => c.eat kind

def eatIf (kind : Kind) : Parser (Option Token) := fun c => .ok (c.eatIf kind)

def checkpoint : Parser Unit := modify Cursor.checkpoint

/-! ## Repeating -/

def manyWithin (step : Parser (Option α)) : Nat → Parser (List α)
  | 0 => return []
  | fuel + 1 => do
    match ← step with
    | none => return []
    | some a => return a :: (← manyWithin step fuel)

/-- Repeats `step` until it finds nothing. A step that finds something takes a token, so the tokens
ahead bound the repetition. -/
def many (step : Parser (Option α)) : Parser (List α) := do
  manyWithin step (← get).ahead.length

end Parser

end Pipework
