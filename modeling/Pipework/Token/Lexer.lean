import Pipework.Fault
import Pipework.Text.Blank
import Pipework.Text.Name
import Pipework.Token

/-! How a text is cut into tokens. After `=` the next token is a value, in which operators have no
meaning up to the first character that ends it. -/

namespace Pipework.Token

open Text

/-- A token at the start of a text: the characters it takes, and those that follow. -/
structure Lexeme where
  kind : Kind
  raw : List Char
  rest : List Char

/-- Why no token could be cut, and how many bytes into the text the fault lies. -/
structure Misread where
  distance : Nat := 0
  message : Message
  inserts : List String := []

/-! ## Names -/

/-- The characters of a name, and the rest. A hyphen before `>` belongs to an arrow. -/
def spanName : List Char → List Char × List Char
  | [] => ([], [])
  | c :: cs =>
    if startsName c || (c == '-' && cs.head? != some '>') then
      let (name, rest) := spanName cs
      (c :: name, rest)
    else ([], c :: cs)

theorem spanName_append (cs : List Char) : (spanName cs).1 ++ (spanName cs).2 = cs := by
  induction cs with
  | nil => rfl
  | cons c cs ih => simp only [spanName]; split <;> simp [ih]

def Kind.ofName (name : List Char) : Kind :=
  if name.all isAsciiDigit then .number (String.ofList name) else .identifier (String.ofList name)

/-! ## Quoted text -/

/-- Quoted text after its opening quote: what it means, what it takes with its closing quote, and
the rest. -/
structure Quoted where
  value : List Char
  raw : List Char
  rest : List Char

def isQuote (c : Char) : Bool := c == '\'' || c == '"'

/-- A doubled quote stands for one; a single one closes the text. -/
def closeQuote (q : Char) : List Char → Option Quoted
  | [] => none
  | [c] => if c = q then some ⟨[], [c], []⟩ else none
  | c :: d :: cs =>
    if c = q then
      if d = q then
        (closeQuote q cs).map fun t => { t with value := q :: t.value, raw := c :: d :: t.raw }
      else some ⟨[], [c], d :: cs⟩
    else (closeQuote q (d :: cs)).map fun t => { t with value := c :: t.value, raw := c :: t.raw }

theorem closeQuote_append {q : Char} {cs : List Char} {t : Quoted} (h : closeQuote q cs = some t) :
    t.raw ++ t.rest = cs := by
  fun_induction closeQuote q cs generalizing t with
  | case1 => contradiction
  | case2 => simp_all; subst h; rfl
  | case3 => contradiction
  | case4 _ ih =>
    obtain ⟨u, hu, rfl⟩ := Option.map_eq_some_iff.mp h
    simp [ih hu]
  | case5 => simp_all; subst h; rfl
  | case6 _ _ _ _ ih =>
    obtain ⟨u, hu, rfl⟩ := Option.map_eq_some_iff.mp h
    simp [ih hu]

def unclosed (q : Char) : Message :=
  if q = '"' then .nonTerminatingDoubleQuotedString else .nonTerminatingQuotedString

/-! ## Values -/

def endsValue (c : Char) : Bool := isBlank c || c == '|' || c == ';' || c == '>'

/-- A value as written: its quoted parts, and whether anything stands outside them. -/
structure Value where
  raw : List Char
  rest : List Char
  quoted : List (List Char)
  hasBare : Bool

/-- A text has fewer parts than characters, so its length bounds the search. -/
def spanValueWithin : Nat → List Char → Except Misread Value
  | _, [] => .ok ⟨[], [], [], false⟩
  | 0, rest => .ok ⟨[], rest, [], false⟩
  | fuel + 1, c :: cs =>
    if endsValue c then .ok ⟨[], c :: cs, [], false⟩
    else if isQuote c then
      match closeQuote c cs with
      | none => .error { message := unclosed c }
      | some q =>
        match spanValueWithin fuel q.rest with
        | .error e => .error { e with distance := e.distance + byteLength (c :: q.raw) }
        | .ok v => .ok { v with raw := c :: q.raw ++ v.raw, quoted := q.value :: v.quoted }
    else
      match spanValueWithin fuel cs with
      | .error e => .error { e with distance := e.distance + c.utf8Size }
      | .ok v => .ok { v with raw := c :: v.raw, hasBare := true }

def spanValue (cs : List Char) : Except Misread Value := spanValueWithin cs.length cs

/-- A value that is one quoted text means that text; any other stands as it is written. -/
def Value.kind (v : Value) : Kind :=
  match v.quoted, v.hasBare with
  | [value], false => .literal (String.ofList value)
  | _, _ => .identifier (String.ofList v.raw)

def scanValue (cs : List Char) : Except Misread Lexeme := do
  let v ← spanValue cs
  return ⟨v.kind, v.raw, v.rest⟩

/-! ## Tokens -/

/-- The operators that no other character can extend. -/
def operator? : Char → Option Kind
  | '=' => some .equals
  | ':' => some .colon
  | '.' => some .dot
  | '>' => some .gt
  | '<' => some .lt
  | '(' => some .lparen
  | ')' => some .rparen
  | '*' => some .star
  | '/' => some .slash
  | '#' => some .hash
  | ';' => some .semicolon
  | _ => none

/-- The token at the start of a text that does not start with white space. -/
def scan : List Char → Except Misread Lexeme
  | [] => .ok ⟨.eof, [], []⟩
  | '|' :: '|' :: cs => .ok ⟨.doublePipe, ['|', '|'], cs⟩
  | '|' :: cs => .ok ⟨.pipe, ['|'], cs⟩
  | '&' :: '&' :: cs => .ok ⟨.andAnd, ['&', '&'], cs⟩
  | '&' :: _ => .error { message := .taskDoubleAndRequired }
  | '-' :: '-' :: cs => .ok ⟨.doubleMinus, ['-', '-'], cs⟩
  | '-' :: '>' :: cs => .ok ⟨.arrow, ['-', '>'], cs⟩
  | '-' :: _ => .error { distance := 1, message := .missingCharacter, inserts := ["-"] }
  | '\\' :: _ => .error { message := .unexpectedEscapeChar }
  | c :: cs =>
    if let some kind := operator? c then .ok ⟨kind, [c], cs⟩
    else if isQuote c then
      match closeQuote c cs with
      | none => .error { message := unclosed c }
      | some q => .ok ⟨.literal (String.ofList q.value), c :: q.raw, q.rest⟩
    else if startsName c then
      let (name, rest) := spanName (c :: cs)
      .ok ⟨.ofName name, name, rest⟩
    else .error { message := .unexpectedData, inserts := [String.ofList [c]] }

/-! ## Reading a source -/

/-- What is left of a source, and where it stands. -/
structure Reader where
  rest : List Char
  offset : Nat := 0
  line : Nat := 1
  column : Nat := 1
  /-- The token before was `=`. -/
  expectsValue : Bool := false

namespace Reader

/-- Passes white space; only here does a newline start a line. -/
def skipBlanks (r : Reader) : Reader := go r.rest r
where
  go : List Char → Reader → Reader
    | [], r => { r with rest := [] }
    | c :: cs, r =>
      if c = '\n' then
        go cs { r with offset := r.offset + 1, line := r.line + 1, column := 1 }
      else if isBlank c then
        go cs { r with offset := r.offset + c.utf8Size, column := r.column + 1 }
      else { r with rest := c :: cs }

def startsValue (r : Reader) : Bool := r.expectsValue && r.rest.head?.any fun c => !endsValue c

/-- The next token, which at the end of the source is `eof`, and the source after it. -/
def next (source : String) (r : Reader) : Except Fault (Token × Reader) :=
  let (at_, scanned) :=
    if r.startsValue then (r, scanValue r.rest)
    else let s := r.skipBlanks; (s, scan s.rest)
  match scanned with
  | .error e =>
    .error { expression := source, offset := at_.offset + e.distance, message := e.message,
             inserts := e.inserts }
  | .ok lexeme =>
    let stop := at_.offset + byteLength lexeme.raw
    .ok (⟨lexeme.kind, ⟨at_.offset, stop, at_.line, at_.column⟩⟩,
      { rest := lexeme.rest, offset := stop, line := at_.line,
        column := at_.column + lexeme.raw.length, expectsValue := lexeme.kind == .equals })

/-- Every token but the last takes a character, so the length of the source bounds the reading. -/
def tokensWithin (source : String) : Nat → Reader → Except Fault (List Token)
  | 0, _ => .ok []
  | fuel + 1, r => do
    let (token, r) ← r.next source
    if token.kind = .eof then return [token]
    return token :: (← tokensWithin source fuel r)

end Reader

/-- All tokens of a source, the last of which is `eof`. -/
def tokenize (source : String) : Except Fault (List Token) :=
  Reader.tokensWithin source (source.length + 1) { rest := source.toList }

/-- A source read one token at a time. Nothing follows `eof` or a fault. -/
structure Stepper where
  source : String
  reader : Reader
  finished : Bool := false

def Stepper.ofSource (source : String) : Stepper := { source, reader := { rest := source.toList } }

def Stepper.next (s : Stepper) : Option (Except Fault Token) × Stepper :=
  if s.finished then (none, s)
  else match s.reader.next s.source with
    | .error fault => (some (.error fault), { s with finished := true })
    | .ok (token, reader) => (some (.ok token), { s with reader, finished := token.kind == .eof })

end Pipework.Token
