import Pipework.Config.Basic

/-! Reading a configuration from a TOML document. A configuration has settings at its top level
only, each a whole number or a list of texts, so anything else in the document is refused. -/

namespace Pipework.Config

/-! ## Blanks, comments and lines -/

def isSpace (c : Char) : Bool := c == ' ' || c == '\t'

/-- Everything but control characters; the tab is allowed. -/
def isPlain (c : Char) : Bool := c == '\t' || (' ' ≤ c && c != '\x7f')

def skipSpaces (cs : List Char) : List Char := cs.dropWhile isSpace

/-- Passes blanks, lines and comments. -/
def skipLines : (inComment : Bool) → List Char → List Char
  | _, [] => []
  | _, '\r' :: '\n' :: cs => skipLines false cs
  | inComment, c :: cs =>
    if c = '\n' then skipLines false cs
    else if inComment then if isPlain c then skipLines true cs else c :: cs
    else if c = '#' then skipLines true cs
    else if isSpace c then skipLines false cs
    else c :: cs

def newline? : List Char → Option (List Char)
  | '\n' :: cs => some cs
  | '\r' :: '\n' :: cs => some cs
  | _ => none

/-- The text after this line, of which only blanks and a comment may be left. -/
def endLine? (cs : List Char) : Option (List Char) :=
  let cs := match skipSpaces cs with
    | '#' :: cs => cs.dropWhile isPlain
    | cs => cs
  if cs.isEmpty then some [] else newline? cs

/-! ## Numbers -/

def digitValue? (base : Nat) (c : Char) : Option Nat :=
  let value :=
    if '0' ≤ c && c ≤ '9' then c.toNat - '0'.toNat
    else if 'a' ≤ c && c ≤ 'f' then c.toNat - 'a'.toNat + 10
    else if 'A' ≤ c && c ≤ 'F' then c.toNat - 'A'.toNat + 10
    else base
  if value < base then some value else none

/-- The digits at the start of a text, each but the first perhaps behind an underscore. -/
def digits (base : Nat) : List Char → List Nat × List Char
  | '_' :: c :: cs =>
    match digitValue? base c with
    | some d => let (ds, rest) := digits base cs; (d :: ds, rest)
    | none => ([], '_' :: c :: cs)
  | c :: cs =>
    match digitValue? base c with
    | some d => let (ds, rest) := digits base cs; (d :: ds, rest)
    | none => ([], c :: cs)
  | [] => ([], [])

def number (base : Nat) (ds : List Nat) : Nat := ds.foldl (fun n d => n * base + d) 0

def natural? (base : Nat) (cs : List Char) : Option (Nat × List Char) :=
  if cs.head? = some '_' then none
  else match digits base cs with
    | ([], _) => none
    | (ds, rest) => some (number base ds, rest)

/-- A decimal number starts with zero only if it is zero. -/
def decimal? (cs : List Char) : Option (Nat × List Char) :=
  match cs with
  | '0' :: rest => some (0, rest)
  | _ => natural? 10 cs

def integer? : List Char → Option (Int × List Char)
  | '0' :: 'x' :: cs => (natural? 16 cs).map fun (n, rest) => (n, rest)
  | '0' :: 'o' :: cs => (natural? 8 cs).map fun (n, rest) => (n, rest)
  | '0' :: 'b' :: cs => (natural? 2 cs).map fun (n, rest) => (n, rest)
  | '-' :: cs => (decimal? cs).map fun (n, rest) => (-n, rest)
  | '+' :: cs => (decimal? cs).map fun (n, rest) => (n, rest)
  | cs => (decimal? cs).map fun (n, rest) => (n, rest)

/-! ## Texts -/

/-- What the next characters of a quoted text mean, and whether the text ends with them. -/
structure Piece where
  value : List Char
  rest : List Char
  closes : Bool

def piece (value rest : List Char) : Option Piece := some ⟨value, rest, false⟩

/-- A piece takes a character at least, so the length of the text bounds their number. -/
def piecesWithin (step : List Char → Option Piece) :
    Nat → List Char → Option (List Char × List Char)
  | 0, _ => none
  | fuel + 1, cs => do
    let p ← step cs
    if p.closes then return (p.value, p.rest)
    let (value, rest) ← piecesWithin step fuel p.rest
    return (p.value ++ value, rest)

/-- The text that the pieces up to the closing one mean, and what follows. -/
def pieces (step : List Char → Option Piece) (cs : List Char) : Option (String × List Char) :=
  (piecesWithin step cs.length cs).map fun (value, rest) => (String.ofList value, rest)

def scalar? (n : Nat) : Option Char :=
  if n < 0xd800 || (0xe000 ≤ n && n ≤ 0x10ffff) then some (Char.ofNat n) else none

/-- A character given by a fixed count of hexadecimal digits. -/
def hexadecimal? (count : Nat) (cs : List Char) : Option Piece := do
  let ds ← (cs.take count).mapM (digitValue? 16)
  if ds.length = count then piece [← scalar? (number 16 ds)] (cs.drop count) else none

/-- What follows a backslash. -/
def escape? : List Char → Option Piece
  | 'b' :: cs => piece ['\x08'] cs
  | 't' :: cs => piece ['\t'] cs
  | 'n' :: cs => piece ['\n'] cs
  | 'f' :: cs => piece ['\x0c'] cs
  | 'r' :: cs => piece ['\r'] cs
  | '"' :: cs => piece ['"'] cs
  | '\\' :: cs => piece ['\\'] cs
  | 'u' :: cs => hexadecimal? 4 cs
  | 'U' :: cs => hexadecimal? 8 cs
  | _ => none

/-- In double quotes, on one line. -/
def basicPiece : List Char → Option Piece
  | '"' :: cs => some ⟨[], cs, true⟩
  | '\\' :: cs => escape? cs
  | c :: cs => if isPlain c then piece [c] cs else none
  | [] => none

/-- In single quotes, on one line. -/
def literalPiece : List Char → Option Piece
  | '\'' :: cs => some ⟨[], cs, true⟩
  | c :: cs => if isPlain c then piece [c] cs else none
  | [] => none

/-- Quotes inside a text over several lines: three close it, and up to two before them belong to
it. -/
def quotesPiece (q : Char) (cs : List Char) : Option Piece :=
  let count := (cs.takeWhile (· == q)).length
  if count = 0 then none
  else if count < 3 then piece (List.replicate count q) (cs.drop count)
  else
    let inner := min (count - 3) 2
    some ⟨List.replicate inner q, cs.drop (inner + 3), true⟩

/-- Behind a backslash, a line break and the blanks after it are left out. -/
def skipBreak? (cs : List Char) : Option (List Char) :=
  (newline? (skipSpaces cs)).map skipAll
where
  skipAll : List Char → List Char
    | '\r' :: '\n' :: cs => skipAll cs
    | c :: cs => if isSpace c || c == '\n' then skipAll cs else c :: cs
    | [] => []

def linePiece (cs : List Char) : Option Piece :=
  match newline? cs, cs with
  | some rest, _ => piece ['\n'] rest
  | none, c :: rest => if isPlain c then piece [c] rest else none
  | none, [] => none

/-- In three double quotes. -/
def basicLinesPiece (cs : List Char) : Option Piece :=
  match cs with
  | '\\' :: rest =>
    match skipBreak? rest with
    | some rest => piece [] rest
    | none => escape? rest
  | _ => quotesPiece '"' cs <|> linePiece cs

/-- In three single quotes. -/
def literalLinesPiece (cs : List Char) : Option Piece := quotesPiece '\'' cs <|> linePiece cs

/-- A line break right after the opening quotes is not part of the text. -/
def dropNewline (cs : List Char) : List Char := (newline? cs).getD cs

def text? : List Char → Option (String × List Char)
  | '"' :: '"' :: '"' :: cs => pieces basicLinesPiece (dropNewline cs)
  | '"' :: cs => pieces basicPiece cs
  | '\'' :: '\'' :: '\'' :: cs => pieces literalLinesPiece (dropNewline cs)
  | '\'' :: cs => pieces literalPiece cs
  | _ => none

/-! ## Settings -/

inductive Setting where
  | number (n : Int)
  | texts (items : List String)
  deriving DecidableEq, Repr

/-- The items of a list after its opening bracket. A comma may stand behind the last one. -/
def itemsWithin : Nat → List Char → Option (List String × List Char)
  | 0, _ => none
  | fuel + 1, cs =>
    match skipLines false cs with
    | ']' :: rest => some ([], rest)
    | cs => do
      let (item, cs) ← text? cs
      match skipLines false cs with
      | ',' :: cs =>
        let (items, rest) ← itemsWithin fuel cs
        return (item :: items, rest)
      | ']' :: rest => return ([item], rest)
      | _ => none

def setting? : List Char → Option (Setting × List Char)
  | '[' :: cs => (itemsWithin cs.length cs).map fun (items, rest) => (.texts items, rest)
  | cs => (integer? cs).map fun (n, rest) => (.number n, rest)

def isKeyChar (c : Char) : Bool :=
  ('a' ≤ c && c ≤ 'z') || ('A' ≤ c && c ≤ 'Z') || ('0' ≤ c && c ≤ '9') || c == '_' || c == '-'

def key? : List Char → Option (String × List Char)
  | '"' :: cs => pieces basicPiece cs
  | '\'' :: cs => pieces literalPiece cs
  | cs =>
    let key := cs.takeWhile isKeyChar
    if key.isEmpty then none else some (String.ofList key, cs.dropWhile isKeyChar)

/-- Each setting takes a line. -/
def settingsWithin : Nat → List Char → Option (List (String × Setting))
  | 0, _ => some []
  | fuel + 1, cs =>
    match skipLines false cs with
    | [] => some []
    | cs => do
      let (key, cs) ← key? cs
      match skipSpaces cs with
      | '=' :: cs =>
        let (setting, cs) ← setting? (skipSpaces cs)
        let cs ← endLine? cs
        return (key, setting) :: (← settingsWithin fuel cs)
      | _ => none

/-- A byte order mark may come first. -/
def settings? (text : String) : Option (List (String × Setting)) :=
  match text.toList with
  | '\ufeff' :: cs => settingsWithin (cs.length + 1) cs
  | cs => settingsWithin (cs.length + 1) cs

/-! ## Configurations -/

/-- The largest number that a document can give. -/
def maxInteger : Int := 9223372036854775807

def maxSuffixStart : Int := 4294967295

/-- A whole number from zero to a limit. -/
def natUpTo? (limit : Int) : Setting → Option Nat
  | .number n => if 0 ≤ n ∧ n ≤ limit then some n.toNat else none
  | .texts _ => none

def Setting.texts? : Setting → Option (List String)
  | .number _ => none
  | .texts items => some items

def set? (c : Config) (key : String) (setting : Setting) : Option Config :=
  if key = "max_proposals" then
    (natUpTo? maxInteger setting).map fun n => { c with maxProposals := n }
  else if key = "disabled_strategies" then
    setting.texts?.map fun items => { c with disabled := items }
  else if key = "label_suffix_start" then
    (natUpTo? maxSuffixStart setting).map fun n => { c with labelSuffixStart := n }
  else none

/-- No key can be given twice. -/
def ofSettings? (settings : List (String × Setting)) : Option Config :=
  if (settings.map Prod.fst).Nodup then
    settings.foldlM (fun c (key, setting) => c.set? key setting) {}
  else none

/-- Why there is no configuration. -/
inductive Fault where
  /-- The document cannot be had. -/
  | missing
  | malformed
  | invalid (invalid : Invalid)
  deriving DecidableEq, Repr

def read (text : String) : Except Fault Config :=
  match (settings? text).bind ofSettings? with
  | none => .error .malformed
  | some c =>
    match c.validate with
    | .ok () => .ok c
    | .error invalid => .error (.invalid invalid)

/-- Reads the contents of a file, if there is one. -/
def readContents (contents : Option String) : Except Fault Config :=
  match contents with
  | none => .error .missing
  | some text => read text

end Pipework.Config
