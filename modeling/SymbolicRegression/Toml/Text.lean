import SymbolicRegression.Text.Quoted

/-!
The words of TOML documents: blanks, comments, strings and keys.

A reader takes what it reads off the front of a text, or gives nothing.
-/

namespace SymbolicRegression
namespace Toml

abbrev Reader := StateT (List Char) Option

/-- The next character, if it is one of those wanted. -/
def charIf (wanted : Char → Bool) : Reader Char
  | [] => none
  | c :: s => if wanted c then some (c, s) else none

def char (c : Char) : Reader Char := charIf (· == c)

def word (letters : List Char) : Reader Unit := fun s =>
  if letters.isPrefixOf s then some ((), s.drop letters.length) else none

def charsWhile (wanted : Char → Bool) : Reader (List Char) := fun s =>
  some (s.takeWhile wanted, s.dropWhile wanted)

def someWhile (wanted : Char → Bool) : Reader (List Char) := do
  let cs ← charsWhile wanted
  if cs.isEmpty then failure else return cs

/-- Does the text go on with a character?  Nothing is taken. -/
def goesOnWith (c : Char) : Reader Bool := fun s => some (s.head? == some c, s)

def atEnd : Reader Bool := fun s => some (s.isEmpty, s)

/-- Runs a step that says whether there is more, until there is no more.  Every step
has to take something. -/
def whileMore {α : Type} (step : Reader (α × Bool)) (s : List Char) : Option (List α × List Char) :=
  match step s with
  | none => none
  | some ((a, false), r) => some ([a], r)
  | some ((a, true), r) =>
    if r.length < s.length then (whileMore step r).map fun (as, t) => (a :: as, t) else none
termination_by s.length

/-! ### Blanks and comments -/

def isBlank (c : Char) : Bool := c == ' ' || c == '\t'

def blanks : Reader Unit := do let _ ← charsWhile isBlank

/-- A character that may stand in comments and strings: no control character but the
tabulator. -/
def isVisible (c : Char) : Bool := c == '\t' || (32 ≤ c.toNat && c.toNat != 127)

/-- The end of a line, with or without a carriage return. -/
def newline : Reader Unit := word ['\n'] <|> word ['\r', '\n']

def comment : Reader Unit := do
  let _ ← char '#'
  let _ ← charsWhile isVisible

/-- The rest of a line: blanks and perhaps a comment. -/
def lineRest : Reader Unit := do
  blanks
  if ← goesOnWith '#' then comment

/-- Lines without content, as many as there are. -/
def emptyLines : Reader Unit := do
  let _ ← whileMore do
    lineRest
    let more ← (do newline; return true) <|> return false
    return ((), more)

/-! ### Strings -/

def isHexDigit (c : Char) : Bool :=
  c.isDigit || ('a' ≤ c && c ≤ 'f') || ('A' ≤ c && c ≤ 'F')

def hexDigitValue (c : Char) : Nat :=
  if c.isDigit then c.toNat - '0'.toNat else 10 + (c.toLower.toNat - 'a'.toNat)

/-- The number that a row of digits stands for in a base. -/
def valueIn (base : Nat) (ds : List Char) : Nat :=
  ds.foldl (fun n c => base * n + hexDigitValue c) 0

/-- The character with a code of a fixed number of hexadecimal digits. -/
def coded (digits : Nat) : Reader Char := fun s =>
  let ds := s.take digits
  let n := valueIn 16 ds
  if ds.length = digits && ds.all isHexDigit && n.isValidChar then
    some (Char.ofNat n, s.drop digits)
  else none

def escaped : Reader Char := do
  match ← charIf fun _ => true with
  | 'b' => return Char.ofNat 8
  | 't' => return '\t'
  | 'n' => return '\n'
  | 'f' => return Char.ofNat 12
  | 'r' => return '\r'
  | 'u' => coded 4
  | 'U' => coded 8
  | c => if c == Text.quoteMark || c == Text.backslash then return c else failure

def apostrophe : Char := Char.ofNat 39

/-- A string on one line whose opening quote has been read.  With escapes a backslash
begins one, else it stands for itself. -/
def lineBody (quote : Char) (escapes : Bool) : Reader (List Char) := do
  let pieces ← whileMore do
    if ← goesOnWith quote then
      let _ ← char quote
      return ([], false)
    if escapes then
      if ← goesOnWith Text.backslash then
        let _ ← char Text.backslash
        return ([← escaped], true)
    return ([← charIf isVisible], true)
  return pieces.flatten

/-- A backslash at the end of a line joins lines: it takes all blanks and line ends that
follow. -/
def joint : Reader Unit := do
  blanks
  newline
  let _ ← charsWhile isBlank
  let _ ← whileMore do
    blanks
    let more ← (do newline; return true) <|> return false
    return ((), more)

/-- The quotes at the end of a string over several lines: three close it, and up to two
more before them belong to it. -/
def closingQuotes (quote : Char) : Reader (List Char) := do
  let quotes ← charsWhile (· == quote)
  if 3 ≤ quotes.length && quotes.length ≤ 5 then return quotes.drop 3 else failure

/-- A string over several lines whose opening quotes have been read. -/
def blockBody (quote : Char) (escapes : Bool) : Reader (List Char) := do
  let _ ← newline <|> return ()
  let pieces ← whileMore do
    if ← goesOnWith quote then
      (do return (← closingQuotes quote, false)) <|> do
        let quotes ← charsWhile (· == quote)
        if quotes.length ≤ 2 then return (quotes, true) else failure
    else if ← goesOnWith Text.backslash then
      if escapes then
        let _ ← char Text.backslash
        (do joint; return ([], true)) <|> do return ([← escaped], true)
      else return ([← charIf isVisible], true)
    else (do newline; return (['\n'], true)) <|> do return ([← charIf isVisible], true)
  return pieces.flatten

def lineString : Reader String := do
  let quote ← charIf fun c => c == Text.quoteMark || c == apostrophe
  return String.ofList (← lineBody quote (quote == Text.quoteMark))

def blockString : Reader String := do
  let quote ← charIf fun c => c == Text.quoteMark || c == apostrophe
  word [quote, quote]
  return String.ofList (← blockBody quote (quote == Text.quoteMark))

/-- Three quotes always begin a string over several lines. -/
def string : Reader String := fun s =>
  match s with
  | a :: b :: c :: _ => if a == b && b == c then blockString s else lineString s
  | _ => lineString s

/-! ### Keys -/

def isBareKeyChar (c : Char) : Bool := c.isAlphanum || c == '-' || c == '_'

def simpleKey : Reader String := do
  lineString <|> do return String.ofList (← someWhile isBareKeyChar)

/-- How long a dotted key may be, and how deep values may be nested. -/
def nestingLimit : Nat := 79

/-- A key of one or more parts with dots between them. -/
def dottedKey : Reader (List String) := do
  let parts ← whileMore do
    blanks
    let part ← simpleKey
    blanks
    let more ← (do let _ ← char '.'; return true) <|> return false
    return (part, more)
  if parts.length ≤ nestingLimit then return parts else failure

end Toml
end SymbolicRegression
