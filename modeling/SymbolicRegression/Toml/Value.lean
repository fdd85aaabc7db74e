import SymbolicRegression.Decimal.Numeral
import SymbolicRegression.Json.Basic
import SymbolicRegression.Toml.Text

/-!
The values of TOML documents, as JSON values.  Whole numbers fit a signed word of 64
bits.  A date becomes a record, which no setting takes.
-/

namespace SymbolicRegression
namespace Toml

/-! ### Numbers -/

/-- Digits of a kind with single underscores between them, at least one. -/
def digitRow (isDigit : Char → Bool) : Reader (List Char) := do
  let groups ← whileMore do
    let ds ← someWhile isDigit
    let more ← (do let _ ← char '_'; return true) <|> return false
    return (ds, more)
  return groups.flatten

def sign : Reader (List Char) := do
  (do return [← charIf fun c => c == '+' || c == '-']) <|> return []

/-- The digits of a decimal whole number: a leading zero stands alone. -/
def wholeDigits : Reader (List Char) := do
  if ← goesOnWith '0' then return [← char '0']
  digitRow Char.isDigit

/-- A whole number as a value, if it fits a signed word. -/
def wholeValue (negative : Bool) (n : Nat) : Option Json :=
  if negative && 0 < n then
    if n ≤ Nat.pow 2 63 then some (.number (.negative n)) else none
  else if n < Nat.pow 2 63 then some (.number (.natural n)) else none

def basedNumber (letter : Char) (base : Nat) (isDigit : Char → Bool) : Reader Json := do
  word ['0', letter]
  wholeValue false (valueIn base (← digitRow isDigit))

def wholeNumber : Reader Json := do
  let s ← sign
  wholeValue (s == ['-']) (Decimal.valueOf (← wholeDigits))

def exponent : Reader (List Char) := do
  let e ← charIf fun c => c == 'e' || c == 'E'
  return e :: (← sign) ++ (← digitRow Char.isDigit)

/-- A number with a point or an exponent.  One that is too large is refused, unless it
is negative. -/
def pointNumber : Reader Json := do
  let head := (← sign) ++ (← wholeDigits)
  let tail ← exponent <|> do
    let point ← char '.'
    let fraction ← digitRow Char.isDigit
    let e ← exponent <|> return []
    return point :: fraction ++ e
  let x ← Decimal.double? (head ++ tail)
  if x.isInf && 0.0 < x then failure else return .number (.real x)

/-- Infinity and the value that is no number, with or without a sign. -/
def namedNumber : Reader Json := do
  let s ← sign
  let name ← (do word ['i', 'n', 'f']; return ['i', 'n', 'f']) <|>
    (do word ['n', 'a', 'n']; return ['n', 'a', 'n'])
  return .number (.real (← Decimal.double? (s ++ name)))

/-! ### Dates and times -/

/-- A number of exactly so many digits between two bounds. -/
def fixedNumber (digits lo hi : Nat) : Reader Nat := fun s =>
  let ds := s.take digits
  let n := Decimal.valueOf ds
  if ds.length = digits && ds.all Char.isDigit && lo ≤ n && n ≤ hi then some (n, s.drop digits)
  else none

def isLeapYear (year : Nat) : Bool := year % 4 == 0 && (year % 100 != 0 || year % 400 == 0)

def daysIn (year month : Nat) : Nat :=
  if month = 2 then if isLeapYear year then 29 else 28
  else if month ∈ [4, 6, 9, 11] then 30
  else 31

def date : Reader Unit := do
  let year ← fixedNumber 4 0 9999
  let _ ← char '-'
  let month ← fixedNumber 2 1 12
  let _ ← char '-'
  let _ ← fixedNumber 2 1 (daysIn year month)

/-- A time of day; a leap second may follow the last one. -/
def time : Reader Unit := do
  let _ ← fixedNumber 2 0 23
  let _ ← char ':'
  let _ ← fixedNumber 2 0 59
  let _ ← char ':'
  let _ ← fixedNumber 2 0 60
  (do let _ ← char '.'; let _ ← someWhile Char.isDigit) <|> return ()

def timeOffset : Reader Unit := do
  (do let _ ← charIf fun c => c == 'Z' || c == 'z') <|> do
    let _ ← charIf fun c => c == '+' || c == '-'
    let _ ← fixedNumber 2 0 23
    let _ ← char ':'
    let _ ← fixedNumber 2 0 59

/-- A date, a time, or a date and a time with an offset or without one. -/
def dateTime : Reader Json := do
  (do
    date
    (do
      let _ ← charIf fun c => c == 'T' || c == 't' || c == ' '
      time
      timeOffset <|> return ()) <|> return ()) <|> time
  return .record [("date", .null)]

/-! ### Values -/

def scalar : Reader Json := do
  (do return .text (← string)) <|>
  (do word ['t', 'r', 'u', 'e']; return .bool true) <|>
  (do word ['f', 'a', 'l', 's', 'e']; return .bool false) <|>
  dateTime <|> pointNumber <|> namedNumber <|>
  basedNumber 'x' 16 isHexDigit <|>
  basedNumber 'o' 8 (fun c => '0' ≤ c && c ≤ '7') <|>
  basedNumber 'b' 2 (fun c => c == '0' || c == '1') <|>
  wholeNumber

/-- Values with commas between them, on as many lines as wanted.  A comma may follow the
last one. -/
def array (element : Reader Json) : Reader Json := do
  let _ ← char '['
  emptyLines
  if ← goesOnWith ']' then
    let _ ← char ']'
    return .array []
  let items ← whileMore do
    let j ← element
    emptyLines
    if ← goesOnWith ',' then
      let _ ← char ','
      emptyLines
    else if !(← goesOnWith ']') then failure
    if ← goesOnWith ']' then
      let _ ← char ']'
      return (j, false)
    return (j, true)
  return .array items

/-- A key with a value on the same line. -/
def entry (element : Reader Json) : Reader (List String × Json) := do
  let key ← dottedKey
  let _ ← char '='
  blanks
  return (key, ← element)

/-- The entries of a table in braces, on one line. -/
def inlineEntries (element : Reader Json) : Reader (List (List String × Json)) := do
  let _ ← char (Char.ofNat 123)
  let close := Char.ofNat 125
  blanks
  if ← goesOnWith close then
    let _ ← char close
    return []
  whileMore do
    let e ← entry element
    blanks
    if ← goesOnWith ',' then
      let _ ← char ','
      return (e, true)
    let _ ← char close
    return (e, false)

end Toml
end SymbolicRegression
