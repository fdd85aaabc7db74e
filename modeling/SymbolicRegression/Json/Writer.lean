import SymbolicRegression.Json.Basic

/-!
Writing JSON without blanks.
-/

namespace SymbolicRegression
namespace Json

open Decimal

/-- Numbers in JSON: the shortest digits, positional from `1e-5` up to below `1e16`,
always with a point or an exponent, and an exponent always with its sign. -/
def numberLayout : Layout where
  positional e := decide (-5 ≤ e) && decide (e < 16)
  pointZero := true
  plusSign := true
  tie := .even

/-- One character inside a JSON text: quote, backslash and control characters are
escaped, and nothing else. -/
def escape (c : Char) : List Char :=
  if c = Text.quoteMark ∨ c = Text.backslash then [Text.backslash, c]
  else match c.toNat with
    | 8 => [Text.backslash, 'b']
    | 9 => [Text.backslash, 't']
    | 10 => [Text.backslash, 'n']
    | 12 => [Text.backslash, 'f']
    | 13 => [Text.backslash, 'r']
    | n =>
      if n < 32 then
        [Text.backslash, 'u', '0', '0', Nat.digitChar (n / 16), Nat.digitChar (n % 16)]
      else [c]

def printText (s : String) : List Char :=
  Text.quoteMark :: s.toList.flatMap escape ++ [Text.quoteMark]

def printNumber : Number → List Char
  | .natural n => digitsOf n
  | .negative n => '-' :: digitsOf n
  | .real x => numberLayout.write x

def openBrace : Char := Char.ofNat 123

def closeBrace : Char := Char.ofNat 125

mutual

/-- The written form.  A part without a value is written as `null`. -/
def print : Json → List Char
  | bool true => ['t', 'r', 'u', 'e']
  | bool false => ['f', 'a', 'l', 's', 'e']
  | number n => printNumber n
  | text s => printText s
  | array items => '[' :: (printItems items ++ [']'])
  | object members => openBrace :: (printMembers members ++ [closeBrace])
  | _ => ['n', 'u', 'l', 'l']

def printItems : List Json → List Char
  | [] => []
  | j :: js => j.print ++ printMoreItems js

def printMoreItems : List Json → List Char
  | [] => []
  | j :: js => ',' :: (j.print ++ printMoreItems js)

def printMembers : List (Option String × Json) → List Char
  | [] => []
  | (key, j) :: ms => printText (key.getD "") ++ ':' :: (j.print ++ printMoreMembers ms)

def printMoreMembers : List (Option String × Json) → List Char
  | [] => []
  | (key, j) :: ms =>
    ',' :: (printText (key.getD "") ++ ':' :: (j.print ++ printMoreMembers ms))

end

def compact (j : Json) : String := String.ofList j.print

/-- A sixteen-bit code as an escape of four digits. -/
def printCode (n : Nat) : List Char :=
  let ds := Nat.toDigits 16 n
  [Text.backslash, 'u'] ++ List.replicate (4 - ds.length) '0' ++ ds

/-- A character in ASCII: itself, or the codes of its one or two sixteen-bit units. -/
def asciiChar (c : Char) : List Char :=
  let n := c.toNat
  if n < 0x80 then [c]
  else if n < 0x10000 then printCode n
  else printCode (0xD800 + (n - 0x10000) / 0x400) ++ printCode (0xDC00 + (n - 0x10000) % 0x400)

/-- The written form in ASCII alone.  Other characters stand in texts only, where every
one of them may be escaped. -/
def compactAscii (j : Json) : String := String.ofList (j.print.flatMap asciiChar)

end Json
end SymbolicRegression
